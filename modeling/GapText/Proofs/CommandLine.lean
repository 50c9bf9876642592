import GapText.Viewer.Options
import Mathlib.Data.List.Forall2
import Mathlib.Data.List.Induction

/-!
# The grammar of the command line

A command line is read argument by argument, and what was read so far is kept in the options. As a
whole it falls apart into items, each written as one argument or two (`Splits`), and what it asks
for can be told from the items (`asked`). Where no item starts there is a misfit, with something to
tell about it (`Misfit`).

The reader takes one item after the other (`parseItems_append`), until it comes to the end or to a
misfit (`readable`). So it is the items that say what is accepted and what comes of it, and their
order matters no further than that of the words and of equal options.
-/

namespace GapText

open Bytes

/-! ## Names of levels -/

namespace Level

/-- A byte that is a given one, or the small letter of a given capital. -/
def InEitherCase (b u : UInt8) : Prop := b = u ∨ 65 ≤ u ∧ u ≤ 90 ∧ b = u + 32

/-- The bytes are the name of the level, in any mixture of cases. -/
def SpeltAs (l : Level) (s : Bytes) : Prop := l ∈ named ∧ List.Forall₂ InEitherCase s l.name

theorem upper_byte_eq_iff {u : UInt8} (hu : u < 97 ∨ 122 < u) (b : UInt8) :
    (if 97 ≤ b ∧ b ≤ 122 then b - 32 else b) = u ↔ InEitherCase b u := by
  have hb := b.toNat_lt
  have hlt := u.toNat_lt
  simp only [InEitherCase, UInt8.le_iff_toNat_le, UInt8.lt_iff_toNat_lt, ← UInt8.toNat_inj,
    UInt8.toNat_add, UInt8.toNat_ofNat, apply_ite UInt8.toNat, UInt8.toNat_sub] at hu ⊢
  split <;> omega

theorem upper_eq_iff {s t : Bytes} (ht : ∀ u ∈ t, u < 97 ∨ 122 < u) :
    s.upper = t ↔ List.Forall₂ InEitherCase s t := by
  induction s generalizing t with
  | nil =>
      rw [List.forall₂_nil_left_iff]
      exact eq_comm
  | cons b s ih =>
      cases t with
      | nil =>
          rw [List.forall₂_nil_right_iff]
          exact iff_of_false (List.cons_ne_nil _ _) (List.cons_ne_nil _ _)
      | cons u t =>
          obtain ⟨hu, ht⟩ := List.forall_mem_cons.mp ht
          rw [List.forall₂_cons, ← upper_byte_eq_iff hu, ← ih ht]
          exact List.cons_eq_cons

/-- The levels with a name have different ones, all without small letters. -/
theorem name_of_mem_named :
    (∀ l ∈ named, ∀ u ∈ l.name, u < 97 ∨ 122 < u) ∧
      ∀ l ∈ named, ∀ l' ∈ named, l.name = l'.name → l = l' := by
  decide +kernel

theorem parse?_eq_some_iff {s : Bytes} {l : Level} : parse? s = some l ↔ l.SpeltAs s := by
  obtain ⟨hcapital, hinj⟩ := name_of_mem_named
  have hname {l : Level} (h : named.find? (fun l => l.name == s.upper) = some l) :
      l ∈ named ∧ l.name = s.upper :=
    ⟨List.mem_of_find?_eq_some h,
      beq_iff_eq.mp (List.find?_some (p := fun l : Level => l.name == s.upper) h)⟩
  constructor
  · intro h
    obtain ⟨hmem, heq⟩ := hname h
    exact ⟨hmem, (upper_eq_iff (hcapital l hmem)).mp heq.symm⟩
  · rintro ⟨hmem, hspelt⟩
    have heq := (upper_eq_iff (hcapital l hmem)).mpr hspelt
    cases hfind : parse? s with
    | none => exact absurd (beq_iff_eq.mpr heq.symm) (List.find?_eq_none.mp hfind l hmem)
    | some l' =>
        obtain ⟨hmem', heq'⟩ := hname hfind
        rw [hinj l hmem l' hmem' (heq.symm.trans heq'.symm)]

theorem parse?_eq_none_iff {s : Bytes} : parse? s = none ↔ ∀ l : Level, ¬ l.SpeltAs s := by
  simp only [← parse?_eq_some_iff, Option.eq_none_iff_forall_ne_some, ne_eq]

end Level

namespace Options

/-! ## Items -/

/-- What a command line consists of. -/
inductive Item where
  | verbose
  | unibyte
  | logFile (file : Bytes)
  | logLevel (l : Level)
  | word (w : Bytes)
deriving DecidableEq, Repr

/-- The arguments that an item is written as. -/
inductive Item.Written : Item → List Bytes → Prop
  | verbose : Written .verbose [ascii "-v"]
  | unibyte : Written .unibyte [ascii "--unibyte"]
  | logFile (file : Bytes) : Written (.logFile file) [ascii "--log", file]
  | logLevel {name : Bytes} {l : Level} (h : l.SpeltAs name) :
      Written (.logLevel l) [ascii "--log-level", name]
  | word {w : Bytes} (h : ¬ ascii "-" <+: w) : Written (.word w) [w]

/-- Arguments that fall apart, from left to right, into items. -/
inductive Splits : List Bytes → List Item → Prop
  | nil : Splits [] []
  | cons {item : Item} {items : List Item} {args rest : List Bytes} (h : item.Written args)
      (hrest : Splits rest items) : Splits (args ++ rest) (item :: items)

/-- The arguments that an option starts with. -/
def optionNames : List Bytes := ["-v", "--unibyte", "--log", "--log-level"].map ascii

/-- Arguments that do not start with an item, and what is told about the first of them. -/
inductive Misfit : List Bytes → Bytes → Prop
  | noLogFile : Misfit [ascii "--log"] (ascii "--log needs a file name")
  | noLevelName : Misfit [ascii "--log-level"] (ascii "--log-level needs a level name")
  | unknownLevel {name : Bytes} (rest : List Bytes) (h : ∀ l : Level, ¬ l.SpeltAs name) :
      Misfit (ascii "--log-level" :: name :: rest) (ascii "unknown log level: " ++ name)
  | unknownOption {arg : Bytes} (rest : List Bytes) (hdash : ascii "-" <+: arg)
      (h : arg ∉ optionNames) :
      Misfit (arg :: rest) (ascii "unknown option: " ++ arg)

def Item.word? : Item → Option Bytes
  | .word w => some w
  | _ => none

def Item.logFile? : Item → Option Bytes
  | .logFile file => some file
  | _ => none

def Item.logLevel? : Item → Option Level
  | .logLevel l => some l
  | _ => none

/-- The words among the items, in order. -/
def words (items : List Item) : List Bytes := items.filterMap Item.word?

/-- What items ask for: the first word is the file, and the second the word to mark. -/
def asked (items : List Item) : Options where
  file := (words items).getD 0 []
  word := (words items).getD 1 []
  multibyte := decide (Item.unibyte ∉ items)
  verbose := decide (Item.verbose ∈ items)
  logFile := (items.filterMap Item.logFile?).getLast?
  logLevel := (items.filterMap Item.logLevel?).getLast?

variable {o : Options} {item : Item} {items items' : List Item}
  {argv args args' rest ws : List Bytes} {message : Bytes}

/-! ## Reading items -/

/-- The options after one more item; words take no place before the end. -/
def withItem (o : Options) : Item → Options
  | .verbose => { o with verbose := true }
  | .unibyte => { o with multibyte := false }
  | .logFile file => { o with logFile := some file }
  | .logLevel l => { o with logLevel := some l }
  | .word _ => o

theorem isDashed_eq_true_iff (arg : Bytes) : isDashed arg = true ↔ ascii "-" <+: arg := by
  cases arg with
  | nil => decide
  | cons b arg =>
      show (some b == some 45) = true ↔ [45] <+: b :: arg
      rw [beq_iff_eq, Option.some.injEq, List.cons_prefix_cons, and_iff_left (List.nil_prefix)]
      exact eq_comm

theorem not_mem_optionNames {w : Bytes} (h : ¬ ascii "-" <+: w) : w ∉ optionNames := by
  have hdashed : ∀ name ∈ optionNames, ascii "-" <+: name := by decide
  exact fun hmem => h (hdashed w hmem)

theorem parseItems_other {arg : Bytes} (h : arg ∉ optionNames) (o : Options)
    (ws rest : List Bytes) :
    parseItems o ws (arg :: rest) =
      if isDashed arg then ⟨o, some (.unknownOption arg)⟩ else parseItems o (ws ++ [arg]) rest := by
  simp only [optionNames, List.map_cons, List.map_nil, List.mem_cons, List.not_mem_nil, or_false,
    not_or] at h
  obtain ⟨hv, hunibyte, hlog, hlevel⟩ := h
  rw [parseItems.eq_def]
  dsimp only
  rw [if_neg hv, if_neg hunibyte, if_neg hlog, if_neg hlevel]

theorem parseItems_log (o : Options) (ws rest : List Bytes) :
    parseItems o ws (ascii "--log" :: rest) =
      match rest with
      | [] => ⟨o, some .noLogFile⟩
      | file :: rest => parseItems { o with logFile := some file } ws rest := by
  rw [parseItems.eq_def]
  exact (if_neg (by decide)).trans ((if_neg (by decide)).trans (if_pos rfl))

theorem parseItems_logLevel (o : Options) (ws rest : List Bytes) :
    parseItems o ws (ascii "--log-level" :: rest) =
      match rest with
      | [] => ⟨o, some .noLevelName⟩
      | name :: rest =>
        match Level.parse? name with
        | none => ⟨o, some (.unknownLevel name)⟩
        | some l => parseItems { o with logLevel := some l } ws rest := by
  rw [parseItems.eq_def]
  exact (if_neg (by decide)).trans ((if_neg (by decide)).trans ((if_neg (by decide)).trans
    (if_pos rfl)))

/-- One item is read as a whole, whatever comes behind it. -/
theorem parseItems_written (h : item.Written args) (o : Options) (ws rest : List Bytes) :
    parseItems o ws (args ++ rest) =
      parseItems (o.withItem item) (ws ++ item.word?.toList) rest := by
  have hnil : ws ++ [] = ws := List.append_nil ws
  cases h with
  | verbose =>
      rw [List.singleton_append, parseItems.eq_def]
      dsimp only [Item.word?, Option.toList, withItem]
      rw [if_pos rfl, hnil]
  | unibyte =>
      rw [List.singleton_append, parseItems.eq_def]
      dsimp only [Item.word?, Option.toList, withItem]
      rw [if_neg (by decide), if_pos rfl, hnil]
  | logFile file =>
      rw [List.cons_append, List.singleton_append, parseItems_log]
      dsimp only [Item.word?, Option.toList, withItem]
      rw [hnil]
  | logLevel hname =>
      rw [List.cons_append, List.singleton_append, parseItems_logLevel]
      dsimp only [Item.word?, Option.toList, withItem]
      rw [Level.parse?_eq_some_iff.mpr hname, hnil]
  | word hword =>
      rw [List.singleton_append, parseItems_other (not_mem_optionNames hword),
        if_neg (mt (isDashed_eq_true_iff _).mp hword)]
      rfl

/-- What is told of a misfit; the options stay as they stand. -/
theorem parseItems_misfit (h : Misfit rest message) (o : Options) (ws : List Bytes) :
    ∃ r, parseItems o ws rest = ⟨o, some r⟩ ∧ r.message = message := by
  cases h with
  | noLogFile => exact ⟨.noLogFile, parseItems_log o ws [], rfl⟩
  | noLevelName => exact ⟨.noLevelName, parseItems_logLevel o ws [], rfl⟩
  | @unknownLevel name rest hname =>
      refine ⟨.unknownLevel name, ?_, rfl⟩
      rw [parseItems_logLevel]
      dsimp only
      rw [Level.parse?_eq_none_iff.mpr hname]
  | @unknownOption arg rest hdash hother =>
      refine ⟨.unknownOption arg, ?_, rfl⟩
      rw [parseItems_other hother, if_pos ((isDashed_eq_true_iff arg).mpr hdash)]

/-- Items are read one after the other. -/
theorem parseItems_append (h : Splits args items) (o : Options) (ws rest : List Bytes) :
    parseItems o ws (args ++ rest) =
      parseItems (items.foldl withItem o) (ws ++ words items) rest := by
  induction h generalizing o ws with
  | nil =>
      rw [words, List.filterMap_nil, List.append_nil]
      rfl
  | @cons item items args rest' hitem _ ih =>
      have hwords : words (item :: items) = item.word?.toList ++ words items := by
        unfold words
        cases hword : item.word? with
        | none => exact List.filterMap_cons_none hword
        | some w => exact List.filterMap_cons_some hword
      rw [List.append_assoc, parseItems_written hitem, ih, hwords, List.append_assoc]
      rfl

/-- Arguments that are items up to a misfit, or to the end. -/
def Readable (args : List Bytes) : Prop :=
  ∃ items pre rest, args = pre ++ rest ∧ Splits pre items ∧
    (rest = [] ∨ ∃ message, Misfit rest message)

theorem Readable.cons (h : item.Written args) (hrest : Readable rest) :
    Readable (args ++ rest) := by
  obtain ⟨items, pre, rest, rfl, hsplits, hend⟩ := hrest
  exact ⟨item :: items, args ++ pre, rest, (List.append_assoc _ _ _).symm, .cons h hsplits, hend⟩

theorem Misfit.readable (h : Misfit rest message) : Readable rest :=
  ⟨[], [], rest, rfl, .nil, Or.inr ⟨message, h⟩⟩

/-- Reading goes on from item to item until there is nothing left, or a misfit. -/
theorem readable (args : List Bytes) : Readable args := by
  -- the cases are those of the reader, whatever it has read before
  suffices h : ∀ (o : Options) (ws args : List Bytes), Readable args from h {} [] args
  intro o ws args
  induction o, ws, args using parseItems.induct with
  | case1 => exact ⟨[], [], [], rfl, .nil, Or.inl rfl⟩
  | case2 _ _ rest ih => exact .cons .verbose ih
  | case3 _ _ rest _ ih => exact .cons .unibyte ih
  | case4 => exact Misfit.noLogFile.readable
  | case5 _ _ file rest _ _ ih => exact .cons (.logFile file) ih
  | case6 => exact Misfit.noLevelName.readable
  | case7 _ _ name rest hname =>
      exact (Misfit.unknownLevel rest (Level.parse?_eq_none_iff.mp hname)).readable
  | case8 _ _ name rest l hname _ _ _ ih =>
      exact .cons (.logLevel (Level.parse?_eq_some_iff.mp hname)) ih
  | case9 _ _ arg rest hv hunibyte hlog hlevel hdash =>
      refine (Misfit.unknownOption rest ((isDashed_eq_true_iff arg).mp hdash) ?_).readable
      simp [optionNames, hv, hunibyte, hlog, hlevel]
  | case10 _ _ w rest _ _ _ _ hdash ih =>
      exact .cons (.word (mt (isDashed_eq_true_iff w).mpr hdash)) ih

/-! ## What items ask for -/

/-- Read one after the other, items leave what they ask for, but for the words. -/
theorem foldl_withItem (items : List Item) :
    items.foldl withItem {} = { asked items with file := [], word := [] } := by
  induction items using List.reverseRecOn with
  | nil => rfl
  | append_singleton items item ih =>
      rw [List.foldl_concat, ih]
      cases item <;> simp [withItem, asked, Item.logFile?, Item.logLevel?]

theorem place_asked (items : List Item) :
    place { asked items with file := [], word := [] } (words items) =
      if 1 ≤ (words items).length ∧ (words items).length ≤ 2 then ⟨asked items, none⟩
      else ⟨{ asked items with file := [], word := [] }, some .wordCount⟩ := by
  have hfile : (asked items).file = (words items).getD 0 [] := rfl
  have hword : (asked items).word = (words items).getD 1 [] := rfl
  generalize asked items = o at hfile hword ⊢
  obtain ⟨file, word, multibyte, verbose, logFile, logLevel⟩ := o
  dsimp only at hfile hword
  subst hfile hword
  rcases words items with _ | ⟨file, _ | ⟨word, _ | ⟨w, ws⟩⟩⟩
  · rfl
  · rfl
  · rfl
  · rw [if_neg (by simp)]
    rfl

theorem parse_of_append (hargv : argv.tail = args ++ rest) (h : Splits args items) :
    parse argv = parseItems { asked items with file := [], word := [] } (words items) rest := by
  unfold parse
  rw [hargv, parseItems_append h, foldl_withItem, List.nil_append]

theorem parse_of_splits (h : Splits argv.tail items) :
    parse argv =
      if 1 ≤ (words items).length ∧ (words items).length ≤ 2 then ⟨asked items, none⟩
      else ⟨{ asked items with file := [], word := [] }, some .wordCount⟩ := by
  rw [parse_of_append (List.append_nil _).symm h, parseItems, place_asked]

theorem parse_of_misfit (hargv : argv.tail = args ++ rest) (h : Splits args items)
    (hmisfit : Misfit rest message) :
    ∃ o r, parse argv = ⟨o, some r⟩ ∧ r.message = message := by
  obtain ⟨r, hparse, hmessage⟩ := parseItems_misfit hmisfit _ (words items)
  exact ⟨_, r, (parse_of_append hargv h).trans hparse, hmessage⟩

/-- A command line is accepted, or has too few or too many words, or holds a misfit. -/
theorem parse_cases (argv : List Bytes) :
    (∃ items, Splits argv.tail items ∧ (1 ≤ (words items).length ∧ (words items).length ≤ 2) ∧
        parse argv = ⟨asked items, none⟩) ∨
      (∃ items o, Splits argv.tail items ∧
        ¬ (1 ≤ (words items).length ∧ (words items).length ≤ 2) ∧
        parse argv = ⟨o, some .wordCount⟩) ∨
      ∃ items args rest message o r, argv.tail = args ++ rest ∧ Splits args items ∧
        Misfit rest message ∧ parse argv = ⟨o, some r⟩ ∧ r.message = message := by
  obtain ⟨items, args, rest, hargv, hsplits, hend⟩ := readable argv.tail
  rcases hend with rfl | ⟨message, hmisfit⟩
  · rw [List.append_nil] at hargv
    rw [← hargv] at hsplits
    have hparse := parse_of_splits hsplits
    split at hparse
    · rename_i hcount
      exact Or.inl ⟨items, hsplits, hcount, hparse⟩
    · rename_i hcount
      exact Or.inr (Or.inl ⟨items, _, hsplits, hcount, hparse⟩)
  · obtain ⟨o, r, hparse, hmessage⟩ := parse_of_misfit hargv hsplits hmisfit
    exact Or.inr (Or.inr
      ⟨items, args, rest, message, o, r, hargv, hsplits, hmisfit, hparse, hmessage⟩)

/-! ## Items in another order -/

/-- The option that an item is; none if it is a word. -/
def Item.option? : Item → Option Bytes
  | .verbose => some (ascii "-v")
  | .unibyte => some (ascii "--unibyte")
  | .logFile _ => some (ascii "--log")
  | .logLevel _ => some (ascii "--log-level")
  | .word _ => none

/-- The same items, with the words in the same order, and equal options as well. -/
def Rearranged (items items' : List Item) : Prop :=
  ∀ option?, items.filter (·.option? = option?) = items'.filter (·.option? = option?)

theorem Rearranged.filterMap_eq {α : Type} (h : Rearranged items items') {f : Item → Option α}
    (option? : Option Bytes) (hf : ∀ item a, f item = some a → item.option? = option?) :
    items.filterMap f = items'.filterMap f := by
  have hfilter (items : List Item) :
      (items.filter (·.option? = option?)).filterMap f = items.filterMap f := by
    rw [List.filterMap_filter]
    refine List.filterMap_congr fun item _ => ?_
    split
    · rfl
    · rename_i hother
      cases hitem : f item with
      | none => rfl
      | some a => exact absurd (decide_eq_true (hf item a hitem)) hother
  rw [← hfilter items, h, hfilter]

theorem Rearranged.mem_iff (h : Rearranged items items') : item ∈ items ↔ item ∈ items' := by
  have hfilter (items : List Item) :
      item ∈ items.filter (·.option? = item.option?) ↔ item ∈ items := by
    rw [List.mem_filter]
    exact and_iff_left (decide_eq_true rfl)
  rw [← hfilter items, h, hfilter]

theorem Rearranged.words_eq (h : Rearranged items items') : words items = words items' := by
  refine h.filterMap_eq none fun item w hitem => ?_
  cases item with
  | word => rfl
  | _ => cases hitem

theorem Rearranged.asked_eq (h : Rearranged items items') : asked items = asked items' := by
  have hfile : items.filterMap Item.logFile? = items'.filterMap Item.logFile? := by
    refine h.filterMap_eq (some (ascii "--log")) fun item file hitem => ?_
    cases item with
    | logFile => rfl
    | _ => cases hitem
  have hlevel : items.filterMap Item.logLevel? = items'.filterMap Item.logLevel? := by
    refine h.filterMap_eq (some (ascii "--log-level")) fun item l hitem => ?_
    cases item with
    | logLevel => rfl
    | _ => cases hitem
  unfold asked
  rw [h.words_eq, hfile, hlevel]
  simp only [h.mem_iff]

/-- **The grammar of the command line.** A command line is accepted exactly when its arguments fall
apart into items with one or two words among them, and then it asks for what the items say. It is
refused exactly when, behind some items, there is a misfit, which is then told about, or when there
are only items but too few or too many words. Words and equal options may not change places, but
other items may, in front of a misfit as well, and nothing else comes of it. -/
theorem parse_exact (argv : List Bytes) :
    (∀ o, parse argv = ⟨o, none⟩ ↔
      ∃ items, Splits argv.tail items ∧
        (1 ≤ (words items).length ∧ (words items).length ≤ 2) ∧ o = asked items) ∧
    (∀ message, (parse argv).refusal.map Refusal.message = some message ↔
      (∃ items args rest, argv.tail = args ++ rest ∧ Splits args items ∧ Misfit rest message) ∨
      ∃ items, Splits argv.tail items ∧
        ¬ (1 ≤ (words items).length ∧ (words items).length ≤ 2) ∧ message = usage) ∧
    ∀ items args rest, argv.tail = args ++ rest → Splits args items →
      ∀ items' args', Splits args' items' → Rearranged items items' →
        ∀ name, parse (name :: (args' ++ rest)) = parse argv := by
  refine ⟨fun o => ⟨fun h => ?_, ?_⟩, fun message => ⟨fun h => ?_, ?_⟩, ?_⟩
  · rcases parse_cases argv with ⟨items, hsplits, hcount, hparse⟩ | ⟨_, _, -, -, hparse⟩ |
      ⟨_, _, _, _, _, _, -, -, -, hparse, -⟩
    · exact ⟨items, hsplits, hcount, congrArg Parsed.options (h.symm.trans hparse)⟩
    · cases congrArg Parsed.refusal (h.symm.trans hparse)
    · cases congrArg Parsed.refusal (h.symm.trans hparse)
  · rintro ⟨items, hsplits, hcount, rfl⟩
    rw [parse_of_splits hsplits, if_pos hcount]
  · rcases parse_cases argv with ⟨_, -, -, hparse⟩ | ⟨items, _, hsplits, hcount, hparse⟩ |
      ⟨items, args, rest, _, _, _, hargv, hsplits, hmisfit, hparse, rfl⟩
    all_goals rw [hparse] at h
    · cases h
    · exact Or.inr ⟨items, hsplits, hcount, (Option.some.inj h).symm⟩
    · exact Or.inl ⟨items, args, rest, hargv, hsplits, Option.some.inj h ▸ hmisfit⟩
  · rintro (⟨items, args, rest, hargv, hsplits, hmisfit⟩ | ⟨items, hsplits, hcount, rfl⟩)
    · obtain ⟨o, r, hparse, rfl⟩ := parse_of_misfit hargv hsplits hmisfit
      rw [hparse]
      rfl
    · rw [parse_of_splits hsplits, if_neg hcount]
      rfl
  · intro items args rest hargv hsplits items' args' hsplits' hmoved name
    have hargv' : (name :: (args' ++ rest)).tail = args' ++ rest := rfl
    rw [parse_of_append hargv hsplits, parse_of_append hargv' hsplits', hmoved.words_eq,
      hmoved.asked_eq]

/-- Options between and behind the words, a file for the log that looks like an option and a level
in mixed case; the same with the options elsewhere, in front of a misfit as well; and a line that
holds nothing but an option. -/
theorem parse_exact_moved_options :
    let items : List Item := [.word (ascii "a"), .logFile (ascii "-v"), .logLevel .debug, .verbose,
      .word []]
    let args := ["a", "--log", "-v", "--log-level", "dEbUg", "-v", ""].map ascii
    let args' := ["-v", "--log-level", "DEBUG", "a", "", "--log", "-v"].map ascii
    parse (ascii "bufview" :: args) = ⟨asked items, none⟩ ∧
      asked items = ⟨ascii "a", [], true, true, some (ascii "-v"), some .debug⟩ ∧
      parse (ascii "bufview" :: args') = ⟨asked items, none⟩ ∧
      (parse (ascii "bufview" :: (args ++ [ascii "-x"]))).refusal.map Refusal.message =
        some (ascii "unknown option: -x") ∧
      (parse [ascii "bufview", ascii "-v"]).refusal.map Refusal.message = some usage := by
  intro items args args'
  let items' : List Item := [.verbose, .logLevel .debug, .word (ascii "a"), .word [],
    .logFile (ascii "-v")]
  have hdebug {name : Bytes} (h : Level.parse? name = some .debug) :
      Item.Written (.logLevel .debug) [ascii "--log-level", name] :=
    .logLevel (Level.parse?_eq_some_iff.mp h)
  have hsplits : Splits args items :=
    .cons (.word (by decide)) (.cons (.logFile _) (.cons (hdebug (by decide)) (.cons .verbose
      (.cons (.word (by decide)) .nil))))
  have hsplits' : Splits args' items' :=
    .cons .verbose (.cons (hdebug (by decide)) (.cons (.word (by decide)) (.cons (.word (by decide))
      (.cons (.logFile _) .nil))))
  have hmoved : Rearranged items items' := by
    rintro (_ | name)
    · decide
    · by_cases hv : name = ascii "-v"
      · subst hv
        decide
      by_cases hlog : name = ascii "--log"
      · subst hlog
        decide
      by_cases hlevel : name = ascii "--log-level"
      · subst hlevel
        decide
      simp [items, items', Item.option?, Ne.symm hv, Ne.symm hlog, Ne.symm hlevel]
  have hasked : asked items = ⟨ascii "a", [], true, true, some (ascii "-v"), some .debug⟩ := by
    decide
  obtain ⟨haccepted, -, hsame⟩ := parse_exact (ascii "bufview" :: args)
  have hparse := (haccepted _).mpr ⟨items, hsplits, by decide, rfl⟩
  have hparse' := hsame items args [] (List.append_nil args).symm hsplits items' args' hsplits'
    hmoved (ascii "bufview")
  rw [List.append_nil] at hparse'
  refine ⟨hparse, hasked, hparse'.trans hparse, ?_, ?_⟩
  · exact ((parse_exact _).2.1 _).mpr (Or.inl ⟨items, args, _, rfl, hsplits,
      .unknownOption [] (by decide) (by decide)⟩)
  · exact ((parse_exact _).2.1 _).mpr (Or.inr ⟨_, .cons .verbose .nil, by decide, rfl⟩)

end Options

end GapText
