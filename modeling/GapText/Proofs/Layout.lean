import GapText.Proofs.Boundaries
import GapText.Proofs.Drawing
import GapText.Proofs.External

/-!
# Lines and columns

The layout read as arithmetic on character codes. The accessible characters are split at newlines; a
character of a line takes the columns from the sum of what stands before it on (`StandsAt`), as many
as what is drawn for it has bytes. A window is a range of columns. What is drawn of a line are the
characters that lie in the window whole, closed up from the first of them on, so what decides where
a character appears is the column of the line that comes first (`origin`).
-/

namespace GapText.Display

open Code

/-! ## Characters to be shown -/

/-- The characters that are drawn as ASCII text. -/
def IsPlain (c : Int) : Prop := c < 0x80 ∨ isRaw c = true

instance (c : Int) : Decidable (IsPlain c) := inferInstanceAs (Decidable (_ ∨ _))

/-- What a character of a buffer is shown as: a unibyte buffer shows bytes from `0x80` on raw. -/
def shownAs (m : Bool) (c : Int) : Int :=
  if m then c else if c < 0x80 then c else ofRaw (lowByte c)

/-- The characters to be shown, newlines included. -/
def shown (b : Buffer) : List Int := (accessible b).map (·.code)

theorem codeAt_eq (b : Buffer) (p : Int) : codeAt b p = shownAs b.multibyte (b.charAt p) := by
  unfold codeAt shownAs Buffer.charAt
  cases b.multibyte with
  | true => rfl
  | false =>
      dsimp only
      rw [if_neg Bool.false_ne_true, if_neg Bool.false_ne_true, if_neg Bool.false_ne_true,
        lowByte_toNat]
      by_cases h : (0x80 : UInt8) ≤ b.text.byteAt p
      · have hn := UInt8.le_iff_toNat_le.mp h
        rw [if_pos h, if_neg (by simp at hn; omega)]
      · have hn := UInt8.lt_iff_toNat_lt.mp (UInt8.not_le.mp h)
        rw [if_neg h, if_pos (by simp at hn; omega)]

theorem codes_lettersFrom {b : Buffer} {pre mid post : List Int}
    (h : b.Sound (pre ++ mid ++ post)) :
    (lettersFrom b mid.length
        ⟨pre.length + 1, bytePos b.multibyte (pre ++ mid ++ post) (pre.length + 1)⟩).map (·.code) =
      mid.map (shownAs b.multibyte) := by
  induction mid generalizing pre with
  | nil => rfl
  | cons c mid ih =>
      have hassoc : pre ++ c :: mid ++ post = pre ++ [c] ++ mid ++ post := by simp
      have hchar := (show b.Sound (pre ++ c :: (mid ++ post)) by simpa using h).charAt_bytePos
      rw [← List.cons_append, ← List.append_assoc] at hchar
      have hnext := h.next_bytePos (k := pre.length + 1) (by omega) (by simp; omega)
      have hrest := @ih (pre ++ [c]) (hassoc ▸ h)
      rw [← hassoc, List.length_append, List.length_singleton, Int.natCast_add] at hrest
      rw [List.length_cons, lettersFrom, List.map_cons, List.map_cons, codeAt_eq, hchar, hnext]
      exact congrArg _ hrest

/-- On a text these are the characters of its accessible part. -/
theorem shown_eq {b : Buffer} {cs : List Int} (h : b.Sound cs) :
    shown b = ((cs.take (b.upper.char - 1).toNat).drop (b.lower.char - 1).toNat).map
      (shownAs b.multibyte) := by
  obtain ⟨pre, mid, post, rfl, hlo, hhi⟩ :=
    exists_append_append h.lower.one_le h.lower_le_upper h.upper.le_last
  have hcount : (b.upper.char - b.lower.char).toNat = mid.length := by
    rw [hhi, hlo, List.length_append]
    omega
  have hlower : b.lower =
      ⟨pre.length + 1, bytePos b.multibyte (pre ++ mid ++ post) (pre.length + 1)⟩ := by
    rw [← hlo, ← h.lower.byte_eq]
  have hmid : shown b = mid.map (shownAs b.multibyte) := by
    rw [shown, accessible, hcount, hlower, codes_lettersFrom h]
  rw [hmid, hhi, hlo, Editor.take_place, Editor.drop_place]

/-- The places of the accessible characters are counted on from the first of them. -/
theorem accessible_eq (b : Buffer) :
    accessible b = (shown b).mapIdx fun i c => ⟨b.lower.char + i, c⟩ := by
  have hletters : ∀ (n : Nat) (p : Position), lettersFrom b n p =
      ((lettersFrom b n p).map (·.code)).mapIdx fun i c => ⟨p.char + i, c⟩ := by
    intro n
    induction n with
    | zero => exact fun _ => rfl
    | succ n ih =>
        intro p
        rw [lettersFrom, List.map_cons, List.mapIdx_cons, Int.natCast_zero, Int.add_zero]
        congr 1
        refine (ih _).trans ?_
        congr 1
        funext i c
        congr 1
        push_cast
        omega
  exact hletters _ _

/-- The letters of a buffer are told by the editor that it represents. -/
theorem accessible_of_represents {b : Buffer} {e : Editor} (h : b.Represents e) :
    accessible b = (((e.chars.take (e.upper - 1).toNat).drop (e.lower - 1).toNat).map
      (shownAs b.multibyte)).mapIdx fun i c => ⟨e.lower + i, c⟩ := by
  rw [accessible_eq, shown_eq h.sound, h.upper_eq, h.lower_eq]

/-! ## Lines -/

section Lines

variable {ls : List Letter}

theorem codes_splitLines (ls : List Letter) :
    (splitLines ls).map (List.map (·.code)) = (ls.map (·.code)).splitOn newline := by
  induction ls with
  | nil => rfl
  | cons l ls ih =>
      rw [List.map_cons, List.splitOn_cons_eq_if_modifyHead, ← ih, splitLines]
      by_cases hl : l.code = newline
      · rw [if_pos hl, if_pos (beq_iff_eq.mpr hl)]
        rfl
      · rw [if_neg hl, if_neg (fun h => hl (beq_iff_eq.mp h))]
        cases hls : splitLines ls with
        | nil =>
            rw [hls] at ih
            exact absurd ih.symm (List.splitOn_ne_nil _ _)
        | cons line more => rfl

theorem mem_of_mem_splitLines {line : List Letter} {l : Letter} (hline : line ∈ splitLines ls)
    (hl : l ∈ line) : l ∈ ls := by
  induction ls generalizing line with
  | nil =>
      rw [List.mem_singleton.mp hline] at hl
      exact absurd hl List.not_mem_nil
  | cons d ls ih =>
      rw [splitLines] at hline
      split at hline
      · rcases List.mem_cons.mp hline with rfl | hline
        · exact absurd hl List.not_mem_nil
        · exact List.mem_cons_of_mem d (ih hline hl)
      · split at hline
        · rw [List.mem_singleton.mp hline] at hl
          rw [List.mem_singleton.mp hl]
          exact List.mem_cons_self
        · rename_i first more heq
          rcases List.mem_cons.mp hline with rfl | hline
          · rcases List.mem_cons.mp hl with rfl | hl
            · exact List.mem_cons_self
            · exact List.mem_cons_of_mem d (ih (heq ▸ List.mem_cons_self) hl)
          · exact List.mem_cons_of_mem d (ih (heq ▸ List.mem_cons_of_mem first hline) hl)

/-- The last line of one text is continued by the first line of the next. -/
theorem splitOn_append (a : Int) (xs ys : List Int) :
    (xs ++ ys).splitOn a = (xs.splitOn a).dropLast ++
      ((xs.splitOn a).getLastD [] ++ (ys.splitOn a).headD []) :: (ys.splitOn a).tail := by
  induction xs with
  | nil =>
      show ys.splitOn a = (ys.splitOn a).headD [] :: (ys.splitOn a).tail
      cases hy : ys.splitOn a with
      | nil => exact absurd hy (List.splitOn_ne_nil a ys)
      | cons line more => rfl
  | cons x xs ih =>
      obtain ⟨first, more, hxs⟩ := List.exists_cons_of_ne_nil (List.splitOn_ne_nil a xs)
      rw [List.cons_append, List.splitOn_cons_eq_if_modifyHead, List.splitOn_cons_eq_if_modifyHead,
        ih, hxs]
      cases hx : x == a with
      | true => rfl
      | false => cases more <;> rfl

/-- The line of a place starts with what stands before the place in it, and goes on with the
character behind the place if that is in it. -/
theorem exists_line_of_place (xs : List Int) (k : Nat) :
    ∃ rest, (xs.splitOn newline)[((xs.take k).splitOn newline).length - 1]? =
        some (((xs.take k).splitOn newline).getLastD [] ++ rest) ∧
      ∀ c, xs[k]? = some c → c ≠ newline → ∃ more, rest = c :: more := by
  have hlines := splitOn_append newline (xs.take k) (xs.drop k)
  rw [List.take_append_drop] at hlines
  refine ⟨((xs.drop k).splitOn newline).headD [], ?_, fun c hc hne => ?_⟩
  · rw [hlines, List.getElem?_append_right (Nat.le_of_eq List.length_dropLast),
      List.length_dropLast, Nat.sub_self]
    rfl
  · obtain ⟨hk, rfl⟩ := List.getElem?_eq_some_iff.mp hc
    rw [List.drop_eq_getElem_cons hk, List.splitOn_cons_eq_if_modifyHead,
      if_neg (fun h => hne (beq_iff_eq.mp h))]
    obtain ⟨line, more, hrest⟩ :=
      List.exists_cons_of_ne_nil (List.splitOn_ne_nil newline (xs.drop (k + 1)))
    rw [hrest]
    exact ⟨line, rfl⟩

end Lines

/-! ## Columns -/

section Columns

variable {tab : Int} {left stop x col : Nat} {c d : Int} {line rest : List Int}

/-- The column behind some characters of a line, the first of them in column `x`. -/
def extent (tab : Int) (x : Nat) (line : List Int) : Nat :=
  line.foldl (fun col c => col + (form tab c col).length) x

/-- In a line from column `x` on, `c` stands in column `col`. -/
def StandsAt (tab : Int) (x : Nat) (line : List Int) (col : Nat) (c : Int) : Prop :=
  ∃ pre post, line = pre ++ c :: post ∧ extent tab x pre = col

theorem width_eq (h : IsPlain c) (col : Nat) : width tab c col = (form tab c col).length := by
  unfold width
  refine if_neg ?_
  rintro ⟨hhigh, hraw, -⟩
  rcases h with hlow | h
  · omega
  · exact hraw h

theorem lineWidth_eq {ls : List Letter} (h : ∀ l ∈ ls, IsPlain l.code) :
    lineWidth tab ls = extent tab 0 (ls.map (·.code)) := by
  unfold lineWidth extent
  rw [List.foldl_map]
  exact List.foldl_ext _ _ _ fun col l hl => congrArg _ (width_eq (h l hl) col)

theorem not_standsAt_nil : ¬ StandsAt tab x [] col c := by
  rintro ⟨pre, post, hline, -⟩
  exact absurd hline (by simp)

theorem standsAt_cons :
    StandsAt tab x (d :: rest) col c ↔
      col = x ∧ c = d ∨ StandsAt tab (x + (form tab d x).length) rest col c := by
  constructor
  · rintro ⟨pre, post, hline, rfl⟩
    cases pre with
    | nil => exact Or.inl ⟨rfl, (List.cons.inj hline).1.symm⟩
    | cons e pre =>
        obtain ⟨rfl, hrest⟩ := List.cons.inj hline
        exact Or.inr ⟨pre, post, hrest, rfl⟩
  · rintro (⟨rfl, rfl⟩ | ⟨pre, post, rfl, rfl⟩)
    · exact ⟨[], rest, rfl, rfl⟩
    · exact ⟨d :: pre, post, rfl, rfl⟩

instance decidableStandsAt (tab : Int) (col : Nat) (c : Int) :
    ∀ (x : Nat) (line : List Int), Decidable (StandsAt tab x line col c)
  | _, [] => .isFalse not_standsAt_nil
  | x, d :: rest =>
    let _ := decidableStandsAt tab col c (x + (form tab d x).length) rest
    decidable_of_iff _ standsAt_cons.symm

theorem le_extent (tab : Int) (x : Nat) (line : List Int) : x ≤ extent tab x line := by
  induction line generalizing x with
  | nil => exact Nat.le_refl x
  | cons c line ih => exact Nat.le_trans (Nat.le_add_right _ _) (ih _)

theorem StandsAt.le (h : StandsAt tab x line col c) : x ≤ col := by
  obtain ⟨pre, -, -, rfl⟩ := h
  exact le_extent tab x pre

/-- The column of a line, from column `x` on, that is drawn first in a window from `left` on: `left`
itself, or the column behind the character that stands across it. -/
def origin (tab : Int) (left x : Nat) : List Int → Nat
  | [] => left
  | c :: rest =>
    let next := x + (form tab c x).length
    if x < left ∧ left < next then next else origin tab left next rest

/-- A character of the line starts before column `left` and reaches beyond it. -/
def Straddles (tab : Int) (x left : Nat) (line : List Int) : Prop :=
  ∃ col c, StandsAt tab x line col c ∧ col < left ∧ left < col + (form tab c col).length

theorem not_straddles_nil : ¬ Straddles tab x left [] :=
  fun ⟨_, _, hat, _⟩ => not_standsAt_nil hat

theorem straddles_cons :
    Straddles tab x left (d :: rest) ↔
      (x < left ∧ left < x + (form tab d x).length) ∨
        Straddles tab (x + (form tab d x).length) left rest := by
  constructor
  · rintro ⟨col, c, hat, hacross⟩
    rcases standsAt_cons.mp hat with ⟨rfl, rfl⟩ | hat
    · exact Or.inl hacross
    · exact Or.inr ⟨col, c, hat, hacross⟩
  · rintro (hacross | ⟨col, c, hat, hacross⟩)
    · exact ⟨x, d, standsAt_cons.mpr (Or.inl ⟨rfl, rfl⟩), hacross⟩
    · exact ⟨col, c, standsAt_cons.mpr (Or.inr hat), hacross⟩

instance decidableStraddles (tab : Int) (left : Nat) :
    ∀ (x : Nat) (line : List Int), Decidable (Straddles tab x left line)
  | _, [] => .isFalse not_straddles_nil
  | x, d :: rest =>
    let _ := decidableStraddles tab left (x + (form tab d x).length) rest
    decidable_of_iff _ straddles_cons.symm

/-- Without a character across it, the window's first column is drawn first. -/
theorem origin_eq_left (h : ¬ Straddles tab x left line) : origin tab left x line = left := by
  induction line generalizing x with
  | nil => rfl
  | cons c rest ih =>
      rw [straddles_cons, not_or] at h
      rw [origin, if_neg h.1]
      exact ih h.2

theorem origin_of_le (h : left ≤ x) : origin tab left x line = left :=
  origin_eq_left fun ⟨_, _, hat, hcol, _⟩ =>
    absurd (Nat.lt_of_lt_of_le hcol h) (Nat.not_lt.mpr hat.le)

theorem le_origin (tab : Int) (left x : Nat) (line : List Int) :
    left ≤ origin tab left x line := by
  induction line generalizing x with
  | nil => exact Nat.le_refl left
  | cons c rest ih =>
      rw [origin]
      split
      · omega
      · exact ih _

/-! ## Windows -/

/-- What is drawn of a line in the columns from `left` up to `stop`, closed up. -/
def windowText (tab : Int) (left stop : Nat) : Nat → List Int → Bytes
  | _, [] => []
  | x, c :: rest =>
    let next := x + (form tab c x).length
    if left ≤ x ∧ next ≤ stop then form tab c x ++ windowText tab left stop next rest
    else windowText tab left stop next rest

theorem textOf_visible {cols : Nat} {spans : List Span} {ls : List Letter}
    (h : ∀ l ∈ ls, IsPlain l.code) :
    textOf (visible left cols x (glyphsFrom tab spans x ls)) =
      windowText tab left (left + cols) x (ls.map (·.code)) := by
  induction ls generalizing x with
  | nil => rfl
  | cons l ls ih =>
      obtain ⟨hl, hls⟩ := List.forall_mem_cons.mp h
      have hfits : ((left : Int) ≤ x ∧ (x : Int) + (form tab l.code x).length - left ≤ cols) ↔
          left ≤ x ∧ x + (form tab l.code x).length ≤ left + cols := by omega
      rw [glyphsFrom, width_eq hl, List.map_cons, visible, windowText]
      simp only [hfits, ← ih hls]
      split <;> rfl

theorem even_visible {left : Int} {cols : Nat} {spans : List Span} {ls : List Letter}
    (h : ∀ l ∈ ls, ∀ col : Nat, width tab l.code col = (form tab l.code col).length) :
    Even (visible left cols x (glyphsFrom tab spans x ls)) := by
  induction ls generalizing x with
  | nil => exact fun g hg => absurd hg List.not_mem_nil
  | cons l ls ih =>
      obtain ⟨hl, hls⟩ := List.forall_mem_cons.mp h
      rw [glyphsFrom, visible]
      dsimp only
      split
      · exact List.forall_mem_cons.mpr ⟨hl x, ih hls⟩
      · exact ih hls

/-- A text that is drawn from column `base` of a line on: the characters in the columns from `left`
up to `stop` are in their columns of it, and it has no others. -/
structure Draws (tab : Int) (left stop x : Nat) (line : List Int) (base : Nat) (text : Bytes) :
    Prop where
  drawn : ∀ col c, StandsAt tab x line col c → left ≤ col → col + (form tab c col).length ≤ stop →
    base ≤ col ∧ (text.drop (col - base)).take (form tab c col).length = form tab c col
  covered : ∀ q < text.length, ∃ col c, StandsAt tab x line col c ∧ left ≤ col ∧
    col + (form tab c col).length ≤ stop ∧ col ≤ base + q ∧ base + q < col + (form tab c col).length

theorem draws_nil {base : Nat} : Draws tab left stop x [] base [] :=
  ⟨fun _ _ hat => absurd hat not_standsAt_nil, fun q hq => absurd hq (Nat.not_lt_zero q)⟩

theorem windowText_of_stop_lt (hstop : stop < x) : windowText tab left stop x line = [] := by
  induction line generalizing x with
  | nil => rfl
  | cons c rest ih =>
      rw [windowText]
      rw [if_neg (by omega)]
      exact ih (by omega)

/-- From a column of the window on nothing is left out up to the first character that does not
fit, and nothing is drawn behind it. -/
theorem draws_of_le (hleft : left ≤ x) :
    Draws tab left stop x line x (windowText tab left stop x line) := by
  induction line generalizing x with
  | nil => exact draws_nil
  | cons d rest ih =>
      have hrest := ih (x := x + (form tab d x).length) (by omega)
      rw [windowText]
      by_cases hfits : x + (form tab d x).length ≤ stop
      · rw [if_pos ⟨hleft, hfits⟩]
        constructor
        · intro col c hat hcol hend
          rcases standsAt_cons.mp hat with ⟨rfl, rfl⟩ | hat
          · exact ⟨Nat.le_refl col, by rw [Nat.sub_self, List.drop_zero, List.take_left]⟩
          · obtain ⟨hle, htext⟩ := hrest.drawn col c hat hcol hend
            refine ⟨by omega, ?_⟩
            rw [show col - x = (form tab d x).length + (col - (x + (form tab d x).length)) by omega,
              ← List.drop_drop, List.drop_left, htext]
        · intro q hq
          rcases Nat.lt_or_ge q (form tab d x).length with hin | hout
          · exact ⟨x, d, standsAt_cons.mpr (Or.inl ⟨rfl, rfl⟩), hleft, hfits, by omega, by omega⟩
          · rw [List.length_append] at hq
            obtain ⟨col, c, hat, hcol, hend, hle, hlt⟩ :=
              hrest.covered (q - (form tab d x).length) (by omega)
            exact ⟨col, c, standsAt_cons.mpr (Or.inr hat), hcol, hend, by omega, by omega⟩
      · rw [if_neg (fun h => hfits h.2), windowText_of_stop_lt (by omega)]
        refine ⟨fun col c hat hcol hend => ?_, fun q hq => absurd hq (Nat.not_lt_zero q)⟩
        -- a character at or behind this one ends behind the window too
        rcases standsAt_cons.mp hat with ⟨rfl, rfl⟩ | hat
        · exact absurd hend hfits
        · have hle := hat.le
          omega

/-- What starts to the left of the window does not count. -/
theorem Draws.cons_of_lt {base : Nat} {text : Bytes} (hx : x < left)
    (h : Draws tab left stop (x + (form tab d x).length) rest base text) :
    Draws tab left stop x (d :: rest) base text := by
  constructor
  · intro col c hat hcol hend
    rcases standsAt_cons.mp hat with ⟨rfl, -⟩ | hat
    · exact absurd hx (Nat.not_lt.mpr hcol)
    · exact h.drawn col c hat hcol hend
  · intro q hq
    obtain ⟨col, c, hat, hcover⟩ := h.covered q hq
    exact ⟨col, c, standsAt_cons.mpr (Or.inr hat), hcover⟩

/-- What lies to the left of the window is passed over; the first character in it is drawn first. -/
theorem draws_windowText (hleft : x ≤ left) :
    Draws tab left stop x line (origin tab left x line) (windowText tab left stop x line) := by
  rcases Nat.lt_or_eq_of_le hleft with hlt | rfl
  · induction line generalizing x with
    | nil => exact draws_nil
    | cons d rest ih =>
        refine Draws.cons_of_lt hlt ?_
        rw [windowText, if_neg (fun h => by omega), origin]
        rcases Nat.lt_or_ge left (x + (form tab d x).length) with hacross | hbefore
        · rw [if_pos ⟨hlt, hacross⟩]
          exact draws_of_le (by omega)
        · rw [if_neg (by omega)]
          rcases Nat.lt_or_eq_of_le hbefore with hnext | hnext
          · exact ih (by omega) hnext
          · rw [hnext, origin_of_le (Nat.le_refl left)]
            exact draws_of_le (Nat.le_refl left)
  · rw [origin_of_le (Nat.le_refl x)]
    exact draws_of_le (Nat.le_refl x)

end Columns

end GapText.Display
