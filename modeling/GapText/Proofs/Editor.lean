import GapText.Proofs.Edits
import GapText.Proofs.Run

/-!
# A buffer as a plain editor

What a buffer does can be told without bytes, gaps and conversions: an `Editor` is a list of
characters with a point and an accessible part, all counted in characters. A buffer represents an
editor when it is sound for the editor's text and its places are those of the editor. Every command
is refused by both for the same reason, or leads from a buffer and its editor to a buffer and its
editor; hence every run does.
-/

namespace GapText

open Code

/-- A text with a point and an accessible part. -/
structure Editor where
  chars : List Int := []
  point : Int := 1
  lower : Int := 1
  upper : Int := 1
deriving DecidableEq, Repr

namespace Editor

/-- The place behind the last character. -/
def endChar (e : Editor) : Int := e.chars.length + 1

/-- Characters are put before a place; a point there or behind moves along. -/
def splice (e : Editor) (c : Int) (new : List Int) : Editor where
  chars := e.chars.take (c - 1).toNat ++ new ++ e.chars.drop (c - 1).toNat
  point := if c ≤ e.point then e.point + new.length else e.point
  lower := e.lower
  upper := e.upper + new.length

/-- The characters from `lo` up to `hi` are taken out; a point among them goes to `lo`. -/
def cut (e : Editor) (lo hi : Int) : Editor where
  chars := e.chars.take (lo - 1).toNat ++ e.chars.drop (hi - 1).toNat
  point :=
    if hi ≤ e.point then e.point - (hi - lo) else if lo < e.point then lo else e.point
  lower := e.lower
  upper := e.upper - (hi - lo)

def insert (e : Editor) (c : Int) (new : List Int) : Except RangeError Editor :=
  if c < e.lower ∨ e.upper < c then .error (.place c) else .ok (e.splice c new)

def delete (e : Editor) (p q : Int) : Except RangeError Editor :=
  let (lo, hi) := ordered p q
  if e.lower ≤ lo ∧ hi ≤ e.upper then .ok (e.cut lo hi) else .error (.stretch lo hi)

def narrow (e : Editor) (p q : Int) : Except RangeError Editor :=
  let (lo, hi) := ordered p q
  if lo < 1 ∨ e.endChar < hi then .error (.stretch lo hi)
  else .ok { e with lower := lo, upper := hi, point := min (max e.point lo) hi }

def widen (e : Editor) : Editor := { e with lower := 1, upper := e.endChar }

/-- The commands of a buffer, read as commands for characters. -/
def run (multibyte : Bool) (e : Editor) : Buffer.Command → Except RangeError Editor
  | .insert c s => e.insert c (decodeText multibyte s)
  | .insertExternal c s =>
      e.insert c (decodeText multibyte (if multibyte then ofExternal s else s))
  | .delete p q => e.delete p q
  | .narrow p q => e.narrow p q
  | .erase => .ok {}
  | .widen => .ok e.widen
  | .moveGap _ => .ok e
  | .goTo c => .ok { e with point := c }

/-- The editor after a command, refused or not. -/
def after (multibyte : Bool) (e : Editor) (c : Buffer.Command) : Editor :=
  match e.run multibyte c with
  | .ok e' => e'
  | .error _ => e

variable {e : Editor} {pre mid post : List Int}

theorem take_place (pre post : List Int) :
    (pre ++ post).take ((pre.length : Int) + 1 - 1).toNat = pre := by
  rw [Int.add_sub_cancel, Int.toNat_natCast, List.take_left]

theorem drop_place (pre post : List Int) :
    (pre ++ post).drop ((pre.length : Int) + 1 - 1).toNat = post := by
  rw [Int.add_sub_cancel, Int.toNat_natCast, List.drop_left]

theorem splice_nil (e : Editor) (c : Int) : e.splice c [] = e := by
  simp [splice]

theorem cut_self (e : Editor) (c : Int) : e.cut c c = e := by
  obtain ⟨chars, point, lower, upper⟩ := e
  simp only [cut, List.take_append_drop, Int.sub_self, Int.sub_zero]
  congr 1
  split
  · rfl
  · rw [if_neg (by omega)]

theorem chars_splice (new : List Int) (h : e.chars = pre ++ post) :
    (e.splice (pre.length + 1) new).chars = pre ++ new ++ post := by
  simp only [splice, h, take_place, drop_place]

/-- The point is in the accessible part. -/
def Inside (e : Editor) : Prop := e.lower ≤ e.point ∧ e.point ≤ e.upper

theorem inside_splice (c : Int) (new : List Int) (h : e.Inside) : (e.splice c new).Inside := by
  obtain ⟨h₁, h₂⟩ := h
  unfold Inside splice
  dsimp only
  split
  · constructor <;> omega
  · constructor <;> omega

theorem inside_cut {lo hi : Int} (h : e.Inside) (hlo : e.lower ≤ lo) (hhi : hi ≤ e.upper) :
    (e.cut lo hi).Inside := by
  obtain ⟨h₁, h₂⟩ := h
  unfold Inside cut
  dsimp only
  split
  · constructor <;> omega
  · split
    · constructor <;> omega
    · constructor <;> omega

theorem chars_cut (h : e.chars = pre ++ mid ++ post) :
    (e.cut (pre.length + 1) ((pre ++ mid).length + 1)).chars = pre ++ post := by
  simp only [cut, h, drop_place]
  rw [List.append_assoc, take_place]

/-- The whole text of a widened editor can be deleted. -/
theorem exists_delete_widen (e : Editor) :
    ∃ e', e.widen.delete 1 e.widen.endChar = .ok e' ∧ e'.chars = [] ∧ e'.lower = 1 ∧
      e'.upper = 1 := by
  have hone : (1 : Int) ≤ e.widen.endChar := by
    unfold endChar
    omega
  have horder : ordered 1 e.widen.endChar = (1, e.widen.endChar) := if_neg (Int.not_lt.mpr hone)
  refine ⟨e.widen.cut 1 e.widen.endChar, ?_, ?_, rfl, ?_⟩
  · unfold delete
    rw [horder]
    exact if_pos ⟨Int.le_refl 1, Int.le_refl e.widen.endChar⟩
  · show e.chars.take 0 ++ e.chars.drop ((e.chars.length : Int) + 1 - 1).toNat = []
    rw [Int.add_sub_cancel, Int.toNat_natCast, List.drop_length]
    rfl
  · show e.widen.endChar - (e.widen.endChar - 1) = 1
    omega

end Editor

namespace Buffer

/-! ## Representation -/

/-- A buffer holds the text of an editor, and its places are those of the editor. -/
structure Represents (b : Buffer) (e : Editor) : Prop where
  sound : Sound b e.chars
  point_eq : b.point.char = e.point
  lower_eq : b.lower.char = e.lower
  upper_eq : b.upper.char = e.upper

/-- Both sides refuse for the same reason, or both accept. -/
inductive Agrees : Except RangeError (Logged Buffer) → Except RangeError Editor → Prop where
  | refused (err : RangeError) : Agrees (.error err) (.error err)
  | accepted {x : Logged Buffer} {e : Editor} : Represents x.value e → Agrees (.ok x) (.ok e)

theorem Agrees.error_iff {r : Except RangeError (Logged Buffer)} {r' : Except RangeError Editor}
    (h : Agrees r r') (err : RangeError) : r = .error err ↔ r' = .error err := by
  cases h with
  | refused err' =>
      constructor
      · rintro ⟨⟩
        rfl
      · rintro ⟨⟩
        rfl
  | accepted hx =>
      constructor
      · rintro ⟨⟩
      · rintro ⟨⟩

theorem Agrees.exists_ok {r : Except RangeError (Logged Buffer)} {e : Editor}
    (h : Agrees r (.ok e)) : ∃ x, r = .ok x ∧ Represents x.value e := by
  cases h with
  | accepted hx => exact ⟨_, rfl, hx⟩

variable {b : Buffer} {e : Editor} {c p q : Int} {s : Bytes}

theorem Represents.endChar_eq (h : Represents b e) : b.endChar = e.endChar := h.sound.endChar_eq

theorem represents_fresh (m : Bool) : Represents { multibyte := m } {} := by
  have htext : HasText { multibyte := m } [] := by
    refine ⟨GapBuffer.wellFormed_ofList [], ?_, GapBuffer.contents_ofList [], rfl⟩
    intro c hc
    cases hc
  have hfirst := isPlace_first m []
  exact ⟨⟨htext, hfirst, hfirst, hfirst, hfirst, Int.le_refl 1⟩, rfl, rfl, rfl⟩

theorem Represents.place_mem (h : Represents b e) (hlo : e.lower ≤ c) (hhi : c ≤ e.upper) :
    1 ≤ c ∧ c ≤ e.chars.length + 1 := by
  have hlower := h.sound.lower.one_le
  have hupper := h.sound.upper.le_last
  rw [h.lower_eq] at hlower
  rw [h.upper_eq] at hupper
  exact ⟨by omega, by omega⟩

theorem Represents.splice {new : List Int} (h : Represents b e)
    (hnew : ∀ c ∈ new, Allowed b.multibyte c) (hne : new ≠ []) (hlo : e.lower ≤ c)
    (hhi : c ≤ e.upper) :
    Represents (b.splice c (encode b.multibyte new)).value (e.splice c new) := by
  obtain ⟨h₁, h₂⟩ := h.place_mem hlo hhi
  obtain ⟨pre, post, hchars, rfl⟩ := exists_append h₁ h₂
  have hsound := h.sound
  rw [hchars] at hsound
  have hcount := countChars_encode hnew
  refine ⟨?_, ?_, h.lower_eq, ?_⟩
  · rw [Editor.chars_splice new hchars]
    exact hsound.splice hnew hne (by rw [h.lower_eq]; omega) (by rw [h.upper_eq]; omega)
  · unfold Buffer.splice Editor.splice edited
    dsimp only [Logged.value_pure, Logged.value_bind]
    rw [h.point_eq, hcount]
    split
    · show b.point.char + (new.length : Int) = _
      rw [h.point_eq]
    · exact h.point_eq
  · show b.upper.char + b.countChars _ = e.upper + new.length
    rw [hcount, h.upper_eq]

theorem Represents.cut (h : Represents b e) (hlt : p < q) (hlo : e.lower ≤ p) (hhi : q ≤ e.upper) :
    Represents (b.cut p q).value (e.cut p q) := by
  obtain ⟨h₁, -⟩ := h.place_mem hlo (by omega)
  obtain ⟨-, h₂⟩ := h.place_mem (c := q) (by omega) hhi
  obtain ⟨pre, mid, post, hchars, rfl, rfl⟩ := exists_append_append h₁ (Int.le_of_lt hlt) h₂
  have hmid : mid ≠ [] := by
    rintro rfl
    rw [List.append_nil] at hlt
    exact Int.lt_irrefl _ hlt
  have hsound := h.sound
  rw [hchars] at hsound
  refine ⟨?_, ?_, h.lower_eq, ?_⟩
  · rw [Editor.chars_cut hchars]
    exact hsound.cut hmid (by rw [h.lower_eq]; omega) (by rw [h.upper_eq]; omega)
  · unfold Buffer.cut Editor.cut edited
    dsimp only [Logged.value_pure, Logged.value_bind]
    rw [h.point_eq]
    split
    · show b.point.char + -_ = _
      rw [h.point_eq]
      rfl
    · split
      · rfl
      · exact h.point_eq
  · show b.upper.char + -_ = e.upper - _
    rw [h.upper_eq]
    rfl

/-! ## Commands -/

theorem Represents.insert (h : Represents b e) (hs : IsText b.multibyte s) :
    Agrees (b.insert c s) (e.insert c (decodeText b.multibyte s)) := by
  obtain ⟨new, hnew, rfl⟩ := hs
  unfold Buffer.insert Editor.insert
  rw [h.lower_eq, h.upper_eq, decodeText_encode hnew]
  split
  · exact .refused _
  · rename_i hrange
    apply Agrees.accepted
    by_cases hnil : new = []
    · subst hnil
      rw [Editor.splice_nil]
      exact h
    · rw [if_neg (by rw [List.isEmpty_iff]; exact encode_ne_nil hnil)]
      exact h.splice hnew hnil (by omega) (by omega)

theorem ordered_le (p q : Int) : (ordered p q).1 ≤ (ordered p q).2 := by
  unfold ordered
  split <;> dsimp only <;> omega

theorem Represents.delete (h : Represents b e) (p q : Int) :
    Agrees (b.delete p q) (e.delete p q) := by
  have hle := ordered_le p q
  unfold Buffer.delete region Editor.delete
  generalize ordered p q = stretch at hle
  obtain ⟨lo, hi⟩ := stretch
  dsimp only at hle ⊢
  rw [h.lower_eq, h.upper_eq]
  split
  · rename_i hrange
    apply Agrees.accepted
    show Represents (if lo = hi then pure b else b.cut lo hi).value _
    split
    · rename_i heq
      rw [heq, Editor.cut_self]
      exact h
    · exact h.cut (by omega) hrange.1 hrange.2
  · exact .refused _

theorem char_point_confine (b : Buffer) (lower upper : Position) :
    (b.confine lower upper).point.char = min (max b.point.char lower.char) upper.char := by
  unfold confine
  dsimp only
  by_cases hlower : b.point.char < lower.char
  · rw [if_pos hlower]
    split <;> omega
  · rw [if_neg hlower]
    split <;> omega

theorem Represents.narrow (h : Represents b e) (p q : Int) :
    Agrees ((b.narrow p q).map pure) (e.narrow p q) := by
  have hle := ordered_le p q
  have hend := h.sound.endChar_eq
  unfold Buffer.narrow Editor.narrow
  generalize ordered p q = stretch at hle
  obtain ⟨lo, hi⟩ := stretch
  dsimp only at hle ⊢
  rw [h.endChar_eq]
  split
  · exact .refused _
  -- the new limits are converted before the point is clipped to them
  · rename_i hrange
    rw [← h.endChar_eq] at hrange
    apply Agrees.accepted
    refine ⟨?_, ?_, rfl, rfl⟩
    · exact h.sound.confine (h.sound.position (by omega) (by omega))
        (h.sound.position (by omega) (by omega)) hle
    · rw [← h.point_eq]
      exact char_point_confine b (b.position lo) (b.position hi)

theorem Represents.widen (h : Represents b e) : Represents b.widen e.widen :=
  ⟨h.sound.widen, h.point_eq, rfl, h.endChar_eq⟩

/-- A sound buffer never refuses to be erased. -/
theorem Represents.erase (h : Represents b e) : Represents b.erase.value {} := by
  obtain ⟨e', hedit, hchars, hlower, hupper⟩ := Editor.exists_delete_widen e
  have hdelete := h.widen.delete 1 b.widen.endChar
  rw [h.widen.endChar_eq] at hdelete
  obtain ⟨x, hx, hrep⟩ := Agrees.exists_ok (hedit ▸ hdelete)
  have hsound := hrep.sound
  rw [hchars] at hsound
  rw [← h.widen.endChar_eq] at hx
  unfold Buffer.erase
  dsimp only
  rw [hx]
  exact ⟨hsound.setPoint (isPlace_first _ _), rfl, hrep.lower_eq.trans hlower,
    hrep.upper_eq.trans hupper⟩

theorem Represents.moveGap (h : Represents b e) (h₁ : 1 ≤ c) (h₂ : c ≤ b.endChar) :
    Represents (b.moveGap c).value e :=
  ⟨h.sound.moveGap h₁ h₂, h.point_eq, h.lower_eq, h.upper_eq⟩

theorem Represents.goTo (h : Represents b e) (h₁ : 1 ≤ c) (h₂ : c ≤ b.endChar) :
    Represents (b.setPoint (b.position c)) { e with point := c } := by
  have hend := h.sound.endChar_eq
  exact ⟨h.sound.setPoint (h.sound.position h₁ (by omega)), rfl, h.lower_eq, h.upper_eq⟩

/-- What callers promise: bytes that are put into a multibyte buffer as they are consist of forms,
and the gap and the point are only sent to places of the text. -/
def Admissible (b : Buffer) : Command → Prop
  | .insert _ s => IsText b.multibyte s
  | .moveGap c | .goTo c => 1 ≤ c ∧ c ≤ b.endChar
  | .insertExternal _ _ | .delete _ _ | .narrow _ _ | .erase | .widen => True

instance (b : Buffer) : ∀ c : Command, Decidable (b.Admissible c)
  | .insert _ s => inferInstanceAs (Decidable (IsText b.multibyte s))
  | .moveGap c | .goTo c => inferInstanceAs (Decidable (1 ≤ c ∧ c ≤ b.endChar))
  | .insertExternal _ _ | .delete _ _ | .narrow _ _ | .erase | .widen => .isTrue trivial

theorem isText_internalForm (b : Buffer) (s : Bytes) : IsText b.multibyte (b.internalForm s) := by
  unfold internalForm
  cases b.multibyte with
  | false => exact isText_false _
  | true => exact isText_ofExternal s

theorem internalForm_congr {b' : Buffer} (h : b'.multibyte = b.multibyte) (s : Bytes) :
    b'.internalForm s = b.internalForm s := by
  unfold internalForm
  rw [h]

/-- One command, on a buffer and on the editor that it represents. -/
theorem Represents.run {k : Command} (h : Represents b e) (hk : b.Admissible k) :
    Agrees (b.run k) (e.run b.multibyte k) := by
  cases k with
  | insert c s => exact h.insert hk
  | insertExternal c s => exact h.insert (isText_internalForm b s)
  | delete p q => exact h.delete p q
  | narrow p q => exact h.narrow p q
  | erase => exact .accepted h.erase
  | widen => exact .accepted h.widen
  | moveGap c => exact .accepted (h.moveGap hk.1 hk.2)
  | goTo c => exact .accepted (h.goTo hk.1 hk.2)

/-! ## Runs -/

/-- The buffer that a command leaves. -/
def step (b : Buffer) (k : Command) : Buffer := (b.after k).value

theorem counted_step (b : Buffer) (k : Command) : Counted b (b.step k) := by
  unfold step after
  cases hr : b.run k with
  | error err => exact Counted.refl b
  | ok x => exact counted_run hr

/-- The command is accepted and makes the text longer or shorter. -/
def resizes (b : Buffer) (k : Command) : Bool :=
  match b.run k with
  | .ok x => x.value.endChar != b.endChar
  | .error _ => false

theorem tick_step (b : Buffer) (k : Command) :
    (b.step k).tick = b.tick + if b.resizes k then 1 else 0 := by
  unfold step after resizes
  cases hr : b.run k with
  | error err => exact (Int.add_zero b.tick).symm
  | ok x =>
      show x.value.tick = b.tick + if (x.value.endChar != b.endChar) = true then 1 else 0
      rcases (counted_run hr).2 with ⟨hend, htick, -⟩ | ⟨hend, htick, -⟩
      · rw [hend, htick, bne_self_eq_false, if_neg Bool.false_ne_true, Int.add_zero]
      · rw [htick, if_pos (bne_iff_ne.mpr hend)]

theorem charsTick_step {k : Command} (h : b.charsTick = b.tick) :
    (b.step k).charsTick = (b.step k).tick := by
  rcases (counted_step b k).2 with ⟨-, htick, hchars⟩ | ⟨-, htick, hchars⟩
  · rw [htick, hchars, h]
  · rw [htick, hchars]

theorem Represents.step {k : Command} (h : Represents b e) (hk : b.Admissible k) :
    Represents (b.step k) (e.after b.multibyte k) := by
  have hrun := h.run hk
  unfold Buffer.step Buffer.after Editor.after
  cases hrun' : b.run k <;> cases hrun'' : e.run b.multibyte k <;> rw [hrun', hrun''] at hrun
  · exact h
  · cases hrun
  · cases hrun
  · cases hrun with
    | accepted hx => exact hx

/-- The command does not put the point outside the accessible part. -/
def StaysInside (b : Buffer) : Command → Prop
  | .goTo c => b.lower.char ≤ c ∧ c ≤ b.upper.char
  | _ => True

instance (b : Buffer) (k : Command) : Decidable (b.StaysInside k) := by
  cases k <;> unfold StaysInside <;> infer_instance

theorem Represents.inside_run {k : Command} {e' : Editor} {m : Bool} (h : Represents b e)
    (hin : e.Inside) (hk : b.StaysInside k) (hrun : e.run m k = .ok e') : e'.Inside := by
  have hinsert : ∀ {c : Int} {new : List Int}, e.insert c new = .ok e' → e'.Inside := by
    intro c new hinsert
    unfold Editor.insert at hinsert
    split at hinsert
    · cases hinsert
    · cases hinsert
      exact Editor.inside_splice c new hin
  cases k with
  | insert c s => exact hinsert hrun
  | insertExternal c s => exact hinsert hrun
  | delete p q =>
      change e.delete p q = .ok e' at hrun
      unfold Editor.delete at hrun
      dsimp only at hrun
      split at hrun
      · rename_i hrange
        cases hrun
        exact Editor.inside_cut hin hrange.1 hrange.2
      · cases hrun
  | narrow p q =>
      have hle := ordered_le p q
      change e.narrow p q = .ok e' at hrun
      unfold Editor.narrow at hrun
      dsimp only at hrun
      split at hrun
      · cases hrun
      · cases hrun
        constructor
        · show (ordered p q).1 ≤ min (max e.point (ordered p q).1) (ordered p q).2
          omega
        · show min (max e.point (ordered p q).1) (ordered p q).2 ≤ (ordered p q).2
          omega
  | erase =>
      cases hrun
      exact ⟨Int.le_refl 1, Int.le_refl 1⟩
  | widen =>
      cases hrun
      constructor
      · show 1 ≤ e.point
        rw [← h.point_eq]
        exact h.sound.point.one_le
      · show e.point ≤ e.endChar
        rw [← h.point_eq]
        exact h.sound.point.le_last
  | moveGap c =>
      cases hrun
      exact hin
  | goTo c =>
      cases hrun
      rw [StaysInside, h.lower_eq, h.upper_eq] at hk
      exact hk

/-- The characters of the text. -/
def chars (b : Buffer) : List Int := decodeText b.multibyte b.text.contents

theorem HasText.chars_eq {cs : List Int} (h : HasText b cs) : b.chars = cs := by
  unfold chars
  rw [h.contents_eq, decodeText_encode h.allowed]

theorem represents_run {m : Bool} (ks : List Command)
    (h : Along step Admissible { multibyte := m } ks) :
    Represents (ks.foldl step { multibyte := m }) (ks.foldl (Editor.after m) {}) ∧
      (ks.foldl step { multibyte := m }).multibyte = m := by
  have hstep : ∀ (b : Buffer) (e : Editor) (k : Command),
      Represents b e ∧ b.multibyte = m → b.Admissible k →
        Represents (b.step k) (e.after m k) ∧ (b.step k).multibyte = m := by
    rintro b e k ⟨hrep, rfl⟩ hk
    exact ⟨hrep.step hk, (counted_step b k).1⟩
  exact Along.simulation (R := fun b e => Represents b e ∧ b.multibyte = m) hstep ks
    ⟨represents_fresh m, rfl⟩ h

/-- A point that is never put outside the accessible part stays in it. -/
theorem inside_run {m : Bool} (ks : List Command) (h : Along step Admissible { multibyte := m } ks)
    (hstays : Along step StaysInside { multibyte := m } ks) :
    (ks.foldl (Editor.after m) {}).Inside := by
  -- the editor alone cannot tell that a widened buffer still holds the point
  have hstep : ∀ (b : Buffer) (e : Editor) (k : Command),
      Represents b e ∧ b.multibyte = m ∧ e.Inside → b.Admissible k ∧ b.StaysInside k →
        Represents (b.step k) (e.after m k) ∧ (b.step k).multibyte = m ∧ (e.after m k).Inside := by
    rintro b e k ⟨hrep, rfl, hin⟩ ⟨hk, hk'⟩
    refine ⟨hrep.step hk, (counted_step b k).1, ?_⟩
    unfold Editor.after
    split
    · rename_i e' hrun
      exact hrep.inside_run hin hk' hrun
    · exact hin
  have hstart : Editor.Inside {} := ⟨Int.le_refl 1, Int.le_refl 1⟩
  exact (Along.simulation (R := fun b e => Represents b e ∧ b.multibyte = m ∧ e.Inside) hstep ks
    ⟨represents_fresh m, rfl, hstart⟩ (Along.and ks h hstays)).2.2

/-- **Both counts of every place belong together.** After any run, the end, the point, the limits of
the accessible part and the gap are places of the text, at the byte positions of their characters;
and the point is in the accessible part unless it was put outside. -/
theorem places_run (m : Bool) (ks : List Command)
    (h : Along step Admissible { multibyte := m } ks) :
    let b := ks.foldl step { multibyte := m }
    let B := bytePos m b.chars
    b.text.contents = encode m b.chars ∧
    (b.endChar = b.chars.length + 1 ∧ b.text.endPos = B b.endChar) ∧
    (b.point.byte = B b.point.char ∧ b.lower.byte = B b.lower.char ∧
      b.upper.byte = B b.upper.char ∧ b.text.gapPos = B b.gapChar) ∧
    (1 ≤ b.lower.char ∧ b.lower.char ≤ b.upper.char ∧ b.upper.char ≤ b.endChar) ∧
    (1 ≤ b.point.char ∧ b.point.char ≤ b.endChar) ∧ (1 ≤ b.gapChar ∧ b.gapChar ≤ b.endChar) ∧
    (Along step StaysInside { multibyte := m } ks →
      b.lower.char ≤ b.point.char ∧ b.point.char ≤ b.upper.char) := by
  intro b B
  obtain ⟨hrep, hm⟩ : Represents b (ks.foldl (Editor.after m) {}) ∧ b.multibyte = m :=
    represents_run ks h
  -- the text that is read back is the one that the buffer is sound for
  have hsound := hrep.sound
  rw [← hsound.chars_eq] at hsound
  have hend := hsound.endChar_eq
  have hlast := hsound.last
  obtain ⟨htext, hpoint, hlower, hupper, hgap, hle⟩ := hsound
  have hcontents := htext.contents_eq
  rw [hm] at hpoint hlower hupper hgap hlast hcontents
  refine ⟨hcontents, ⟨hend, hlast.byte_eq⟩,
    ⟨hpoint.byte_eq, hlower.byte_eq, hupper.byte_eq, hgap.byte_eq⟩, ⟨hlower.one_le, hle, ?_⟩,
    ⟨hpoint.one_le, ?_⟩, ⟨hgap.one_le, ?_⟩, ?_⟩
  · rw [hend]
    exact hupper.le_last
  · rw [hend]
    exact hpoint.le_last
  · rw [hend]
    exact hgap.le_last
  · intro hstays
    rw [hrep.lower_eq, hrep.point_eq, hrep.upper_eq]
    exact inside_run ks h hstays

/-- Characters of one to four bytes and two raw bytes, with edits on both sides of the gap and of
the point, refused and accepted ones, in a part of the text. -/
theorem places_run_narrowed :
    let ks : List Command :=
      [.insertExternal 1 [0x61, 0xC3, 0xA9, 0xE2, 0x82, 0xAC, 0xFF], .narrow 5 2, .goTo 4,
        .insert 3 [0xF0, 0x9F, 0x98, 0x80, 0x62], .insert 1 [0x62], .moveGap 3, .delete 6 4,
        .insertExternal 4 [0x80], .goTo 3]
    let b := ks.foldl step { multibyte := true }
    Along step Admissible { multibyte := true } ks ∧
      Along step StaysInside { multibyte := true } ks ∧
      b.point.char = 3 ∧ b.point.byte = 4 ∧ b.gapChar = 5 ∧ b.text.gapPos = 10 ∧
      b.lower.char ≤ b.point.char ∧ b.point.char ≤ b.upper.char := by
  intro ks b
  have hks : Along step Admissible { multibyte := true } ks := by decide +kernel
  have hstays : Along step StaysInside { multibyte := true } ks := by decide +kernel
  obtain ⟨-, -, ⟨hpoint, -, -, hgap⟩, -, -, -, hinside⟩ := places_run true ks hks
  have hchars : b.chars = [0x61, 0xE9, 0x1F600, 0x3FFF80, 0x3FFFFF] :=
    (represents_run ks hks).1.sound.chars_eq.trans (by decide +kernel)
  have hpointChar : b.point.char = 3 := by decide +kernel
  have hgapChar : b.gapChar = 5 := by decide +kernel
  refine ⟨hks, hstays, hpointChar, ?_, hgapChar, ?_, hinside hstays⟩
  · refine hpoint.trans ?_
    rw [hchars, hpointChar]
    decide
  · refine hgap.trans ?_
    rw [hchars, hgapChar]
    decide

/-- **A buffer is a plain editor.** After any run the text, the point, the accessible part and the
end are those of the editor that was given the same commands, and both refuse the same commands for
the same reasons. Both ticks count the commands that made the text longer or shorter. The text
between two places is read back as the bytes of the characters between them. -/
theorem editor_run (m : Bool) (ks : List Command)
    (h : Along step Admissible { multibyte := m } ks) :
    let b := ks.foldl step { multibyte := m }
    let e := ks.foldl (Editor.after m) {}
    let edits := occurrences step resizes { multibyte := m } ks
    (b.chars = e.chars ∧ b.point.char = e.point ∧ b.lower.char = e.lower ∧
      b.upper.char = e.upper ∧ b.endChar = e.endChar) ∧
    (∀ k, b.Admissible k → ∀ err, b.run k = .error err ↔ e.run m k = .error err) ∧
    (b.tick = 1 + edits ∧ b.charsTick = 1 + edits) ∧
    ∀ p q, 1 ≤ p → p ≤ q → q ≤ b.endChar →
      b.substring p q = encode m ((e.chars.take (q - 1).toNat).drop (p - 1).toNat) := by
  intro b e edits
  obtain ⟨hrep, hm⟩ : Represents b e ∧ b.multibyte = m := represents_run ks h
  have htick : b.tick = 1 + edits := foldl_eq_add_occurrences tick_step ks { multibyte := m }
  have hcharsTick : b.charsTick = b.tick :=
    Along.invariant (I := fun b => b.charsTick = b.tick) (fun _ _ hb _ => charsTick_step hb) ks
      rfl h
  refine ⟨⟨hrep.sound.chars_eq, hrep.point_eq, hrep.lower_eq, hrep.upper_eq, hrep.endChar_eq⟩,
    ?_, ⟨htick, hcharsTick.trans htick⟩, ?_⟩
  · intro k hk err
    have hrun := hrep.run hk
    rw [hm] at hrun
    exact hrun.error_iff err
  · intro p q hp hpq hq
    have hend := hrep.sound.endChar_eq
    obtain ⟨pre, mid, post, hchars, rfl, rfl⟩ := exists_append_append hp hpq
      (show q ≤ e.chars.length + 1 by omega)
    have hsound := hrep.sound
    rw [hchars] at hsound
    rw [hsound.substring_eq, hm, hchars, Editor.take_place, Editor.drop_place]

/-- A deletion that ends at the point, a reversed one around it, edits of nothing and a refused
one. -/
theorem editor_run_around_point :
    let ks : List Command :=
      [.insert 1 [0x61, 0xC3, 0xA9, 0x62, 0xE2, 0x82, 0xAC, 0xC1, 0xBF], .goTo 5, .narrow 2 6,
        .insertExternal 3 [0xE9, 0x7A], .delete 5 7, .delete 6 4, .insert 9 [0x63], .delete 3 3,
        .insert 3 [], .moveGap 2, .widen]
    let b := ks.foldl step { multibyte := true }
    Along step Admissible { multibyte := true } ks ∧ b.chars = [0x61, 0xE9, 0x3FFFE9] ∧
      b.point.char = 4 ∧ b.tick = 5 ∧ b.substring 2 4 = [0xC3, 0xA9, 0xC1, 0xA9] := by
  intro ks b
  have hks : Along step Admissible { multibyte := true } ks := by decide +kernel
  obtain ⟨⟨hchars, hpoint, -, -, hend⟩, -, ⟨htick, -⟩, hsubstring⟩ := editor_run true ks hks
  have hedits : occurrences step resizes { multibyte := true } ks = 4 := by decide +kernel
  refine ⟨hks, hchars.trans (by decide +kernel), hpoint.trans (by decide +kernel), ?_, ?_⟩
  · exact htick.trans (by rw [hedits]; rfl)
  · exact (hsubstring 2 4 (by decide) (by decide) (hend ▸ by decide +kernel)).trans
      (by decide +kernel)

end Buffer

end GapText
