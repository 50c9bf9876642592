import GapText.Proofs.External
import GapText.Buffer.Edit

/-!
# Places of a text

A buffer keeps a character by its form, or by a single byte when it is unibyte; so a text of
characters is kept as the bytes that `encode` gives. A place between two characters has both
characters and bytes before it. `bytePos` goes from one count to the other, and a position is an
`IsPlace` when its two counts belong together. An edit leaves the places before it where they are
and shifts those behind it.
-/

namespace GapText.Code

/-- What a buffer of either kind holds as one character. -/
def Allowed (multibyte : Bool) (c : Int) : Prop := if multibyte then IsChar c else 0 ≤ c ∧ c < 256

instance (m : Bool) (c : Int) : Decidable (Allowed m c) := by
  unfold Allowed
  infer_instance

/-- The bytes of one character in a buffer of either kind. -/
def encodeChar (multibyte : Bool) (c : Int) : Bytes := if multibyte then form c else [lowByte c]

/-- The bytes of a text in a buffer of either kind. -/
def encode (multibyte : Bool) (cs : List Int) : Bytes := cs.flatMap (encodeChar multibyte)

/-- The text that a buffer of either kind reads from its bytes. -/
def decodeText (multibyte : Bool) (s : Bytes) : List Int :=
  if multibyte then chars s else s.map fun b => (b.toNat : Int)

variable {m : Bool} {cs ds pre pre' post post' : List Int}

theorem encode_append (cs ds : List Int) : encode m (cs ++ ds) = encode m cs ++ encode m ds :=
  List.flatMap_append

theorem encode_cons (c : Int) (cs : List Int) :
    encode m (c :: cs) = encodeChar m c ++ encode m cs :=
  List.flatMap_cons

theorem length_encodeChar_pos (m : Bool) (c : Int) : 1 ≤ (encodeChar m c).length := by
  cases m with
  | false => exact Nat.le_refl 1
  | true =>
      show 1 ≤ (form c).length
      rw [length_form]
      unfold formLength
      repeat' split
      all_goals decide

theorem length_encode_false (cs : List Int) : (encode false cs).length = cs.length := by
  induction cs with
  | nil => rfl
  | cons c cs ih =>
      rw [encode_cons, List.length_append, ih, List.length_cons, Nat.add_comm]
      rfl

/-- No character is kept by less than one byte. -/
theorem length_le_length_encode (cs : List Int) : cs.length ≤ (encode m cs).length := by
  induction cs with
  | nil => exact Nat.le_refl 0
  | cons c cs ih =>
      have hpos := length_encodeChar_pos m c
      rw [encode_cons, List.length_append, List.length_cons]
      omega

theorem encode_ne_nil (h : cs ≠ []) : encode m cs ≠ [] := by
  have hlen := length_le_length_encode (m := m) cs
  have hpos := List.length_pos_iff.mpr h
  intro hnil
  rw [hnil, List.length_nil] at hlen
  omega

theorem decodeText_encode (h : ∀ c ∈ cs, Allowed m c) : decodeText m (encode m cs) = cs := by
  cases m with
  | true => exact chars_forms h
  | false =>
      show (encode false cs).map _ = cs
      induction cs with
      | nil => rfl
      | cons c cs ih =>
          obtain ⟨⟨h₀, h₁⟩, hcs⟩ := List.forall_mem_cons.mp h
          rw [encode_cons, List.map_append, ih hcs]
          show ((lowByte c).toNat : Int) :: cs = c :: cs
          rw [toNat_lowByte h₀ h₁]

/-- In a unibyte buffer all bytes are text. -/
theorem encode_decodeText_false (s : Bytes) : encode false (decodeText false s) = s := by
  induction s with
  | nil => rfl
  | cons b s ih =>
      show encode false ((b.toNat : Int) :: decodeText false s) = b :: s
      rw [encode_cons, ih]
      show lowByte b.toNat :: s = b :: s
      rw [lowByte_toNat]

theorem allowed_decodeText_false (s : Bytes) : ∀ c ∈ decodeText false s, Allowed false c := by
  intro c hc
  obtain ⟨b, -, rfl⟩ := List.mem_map.mp hc
  have hb := b.toNat_lt
  exact ⟨by omega, by omega⟩

/-- The head byte of a character and the bytes behind it, which are not heads. -/
theorem exists_encodeChar {c : Int} (hc : Allowed true c) :
    ∃ b tail, encodeChar true c = b :: tail ∧ isHead b = true ∧
      headLength b = (encodeChar true c).length ∧ ∀ t ∈ tail, isHead t = false := by
  obtain ⟨b, tail, hform, hspells⟩ := exists_spells_form hc
  refine ⟨b, tail, hform, hspells.head, ?_, hspells.trails⟩
  show headLength b = (form c).length
  rw [hform, hspells.length, List.length_cons]

/-! ## Text in its kept form -/

/-- The bytes are those of some text. -/
def IsText (multibyte : Bool) (s : Bytes) : Prop :=
  ∃ cs, (∀ c ∈ cs, Allowed multibyte c) ∧ encode multibyte cs = s

theorem isText_iff {s : Bytes} :
    IsText m s ↔ (∀ c ∈ decodeText m s, Allowed m c) ∧ encode m (decodeText m s) = s := by
  constructor
  · rintro ⟨cs, hcs, rfl⟩
    rw [decodeText_encode hcs]
    exact ⟨hcs, rfl⟩
  · rintro ⟨hcs, henc⟩
    exact ⟨decodeText m s, hcs, henc⟩

instance (m : Bool) (s : Bytes) : Decidable (IsText m s) := decidable_of_iff' _ isText_iff

theorem isText_false (s : Bytes) : IsText false s :=
  isText_iff.mpr ⟨allowed_decodeText_false s, encode_decodeText_false s⟩

theorem isText_ofExternal (s : Bytes) : IsText true (ofExternal s) := by
  obtain ⟨cs, hcs, hforms⟩ := exists_forms_ofExternal s
  exact ⟨cs, hcs, hforms.symm⟩

/-! ## From characters to bytes -/

/-- The byte position of a character: one more than the bytes of the characters before it. -/
def bytePos (m : Bool) (cs : List Int) (k : Int) : Int :=
  1 + (encode m (cs.take (k - 1).toNat)).length

theorem bytePos_append_left {k : Int} (hk : k ≤ pre.length + 1) :
    bytePos m (pre ++ post) k = bytePos m pre k := by
  unfold bytePos
  rw [List.take_append_of_le_length (by omega)]

theorem bytePos_append_right {k : Int} (hk : pre.length + 1 ≤ k) :
    bytePos m (pre ++ post) k = (encode m pre).length + bytePos m post (k - pre.length) := by
  unfold bytePos
  rw [List.take_append, List.take_of_length_le (by omega), encode_append, List.length_append,
    show (k - 1).toNat - pre.length = (k - pre.length - 1).toNat by omega]
  omega

/-- The place behind a text that stands at the start of a longer one. -/
theorem bytePos_length_add_one (pre post : List Int) :
    bytePos m (pre ++ post) (pre.length + 1) = (encode m pre).length + 1 := by
  rw [bytePos_append_left (Int.le_refl _)]
  unfold bytePos
  rw [List.take_of_length_le (by omega), Int.add_comm]

theorem bytePos_last (cs : List Int) : bytePos m cs (cs.length + 1) = (encode m cs).length + 1 := by
  have h := bytePos_length_add_one (m := m) cs []
  rwa [List.append_nil] at h

theorem bytePos_one (cs : List Int) : bytePos m cs 1 = 1 := by
  show 1 + (((encode m (cs.take 0)).length : Nat) : Int) = 1
  rfl

theorem exists_append {k : Int} (h₁ : 1 ≤ k) (h₂ : k ≤ cs.length + 1) :
    ∃ pre post, cs = pre ++ post ∧ k = pre.length + 1 := by
  refine ⟨cs.take (k - 1).toNat, cs.drop (k - 1).toNat, (List.take_append_drop _ _).symm, ?_⟩
  rw [List.length_take]
  omega

theorem exists_append_cons {k : Int} (h₁ : 1 ≤ k) (h₂ : k ≤ cs.length) :
    ∃ pre c post, cs = pre ++ c :: post ∧ k = pre.length + 1 := by
  obtain ⟨pre, post, rfl, hk⟩ := exists_append h₁ (show k ≤ cs.length + 1 by omega)
  cases post with
  | nil =>
      rw [List.append_nil] at h₂
      omega
  | cons c post => exact ⟨pre, c, post, rfl, hk⟩

/-- A part of a text, given by the places where it starts and ends. -/
theorem exists_append_append {lo hi : Int} (h₁ : 1 ≤ lo) (h₂ : lo ≤ hi) (h₃ : hi ≤ cs.length + 1) :
    ∃ pre mid post, cs = pre ++ mid ++ post ∧ lo = pre.length + 1 ∧
      hi = (pre ++ mid).length + 1 := by
  obtain ⟨front, post, rfl, hhi⟩ := exists_append (by omega) h₃
  obtain ⟨pre, mid, rfl, hlo⟩ := exists_append h₁ (show lo ≤ front.length + 1 by omega)
  exact ⟨pre, mid, post, rfl, hlo, hhi⟩

theorem bytePos_succ (c : Int) :
    bytePos m (pre ++ c :: post) (pre.length + 1 + 1) =
      bytePos m (pre ++ c :: post) (pre.length + 1) + (encodeChar m c).length := by
  have h := bytePos_length_add_one (m := m) (pre ++ [c]) post
  rw [List.append_assoc, List.singleton_append, List.length_append, List.length_singleton] at h
  have hone : encode m [c] = encodeChar m c := List.append_nil _
  have hcast : ((pre.length : Int) + 1 + 1) = ((pre.length + 1 : Nat) : Int) + 1 := by omega
  rw [bytePos_length_add_one, hcast, h, encode_append, hone, List.length_append]
  omega

/-- Later characters have later byte positions. -/
theorem bytePos_lt {k l : Int} (h₁ : 1 ≤ k) (h₂ : k < l) (h₃ : l ≤ cs.length + 1) :
    bytePos m cs k < bytePos m cs l := by
  obtain ⟨pre, mid, post, rfl, rfl, rfl⟩ := exists_append_append h₁ (Int.le_of_lt h₂) h₃
  have hmid := length_le_length_encode (m := m) mid
  rw [bytePos_length_add_one, List.append_assoc, bytePos_length_add_one, encode_append,
    List.length_append]
  rw [List.length_append] at h₂
  omega

theorem bytePos_le {k l : Int} (h₁ : 1 ≤ k) (h₂ : k ≤ l) (h₃ : l ≤ cs.length + 1) :
    bytePos m cs k ≤ bytePos m cs l := by
  rcases Int.lt_or_eq_of_le h₂ with h | rfl
  · exact Int.le_of_lt (bytePos_lt h₁ h h₃)
  · exact Int.le_refl _

/-- Where all characters together take one byte each, so does every one of them. -/
theorem bytePos_of_length_encode {k : Int} (h : (encode m cs).length = cs.length) (h₁ : 1 ≤ k)
    (h₂ : k ≤ cs.length + 1) : bytePos m cs k = k := by
  obtain ⟨pre, post, rfl, rfl⟩ := exists_append h₁ h₂
  -- neither part can have fewer bytes than characters, so neither has more
  have hpre := length_le_length_encode (m := m) pre
  have hpost := length_le_length_encode (m := m) post
  rw [encode_append, List.length_append, List.length_append] at h
  rw [bytePos_length_add_one]
  omega

theorem bytePos_succ_false {k : Int} (h₁ : 1 ≤ k) (h₂ : k ≤ cs.length) :
    bytePos false cs (k + 1) = bytePos false cs k + 1 := by
  rw [bytePos_of_length_encode (length_encode_false cs) (by omega) (by omega),
    bytePos_of_length_encode (length_encode_false cs) h₁ (by omega)]

/-! ## Places -/

/-- A place between two characters of a text, where both counts are right. -/
structure IsPlace (m : Bool) (cs : List Int) (p : Position) : Prop where
  one_le : 1 ≤ p.char
  le_last : p.char ≤ cs.length + 1
  byte_eq : p.byte = bytePos m cs p.char

theorem isPlace_first (m : Bool) (cs : List Int) : IsPlace m cs .first :=
  ⟨Int.le_refl _, by show (1 : Int) ≤ _; omega, (bytePos_one cs).symm⟩

theorem IsPlace.one_lt_byte {p : Position} (h : IsPlace m cs p) (hchar : 1 < p.char) :
    1 < p.byte := by
  have hlt := bytePos_lt (m := m) (Int.le_refl 1) hchar h.le_last
  rwa [bytePos_one, ← h.byte_eq] at hlt

theorem isPlace_append {p : Position} (hchar : p.char = pre.length + 1)
    (hbyte : p.byte = (encode m pre).length + 1) : IsPlace m (pre ++ post) p where
  one_le := by omega
  le_last := by
    rw [List.length_append]
    omega
  byte_eq := by rw [hchar, hbyte, bytePos_length_add_one]

/-- A place is known by its character. -/
theorem IsPlace.eq_of_char {p q : Position} (h : IsPlace m cs p) (h' : IsPlace m cs q)
    (hchar : p.char = q.char) : p = q := by
  obtain ⟨pchar, pbyte⟩ := p
  obtain ⟨qchar, qbyte⟩ := q
  obtain rfl : pchar = qchar := hchar
  rw [show pbyte = qbyte from h.byte_eq.trans h'.byte_eq.symm]

/-- An edit behind a place leaves it where it is. -/
theorem IsPlace.behind {p : Position} (h : IsPlace m (pre ++ post) p)
    (hp : p.char ≤ pre.length + 1) : IsPlace m (pre ++ post') p where
  one_le := h.one_le
  le_last := by
    rw [List.length_append]
    omega
  byte_eq := by
    rw [h.byte_eq, bytePos_append_left hp, bytePos_append_left hp]

/-- An edit before a place shifts it, by as many characters and bytes as the text becomes longer. -/
theorem IsPlace.shift {p : Position} {chars bytes : Int} (h : IsPlace m (pre ++ post) p)
    (hp : pre.length + 1 ≤ p.char) (hchars : pre.length + chars = pre'.length)
    (hbytes : (encode m pre).length + bytes = (encode m pre').length) :
    IsPlace m (pre' ++ post) (p.shift chars bytes) where
  one_le := by
    show 1 ≤ p.char + chars
    omega
  le_last := by
    have hlast := h.le_last
    rw [List.length_append] at hlast ⊢
    show p.char + chars ≤ _
    omega
  byte_eq := by
    show p.byte + bytes = bytePos m (pre' ++ post) (p.char + chars)
    rw [h.byte_eq, bytePos_append_right hp, bytePos_append_right (by omega),
      show p.char + chars - pre'.length = p.char - pre.length by omega]
    omega

end GapText.Code
