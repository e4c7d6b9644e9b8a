/-
Well-formed UTF-8 over byte lists.  A checked string is kept as its bytes, so
the reader either returns its argument or rejects it.  What it accepts are exactly
the encodings of character lists, and the characters are read back from them.
-/
import Mathlib

namespace Utf8

/-- A continuation byte `10xxxxxx`. -/
def isCont (b : UInt8) : Bool :=
  0x80 ≤ b && b ≤ 0xBF

/-- Second byte of a three-byte sequence: no overlong form, no surrogate. -/
def second3 (lead b : UInt8) : Bool :=
  if lead = 0xE0 then 0xA0 ≤ b && b ≤ 0xBF
  else if lead = 0xED then 0x80 ≤ b && b ≤ 0x9F
  else isCont b

/-- Second byte of a four-byte sequence: no overlong form, at most U+10FFFF. -/
def second4 (lead b : UInt8) : Bool :=
  if lead = 0xF0 then 0x90 ≤ b && b ≤ 0xBF
  else if lead = 0xF4 then 0x80 ≤ b && b ≤ 0x8F
  else isCont b

def valid : List UInt8 → Bool
  | [] => true
  | [a] => a < 0x80
  | [a, b] =>
      if a < 0x80 then valid [b]
      else 0xC2 ≤ a && a ≤ 0xDF && isCont b
  | [a, b, c] =>
      if a < 0x80 then valid [b, c]
      else if 0xC2 ≤ a && a ≤ 0xDF then isCont b && valid [c]
      else 0xE0 ≤ a && a ≤ 0xEF && second3 a b && isCont c
  | a :: b :: c :: d :: rest =>
      if a < 0x80 then valid (b :: c :: d :: rest)
      else if 0xC2 ≤ a && a ≤ 0xDF then isCont b && valid (c :: d :: rest)
      else if 0xE0 ≤ a && a ≤ 0xEF then
        second3 a b && isCont c && valid (d :: rest)
      else 0xF0 ≤ a && a ≤ 0xF4 && second4 a b && isCont c && isCont d &&
        valid rest

/-- Check a byte string and hand it back as text. -/
def fromUtf8 (bytes : List UInt8) : Option (List UInt8) :=
  if valid bytes then some bytes else none

theorem valid_of_ascii {bytes : List UInt8} (h : ∀ b ∈ bytes, b < 0x80) :
    valid bytes = true := by
  fun_induction valid bytes with grind

theorem fromUtf8_of_ascii {bytes : List UInt8} (h : ∀ b ∈ bytes, b < 0x80) :
    fromUtf8 bytes = some bytes := by
  simp [fromUtf8, valid_of_ascii h]

theorem eq_of_fromUtf8 {bytes text : List UInt8} (h : fromUtf8 bytes = some text) :
    text = bytes := by
  unfold fromUtf8 at h
  split at h
  · exact (Option.some.inj h).symm
  · contradiction

theorem toNat_val_ofNat {n : Nat} (h : n.isValidChar) : (Char.ofNat n).val.toNat = n :=
  (Char.toNat_ofNat n).trans (if_pos h)

/-- The bytes of a text. -/
def encode (text : List Char) : List UInt8 :=
  text.flatMap String.utf8EncodeChar

/-- `str::chars`, on bytes that are known to be well formed. -/
def chars : List UInt8 → List Char
  | [] => []
  | a :: rest =>
      if a < 0x80 then Char.ofNat a.toNat :: chars rest
      else if a < 0xE0 then
        match rest with
        | b :: rest => Char.ofNat (a.toNat % 32 * 64 + b.toNat % 64) :: chars rest
        | [] => []
      else if a < 0xF0 then
        match rest with
        | b :: c :: rest =>
            Char.ofNat (a.toNat % 16 * 4096 + b.toNat % 64 * 64 + c.toNat % 64) :: chars rest
        | _ => []
      else
        match rest with
        | b :: c :: d :: rest =>
            Char.ofNat (a.toNat % 8 * 262144 + b.toNat % 64 * 4096 + c.toNat % 64 * 64 +
              d.toNat % 64) :: chars rest
        | _ => []

theorem lt_0x80_iff {a : UInt8} : a < 0x80 ↔ a.toNat < 0x80 := UInt8.lt_iff_toNat_lt

theorem lt_0xE0_iff {a : UInt8} : a < 0xE0 ↔ a.toNat < 0xE0 := UInt8.lt_iff_toNat_lt

theorem lt_0xF0_iff {a : UInt8} : a < 0xF0 ↔ a.toNat < 0xF0 := UInt8.lt_iff_toNat_lt

theorem isCont_iff {b : UInt8} : isCont b = true ↔ 0x80 ≤ b.toNat ∧ b.toNat ≤ 0xBF := by
  simp [isCont, UInt8.le_iff_toNat_le]

theorem second3_iff {lead b : UInt8} : second3 lead b = true ↔
    0x80 ≤ b.toNat ∧ b.toNat ≤ 0xBF ∧ (lead.toNat = 0xE0 → 0xA0 ≤ b.toNat) ∧
      (lead.toNat = 0xED → b.toNat ≤ 0x9F) := by
  have he0 : lead = 0xE0 ↔ lead.toNat = 0xE0 := by rw [← UInt8.toNat_inj]; rfl
  have hed : lead = 0xED ↔ lead.toNat = 0xED := by rw [← UInt8.toNat_inj]; rfl
  simp only [second3, he0, hed]
  split
  · simp [UInt8.le_iff_toNat_le]
    omega
  · split
    · simp [UInt8.le_iff_toNat_le]
      omega
    · rw [isCont_iff]
      omega

theorem second4_iff {lead b : UInt8} : second4 lead b = true ↔
    0x80 ≤ b.toNat ∧ b.toNat ≤ 0xBF ∧ (lead.toNat = 0xF0 → 0x90 ≤ b.toNat) ∧
      (lead.toNat = 0xF4 → b.toNat ≤ 0x8F) := by
  have hf0 : lead = 0xF0 ↔ lead.toNat = 0xF0 := by rw [← UInt8.toNat_inj]; rfl
  have hf4 : lead = 0xF4 ↔ lead.toNat = 0xF4 := by rw [← UInt8.toNat_inj]; rfl
  simp only [second4, hf0, hf4]
  split
  · simp [UInt8.le_iff_toNat_le]
    omega
  · split
    · simp [UInt8.le_iff_toNat_le]
      omega
    · rw [isCont_iff]
      omega

/-- A well-formed sequence, by the tests its bytes pass, and its code point. -/
inductive Sequence : List UInt8 → Nat → Prop where
  | one {a : UInt8} (ha : a.toNat < 0x80) : Sequence [a] a.toNat
  | two {a b : UInt8} (ha : 0xC2 ≤ a.toNat ∧ a.toNat ≤ 0xDF) (hb : isCont b = true) :
      Sequence [a, b] (a.toNat % 32 * 64 + b.toNat % 64)
  | three {a b c : UInt8} (ha : 0xE0 ≤ a.toNat ∧ a.toNat ≤ 0xEF) (hb : second3 a b = true)
      (hc : isCont c = true) :
      Sequence [a, b, c] (a.toNat % 16 * 4096 + b.toNat % 64 * 64 + c.toNat % 64)
  | four {a b c d : UInt8} (ha : 0xF0 ≤ a.toNat ∧ a.toNat ≤ 0xF4) (hb : second4 a b = true)
      (hc : isCont c = true) (hd : isCont d = true) :
      Sequence [a, b, c, d] (a.toNat % 8 * 262144 + b.toNat % 64 * 4096 + c.toNat % 64 * 64 +
        d.toNat % 64)

theorem sequence_utf8EncodeChar (c : Char) :
    Sequence (String.utf8EncodeChar c) c.val.toNat := by
  have hvalid : c.val.toNat < 0xD800 ∨ 0xDFFF < c.val.toNat ∧ c.val.toNat < 0x110000 := c.valid
  unfold String.utf8EncodeChar
  generalize c.val.toNat = v at hvalid
  have htoNat : ∀ n, n < 256 → (UInt8.ofNat n).toNat = n :=
    fun n hn => UInt8.toNat_ofNat_of_lt' hn
  by_cases h1 : v ≤ 0x7F
  · have hone := Sequence.one (a := UInt8.ofNat v) (by rw [htoNat v (by omega)]; omega)
    rw [htoNat v (by omega)] at hone
    simpa only [h1, ↓reduceIte] using hone
  by_cases h2 : v ≤ 0x7FF
  · have ha := htoNat (v / 64 % 0x20 + 0xC0) (by omega)
    have hb := htoNat (v % 0x40 + 0x80) (by omega)
    have htwo := @Sequence.two (UInt8.ofNat (v / 64 % 0x20 + 0xC0)) (UInt8.ofNat (v % 0x40 + 0x80))
      (by rw [ha]; omega) (isCont_iff.mpr (by rw [hb]; omega))
    rw [ha, hb, show (v / 64 % 0x20 + 0xC0) % 32 * 64 + (v % 0x40 + 0x80) % 64 = v by omega] at htwo
    simpa only [h1, h2, ↓reduceIte] using htwo
  by_cases h3 : v ≤ 0xFFFF
  · have ha := htoNat (v / 4096 % 0x10 + 0xE0) (by omega)
    have hb := htoNat (v / 64 % 0x40 + 0x80) (by omega)
    have hc := htoNat (v % 0x40 + 0x80) (by omega)
    have hthree := @Sequence.three (UInt8.ofNat (v / 4096 % 0x10 + 0xE0))
      (UInt8.ofNat (v / 64 % 0x40 + 0x80)) (UInt8.ofNat (v % 0x40 + 0x80))
      (by rw [ha]; omega) (second3_iff.mpr (by rw [ha, hb]; omega))
      (isCont_iff.mpr (by rw [hc]; omega))
    rw [ha, hb, hc, show (v / 4096 % 0x10 + 0xE0) % 16 * 4096 + (v / 64 % 0x40 + 0x80) % 64 * 64 +
      (v % 0x40 + 0x80) % 64 = v by omega] at hthree
    simpa only [h1, h2, h3, ↓reduceIte] using hthree
  · have ha := htoNat (v / 262144 % 0x08 + 0xF0) (by omega)
    have hb := htoNat (v / 4096 % 0x40 + 0x80) (by omega)
    have hc := htoNat (v / 64 % 0x40 + 0x80) (by omega)
    have hd := htoNat (v % 0x40 + 0x80) (by omega)
    have hfour := @Sequence.four (UInt8.ofNat (v / 262144 % 0x08 + 0xF0))
      (UInt8.ofNat (v / 4096 % 0x40 + 0x80)) (UInt8.ofNat (v / 64 % 0x40 + 0x80))
      (UInt8.ofNat (v % 0x40 + 0x80))
      (by rw [ha]; omega) (second4_iff.mpr (by rw [ha, hb]; omega))
      (isCont_iff.mpr (by rw [hc]; omega)) (isCont_iff.mpr (by rw [hd]; omega))
    rw [ha, hb, hc, hd, show (v / 262144 % 0x08 + 0xF0) % 8 * 262144 +
      (v / 4096 % 0x40 + 0x80) % 64 * 4096 + (v / 64 % 0x40 + 0x80) % 64 * 64 +
      (v % 0x40 + 0x80) % 64 = v by omega] at hfour
    simpa only [h1, h2, h3, ↓reduceIte] using hfour

theorem Sequence.isValidChar {bytes : List UInt8} {n : Nat} (h : Sequence bytes n) :
    n.isValidChar := by
  cases h with
  | one ha => exact Or.inl (by omega)
  | two ha hb =>
      rw [isCont_iff] at hb
      exact Or.inl (by omega)
  | three ha hb hc =>
      rw [second3_iff] at hb
      rw [isCont_iff] at hc
      unfold Nat.isValidChar
      omega
  | four ha hb hc hd =>
      rw [second4_iff] at hb
      rw [isCont_iff] at hc hd
      exact Or.inr (by omega)

/-- A byte is given by its value. -/
theorem eq_ofNat {a : UInt8} {n : Nat} (h : a.toNat = n) : a = UInt8.ofNat n := by
  rw [← h, UInt8.ofNat_toNat]

/-- A sequence is what its code point is written as. -/
theorem Sequence.eq_utf8EncodeChar {bytes : List UInt8} {n : Nat} (h : Sequence bytes n) :
    bytes = String.utf8EncodeChar (Char.ofNat n) := by
  rw [String.utf8EncodeChar, toNat_val_ofNat h.isValidChar]
  cases h with
  | one ha =>
      rw [if_pos (by omega)]
      rw [UInt8.ofNat_toNat]
  | @two a b ha hb =>
      rw [isCont_iff] at hb
      simp only [show ¬ a.toNat % 32 * 64 + b.toNat % 64 ≤ 0x7F by omega,
        show a.toNat % 32 * 64 + b.toNat % 64 ≤ 0x7FF by omega, ↓reduceIte]
      rw [← eq_ofNat (a := a) (by omega), ← eq_ofNat (a := b) (by omega)]
  | @three a b c ha hb hc =>
      rw [second3_iff] at hb
      rw [isCont_iff] at hc
      simp only [show ¬ a.toNat % 16 * 4096 + b.toNat % 64 * 64 + c.toNat % 64 ≤ 0x7F by omega,
        show ¬ a.toNat % 16 * 4096 + b.toNat % 64 * 64 + c.toNat % 64 ≤ 0x7FF by omega,
        show a.toNat % 16 * 4096 + b.toNat % 64 * 64 + c.toNat % 64 ≤ 0xFFFF by omega, ↓reduceIte]
      rw [← eq_ofNat (a := a) (by omega), ← eq_ofNat (a := b) (by omega),
        ← eq_ofNat (a := c) (by omega)]
  | @four a b c d ha hb hc hd =>
      rw [second4_iff] at hb
      rw [isCont_iff] at hc hd
      have hlarge : 0xFFFF < a.toNat % 8 * 262144 + b.toNat % 64 * 4096 + c.toNat % 64 * 64 +
          d.toNat % 64 := by omega
      rw [if_neg (by omega), if_neg (by omega), if_neg (by omega),
        ← eq_ofNat (a := a) (by omega), ← eq_ofNat (a := b) (by omega),
        ← eq_ofNat (a := c) (by omega), ← eq_ofNat (a := d) (by omega)]

theorem Sequence.chars_append {bytes : List UInt8} {n : Nat} (h : Sequence bytes n)
    (rest : List UInt8) : chars (bytes ++ rest) = Char.ofNat n :: chars rest := by
  rw [chars.eq_def]
  cases h with
  | one ha =>
      simp only [List.cons_append, List.nil_append, lt_0x80_iff]
      rw [if_pos ha]
  | two ha hb =>
      simp only [List.cons_append, List.nil_append, lt_0x80_iff, lt_0xE0_iff]
      rw [if_neg (by omega), if_pos (by omega)]
  | three ha hb hc =>
      simp only [List.cons_append, List.nil_append, lt_0x80_iff, lt_0xE0_iff, lt_0xF0_iff]
      rw [if_neg (by omega), if_neg (by omega), if_pos (by omega)]
  | four ha hb hc hd =>
      simp only [List.cons_append, List.nil_append, lt_0x80_iff, lt_0xE0_iff, lt_0xF0_iff]
      rw [if_neg (by omega), if_neg (by omega), if_neg (by omega)]

section Lead

variable {a : UInt8}

theorem valid_one (ha : a.toNat < 0x80) (rest : List UInt8) :
    valid (a :: rest) = valid rest := by
  match rest with
  | [] => simp [valid, lt_0x80_iff.mpr ha]
  | [b] => simp [valid, lt_0x80_iff.mpr ha]
  | [b, c] => simp [valid, lt_0x80_iff.mpr ha]
  | b :: c :: d :: rest => simp [valid, lt_0x80_iff.mpr ha]

/-- Behind a lead byte of two. -/
theorem valid_two (ha : 0xC2 ≤ a.toNat ∧ a.toNat ≤ 0xDF) (rest : List UInt8) :
    valid (a :: rest) = match rest with
      | b :: rest => isCont b && valid rest
      | [] => false := by
  have hnot : ¬ a < 0x80 := by rw [lt_0x80_iff]; omega
  have hlow : 0xC2 ≤ a := UInt8.le_iff_toNat_le.mpr ha.1
  have hhigh : a ≤ 0xDF := UInt8.le_iff_toNat_le.mpr ha.2
  match rest with
  | [] => simp [valid, hnot]
  | [b] => simp [valid, hnot, hlow, hhigh]
  | [b, c] => simp [valid, hnot, hlow, hhigh]
  | b :: c :: d :: rest => simp [valid, hnot, hlow, hhigh]

/-- Behind a lead byte of three. -/
theorem valid_three (ha : 0xE0 ≤ a.toNat ∧ a.toNat ≤ 0xEF) (rest : List UInt8) :
    valid (a :: rest) = match rest with
      | b :: c :: rest => second3 a b && isCont c && valid rest
      | _ => false := by
  have hnot : ¬ a < 0x80 := by rw [lt_0x80_iff]; omega
  have hnot' : ¬ a ≤ 0xDF := by rw [UInt8.le_iff_toNat_le]; simp; omega
  have hlow : 0xE0 ≤ a := UInt8.le_iff_toNat_le.mpr ha.1
  have hhigh : a ≤ 0xEF := UInt8.le_iff_toNat_le.mpr ha.2
  match rest with
  | [] => simp [valid, hnot]
  | [b] => simp [valid, hnot, hnot']
  | [b, c] => simp [valid, hnot, hnot', hlow, hhigh]
  | b :: c :: d :: rest => simp [valid, hnot, hnot', hlow, hhigh]

/-- Behind any other byte. -/
theorem valid_four (ha : 0xEF < a.toNat ∨ 0x80 ≤ a.toNat ∧ a.toNat < 0xC2)
    (rest : List UInt8) :
    valid (a :: rest) = match rest with
      | b :: c :: d :: rest => 0xF0 ≤ a && a ≤ 0xF4 && second4 a b && isCont c && isCont d &&
          valid rest
      | _ => false := by
  have hnot : ¬ a < 0x80 := by rw [lt_0x80_iff]; omega
  have hnot' : ¬ (0xC2 ≤ a ∧ a ≤ 0xDF) := by
    rw [UInt8.le_iff_toNat_le, UInt8.le_iff_toNat_le]; simp; omega
  have hnot'' : ¬ (0xE0 ≤ a ∧ a ≤ 0xEF) := by
    rw [UInt8.le_iff_toNat_le, UInt8.le_iff_toNat_le]; simp; omega
  match rest with
  | [] => simp [valid, hnot]
  | [b] => simp [valid, hnot, hnot']
  | [b, c] => simp [valid, hnot, hnot', hnot'']
  | b :: c :: d :: rest => simp [valid, hnot, hnot', hnot'']

end Lead

theorem Sequence.valid_append {bytes : List UInt8} {n : Nat} (h : Sequence bytes n)
    (rest : List UInt8) : valid (bytes ++ rest) = valid rest := by
  cases h with
  | one ha => exact valid_one ha rest
  | two ha hb => simp [valid_two ha, hb]
  | three ha hb hc => simp [valid_three ha, hb, hc]
  | @four a b c d ha hb hc hd =>
      have hlow : 0xF0 ≤ a := UInt8.le_iff_toNat_le.mpr ha.1
      have hhigh : a ≤ 0xF4 := UInt8.le_iff_toNat_le.mpr ha.2
      have hlead : 0xEF < a.toNat ∨ 0x80 ≤ a.toNat ∧ a.toNat < 0xC2 := by omega
      simp [valid_four hlead, hlow, hhigh, hb, hc, hd]

/-- Well-formed bytes begin with a sequence. -/
theorem exists_sequence {a : UInt8} {bytes : List UInt8} (h : valid (a :: bytes) = true) :
    ∃ first n rest, Sequence first n ∧ a :: bytes = first ++ rest ∧ valid rest = true := by
  by_cases h1 : a.toNat < 0x80
  · rw [valid_one h1] at h
    exact ⟨_, _, bytes, .one h1, rfl, h⟩
  by_cases h2 : 0xC2 ≤ a.toNat ∧ a.toNat ≤ 0xDF
  · rw [valid_two h2] at h
    match bytes with
    | b :: rest =>
        rw [Bool.and_eq_true] at h
        exact ⟨_, _, rest, .two h2 h.1, rfl, h.2⟩
  by_cases h3 : 0xE0 ≤ a.toNat ∧ a.toNat ≤ 0xEF
  · rw [valid_three h3] at h
    match bytes with
    | b :: c :: rest =>
        rw [Bool.and_eq_true, Bool.and_eq_true] at h
        exact ⟨_, _, rest, .three h3 h.1.1 h.1.2, rfl, h.2⟩
  · rw [valid_four (by omega)] at h
    match bytes with
    | b :: c :: d :: rest =>
        simp only [Bool.and_eq_true, decide_eq_true_eq, UInt8.le_iff_toNat_le] at h
        obtain ⟨⟨⟨⟨ha, hb⟩, hc⟩, hd⟩, hrest⟩ := h
        exact ⟨_, _, rest, .four ha hb hc hd, rfl, hrest⟩

@[simp]
theorem encode_cons (c : Char) (text : List Char) :
    encode (c :: text) = String.utf8EncodeChar c ++ encode text := rfl

@[simp]
theorem valid_encode (text : List Char) : valid (encode text) = true := by
  induction text with
  | nil => rfl
  | cons c text ih => rw [encode_cons, (sequence_utf8EncodeChar c).valid_append, ih]

/-- A text is read back from its bytes. -/
@[simp]
theorem chars_encode (text : List Char) : chars (encode text) = text := by
  induction text with
  | nil => rfl
  | cons c text ih =>
      rw [encode_cons, (sequence_utf8EncodeChar c).chars_append, ih]
      exact congrArg (· :: text) (Char.ofNat_toNat c)

/-- Well-formed bytes are those of a text. -/
theorem encode_chars {bytes : List UInt8} (h : valid bytes = true) :
    encode (chars bytes) = bytes := by
  induction hlength : bytes.length using Nat.strongRecOn generalizing bytes with
  | ind length ih =>
      cases bytes with
      | nil => rfl
      | cons a bytes =>
          obtain ⟨first, n, rest, hfirst, heq, hrest⟩ := exists_sequence h
          have hshorter : rest.length < length := by
            have hpos : 0 < first.length := by cases hfirst <;> simp
            rw [← hlength, heq, List.length_append]
            omega
          rw [heq, hfirst.chars_append, encode_cons, ih rest.length hshorter hrest rfl,
            ← hfirst.eq_utf8EncodeChar]

/-- What is accepted is some text. -/
theorem fromUtf8_eq_some {bytes text : List UInt8} :
    fromUtf8 bytes = some text ↔ bytes = text ∧ encode (chars bytes) = bytes := by
  unfold fromUtf8
  constructor
  · intro h
    split at h
    · next hvalid => exact ⟨Option.some.inj h, encode_chars hvalid⟩
    · contradiction
  · rintro ⟨rfl, hchars⟩
    rw [← hchars, valid_encode, if_pos rfl]

theorem fromUtf8_encode (text : List Char) : fromUtf8 (encode text) = some (encode text) := by
  simp [fromUtf8]

end Utf8
