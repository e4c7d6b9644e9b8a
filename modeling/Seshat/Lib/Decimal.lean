/-
Decimal text over ASCII bytes: how integers are written, read back and padded,
with the readers' limits at 64 bits.  Equally long digit strings are compared
byte by byte exactly as the numbers they denote.
-/
import Mathlib

namespace Decimal

/-- The bytes of a string of ASCII characters. -/
def ascii (text : String) : List UInt8 :=
  text.toList.map fun c => UInt8.ofNat c.toNat

def isDigit (b : UInt8) : Bool :=
  48 ≤ b.toNat && b.toNat ≤ 57

def digit (b : UInt8) : Nat :=
  b.toNat - 48

/-- The number a string of digit bytes denotes, most significant byte first. -/
def value : List UInt8 → Nat
  | [] => 0
  | b :: ds => digit b * 10 ^ ds.length + value ds

/-- Digits without sign; the empty string is no number. -/
def ofDigits (ds : List UInt8) : Option Nat :=
  if ds ≠ [] ∧ ds.all isDigit = true then some (value ds) else none

/-- A natural number in decimal, `0` for zero and no leading zero otherwise. -/
def text (n : Nat) : List UInt8 :=
  (Nat.toDigits 10 n).map fun c => UInt8.ofNat c.toNat

/-- Left padding with the digit `0` up to a minimal width. -/
def zeroPad (width : Nat) (ds : List UInt8) : List UInt8 :=
  List.replicate (width - ds.length) 48 ++ ds

def i64ToString (i : Int64) : List UInt8 :=
  if i.toInt < 0 then 45 :: text i.toInt.natAbs else text i.toInt.natAbs

/-- Keep an integer that a signed 64-bit word can hold. -/
def checkI64 (i : Int) : Option Int64 :=
  if -2 ^ 63 ≤ i ∧ i < 2 ^ 63 then some (Int64.ofInt i) else none

/-- Signed reader: one optional `+` or `-`, then at least one digit, within
range. -/
def i64FromStr (s : List UInt8) : Option Int64 :=
  match s with
  | 43 :: ds => (ofDigits ds).bind fun n => checkI64 n
  | 45 :: ds => (ofDigits ds).bind fun n => checkI64 (-n)
  | ds => (ofDigits ds).bind fun n => checkI64 n

/-- Unsigned reader: one optional `+`, then at least one digit, within range. -/
def u64FromStr (s : List UInt8) : Option UInt64 :=
  let read := fun ds => (ofDigits ds).bind fun n =>
    if n < 2 ^ 64 then some (UInt64.ofNat n) else none
  match s with
  | 43 :: ds => read ds
  | ds => read ds

theorem toNat_ofNat_digit {c : Char} (hc : c.isDigit = true) :
    (UInt8.ofNat c.toNat).toNat = c.toNat ∧ 48 ≤ c.toNat ∧ c.toNat ≤ 57 := by
  have hrange : 48 ≤ c.toNat ∧ c.toNat ≤ 57 := by
    simp only [Char.isDigit, ge_iff_le, Bool.and_eq_true, decide_eq_true_eq] at hc
    exact hc
  refine ⟨?_, hrange⟩
  rw [UInt8.toNat_ofNat']
  omega

theorem isDigit_of_mem_text {n : Nat} {b : UInt8} (hb : b ∈ text n) :
    isDigit b = true := by
  simp only [text, List.mem_map] at hb
  obtain ⟨c, hc, rfl⟩ := hb
  have hdigit := Nat.isDigit_of_mem_toDigits (by decide) (by decide) hc
  obtain ⟨heq, hlo, hhi⟩ := toNat_ofNat_digit hdigit
  simp [isDigit, heq, hlo, hhi]

theorem text_ne_nil (n : Nat) : text n ≠ [] := by
  simp [text]

theorem value_append (ds es : List UInt8) :
    value (ds ++ es) = value ds * 10 ^ es.length + value es := by
  induction ds with
  | nil => simp [value]
  | cons d ds ih =>
      simp only [List.cons_append, value, List.length_append, ih, pow_add]
      ring

theorem value_replicate_zero (k : Nat) : value (List.replicate k 48) = 0 := by
  induction k with
  | zero => rfl
  | succ k ih => simp [List.replicate_succ, value, ih, digit]

theorem value_map_ofDigitChars {cs : List Char}
    (hcs : ∀ c ∈ cs, c.isDigit = true) :
    value (cs.map fun c => UInt8.ofNat c.toNat) = Nat.ofDigitChars 10 cs 0 := by
  induction cs with
  | nil => rfl
  | cons c cs ih =>
      have htail := ih fun c' hc' => hcs c' (List.mem_cons_of_mem c hc')
      have hhead := (toNat_ofNat_digit (hcs c List.mem_cons_self)).1
      rw [Nat.ofDigitChars_cons, Nat.ofDigitChars_eq_ofDigitChars_zero]
      simp only [List.map_cons, value, List.length_map, htail, digit, hhead]
      simp [Nat.mul_comm]

theorem value_text (n : Nat) : value (text n) = n := by
  rw [text, value_map_ofDigitChars, Nat.ofDigitChars_ten_toDigits]
  intro c hc
  exact Nat.isDigit_of_mem_toDigits (by decide) (by decide) hc

theorem all_isDigit_text (n : Nat) : (text n).all isDigit = true :=
  List.all_eq_true.mpr fun _ hb => isDigit_of_mem_text hb

@[simp]
theorem ofDigits_text (n : Nat) : ofDigits (text n) = some n := by
  simp [ofDigits, text_ne_nil, all_isDigit_text, value_text]

theorem all_isDigit_of_ofDigits {ds : List UInt8} {n : Nat}
    (h : ofDigits ds = some n) : ds.all isDigit = true := by
  unfold ofDigits at h
  split at h
  · rename_i hds
    exact hds.2
  · contradiction

/-- The first byte of a digit string is neither sign. -/
theorem head_text_ne_sign (n : Nat) {b : UInt8} {ds : List UInt8}
    (h : text n = b :: ds) : b ≠ 43 ∧ b ≠ 45 := by
  have hb : isDigit b = true := isDigit_of_mem_text (n := n) (by simp [h])
  constructor <;> rintro rfl <;> simp [isDigit] at hb

theorem i64FromStr_text (n : Nat) : i64FromStr (text n) = checkI64 n := by
  cases htext : text n with
  | nil => exact absurd htext (text_ne_nil n)
  | cons b ds =>
      obtain ⟨hplus, hminus⟩ := head_text_ne_sign n htext
      rw [i64FromStr.eq_3 (b :: ds) (by simp [hplus]) (by simp [hminus]),
        ← htext, ofDigits_text, Option.bind_some]

theorem checkI64_toInt (i : Int64) : checkI64 i.toInt = some i := by
  have hlo := Int64.le_toInt i
  have hhi := Int64.toInt_lt i
  rw [checkI64, if_pos ⟨hlo, hhi⟩, Int64.ofInt_toInt]

theorem i64FromStr_i64ToString (i : Int64) :
    i64FromStr (i64ToString i) = some i := by
  by_cases hneg : i.toInt < 0
  · have habs : -(i.toInt.natAbs : Int) = i.toInt := by omega
    simp only [i64ToString, hneg, ↓reduceIte, i64FromStr, ofDigits_text,
      Option.bind_some, habs]
    exact checkI64_toInt i
  · have habs : (i.toInt.natAbs : Int) = i.toInt := by omega
    simp only [i64ToString, hneg, ↓reduceIte, i64FromStr_text, habs]
    exact checkI64_toInt i

/-- A length that fits in a signed word is read back as written. -/
theorem i64FromStr_text_of_lt {n : Nat} (hn : n < 2 ^ 63) :
    i64FromStr (text n) = some (Int64.ofNat n) := by
  rw [i64FromStr_text]
  have hlo : (-2 ^ 63 : Int) ≤ (n : Int) := by omega
  have hhi : (n : Int) < 2 ^ 63 := by exact_mod_cast hn
  rw [checkI64, if_pos ⟨hlo, hhi⟩]
  rfl

/-- Accepted signed text has only digits and sign characters. -/
theorem mem_of_i64FromStr {s : List UInt8} {i : Int64}
    (h : i64FromStr s = some i) {b : UInt8} (hb : b ∈ s) :
    b = 43 ∨ b = 45 ∨ isDigit b = true := by
  have key : ∀ {ds : List UInt8} {f : Nat → Option Int64},
      (ofDigits ds).bind f = some i → ∀ b ∈ ds, isDigit b = true := by
    intro ds f hbind b hb
    obtain ⟨n, hn, -⟩ := Option.bind_eq_some_iff.mp hbind
    exact List.all_eq_true.mp (all_isDigit_of_ofDigits hn) b hb
  unfold i64FromStr at h
  split at h
  · rcases List.mem_cons.mp hb with rfl | hb
    · exact Or.inl rfl
    · exact Or.inr (Or.inr (key h b hb))
  · rcases List.mem_cons.mp hb with rfl | hb
    · exact Or.inr (Or.inl rfl)
    · exact Or.inr (Or.inr (key h b hb))
  · exact Or.inr (Or.inr (key h b hb))

theorem value_lt {ds : List UInt8} (hds : ds.all isDigit = true) :
    value ds < 10 ^ ds.length := by
  induction ds with
  | nil => simp [value]
  | cons d ds ih =>
      simp only [List.all_cons, Bool.and_eq_true] at hds
      have htail := ih hds.2
      have hhead : digit d ≤ 9 := by
        have := hds.1
        simp only [isDigit, Bool.and_eq_true, decide_eq_true_eq] at this
        simp only [digit]
        omega
      simp only [value, List.length_cons, pow_succ]
      nlinarith [Nat.mul_le_mul_right (10 ^ ds.length) hhead]

theorem length_zeroPad {width : Nat} {ds : List UInt8} (hds : ds.length ≤ width) :
    (zeroPad width ds).length = width := by
  simp [zeroPad]
  omega

theorem value_zeroPad (width : Nat) (ds : List UInt8) :
    value (zeroPad width ds) = value ds := by
  simp [zeroPad, value_append, value_replicate_zero]

theorem all_isDigit_zeroPad (width : Nat) {ds : List UInt8}
    (hds : ds.all isDigit = true) : (zeroPad width ds).all isDigit = true := by
  have hzero : isDigit 48 = true := by decide
  have hpad : (List.replicate (width - ds.length) (48 : UInt8)).all isDigit = true :=
    List.all_eq_true.mpr fun b hb => by rw [List.eq_of_mem_replicate hb]; exact hzero
  rw [zeroPad, List.all_append, hpad, hds, Bool.and_self]

/-- A digit string is read back as its value, leading zeros or not. -/
theorem u64FromStr_of_digits {ds : List UInt8} (hne : ds ≠ [])
    (hds : ds.all isDigit = true) (hvalue : value ds < 2 ^ 64) :
    u64FromStr ds = some (UInt64.ofNat (value ds)) := by
  have hread : ofDigits ds = some (value ds) := by
    simp only [ofDigits, hne, hds, ne_eq, not_false_eq_true, and_self, ↓reduceIte]
  cases ds with
  | nil => exact absurd rfl hne
  | cons b ds =>
      have hplus : b ≠ 43 := by
        rintro rfl
        simp [isDigit] at hds
      rw [u64FromStr.eq_2 (b :: ds) (by simp [hplus])]
      simp only [hread, Option.bind_some, hvalue, ↓reduceIte]

theorem length_text_le {n width : Nat} (hwidth : 0 < width) (hn : n < 10 ^ width) :
    (text n).length ≤ width := by
  rw [text, List.length_map]
  exact (Nat.length_toDigits_le_iff (by decide) hwidth).mpr hn

/-- Digit strings of one length are ordered as their values are: the first
differing digit decides. -/
theorem compare_eq_compare_value {ds es : List UInt8}
    (hlength : ds.length = es.length) (hds : ds.all isDigit = true)
    (hes : es.all isDigit = true) :
    compare ds es = compare (value ds) (value es) := by
  induction ds generalizing es with
  | nil =>
      cases es with
      | nil => rfl
      | cons e es => simp at hlength
  | cons d ds ih =>
      cases es with
      | nil => simp at hlength
      | cons e es =>
          simp only [List.length_cons, Nat.add_right_cancel_iff] at hlength
          simp only [List.all_cons, Bool.and_eq_true] at hds hes
          have hd := value_lt hds.2
          have he := value_lt hes.2
          have htail := ih hlength hds.2 hes.2
          have hdd := hds.1
          have hee := hes.1
          simp only [isDigit, Bool.and_eq_true, decide_eq_true_eq] at hdd hee
          rw [← hlength] at he
          rw [List.compare_cons_cons]
          simp only [value, digit, ← hlength]
          rcases Nat.lt_trichotomy d.toNat e.toNat with hlt | heq | hgt
          · have hsmall : (d.toNat - 48) * 10 ^ ds.length + value ds <
                (e.toNat - 48) * 10 ^ ds.length + value es := by
              have hstep : (d.toNat - 48) + 1 ≤ e.toNat - 48 := by omega
              nlinarith [Nat.mul_le_mul_right (10 ^ ds.length) hstep]
            rw [Std.compare_eq_lt.mpr (UInt8.lt_iff_toNat_lt.mpr hlt),
              Std.compare_eq_lt.mpr hsmall]
            rfl
          · have hsame : d = e := UInt8.toNat_inj.mp heq
            subst hsame
            rw [Std.compare_self, htail]
            simp only [Ordering.eq_then, Nat.compare_eq_ite_lt,
              Nat.add_lt_add_iff_left]
          · have hlarge : (e.toNat - 48) * 10 ^ ds.length + value es <
                (d.toNat - 48) * 10 ^ ds.length + value ds := by
              have hstep : (e.toNat - 48) + 1 ≤ d.toNat - 48 := by omega
              nlinarith [Nat.mul_le_mul_right (10 ^ ds.length) hstep]
            rw [Std.compare_eq_gt.mpr (UInt8.lt_iff_toNat_lt.mpr hgt),
              Std.compare_eq_gt.mpr hlarge]
            rfl

end Decimal
