/-
Log keys.  Twenty zero-padded digits order the keys as the indices, every key is
read back as its index, and the two metadata keys sort before all of them.
-/
import Seshat.Storage.LogStore

namespace Seshat

open Decimal Utf8

/-- The digits of a log key. -/
theorem keyDigits (index : UInt64) :
    (zeroPad 20 (text index.toNat)).length = 20 ∧
      (zeroPad 20 (text index.toNat)).all isDigit = true ∧
      value (zeroPad 20 (text index.toNat)) = index.toNat := by
  have hlt : index.toNat < 10 ^ 20 := lt_trans index.toNat_lt (by norm_num)
  refine ⟨length_zeroPad (length_text_le (by norm_num) hlt), ?_, ?_⟩
  · exact all_isDigit_zeroPad 20 (all_isDigit_text index.toNat)
  · rw [value_zeroPad, value_text]

theorem length_formatLogKey (index : UInt64) : (formatLogKey index).length = 24 := by
  rw [formatLogKey, List.length_append, (keyDigits index).1]
  rfl

/-- Keys are ordered as their indices. -/
theorem compare_formatLogKey (a b : UInt64) :
    compare (formatLogKey a) (formatLogKey b) = compare a.toNat b.toNat := by
  obtain ⟨halength, hadigits, havalue⟩ := keyDigits a
  obtain ⟨hblength, hbdigits, hbvalue⟩ := keyDigits b
  rw [formatLogKey, formatLogKey, Bytes.compare_append_append,
    compare_eq_compare_value (halength.trans hblength.symm) hadigits hbdigits, havalue,
    hbvalue]

theorem formatLogKey_inj {a b : UInt64} : formatLogKey a = formatLogKey b ↔ a = b := by
  constructor
  · intro h
    have hcompare : compare a.toNat b.toNat = .eq := by
      rw [← compare_formatLogKey, h, Std.compare_self]
    exact UInt64.toNat_inj.mp (Std.LawfulEqCmp.eq_of_compare hcompare)
  · rintro rfl
    rfl

theorem compare_formatLogKey_eq_lt {a b : UInt64} :
    compare (formatLogKey a) (formatLogKey b) = .lt ↔ a < b := by
  rw [compare_formatLogKey, Std.compare_eq_lt, UInt64.lt_iff_toNat_lt]

theorem formatLogKey_ascii (index : UInt64) : ∀ b ∈ formatLogKey index, b < 0x80 := by
  have hlog : ∀ b ∈ ascii "log:", b < 0x80 := by simp [ascii]
  intro b hb
  rcases List.mem_append.mp hb with hb | hb
  · exact hlog b hb
  · have hdigit := List.all_eq_true.mp (keyDigits index).2.1 b hb
    simp only [isDigit, Bool.and_eq_true, decide_eq_true_eq] at hdigit
    rw [UInt8.lt_iff_toNat_lt]
    exact lt_of_le_of_lt hdigit.2 (by decide)

theorem u64FromStr_keyDigits (index : UInt64) :
    u64FromStr ((formatLogKey index).drop 4) = some index := by
  obtain ⟨hlength, hdigits, hvalue⟩ := keyDigits index
  have hdrop : (formatLogKey index).drop 4 = zeroPad 20 (text index.toNat) :=
    List.drop_left' rfl
  have hne : zeroPad 20 (text index.toNat) ≠ [] :=
    List.ne_nil_of_length_pos (by omega)
  rw [hdrop, u64FromStr_of_digits hne hdigits (by rw [hvalue]; exact index.toNat_lt),
    hvalue, UInt64.ofNat_toNat]

theorem formatLogKey_begins (index : UInt64) :
    (ascii "log:").isPrefixOf (formatLogKey index) = true := by
  rw [List.isPrefixOf_iff_prefix]
  exact List.prefix_append _ _

@[simp]
theorem parseLogKey_formatLogKey (index : UInt64) :
    parseLogKey (formatLogKey index) = some index := by
  simp [parseLogKey, fromUtf8_of_ascii (formatLogKey_ascii index), formatLogKey_begins,
    u64FromStr_keyDigits]

/-- The keys of the two metadata records. -/
def metadataKeys : List Bytes := [lastLogIdKey, lastPurgedLogIdKey]

/-- A metadata key sorts before every log key: `_` comes before `l`. -/
theorem compare_metadataKey {key : Bytes} (hkey : key ∈ metadataKeys) (index : UInt64) :
    compare key (formatLogKey index) = .lt := by
  have hhead : ∃ tail, key = 95 :: tail := by
    revert key
    simp only [metadataKeys, List.mem_cons, List.not_mem_nil, or_false]
    rintro key (rfl | rfl) <;> exact ⟨_, rfl⟩
  obtain ⟨tail, rfl⟩ := hhead
  exact Bytes.compare_cons_of_lt (by decide) _ _

theorem metadataKey_ne_formatLogKey {key : Bytes} (hkey : key ∈ metadataKeys)
    (index : UInt64) : key ≠ formatLogKey index := by
  rintro rfl
  have hlt := compare_metadataKey hkey index
  rw [Std.compare_self] at hlt
  contradiction

theorem parseLogKey_metadataKey {key : Bytes} (hkey : key ∈ metadataKeys) :
    parseLogKey key = none := by
  revert key
  decide

theorem lastLogIdKey_mem : lastLogIdKey ∈ metadataKeys := by
  decide

theorem lastPurgedLogIdKey_mem : lastPurgedLogIdKey ∈ metadataKeys := by
  decide

theorem lastLogIdKey_ne_lastPurgedLogIdKey : lastLogIdKey ≠ lastPurgedLogIdKey := by
  decide

end Seshat
