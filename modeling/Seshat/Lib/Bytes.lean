/-
Byte strings under the lexicographic order, the order in which an ordered
store keeps its keys.
-/
import Mathlib.Order.Compare
import Std.Data.ExtTreeMap

abbrev Bytes := List UInt8

namespace Bytes

/-- A common beginning does not take part in a comparison. -/
@[simp]
theorem compare_append_append (common a b : Bytes) :
    compare (common ++ a) (common ++ b) = compare a b := by
  induction common with
  | nil => rfl
  | cons x common ih =>
      rw [List.cons_append, List.cons_append, List.compare_cons_cons, Std.compare_self,
        Ordering.eq_then, ih]

/-- The first byte decides when it differs. -/
theorem compare_cons_of_lt {x y : UInt8} (hxy : x < y) (a b : Bytes) :
    compare (x :: a) (y :: b) = .lt := by
  rw [List.compare_cons_cons, Std.compare_eq_lt.mpr hxy, Ordering.lt_then]

/-- The comparison decides the lexicographic order. -/
theorem compare_eq_lt {a b : Bytes} : compare a b = .lt ↔ a < b := by
  induction a generalizing b with
  | nil =>
      cases b with
      | nil => simp
      | cons y b => simp [List.compare_nil_cons]
  | cons x a ih =>
      cases b with
      | nil => simp [List.compare_cons_nil]
      | cons y b =>
          rw [List.compare_cons_cons, Ordering.then_eq_lt, ih, Std.compare_eq_lt,
            Std.LawfulEqOrd.compare_eq_iff_eq, List.cons_lt_cons_iff]

end Bytes
