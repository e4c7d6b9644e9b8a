/-
Database writes as updates of one partial map, from a column family and a key to
a value.  A batch, or a row of single writes, is the overlay of its updates.
-/
import Seshat.Lib.Overlay
import Seshat.Storage.Effects

namespace Seshat

/-- The key a write sets or removes, with its new value. -/
def BatchOperation.update : BatchOperation → Overlay.Update (ColumnFamily × Bytes) Bytes
  | put cf key value => ((cf, key), some value)
  | delete cf key => ((cf, key), none)

namespace Storage

/-- The database as one map. -/
def lookup (s : Storage) (key : ColumnFamily × Bytes) : Option Bytes :=
  s.get key.1 key.2

theorem lookup_apply (s : Storage) (op : BatchOperation) :
    (s.apply op).lookup = Overlay.apply s.lookup op.update := by
  funext key
  cases op with
  | put cf key' value =>
      rw [lookup, get_apply_put]
      simp only [Overlay.apply, BatchOperation.update, Prod.ext_iff]
      rfl
  | delete cf key' =>
      rw [lookup, get_apply_delete]
      simp only [Overlay.apply, BatchOperation.update, Prod.ext_iff]
      rfl

theorem lookup_write (s : Storage) (batch : WriteBatch) :
    (s.write batch).lookup = (batch.map BatchOperation.update).foldl Overlay.apply s.lookup := by
  induction batch generalizing s with
  | nil => rfl
  | cons op batch ih =>
      rw [write, List.foldl_cons, ← write, ih, lookup_apply]
      rfl

theorem get_eq_of_db_eq {s t : Storage} (hdb : t.db = s.db) : t.get = s.get := by
  funext cf key
  rw [get, hdb, get]

theorem db_write_congr {s t : Storage} (hdb : t.db = s.db) (batch : WriteBatch) :
    (t.write batch).db = (s.write batch).db := by
  induction batch generalizing s t with
  | nil => exact hdb
  | cons op batch ih =>
      refine ih ?_
      cases op <;> simp only [apply, setCf, hdb]

/-- Column families a batch does not write to are as before. -/
theorem get_write_of_ne {batch : WriteBatch} {cf : ColumnFamily}
    (h : ∀ op ∈ batch, op.update.1.1 ≠ cf) (s : Storage) (key : Bytes) :
    (s.write batch).get cf key = s.get cf key := by
  have hlookup := congrFun (lookup_write s batch) (cf, key)
  rw [Overlay.foldl_apply_of_ne] at hlookup
  · exact hlookup
  · intro u hu heq
    obtain ⟨op, hop, rfl⟩ := List.mem_map.mp hu
    exact h op hop (congrArg Prod.fst heq).symm

/-- Writes repeated after a part of them has been carried out. -/
theorem get_write_replay {batch done : WriteBatch} (hsub : done ⊆ batch) (s : Storage)
    (cf : ColumnFamily) (key : Bytes) :
    ((s.write done).write batch).get cf key = (s.write batch).get cf key := by
  have hlookup : ((s.write done).write batch).lookup = (s.write batch).lookup := by
    rw [lookup_write, lookup_write, lookup_write]
    exact Overlay.foldl_apply_replay (List.map_subset _ hsub) _
  exact congrFun hlookup (cf, key)

end Storage

end Seshat
