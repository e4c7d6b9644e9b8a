/-
Redoing a log on a partial map.  Every item of the log stands for a few updates.  Some
items are done; of some others a part may have been carried out and is loose.  Whatever
no loose item touches is as the items done alone would leave it, and redoing an item
settles what it touches.
-/
import Seshat.Lib.Overlay

namespace Redo

open Overlay

variable {κ ν ι : Type} [DecidableEq κ]

/-- No update of the items is at the key. -/
def Untouched (writes : ι → List (Update κ ν)) (items : ι → Prop) (key : κ) : Prop :=
  ∀ i, items i → ∀ u ∈ writes i, key ≠ u.1

/-- Keys no loose item touches are as the items done leave them. -/
def Redone (writes : ι → List (Update κ ν)) (start : κ → Option ν) (done : List ι)
    (loose : ι → Prop) (f : κ → Option ν) : Prop :=
  ∀ key, Untouched writes loose key → f key = (done.flatMap writes).foldl apply start key

variable {writes : ι → List (Update κ ν)} {start f : κ → Option ν} {done : List ι}
  {loose loose' : ι → Prop}

theorem redone_start (writes : ι → List (Update κ ν)) (start : κ → Option ν)
    (loose : ι → Prop) : Redone writes start [] loose start :=
  fun _ _ => rfl

theorem Redone.mono (h : Redone writes start done loose f)
    (hloose : ∀ i, loose i → loose' i) : Redone writes start done loose' f :=
  fun key hkey => h key fun i hi => hkey i (hloose i hi)

/-- Updates at keys that loose items touch. -/
theorem Redone.part (h : Redone writes start done loose f)
    (hloose : ∀ i, loose i → loose' i) {us : List (Update κ ν)}
    (hus : ∀ u ∈ us, ∃ i, loose' i ∧ ∃ v ∈ writes i, u.1 = v.1) :
    Redone writes start done loose' (us.foldl apply f) := by
  intro key hkey
  have huntouched : ∀ u ∈ us, key ≠ u.1 := by
    intro u hu
    obtain ⟨i, hi, v, hv, heq⟩ := hus u hu
    rw [heq]
    exact hkey i hi v hv
  rw [foldl_apply_of_ne huntouched]
  exact h.mono hloose key hkey

/-- All updates of the next items. -/
theorem Redone.whole (h : Redone writes start done loose f) {batch : List ι}
    (hloose : ∀ i, loose i → i ∈ batch ∨ loose' i) :
    Redone writes start (done ++ batch) loose' ((batch.flatMap writes).foldl apply f) := by
  intro key hkey
  rw [List.flatMap_append, List.foldl_append, foldl_apply, foldl_apply]
  cases hlast : last (batch.flatMap writes) key with
  | some value => rfl
  | none =>
      -- the batch does not touch the key, so no loose item did either
      refine h key fun i hi u hu => ?_
      rcases hloose i hi with hbatch | hi
      · exact last_eq_none_iff.mp hlast u (List.mem_flatMap.mpr ⟨i, hbatch, hu⟩)
      · exact hkey i hi u hu

end Redo
