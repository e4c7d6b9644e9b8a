/-
Updates of a partial map, applied in order.  The last update of a key decides;
a key without one keeps its value.  So applying a list of updates after any part
of it has been applied already comes to the same.
-/
import Mathlib.Data.List.Induction

namespace Overlay

variable {κ ν : Type} [DecidableEq κ]

/-- A key with its new value, or none to remove it. -/
abbrev Update (κ ν : Type) := κ × Option ν

def apply (f : κ → Option ν) (u : Update κ ν) : κ → Option ν :=
  fun key => if key = u.1 then u.2 else f key

/-- What the updates leave at a key, if they touch it. -/
def last (us : List (Update κ ν)) (key : κ) : Option (Option ν) :=
  (us.reverse.find? fun u => key = u.1).map Prod.snd

theorem last_append (us vs : List (Update κ ν)) (key : κ) :
    last (us ++ vs) key = (last vs key).or (last us key) := by
  simp only [last, List.reverse_append, List.find?_append, Option.map_or]

theorem last_eq_none_iff {us : List (Update κ ν)} {key : κ} :
    last us key = none ↔ ∀ u ∈ us, key ≠ u.1 := by
  simp [last]

/-- The map after the updates. -/
theorem foldl_apply (us : List (Update κ ν)) (f : κ → Option ν) (key : κ) :
    us.foldl apply f key = (last us key).getD (f key) := by
  induction us using List.reverseRecOn with
  | nil => rfl
  | append_singleton us u ih =>
      rw [List.foldl_append, List.foldl_cons, List.foldl_nil, apply, ih, last_append]
      by_cases hkey : key = u.1
      · simp [last, hkey]
      · simp [last, hkey]

/-- Keys the updates do not touch are as before. -/
theorem foldl_apply_of_ne {us : List (Update κ ν)} {key : κ} (h : ∀ u ∈ us, key ≠ u.1)
    (f : κ → Option ν) : us.foldl apply f key = f key := by
  rw [foldl_apply, last_eq_none_iff.mpr h]
  rfl

/-- Maps that agree wherever the updates do not reach agree after them. -/
theorem foldl_apply_congr {us : List (Update κ ν)} {f f' : κ → Option ν}
    (h : ∀ key, (∀ u ∈ us, key ≠ u.1) → f' key = f key) :
    us.foldl apply f' = us.foldl apply f := by
  funext key
  rw [foldl_apply, foldl_apply]
  cases hlast : last us key with
  | some value => rfl
  | none => exact h key (last_eq_none_iff.mp hlast)

/-- Updates repeated after a part of them has been applied. -/
theorem foldl_apply_replay {us done : List (Update κ ν)} (hsub : done ⊆ us)
    (f : κ → Option ν) : us.foldl apply (done.foldl apply f) = us.foldl apply f :=
  foldl_apply_congr fun _ hkey => foldl_apply_of_ne (fun u hu => hkey u (hsub hu)) f

end Overlay
