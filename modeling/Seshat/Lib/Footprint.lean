/-
Footprints of state computations that can fail.  A computation avoids a part of the
state if that part is as before however the computation ends; the rules follow the
structure of the computation.
-/
import Mathlib.Logic.Basic

namespace Footprint

variable {ε ε' σ α β τ : Type} {part : σ → τ}

/-- The part is the same after a success, and after a failure, as at the start. -/
structure Avoids (part : σ → τ) (op : EStateM ε σ α) : Prop where
  ok : ∀ {s a t}, op.run s = .ok a t → part t = part s
  error : ∀ {s e t}, op.run s = .error e t → part t = part s

theorem avoids_pure (a : α) : Avoids part (pure a : EStateM ε σ α) where
  ok := by
    rintro s a t ⟨⟩
    rfl
  error := by
    rintro s e t ⟨⟩

theorem avoids_throw (e : ε) : Avoids part (throw e : EStateM ε σ α) where
  ok := by
    rintro s a t ⟨⟩
  error := by
    rintro s e t ⟨⟩
    rfl

/-- What follows a failure is not run. -/
theorem avoids_throw_bind (e : ε) (f : α → EStateM ε σ β) :
    Avoids part (throw e >>= f : EStateM ε σ β) where
  ok := by
    rintro s b t ⟨⟩
  error := by
    rintro s e t ⟨⟩
    rfl

theorem avoids_get : Avoids part (get : EStateM ε σ σ) where
  ok := by
    rintro s a t ⟨⟩
    rfl
  error := by
    rintro s e t ⟨⟩

/-- An update that does not touch the part. -/
theorem avoids_modify {f : σ → σ} (hf : ∀ s, part (f s) = part s) :
    Avoids part (modify f : EStateM ε σ PUnit) where
  ok := by
    rintro s a t ⟨⟩
    exact hf s
  error := by
    rintro s e t ⟨⟩

theorem avoids_ofExcept (result : Except ε α) :
    Avoids part (MonadExcept.ofExcept result : EStateM ε σ α) := by
  cases result with
  | ok a => exact avoids_pure a
  | error e => exact avoids_throw e

theorem Avoids.bind {x : EStateM ε σ α} {f : α → EStateM ε σ β} (hx : Avoids part x)
    (hf : ∀ a, Avoids part (f a)) : Avoids part (x >>= f) where
  ok := by
    intro s b u h
    rw [EStateM.run_bind] at h
    cases hrun : x.run s with
    | error e t =>
        rw [hrun] at h
        contradiction
    | ok a t =>
        rw [hrun] at h
        exact ((hf a).ok h).trans (hx.ok hrun)
  error := by
    intro s e u h
    rw [EStateM.run_bind] at h
    cases hrun : x.run s with
    | error e' t =>
        rw [hrun] at h
        cases h
        exact hx.error hrun
    | ok a t =>
        rw [hrun] at h
        exact ((hf a).error h).trans (hx.ok hrun)

theorem Avoids.adaptExcept {op : EStateM ε σ α} (h : Avoids part op) (f : ε → ε') :
    Avoids part (op.adaptExcept f) where
  ok := by
    intro s a t hrun
    rw [EStateM.run_adaptExcept] at hrun
    cases hop : op.run s with
    | error e u =>
        rw [hop] at hrun
        contradiction
    | ok a' u =>
        rw [hop] at hrun
        cases hrun
        exact h.ok hop
  error := by
    intro s e t hrun
    rw [EStateM.run_adaptExcept] at hrun
    cases hop : op.run s with
    | error e' u =>
        rw [hop] at hrun
        cases hrun
        exact h.error hop
    | ok a u =>
        rw [hop] at hrun
        contradiction

end Footprint
