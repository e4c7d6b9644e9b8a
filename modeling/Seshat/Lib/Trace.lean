/-
Properties along the runs of a deterministic system.  Where one step keeps a
property exactly under some condition, a run keeps it everywhere exactly when
each of its steps meets the condition.
-/
import Mathlib.Data.List.Basic

namespace Trace

variable {σ α : Type} {step : σ → α → σ}

/-- The property holds in every state the run passes through, both ends included. -/
def Always (step : σ → α → σ) (P : σ → Prop) (s : σ) (run : List α) : Prop :=
  ∀ before, before <+: run → P (before.foldl step s)

/-- Every action of the run meets the condition in the state it is taken in. -/
def EachStep (step : σ → α → σ) (C : σ → α → Prop) (s : σ) (run : List α) : Prop :=
  ∀ before a, before ++ [a] <+: run → C (before.foldl step s) a

theorem always_nil {P : σ → Prop} {s : σ} : Always step P s [] ↔ P s := by
  simp [Always]

theorem always_cons {P : σ → Prop} {s : σ} {a : α} {run : List α} :
    Always step P s (a :: run) ↔ P s ∧ Always step P (step s a) run := by
  constructor
  · intro h
    exact ⟨h [] List.nil_prefix, fun before hbefore =>
      h (a :: before) (List.cons_prefix_cons.mpr ⟨rfl, hbefore⟩)⟩
  · rintro ⟨hhead, htail⟩ before hbefore
    cases before with
    | nil => exact hhead
    | cons b before =>
        obtain ⟨rfl, hrest⟩ := List.cons_prefix_cons.mp hbefore
        exact htail before hrest

theorem eachStep_nil {C : σ → α → Prop} {s : σ} : EachStep step C s [] := by
  intro before a hbefore
  simp at hbefore

theorem eachStep_cons {C : σ → α → Prop} {s : σ} {a : α} {run : List α} :
    EachStep step C s (a :: run) ↔ C s a ∧ EachStep step C (step s a) run := by
  constructor
  · intro h
    refine ⟨h [] a (by simp), fun before b hbefore => ?_⟩
    exact h (a :: before) b (List.cons_prefix_cons.mpr ⟨rfl, hbefore⟩)
  · rintro ⟨hhead, htail⟩ before b hbefore
    cases before with
    | nil =>
        obtain ⟨rfl, -⟩ := List.cons_prefix_cons.mp hbefore
        exact hhead
    | cons b' before =>
        obtain ⟨rfl, hrest⟩ := List.cons_prefix_cons.mp hbefore
        exact htail before b hrest

/-- A condition on the actions alone. -/
theorem eachStep_action {C : α → Prop} {s : σ} {run : List α} :
    EachStep step (fun _ a => C a) s run ↔ ∀ a ∈ run, C a := by
  induction run generalizing s with
  | nil => exact ⟨fun _ => by simp, fun _ => eachStep_nil⟩
  | cons a run ih => rw [eachStep_cons, ih, List.forall_mem_cons]

/-- The step rule lifted to runs of permitted actions.  The invariant only has to
survive the steps that meet the condition. -/
theorem always_iff_eachStep_of_permitted (Inv : σ → Prop) {P : σ → Prop} {G C : σ → α → Prop}
    (hkeep : ∀ s a, Inv s → P s → G s a → C s a → Inv (step s a))
    (hstep : ∀ s a, Inv s → P s → G s a → (P (step s a) ↔ C s a)) {s : σ} (hinv : Inv s)
    (hP : P s) {run : List α} (hrun : EachStep step G s run) :
    Always step P s run ↔ EachStep step C s run := by
  induction run generalizing s with
  | nil => exact ⟨fun _ => eachStep_nil, fun _ => always_nil.mpr hP⟩
  | cons a run ih =>
      obtain ⟨hG, hrest⟩ := eachStep_cons.mp hrun
      rw [always_cons, eachStep_cons]
      constructor
      · rintro ⟨-, htail⟩
        have hnext : P (step s a) := htail [] List.nil_prefix
        have hC := (hstep s a hinv hP hG).mp hnext
        exact ⟨hC, (ih (hkeep s a hinv hP hG hC) hnext hrest).mp htail⟩
      · rintro ⟨hC, htail⟩
        have hnext := (hstep s a hinv hP hG).mpr hC
        exact ⟨hP, (ih (hkeep s a hinv hP hG hC) hnext hrest).mpr htail⟩

/-- The step rule lifted to all runs. -/
theorem always_iff_eachStep (Inv : σ → Prop) {P : σ → Prop} {C : σ → α → Prop}
    (hkeep : ∀ s a, Inv s → P s → C s a → Inv (step s a))
    (hstep : ∀ s a, Inv s → P s → (P (step s a) ↔ C s a)) {s : σ} (hinv : Inv s)
    (hP : P s) (run : List α) : Always step P s run ↔ EachStep step C s run := by
  have hall : EachStep step (fun _ _ => True) s run := eachStep_action.mpr fun _ _ => trivial
  exact always_iff_eachStep_of_permitted Inv (fun s a hinv hP _ => hkeep s a hinv hP)
    (fun s a hinv hP _ => hstep s a hinv hP) hinv hP hall

end Trace
