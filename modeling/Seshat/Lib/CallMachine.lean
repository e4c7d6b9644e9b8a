/-
A loop whose body may call the loop again.  One pass through the body either
returns, goes round again, or calls the loop from another state and hands the
answer to a saved frame.  A rank makes every run finite; what the runs leave
behind is proved by one induction.
-/
import Mathlib.Tactic.Common

namespace CallMachine

universe u v w

/-- What follows once no call is pending: leave the loop or go round again. -/
inductive Next (S : Type u) (R : Type v) where
  | ret (result : R) (state : S)
  | loop (state : S)

/-- What one pass through the loop body asks for. -/
inductive Act (S : Type u) (R : Type v) (K : Type w) where
  | next (next : Next S R)
  | call (frame : K) (state : S)

variable {S : Type u} {R : Type v} {K : Type w}

/-- A loop body together with the code that follows its recursive call. -/
structure Body (S : Type u) (R : Type v) (K : Type w) where
  step : S → Act S R K
  resume : K → R → S → Next S R

/-- A relation between where a run starts, what it answers and where it stops,
kept by every way a pass can end. -/
structure Body.Keeps (B : Body S R K) (Q : S → R → S → Prop) : Prop where
  ret : ∀ {s r t}, B.step s = .next (.ret r t) → Q s r t
  loop : ∀ {s s' r t}, B.step s = .next (.loop s') → Q s' r t → Q s r t
  callRet : ∀ {s k s₀ r s₁ r' t}, B.step s = .call k s₀ → Q s₀ r s₁ →
    B.resume k r s₁ = .ret r' t → Q s r' t
  callLoop : ∀ {s k s₀ r s₁ s' r' t}, B.step s = .call k s₀ → Q s₀ r s₁ →
    B.resume k r s₁ = .loop s' → Q s' r' t → Q s r' t

/-- The loop with a bound on how deep passes and calls may stack. -/
def Body.runFuel (B : Body S R K) : Nat → S → Option (R × S)
  | 0, _ => none
  | n + 1, s =>
      match B.step s with
      | .next (.ret r t) => some (r, t)
      | .next (.loop s') => B.runFuel n s'
      | .call k s₀ =>
          match B.runFuel n s₀ with
          | none => none
          | some (r, s₁) =>
              match B.resume k r s₁ with
              | .ret r' t => some (r', t)
              | .loop s' => B.runFuel n s'

theorem Body.runFuel_keeps {B : Body S R K} {Q : S → R → S → Prop}
    (keeps : B.Keeps Q) {n : Nat} {s t : S} {r : R}
    (hrun : B.runFuel n s = some (r, t)) : Q s r t := by
  induction n generalizing s r t with
  | zero => simp [runFuel] at hrun
  | succ n ih =>
      rw [runFuel] at hrun
      cases hstep : B.step s with
      | next next =>
          cases next with
          | ret r' t' =>
              simp only [hstep, Option.some.injEq, Prod.mk.injEq] at hrun
              obtain ⟨rfl, rfl⟩ := hrun
              exact keeps.ret hstep
          | loop s' =>
              simp only [hstep] at hrun
              exact keeps.loop hstep (ih hrun)
      | call k s₀ =>
          simp only [hstep] at hrun
          cases hcall : B.runFuel n s₀ with
          | none => simp [hcall] at hrun
          | some answer =>
              obtain ⟨r₁, s₁⟩ := answer
              simp only [hcall] at hrun
              cases hresume : B.resume k r₁ s₁ with
              | ret r' t' =>
                  simp only [hresume, Option.some.injEq, Prod.mk.injEq] at hrun
                  obtain ⟨rfl, rfl⟩ := hrun
                  exact keeps.callRet hstep (ih hcall) hresume
              | loop s' =>
                  simp only [hresume] at hrun
                  exact keeps.callLoop hstep (ih hcall) hresume (ih hrun)

theorem Body.runFuel_mono (B : Body S R K) {n m : Nat} (hle : n ≤ m) {s : S}
    {answer : R × S} (hrun : B.runFuel n s = some answer) :
    B.runFuel m s = some answer := by
  induction n generalizing m s answer with
  | zero => simp [runFuel] at hrun
  | succ n ih =>
      obtain ⟨m, rfl⟩ : ∃ k, m = k + 1 := ⟨m - 1, by omega⟩
      have hle' : n ≤ m := Nat.le_of_succ_le_succ hle
      rw [runFuel] at hrun ⊢
      cases hstep : B.step s with
      | next next =>
          cases next with
          | ret r t => simpa only [hstep] using hrun
          | loop s' =>
              simp only [hstep] at hrun ⊢
              exact ih hle' hrun
      | call k s₀ =>
          simp only [hstep] at hrun ⊢
          cases hcall : B.runFuel n s₀ with
          | none => simp [hcall] at hrun
          | some first =>
              obtain ⟨r₁, s₁⟩ := first
              rw [ih hle' hcall]
              simp only [hcall] at hrun ⊢
              cases hresume : B.resume k r₁ s₁ with
              | ret r t => simpa only [hresume] using hrun
              | loop s' =>
                  simp only [hresume] at hrun ⊢
                  exact ih hle' hrun

/-- A body whose passes and calls all lower a rank.  Whether a resumed loop
made progress depends on what the call left behind, which is what `leaves`
records. -/
structure Machine (S : Type u) (R : Type v) (K : Type w) extends Body S R K where
  rank : S → Nat
  leaves : S → R → S → Prop
  keeps_leaves : toBody.Keeps leaves
  rank_loop : ∀ {s s'}, step s = .next (.loop s') → rank s' < rank s
  rank_call : ∀ {s k s₀}, step s = .call k s₀ → rank s₀ < rank s
  rank_resume : ∀ {s k s₀ r s₁ s'}, step s = .call k s₀ → leaves s₀ r s₁ →
    resume k r s₁ = .loop s' → rank s' < rank s

namespace Machine

variable (M : Machine S R K)

theorem runFuel_isSome {n : Nat} {s : S} (hrank : M.rank s < n) :
    (M.runFuel n s).isSome := by
  induction n generalizing s with
  | zero => omega
  | succ n ih =>
      rw [Body.runFuel]
      cases hstep : M.step s with
      | next next =>
          cases next with
          | ret r t => rfl
          | loop s' =>
              have := M.rank_loop hstep
              exact ih (by omega)
      | call k s₀ =>
          have hlt := M.rank_call hstep
          obtain ⟨⟨r, s₁⟩, hcall⟩ := Option.isSome_iff_exists.mp (ih (s := s₀) (by omega))
          simp only [hcall]
          cases hresume : M.resume k r s₁ with
          | ret r' t => rfl
          | loop s' =>
              have := M.rank_resume hstep
                (Body.runFuel_keeps M.keeps_leaves hcall) hresume
              exact ih (by omega)

/-- The loop run to its end. -/
def run (s : S) : R × S :=
  (M.runFuel (M.rank s + 1) s).get (M.runFuel_isSome (Nat.lt_succ_self _))

theorem runFuel_rank_succ (s : S) :
    M.runFuel (M.rank s + 1) s = some (M.run s) := by
  simp [run]

theorem run_eq_of_runFuel {n : Nat} {s : S} {answer : R × S}
    (hrun : M.runFuel n s = some answer) : M.run s = answer := by
  rcases Nat.le_total n (M.rank s + 1) with hle | hle
  · have h := M.runFuel_mono hle hrun
    rw [M.runFuel_rank_succ] at h
    exact Option.some.inj h
  · have h := M.runFuel_mono hle (M.runFuel_rank_succ s)
    rw [hrun] at h
    exact (Option.some.inj h).symm

/-- More fuel than the rank never changes the answer. -/
theorem runFuel_eq_run {n : Nat} {s : S} (hrank : M.rank s < n) :
    M.runFuel n s = some (M.run s) := by
  obtain ⟨answer, hrun⟩ := Option.isSome_iff_exists.mp (M.runFuel_isSome hrank)
  rw [hrun, M.run_eq_of_runFuel hrun]

/-- Every relation kept by the body holds between the two ends of a run. -/
theorem run_keeps {Q : S → R → S → Prop} (keeps : M.toBody.Keeps Q) (s : S) :
    Q s (M.run s).1 (M.run s).2 :=
  Body.runFuel_keeps keeps (M.runFuel_rank_succ s)

theorem run_of_ret {s t : S} {r : R} (hstep : M.step s = .next (.ret r t)) :
    M.run s = (r, t) := by
  apply M.run_eq_of_runFuel (n := 1)
  simp [Body.runFuel, hstep]

theorem run_of_loop {s s' : S} (hstep : M.step s = .next (.loop s')) :
    M.run s = M.run s' := by
  apply M.run_eq_of_runFuel (n := M.rank s + 1)
  rw [Body.runFuel, hstep]
  exact M.runFuel_eq_run (M.rank_loop hstep)

theorem run_of_callRet {s s₀ t : S} {k : K} {r : R}
    (hstep : M.step s = .call k s₀)
    (hresume : M.resume k (M.run s₀).1 (M.run s₀).2 = .ret r t) :
    M.run s = (r, t) := by
  apply M.run_eq_of_runFuel (n := M.rank s + 1)
  simp only [Body.runFuel, hstep, M.runFuel_eq_run (M.rank_call hstep), hresume]

theorem run_of_callLoop {s s₀ s' : S} {k : K}
    (hstep : M.step s = .call k s₀)
    (hresume : M.resume k (M.run s₀).1 (M.run s₀).2 = .loop s') :
    M.run s = M.run s' := by
  have hleaves := M.run_keeps M.keeps_leaves s₀
  apply M.run_eq_of_runFuel (n := M.rank s + 1)
  simp only [Body.runFuel, hstep, M.runFuel_eq_run (M.rank_call hstep), hresume]
  exact M.runFuel_eq_run (M.rank_resume hstep hleaves hresume)

end Machine

end CallMachine
