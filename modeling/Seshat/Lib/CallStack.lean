/-
A call machine one move at a time.  The calls that wait for an answer stand on a
stack, so that what holds at every moment of a run can be said of every
configuration it passes through.
-/
import Seshat.Lib.CallMachine

namespace CallMachine

universe u v w

variable {S : Type u} {R : Type v} {K : Type w}

/-- Where a run stands: the innermost call is in its loop, or has just answered. -/
inductive Config (S : Type u) (R : Type v) (K : Type w) where
  | running (stack : List K) (state : S)
  | returned (stack : List K) (result : R) (state : S)

namespace Config

def stack : Config S R K → List K
  | running stack _ => stack
  | returned stack _ _ => stack

def state : Config S R K → S
  | running _ state => state
  | returned _ _ state => state

/-- How many calls are open: those that wait and the innermost one. -/
def activations (c : Config S R K) : Nat :=
  c.stack.length + 1

/-- The answer a configuration has in hand. -/
def answer : Config S R K → List R
  | running _ _ => []
  | returned _ result _ => [result]

end Config

/-- One move; there is none once the first call has answered. -/
def Body.move (B : Body S R K) : Config S R K → Option (Config S R K)
  | .running stack s =>
      match B.step s with
      | .next (.ret r t) => some (.returned stack r t)
      | .next (.loop s') => some (.running stack s')
      | .call k s₀ => some (.running (k :: stack) s₀)
  | .returned [] _ _ => none
  | .returned (k :: stack) r t =>
      match B.resume k r t with
      | .ret r' t' => some (.returned stack r' t')
      | .loop s' => some (.running stack s')

/-- Moves from one configuration to another, with the answers given on the way. -/
inductive Body.Moves (B : Body S R K) (start : Config S R K) :
    List R → Config S R K → Prop where
  | start : Moves B start [] start
  | move {answers : List R} {c c' : Config S R K} (h : Moves B start answers c)
      (hmove : B.move c = some c') : Moves B start (answers ++ c'.answer) c'

namespace Body

variable {B : Body S R K}

theorem Moves.trans {a b c : Config S R K} {answers answers' : List R}
    (h : B.Moves a answers b) (h' : B.Moves b answers' c) :
    B.Moves a (answers ++ answers') c := by
  induction h' with
  | start => simpa using h
  | move _ hmove ih =>
      rw [← List.append_assoc]
      exact ih.move hmove

theorem Moves.of_move {a b : Config S R K} (h : B.move a = some b) :
    B.Moves a b.answer b := by
  simpa using Moves.start.move h

/-- A run with fuel is carried out under any stack. -/
theorem moves_of_runFuel {n : Nat} {s t : S} {r : R} (hrun : B.runFuel n s = some (r, t))
    (stack : List K) :
    ∃ answers, B.Moves (.running stack s) answers (.returned stack r t) := by
  induction n generalizing s r t stack with
  | zero => simp [runFuel] at hrun
  | succ n ih =>
      rw [runFuel] at hrun
      cases hstep : B.step s with
      | next next =>
          cases next with
          | ret r' t' =>
              simp only [hstep, Option.some.injEq, Prod.mk.injEq] at hrun
              obtain ⟨rfl, rfl⟩ := hrun
              exact ⟨_, .of_move (by simp [move, hstep])⟩
          | loop s' =>
              simp only [hstep] at hrun
              have hmove : B.move (.running stack s) = some (.running stack s') := by
                simp [move, hstep]
              obtain ⟨answers, hrest⟩ := ih hrun stack
              exact ⟨_, (Moves.of_move hmove).trans hrest⟩
      | call k s₀ =>
          simp only [hstep] at hrun
          have hmove : B.move (.running stack s) = some (.running (k :: stack) s₀) := by
            simp [move, hstep]
          cases hcall : B.runFuel n s₀ with
          | none => simp [hcall] at hrun
          | some first =>
              obtain ⟨r₁, s₁⟩ := first
              simp only [hcall] at hrun
              -- the call answers under the frame it was made from
              obtain ⟨answers, hcalled⟩ := ih hcall (k :: stack)
              have hfirst := (Moves.of_move hmove).trans hcalled
              cases hresume : B.resume k r₁ s₁ with
              | ret r' t' =>
                  simp only [hresume, Option.some.injEq, Prod.mk.injEq] at hrun
                  obtain ⟨rfl, rfl⟩ := hrun
                  exact ⟨_, hfirst.move (by simp [move, hresume])⟩
              | loop s' =>
                  simp only [hresume] at hrun
                  obtain ⟨answers', hrest⟩ := ih hrun stack
                  have hloop : B.move (.returned (k :: stack) r₁ s₁) =
                      some (.running stack s') := by
                    simp [move, hresume]
                  exact ⟨_, (hfirst.move hloop).trans hrest⟩

end Body

/-- The moves from a call lead to the answer of its run. -/
theorem Machine.moves_run (M : Machine S R K) (stack : List K) (s : S) :
    ∃ answers, M.Moves (.running stack s) answers
      (.returned stack (M.run s).1 (M.run s).2) :=
  Body.moves_of_runFuel (M.runFuel_rank_succ s) stack

end CallMachine
