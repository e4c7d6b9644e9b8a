/-
Loops whose passes may be refused.  Before a pass goes round the loop again it may be
turned down; then every open call is left at once, with the reason.  Up to a refusal the
loop does what it does without the check.
-/
import Seshat.Lib.CallStack

namespace CallMachine

universe u v w x

variable {S : Type u} {R : Type v} {K : Type w} {E : Type x}

/-- The body with a check before every further pass.  The check sees the states in front
of and behind the pass; a refusal has a reason and a state in which it leaves the loop. -/
def Body.guarded (B : Body S R K) (refuse : S → S → Option (E × S)) :
    Body S (Except E R) K where
  step s :=
    match B.step s with
    | .next (.ret r t) => .next (.ret (.ok r) t)
    | .next (.loop t) =>
        match refuse s t with
        | some (e, u) => .next (.ret (.error e) u)
        | none => .next (.loop t)
    | .call k t => .call k t
  resume k r t :=
    match r with
    | .error e => .ret (.error e) t
    | .ok r =>
        match B.resume k r t with
        | .ret r' t' => .ret (.ok r') t'
        | .loop t' => .loop t'

/-- The ways a pass with a check ends. -/
inductive Body.GuardedPass (B : Body S R K) (refuse : S → S → Option (E × S)) (s : S) :
    Act S (Except E R) K → Prop where
  | ret {r : R} {t : S} (h : B.step s = .next (.ret r t)) :
      GuardedPass B refuse s (.next (.ret (.ok r) t))
  | loop {t : S} (h : B.step s = .next (.loop t)) (hfree : refuse s t = none) :
      GuardedPass B refuse s (.next (.loop t))
  | refused {t u : S} {e : E} (h : B.step s = .next (.loop t))
      (hrefuse : refuse s t = some (e, u)) :
      GuardedPass B refuse s (.next (.ret (.error e) u))
  | call {k : K} {t : S} (h : B.step s = .call k t) : GuardedPass B refuse s (.call k t)

/-- The ways a call that has answered goes on. -/
inductive Body.GuardedResume (B : Body S R K) (k : K) (t : S) :
    Except E R → Next S (Except E R) → Prop where
  | refused (e : E) : GuardedResume B k t (.error e) (.ret (.error e) t)
  | ret {r r' : R} {t' : S} (h : B.resume k r t = .ret r' t') :
      GuardedResume B k t (.ok r) (.ret (.ok r') t')
  | loop {r : R} {t' : S} (h : B.resume k r t = .loop t') :
      GuardedResume B k t (.ok r) (.loop t')

namespace Body

variable {B : Body S R K} {refuse : S → S → Option (E × S)}

variable (B refuse) in
theorem guardedPass_step (s : S) :
    B.GuardedPass refuse s ((B.guarded refuse).step s) := by
  simp only [guarded]
  cases hstep : B.step s with
  | next next =>
      cases next with
      | ret r t => exact .ret hstep
      | loop t =>
          dsimp only
          split
          · rename_i e u hrefuse
            exact .refused hstep hrefuse
          · rename_i hfree
            exact .loop hstep hfree
  | call k t => exact .call hstep

variable (B refuse) in
theorem guardedResume_resume (k : K) (r : Except E R) (t : S) :
    B.GuardedResume k t r ((B.guarded refuse).resume k r t) := by
  cases r with
  | error e => exact .refused e
  | ok r =>
      simp only [guarded]
      cases hresume : B.resume k r t with
      | ret r' t' => exact .ret hresume
      | loop t' => exact .loop hresume

theorem step_of_guarded_ok {s t : S} {r : R}
    (h : (B.guarded refuse).step s = .next (.ret (.ok r) t)) :
    B.step s = .next (.ret r t) := by
  have hpass := guardedPass_step B refuse s
  rw [h] at hpass
  cases hpass with
  | ret hstep => exact hstep

theorem step_of_guarded_loop {s t : S}
    (h : (B.guarded refuse).step s = .next (.loop t)) : B.step s = .next (.loop t) := by
  have hpass := guardedPass_step B refuse s
  rw [h] at hpass
  cases hpass with
  | loop hstep => exact hstep

theorem step_of_guarded_call {s t : S} {k : K}
    (h : (B.guarded refuse).step s = .call k t) : B.step s = .call k t := by
  have hpass := guardedPass_step B refuse s
  rw [h] at hpass
  cases hpass with
  | call hstep => exact hstep

theorem resume_of_guarded_ok {k : K} {r : Except E R} {r' : R} {t t' : S}
    (h : (B.guarded refuse).resume k r t = .ret (.ok r') t') :
    ∃ r₀, r = .ok r₀ ∧ B.resume k r₀ t = .ret r' t' := by
  have hresume := guardedResume_resume B refuse k r t
  rw [h] at hresume
  cases hresume with
  | ret h => exact ⟨_, rfl, h⟩

theorem resume_of_guarded_loop {k : K} {r : Except E R} {t t' : S}
    (h : (B.guarded refuse).resume k r t = .loop t') :
    ∃ r₀, r = .ok r₀ ∧ B.resume k r₀ t = .loop t' := by
  have hresume := guardedResume_resume B refuse k r t
  rw [h] at hresume
  cases hresume with
  | loop h => exact ⟨_, rfl, h⟩

/-- What the runs of a loop keep, its runs that are not refused keep with the check. -/
theorem Keeps.guarded {Q : S → R → S → Prop} (keeps : B.Keeps Q) :
    (B.guarded refuse).Keeps fun s r t => ∀ r', r = .ok r' → Q s r' t where
  ret h := by
    rintro r' rfl
    exact keeps.ret (step_of_guarded_ok h)
  loop h hrest r' hr := keeps.loop (step_of_guarded_loop h) (hrest r' hr)
  callRet h hcall hresume := by
    rintro r' rfl
    obtain ⟨r₀, hr, hresume⟩ := resume_of_guarded_ok hresume
    exact keeps.callRet (step_of_guarded_call h) (hcall r₀ hr) hresume
  callLoop h hcall hresume hrest r' hr := by
    obtain ⟨r₀, hr₀, hresume⟩ := resume_of_guarded_loop hresume
    exact keeps.callLoop (step_of_guarded_call h) (hcall r₀ hr₀) hresume (hrest r' hr)

end Body

namespace Machine

variable (M : Machine S R K) (refuse : S → S → Option (E × S))

/-- A check takes nothing from a machine that ends. -/
def guarded : Machine S (Except E R) K where
  toBody := M.toBody.guarded refuse
  rank := M.rank
  leaves s r t := ∀ r', r = .ok r' → M.leaves s r' t
  keeps_leaves := M.keeps_leaves.guarded
  rank_loop h := M.rank_loop (Body.step_of_guarded_loop h)
  rank_call h := M.rank_call (Body.step_of_guarded_call h)
  rank_resume h hcall hresume := by
    obtain ⟨r₀, hr, hresume⟩ := Body.resume_of_guarded_loop hresume
    exact M.rank_resume (Body.step_of_guarded_call h) (hcall r₀ hr) hresume

theorem keeps_run : M.toBody.Keeps fun s r t => M.run s = (r, t) where
  ret h := M.run_of_ret h
  loop h hrest := (M.run_of_loop h).trans hrest
  callRet h hcall hresume := M.run_of_callRet h (by rw [hcall]; exact hresume)
  callLoop h hcall hresume hrest :=
    (M.run_of_callLoop h (by rw [hcall]; exact hresume)).trans hrest

/-- A run that is not refused is the run without the check. -/
theorem run_of_guarded_ok {s : S} {r : R} (h : ((M.guarded refuse).run s).1 = .ok r) :
    M.run s = (r, ((M.guarded refuse).run s).2) :=
  (M.guarded refuse).run_keeps M.keeps_run.guarded s r h

end Machine

namespace Config

/-- The same place, with another answer in hand. -/
def mapResult {R' : Type*} (f : R → R') : Config S R K → Config S R' K
  | running stack s => running stack s
  | returned stack r t => returned stack (f r) t

@[simp]
theorem stack_mapResult {R' : Type*} (f : R → R') (c : Config S R K) :
    (c.mapResult f).stack = c.stack := by
  cases c <;> rfl

@[simp]
theorem state_mapResult {R' : Type*} (f : R → R') (c : Config S R K) :
    (c.mapResult f).state = c.state := by
  cases c <;> rfl

@[simp]
theorem answer_mapResult {R' : Type*} (f : R → R') (c : Config S R K) :
    (c.mapResult f).answer = c.answer.map f := by
  cases c <;> rfl

end Config

namespace Body

variable {B : Body S R K} {refuse : S → S → Option (E × S)}

/-- A place of the loop with the check: a place of the loop without it, or one that a
refusal has come to on its way out of the calls that wait. -/
inductive Stands (B : Body S R K) (refuse : S → S → Option (E × S)) (start : Config S R K)
    (answers : List (Except E R)) (c : Config S (Except E R) K) : Prop where
  | free {answers₀ : List R} {c₀ : Config S R K} (h : B.Moves start answers₀ c₀)
      (hanswers : answers = answers₀.map .ok) (hc : c = c₀.mapResult .ok)
  | refused {answers₀ : List R} (errors : List E) (waiting : List K) {stack : List K}
      {s t u : S} {e : E}
      (h : B.Moves start answers₀ (.running (waiting ++ stack) s))
      (hstep : B.step s = .next (.loop t)) (hrefuse : refuse s t = some (e, u))
      (hanswers : answers = answers₀.map .ok ++ errors.map .error)
      (hc : c = .returned stack (.error e) u)

/-- A move from a place of the loop without the check. -/
theorem Stands.of_free {start c₀ : Config S R K} {answers₀ : List R}
    (h : B.Moves start answers₀ c₀) {c : Config S (Except E R) K}
    (hmove : (B.guarded refuse).move (c₀.mapResult .ok) = some c) :
    B.Stands refuse start (answers₀.map .ok ++ c.answer) c := by
  have hgoes : ∀ c₁, B.move c₀ = some c₁ → c = c₁.mapResult .ok →
      B.Stands refuse start (answers₀.map .ok ++ c.answer) c := by
    rintro c₁ hmove₁ rfl
    exact .free (h.move hmove₁) (by simp) rfl
  cases c₀ with
  | running stack s =>
      rw [Config.mapResult, move] at hmove
      have hpass := guardedPass_step B refuse s
      generalize (B.guarded refuse).step s = act at hpass hmove
      cases hpass with
      | ret hstep =>
          obtain rfl := Option.some.inj hmove
          exact hgoes (.returned stack _ _) (by simp [move, hstep]) rfl
      | loop hstep hfree =>
          obtain rfl := Option.some.inj hmove
          exact hgoes (.running stack _) (by simp [move, hstep]) rfl
      | refused hstep hrefuse =>
          obtain rfl := Option.some.inj hmove
          exact .refused [_] [] h hstep hrefuse rfl rfl
      | call hstep =>
          obtain rfl := Option.some.inj hmove
          exact hgoes (.running (_ :: stack) _) (by simp [move, hstep]) rfl
  | returned stack r t =>
      cases stack with
      | nil => simp [Config.mapResult, move] at hmove
      | cons k stack =>
          rw [Config.mapResult, move] at hmove
          have hresume := guardedResume_resume B refuse k (.ok r) t
          generalize (B.guarded refuse).resume k (.ok r) t = next at hresume hmove
          cases hresume with
          | ret hstep =>
              obtain rfl := Option.some.inj hmove
              exact hgoes (.returned stack _ _) (by simp [move, hstep]) rfl
          | loop hstep =>
              obtain rfl := Option.some.inj hmove
              exact hgoes (.running stack _) (by simp [move, hstep]) rfl

/-- Wherever the loop with the check gets to. -/
theorem stands_of_moves {start : Config S R K} {answers : List (Except E R)}
    {c : Config S (Except E R) K}
    (h : (B.guarded refuse).Moves (start.mapResult .ok) answers c) :
    B.Stands refuse start answers c := by
  induction h with
  | start => exact .free .start rfl rfl
  | move _ hmove ih =>
      cases ih with
      | free h hanswers hc =>
          subst hanswers hc
          exact .of_free h hmove
      | @refused answers₀ errors waiting stack s t u e h hstep hrefuse hanswers hc =>
          subst hanswers hc
          cases stack with
          | nil => simp [move] at hmove
          | cons k stack =>
              -- a frame that waits hands the refusal on
              obtain rfl := Option.some.inj hmove
              rw [← List.concat_append] at h
              exact .refused (errors ++ [e]) (waiting ++ [k])
                (by simpa using h) hstep hrefuse (by simp [Config.answer]) rfl

end Body

end CallMachine
