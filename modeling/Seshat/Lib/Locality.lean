/-
Locality of state computations that can fail.  A computation is local to a part of the
state if that part alone decides what it answers and what it leaves of the part.  Where
several actors share a state and each is local to a part that the others avoid, every
interleaving of their calls looks to each of them like its own calls alone.
-/
import Seshat.Lib.Footprint
import Mathlib.Data.List.Basic

namespace Footprint

variable {ε ε' σ α β τ : Type} {part : σ → τ}

/-- Two ends with the same answer that leave the part alike. -/
inductive SameOn (part : σ → τ) : EStateM.Result ε σ α → EStateM.Result ε σ α → Prop where
  | ok {a : α} {s t : σ} (h : part s = part t) : SameOn part (.ok a s) (.ok a t)
  | error {e : ε} {s t : σ} (h : part s = part t) : SameOn part (.error e s) (.error e t)

/-- From states that agree on the part the computation ends the same way. -/
def Local (part : σ → τ) (op : EStateM ε σ α) : Prop :=
  ∀ ⦃s t⦄, part s = part t → SameOn part (op.run s) (op.run t)

theorem local_pure (a : α) : Local part (pure a : EStateM ε σ α) :=
  fun _ _ h => .ok h

theorem local_throw (e : ε) : Local part (throw e : EStateM ε σ α) :=
  fun _ _ h => .error h

theorem local_throw_bind (e : ε) (f : α → EStateM ε σ β) :
    Local part (throw e >>= f : EStateM ε σ β) :=
  fun _ _ h => .error h

theorem local_ofExcept (result : Except ε α) :
    Local part (MonadExcept.ofExcept result : EStateM ε σ α) := by
  cases result with
  | ok a => exact local_pure a
  | error e => exact local_throw e

/-- A state that is read, but only for what the part says. -/
theorem local_get_bind {f : σ → EStateM ε σ β}
    (hread : ∀ {s t}, part s = part t → f s = f t) (hf : ∀ s, Local part (f s)) :
    Local part (get >>= f) := by
  intro s t h
  have hrun : (get >>= f).run t = (f s).run t := by
    rw [hread h]
    rfl
  rw [hrun]
  exact hf s h

/-- An update of the part that depends on the part alone. -/
theorem local_modify {f : σ → σ} (hf : ∀ {s t}, part s = part t → part (f s) = part (f t)) :
    Local part (modify f : EStateM ε σ PUnit) :=
  fun _ _ h => .ok (hf h)

/-- Both runs succeed, or both fail. -/
theorem Local.ends {op : EStateM ε σ α} (h : Local part op) {s t : σ} (hst : part s = part t) :
    (∃ a s' t', op.run s = .ok a s' ∧ op.run t = .ok a t' ∧ part s' = part t') ∨
      ∃ e s' t', op.run s = .error e s' ∧ op.run t = .error e t' ∧ part s' = part t' := by
  have hsame := h hst
  generalize op.run s = rs at hsame
  generalize op.run t = rt at hsame
  cases hsame with
  | ok h' => exact Or.inl ⟨_, _, _, rfl, rfl, h'⟩
  | error h' => exact Or.inr ⟨_, _, _, rfl, rfl, h'⟩

theorem Local.bind {x : EStateM ε σ α} {f : α → EStateM ε σ β} (hx : Local part x)
    (hf : ∀ a, Local part (f a)) : Local part (x >>= f) := by
  intro s t h
  rw [EStateM.run_bind, EStateM.run_bind]
  obtain ⟨a, s', t', hs, ht, h'⟩ | ⟨e, s', t', hs, ht, h'⟩ := hx.ends h
  · rw [hs, ht]
    exact hf a h'
  · rw [hs, ht]
    exact .error h'

theorem Local.adaptExcept {op : EStateM ε σ α} (h : Local part op) (f : ε → ε') :
    Local part (op.adaptExcept f) := by
  intro s t hst
  rw [EStateM.run_adaptExcept, EStateM.run_adaptExcept]
  obtain ⟨a, s', t', hs, ht, h'⟩ | ⟨e, s', t', hs, ht, h'⟩ := h.ends hst
  · rw [hs, ht]
    exact .ok h'
  · rw [hs, ht]
    exact .error h'

section Zoom

variable {ρ τ' : Type} {inner : ρ → τ'} {view : σ → ρ} {set : σ → ρ → σ}

/-- A computation on a component of the state. -/
def zoom (view : σ → ρ) (set : σ → ρ → σ) (op : EStateM ε ρ α) : EStateM ε σ α := fun s =>
  match op.run (view s) with
  | .ok a r => .ok a (set s r)
  | .error e r => .error e (set s r)

theorem run_zoom (op : EStateM ε ρ α) (s : σ) :
    (zoom view set op).run s =
      match op.run (view s) with
      | .ok a r => .ok a (set s r)
      | .error e r => .error e (set s r) := rfl

theorem Local.zoom {op : EStateM ε ρ α} (h : Local inner op)
    (hview : ∀ {s t}, part s = part t → inner (view s) = inner (view t))
    (hset : ∀ {s t r r'}, part s = part t → inner r = inner r' →
      part (set s r) = part (set t r')) :
    Local part (zoom view set op) := by
  intro s t hst
  rw [run_zoom, run_zoom]
  obtain ⟨a, r, r', hr, hr', hend⟩ | ⟨e, r, r', hr, hr', hend⟩ := h.ends (hview hst)
  · rw [hr, hr']
    exact .ok (hset hst hend)
  · rw [hr, hr']
    exact .error (hset hst hend)

theorem Avoids.zoom {op : EStateM ε ρ α} (h : Avoids inner op)
    (hset : ∀ {s r}, inner r = inner (view s) → part (set s r) = part s) :
    Avoids part (zoom view set op) where
  ok := by
    intro s a t hrun
    rw [run_zoom] at hrun
    cases hop : op.run (view s) with
    | ok b r =>
        rw [hop] at hrun
        cases hrun
        exact hset (h.ok hop)
    | error e r =>
        rw [hop] at hrun
        contradiction
  error := by
    intro s e t hrun
    rw [run_zoom] at hrun
    cases hop : op.run (view s) with
    | ok b r =>
        rw [hop] at hrun
        contradiction
    | error e' r =>
        rw [hop] at hrun
        cases hrun
        exact hset (h.error hop)

end Zoom

section Interleaving

variable {ι Op : Type}

/-- What happens to the shared state: a call of one actor, or a restart of all. -/
inductive Event (ι Op : Type) where
  | call (actor : ι) (op : Op)
  | restart

/-- An actor's own calls, and the restarts. -/
def Event.concerns [DecidableEq ι] (i : ι) : Event ι Op → Bool
  | call j _ => decide (j = i)
  | restart => true

/-- What an actor sees of a run. -/
def own [DecidableEq ι] (i : ι) (events : List (Event ι Op)) : List (Event ι Op) :=
  events.filter (Event.concerns i)

/-- The answers of a run, each with the actor it went to, and the state at the end.
Failed calls leave their state behind; a failed restart ends everything. -/
def runEvents (call : ι → Op → EStateM ε σ α) (restart : σ → Option σ) :
    List (Event ι Op) → σ → Option (List (ι × Except ε α) × σ)
  | [], s => some ([], s)
  | .call i op :: events, s =>
      match (call i op).run s with
      | .ok a t =>
          (runEvents call restart events t).map fun (answers, u) =>
            ((i, Except.ok a) :: answers, u)
      | .error e t =>
          (runEvents call restart events t).map fun (answers, u) =>
            ((i, Except.error e) :: answers, u)
  | .restart :: events, s => (restart s).bind (runEvents call restart events)

/-- The answers one actor got. -/
def answersTo [DecidableEq ι] (i : ι) (answers : List (ι × Except ε α)) :
    List (ι × Except ε α) :=
  answers.filter fun answer => decide (answer.1 = i)

/-- Each actor works on a part of its own. -/
structure Isolated (part : ι → σ → τ) (call : ι → Op → EStateM ε σ α) : Prop where
  reads : ∀ i op, Local (part i) (call i op)
  frames : ∀ {i j} op, i ≠ j → Avoids (part i) (call j op)

/-- A restart goes through where every part does; what it makes of a part is decided by
that part, and can be restarted again. -/
structure Restarts (part : ι → σ → τ) (restart : σ → Option σ) (starts : ι → τ → Prop)
    (restarted : ι → τ → τ) : Prop where
  isSome_iff : ∀ {s}, (restart s).isSome ↔ ∀ i, starts i (part i s)
  part_eq : ∀ {s t} i, restart s = some t → part i t = restarted i (part i s)
  starts_restarted : ∀ {i p}, starts i p → starts i (restarted i p)

variable {part : ι → σ → τ} {call : ι → Op → EStateM ε σ α}
  {restart : σ → Option σ} {starts : ι → τ → Prop} {restarted : ι → τ → τ}

/-- A call of actor `i`, from two states in which it finds its part alike. -/
theorem runEvents_call_own (iso : Isolated part call) (restart : σ → Option σ) {i : ι} (op : Op)
    {s t : σ} (hpart : part i s = part i t) :
    ∃ a s' t', (∀ events, runEvents call restart (.call i op :: events) s =
        (runEvents call restart events s').map fun (answers, u) => ((i, a) :: answers, u)) ∧
      (∀ events, runEvents call restart (.call i op :: events) t =
        (runEvents call restart events t').map fun (answers, u) => ((i, a) :: answers, u)) ∧
      part i s' = part i t' ∧
      ∀ j ≠ i, part j s' = part j s ∧ part j t' = part j t := by
  obtain ⟨a, s', t', hs, ht, hend⟩ | ⟨e, s', t', hs, ht, hend⟩ := (iso.reads i op).ends hpart
  · refine ⟨.ok a, s', t', by simp [runEvents, hs], by simp [runEvents, ht], hend, ?_⟩
    exact fun j hj => ⟨(iso.frames op hj).ok hs, (iso.frames op hj).ok ht⟩
  · refine ⟨.error e, s', t', by simp [runEvents, hs], by simp [runEvents, ht], hend, ?_⟩
    exact fun j hj => ⟨(iso.frames op hj).error hs, (iso.frames op hj).error ht⟩

/-- A call of another actor, seen from actor `i`. -/
theorem runEvents_call_other (iso : Isolated part call) (restart : σ → Option σ) {i j : ι}
    (hne : i ≠ j) (op : Op) (s : σ) :
    ∃ a s', (∀ events, runEvents call restart (.call j op :: events) s =
        (runEvents call restart events s').map fun (answers, u) => ((j, a) :: answers, u)) ∧
      part i s' = part i s := by
  cases hs : (call j op).run s with
  | ok a s' => exact ⟨.ok a, s', by simp [runEvents, hs], (iso.frames op hne).ok hs⟩
  | error e s' => exact ⟨.error e, s', by simp [runEvents, hs], (iso.frames op hne).error hs⟩

/-- The other actors can be restarted as they are. -/
def OthersStart (part : ι → σ → τ) (starts : ι → τ → Prop) (i : ι) (s : σ) : Prop :=
  ∀ j ≠ i, starts j (part j s)

theorem Restarts.othersStart (res : Restarts part restart starts restarted) {i : ι} {s t : σ}
    (hothers : OthersStart part starts i s) (hrestart : restart s = some t) :
    OthersStart part starts i t := by
  intro j hj
  rw [res.part_eq j hrestart]
  exact res.starts_restarted (hothers j hj)

variable [DecidableEq ι]

/-- In a run of all actors each of them gets the answers of its own calls alone, and finds
its part as these leave it. -/
theorem runEvents_own (iso : Isolated part call) (res : Restarts part restart starts restarted)
    {i : ι} {events : List (Event ι Op)} {s t u : σ} {answers : List (ι × Except ε α)}
    (hpart : part i s = part i t) (hothers : OthersStart part starts i t)
    (hrun : runEvents call restart events s = some (answers, u)) :
    ∃ v, runEvents call restart (own i events) t = some (answersTo i answers, v) ∧
      part i v = part i u := by
  induction events generalizing s t answers with
  | nil =>
      cases hrun
      exact ⟨t, rfl, hpart.symm⟩
  | cons event events ih =>
      cases event with
      | call j op =>
          by_cases hj : j = i
          · subst hj
            obtain ⟨a, s', t', hs, ht, hend, hframe⟩ :=
              runEvents_call_own iso restart op hpart
            rw [hs, Option.map_eq_some_iff] at hrun
            obtain ⟨⟨rest, u'⟩, hrest, hpair⟩ := hrun
            cases hpair
            have hothers' : OthersStart part starts j t' := by
              intro k hk
              rw [(hframe k hk).2]
              exact hothers k hk
            obtain ⟨v, hv, hpv⟩ := ih hend hothers' hrest
            refine ⟨v, ?_, hpv⟩
            have hown : own j (.call j op :: events) = .call j op :: own j events := by
              simp [own, Event.concerns]
            rw [hown, ht, hv]
            simp [answersTo]
          · obtain ⟨a, s', hs, hframe⟩ :=
              runEvents_call_other iso restart (Ne.symm hj) op s
            rw [hs, Option.map_eq_some_iff] at hrun
            obtain ⟨⟨rest, u'⟩, hrest, hpair⟩ := hrun
            cases hpair
            obtain ⟨v, hv, hpv⟩ := ih (hframe.trans hpart) hothers hrest
            refine ⟨v, ?_, hpv⟩
            have hown : own i (.call j op :: events) = own i events := by
              simp [own, Event.concerns, hj]
            rw [hown, hv]
            simp [answersTo, hj]
      | restart =>
          obtain ⟨s', hs, hrest⟩ := Option.bind_eq_some_iff.mp hrun
          have hstarts := res.isSome_iff.mp (Option.isSome_of_mem hs)
          obtain ⟨t', ht⟩ : ∃ t', restart t = some t' := by
            refine Option.isSome_iff_exists.mp (res.isSome_iff.mpr fun j => ?_)
            by_cases hj : j = i
            · subst hj
              rw [← hpart]
              exact hstarts j
            · exact hothers j hj
          have hpart' : part i s' = part i t' := by
            rw [res.part_eq i hs, res.part_eq i ht, hpart]
          obtain ⟨v, hv, hpv⟩ := ih hpart' (res.othersStart hothers ht) hrest
          exact ⟨v, Option.bind_eq_some_iff.mpr ⟨t', ht, hv⟩, hpv⟩

/-- A run in which every actor alone gets through all restarts gets through them. -/
theorem runEvents_isSome (iso : Isolated part call)
    (res : Restarts part restart starts restarted) {events : List (Event ι Op)} {s : σ}
    (t : ι → σ) (hpart : ∀ i, part i s = part i (t i))
    (hruns : ∀ i, (runEvents call restart (own i events) (t i)).isSome) :
    (runEvents call restart events s).isSome := by
  induction events generalizing s t with
  | nil => rfl
  | cons event events ih =>
      cases event with
      | call j op =>
          obtain ⟨a, s', t', hs, ht, hend, hframe⟩ :=
            runEvents_call_own iso restart op (hpart j)
          rw [hs, Option.isSome_map]
          -- only the actor that called has moved on
          refine ih (Function.update t j t') (fun i => ?_) fun i => ?_
          · by_cases hi : i = j
            · subst hi
              rwa [Function.update_self]
            · rw [Function.update_of_ne hi, (hframe i hi).1, hpart i]
          · have hrun := hruns i
            by_cases hi : i = j
            · subst hi
              have hown : own i (.call i op :: events) = .call i op :: own i events := by
                simp [own, Event.concerns]
              rw [hown, ht, Option.isSome_map] at hrun
              rwa [Function.update_self]
            · have hown : own i (.call j op :: events) = own i events := by
                simp [own, Event.concerns, Ne.symm hi]
              rw [hown] at hrun
              rwa [Function.update_of_ne hi]
      | restart =>
          have hsplit : ∀ i, ∃ t', restart (t i) = some t' ∧
              (runEvents call restart (own i events) t').isSome := by
            intro i
            obtain ⟨⟨answers, v⟩, hv⟩ := Option.isSome_iff_exists.mp (hruns i)
            obtain ⟨t', ht', hrest⟩ := Option.bind_eq_some_iff.mp hv
            exact ⟨t', ht', Option.isSome_of_mem hrest⟩
          choose t' ht' hrest using hsplit
          obtain ⟨s', hs⟩ : ∃ s', restart s = some s' := by
            refine Option.isSome_iff_exists.mp (res.isSome_iff.mpr fun i => ?_)
            rw [hpart i]
            exact res.isSome_iff.mp (Option.isSome_of_mem (ht' i)) i
          have hnext := ih t' (s := s') (fun i => by
            rw [res.part_eq i hs, res.part_eq i (ht' i), hpart i]) hrest
          rw [runEvents, hs]
          exact hnext

end Interleaving

end Footprint
