/-
State computations that report what they write.  The report is put together by the same
steps as the result: it lists the writes in the order in which they are issued, up to the
failure if there is one.  Without it a computation is the plain one, and where every write
is reported the report alone tells what is left.
-/
import Seshat.Lib.Locality

namespace Tracing

/-- A computation with the writes it issues. -/
def Traced (ω ε σ α : Type) : Type := σ → List ω × EStateM.Result ε σ α

namespace Traced

variable {ω ε ε' σ ρ δ α β : Type}

/-- The writes issued from a state. -/
def writes (x : Traced ω ε σ α) (s : σ) : List ω := (x s).1

/-- The computation without its report. -/
def forget (x : Traced ω ε σ α) : EStateM ε σ α := fun s => (x s).2

/-- What follows runs, and writes, after a success alone. -/
protected def bind (x : Traced ω ε σ α) (f : α → Traced ω ε σ β) : Traced ω ε σ β := fun s =>
  match x s with
  | (ws, .ok a t) => (ws ++ (f a t).1, (f a t).2)
  | (ws, .error e t) => (ws, .error e t)

instance : Monad (Traced ω ε σ) where
  pure a := fun s => ([], .ok a s)
  bind := Traced.bind

/-- A computation that writes nothing. -/
def quiet (op : EStateM ε σ α) : Traced ω ε σ α := fun s => ([], op.run s)

/-- One write, with what it does to the state. -/
def issue (w : ω) (f : σ → σ) : Traced ω ε σ Unit := fun s => ([w], .ok () (f s))

def adaptExcept (f : ε → ε') (x : Traced ω ε σ α) : Traced ω ε' σ α := fun s =>
  (x.writes s, (x.forget.adaptExcept f).run s)

/-- A computation on a component of the state. -/
def zoom (view : σ → ρ) (set : σ → ρ → σ) (x : Traced ω ε ρ α) : Traced ω ε σ α := fun s =>
  (x.writes (view s), (Footprint.zoom view set x.forget).run s)

section Forget

@[simp]
theorem forget_pure (a : α) : (pure a : Traced ω ε σ α).forget = pure a := rfl

@[simp]
theorem forget_bind (x : Traced ω ε σ α) (f : α → Traced ω ε σ β) :
    (x >>= f).forget = x.forget >>= fun a => (f a).forget := by
  funext s
  change (Traced.bind x f s).2 = EStateM.bind x.forget (fun a => (f a).forget) s
  rw [Traced.bind, EStateM.bind, forget]
  rcases x s with ⟨ws, a | e⟩ <;> rfl

@[simp]
theorem forget_quiet (op : EStateM ε σ α) : (quiet op : Traced ω ε σ α).forget = op := rfl

@[simp]
theorem forget_issue (w : ω) (f : σ → σ) :
    (issue w f : Traced ω ε σ Unit).forget = modify f := rfl

@[simp]
theorem forget_adaptExcept (f : ε → ε') (x : Traced ω ε σ α) :
    (x.adaptExcept f).forget = x.forget.adaptExcept f := rfl

@[simp]
theorem forget_zoom (view : σ → ρ) (set : σ → ρ → σ) (x : Traced ω ε ρ α) :
    (x.zoom view set).forget = Footprint.zoom view set x.forget := rfl

end Forget

section Writes

@[simp]
theorem writes_pure (a : α) (s : σ) : (pure a : Traced ω ε σ α).writes s = [] := rfl

@[simp]
theorem writes_quiet (op : EStateM ε σ α) (s : σ) :
    (quiet op : Traced ω ε σ α).writes s = [] := rfl

@[simp]
theorem writes_issue (w : ω) (f : σ → σ) (s : σ) :
    (issue w f : Traced ω ε σ Unit).writes s = [w] := rfl

@[simp]
theorem writes_adaptExcept (f : ε → ε') (x : Traced ω ε σ α) (s : σ) :
    (x.adaptExcept f).writes s = x.writes s := rfl

@[simp]
theorem writes_zoom (view : σ → ρ) (set : σ → ρ → σ) (x : Traced ω ε ρ α) (s : σ) :
    (x.zoom view set).writes s = x.writes (view s) := rfl

theorem writes_bind (x : Traced ω ε σ α) (f : α → Traced ω ε σ β) (s : σ) :
    (x >>= f).writes s =
      match x.forget.run s with
      | .ok a t => x.writes s ++ (f a).writes t
      | .error _ _ => x.writes s := by
  change (Traced.bind x f s).1 = _
  rw [Traced.bind, EStateM.run, forget, writes]
  rcases x s with ⟨ws, a | e⟩ <;> rfl

/-- The answer that is made of a result is not written. -/
@[simp]
theorem writes_bind_pure (x : Traced ω ε σ α) (f : α → β) (s : σ) :
    (x >>= fun a => pure (f a)).writes s = x.writes s := by
  rw [writes_bind]
  cases x.forget.run s <;> simp

theorem writes_bind_ok {x : Traced ω ε σ α} {s t : σ} {a : α}
    (h : x.forget.run s = .ok a t) (f : α → Traced ω ε σ β) :
    (x >>= f).writes s = x.writes s ++ (f a).writes t := by
  rw [writes_bind, h]

theorem writes_bind_error {x : Traced ω ε σ α} {s t : σ} {e : ε}
    (h : x.forget.run s = .error e t) (f : α → Traced ω ε σ β) :
    (x >>= f).writes s = x.writes s := by
  rw [writes_bind, h]

end Writes

/-- The report accounts for the part of the state that is written: however the computation
ends, the part is what the writes make of it. -/
structure Accounts (part : σ → δ) (write : δ → ω → δ) (x : Traced ω ε σ α) : Prop where
  ok : ∀ {s a t}, x.forget.run s = .ok a t → part t = (x.writes s).foldl write (part s)
  error : ∀ {s e t}, x.forget.run s = .error e t →
    part t = (x.writes s).foldl write (part s)

variable {part : σ → δ} {write : δ → ω → δ}

theorem accounts_pure (a : α) : Accounts part write (pure a : Traced ω ε σ α) where
  ok := by
    rintro s a t ⟨⟩
    rfl
  error := by
    rintro s e t ⟨⟩

/-- A computation that keeps off the part need not report anything. -/
theorem accounts_quiet {op : EStateM ε σ α} (h : Footprint.Avoids part op) :
    Accounts part write (quiet op) where
  ok hrun := h.ok hrun
  error hrun := h.error hrun

theorem accounts_modify {f : σ → σ} (hf : ∀ s, part (f s) = part s) :
    Accounts part write (quiet (modify f) : Traced ω ε σ PUnit) :=
  accounts_quiet (Footprint.avoids_modify hf)

theorem accounts_issue {w : ω} {f : σ → σ} (hf : ∀ s, part (f s) = write (part s) w) :
    Accounts part write (issue w f : Traced ω ε σ Unit) where
  ok := by
    rintro s a t ⟨⟩
    exact hf s
  error := by
    rintro s e t ⟨⟩

theorem Accounts.bind {x : Traced ω ε σ α} {f : α → Traced ω ε σ β}
    (hx : Accounts part write x) (hf : ∀ a, Accounts part write (f a)) :
    Accounts part write (x >>= f) where
  ok := by
    intro s b u h
    rw [forget_bind, EStateM.run_bind] at h
    cases hrun : x.forget.run s with
    | error e t =>
        rw [hrun] at h
        contradiction
    | ok a t =>
        rw [hrun] at h
        rw [writes_bind_ok hrun, List.foldl_append, ← hx.ok hrun]
        exact (hf a).ok h
  error := by
    intro s e u h
    rw [forget_bind, EStateM.run_bind] at h
    cases hrun : x.forget.run s with
    | error e' t =>
        rw [hrun] at h
        cases h
        rw [writes_bind_error hrun]
        exact hx.error hrun
    | ok a t =>
        rw [hrun] at h
        rw [writes_bind_ok hrun, List.foldl_append, ← hx.ok hrun]
        exact (hf a).error h

theorem Accounts.adaptExcept {x : Traced ω ε σ α} (h : Accounts part write x) (f : ε → ε') :
    Accounts part write (x.adaptExcept f) where
  ok := by
    intro s a t hrun
    rw [forget_adaptExcept, EStateM.run_adaptExcept] at hrun
    cases hx : x.forget.run s with
    | ok a' u =>
        rw [hx] at hrun
        cases hrun
        exact h.ok hx
    | error e u =>
        rw [hx] at hrun
        contradiction
  error := by
    intro s e t hrun
    rw [forget_adaptExcept, EStateM.run_adaptExcept] at hrun
    cases hx : x.forget.run s with
    | ok a u =>
        rw [hx] at hrun
        contradiction
    | error e' u =>
        rw [hx] at hrun
        cases hrun
        exact h.error hx

/-- What accounts for a part accounts for all that is seen of it. -/
theorem Accounts.map {δ' : Type} {write' : δ' → ω → δ'} {x : Traced ω ε σ α}
    (h : Accounts part write x) (f : δ → δ') (hf : ∀ d w, write' (f d) w = f (write d w)) :
    Accounts (fun s => f (part s)) write' x where
  ok := by
    intro s a t hrun
    rw [h.ok hrun]
    exact (List.foldl_hom f hf).symm
  error := by
    intro s e t hrun
    rw [h.error hrun]
    exact (List.foldl_hom f hf).symm

/-- What is written to a component is written to the whole. -/
theorem Accounts.zoom {inner : ρ → δ} {view : σ → ρ} {set : σ → ρ → σ} {x : Traced ω ε ρ α}
    (h : Accounts inner write x) (hview : ∀ s, inner (view s) = part s)
    (hset : ∀ s r, part (set s r) = inner r) : Accounts part write (x.zoom view set) where
  ok := by
    intro s a t hrun
    rw [forget_zoom, Footprint.run_zoom] at hrun
    cases hx : x.forget.run (view s) with
    | ok a' r =>
        rw [hx] at hrun
        cases hrun
        rw [hset, writes_zoom, ← hview]
        exact h.ok hx
    | error e r =>
        rw [hx] at hrun
        contradiction
  error := by
    intro s e t hrun
    rw [forget_zoom, Footprint.run_zoom] at hrun
    cases hx : x.forget.run (view s) with
    | ok a r =>
        rw [hx] at hrun
        contradiction
    | error e' r =>
        rw [hx] at hrun
        cases hrun
        rw [hset, writes_zoom, ← hview]
        exact h.error hx

end Traced

end Tracing
