/-
`RespParser::parse` as a total function.  Every pass either shortens the
buffer or steps down from an aggregate to its element, and an element that is
found has consumed its type byte, so the loop and its recursion end.
-/
import Seshat.Resp.Pass

namespace Seshat

open CallMachine Decimal Utf8

/-- A frame takes one more element and still waits for others. -/
inductive Frame.Grows : Frame → RespValue → Frame → Prop where
  | element (kind : SeqKind) (rem : Nat) (elems : List RespValue) (element : RespValue) :
      Grows (.seq kind (rem + 2) elems) element (.seq kind (rem + 1) (elems ++ [element]))
  | key (rem : Nat) (pairs : List (RespValue × RespValue)) (element : RespValue) :
      Grows (.map rem pairs none) element (.map rem pairs (some element))
  | pair (rem : Nat) (pairs : List (RespValue × RespValue)) (key element : RespValue) :
      Grows (.map (rem + 2) pairs (some key)) element
        (.map (rem + 1) (pairs ++ [(key, element)]) none)

/-- A frame takes its last element and is the given value. -/
inductive Frame.Closes : Frame → RespValue → RespValue → Prop where
  | element (kind : SeqKind) (elems : List RespValue) (element : RespValue) :
      Closes (.seq kind 1 elems) element (kind.value (elems ++ [element]))
  | pair (pairs : List (RespValue × RespValue)) (key element : RespValue) :
      Closes (.map 1 pairs (some key)) element (.map (pairs ++ [(key, element)]))

/-- The ways the code behind the recursive call goes on. -/
inductive Resumed (frame : Frame) (c : Cursor) :
    Outcome → Next Cursor Outcome → Prop where
  | err (e : ProtocolError) : Resumed frame c (.err e) (.ret (.err e) c)
  | panic : Resumed frame c .panic (.ret .panic c)
  | missing : Resumed frame c (.ok none)
      (.ret (.ok none) ⟨{ c.parser with state := frame.state }, c.buf⟩)
  | grows {element : RespValue} {frame' : Frame} (h : frame.Grows element frame') :
      Resumed frame c (.ok (some element))
        (.loop ⟨{ c.parser with state := frame'.state }, c.buf⟩)
  | closes {element value : RespValue} (h : frame.Closes element value) :
      Resumed frame c (.ok (some element)) (leaveAggregate value c.parser c.buf)

theorem parseResume_grows {frame frame' : Frame} {element : RespValue}
    (h : frame.Grows element frame') (c : Cursor) :
    parseResume frame (.ok (some element)) c =
      .loop ⟨{ c.parser with state := frame'.state }, c.buf⟩ := by
  cases h <;> simp [parseResume, checkedSub, Frame.state]

theorem parseResume_closes {frame : Frame} {element value : RespValue}
    (h : frame.Closes element value) (c : Cursor) :
    parseResume frame (.ok (some element)) c =
      leaveAggregate value c.parser c.buf := by
  cases h <;> simp [parseResume, checkedSub]

/-- A frame with elements to come either grows or closes. -/
theorem Frame.grows_or_closes {frame : Frame} (hrem : frame.remaining ≠ 0)
    (element : RespValue) :
    (∃ frame', frame.Grows element frame') ∨ ∃ value, frame.Closes element value := by
  cases frame with
  | seq kind rem elems =>
      match rem with
      | 0 => exact absurd rfl hrem
      | 1 => exact Or.inr ⟨_, .element kind elems element⟩
      | rem + 2 => exact Or.inl ⟨_, .element kind rem elems element⟩
  | map rem pairs key =>
      match rem, key with
      | rem, none => exact Or.inl ⟨_, .key rem pairs element⟩
      | 0, some key => exact absurd rfl hrem
      | 1, some key => exact Or.inr ⟨_, .pair pairs key element⟩
      | rem + 2, some key => exact Or.inl ⟨_, .pair rem pairs key element⟩

theorem parseResume_resumed {frame : Frame} (hrem : frame.remaining ≠ 0)
    (outcome : Outcome) (c : Cursor) :
    Resumed frame c outcome (parseResume frame outcome c) := by
  match outcome with
  | .err e => exact .err e
  | .panic => exact .panic
  | .ok none => exact .missing
  | .ok (some element) =>
      rcases Frame.grows_or_closes hrem element with ⟨frame', h⟩ | ⟨value, h⟩
      · rw [parseResume_grows h]
        exact .grows h
      · rw [parseResume_closes h]
        exact .closes h

theorem Frame.Grows.remaining_ne_zero {frame frame' : Frame} {element : RespValue}
    (h : frame.Grows element frame') (hrem : frame.remaining ≠ 0) :
    frame'.remaining ≠ 0 := by
  cases h with
  | element => simp [Frame.remaining]
  | key => exact hrem
  | pair => simp [Frame.remaining]

/-- How the passes from a state compare when the buffer stays as it is. -/
def ParseState.rank : ParseState → Nat
  | .seqData _ _ _ => 2
  | .mapData _ _ _ => 2
  | .waitingForType => 1
  | _ => 0

def Cursor.rank (c : Cursor) : Nat :=
  2 * c.buf.length + c.parser.state.rank

@[simp]
theorem Frame.rank_state (frame : Frame) : frame.state.rank = 2 := by
  cases frame <;> rfl

@[simp]
theorem Frame.state_ne_waitingForType (frame : Frame) : frame.state ≠ .waitingForType := by
  cases frame <;> simp [Frame.state]

theorem ReadsLine.rank_eq {keep : Bytes → ParseState} (h : ReadsLine keep) (data : Bytes) :
    (keep data).rank = 0 := by
  cases h <;> rfl

theorem ReadsLine.ne_waitingForType {keep : Bytes → ParseState} (h : ReadsLine keep)
    (data : Bytes) : keep data ≠ .waitingForType := by
  cases h <;> simp

theorem readsLine_of_markerState {b : UInt8} {state : ParseState}
    (h : markerState b = some state) : ∃ keep, ReadsLine keep ∧ state = keep [] := by
  unfold markerState at h
  split at h
  all_goals first
    | contradiction
    | cases h
      first
        | exact ⟨_, .line _, rfl⟩
        | exact ⟨_, .bulkLen _, rfl⟩
        | exact ⟨_, .seqLen _, rfl⟩
        | exact ⟨_, .mapLen, rfl⟩

/-- The buffer never grows, and a value read from `WaitingForType` has consumed
at least its type byte. -/
def Consumes (s : Cursor) (outcome : Outcome) (t : Cursor) : Prop :=
  t.buf.length ≤ s.buf.length ∧
    (s.parser.state = .waitingForType → ∀ value, outcome = .ok (some value) →
      t.buf.length < s.buf.length)

theorem Exits.consumes {p : RespParser} {buf : Bytes} {outcome : Outcome} {c : Cursor}
    (h : Exits p buf outcome c) : Consumes ⟨p, buf⟩ outcome c := by
  cases h with
  | spent hp hrem =>
      refine ⟨le_rfl, fun hwait => absurd (hp.symm.trans hwait) (by simp)⟩
  | badBody hp hbody hrest e => exact ⟨hrest, by simp [hp]⟩
  | moreLine hkeep hp => exact ⟨by simp, by simp⟩
  | lineValue hkeep hp hv line skipped rest =>
      exact ⟨by simp; omega, fun _ _ _ => by simp [crlf]; omega⟩
  | bodyValue hp hbody hv rest => exact ⟨by simp; omega, by simp [hp]⟩
  | _ => exact ⟨by simp <;> omega, by simp⟩

theorem Continues.rank_lt {p : RespParser} {buf : Bytes} {c : Cursor}
    (h : Continues p buf c) : c.rank < Cursor.rank ⟨p, buf⟩ := by
  cases h with
  | marker hp hb rest =>
      obtain ⟨keep, hkeep, rfl⟩ := readsLine_of_markerState hb
      simp [Cursor.rank, hkeep.rank_eq]
      omega
  | openBody hp hline hlen hmin hmax rest =>
      simp [Cursor.rank, crlf, ParseState.rank]
      omega
  | openFrame hkeep hp hframe hempty hdepth line rest =>
      simp [Cursor.rank, crlf]
      omega

theorem Continues.buf_length_lt {p : RespParser} {buf : Bytes} {c : Cursor}
    (h : Continues p buf c) : c.buf.length < buf.length := by
  cases h <;> simp [crlf] <;> omega

theorem leaveAggregate_ret {value : RespValue} {p : RespParser} {buf : Bytes}
    {outcome : Outcome} {c : Cursor} (h : leaveAggregate value p buf = .ret outcome c) :
    c.buf = buf ∧ ((outcome = .panic ∧ p.currentDepth = 0 ∧ c.parser = p) ∨
      (outcome = .ok (some value) ∧ 0 < p.currentDepth ∧
        c.parser = { p with currentDepth := p.currentDepth - 1 })) := by
  unfold leaveAggregate checkedSub at h
  by_cases hdepth : 1 ≤ p.currentDepth
  · simp only [hdepth, ↓reduceIte, Next.ret.injEq] at h
    obtain ⟨rfl, rfl⟩ := h
    exact ⟨rfl, Or.inr ⟨rfl, hdepth, rfl⟩⟩
  · simp only [hdepth, ↓reduceIte, Next.ret.injEq] at h
    obtain ⟨rfl, rfl⟩ := h
    exact ⟨rfl, Or.inl ⟨rfl, by omega, rfl⟩⟩

theorem leaveAggregate_ne_loop {value : RespValue} {p : RespParser} {buf : Bytes}
    {c : Cursor} : leaveAggregate value p buf ≠ .loop c := by
  unfold leaveAggregate
  split <;> simp

/-- Where a resumed frame leaves the call, the buffer is the callee's. -/
theorem Resumed.ret_buf {frame : Frame} {c t : Cursor} {outcome outcome' : Outcome}
    (h : Resumed frame c outcome (.ret outcome' t)) : t.buf = c.buf := by
  generalize hnext : Next.ret outcome' t = next at h
  cases h with
  | err => cases hnext; rfl
  | panic => cases hnext; rfl
  | missing => cases hnext; rfl
  | grows => cases hnext
  | closes => exact (leaveAggregate_ret hnext.symm).1

/-- A resumed frame has a value to give only with an element in hand. -/
theorem Resumed.exists_element {frame : Frame} {c t : Cursor} {outcome : Outcome}
    {value : RespValue} (h : Resumed frame c outcome (.ret (.ok (some value)) t)) :
    ∃ element, outcome = .ok (some element) := by
  generalize hnext : Next.ret (Outcome.ok (some value)) t = next at h
  cases h with
  | err => cases hnext
  | panic => cases hnext
  | missing => cases hnext
  | grows => cases hnext
  | closes => exact ⟨_, rfl⟩

/-- A resumed frame goes round the loop only with an element in hand. -/
theorem Resumed.loop_cases {frame : Frame} {c s : Cursor} {outcome : Outcome}
    (h : Resumed frame c outcome (.loop s)) :
    ∃ element frame', outcome = .ok (some element) ∧ frame.Grows element frame' ∧
      s = ⟨{ c.parser with state := frame'.state }, c.buf⟩ := by
  generalize hnext : Next.loop s = next at h
  cases h with
  | err => cases hnext
  | panic => cases hnext
  | missing => cases hnext
  | grows h => cases hnext; exact ⟨_, _, rfl, h, rfl⟩
  | closes => exact absurd hnext.symm leaveAggregate_ne_loop

variable [F64Text]

/-- The loop of `RespParser::parse` and what follows its recursive call. -/
def parseBody : Body Cursor Outcome Frame where
  step := parseStep
  resume := parseResume

theorem exits_of_step {p : RespParser} {buf : Bytes} {outcome : Outcome} {c : Cursor}
    (h : parseBody.step ⟨p, buf⟩ = .next (.ret outcome c)) : Exits p buf outcome c := by
  have := parseStep_passOf p buf
  rwa [show parseStep ⟨p, buf⟩ = _ from h] at this

theorem continues_of_step {p : RespParser} {buf : Bytes} {c : Cursor}
    (h : parseBody.step ⟨p, buf⟩ = .next (.loop c)) : Continues p buf c := by
  have := parseStep_passOf p buf
  rwa [show parseStep ⟨p, buf⟩ = _ from h] at this

theorem calls_of_step {p : RespParser} {buf : Bytes} {frame : Frame} {c : Cursor}
    (h : parseBody.step ⟨p, buf⟩ = .call frame c) :
    p.state = frame.state ∧ frame.remaining ≠ 0 ∧
      c = ⟨{ p with state := .waitingForType }, buf⟩ := by
  have := parseStep_passOf p buf
  rwa [show parseStep ⟨p, buf⟩ = _ from h] at this

theorem resumed_of_resume {frame : Frame} (hrem : frame.remaining ≠ 0)
    {outcome : Outcome} {c : Cursor} {next : Next Cursor Outcome}
    (h : parseBody.resume frame outcome c = next) : Resumed frame c outcome next := by
  rw [← h]
  exact parseResume_resumed hrem outcome c

theorem keeps_consumes : parseBody.Keeps Consumes where
  ret h := (exits_of_step h).consumes
  loop {s s' r t} h hrest := by
    have hlt := (continues_of_step h).buf_length_lt
    exact ⟨by have := hrest.1; omega, fun _ _ _ => by have := hrest.1; omega⟩
  callRet {s k s₀ r s₁ r' t} h hcall hresume := by
    obtain ⟨hp, hrem, rfl⟩ := calls_of_step h
    have hbuf := (resumed_of_resume hrem hresume).ret_buf
    refine ⟨by rw [hbuf]; exact hcall.1, fun hwait => ?_⟩
    exact absurd (hp.symm.trans hwait) (by simp)
  callLoop {s k s₀ r s₁ s' r' t} h hcall hresume hrest := by
    obtain ⟨hp, hrem, rfl⟩ := calls_of_step h
    obtain ⟨element, frame', rfl, hgrows, rfl⟩ :=
      (resumed_of_resume hrem hresume).loop_cases
    refine ⟨le_trans hrest.1 hcall.1, fun hwait => ?_⟩
    exact absurd (hp.symm.trans hwait) (by simp)

/-- The loop with its rank: buffer first, then aggregate over element. -/
def parseMachine : Machine Cursor Outcome Frame where
  toBody := parseBody
  rank := Cursor.rank
  leaves := Consumes
  keeps_leaves := keeps_consumes
  rank_loop h := (continues_of_step h).rank_lt
  rank_call {s k s₀} h := by
    obtain ⟨hp, -, rfl⟩ := calls_of_step h
    simp only [Cursor.rank, hp, Frame.rank_state]
    exact Nat.lt_succ_self _
  rank_resume {s k s₀ r s₁ s'} h hcall hresume := by
    obtain ⟨hp, hrem, rfl⟩ := calls_of_step h
    obtain ⟨element, frame', rfl, -, rfl⟩ :=
      (resumed_of_resume hrem hresume).loop_cases
    have hlt : s₁.buf.length < s.buf.length := hcall.2 rfl element rfl
    simp only [Cursor.rank, hp, Frame.rank_state]
    exact Nat.add_lt_add_right (by omega) 2

/-- `RespParser::parse`: the answer, and the parser and buffer it leaves. -/
def parse (c : Cursor) : Outcome × Cursor :=
  parseMachine.run c

end Seshat
