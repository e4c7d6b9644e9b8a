/-
What one call of the parser costs.  The recursion is carried out on an explicit
stack of open aggregates: it never holds more of them than `max_depth`, and at
every moment at least as many bytes are consumed as values were produced.
-/
import Seshat.Lib.CallStack
import Seshat.Resp.Runs

namespace Seshat

open CallMachine Decimal RespValue

/-- Where a call of the parser stands. -/
abbrev ParseConfig := Config Cursor Outcome Frame

/-- The frames of a stack wait within the limits, each above those below it. -/
def StackWithin (p : RespParser) : List Frame → Prop
  | [] => True
  | frame :: stack => frame.Within p (stack.length + 1) ∧ StackWithin p stack

/-- What holds wherever a call with the limits of `p` stands: as many aggregates
are open as the stack holds, and no more than `max_depth`. -/
structure StandsWithin (p : RespParser) (c : ParseConfig) : Prop where
  depth : c.stack.length ≤ p.maxDepth
  stack : StackWithin p c.stack
  running : ∀ stack s, c = .running stack s →
    s.parser.SameLimits p ∧ s.parser.Inv stack.length
  returned : ∀ stack outcome t, c = .returned stack outcome t →
    Guarded stack.length ⟨p, t.buf⟩ outcome t

theorem StandsWithin.of_running {p : RespParser} {stack : List Frame} {s : Cursor}
    (hstack : StackWithin p stack) (hlimits : s.parser.SameLimits p)
    (hinv : s.parser.Inv stack.length) : StandsWithin p (.running stack s) where
  depth := hlimits.2.2 ▸ hinv.level_le_maxDepth
  stack := hstack
  running := by
    rintro _ _ ⟨⟩
    exact ⟨hlimits, hinv⟩
  returned := by
    rintro _ _ _ ⟨⟩

theorem StandsWithin.of_returned {p : RespParser} {stack : List Frame} {outcome : Outcome}
    {t : Cursor} (hdepth : stack.length ≤ p.maxDepth) (hstack : StackWithin p stack)
    (hguarded : Guarded stack.length ⟨p, t.buf⟩ outcome t) :
    StandsWithin p (.returned stack outcome t) where
  depth := hdepth
  stack := hstack
  running := by
    rintro _ _ ⟨⟩
  returned := by
    rintro _ _ _ ⟨⟩
    exact hguarded

/-- An answer as the aggregate that asked for it sees it. -/
theorem StandsWithin.answered {p : RespParser} {stack : List Frame} {outcome : Outcome}
    {t : Cursor} (h : StandsWithin p (.returned stack outcome t)) (buf : Bytes) :
    Guarded stack.length ⟨{ p with state := .waitingForType }, buf⟩ outcome t := by
  have hguarded := h.returned _ _ _ rfl
  exact hguarded.of_later (.refl p)

theorem StandsWithin.start {p : RespParser} (hinv : p.Inv 0) (buf : Bytes) :
    StandsWithin p (.running [] ⟨p, buf⟩) :=
  .of_running trivial (.refl p) hinv

/-- An answer with a value in it. -/
def Outcome.isValue : Outcome → Bool
  | .ok (some _) => true
  | _ => false

theorem Outcome.isValue_iff {outcome : Outcome} :
    outcome.isValue = true ↔ ∃ value, outcome = .ok (some value) := by
  match outcome with
  | .ok (some value) => simp [isValue]
  | .ok none => simp [isValue]
  | .err e => simp [isValue]
  | .panic => simp [isValue]

/-- How many values have been produced, elements of aggregates included. -/
def produced (answers : List Outcome) : Nat :=
  answers.countP Outcome.isValue

/-- An aggregate that is being read still has a value to produce. -/
def ParseState.pending : ParseState → Nat
  | .seqData _ _ _ => 1
  | .mapData _ _ _ => 1
  | _ => 0

theorem ParseState.pending_le_one (state : ParseState) : state.pending ≤ 1 := by
  cases state <;> simp [pending]

/-- The aggregates that still have their value to produce. -/
def pending : ParseConfig → Nat
  | .running stack s => stack.length + s.parser.state.pending
  | .returned stack _ _ => stack.length

/-- The bytes consumed so far pay for every value produced and for every aggregate
that is open.  One aggregate may have been opened by an earlier call; its first
element pays for it. -/
structure Paid (start : Cursor) (answers : List Outcome) (c : ParseConfig) : Prop where
  shrinks : c.state.buf.length ≤ start.buf.length
  owed : produced answers + pending c + c.state.buf.length ≤ start.buf.length + 1
  paid : 0 < produced answers →
    produced answers + pending c + c.state.buf.length ≤ start.buf.length
  first : ∀ stack value t, c = .returned stack (.ok (some value)) t → 0 < produced answers

theorem Paid.produced_le {start : Cursor} {answers : List Outcome} {c : ParseConfig}
    (h : Paid start answers c) :
    produced answers + c.state.buf.length ≤ start.buf.length := by
  rcases Nat.eq_zero_or_pos (produced answers) with hzero | hpos
  · rw [hzero, Nat.zero_add]
    exact h.shrinks
  · have := h.paid hpos
    omega

theorem Paid.start (p : RespParser) (buf : Bytes) :
    Paid ⟨p, buf⟩ [] (.running [] ⟨p, buf⟩) where
  shrinks := le_rfl
  owed := by
    have := p.state.pending_le_one
    simp only [produced, List.countP_nil, pending, Config.state, List.length_nil]
    omega
  paid hpos := absurd hpos (by simp [produced])
  first := by
    rintro _ _ _ ⟨⟩

/-- A move without an answer keeps the account when it opens no aggregate for free. -/
theorem Paid.of_le {start : Cursor} {answers : List Outcome} {c : ParseConfig}
    (h : Paid start answers c) {stack : List Frame} {s : Cursor}
    (hbuf : s.buf.length ≤ c.state.buf.length)
    (hpending : pending (.running stack s) + s.buf.length ≤ pending c + c.state.buf.length) :
    Paid start (answers ++ (Config.running stack s : ParseConfig).answer) (.running stack s) := by
  rw [Config.answer, List.append_nil]
  refine ⟨hbuf.trans h.shrinks, ?_, fun hpos => ?_, by rintro _ _ _ ⟨⟩⟩
  · have := h.owed
    simp only [Config.state]
    omega
  · have := h.paid hpos
    simp only [Config.state]
    omega

/-- An answer without a value keeps it as well. -/
theorem Paid.of_none {start : Cursor} {answers : List Outcome} {c : ParseConfig}
    (h : Paid start answers c) {stack : List Frame} {outcome : Outcome} {t : Cursor}
    (hvalue : outcome.isValue = false) (hbuf : t.buf.length ≤ c.state.buf.length)
    (hpending : stack.length ≤ pending c) :
    Paid start (answers ++ (Config.returned stack outcome t : ParseConfig).answer)
      (.returned stack outcome t) := by
  have hproduced : produced (answers ++ (Config.returned stack outcome t : ParseConfig).answer) =
      produced answers := by
    simp [produced, Config.answer, hvalue]
  refine ⟨hbuf.trans h.shrinks, ?_, fun hpos => ?_, ?_⟩
  · have := h.owed
    simp only [hproduced, pending, Config.state]
    omega
  · rw [hproduced] at hpos ⊢
    have := h.paid hpos
    simp only [pending, Config.state]
    omega
  · rintro _ _ _ ⟨⟩
    cases hvalue

/-- A value is one more to be paid for, and settles what was owed. -/
theorem Paid.of_value {start : Cursor} {answers : List Outcome} {stack : List Frame}
    {value : RespValue} {t : Cursor}
    (h : produced answers + 1 + stack.length + t.buf.length ≤ start.buf.length) :
    Paid start
      (answers ++ (Config.returned stack (.ok (some value)) t : ParseConfig).answer)
      (.returned stack (.ok (some value)) t) := by
  have hproduced :
      produced (answers ++ (Config.returned stack (.ok (some value)) t : ParseConfig).answer) =
        produced answers + 1 := by
    simp [produced, Config.answer, Outcome.isValue]
  refine ⟨?_, ?_, fun _ => ?_, fun _ _ _ _ => ?_⟩
  · simp only [Config.state]
    omega
  · simp only [hproduced, pending, Config.state]
    omega
  · simp only [hproduced, pending, Config.state]
    omega
  · rw [hproduced]
    exact Nat.succ_pos _

@[simp]
theorem Frame.pending_state (frame : Frame) : frame.state.pending = 1 := by
  cases frame <;> rfl

theorem ReadsLine.pending_eq {keep : Bytes → ParseState} (h : ReadsLine keep) (data : Bytes) :
    (keep data).pending = 0 := by
  cases h <;> rfl

/-- Opening an aggregate costs its length line. -/
theorem Continues.pending_le {p : RespParser} {buf : Bytes} {c : Cursor}
    (h : Continues p buf c) :
    c.parser.state.pending + c.buf.length ≤ p.state.pending + buf.length := by
  cases h with
  | marker hp hb rest =>
      obtain ⟨keep, hkeep, rfl⟩ := readsLine_of_markerState hb
      simp [hkeep.pending_eq]
      omega
  | openBody hp hline hlen hmin hmax rest =>
      simp [ParseState.pending]
      omega
  | openFrame hkeep hp hframe hempty hdepth line rest =>
      simp [crlf]
      omega

/-- A null or a boolean takes two bytes more than its marker. -/
theorem typeStep_value {b : UInt8} {p : RespParser} {buf : Bytes} {value : RespValue}
    {c : Cursor} (h : typeStep b p buf = .next (.ret (.ok (some value)) c)) :
    c.buf.length + 2 ≤ buf.length := by
  unfold typeStep at h
  split at h
  case h_6 =>
    split at h
    · split at h
      · cases h
      · cases h
        simp
    · cases h
  case h_7 =>
    split at h
    · split at h
      · cases h
      · cases h
        simp
    · cases h
  all_goals cases h

section

variable [F64Text]

/-- A value that is read in one pass has consumed its line or its body, and the CRLF. -/
theorem parseStep_value {p : RespParser} {level : Nat} (hinv : p.Inv level) {buf : Bytes}
    {value : RespValue} {c : Cursor}
    (h : parseBody.step ⟨p, buf⟩ = .next (.ret (.ok (some value)) c)) :
    c.buf.length + 2 ≤ buf.length := by
  cases exits_of_step h with
  | immediate hp hv b body rest =>
      have htype : parseStep ⟨p, b :: (body ++ rest)⟩ = typeStep b p (body ++ rest) := by
        simp [parseStep, hp, waitingStep]
      have hvalue := typeStep_value (htype.symm.trans h)
      rw [List.length_cons]
      exact Nat.le_succ_of_le hvalue
  | lineValue hkeep hp hv line skipped rest =>
      simp [crlf]
      omega
  | bodyValue hp hbody hv rest => simp [crlf]
  | spent hp hrem => exact absurd hrem (hinv.callee hp).1.remaining_ne_zero

/-- The moves of the parser, with what each of them rests on. -/
inductive Moved : ParseConfig → ParseConfig → Prop where
  | exits (stack : List Frame) {q : RespParser} {buf : Bytes} {outcome : Outcome} {t : Cursor}
      (h : parseBody.step ⟨q, buf⟩ = .next (.ret outcome t)) :
      Moved (.running stack ⟨q, buf⟩) (.returned stack outcome t)
  | continues (stack : List Frame) {q : RespParser} {buf : Bytes} {t : Cursor}
      (h : Continues q buf t) : Moved (.running stack ⟨q, buf⟩) (.running stack t)
  | calls (stack : List Frame) {q : RespParser} (buf : Bytes) {frame : Frame}
      (hq : q.state = frame.state) (hrem : frame.remaining ≠ 0) :
      Moved (.running stack ⟨q, buf⟩)
        (.running (frame :: stack) ⟨{ q with state := .waitingForType }, buf⟩)
  | answers (stack : List Frame) {frame : Frame} {outcome outcome' : Outcome} {c t : Cursor}
      (h : parseBody.resume frame outcome c = .ret outcome' t) :
      Moved (.returned (frame :: stack) outcome c) (.returned stack outcome' t)
  | resumes (stack : List Frame) {frame : Frame} {outcome : Outcome} {c s : Cursor}
      (h : parseBody.resume frame outcome c = .loop s) :
      Moved (.returned (frame :: stack) outcome c) (.running stack s)

theorem moved_of_move {c c' : ParseConfig} (h : parseBody.move c = some c') : Moved c c' := by
  match c with
  | .running stack ⟨q, buf⟩ =>
      rw [Body.move] at h
      cases hstep : parseBody.step ⟨q, buf⟩ with
      | next next =>
          cases next with
          | ret outcome t =>
              simp only [hstep, Option.some.injEq] at h
              subst h
              exact .exits stack hstep
          | loop t =>
              simp only [hstep, Option.some.injEq] at h
              subst h
              exact .continues stack (continues_of_step hstep)
      | call frame t =>
          simp only [hstep, Option.some.injEq] at h
          subst h
          obtain ⟨hq, hrem, rfl⟩ := calls_of_step hstep
          exact .calls stack buf hq hrem
  | .returned [] outcome t => simp [Body.move] at h
  | .returned (frame :: stack) outcome t =>
      rw [Body.move] at h
      cases hresume : parseBody.resume frame outcome t with
      | ret outcome' t' =>
          simp only [hresume, Option.some.injEq] at h
          subst h
          exact .answers stack hresume
      | loop s =>
          simp only [hresume, Option.some.injEq] at h
          subst h
          exact .resumes stack hresume

theorem Moved.standsWithin {p : RespParser} {c c' : ParseConfig} (h : Moved c c')
    (hc : StandsWithin p c) : StandsWithin p c' := by
  cases h with
  | @exits stack q buf outcome t h =>
      obtain ⟨hlimits, hinv⟩ := hc.running _ _ rfl
      have hguarded := (exits_of_step h).guarded hinv
      exact .of_returned hc.depth hc.stack (hguarded.of_later hlimits)
  | continues stack h =>
      obtain ⟨hlimits, hinv⟩ := hc.running _ _ rfl
      obtain ⟨hlimits', hinv'⟩ := h.inv hinv
      exact .of_running hc.stack (hlimits'.trans hlimits) hinv'
  | @calls stack q buf frame hq hrem =>
      obtain ⟨hlimits, hinv⟩ := hc.running _ _ rfl
      obtain ⟨hframe, hcallee⟩ := hinv.callee hq
      exact .of_running ⟨(Frame.Within.congr hlimits _ frame).mp hframe, hc.stack⟩ hlimits hcallee
  | @answers stack frame outcome outcome' s t h =>
      obtain ⟨hframe, hstack⟩ := hc.stack
      have hdepth : stack.length ≤ p.maxDepth := Nat.le_of_succ_le hc.depth
      have hresumed := resumed_of_resume hframe.remaining_ne_zero h
      exact .of_returned hdepth hstack (hresumed.guarded hdepth hframe (hc.answered t.buf))
  | resumes stack h =>
      obtain ⟨hframe, hstack⟩ := hc.stack
      have hresumed := resumed_of_resume hframe.remaining_ne_zero h
      obtain ⟨hlimits, hinv⟩ := hresumed.loop_inv hframe (hc.answered [])
      exact .of_running hstack hlimits hinv

/-- Wherever a call has got to, it stands within its limits. -/
theorem moves_standsWithin {p : RespParser} (hinv : p.Inv 0) {buf : Bytes}
    {answers : List Outcome} {c : ParseConfig}
    (h : parseBody.Moves (.running [] ⟨p, buf⟩) answers c) : StandsWithin p c := by
  induction h with
  | start => exact .start hinv buf
  | move _ hmove ih => exact (moved_of_move hmove).standsWithin ih

theorem Moved.paid {p : RespParser} {start : Cursor} {answers : List Outcome}
    {c c' : ParseConfig} (h : Moved c c') (hc : StandsWithin p c)
    (hpaid : Paid start answers c) : Paid start (answers ++ c'.answer) c' := by
  cases h with
  | @exits stack q buf outcome t h =>
      obtain ⟨-, hinv⟩ := hc.running _ _ rfl
      cases hvalue : outcome.isValue with
      | false =>
          refine hpaid.of_none hvalue (exits_of_step h).consumes.1 ?_
          exact Nat.le_add_right _ _
      | true =>
          obtain ⟨value, rfl⟩ := Outcome.isValue_iff.mp hvalue
          have hbuf := parseStep_value hinv h
          have howed := hpaid.owed
          simp only [pending, Config.state] at howed
          exact .of_value (by omega)
  | @continues stack q buf t h =>
      have hpending := h.pending_le
      refine hpaid.of_le (le_of_lt h.buf_length_lt) ?_
      simp only [pending, Config.state]
      omega
  | @calls stack q buf frame hq hrem =>
      have hnone : ParseState.waitingForType.pending = 0 := rfl
      refine hpaid.of_le le_rfl ?_
      simp only [pending, Config.state, hq, Frame.pending_state, hnone, List.length_cons]
      omega
  | @answers stack frame outcome outcome' s t h =>
      obtain ⟨hframe, -⟩ := hc.stack
      have hresumed := resumed_of_resume hframe.remaining_ne_zero h
      have hbuf := hresumed.ret_buf
      cases hvalue : outcome'.isValue with
      | false =>
          refine hpaid.of_none hvalue (le_of_eq (by rw [hbuf]; rfl)) ?_
          exact Nat.le_succ _
      | true =>
          -- the last element is the value that pays
          obtain ⟨value, rfl⟩ := Outcome.isValue_iff.mp hvalue
          obtain ⟨element, rfl⟩ := hresumed.exists_element
          have hsettled := hpaid.paid (hpaid.first _ _ _ rfl)
          simp only [pending, Config.state, List.length_cons] at hsettled
          rw [← hbuf] at hsettled
          exact .of_value (by omega)
  | @resumes stack frame outcome s t h =>
      obtain ⟨hframe, -⟩ := hc.stack
      obtain ⟨element, frame', rfl, -, rfl⟩ :=
        (resumed_of_resume hframe.remaining_ne_zero h).loop_cases
      refine hpaid.of_le le_rfl ?_
      simp only [pending, Config.state, Frame.pending_state, List.length_cons]
      omega

/-- Wherever a call has got to, its bytes pay for its values. -/
theorem moves_paid {p : RespParser} (hinv : p.Inv 0) {buf : Bytes}
    {answers : List Outcome} {c : ParseConfig}
    (h : parseBody.Moves (.running [] ⟨p, buf⟩) answers c) : Paid ⟨p, buf⟩ answers c := by
  induction h with
  | start => exact .start p buf
  | move hmoves hmove ih =>
      exact (moved_of_move hmove).paid (moves_standsWithin hinv hmoves) ih

/-- From every state a parser can get into, a call ends with its answer; at no time
are more than `max_depth + 1` activations open, and at every time at least one byte
is consumed for every value produced. -/
theorem runCalls_bounded (bulkSize arrayLen depth : Nat) (bufs : List Bytes) (call : Call)
    (hcall : call ∈ runCalls (.fresh bulkSize arrayLen depth) bufs) :
    (∃ answers, parseBody.Moves (.running [] call.before) answers
        (.returned [] call.outcome call.after)) ∧
      ∀ answers c, parseBody.Moves (.running [] call.before) answers c →
        c.activations ≤ depth + 1 ∧
          produced answers + c.state.buf.length ≤ call.before.buf.length := by
  obtain ⟨hinv, hlimits, heq⟩ :=
    runCalls_inv (RespParser.inv_fresh bulkSize arrayLen depth) bufs call hcall
  obtain ⟨⟨p, buf⟩, outcome, after⟩ := call
  dsimp only at hinv hlimits heq ⊢
  constructor
  · have hmoves := parseMachine.moves_run [] ⟨p, buf⟩
    rw [show parseMachine.run ⟨p, buf⟩ = _ from heq] at hmoves
    exact hmoves
  · intro answers c hmoves
    have hdepth := (moves_standsWithin hinv hmoves).depth
    rw [hlimits.2.2] at hdepth
    exact ⟨Nat.succ_le_succ hdepth, (moves_paid hinv hmoves).produced_le⟩

end

end Seshat
