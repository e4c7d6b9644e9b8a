/-
Successive calls on one parser.  Every buffer is arbitrary: what a caller left
over, appended or replaced.  A run goes on after `None` and after an error and
ends with a panic.
-/
import Seshat.Resp.Invariant
import Seshat.Resp.Partial

namespace Seshat

open CallMachine Decimal RespValue

/-- One call: what it was given, what it answered, what it left. -/
structure Call where
  before : Cursor
  outcome : Outcome
  after : Cursor

/-- A call on this buffer stops between the CR and the LF behind a body: the
body and exactly one byte more are at hand. -/
inductive Strands : RespParser → Bytes → Prop where
  | body {p : RespParser} {buf : Bytes} {kind : BulkKind} {len : Nat} {data : Bytes}
      (hp : p.state = .bulkData kind len data)
      (hlength : data.length + buf.length = len + 1) : Strands p buf
  | length {p : RespParser} {kind : BulkKind} {lenBytes : Bytes}
      (hp : p.state = .bulkLen kind lenBytes) {line : Bytes} (hline : CrlfFree line)
      {len : Int64} (hlen : parseI64 (lenBytes ++ line) = some len)
      (hmin : kind.minLen ≤ len.toNatClampNeg) (hmax : len.toNatClampNeg ≤ p.maxBulkSize)
      {rest : Bytes} (hrest : rest.length = len.toNatClampNeg + 1) :
      Strands p (line ++ (crlf ++ rest))
  | marker {p : RespParser} (hp : p.state = .waitingForType) {b : UInt8}
      {state : ParseState} (hb : markerState b = some state) {rest : Bytes}
      (hrest : Strands { p with state := state } rest) : Strands p (b :: rest)

theorem Frame.not_stranded (frame : Frame) : ¬ frame.state.Stranded := by
  cases frame <;> exact id

theorem Frame.not_strands {p : RespParser} {frame : Frame} (hp : p.state = frame.state)
    (buf : Bytes) : ¬ Strands p buf := by
  intro h
  cases h with
  | body hp' => cases frame <;> cases hp.symm.trans hp'
  | length hp' => cases frame <;> cases hp.symm.trans hp'
  | marker hp' => cases frame <;> cases hp.symm.trans hp'

theorem ReadsLine.not_stranded {keep : Bytes → ParseState} (h : ReadsLine keep)
    (data : Bytes) : ¬ (keep data).Stranded := by
  cases h <;> exact id

/-- Only a call that strands leaves a stranded state, and it answers `None`. -/
def StrandsOnly (s : Cursor) (outcome : Outcome) (t : Cursor) : Prop :=
  (∃ level, s.parser.Inv level) → outcome ≠ .panic → t.parser.state.Stranded →
    outcome = .ok none ∧ Strands s.parser s.buf

/-- A panic comes from a stranded state and a buffer that is not empty. -/
def PanicsOnly (s : Cursor) (outcome : Outcome) : Prop :=
  (∃ level, s.parser.Inv level) → outcome = .panic →
    s.parser.state.Stranded ∧ s.buf ≠ []

theorem Exits.strandsOnly {p : RespParser} {buf : Bytes} {outcome : Outcome} {c : Cursor}
    (h : Exits p buf outcome c) : StrandsOnly ⟨p, buf⟩ outcome c := by
  rintro ⟨level, hinv⟩ hpanic hstranded
  cases h with
  | idle hp => rw [hp] at hstranded; exact hstranded.elim
  | short hp rest hb => rw [hp] at hstranded; exact hstranded.elim
  | badMarker hp rest hb e => rw [hp] at hstranded; exact hstranded.elim
  | immediate hp hv body rest => exact hstranded.elim
  | moreLine hkeep hp hbuf => exact absurd hstranded (hkeep.not_stranded _)
  | badLine hkeep hp hline rest e => exact absurd hstranded (hkeep.not_stranded _)
  | lineValue hkeep hp hv line skipped rest => exact hstranded.elim
  | emptyBody hp hkind hline hlen hzero rest => cases hstranded
  | moreBody hp hbuf =>
      simp only [ParseState.Stranded, List.length_append] at hstranded
      exact ⟨rfl, .body hp hstranded⟩
  | badBody hp hbody hrest e =>
      simp only [ParseState.Stranded, List.length_append] at hstranded
      omega
  | bodyValue hp hbody hv rest => exact hstranded.elim
  | bodyPanic hp hdata hbuf => exact absurd rfl hpanic
  | spent hp hrem => exact absurd hrem (hinv.callee hp).1.remaining_ne_zero

theorem Exits.panicsOnly {p : RespParser} {buf : Bytes} {outcome : Outcome} {c : Cursor}
    (h : Exits p buf outcome c) : PanicsOnly ⟨p, buf⟩ outcome := by
  rintro ⟨level, hinv⟩ hpanic
  cases h with
  | bodyPanic hp hdata hbuf =>
      have hsound := hinv.sound
      rw [hp] at hsound
      obtain ⟨-, hsound⟩ := hsound
      refine ⟨?_, ?_⟩
      · rw [hp]
        change _ = _
        omega
      · rintro rfl
        simp only [List.length_nil] at hbuf
        omega
  | spent hp hrem => exact absurd hrem (hinv.callee hp).1.remaining_ne_zero
  | _ => cases hpanic

theorem Continues.strands {p : RespParser} {buf : Bytes} {c : Cursor}
    (h : Continues p buf c) (hc : Strands c.parser c.buf) : Strands p buf := by
  cases h with
  | marker hp hb rest => exact .marker hp hb hc
  | openBody hp hline hlen hmin hmax rest =>
      refine .length hp hline hlen hmin hmax ?_
      cases hc with
      | body hp' hlength =>
          cases hp'
          simpa using hlength
      | length hp' => cases hp'
      | marker hp' => cases hp'
  | openFrame hkeep hp hframe hempty hdepth line rest =>
      exact absurd hc (Frame.not_strands rfl _)

theorem Continues.not_stranded {p : RespParser} {buf : Bytes} {c : Cursor}
    (h : Continues p buf c) : ¬ c.parser.state.Stranded := by
  cases h with
  | marker hp hb rest =>
      obtain ⟨keep, hkeep, rfl⟩ := readsLine_of_markerState hb
      exact hkeep.not_stranded _
  | openBody hp hline hlen hmin hmax rest => exact fun h => by cases h
  | openFrame hkeep hp hframe hempty hdepth line rest => exact Frame.not_stranded _

/-- An aggregate panics only where its element did. -/
theorem Resumed.panic_of_panic {frame : Frame} {s₀ c t : Cursor} {level : Nat}
    {outcome : Outcome} (h : Resumed frame c outcome (.ret .panic t))
    (hcall : Guarded (level + 1) s₀ outcome c) : outcome = .panic := by
  generalize hnext : Next.ret Outcome.panic t = next at h
  cases h with
  | panic => rfl
  | closes h =>
      have hdepth := (hcall.inv (by simp)).level_le
      obtain ⟨-, ⟨-, hzero, -⟩ | ⟨hok, -⟩⟩ := leaveAggregate_ret hnext.symm
      · omega
      · cases hok
  | _ => cases hnext

/-- A stranded element is forgotten: the aggregate's own state is put back. -/
theorem Resumed.not_stranded {frame : Frame} {c t : Cursor} {outcome outcome' : Outcome}
    (h : Resumed frame c outcome (.ret outcome' t)) (hpanic : outcome' ≠ .panic)
    (hcall : outcome ≠ .ok none → outcome ≠ .panic → ¬ c.parser.state.Stranded) :
    ¬ t.parser.state.Stranded := by
  generalize hnext : Next.ret outcome' t = next at h
  cases h with
  | err e =>
      cases hnext
      exact hcall (by simp) (by simp)
  | panic =>
      cases hnext
      exact absurd rfl hpanic
  | missing =>
      cases hnext
      exact frame.not_stranded
  | grows h => cases hnext
  | closes h =>
      obtain ⟨-, ⟨hpanic', -⟩ | ⟨-, -, ht⟩⟩ := leaveAggregate_ret hnext.symm
      · exact absurd hpanic' hpanic
      · rw [ht]
        exact hcall (by simp) (by simp)

section

variable [F64Text]

theorem keeps_strandsOnly : parseBody.Keeps fun s outcome t =>
    Guards s outcome t ∧ PanicsOnly s outcome ∧ StrandsOnly s outcome t where
  ret h := ⟨keeps_guards.ret h, (exits_of_step h).panicsOnly, (exits_of_step h).strandsOnly⟩
  loop h hrest := by
    obtain ⟨hguards, hpanics, hstrands⟩ := hrest
    have hcontinues := continues_of_step h
    refine ⟨keeps_guards.loop h hguards, ?_, ?_⟩
    · rintro ⟨level, hinv⟩ hpanic
      exact absurd (hpanics ⟨level, (hcontinues.inv hinv).2⟩ hpanic).1
        hcontinues.not_stranded
    · rintro ⟨level, hinv⟩ hpanic hstranded
      obtain ⟨houtcome, hc⟩ :=
        hstrands ⟨level, (hcontinues.inv hinv).2⟩ hpanic hstranded
      exact ⟨houtcome, hcontinues.strands hc⟩
  callRet {s k s₀ r s₁ r' t} h hcall hresume := by
    obtain ⟨hguards, hpanics, hstrands⟩ := hcall
    obtain ⟨hp, hrem, rfl⟩ := calls_of_step h
    have hresumed := resumed_of_resume hrem hresume
    refine ⟨keeps_guards.callRet h hguards hresume, ?_, ?_⟩
    · rintro ⟨level, hinv⟩ rfl
      have hcallee := (hinv.callee hp).2
      have hpanic := hresumed.panic_of_panic (hguards _ hcallee)
      exact (hpanics ⟨_, hcallee⟩ hpanic).1.elim
    · rintro ⟨level, hinv⟩ hpanic hstranded
      have hcallee := (hinv.callee hp).2
      refine absurd hstranded (hresumed.not_stranded hpanic ?_)
      intro hnone hpanic' hstranded'
      exact hnone (hstrands ⟨_, hcallee⟩ hpanic' hstranded').1
  callLoop h hcall hresume hrest := by
    obtain ⟨hguards, hpanics, hstrands⟩ := hrest
    obtain ⟨hp, hrem, rfl⟩ := calls_of_step h
    have hresumed := resumed_of_resume hrem hresume
    obtain ⟨element, frame', -, -, heq⟩ := hresumed.loop_cases
    refine ⟨keeps_guards.callLoop h hcall.1 hresume hguards, ?_, ?_⟩
    · rintro ⟨level, hinv⟩ hpanic
      obtain ⟨hframe, hcallee⟩ := hinv.callee hp
      have hinv' := (hresumed.loop_inv hframe (hcall.1 _ hcallee)).2
      have hstranded := (hpanics ⟨level, hinv'⟩ hpanic).1
      rw [heq] at hstranded
      exact absurd hstranded frame'.not_stranded
    · rintro ⟨level, hinv⟩ hpanic hstranded
      obtain ⟨hframe, hcallee⟩ := hinv.callee hp
      have hinv' := (hresumed.loop_inv hframe (hcall.1 _ hcallee)).2
      have hstrands' := (hstrands ⟨level, hinv'⟩ hpanic hstranded).2
      rw [heq] at hstrands'
      exact absurd hstrands' (Frame.not_strands rfl _)

/-- A call that strands answers `None` and leaves a stranded state. -/
theorem Strands.parse_stranded {p : RespParser} {buf : Bytes} (h : Strands p buf) :
    (parse ⟨p, buf⟩).1 = .ok none ∧ (parse ⟨p, buf⟩).2.parser.state.Stranded := by
  have hbody : ∀ {p : RespParser} {buf : Bytes} {kind : BulkKind} {len : Nat} {data : Bytes},
      p.state = .bulkData kind len data → data.length + buf.length = len + 1 →
      (parse ⟨p, buf⟩).1 = .ok none ∧ (parse ⟨p, buf⟩).2.parser.state.Stranded := by
    intro p buf kind len data hp hlength
    rw [parse_bulkData_more hp (by omega)]
    refine ⟨rfl, ?_⟩
    simp only [ParseState.Stranded, List.length_append]
    exact hlength
  induction h with
  | body hp hlength => exact hbody hp hlength
  | @length p kind lenBytes hp line hline len hlen hmin hmax rest hrest =>
      have hneg : ¬ len < 0 := by
        intro hneg
        have hzero : len.toNatClampNeg = 0 := by
          rw [← Int64.toNat_toInt]
          rw [Int64.lt_iff_toInt_lt] at hneg
          exact Int.toNat_of_nonpos (le_of_lt (by simpa using hneg))
        cases kind <;> simp [BulkKind.minLen, hzero] at hmin
      have hopen := parse_bulkLen (p := p) hline hlen hneg hmin hmax rest
      rw [← hp] at hopen
      rw [hopen]
      exact hbody rfl (by simpa using hrest)
  | @marker p hp b state hb rest hrest ih =>
      have hnext := parse_marker (p := p) hb rest
      rw [← hp] at hnext
      rw [hnext]
      exact ih

/-- A call panics exactly from a stranded state with something to read. -/
theorem parse_panic_iff {p : RespParser} (hinv : p.Inv 0) (buf : Bytes) :
    (parse ⟨p, buf⟩).1 = .panic ↔ p.state.Stranded ∧ buf ≠ [] := by
  have hkeeps := parseMachine.run_keeps keeps_strandsOnly ⟨p, buf⟩
  constructor
  · exact hkeeps.2.1 ⟨0, hinv⟩
  · rintro ⟨hstranded, hbuf⟩
    exact parse_stranded hstranded hbuf

theorem parse_stranded_iff {p : RespParser} (hinv : p.Inv 0) {buf : Bytes}
    (hpanic : (parse ⟨p, buf⟩).1 ≠ .panic) :
    (parse ⟨p, buf⟩).2.parser.state.Stranded ↔ Strands p buf := by
  have hkeeps := parseMachine.run_keeps keeps_strandsOnly ⟨p, buf⟩
  constructor
  · intro hstranded
    exact (hkeeps.2.2 ⟨0, hinv⟩ hpanic hstranded).2
  · intro hstrands
    exact hstrands.parse_stranded.2

/-- Successive calls on one parser, each on a buffer of its own. -/
def runCalls (p : RespParser) : List Bytes → List Call
  | [] => []
  | buf :: bufs =>
      let answer := parse ⟨p, buf⟩
      ⟨⟨p, buf⟩, answer.1, answer.2⟩ ::
        match answer.1 with
        | .panic => []
        | _ => runCalls answer.2.parser bufs

theorem runCalls_cons_of_panic {p : RespParser} {buf : Bytes} (bufs : List Bytes)
    (h : (parse ⟨p, buf⟩).1 = .panic) :
    runCalls p (buf :: bufs) = [⟨⟨p, buf⟩, .panic, (parse ⟨p, buf⟩).2⟩] := by
  simp only [runCalls, h]

theorem runCalls_cons {p : RespParser} {buf : Bytes} (bufs : List Bytes)
    (h : (parse ⟨p, buf⟩).1 ≠ .panic) :
    runCalls p (buf :: bufs) =
      ⟨⟨p, buf⟩, (parse ⟨p, buf⟩).1, (parse ⟨p, buf⟩).2⟩ ::
        runCalls (parse ⟨p, buf⟩).2.parser bufs := by
  rw [runCalls]
  split
  · rename_i hpanic
    exact absurd hpanic h
  · rfl

/-- Every call of a run starts from a parser that meets the invariant. -/
theorem runCalls_inv {p : RespParser} (hinv : p.Inv 0) (bufs : List Bytes) :
    ∀ call ∈ runCalls p bufs, call.before.parser.Inv 0 ∧
      call.before.parser.SameLimits p ∧ parse call.before = (call.outcome, call.after) := by
  induction bufs generalizing p with
  | nil => simp [runCalls]
  | cons buf bufs ih =>
      intro call hcall
      have hguarded := parse_guarded hinv buf
      by_cases hpanic : (parse ⟨p, buf⟩).1 = .panic
      · rw [runCalls_cons_of_panic bufs hpanic, List.mem_singleton] at hcall
        subst hcall
        exact ⟨hinv, .refl p, by rw [← hpanic]⟩
      · rw [runCalls_cons bufs hpanic, List.mem_cons] at hcall
        rcases hcall with rfl | hcall
        · exact ⟨hinv, .refl p, rfl⟩
        · obtain ⟨hinv', hlimits, heq⟩ := ih (hguarded.inv hpanic) call hcall
          exact ⟨hinv', hlimits.trans hguarded.limits, heq⟩

/-- Whatever bytes a parser is given and however they are cut, a value it
returns is within the configured limits. -/
theorem runCalls_limits (bulkSize arrayLen depth : Nat) (bufs : List Bytes) (call : Call)
    (hcall : call ∈ runCalls (.fresh bulkSize arrayLen depth) bufs) (value : RespValue)
    (hvalue : call.outcome = .ok (some value)) :
    value.Everywhere (FitsLimits (.fresh bulkSize arrayLen depth)) ∧
      value.nesting ≤ depth := by
  obtain ⟨hinv, hlimits, heq⟩ :=
    runCalls_inv (RespParser.inv_fresh bulkSize arrayLen depth) bufs call hcall
  have hguarded := parse_guarded hinv call.before.buf
  rw [show parse ⟨call.before.parser, call.before.buf⟩ = _ from heq] at hguarded
  have hfits := (hguarded.fits value hvalue).1
  rw [Fits.congr hlimits] at hfits
  exact ⟨hfits.1, hfits.2⟩

/-- No call strands a body unless nothing is read afterwards. -/
def NeverStrands (p : RespParser) : List Bytes → Prop
  | [] => True
  | buf :: bufs =>
      (Strands p buf → ∀ later ∈ bufs, later = []) ∧
        NeverStrands (parse ⟨p, buf⟩).2.parser bufs

theorem runCalls_ne_panic_iff_of_inv {p : RespParser} (hinv : p.Inv 0) (bufs : List Bytes) :
    (∀ call ∈ runCalls p bufs, call.outcome ≠ .panic) ↔
      (p.state.Stranded → ∀ buf ∈ bufs, buf = []) ∧ NeverStrands p bufs := by
  induction bufs generalizing p with
  | nil => simp [runCalls, NeverStrands]
  | cons buf bufs ih =>
      by_cases hpanic : (parse ⟨p, buf⟩).1 = .panic
      · obtain ⟨hstranded, hbuf⟩ := (parse_panic_iff hinv buf).mp hpanic
        rw [runCalls_cons_of_panic bufs hpanic]
        simp [hstranded, hbuf]
      · have hih := ih ((parse_guarded hinv buf).inv hpanic)
        rw [parse_stranded_iff hinv hpanic] at hih
        rw [runCalls_cons bufs hpanic]
        simp only [List.mem_cons, forall_eq_or_imp, NeverStrands, hih]
        constructor
        · rintro ⟨-, hstrands, hnever⟩
          refine ⟨fun hstranded => ?_, hstrands, hnever⟩
          -- a stranded state survives an empty buffer
          have hbuf : buf = [] := by
            by_contra hbuf
            exact hpanic ((parse_panic_iff hinv buf).mpr ⟨hstranded, hbuf⟩)
          subst hbuf
          refine ⟨rfl, hstrands ?_⟩
          cases hp : p.state with
          | bulkData kind len data =>
              rw [hp] at hstranded
              exact .body hp hstranded
          | _ =>
              rw [hp] at hstranded
              exact hstranded.elim
        · rintro ⟨-, hstrands, hnever⟩
          exact ⟨hpanic, hstrands, hnever⟩

/-- Errors that leave the parser waiting at the level it started from are those
raised for the very first byte. -/
def ErrsEarly (s : Cursor) (outcome : Outcome) (t : Cursor) : Prop :=
  ∀ level, s.parser.Inv level → ∀ e, outcome = .err e →
    t.parser.state = .waitingForType → t.parser.currentDepth = level →
    s.parser.state = .waitingForType ∧ s.parser.currentDepth = level ∧
      ∃ b rest, s.buf = b :: rest ∧ markerState b = none

omit [F64Text] in
theorem Exits.errsEarly {p : RespParser} {buf : Bytes} {outcome : Outcome} {c : Cursor}
    (h : Exits p buf outcome c) : ErrsEarly ⟨p, buf⟩ outcome c := by
  intro level hinv e he hwait hdepth
  cases h with
  | badMarker hp rest hb e => exact ⟨hp, hdepth, _, _, rfl, hb⟩
  | badLine hkeep hp hline rest e => exact absurd hwait (hkeep.ne_waitingForType _)
  | badBody hp hbody hrest e => cases hwait
  | spent hp hrem => exact absurd hrem (hinv.callee hp).1.remaining_ne_zero
  | _ => cases he

omit [F64Text] in
theorem Continues.ne_waitingForType {p : RespParser} {buf : Bytes} {c : Cursor}
    (h : Continues p buf c) : c.parser.state ≠ .waitingForType := by
  cases h with
  | marker hp hb rest =>
      obtain ⟨keep, hkeep, rfl⟩ := readsLine_of_markerState hb
      exact hkeep.ne_waitingForType _
  | openBody hp hline hlen hmin hmax rest => exact ParseState.noConfusion
  | openFrame hkeep hp hframe hempty hdepth line rest =>
      exact Frame.state_ne_waitingForType _

theorem keeps_errsEarly : parseBody.Keeps fun s outcome t =>
    Guards s outcome t ∧ ErrsEarly s outcome t where
  ret h := ⟨keeps_guards.ret h, (exits_of_step h).errsEarly⟩
  loop h hrest := by
    refine ⟨keeps_guards.loop h hrest.1, ?_⟩
    intro level hinv e he hwait hdepth
    have hcontinues := continues_of_step h
    have hstart := hrest.2 level (hcontinues.inv hinv).2 e he hwait hdepth
    exact absurd hstart.1 hcontinues.ne_waitingForType
  callRet {s k s₀ r s₁ r' t} h hcall hresume := by
    refine ⟨keeps_guards.callRet h hcall.1 hresume, ?_⟩
    rintro level hinv e rfl - hdepth
    obtain ⟨hp, hrem, rfl⟩ := calls_of_step h
    have hguarded := hcall.1 _ (hinv.callee hp).2
    -- the error came from the element, whose level is one above
    have hinner : r = .err e ∧ t = s₁ := by
      have hresumed := resumed_of_resume hrem hresume
      generalize hnext : Next.ret (Outcome.err e) t = next at hresumed
      cases hresumed with
      | err e' => cases hnext; exact ⟨rfl, rfl⟩
      | closes h =>
          obtain ⟨-, ⟨herr, -⟩ | ⟨herr, -⟩⟩ := leaveAggregate_ret hnext.symm <;> cases herr
      | _ => cases hnext
    obtain ⟨rfl, rfl⟩ := hinner
    have := (hguarded.inv (by simp)).level_le
    omega
  callLoop h hcall hresume hrest := by
    refine ⟨keeps_guards.callLoop h hcall.1 hresume hrest.1, ?_⟩
    intro level hinv e he hwait hdepth
    obtain ⟨hp, hrem, rfl⟩ := calls_of_step h
    obtain ⟨hframe, hcallee⟩ := hinv.callee hp
    have hresumed := resumed_of_resume hrem hresume
    have hinv' := (hresumed.loop_inv hframe (hcall.1 _ hcallee)).2
    have hstart := (hrest.2 level hinv' e he hwait hdepth).1
    obtain ⟨element, frame', -, -, rfl⟩ := hresumed.loop_cases
    exact absurd hstart frame'.state_ne_waitingForType

/-- An error raised for the first byte leaves the parser as it was. -/
theorem parse_err_of_markerState_none {p : RespParser} (hp : p.state = .waitingForType)
    {b : UInt8} (hb : markerState b = none) {rest : Bytes} {e : ProtocolError}
    (he : (parse ⟨p, b :: rest⟩).1 = .err e) : (parse ⟨p, b :: rest⟩).2.parser = p := by
  cases hstep : parseBody.step ⟨p, b :: rest⟩ with
  | call frame c =>
      exact absurd ((calls_of_step hstep).1.symm.trans hp) frame.state_ne_waitingForType
  | next next =>
      cases next with
      | loop c =>
          generalize hbuf : b :: rest = buf at hstep
          cases continues_of_step hstep with
          | marker hp' hb' rest' =>
              cases hbuf
              rw [hb] at hb'
              cases hb'
          | openBody hp' => cases hp.symm.trans hp'
          | openFrame hkeep hp' =>
              exact absurd (hp'.symm.trans hp) (hkeep.readsLine.ne_waitingForType _)
      | ret outcome c =>
          have hparse : parse ⟨p, b :: rest⟩ = (outcome, c) := parseMachine.run_of_ret hstep
          rw [hparse] at he ⊢
          generalize b :: rest = buf at hstep
          cases exits_of_step hstep with
          | badMarker => rfl
          | badLine hkeep hp' => exact absurd (hp'.symm.trans hp) (hkeep.ne_waitingForType _)
          | badBody hp' => cases hp.symm.trans hp'
          | spent hp' hrem => exact absurd (hp'.symm.trans hp) (Frame.state_ne_waitingForType _)
          | _ => cases he

/-- A run is free of panics exactly when no call ends between the CR and the LF
behind a body and is followed by a call with something to read. -/
theorem runCalls_ne_panic_iff (bulkSize arrayLen depth : Nat) (bufs : List Bytes) :
    (∀ call ∈ runCalls (.fresh bulkSize arrayLen depth) bufs, call.outcome ≠ .panic) ↔
      NeverStrands (.fresh bulkSize arrayLen depth) bufs := by
  rw [runCalls_ne_panic_iff_of_inv (RespParser.inv_fresh bulkSize arrayLen depth) bufs]
  exact and_iff_right (fun h => h.elim)

/-- An error leaves a parser as good as new exactly when the call was made
between frames, outside every aggregate, and failed on its first byte: a null, a
boolean or a byte that is no type marker. -/
theorem runCalls_err_leaves_fresh_iff (bulkSize arrayLen depth : Nat) (bufs : List Bytes)
    (call : Call) (hcall : call ∈ runCalls (.fresh bulkSize arrayLen depth) bufs)
    (e : ProtocolError) (he : call.outcome = .err e) :
    ((call.after.parser.state = .waitingForType ∧ call.after.parser.currentDepth = 0) ∧
        ∀ buf, parse ⟨call.after.parser, buf⟩ =
          parse ⟨.fresh bulkSize arrayLen depth, buf⟩) ↔
      (call.before.parser.state = .waitingForType ∧ call.before.parser.currentDepth = 0 ∧
        ∃ b rest, call.before.buf = b :: rest ∧ markerState b = none) := by
  obtain ⟨hinv, hlimits, heq⟩ :=
    runCalls_inv (RespParser.inv_fresh bulkSize arrayLen depth) bufs call hcall
  obtain ⟨⟨p, buf⟩, outcome, after⟩ := call
  dsimp only at hinv hlimits heq he ⊢
  constructor
  · rintro ⟨⟨hwait, hdepth⟩, -⟩
    have hkeeps := parseMachine.run_keeps keeps_errsEarly ⟨p, buf⟩
    rw [show parseMachine.run ⟨p, buf⟩ = _ from heq] at hkeeps
    exact hkeeps.2 0 hinv e he hwait hdepth
  · rintro ⟨hwait, hdepth, b, rest, rfl, hb⟩
    have hafter : after.parser = p := by
      have hsame : (parse ⟨p, b :: rest⟩).1 = .err e → (parse ⟨p, b :: rest⟩).2.parser = p :=
        parse_err_of_markerState_none hwait hb
      rw [heq] at hsame
      exact hsame he
    have hfresh : p = .fresh bulkSize arrayLen depth := by
      obtain ⟨hbulk, harray, hmax⟩ := hlimits
      cases p
      dsimp only at hwait hdepth hbulk harray hmax
      subst hwait hdepth hbulk harray hmax
      rfl
    rw [hafter]
    exact ⟨⟨hwait, hdepth⟩, fun buf => by rw [hfresh]⟩

end

namespace Witness

/-- A frame that is cut between its elements, read under tight limits. -/
theorem runCalls_limits_cut_array :
    (RespValue.array (some [.integer 1, .bulkString (some (ascii "ok"))])).Everywhere
        (FitsLimits (.fresh 2 2 1)) ∧
      (RespValue.array (some [.integer 1, .bulkString (some (ascii "ok"))])).nesting ≤ 1 :=
  runCalls_limits 2 2 1 [ascii "*2\r\n", ascii ":1\r\n", ascii "$2\r\nok\r\n"] _
    (List.mem_of_getElem? (i := 2) rfl) _ rfl

/-- A malformed null costs nothing but its own bytes. -/
theorem runCalls_err_bad_null :
    parse ⟨(parse ⟨RespParser.new, ascii "_ab"⟩).2.parser, ascii "+OK\r\n"⟩ =
      parse ⟨RespParser.new, ascii "+OK\r\n"⟩ :=
  ((runCalls_err_leaves_fresh_iff (512 * 1024 * 1024) 1000000 32 [ascii "_ab"] _
    (List.mem_of_getElem? (i := 0) rfl) .invalidLength rfl).mpr
    ⟨rfl, rfl, _, _, rfl, rfl⟩).2 _

/-- A malformed integer stays in the parser and spoils the frame behind it. -/
theorem runCalls_err_poisons_integer :
    ∃ call ∈ runCalls RespParser.new [ascii ":x\r\n"], call.outcome = .err .invalidLength ∧
      call.after.parser.state ≠ .waitingForType ∧
      (parse ⟨call.after.parser, ascii "+OK\r\n"⟩).1 ≠
        (parse ⟨RespParser.new, ascii "+OK\r\n"⟩).1 := by
  refine ⟨_, List.mem_of_getElem? (i := 0) rfl, rfl, ?_, ?_⟩
  · exact ParseState.noConfusion
  · exact Outcome.noConfusion

theorem runCalls_panics_on_split_terminator :
    ¬ ∀ call ∈ runCalls RespParser.new [ascii "$3\r\nabc\r", ascii "\n"],
      call.outcome ≠ .panic := by
  intro h
  exact h _ (List.mem_of_getElem? (i := 1) rfl) rfl

end Witness

end Seshat
