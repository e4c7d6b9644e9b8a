/-
Answers are final.  Whatever the parser decides about a buffer, a value or an error, it
decides without looking at the bytes behind: with more of them in the buffer it gives the
same answer and leaves them untouched.  Only a call that asks for more can come out
differently.
-/
import Seshat.Resp.Streaming

namespace Seshat

open CallMachine Decimal

/-- The cursor with more bytes behind its buffer. -/
def Cursor.extend (more : Bytes) (c : Cursor) : Cursor :=
  ⟨c.parser, c.buf ++ more⟩

/-- The same end of a pass, with more bytes left. -/
def extendNext (more : Bytes) : Next Cursor Outcome → Next Cursor Outcome
  | .ret outcome c => .ret outcome (c.extend more)
  | .loop c => .loop (c.extend more)

/-- The same pass, with more bytes left. -/
def extendPass (more : Bytes) : Pass → Pass
  | .next next => .next (extendNext more next)
  | .call frame c => .call frame (c.extend more)

/-- A pass asks for more, or it goes the same way with more bytes at hand. -/
def Settled (more : Bytes) (short long : Pass) : Prop :=
  (∃ c, short = .next (.ret (.ok none) c)) ∨ long = extendPass more short

section Passes

variable {more : Bytes}

theorem settled_answer (outcome : Outcome) (p : RespParser) (buf : Bytes) :
    Settled more (answer outcome p buf) (answer outcome p (buf ++ more)) :=
  Or.inr rfl

theorem settled_more (p : RespParser) (buf : Bytes) (long : Pass) :
    Settled more (answer (.ok none) p buf) long :=
  Or.inl ⟨_, rfl⟩

theorem settled_again (p : RespParser) (buf : Bytes) :
    Settled more (again p buf) (again p (buf ++ more)) :=
  Or.inr rfl

theorem settled_complete (value : RespValue) (p : RespParser) (buf : Bytes) :
    Settled more (complete value p buf) (complete value p (buf ++ more)) :=
  Or.inr rfl

/-- A line is cut off at its first CRLF, whatever comes behind. -/
theorem settled_withLine {p : RespParser} {buf data : Bytes} {keep : Bytes → ParseState}
    {finish : RespParser → Bytes → Bytes → Pass}
    (hfinish : ∀ p line rest,
      Settled more (finish p line rest) (finish p line (rest ++ more))) :
    Settled more (withLine p buf keep data finish)
      (withLine p (buf ++ more) keep data finish) := by
  rcases crlfFree_or_line buf with hfree | ⟨line, rest, hline, rfl⟩
  · rw [withLine_more hfree]
    exact settled_more _ _ _
  · rw [withLine_line hline, List.append_assoc, List.append_assoc, withLine_line hline]
    exact hfinish _ _ _

variable [F64Text]

theorem settled_lineStep (kind : LineKind) (p : RespParser) (buf data : Bytes) :
    Settled more (lineStep kind p buf data) (lineStep kind p (buf ++ more) data) := by
  refine settled_withLine fun p line rest => ?_
  cases kind.value line with
  | none => exact settled_answer _ _ _
  | some value => exact settled_complete _ _ _

omit [F64Text] in
theorem settled_lenStep {p : RespParser} {buf : Bytes} {keep : Bytes → ParseState}
    {lenBytes : Bytes} {null : Option RespValue} {enter : RespParser → Nat → Bytes → Pass}
    (henter : ∀ p len rest, Settled more (enter p len rest) (enter p len (rest ++ more))) :
    Settled more (lenStep p buf keep lenBytes null enter)
      (lenStep p (buf ++ more) keep lenBytes null enter) := by
  refine settled_withLine fun p line rest => ?_
  cases parseI64 line with
  | none => exact settled_answer _ _ _
  | some len =>
      dsimp only
      split
      · exact settled_complete _ _ _
      · split
        · exact settled_answer _ _ _
        · exact henter _ _ _

omit [F64Text] in
theorem settled_emptyBulk (kind : BulkKind) (value : RespValue) (p : RespParser)
    (buf : Bytes) :
    Settled more (emptyBulk kind value p buf) (emptyBulk kind value p (buf ++ more)) := by
  match buf with
  | [] => exact settled_more _ _ _
  | [_] => exact settled_more _ _ _
  | a :: b :: rest =>
      simp only [emptyBulk, List.cons_append]
      split
      · exact settled_answer _ _ _
      · exact settled_complete _ _ _

omit [F64Text] in
theorem settled_enter (kind : BulkKind) (p : RespParser) (len : Nat) (buf : Bytes) :
    Settled more (kind.enter p len buf) (kind.enter p len (buf ++ more)) := by
  simp only [BulkKind.enter]
  split
  · exact settled_answer _ _ _
  · cases kind with
    | bulkString =>
        dsimp only
        split
        · exact settled_emptyBulk _ _ _ _
        · exact settled_again _ _
    | bulkError =>
        dsimp only
        split
        · exact settled_emptyBulk _ _ _ _
        · exact settled_again _ _
    | verbatimString =>
        dsimp only
        split
        · exact settled_answer _ _ _
        · exact settled_again _ _

omit [F64Text] in
theorem settled_enterAggregate (empty : RespValue) (state : Nat → ParseState)
    (p : RespParser) (len : Nat) (buf : Bytes) :
    Settled more (enterAggregate empty state p len buf)
      (enterAggregate empty state p len (buf ++ more)) := by
  simp only [enterAggregate]
  split
  · exact settled_answer _ _ _
  · split
    · exact settled_complete _ _ _
    · split
      · exact settled_answer _ _ _
      · exact settled_again _ _

omit [F64Text] in
theorem slice_append {buf : Bytes} {start stop : Nat} {part : Bytes}
    (h : slice buf start stop = some part) : slice (buf ++ more) start stop = some part := by
  unfold slice at h ⊢
  split at h
  · rename_i hbounds
    rw [if_pos ⟨hbounds.1, by rw [List.length_append]; omega⟩]
    rwa [List.take_append_of_le_length hbounds.2]
  · contradiction

omit [F64Text] in
theorem advance_append {buf rest : Bytes} {count : Nat} (h : advance buf count = some rest) :
    advance (buf ++ more) count = some (rest ++ more) := by
  unfold advance at h ⊢
  split at h
  · rename_i hcount
    cases h
    rw [if_pos (by rw [List.length_append]; omega), List.drop_append_of_le_length hcount]
  · contradiction

omit [F64Text] in
theorem settled_bulkDataStep (kind : BulkKind) (p : RespParser) (buf : Bytes) (len : Nat)
    (data : Bytes) :
    Settled more (bulkDataStep kind p buf len data)
      (bulkDataStep kind p (buf ++ more) len data) := by
  simp only [bulkDataStep]
  cases hneeded : checkedSub (len + 2) data.length with
  | none => exact settled_answer _ _ _
  | some needed =>
      dsimp only
      by_cases hshort : buf.length < needed
      · rw [if_pos hshort]
        exact settled_more _ _ _
      · rw [if_neg hshort, if_neg (by rw [List.length_append]; omega)]
        cases hdata : checkedSub len data.length with
        | none => exact settled_answer _ _ _
        | some dataNeeded =>
            -- the body and its terminator are at hand, so that no slice fails
            have hlength : dataNeeded + 2 ≤ buf.length := by
              simp only [checkedSub, Option.ite_none_right_eq_some, Option.some.injEq]
                at hneeded hdata
              omega
            have hbody : slice buf 0 dataNeeded = some ((buf.take dataNeeded).drop 0) :=
              if_pos ⟨Nat.zero_le _, by omega⟩
            have hend : slice buf dataNeeded (dataNeeded + 2) =
                some ((buf.take (dataNeeded + 2)).drop dataNeeded) :=
              if_pos ⟨by omega, hlength⟩
            have hrest : advance buf (dataNeeded + 2) = some (buf.drop (dataNeeded + 2)) :=
              if_pos hlength
            simp only [hbody, hend, hrest, slice_append hbody, slice_append hend,
              advance_append hrest]
            split
            · exact settled_answer _ _ _
            · split
              · exact settled_complete _ _ _
              · exact settled_answer _ _ _

omit [F64Text] in
theorem settled_leaveAggregate (value : RespValue) (p : RespParser) (buf : Bytes) :
    leaveAggregate value p (buf ++ more) = extendNext more (leaveAggregate value p buf) := by
  unfold leaveAggregate
  cases checkedSub p.currentDepth 1 <;> rfl

omit [F64Text] in
theorem settled_aggregateStep (frame : Frame) (p : RespParser) (buf : Bytes) :
    Settled more (aggregateStep frame p buf) (aggregateStep frame p (buf ++ more)) := by
  refine Or.inr ?_
  match frame with
  | .seq kind 0 elems => exact congrArg Act.next (settled_leaveAggregate _ _ _)
  | .seq kind (rem + 1) elems => rfl
  | .map 0 pairs key => exact congrArg Act.next (settled_leaveAggregate _ _ _)
  | .map (rem + 1) pairs key => rfl

omit [F64Text] in
theorem settled_typeStep (typeByte : UInt8) (p : RespParser) (buf : Bytes) :
    Settled more (typeStep typeByte p buf) (typeStep typeByte p (buf ++ more)) := by
  unfold typeStep
  split
  case h_6 =>
    match buf with
    | [] => exact settled_more _ _ _
    | [_] => exact settled_more _ _ _
    | a :: b :: rest =>
        simp only [List.cons_append]
        split
        · exact settled_answer _ _ _
        · exact settled_complete _ _ _
  case h_7 =>
    match buf with
    | [] => exact settled_more _ _ _
    | [_] => exact settled_more _ _ _
    | [_, _] => exact settled_more _ _ _
    | val :: a :: b :: rest =>
        simp only [List.cons_append]
        split
        · exact settled_answer _ _ _
        · exact settled_complete _ _ _
  all_goals first
    | exact settled_again _ _
    | exact settled_answer _ _ _

omit [F64Text] in
theorem settled_waitingStep (p : RespParser) (buf : Bytes) :
    Settled more (waitingStep p buf) (waitingStep p (buf ++ more)) := by
  cases buf with
  | nil => exact settled_more _ _ _
  | cons typeByte buf => exact settled_typeStep typeByte p buf

/-- One pass through the loop. -/
theorem settled_parseStep (more : Bytes) (c : Cursor) :
    Settled more (parseStep c) (parseStep (c.extend more)) := by
  obtain ⟨p, buf⟩ := c
  simp only [parseStep, Cursor.extend]
  split
  · exact settled_waitingStep _ _
  · exact settled_lineStep _ _ _ _
  · exact settled_lenStep fun p len rest => settled_enter _ p len rest
  · exact settled_bulkDataStep _ _ _ _ _
  · exact settled_lenStep fun p len rest => settled_enterAggregate _ _ p len rest
  · exact settled_lenStep fun p len rest => settled_enterAggregate _ _ p len rest
  · exact settled_aggregateStep _ _ _
  · exact settled_aggregateStep _ _ _

omit [F64Text] in
/-- The code behind the recursive call does not look at the buffer. -/
theorem parseResume_extend {outcome : Outcome} (hdecided : outcome ≠ .ok none) (frame : Frame)
    (c : Cursor) :
    parseResume frame outcome (c.extend more) =
      extendNext more (parseResume frame outcome c) := by
  match outcome with
  | .err e => rfl
  | .panic => rfl
  | .ok none => exact absurd rfl hdecided
  | .ok (some element) =>
      match frame with
      | .map rem pairs none => rfl
      | .map rem pairs (some key) =>
          simp only [parseResume]
          split
          · rfl
          · exact settled_leaveAggregate _ _ _
          · rfl
      | .seq kind rem elems =>
          simp only [parseResume]
          split
          · rfl
          · exact settled_leaveAggregate _ _ _
          · rfl

omit [F64Text] in
/-- A frame that was given no element asks for more itself. -/
theorem parseResume_missing (frame : Frame) (c : Cursor) :
    parseResume frame (.ok none) c =
      .ret (.ok none) ⟨{ c.parser with state := frame.state }, c.buf⟩ := rfl

end Passes

section Calls

variable [F64Text]

/-- What a call decides it decides again with more bytes behind. -/
def Decides (more : Bytes) (s : Cursor) (outcome : Outcome) (t : Cursor) : Prop :=
  outcome ≠ .ok none → parse (s.extend more) = (outcome, t.extend more)

/-- A pass that does not ask for more. -/
theorem step_extend {s : Cursor} {pass : Pass} (h : parseBody.step s = pass)
    (hdecided : ∀ c, pass ≠ .next (.ret (.ok none) c)) (more : Bytes) :
    parseMachine.step (s.extend more) = extendPass more pass := by
  subst h
  rcases settled_parseStep more s with ⟨c, hmore⟩ | hlong
  · exact absurd hmore (hdecided c)
  · exact hlong

/-- A callee that asked for more would have ended the call. -/
theorem resume_extend {frame : Frame} {outcome : Outcome} {c : Cursor}
    {next : Next Cursor Outcome} (h : parseBody.resume frame outcome c = next)
    (hdecided : ∀ c, next ≠ .ret (.ok none) c) (more : Bytes) :
    outcome ≠ .ok none ∧
      parseMachine.resume frame outcome (c.extend more) = extendNext more next := by
  subst h
  have hinner : outcome ≠ .ok none := by
    rintro rfl
    exact hdecided _ (parseResume_missing frame c)
  exact ⟨hinner, parseResume_extend hinner frame c⟩

theorem keeps_decides (more : Bytes) : parseBody.Keeps (Decides more) where
  ret {s r t} h hdecided := by
    refine parseMachine.run_of_ret (step_extend h ?_ more)
    rintro c ⟨⟩
    exact hdecided rfl
  loop {s s' r t} h hrest hdecided := by
    have hloop := parseMachine.run_of_loop (step_extend h (by simp) more)
    exact hloop.trans (hrest hdecided)
  callRet {s k s₀ r s₁ r' t} h hcall hresume hdecided := by
    have hends : ∀ c, Next.ret r' t ≠ .ret (.ok none) c := by
      rintro c ⟨⟩
      exact hdecided rfl
    obtain ⟨hinner, hback⟩ := resume_extend hresume hends more
    have hrun : parseMachine.run (s₀.extend more) = (r, s₁.extend more) := hcall hinner
    refine parseMachine.run_of_callRet (step_extend h (by simp) more) ?_
    rw [hrun]
    exact hback
  callLoop {s k s₀ r s₁ s' r' t} h hcall hresume hrest hdecided := by
    obtain ⟨hinner, hback⟩ := resume_extend hresume (by simp) more
    have hrun : parseMachine.run (s₀.extend more) = (r, s₁.extend more) := hcall hinner
    have hloop : parseMachine.run (s.extend more) = parseMachine.run (s'.extend more) := by
      refine parseMachine.run_of_callLoop (step_extend h (by simp) more) ?_
      rw [hrun]
      exact hback
    exact hloop.trans (hrest hdecided)

theorem parse_extend {c c' : Cursor} {outcome : Outcome} (h : parse c = (outcome, c'))
    (hdecided : outcome ≠ .ok none) (more : Bytes) :
    parse (c.extend more) = (outcome, c'.extend more) := by
  have hkeeps := parseMachine.run_keeps (keeps_decides more) c
  rw [show parseMachine.run c = _ from h] at hkeeps
  exact hkeeps hdecided

/-- Draining a longer buffer begins with the answers to the shorter one, and ends with them
where the shorter one ends in an error. -/
structure DrainsFirst (more : Bytes) (c : Cursor) : Prop where
  values : (drain c).1 <+: (drain (c.extend more)).1
  ends : (drain c).2.1 ≠ .ok none →
    drain (c.extend more) = ((drain c).1, (drain c).2.1, (drain c).2.2.extend more)

theorem DrainsFirst.cons {more : Bytes} {c c' : Cursor} {value : RespValue}
    (hparse : parse c = (.ok (some value), c')) (hrest : DrainsFirst more c') :
    DrainsFirst more c := by
  have hlong := parse_extend hparse (by simp) more
  constructor
  · rw [drain_some hparse, drain_some hlong]
    exact List.cons_prefix_cons.mpr ⟨rfl, hrest.values⟩
  · rw [drain_some hparse, drain_some hlong]
    intro hdecided
    rw [hrest.ends hdecided]

/-- A call that gives no value. -/
theorem DrainsFirst.stop {more : Bytes} {c c' : Cursor} {outcome : Outcome}
    (hparse : parse c = (outcome, c')) (hstop : ∀ value, outcome ≠ .ok (some value)) :
    DrainsFirst more c := by
  constructor
  · rw [drain_stop hparse hstop]
    exact List.nil_prefix
  · rw [drain_stop hparse hstop]
    intro hdecided
    exact drain_stop (parse_extend hparse hdecided more) hstop

theorem drainsFirst_of_waiting {more : Bytes} {c : Cursor}
    (hc : c.parser.state = .waitingForType) : DrainsFirst more c := by
  induction hn : c.buf.length using Nat.strong_induction_on generalizing c with
  | _ n ih =>
      have hconsumes := parseMachine.run_keeps keeps_consumes c
      have hwaits := parseMachine.run_keeps keeps_returnsWaiting c
      generalize hparse : parse c = answer
      rw [show parseMachine.run c = _ from hparse] at hconsumes hwaits
      obtain ⟨outcome, c'⟩ := answer
      match outcome with
      | .ok (some value) =>
          have hlt : c'.buf.length < c.buf.length := hconsumes.2 hc value rfl
          exact .cons hparse (ih _ (hn ▸ hlt) (hwaits value rfl) rfl)
      | .ok none => exact .stop hparse (by simp)
      | .err e => exact .stop hparse (by simp)
      | .panic => exact .stop hparse (by simp)

/-- Everything a parser makes of a buffer it makes of every longer buffer first, from
whatever state it is in: the values come first, and an error or a panic comes again with
the bytes behind it untouched. -/
theorem drain_answers_final (c : Cursor) (more : Bytes) : DrainsFirst more c := by
  have hwaits := parseMachine.run_keeps keeps_returnsWaiting c
  generalize hparse : parse c = answer
  rw [show parseMachine.run c = _ from hparse] at hwaits
  obtain ⟨outcome, c'⟩ := answer
  match outcome with
  | .ok (some value) => exact .cons hparse (drainsFirst_of_waiting (hwaits value rfl))
  | .ok none => exact .stop hparse (by simp)
  | .err e => exact .stop hparse (by simp)
  | .panic => exact .stop hparse (by simp)

end Calls

end Seshat
