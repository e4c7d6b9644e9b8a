/-
A stream of scalar frames, fed chunk by chunk: every chunk is appended to the
buffer and the parser is called until it asks for more.  Which cuts the parser
survives is decided frame by frame, by the pieces a frame arrives in.
-/
import Seshat.Lib.Chunks
import Seshat.Resp.Partial
import Seshat.Resp.RoundTrip

namespace Seshat

open CallMachine Decimal

/-- A value is returned between frames. -/
def ReturnsWaiting (_ : Cursor) (outcome : Outcome) (t : Cursor) : Prop :=
  ∀ value, outcome = .ok (some value) → t.parser.state = .waitingForType

theorem Exits.returnsWaiting {p : RespParser} {buf : Bytes} {outcome : Outcome} {c : Cursor}
    (h : Exits p buf outcome c) : ReturnsWaiting ⟨p, buf⟩ outcome c := by
  rintro value rfl
  cases h with
  | immediate => rfl
  | lineValue => rfl
  | bodyValue => rfl
  | spent hp hrem buf outcome hq => exact hq

theorem Resumed.returnsWaiting {frame : Frame} {s c t : Cursor} {outcome outcome' : Outcome}
    (h : Resumed frame c outcome (.ret outcome' t)) (hcall : ReturnsWaiting s outcome c) :
    ReturnsWaiting s outcome' t := by
  rintro value rfl
  generalize hnext : Next.ret (Outcome.ok (some value)) t = next at h
  cases h with
  | closes h =>
      obtain ⟨-, ⟨hpanic, -⟩ | ⟨-, -, ht⟩⟩ := leaveAggregate_ret hnext.symm
      · cases hpanic
      · rw [ht]
        exact hcall _ rfl
  | _ => cases hnext

/-- The last byte of a line or body arrives in a chunk of its own. -/
def Torn (pieces : List Bytes) : Prop :=
  pieces.getLast? = some [10]

instance (pieces : List Bytes) : Decidable (Torn pieces) :=
  inferInstanceAs (Decidable (pieces.getLast? = some [10]))

/-- The last piece of something that ends in CRLF holds the LF alone, or CRLF. -/
theorem torn_or_crlf {whole : Bytes} {pre : List Bytes} {last : Bytes} (hlast : last ≠ [])
    (heq : pre.flatten ++ last = whole ++ crlf) :
    (Torn (pre ++ [last]) ∧ last = [10] ∧ pre.flatten = whole ++ [13]) ∨
      (¬ Torn (pre ++ [last]) ∧ ∃ tail, last = tail ++ crlf ∧ pre.flatten ++ tail = whole) := by
  have htorn : Torn (pre ++ [last]) ↔ last = [10] := by
    simp [Torn]
  obtain ⟨init, b, rfl⟩ := (List.eq_nil_or_concat' last).resolve_left hlast
  have hsplit : pre.flatten ++ init ++ [b] = whole ++ [13] ++ [10] := by
    simpa [crlf] using heq
  obtain ⟨hinit, hb⟩ := List.append_inj' hsplit rfl
  cases hb
  rcases List.eq_nil_or_concat' init with rfl | ⟨tail, c, rfl⟩
  · exact Or.inl ⟨htorn.mpr rfl, rfl, by simpa using hinit⟩
  · refine Or.inr ⟨?_, tail, ?_, ?_⟩
    · intro h
      have hlength := congrArg List.length (htorn.mp h)
      simp at hlength
    · rw [← List.append_assoc] at hinit
      cases (List.append_inj' hinit rfl).2
      simp [crlf]
    · rw [← List.append_assoc] at hinit
      exact (List.append_inj' hinit rfl).1

section

variable [F64Text]

theorem keeps_returnsWaiting : parseBody.Keeps ReturnsWaiting where
  ret h := (exits_of_step h).returnsWaiting
  loop _ hrest := hrest
  callRet h hcall hresume := by
    obtain ⟨hp, hrem, rfl⟩ := calls_of_step h
    exact (resumed_of_resume hrem hresume).returnsWaiting hcall
  callLoop _ _ _ hrest := hrest

/-- Call the parser until it answers something else than a value, at most `n`
times.  The answers, the last answer and what is left. -/
def drainFuel : Nat → Cursor → List RespValue × Outcome × Cursor
  | 0, c => ([], .ok none, c)
  | n + 1, c =>
      match parse c with
      | (.ok (some value), c') =>
          let rest := drainFuel n c'
          (value :: rest.1, rest.2)
      | (outcome, c') => ([], outcome, c')

/-- More calls than a buffer can answer with values. -/
def Cursor.calls (c : Cursor) : Nat :=
  c.buf.length + 2

/-- Call the parser until it answers something else than a value. -/
def drain (c : Cursor) : List RespValue × Outcome × Cursor :=
  drainFuel c.calls c

/-- Append the chunks one by one to the buffer and drain it each time: all
values and the last answer.  An error or a panic ends the stream. -/
def feedChunks (c : Cursor) : List Bytes → List RespValue × Outcome
  | [] => ([], .ok none)
  | chunk :: chunks =>
      match drain ⟨c.parser, c.buf ++ chunk⟩ with
      | (values, .ok none, c') =>
          let rest := feedChunks c' chunks
          (values ++ rest.1, rest.2)
      | (values, outcome, _) => (values, outcome)

/-- The bound on the calls is never reached. -/
theorem drainFuel_eq {n m : Nat} {c : Cursor} (hc : c.parser.state = .waitingForType)
    (hn : c.buf.length < n) (hm : c.buf.length < m) : drainFuel n c = drainFuel m c := by
  induction n generalizing c m with
  | zero => omega
  | succ n ih =>
      obtain ⟨m, rfl⟩ : ∃ k, m = k + 1 := ⟨m - 1, by omega⟩
      have hconsumes := parseMachine.run_keeps keeps_consumes c
      have hwaits := parseMachine.run_keeps keeps_returnsWaiting c
      rw [drainFuel, drainFuel]
      generalize hparse : parse c = answer
      rw [show parseMachine.run c = _ from hparse] at hconsumes hwaits
      obtain ⟨outcome, c'⟩ := answer
      match outcome with
      | .ok (some value) =>
          have hlt : c'.buf.length < c.buf.length := hconsumes.2 hc value rfl
          have hrest : drainFuel n c' = drainFuel m c' :=
            ih (hwaits value rfl) (by omega) (by omega)
          simp only [hrest]
      | .ok none => rfl
      | .err e => rfl
      | .panic => rfl

theorem drain_some {c c' : Cursor} {value : RespValue}
    (h : parse c = (.ok (some value), c')) :
    drain c = (value :: (drain c').1, (drain c').2) := by
  have hconsumes := parseMachine.run_keeps keeps_consumes c
  have hwaits := parseMachine.run_keeps keeps_returnsWaiting c
  rw [show parseMachine.run c = _ from h] at hconsumes hwaits
  have hle : c'.buf.length ≤ c.buf.length := hconsumes.1
  have hfuel : drainFuel (c.buf.length + 1) c' = drain c' :=
    drainFuel_eq (hwaits value rfl) (by omega) (by simp only [Cursor.calls]; omega)
  rw [drain, Cursor.calls, drainFuel, h]
  dsimp only
  rw [hfuel]

theorem drain_stop {c c' : Cursor} {outcome : Outcome} (h : parse c = (outcome, c'))
    (hstop : ∀ value, outcome ≠ .ok (some value)) : drain c = ([], outcome, c') := by
  rw [drain, Cursor.calls, drainFuel, h]
  match outcome with
  | .ok (some value) => exact absurd rfl (hstop value)
  | .ok none => rfl
  | .err e => rfl
  | .panic => rfl

/-- A value goes to the front; what is left in the buffer is fed again. -/
theorem feedChunks_some (c : Cursor) (chunk : Bytes) {c' : Cursor} {value : RespValue}
    (h : parse ⟨c.parser, c.buf ++ chunk⟩ = (.ok (some value), c')) (chunks : List Bytes) :
    feedChunks c (chunk :: chunks) =
      (value :: (feedChunks ⟨c'.parser, []⟩ (c'.buf :: chunks)).1,
        (feedChunks ⟨c'.parser, []⟩ (c'.buf :: chunks)).2) := by
  rw [feedChunks, feedChunks, drain_some h, List.nil_append]
  generalize drain c' = answer
  obtain ⟨values, outcome, c''⟩ := answer
  match outcome with
  | .ok (some _) => rfl
  | .ok none => rfl
  | .err e => rfl
  | .panic => rfl

theorem feedChunks_none (c : Cursor) (chunk : Bytes) {c' : Cursor}
    (h : parse ⟨c.parser, c.buf ++ chunk⟩ = (.ok none, c')) (chunks : List Bytes) :
    feedChunks c (chunk :: chunks) = feedChunks c' chunks := by
  rw [feedChunks, drain_stop h (by simp)]
  rfl

theorem feedChunks_err (c : Cursor) (chunk : Bytes) {c' : Cursor} {e : ProtocolError}
    (h : parse ⟨c.parser, c.buf ++ chunk⟩ = (.err e, c')) (chunks : List Bytes) :
    feedChunks c (chunk :: chunks) = ([], .err e) := by
  rw [feedChunks, drain_stop h (by simp)]

theorem feedChunks_panic (c : Cursor) (chunk : Bytes) {c' : Cursor}
    (h : parse ⟨c.parser, c.buf ++ chunk⟩ = (.panic, c')) (chunks : List Bytes) :
    feedChunks c (chunk :: chunks) = ([], .panic) := by
  rw [feedChunks, drain_stop h (by simp)]

/-- The stream goes on from any cursor that answers the first chunk alike. -/
theorem feedChunks_congr {c d : Cursor} {chunk chunk' : Bytes}
    (h : parse ⟨c.parser, c.buf ++ chunk⟩ = parse ⟨d.parser, d.buf ++ chunk'⟩)
    (chunks : List Bytes) :
    feedChunks c (chunk :: chunks) = feedChunks d (chunk' :: chunks) := by
  generalize hanswer : parse ⟨d.parser, d.buf ++ chunk'⟩ = answer at h
  obtain ⟨outcome, c'⟩ := answer
  match outcome with
  | .ok (some value) => rw [feedChunks_some c chunk h, feedChunks_some d chunk' hanswer]
  | .ok none => rw [feedChunks_none c chunk h, feedChunks_none d chunk' hanswer]
  | .err e => rw [feedChunks_err c chunk h, feedChunks_err d chunk' hanswer]
  | .panic => rw [feedChunks_panic c chunk h, feedChunks_panic d chunk' hanswer]

/-- Chunks that are consumed without an answer move the parser along. -/
theorem feedChunks_accumulate (st : Bytes → RespParser) {whole : Bytes}
    (hstep : ∀ left chunk, left ++ chunk <+: whole →
      parse ⟨st left, chunk⟩ = (.ok none, ⟨st (left ++ chunk), []⟩))
    (left : Bytes) {pre : List Bytes} (hpre : left ++ pre.flatten <+: whole)
    (chunks : List Bytes) :
    feedChunks ⟨st left, []⟩ (pre ++ chunks) =
      feedChunks ⟨st (left ++ pre.flatten), []⟩ chunks := by
  induction pre generalizing left with
  | nil => simp
  | cons chunk pre ih =>
      rw [List.flatten_cons, ← List.append_assoc] at hpre ⊢
      have hfirst := hstep left chunk ((List.prefix_append _ _).trans hpre)
      rw [List.cons_append, feedChunks_none ⟨st left, []⟩ chunk hfirst]
      exact ih _ hpre

section

variable {p : RespParser} (hp : p.state = .waitingForType)

include hp

/-- A line whose CRLF is not torn is read from some point inside it. -/
theorem feedChunks_line {b : UInt8} {keep : Bytes → ParseState}
    (hb : markerState b = some (keep [])) (hkeep : ReadsLine keep) {line : Bytes}
    (hline : CrlfFree line) {pre : List Bytes} {tail : Bytes}
    (heq : pre.flatten ++ tail = b :: line) (left : Bytes) (behind : List Bytes) :
    ∃ data more, data ++ more = line ∧
      feedChunks ⟨p, []⟩ (pre ++ (tail ++ crlf ++ left) :: behind) =
        feedChunks ⟨{ p with state := keep data }, []⟩ ((more ++ (crlf ++ left)) :: behind) := by
  have hbegin : [] ++ pre.flatten <+: b :: (line ++ [13]) := by
    rw [List.nil_append, ← List.cons_append, ← heq, List.append_assoc]
    exact List.prefix_append _ _
  have hmove := feedChunks_accumulate (p.inLine keep) (parse_inLine hp hb hkeep hline) []
    hbegin ((tail ++ crlf ++ left) :: behind)
  obtain ⟨data, more, hdata, hparse⟩ := parse_inLine_rest hp hb heq (crlf ++ left)
  refine ⟨data, more, hdata, hmove.trans (feedChunks_congr ?_ behind)⟩
  simpa using hparse

/-- A line whose CRLF is torn has taken over the CR. -/
theorem feedChunks_torn_line {b : UInt8} {keep : Bytes → ParseState}
    (hb : markerState b = some (keep [])) (hkeep : ReadsLine keep) {line : Bytes}
    (hline : CrlfFree line) {pre : List Bytes} (heq : pre.flatten = b :: line ++ [13])
    (chunks : List Bytes) :
    feedChunks ⟨p, []⟩ (pre ++ chunks) =
      feedChunks ⟨{ p with state := keep (line ++ [13]) }, []⟩ chunks := by
  have hmove := feedChunks_accumulate (p.inLine keep) (parse_inLine hp hb hkeep hline) []
    (by rw [heq]; exact List.prefix_rfl) chunks
  rw [heq] at hmove
  exact hmove

/-- A line arrives torn, with its CR taken over, or is read from some point inside
it; what is left of the chunks starts behind it. -/
theorem feedChunks_arrives {b : UInt8} {keep : Bytes → ParseState}
    (hb : markerState b = some (keep [])) (hkeep : ReadsLine keep) {line rest : Bytes}
    (hline : CrlfFree line) {chunks : List Bytes}
    (heq : chunks.flatten = (b :: line ++ crlf) ++ rest) :
    (Torn (Chunks.take (line.length + 3) chunks) ∧ ∃ behind,
      feedChunks ⟨p, []⟩ chunks =
        feedChunks ⟨{ p with state := keep (line ++ [13]) }, []⟩ behind) ∨
    (¬ Torn (Chunks.take (line.length + 3) chunks) ∧ ∃ data more left behind,
      data ++ more = line ∧ Chunks.drop (line.length + 3) chunks = left :: behind ∧
      (left :: behind).flatten = rest ∧ feedChunks ⟨p, []⟩ chunks =
        feedChunks ⟨{ p with state := keep data }, []⟩ ((more ++ (crlf ++ left)) :: behind)) := by
  obtain ⟨pre, last, left, behind, rfl, hcover, hlast, htake, hdrop, hrest⟩ :=
    Chunks.cover (by simp) heq
  have hlength : (b :: line ++ crlf).length = line.length + 3 := by
    simp [crlf]
  rw [hlength] at htake hdrop
  rw [htake, hdrop]
  rcases torn_or_crlf hlast hcover with ⟨htorn, rfl, hpre⟩ | ⟨htorn, tail, rfl, hpre⟩
  · exact Or.inl ⟨htorn, _, feedChunks_torn_line hp hb hkeep hline hpre _⟩
  · obtain ⟨data, more, hdata, hfeed⟩ := feedChunks_line hp hb hkeep hline hpre left behind
    exact Or.inr ⟨htorn, data, more, left, behind, hdata, rfl, hrest, hfeed⟩

end

/-- A length that has taken over its CR yields no value any more. -/
theorem feedChunks_stuck {keep : Bytes → ParseState} (hkeep : ReadsLen keep) {c : Cursor}
    (hstuck : c.parser.Stuck keep) (chunks : List Bytes) : (feedChunks c chunks).1 = [] := by
  induction chunks generalizing c with
  | nil => rfl
  | cons chunk chunks ih =>
      have hcall := hkeep.parse_of_stuck hstuck (c.buf ++ chunk)
      generalize hparse : parse ⟨c.parser, c.buf ++ chunk⟩ = answer at hcall
      obtain ⟨outcome, c'⟩ := answer
      rcases hcall.1 with hnone | ⟨e, herr⟩
      · obtain rfl : outcome = .ok none := hnone
        rw [feedChunks_none c chunk hparse]
        exact ih hcall.2
      · obtain rfl : outcome = .err e := herr
        rw [feedChunks_err c chunk hparse]

/-- A text that has taken over its CR yields another value, if any. -/
theorem LineKind.value_ne (kind : LineKind) {line : Bytes} (tail : Bytes)
    {value value' : RespValue} (hvalue : kind.value line = some value)
    (hvalue' : kind.value (line ++ 13 :: tail) = some value') : value' ≠ value := by
  rintro rfl
  have hlength : line ≠ line ++ 13 :: tail := by
    intro h
    have := congrArg List.length h
    simp at this
  cases kind with
  | simpleString => exact hlength (by simpa [LineKind.value] using hvalue.trans hvalue'.symm)
  | error => exact hlength (by simpa [LineKind.value] using hvalue.trans hvalue'.symm)
  | bigNumber => exact hlength (by simpa [LineKind.value] using hvalue.trans hvalue'.symm)
  | integer =>
      obtain ⟨i, hi, -⟩ := Option.map_eq_some_iff.mp hvalue'
      exact cr_not_mem_of_parseI64 hi (by simp)
  | double =>
      obtain ⟨d, hd, -⟩ := Option.map_eq_some_iff.mp hvalue'
      exact cr_not_mem_of_parseDouble hd (by simp)

theorem feedChunks_spoiled_line {kind : LineKind} {line : Bytes} {value : RespValue}
    (hvalue : kind.value line = some value) {p : RespParser} {tail : Bytes}
    (hp : p.state = .line kind (line ++ 13 :: tail)) (chunks : List Bytes) :
    (feedChunks ⟨p, []⟩ chunks).1.head? ≠ some value := by
  induction chunks generalizing p tail with
  | nil => simp [feedChunks]
  | cons chunk chunks ih =>
      rcases crlfFree_or_line chunk with hfree | ⟨more, rest, hmore, rfl⟩
      · have hparse := (ReadsLine.line kind).parse_more hp hfree
        rw [feedChunks_none ⟨p, []⟩ chunk hparse]
        exact @ih _ (tail ++ chunk) (by simp)
      · cases hcomplete : kind.value (line ++ 13 :: tail ++ more) with
        | some value' =>
            have hne : value' ≠ value :=
              kind.value_ne (tail ++ more) hvalue (by simpa using hcomplete)
            have hparse := parse_line (p := p) hmore hcomplete rest
            rw [← hp] at hparse
            rw [feedChunks_some ⟨p, []⟩ (more ++ (crlf ++ rest)) hparse]
            simpa using hne
        | none =>
            have hparse : parse ⟨p, more ++ (crlf ++ rest)⟩ = (.err .invalidLength,
                ⟨{ p with state := .line kind (line ++ 13 :: tail ++ more) }, rest⟩) := by
              apply parse_of_answer
              simp only [parseStep, hp, lineStep, withLine_line hmore, hcomplete]
            rw [feedChunks_err ⟨p, []⟩ (more ++ (crlf ++ rest)) hparse]
            simp

/-- A stranded body panics at the next byte. -/
theorem feedChunks_stranded {p : RespParser} {kind : BulkKind} {len : Nat} {data : Bytes}
    (hp : p.state = .bulkData kind len data) (hdata : data.length = len + 1)
    {chunks : List Bytes} (hchunks : chunks.flatten ≠ []) :
    (feedChunks ⟨p, []⟩ chunks).1 = [] := by
  induction chunks with
  | nil => exact absurd rfl hchunks
  | cons chunk chunks ih =>
      by_cases hchunk : chunk = []
      · subst hchunk
        have hparse : parse ⟨p, []⟩ = (.ok none, ⟨p, []⟩) := by
          rw [parse_bulkData_more hp (by simp [hdata]), List.append_nil, ← hp]
        rw [feedChunks_none ⟨p, []⟩ [] hparse]
        exact ih (by simpa using hchunks)
      · have hpanic : (parse ⟨p, chunk⟩).1 = .panic :=
          parse_stranded (by rw [hp]; exact hdata) hchunk
        generalize hparse : parse ⟨p, chunk⟩ = answer at hpanic
        obtain ⟨outcome, c'⟩ := answer
        obtain rfl : outcome = .panic := hpanic
        rw [feedChunks_panic ⟨p, []⟩ chunk hparse]

end

end Seshat
