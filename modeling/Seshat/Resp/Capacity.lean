/-
Room that is reserved ahead.  A body and an aggregate are opened with `with_capacity` for
everything that was announced, before any of it has arrived.  That can be more than a
`Vec` may hold or than the allocator has; then the call ends without an answer.  Otherwise
it is the call that `parse` describes.
-/
import Seshat.Lib.Refusal
import Seshat.Resp.Bounds

namespace Seshat

open CallMachine Decimal

/-- `isize::MAX`, the most bytes a `Vec` may take. -/
def isizeMax : Nat := 2 ^ 63 - 1

/-- The sizes of a value and of a pair of values, and which blocks the allocator grants.
The same block may be granted at one place of a call and not at the next. -/
structure Heap where
  valueSize : Nat
  pairSize : Nat
  grants : Cursor → Nat → Bool

/-- Why `with_capacity` does not return: it panics, or it aborts the process. -/
inductive Refusal where
  | capacityOverflow | allocFailed
deriving DecidableEq, Repr

/-- `with_capacity(len)` for elements of a size. -/
def Heap.withCapacity (heap : Heap) (c : Cursor) (size len : Nat) : Option Refusal :=
  if size * len > isizeMax then some .capacityOverflow
  else if heap.grants c (size * len) then none
  else some .allocFailed

/-- The request a state is opened with: a body for its bytes, an aggregate for its
elements. -/
def Heap.reserve (heap : Heap) (c : Cursor) : ParseState → Option Refusal
  | .bulkData _ len _ => heap.withCapacity c 1 len
  | .seqData _ len _ => heap.withCapacity c heap.valueSize len
  | .mapData len _ _ => heap.withCapacity c heap.pairSize len
  | _ => none

/-- A length state that has taken over the end of its line. -/
def ParseState.takeLine (line : Bytes) : ParseState → ParseState
  | .bulkLen kind lenBytes => .bulkLen kind (lenBytes ++ line)
  | .seqLen kind lenBytes => .seqLen kind (lenBytes ++ line)
  | .mapLen lenBytes => .mapLen (lenBytes ++ line)
  | state => state

/-- The request of a pass that goes round the loop.  A refused one leaves the length state
where it is; the nesting counter has already gone up. -/
def refuseRoom (heap : Heap) (c t : Cursor) : Option (Refusal × Cursor) :=
  (heap.reserve c t.parser.state).map fun refusal =>
    let line := c.buf.take ((findCrlf c.buf).getD 0)
    (refusal, ⟨{ t.parser with state := c.parser.state.takeLine line }, t.buf⟩)

/-- Some count within the limits asks for more room than there is. -/
def Heap.Refuses (heap : Heap) (bulkSize arrayLen : Nat) (refusal : Refusal) : Prop :=
  ∃ c, (∃ len ≤ bulkSize, heap.withCapacity c 1 len = some refusal) ∨
    ∃ len ≤ arrayLen, heap.withCapacity c heap.valueSize len = some refusal ∨
      heap.withCapacity c heap.pairSize len = some refusal

theorem Heap.withCapacity_eq_overflow_iff {heap : Heap} {c : Cursor} {size len : Nat} :
    heap.withCapacity c size len = some .capacityOverflow ↔ isizeMax < size * len := by
  rw [withCapacity]
  split
  · simp_all
  · split <;> simp_all

/-- Room overflows somewhere exactly if it does at the limits. -/
theorem Heap.refuses_overflow_iff {heap : Heap} {bulkSize arrayLen : Nat} :
    heap.Refuses bulkSize arrayLen .capacityOverflow ↔
      isizeMax < bulkSize ∨ isizeMax < heap.valueSize * arrayLen ∨
        isizeMax < heap.pairSize * arrayLen := by
  simp only [Refuses, withCapacity_eq_overflow_iff, Nat.one_mul]
  constructor
  · rintro ⟨-, ⟨len, hle, hlt⟩ | ⟨len, hle, hlt | hlt⟩⟩
    · exact .inl (hlt.trans_le hle)
    · exact .inr (.inl (hlt.trans_le (Nat.mul_le_mul_left _ hle)))
    · exact .inr (.inr (hlt.trans_le (Nat.mul_le_mul_left _ hle)))
  · intro hlt
    refine ⟨⟨.fresh bulkSize arrayLen 0, []⟩, ?_⟩
    rcases hlt with hlt | hlt | hlt
    · exact .inl ⟨bulkSize, le_rfl, hlt⟩
    · exact .inr ⟨arrayLen, le_rfl, .inl hlt⟩
    · exact .inr ⟨arrayLen, le_rfl, .inr hlt⟩

/-- Only what the limits admit is asked for. -/
theorem Continues.refuses {p : RespParser} {buf : Bytes} {t : Cursor} (h : Continues p buf t)
    {heap : Heap} {c : Cursor} {refusal : Refusal}
    (hrefused : heap.reserve c t.parser.state = some refusal) :
    heap.Refuses p.maxBulkSize p.maxArrayLen refusal := by
  cases h with
  | marker hp hb rest =>
      obtain ⟨keep, hkeep, rfl⟩ := readsLine_of_markerState hb
      cases hkeep <;> simp [Heap.reserve] at hrefused
  | openBody hp hline hlen hmin hmax rest => exact ⟨c, .inl ⟨_, hmax, hrefused⟩⟩
  | @openFrame keep hkeep lenBytes hp frame hframe hempty hdepth line rest =>
      cases frame with
      | seq kind rem elems => exact ⟨c, .inr ⟨rem, hframe.2, .inl hrefused⟩⟩
      | map rem pairs key => exact ⟨c, .inr ⟨rem, hframe.2, .inr hrefused⟩⟩

/-- The values among the answers of a call that reserves room. -/
def producedWithin (answers : List (Except Refusal Outcome)) : Nat :=
  answers.countP fun answer => answer.toOption.any Outcome.isValue

theorem producedWithin_answers (answers : List Outcome) (errors : List Refusal) :
    producedWithin (answers.map .ok ++ errors.map .error) = produced answers := by
  have herrors : (errors.map (.error : Refusal → Except Refusal Outcome)).countP
      (fun answer => answer.toOption.any Outcome.isValue) = 0 := by
    simp [List.countP_eq_zero, Except.toOption]
  rw [producedWithin, List.countP_append, herrors, Nat.add_zero, List.countP_map]
  rfl

/-- A call that reserves room on a heap, with what it answers and leaves if it was not
refused. -/
structure ReservingCall where
  heap : Heap
  before : Cursor
  ended : Except Refusal Outcome
  after : Cursor

section

variable [F64Text]

/-- The parser's loop with the room it reserves. -/
def reservingMachine (heap : Heap) : Machine Cursor (Except Refusal Outcome) Frame :=
  parseMachine.guarded (refuseRoom heap)

/-- `RespParser::parse` with the room it reserves. -/
def parseReserving (heap : Heap) (c : Cursor) : Except Refusal Outcome × Cursor :=
  (reservingMachine heap).run c

/-- Successive calls on one parser, each with the heap it meets, up to the first that
does not return. -/
def reservingCalls (p : RespParser) : List (Heap × Bytes) → List ReservingCall
  | [] => []
  | (heap, buf) :: bufs =>
      let answer := parseReserving heap ⟨p, buf⟩
      ⟨heap, ⟨p, buf⟩, answer.1, answer.2⟩ ::
        match answer.1 with
        | .error _ => []
        | .ok .panic => []
        | .ok _ => reservingCalls answer.2.parser bufs

/-- A call that was not refused any room is a call of `parse`. -/
theorem parse_of_parseReserving {heap : Heap} {c : Cursor} {outcome : Outcome}
    (h : (parseReserving heap c).1 = .ok outcome) :
    parse c = (outcome, (parseReserving heap c).2) :=
  parseMachine.run_of_guarded_ok (refuseRoom heap) h

/-- Every call starts like a call of the run without reservations. -/
theorem exists_call_of_reserving {p : RespParser} {bufs : List (Heap × Bytes)}
    {call : ReservingCall} (hcall : call ∈ reservingCalls p bufs) :
    (∃ call' ∈ runCalls p (bufs.map Prod.snd), call'.before = call.before) ∧
      parseReserving call.heap call.before = (call.ended, call.after) := by
  induction bufs generalizing p with
  | nil => simp [reservingCalls] at hcall
  | cons request bufs ih =>
      obtain ⟨heap, buf⟩ := request
      rw [reservingCalls, List.mem_cons] at hcall
      rcases hcall with rfl | hcall
      · exact ⟨⟨_, by rw [List.map_cons, runCalls]; exact List.mem_cons_self, rfl⟩, rfl⟩
      · cases hended : (parseReserving heap ⟨p, buf⟩).1 with
        | error refusal => simp [hended] at hcall
        | ok outcome =>
            have hparse := parse_of_parseReserving hended
            have hreturned : outcome ≠ .panic := by
              rintro rfl
              simp [hended] at hcall
            have hnext :
                call ∈ reservingCalls (parseReserving heap ⟨p, buf⟩).2.parser bufs := by
              cases outcome with
              | panic => exact absurd rfl hreturned
              | ok value => simpa [hended] using hcall
              | err e => simpa [hended] using hcall
            obtain ⟨⟨call', hmem, hbefore⟩, heq⟩ := ih hnext
            refine ⟨⟨call', ?_, hbefore⟩, heq⟩
            rw [List.map_cons, runCalls_cons _ (by rw [hparse]; exact hreturned), hparse]
            exact List.mem_cons_of_mem _ hmem

/-- Where a call that reserves room has got to, seen from the calls of `parse`. -/
theorem stands_of_reserving {heap : Heap} {c : Cursor}
    {answers : List (Except Refusal Outcome)} {place : Config Cursor (Except Refusal Outcome) Frame}
    (h : (reservingMachine heap).Moves (.running [] c) answers place) :
    parseBody.Stands (refuseRoom heap) (.running [] c) answers place :=
  Body.stands_of_moves h

/-- A call is only refused the room for a count within the limits. -/
theorem refuses_of_error {heap : Heap} {p : RespParser} (hinv : p.Inv 0) {buf : Bytes}
    {refusal : Refusal} (h : (parseReserving heap ⟨p, buf⟩).1 = .error refusal) :
    heap.Refuses p.maxBulkSize p.maxArrayLen refusal := by
  obtain ⟨answers, hends⟩ := (reservingMachine heap).moves_run [] ⟨p, buf⟩
  rw [show ((reservingMachine heap).run ⟨p, buf⟩).1 = _ from h] at hends
  cases stands_of_reserving hends with
  | @free answers₀ c₀ h hanswers hc => cases c₀ <;> cases hc
  | @refused answers₀ errors waiting stack s t u e h hstep hrefuse hanswers hc =>
      cases hc
      obtain ⟨hlimits, -⟩ := (moves_standsWithin hinv h).running _ _ rfl
      obtain ⟨refusal', hreserve, heq⟩ := Option.map_eq_some_iff.mp hrefuse
      obtain rfl := congrArg Prod.fst heq
      have hrefuses := (continues_of_step hstep).refuses hreserve
      rwa [hlimits.1, hlimits.2.1] at hrefuses

/-- With limits that there is room for, every call is a call of `parse`. -/
theorem reservingCalls_eq {heap : Heap} {p : RespParser} (hinv : p.Inv 0)
    (hroom : ∀ refusal, ¬ heap.Refuses p.maxBulkSize p.maxArrayLen refusal)
    (bufs : List Bytes) :
    reservingCalls p (bufs.map (heap, ·)) =
      (runCalls p bufs).map fun call => ⟨heap, call.before, .ok call.outcome, call.after⟩ := by
  induction bufs generalizing p with
  | nil => rfl
  | cons buf bufs ih =>
      have hguarded := parse_guarded hinv buf
      cases hended : (parseReserving heap ⟨p, buf⟩).1 with
      | error refusal => exact absurd (refuses_of_error hinv hended) (hroom refusal)
      | ok outcome =>
          have hparse := parse_of_parseReserving hended
          rw [hparse] at hguarded
          have hrest : outcome ≠ .panic →
              reservingCalls (parseReserving heap ⟨p, buf⟩).2.parser (bufs.map (heap, ·)) =
                (runCalls (parseReserving heap ⟨p, buf⟩).2.parser bufs).map
                  fun call => ⟨heap, call.before, .ok call.outcome, call.after⟩ := by
            intro hreturned
            refine ih (hguarded.inv hreturned) fun refusal hrefuses => hroom refusal ?_
            rwa [hguarded.limits.1, hguarded.limits.2.1] at hrefuses
          rw [List.map_cons, reservingCalls, runCalls, hended, hparse]
          cases outcome with
          | panic => rfl
          | ok value => simpa using hrest (by simp)
          | err e => simpa using hrest (by simp)

/-- From every state a parser can get into, a call ends: with an answer, or because it was
refused the room for a count within the limits.  At no time are more than `max_depth + 1`
activations open, and at every time at least one byte is consumed for every value
produced. -/
theorem reservingCalls_bounded (bulkSize arrayLen depth : Nat) (bufs : List (Heap × Bytes))
    (call : ReservingCall)
    (hcall : call ∈ reservingCalls (.fresh bulkSize arrayLen depth) bufs) :
    (∃ answers, (reservingMachine call.heap).Moves (.running [] call.before) answers
        (.returned [] call.ended call.after)) ∧
      (∀ refusal, call.ended = .error refusal →
        call.heap.Refuses bulkSize arrayLen refusal) ∧
      ∀ answers c, (reservingMachine call.heap).Moves (.running [] call.before) answers c →
        c.activations ≤ depth + 1 ∧
          producedWithin answers + c.state.buf.length ≤ call.before.buf.length := by
  obtain ⟨⟨call', hmem, hbefore⟩, heq⟩ := exists_call_of_reserving hcall
  obtain ⟨-, hbounds⟩ := runCalls_bounded bulkSize arrayLen depth _ call' hmem
  obtain ⟨hinv, hlimits, -⟩ :=
    runCalls_inv (RespParser.inv_fresh bulkSize arrayLen depth) _ call' hmem
  rw [hbefore] at hbounds hinv hlimits
  refine ⟨?_, fun refusal hrefusal => ?_, fun answers c hmoves => ?_⟩
  · have hends := (reservingMachine call.heap).moves_run [] call.before
    rwa [show (reservingMachine call.heap).run call.before = _ from heq] at hends
  · have hrefuses := refuses_of_error hinv ((congrArg Prod.fst heq).trans hrefusal)
    rwa [hlimits.1, hlimits.2.1] at hrefuses
  · cases stands_of_reserving hmoves with
    | @free answers₀ c₀ h hanswers hc =>
        subst hanswers hc
        have hcount := producedWithin_answers answers₀ []
        rw [List.map_nil, List.append_nil] at hcount
        rw [hcount, Config.state_mapResult, Config.activations, Config.stack_mapResult]
        exact hbounds _ _ h
    | @refused answers₀ errors waiting stack s t u e h hstep hrefuse hanswers hc =>
        -- the pass that was refused has consumed its line
        subst hanswers hc
        obtain ⟨hdepth, hbytes⟩ := hbounds _ _ h
        obtain ⟨refusal, -, heq'⟩ := Option.map_eq_some_iff.mp hrefuse
        obtain rfl := congrArg Prod.snd heq'
        have hline := (continues_of_step hstep).buf_length_lt
        rw [producedWithin_answers]
        simp only [Config.activations, Config.stack, Config.state, List.length_append]
          at hdepth hbytes hline ⊢
        exact ⟨by omega, by omega⟩

end

namespace Witness

/-- The sizes a value and a pair take up on a 64-bit machine, and memory without end. -/
def boundlessHeap : Heap := ⟨40, 80, fun _ _ => true⟩

/-- A heap on which no block is left. -/
def exhaustedHeap : Heap := ⟨40, 80, fun _ _ => false⟩

-- the limits of a new parser leave every capacity far below `isize::MAX`
example : ¬ boundlessHeap.Refuses RespParser.new.maxBulkSize RespParser.new.maxArrayLen
    .capacityOverflow := by
  rw [Heap.refuses_overflow_iff]
  decide

/-- An array cut behind its header, then an element that is an array again and finds no
room. -/
def nestedArray : List (Heap × Bytes) :=
  [(boundlessHeap, ascii "*1\r\n"), (exhaustedHeap, ascii "*1\r\n_\r\n")]

theorem nestedArray_bounded :
    ∃ call ∈ reservingCalls (.fresh 64 8 2) nestedArray,
      (∃ answers, (reservingMachine call.heap).Moves (.running [] call.before) answers
        (.returned [] call.ended call.after)) ∧
      (∀ refusal, call.ended = .error refusal → call.heap.Refuses 64 8 refusal) ∧
      ∀ answers c, (reservingMachine call.heap).Moves (.running [] call.before) answers c →
        c.activations ≤ 3 ∧
          producedWithin answers + c.state.buf.length ≤ call.before.buf.length :=
  ⟨_, List.mem_of_getElem? (i := 1) rfl,
    reservingCalls_bounded 64 8 2 nestedArray _ (List.mem_of_getElem? (i := 1) rfl)⟩

/-- Where the limit is no limit, the call that reads this length line neither returns nor
fails in a subtraction. -/
theorem endlessArray_overflows :
    ¬ ∀ call ∈ reservingCalls (.fresh 64 (2 ^ 64 - 1) 2)
        [(boundlessHeap, ascii "*9223372036854775807\r\n")],
      ∃ outcome, call.ended = .ok outcome := by
  have hended : (reservingCalls (.fresh 64 (2 ^ 64 - 1) 2)
      [(boundlessHeap, ascii "*9223372036854775807\r\n")]).map ReservingCall.ended =
        [.error .capacityOverflow] := rfl
  have hmem : .error .capacityOverflow ∈ (reservingCalls (.fresh 64 (2 ^ 64 - 1) 2)
      [(boundlessHeap, ascii "*9223372036854775807\r\n")]).map ReservingCall.ended := by
    rw [hended]
    exact List.mem_singleton.mpr rfl
  intro h
  obtain ⟨call, hcall, heq⟩ := List.mem_map.mp hmem
  obtain ⟨outcome, hok⟩ := h call hcall
  rw [heq] at hok
  contradiction

end Witness

end Seshat
