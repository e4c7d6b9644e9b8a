/-
Sizes.  What a parser hands out over a whole connection weighs no more than what came in,
however the bytes were cut and whatever was lost on the way; the encoder's estimate covers
what it writes for every value whose numbers are short.
-/
import Seshat.Resp.Streaming

namespace Seshat

open CallMachine Decimal RespValue

namespace RespValue

mutual

/-- `size_estimate`. -/
def sizeEstimate : RespValue → Nat
  | .simpleString b => b.length + 10
  | .error b => b.length + 10
  | .bulkString (some b) => b.length + 15
  | .bulkString none => 5
  | .integer _ => 15
  | .array (some arr) => sizeEstimateAll arr + 10
  | .array none => 5
  | .map pairs => sizeEstimatePairs pairs + 10
  | .set items => sizeEstimateAll items + 10
  | .bigNumber b => b.length + 10
  | .bulkError b => b.length + 15
  | .verbatimString _ data => data.length + 20
  | .push items => sizeEstimateAll items + 10
  | .null => 10
  | .boolean _ => 10
  | .double _ => 10

def sizeEstimateAll : List RespValue → Nat
  | [] => 0
  | v :: rest => sizeEstimate v + sizeEstimateAll rest

def sizeEstimatePairs : List (RespValue × RespValue) → Nat
  | [] => 0
  | (key, value) :: rest => sizeEstimate key + sizeEstimate value + sizeEstimatePairs rest

end

mutual

/-- All bytes a value holds, and three for every value in it. -/
def weight : RespValue → Nat
  | .array (some elements) => weightAll elements + 3
  | .map pairs => weightPairs pairs + 3
  | .set elements => weightAll elements + 3
  | .push elements => weightAll elements + 3
  | .simpleString s => s.length + 3
  | .error e => e.length + 3
  | .bigNumber n => n.length + 3
  | .bulkString (some s) => s.length + 3
  | .bulkError e => e.length + 3
  | .verbatimString _ data => data.length + 4 + 3
  | .bulkString none => 3
  | .array none => 3
  | .integer _ => 3
  | .null => 3
  | .boolean _ => 3
  | .double _ => 3

def weightAll : List RespValue → Nat
  | [] => 0
  | v :: rest => weight v + weightAll rest

def weightPairs : List (RespValue × RespValue) → Nat
  | [] => 0
  | (key, value) :: rest => weight key + weight value + weightPairs rest

end

theorem weightAll_append (left right : List RespValue) :
    weightAll (left ++ right) = weightAll left + weightAll right := by
  induction left with
  | nil => simp [weightAll]
  | cons v left ih => simp [weightAll, ih, Nat.add_assoc]

theorem weightPairs_append (left right : List (RespValue × RespValue)) :
    weightPairs (left ++ right) = weightPairs left + weightPairs right := by
  induction left with
  | nil => simp [weightPairs]
  | cons pair left ih =>
      obtain ⟨key, value⟩ := pair
      simp [weightPairs, ih, Nat.add_assoc]

theorem weightPairs_eq (pairs : List (RespValue × RespValue)) :
    weightPairs pairs = weightAll (pairItems pairs) := by
  induction pairs with
  | nil => simp [weightPairs, pairItems, weightAll]
  | cons pair pairs ih =>
      obtain ⟨key, value⟩ := pair
      simp only [pairItems] at ih
      simp [weightPairs, pairItems, weightAll, ih, Nat.add_assoc]

theorem sizeEstimatePairs_eq (pairs : List (RespValue × RespValue)) :
    sizeEstimatePairs pairs = sizeEstimateAll (pairItems pairs) := by
  induction pairs with
  | nil => simp [sizeEstimatePairs, pairItems, sizeEstimateAll]
  | cons pair pairs ih =>
      obtain ⟨key, value⟩ := pair
      simp only [pairItems] at ih
      simp [sizeEstimatePairs, pairItems, sizeEstimateAll, ih, Nat.add_assoc]

theorem sizeEstimateAll_le_of {elements : List RespValue}
    (h : ∀ v ∈ elements, v.sizeEstimate ≤ 5 * v.weight) :
    sizeEstimateAll elements ≤ 5 * weightAll elements := by
  induction elements with
  | nil => simp [sizeEstimateAll, weightAll]
  | cons v elements ih =>
      rw [List.forall_mem_cons] at h
      have hhead := h.1
      have htail := ih h.2
      simp only [sizeEstimateAll, weightAll]
      omega

theorem sizeEstimate_le_weight (value : RespValue) : value.sizeEstimate ≤ 5 * value.weight := by
  induction value using itemInduction with
  | scalar value hscalar =>
      cases value with
      | bulkString s =>
          cases s with
          | none => simp [sizeEstimate, weight]
          | some s =>
              simp only [sizeEstimate, weight]
              omega
      | array arr => cases hscalar
      | map pairs => cases hscalar
      | set elements => cases hscalar
      | push elements => cases hscalar
      | _ => simp [sizeEstimate, weight] <;> omega
  | aggregate value hagg ih =>
      have hitems := sizeEstimateAll_le_of ih
      cases value with
      | array arr =>
          cases arr with
          | none => simp [sizeEstimate, weight]
          | some elements =>
              simp only [items] at hitems
              simp only [sizeEstimate, weight]
              omega
      | map pairs =>
          simp only [items] at hitems
          simp only [sizeEstimate, weight, sizeEstimatePairs_eq, weightPairs_eq]
          omega
      | set elements =>
          simp only [items] at hitems
          simp only [sizeEstimate, weight]
          omega
      | push elements =>
          simp only [items] at hitems
          simp only [sizeEstimate, weight]
          omega
      | _ => cases hagg

end RespValue

/-! ## What the parser holds -/

/-- The bytes and values a parser keeps between two calls, by weight. -/
def ParseState.held : ParseState → Nat
  | .waitingForType => 0
  | .line _ data => data.length + 1
  | .bulkLen _ lenBytes => lenBytes.length + 1
  | .bulkData _ _ data => data.length + 3
  | .seqLen _ lenBytes => lenBytes.length + 1
  | .seqData _ _ elements => weightAll elements + 3
  | .mapLen lenBytes => lenBytes.length + 1
  | .mapData _ pairs key => weightPairs pairs + (key.map weight).getD 0 + 3

/-- The same with the buffer. -/
def Cursor.held (c : Cursor) : Nat :=
  c.parser.state.held + c.buf.length

/-- What an answer hands out. -/
def Outcome.handed : Outcome → Nat
  | .ok (some value) => value.weight
  | _ => 0

@[simp]
theorem ParseState.held_waitingForType : ParseState.waitingForType.held = 0 := rfl

@[simp]
theorem Outcome.handed_some (value : RespValue) :
    (Outcome.ok (some value)).handed = value.weight := rfl

@[simp]
theorem Outcome.handed_none : (Outcome.ok none).handed = 0 := rfl

/-- An answer other than an error. -/
def Outcome.isOk : Outcome → Prop
  | .ok _ => True
  | _ => False

/-- The end of a pass stays within a budget: what is handed out and what is kept. -/
def NextWithin (n : Nat) : Next Cursor Outcome → Prop
  | .ret outcome c => outcome.isOk → outcome.handed + c.held ≤ n
  | .loop c => c.held ≤ n

/-- A pass stays within a budget. -/
def Within (n : Nat) : Pass → Prop
  | .next next => NextWithin n next
  | .call frame c => frame.state.held + c.buf.length ≤ n

section Passes

theorem Within.mono {n m : Nat} (hle : n ≤ m) {pass : Pass} (h : Within n pass) :
    Within m pass := by
  cases pass with
  | next next =>
      cases next with
      | ret outcome c => exact fun hok => le_trans (h hok) hle
      | loop c => exact le_trans h hle
  | call frame c => exact le_trans h hle

theorem within_error {n : Nat} {e : ProtocolError} {p : RespParser} {buf : Bytes} :
    Within n (answer (.err e) p buf) :=
  fun hok => hok.elim

theorem within_panic {n : Nat} {p : RespParser} {buf : Bytes} :
    Within n (panicking p buf) :=
  fun hok => hok.elim

theorem within_complete {n : Nat} {value : RespValue} {p : RespParser} {buf : Bytes}
    (h : value.weight + buf.length ≤ n) : Within n (complete value p buf) := by
  intro _
  simpa [Outcome.handed, Cursor.held, ParseState.held] using h

theorem within_more {n : Nat} {p : RespParser} {buf : Bytes}
    (h : p.state.held + buf.length ≤ n) : Within n (answer (.ok none) p buf) := by
  intro _
  simpa [Outcome.handed, Cursor.held] using h

theorem within_again {n : Nat} {p : RespParser} {buf : Bytes}
    (h : p.state.held + buf.length ≤ n) : Within n (again p buf) := h

theorem ReadsLine.held_eq {keep : Bytes → ParseState} (h : ReadsLine keep) (data : Bytes) :
    (keep data).held = data.length + 1 := by
  cases h <;> rfl

/-- A line is paid for by its type byte, its text and its CRLF. -/
theorem within_withLine {p : RespParser} {buf data : Bytes} {keep : Bytes → ParseState}
    (hkeep : ReadsLine keep) {finish : RespParser → Bytes → Bytes → Pass}
    (hfinish : ∀ p line rest, Within (line.length + 3 + rest.length) (finish p line rest)) :
    Within (data.length + 1 + buf.length) (withLine p buf keep data finish) := by
  rcases crlfFree_or_line buf with hfree | ⟨line, rest, hline, rfl⟩
  · rw [withLine_more hfree]
    refine within_more ?_
    rw [hkeep.held_eq, List.length_append, List.length_nil]
    omega
  · rw [withLine_line hline]
    refine (hfinish _ _ _).mono ?_
    simp only [List.length_append, crlf, List.length_cons, List.length_nil]
    omega

theorem LineKind.weight_value [F64Text] {kind : LineKind} {data : Bytes} {value : RespValue}
    (h : kind.value data = some value) : value.weight ≤ data.length + 3 := by
  cases kind with
  | simpleString => cases h; simp [weight]
  | error => cases h; simp [weight]
  | bigNumber => cases h; simp [weight]
  | integer =>
      obtain ⟨i, -, rfl⟩ := Option.map_eq_some_iff.mp h
      simp [weight]
  | double =>
      obtain ⟨d, -, rfl⟩ := Option.map_eq_some_iff.mp h
      simp [weight]

theorem BulkKind.weight_value {kind : BulkKind} {body : Bytes} {value : RespValue}
    (h : kind.value body = some value) : value.weight = body.length + 3 := by
  cases kind with
  | bulkString => cases h; simp [weight]
  | bulkError => cases h; simp [weight]
  | verbatimString =>
      match body with
      | [] => contradiction
      | [_] => contradiction
      | [_, _] => contradiction
      | [_, _, _] => contradiction
      | f₀ :: f₁ :: f₂ :: colon :: content =>
          simp only [BulkKind.value] at h
          split at h
          · cases h
            simp [weight]
          · contradiction

theorem within_lineStep [F64Text] (kind : LineKind) (p : RespParser) (buf data : Bytes) :
    Within (data.length + 1 + buf.length) (lineStep kind p buf data) := by
  refine within_withLine (.line kind) fun p line rest => ?_
  cases hvalue : kind.value line with
  | none => exact within_error
  | some value =>
      have hweight := kind.weight_value hvalue
      exact within_complete (by omega)

theorem within_lenStep {p : RespParser} {buf : Bytes} {keep : Bytes → ParseState}
    (hkeep : ReadsLine keep) {lenBytes : Bytes} {null : Option RespValue}
    (hnull : ∀ value, null = some value → value.weight = 3)
    {enter : RespParser → Nat → Bytes → Pass}
    (henter : ∀ p len rest, Within (3 + rest.length) (enter p len rest)) :
    Within (lenBytes.length + 1 + buf.length) (lenStep p buf keep lenBytes null enter) := by
  refine within_withLine hkeep fun p line rest => ?_
  cases parseI64 line with
  | none => exact within_error
  | some len =>
      dsimp only
      split
      · rename_i value _
        have hweight := hnull value rfl
        exact within_complete (by omega)
      · split
        · exact within_error
        · exact (henter _ _ _).mono (by omega)

theorem within_emptyBulk {kind : BulkKind} {value : RespValue} (hvalue : value.weight = 3)
    (p : RespParser) (buf : Bytes) :
    Within (3 + buf.length) (emptyBulk kind value p buf) := by
  match buf with
  | [] => exact within_more (by simp [ParseState.held])
  | [_] => exact within_more (by simp [ParseState.held])
  | a :: b :: rest =>
      simp only [emptyBulk]
      split
      · exact within_error
      · refine within_complete ?_
        simp only [List.length_cons]
        omega

theorem within_enter (kind : BulkKind) (p : RespParser) (len : Nat) (buf : Bytes) :
    Within (3 + buf.length) (kind.enter p len buf) := by
  have hopen : Within (3 + buf.length)
      (again { p with state := .bulkData kind len [] } buf) :=
    within_again (by simp [ParseState.held])
  simp only [BulkKind.enter]
  split
  · exact within_error
  · cases kind with
    | bulkString =>
        dsimp only
        split
        · exact within_emptyBulk (by simp [weight]) p buf
        · exact hopen
    | bulkError =>
        dsimp only
        split
        · exact within_emptyBulk (by simp [weight]) p buf
        · exact hopen
    | verbatimString =>
        dsimp only
        split
        · exact within_error
        · exact hopen

theorem within_bulkDataStep (kind : BulkKind) (p : RespParser) (buf : Bytes) (len : Nat)
    (data : Bytes) :
    Within (data.length + 3 + buf.length) (bulkDataStep kind p buf len data) := by
  simp only [bulkDataStep]
  cases hneeded : checkedSub (len + 2) data.length with
  | none => exact within_panic
  | some needed =>
      dsimp only
      split
      · refine within_more ?_
        simp only [ParseState.held, List.length_append, List.length_nil]
        omega
      · cases checkedSub len data.length with
        | none => exact within_panic
        | some dataNeeded =>
            dsimp only
            split
            · rename_i body terminator rest hbody hend hrest
              split
              · exact within_error
              · split
                · rename_i value hvalue
                  have hweight := kind.weight_value hvalue
                  refine within_complete ?_
                  have hlengths : body.length + rest.length ≤ buf.length := by
                    simp only [slice, advance, Option.ite_none_right_eq_some,
                      Option.some.injEq] at hbody hrest
                    rw [← hbody.2, ← hrest.2, List.drop_zero, List.length_take,
                      List.length_drop]
                    omega
                  rw [hweight, List.length_append]
                  omega
                · exact within_error
            · exact within_panic

theorem within_enterAggregate {empty : RespValue} (hempty : empty.weight = 3)
    {state : Nat → ParseState} (hstate : ∀ len, (state len).held = 3) (p : RespParser)
    (len : Nat) (buf : Bytes) :
    Within (3 + buf.length) (enterAggregate empty state p len buf) := by
  simp only [enterAggregate]
  split
  · exact within_error
  · split
    · exact within_complete (by omega)
    · split
      · exact within_error
      · exact within_again (by simp [hstate])

theorem nextWithin_leaveAggregate {n : Nat} {value : RespValue} {p : RespParser}
    (hp : p.state = .waitingForType) {buf : Bytes} (h : value.weight + buf.length ≤ n) :
    NextWithin n (leaveAggregate value p buf) := by
  unfold leaveAggregate
  cases checkedSub p.currentDepth 1 with
  | none => exact fun hok => hok.elim
  | some depth =>
      intro _
      simpa [Outcome.handed, Cursor.held, hp, ParseState.held] using h

theorem SeqKind.weight_value (kind : SeqKind) (elements : List RespValue) :
    (kind.value elements).weight = weightAll elements + 3 := by
  cases kind <;> simp [SeqKind.value, weight]

theorem within_aggregateStep (frame : Frame) (p : RespParser) (buf : Bytes) :
    Within (frame.state.held + buf.length) (aggregateStep frame p buf) := by
  match frame with
  | .seq kind 0 elems =>
      refine nextWithin_leaveAggregate rfl ?_
      rw [kind.weight_value]
      rfl
  | .seq kind (rem + 1) elems => exact le_rfl
  | .map 0 pairs key =>
      refine nextWithin_leaveAggregate rfl ?_
      simp only [weight, Frame.state, ParseState.held]
      omega
  | .map (rem + 1) pairs key => exact le_rfl

theorem within_typeStep (typeByte : UInt8) {p : RespParser} (hp : p.state = .waitingForType)
    (buf : Bytes) : Within (1 + buf.length) (typeStep typeByte p buf) := by
  have hshort : Within (1 + buf.length) (answer (.ok none) p buf) :=
    within_more (by simp [hp, ParseState.held])
  unfold typeStep
  split
  case h_6 =>
    split
    · split
      · exact within_error
      · refine within_complete ?_
        simp only [weight, List.length_cons]
        omega
    · exact hshort
  case h_7 =>
    split
    · split
      · exact within_error
      · refine within_complete ?_
        simp only [weight, List.length_cons]
        omega
    · exact hshort
  all_goals first
    | exact within_again (by simp [ParseState.held])
    | exact within_error

theorem within_waitingStep {p : RespParser} (hp : p.state = .waitingForType) (buf : Bytes) :
    Within buf.length (waitingStep p buf) := by
  cases buf with
  | nil => exact within_more (by simp [hp, ParseState.held])
  | cons typeByte buf =>
      refine (within_typeStep typeByte hp buf).mono ?_
      simp only [List.length_cons]
      omega

/-- One pass through the loop keeps to what the parser holds and has at hand. -/
theorem within_parseStep [F64Text] (c : Cursor) : Within c.held (parseStep c) := by
  obtain ⟨p, buf⟩ := c
  simp only [parseStep, Cursor.held]
  cases hp : p.state with
  | waitingForType => exact (within_waitingStep hp buf).mono (Nat.le_add_left _ _)
  | line kind data => exact within_lineStep kind p buf data
  | bulkLen kind lenBytes =>
      refine within_lenStep (.bulkLen kind) ?_ (within_enter kind)
      rintro value ⟨⟩
      cases kind <;> simp [BulkKind.null, weight]
  | bulkData kind len data => exact within_bulkDataStep kind p buf len data
  | seqLen kind lenBytes =>
      refine within_lenStep (.seqLen kind) ?_ (within_enterAggregate ?_ fun len => ?_)
      · intro value hvalue
        cases kind <;> cases hvalue <;> simp [weight]
      · rw [kind.weight_value]
        rfl
      · simp [ParseState.held, weightAll]
  | mapLen lenBytes =>
      refine within_lenStep .mapLen ?_ (within_enterAggregate ?_ fun len => ?_)
      · rintro value ⟨⟩
        simp [weight]
      · simp [weight, weightPairs]
      · simp [ParseState.held, weightPairs]
  | seqData kind rem elems => exact within_aggregateStep (.seq kind rem elems) p buf
  | mapData rem pairs key => exact within_aggregateStep (.map rem pairs key) p buf

end Passes

/-! ## Whole calls and streams -/

theorem Frame.Grows.held {frame frame' : Frame} {element : RespValue}
    (h : frame.Grows element frame') :
    frame'.state.held = frame.state.held + element.weight := by
  cases h with
  | element kind rem elems element =>
      simp only [Frame.state, ParseState.held, weightAll_append, weightAll]
      omega
  | key rem pairs element =>
      simp only [Frame.state, ParseState.held, Option.map_some, Option.map_none,
        Option.getD_some, Option.getD_none]
      omega
  | pair rem pairs key element =>
      simp only [Frame.state, ParseState.held, weightPairs_append, weightPairs, Option.map_some,
        Option.map_none, Option.getD_some, Option.getD_none]
      omega

theorem Frame.Closes.weight_eq {frame : Frame} {element value : RespValue}
    (h : frame.Closes element value) : value.weight = frame.state.held + element.weight := by
  cases h with
  | element kind elems element =>
      rw [kind.weight_value, weightAll_append]
      simp only [Frame.state, ParseState.held, weightAll]
      omega
  | pair pairs key element =>
      simp only [weight, Frame.state, ParseState.held, weightPairs_append, weightPairs,
        Option.map_some, Option.getD_some]
      omega

/-- A call that does not fail hands out and keeps no more than there was. -/
def Pays (s : Cursor) (outcome : Outcome) (t : Cursor) : Prop :=
  outcome.isOk → outcome.handed + t.held ≤ s.held

theorem Resumed.pays {frame : Frame} {s c t : Cursor} {outcome outcome' : Outcome}
    (h : Resumed frame c outcome (.ret outcome' t)) (hp : s.parser.state = frame.state)
    (hcall : Pays ⟨{ s.parser with state := .waitingForType }, s.buf⟩ outcome c) :
    Pays s outcome' t := by
  intro hok
  have hheld : s.held = frame.state.held + s.buf.length := by rw [Cursor.held, hp]
  generalize hnext : Next.ret outcome' t = next at h
  cases h with
  | err e =>
      cases hnext
      exact hok.elim
  | panic =>
      cases hnext
      exact hok.elim
  | missing =>
      cases hnext
      have hle := hcall trivial
      simp only [Outcome.handed_none, Cursor.held, ParseState.held_waitingForType] at hle hheld ⊢
      omega
  | grows h => cases hnext
  | closes h =>
      have hle := hcall trivial
      have hweight := h.weight_eq
      obtain ⟨hbuf, ⟨rfl, -⟩ | ⟨rfl, -, hparser⟩⟩ := leaveAggregate_ret hnext.symm
      · exact hok.elim
      · simp only [Outcome.handed_some, Cursor.held, ParseState.held_waitingForType, hbuf,
          hparser] at hle hheld ⊢
        omega

section Runs

variable [F64Text]

theorem keeps_pays : parseBody.Keeps Pays where
  ret {s r t} h hok := by
    have hwithin := within_parseStep s
    rw [show parseStep s = _ from h] at hwithin
    exact hwithin hok
  loop {s s' r t} h hrest hok := by
    have hwithin := within_parseStep s
    rw [show parseStep s = _ from h] at hwithin
    exact le_trans (hrest hok) hwithin
  callRet {s k s₀ r s₁ r' t} h hcall hresume := by
    obtain ⟨hp, hrem, rfl⟩ := calls_of_step h
    exact (resumed_of_resume hrem hresume).pays hp hcall
  callLoop {s k s₀ r s₁ s' r' t} h hcall hresume hrest hok := by
    obtain ⟨hp, hrem, rfl⟩ := calls_of_step h
    obtain ⟨element, frame', rfl, hgrows, rfl⟩ :=
      (resumed_of_resume hrem hresume).loop_cases
    have hle := hcall trivial
    have hnext := hrest hok
    have hheld := hgrows.held
    simp only [Outcome.handed_some, Cursor.held, ParseState.held_waitingForType, hp]
      at hle hnext ⊢
    omega

/-- What a drained parser still has, unless it failed. -/
def kept (answer : Outcome × Cursor) : Nat :=
  match answer.1 with
  | .ok _ => answer.2.held
  | _ => 0

theorem drainFuel_pays (n : Nat) (c : Cursor) :
    weightAll (drainFuel n c).1 + kept (drainFuel n c).2 ≤ c.held := by
  induction n generalizing c with
  | zero => simp [drainFuel, weightAll, kept]
  | succ n ih =>
      have hpays := parseMachine.run_keeps keeps_pays c
      rw [drainFuel]
      generalize hparse : parse c = answer
      rw [show parseMachine.run c = _ from hparse] at hpays
      obtain ⟨outcome, c'⟩ := answer
      cases outcome with
      | ok value =>
          cases value with
          | none => simpa [weightAll, kept, Outcome.handed] using hpays trivial
          | some value =>
              have hvalue := hpays trivial
              have hrest := ih c'
              simp only [Outcome.handed] at hvalue
              simp only [weightAll]
              omega
      | err e => simp [weightAll, kept]
      | panic => simp [weightAll, kept]

theorem feedChunks_weight_le (c : Cursor) (chunks : List Bytes) :
    weightAll (feedChunks c chunks).1 ≤ c.held + chunks.flatten.length := by
  induction chunks generalizing c with
  | nil => simp [feedChunks, weightAll]
  | cons chunk chunks ih =>
      have hdrain := drainFuel_pays (Cursor.calls ⟨c.parser, c.buf ++ chunk⟩)
        ⟨c.parser, c.buf ++ chunk⟩
      have hheld : Cursor.held ⟨c.parser, c.buf ++ chunk⟩ = c.held + chunk.length := by
        simp only [Cursor.held, List.length_append]
        omega
      rw [feedChunks, drain]
      generalize drainFuel _ _ = answer at hdrain
      obtain ⟨values, outcome, c'⟩ := answer
      simp only [List.flatten_cons, List.length_append]
      cases outcome with
      | ok value =>
          cases value with
          | none =>
              have hrest := ih c'
              simp only [kept] at hdrain
              simp only [weightAll_append]
              omega
          | some value =>
              simp only [kept] at hdrain ⊢
              omega
      | err e =>
          simp only [kept] at hdrain ⊢
          omega
      | panic =>
          simp only [kept] at hdrain ⊢
          omega

/-- No amplification: in every stream, however cut, all values a parser hands out weigh at
most what it held at the start and the bytes received since, and are estimated at no more
than five times that. -/
theorem feedChunks_never_amplifies (c : Cursor) (chunks : List Bytes) :
    weightAll (feedChunks c chunks).1 ≤ c.held + chunks.flatten.length ∧
      sizeEstimateAll (feedChunks c chunks).1 ≤ 5 * (c.held + chunks.flatten.length) := by
  have hweight := feedChunks_weight_le c chunks
  have hestimate : sizeEstimateAll (feedChunks c chunks).1 ≤
      5 * weightAll (feedChunks c chunks).1 :=
    sizeEstimateAll_le_of fun v _ => v.sizeEstimate_le_weight
  exact ⟨hweight, by omega⟩

end Runs

/-! ## The estimate against the encoder -/

/-- The text of a number is as short as the estimate takes it to be. -/
def ShortNumber [F64Text] : RespValue → Prop
  | .integer i => (i64ToString i).length ≤ 12
  | .double d => (doubleText d).length ≤ 7
  | _ => True

section Estimate

variable [F64Text] {p : RespParser}

theorem length_encodeAll_le {elements : List RespValue}
    (h : ∀ v ∈ elements, (encode v).length ≤ v.sizeEstimate) :
    (encodeAll elements).length ≤ sizeEstimateAll elements := by
  induction elements with
  | nil => simp [encodeAll]
  | cons v elements ih =>
      rw [List.forall_mem_cons] at h
      have hhead := h.1
      have htail := ih h.2
      simp only [encodeAll, sizeEstimateAll, List.length_append]
      omega

theorem length_encode_scalar_le {value : RespValue} (hscalar : value.isAggregate = false)
    (hbulk : p.maxBulkSize < 10 ^ 10) (hfits : FitsLimits p value)
    (hshort : ShortNumber value) : (encode value).length ≤ value.sizeEstimate := by
  have hbody : ∀ n, n ≤ p.maxBulkSize → (text n).length ≤ 10 := fun n hn =>
    length_text_le (by decide) (by omega)
  cases value with
  | bulkString s =>
      cases s with
      | none => simp [encode, sizeEstimate]
      | some s =>
          have hdigits := hbody s.length hfits
          simp only [encode, sizeEstimate, crlf, List.length_cons, List.length_append,
            List.length_nil]
          omega
  | bulkError e =>
      have hdigits := hbody e.length hfits
      simp only [encode, sizeEstimate, crlf, List.length_cons, List.length_append,
        List.length_nil]
      omega
  | verbatimString format data =>
      have hdigits := hbody (4 + data.length) hfits
      simp only [encode, sizeEstimate, crlf, List.length_cons, List.length_append,
        List.length_nil]
      omega
  | integer i =>
      simp only [ShortNumber] at hshort
      simp only [encode, sizeEstimate, crlf, List.length_cons, List.length_append,
        List.length_nil]
      omega
  | double d =>
      simp only [ShortNumber] at hshort
      simp only [encode, sizeEstimate, crlf, List.length_cons, List.length_append,
        List.length_nil]
      omega
  | boolean b => cases b <;> simp [encode, sizeEstimate]
  | array arr => cases hscalar
  | map pairs => cases hscalar
  | set elements => cases hscalar
  | push elements => cases hscalar
  | _ => simp [encode, sizeEstimate, crlf]

omit [F64Text] in
/-- The length line of an aggregate is within what the estimate adds for it. -/
theorem length_header_le {value : RespValue} (hagg : value.isAggregate = true)
    (hcount : p.maxArrayLen < 10 ^ 7) (hfits : FitsLimits p value) :
    value.header.length + sizeEstimateAll value.items ≤ value.sizeEstimate := by
  have hlen : ∀ n, n ≤ p.maxArrayLen → (text n).length ≤ 7 := fun n hn =>
    length_text_le (by decide) (by omega)
  rw [header, List.length_cons, List.length_append]
  cases value with
  | array arr =>
      cases arr with
      | none => simp [items, countText, sizeEstimate, sizeEstimateAll, crlf]
      | some elements =>
          have hdigits := hlen elements.length hfits
          simp only [items, countText, opening, Frame.remaining, sizeEstimate, crlf,
            List.length_cons, List.length_nil]
          omega
  | map pairs =>
      have hdigits := hlen pairs.length hfits
      simp only [items, countText, opening, Frame.remaining, sizeEstimate, sizeEstimatePairs_eq,
        crlf, List.length_cons, List.length_nil]
      omega
  | set elements =>
      have hdigits := hlen elements.length hfits
      simp only [items, countText, opening, Frame.remaining, sizeEstimate, crlf,
        List.length_cons, List.length_nil]
      omega
  | push elements =>
      have hdigits := hlen elements.length hfits
      simp only [items, countText, opening, Frame.remaining, sizeEstimate, crlf,
        List.length_cons, List.length_nil]
      omega
  | _ => cases hagg

/-- A buffer of the estimated size holds the encoding of every value within limits below
ten million elements and ten billion bytes whose numbers are short. -/
theorem encode_fits_estimate (p : RespParser) (hbulk : p.maxBulkSize < 10 ^ 10)
    (hcount : p.maxArrayLen < 10 ^ 7) (value : RespValue)
    (hfits : value.Everywhere (FitsLimits p)) (hshort : value.Everywhere ShortNumber) :
    (encode value).length ≤ value.sizeEstimate := by
  induction value using itemInduction with
  | scalar value hscalar => exact length_encode_scalar_le hscalar hbulk hfits.self hshort.self
  | aggregate value hagg ih =>
      have hitems : (encodeAll value.items).length ≤ sizeEstimateAll value.items :=
        length_encodeAll_le fun v hv => ih v hv (hfits.item hv) (hshort.item hv)
      have hheader := length_header_le hagg hcount hfits.self
      rw [encode_eq_header_append hagg, List.length_append]
      omega

end Estimate

namespace Witness

/-- A nested reply under the default limits. -/
theorem pairReply_fits_estimate :
    (encode (.array (some [.integer 42, .bulkString (some (ascii "abc"))]))).length ≤
      (RespValue.array (some [.integer 42, .bulkString (some (ascii "abc"))])).sizeEstimate := by
  refine encode_fits_estimate RespParser.new (by decide) (by decide) _ ?_ ?_
  · simp [Everywhere, EverywhereIn, FitsLimits, RespParser.new, ascii]
  · simp only [Everywhere, EverywhereIn, ShortNumber]
    decide

end Witness

end Seshat
