/-
Reading one frame.  From each state, the rest of a well-formed frame leads to
its value and leaves the bytes behind it alone; an aggregate is read by reading
its items one after the other.
-/
import Seshat.Resp.Parse

namespace Seshat

open CallMachine Decimal Utf8

/-- The bytes `bytes`, whatever follows them, are read as `value` from
`WaitingForType`. -/
def Reads [F64Text] (p : RespParser) (bytes : Bytes) (value : RespValue) : Prop :=
  ∀ rest, parse ⟨{ p with state := .waitingForType }, bytes ++ rest⟩ =
    (.ok (some value), ⟨{ p with state := .waitingForType }, rest⟩)

theorem Reads.parse_append [F64Text] {p : RespParser} {bytes : Bytes} {value : RespValue}
    (hreads : Reads p bytes value) (hstate : p.state = .waitingForType) (rest : Bytes) :
    parse ⟨p, bytes ++ rest⟩ = (.ok (some value), ⟨p, rest⟩) := by
  have hself : { p with state := .waitingForType } = p := by
    rw [← hstate]
  have h := hreads rest
  rwa [hself] at h

/-- A frame takes a list of items and still waits for others. -/
inductive Frame.GrowsAll : Frame → List RespValue → Frame → Prop where
  | nil (frame : Frame) : GrowsAll frame [] frame
  | cons {frame frame' frame'' : Frame} {item : RespValue} {items : List RespValue}
      (head : frame.Grows item frame') (tail : frame'.GrowsAll items frame'') :
      GrowsAll frame (item :: items) frame''

/-- A frame takes a list of items, the last of which completes the value. -/
inductive Frame.ClosesAll : Frame → List RespValue → RespValue → Prop where
  | last {frame : Frame} {item value : RespValue} (h : frame.Closes item value) :
      ClosesAll frame [item] value
  | cons {frame frame' : Frame} {item value : RespValue} {items : List RespValue}
      (head : frame.Grows item frame') (tail : frame'.ClosesAll items value) :
      ClosesAll frame (item :: items) value

theorem Frame.GrowsAll.closesAll {frame frame' : Frame} {left right : List RespValue}
    {value : RespValue} (hleft : frame.GrowsAll left frame')
    (hright : frame'.ClosesAll right value) : frame.ClosesAll (left ++ right) value := by
  induction hleft with
  | nil => exact hright
  | cons head _ ih => exact .cons head (ih hright)

theorem Frame.ClosesAll.split {frame : Frame} {left right : List RespValue}
    {value : RespValue} (h : frame.ClosesAll (left ++ right) value) (hright : right ≠ []) :
    ∃ frame', frame.GrowsAll left frame' ∧ frame'.ClosesAll right value := by
  induction left generalizing frame with
  | nil => exact ⟨frame, .nil frame, h⟩
  | cons item left ih =>
      cases hlist : left ++ right with
      | nil => exact absurd (List.append_eq_nil_iff.mp hlist).2 hright
      | cons next items =>
          rw [List.cons_append, hlist] at h
          cases h with
          | cons head tail =>
              obtain ⟨frame', hgrows, hcloses⟩ := ih (hlist ▸ tail)
              exact ⟨frame', .cons head hgrows, hcloses⟩

theorem Frame.ClosesAll.remaining_ne_zero {frame : Frame} {items : List RespValue}
    {value : RespValue} (h : frame.ClosesAll items value) : frame.remaining ≠ 0 := by
  induction h with
  | last h => cases h <;> simp [Frame.remaining]
  | cons head _ ih =>
      cases head with
      | element => simp [Frame.remaining]
      | key => exact ih
      | pair => simp [Frame.remaining]

theorem Frame.growsAll_seq (kind : SeqKind) (items elems : List RespValue) (rem : Nat) :
    Frame.GrowsAll (.seq kind (items.length + (rem + 1)) elems) items
      (.seq kind (rem + 1) (elems ++ items)) := by
  induction items generalizing elems with
  | nil =>
      simp only [List.length_nil, Nat.zero_add, List.append_nil]
      exact .nil _
  | cons item items ih =>
      have hrest := ih (elems ++ [item])
      rw [List.append_assoc, List.singleton_append] at hrest
      have hcount : (item :: items).length + (rem + 1) = items.length + rem + 2 := by
        simp only [List.length_cons]
        omega
      rw [hcount]
      exact .cons (.element kind _ elems item) hrest

theorem Frame.growsAll_map (pairs acc : List (RespValue × RespValue)) (rem : Nat) :
    Frame.GrowsAll (.map (pairs.length + (rem + 1)) acc none) (RespValue.pairItems pairs)
      (.map (rem + 1) (acc ++ pairs) none) := by
  induction pairs generalizing acc with
  | nil =>
      simp only [List.length_nil, Nat.zero_add, List.append_nil]
      exact .nil _
  | cons pair pairs ih =>
      have hrest := ih (acc ++ [pair])
      rw [List.append_assoc, List.singleton_append] at hrest
      have hcount : (pair :: pairs).length + (rem + 1) = pairs.length + rem + 2 := by
        simp only [List.length_cons]
        omega
      rw [hcount]
      exact .cons (.key _ acc pair.1) (.cons (.pair _ acc pair.1 pair.2) hrest)

namespace RespValue

/-- The type byte of an aggregate. -/
def marker : RespValue → UInt8
  | .map _ => 37
  | .set _ => 126
  | .push _ => 62
  | _ => 42

/-- The frame an aggregate's length line opens. -/
def opening : RespValue → Frame
  | .array (some elements) => .seq .array elements.length []
  | .map pairs => .map pairs.length [] none
  | .set elements => .seq .set elements.length []
  | .push elements => .seq .push elements.length []
  | _ => .seq .array 0 []

/-- The state that reads the element count of an aggregate. -/
def lenState : RespValue → Bytes → ParseState
  | .map _ => .mapLen
  | .set _ => .seqLen .set
  | .push _ => .seqLen .push
  | _ => .seqLen .array

/-- The count in the length line of an aggregate. -/
def countText : RespValue → Bytes
  | .array none => [45, 49]
  | value => text value.opening.remaining

/-- The length line of an aggregate, type byte and CRLF included. -/
def header (value : RespValue) : Bytes :=
  value.marker :: (value.countText ++ crlf)

theorem markerState_marker (value : RespValue) :
    markerState value.marker = some (value.lenState []) := by
  cases value <;> rfl

theorem readsCount_lenState (value : RespValue) : ReadsCount value.lenState := by
  cases value <;> constructor

/-- The items of a non-empty aggregate, taken in order, close its frame. -/
theorem opening_closesAll {value : RespValue} (hitems : value.items ≠ []) :
    value.opening.ClosesAll value.items value := by
  have hseq : ∀ (kind : SeqKind) (elements : List RespValue), elements ≠ [] →
      Frame.ClosesAll (.seq kind elements.length []) elements (kind.value elements) := by
    intro kind elements hne
    obtain ⟨init, last, rfl⟩ := (List.eq_nil_or_concat' elements).resolve_left hne
    have hgrows := Frame.growsAll_seq kind init [] 0
    simp only [List.nil_append, Nat.zero_add] at hgrows
    rw [List.length_append, List.length_singleton]
    exact hgrows.closesAll (.last (.element kind init last))
  cases value with
  | array arr =>
      cases arr with
      | none => exact absurd rfl hitems
      | some elements => exact hseq .array elements hitems
  | set elements => exact hseq .set elements hitems
  | push elements => exact hseq .push elements hitems
  | map pairs =>
      have hne : pairs ≠ [] := by
        rintro rfl
        exact hitems rfl
      obtain ⟨init, ⟨key, last⟩, rfl⟩ := (List.eq_nil_or_concat' pairs).resolve_left hne
      have hgrows := Frame.growsAll_map init [] 0
      simp only [List.nil_append, Nat.zero_add] at hgrows
      have hlast : items (.map (init ++ [(key, last)])) = pairItems init ++ [key, last] := by
        simp [items, pairItems]
      rw [hlast, opening, List.length_append, List.length_singleton]
      exact hgrows.closesAll (.cons (.key 1 init key) (.last (.pair init key last)))
  | _ => exact absurd rfl hitems

theorem opening_remaining_ne_zero {value : RespValue} (hitems : value.items ≠ []) :
    value.opening.remaining ≠ 0 :=
  (opening_closesAll hitems).remaining_ne_zero

theorem opening_remaining_le {p : RespParser} {value : RespValue} (h : FitsLimits p value) :
    value.opening.remaining ≤ p.maxArrayLen := by
  cases value with
  | array arr =>
      cases arr with
      | none => exact Nat.zero_le _
      | some elements => exact h
  | map pairs => exact h
  | set elements => exact h
  | push elements => exact h
  | _ => exact Nat.zero_le _

theorem opening_remaining_eq_zero {value : RespValue} (hitems : value.items = []) :
    value.opening.remaining = 0 := by
  cases value with
  | array arr =>
      cases arr with
      | none => rfl
      | some elements => exact congrArg List.length hitems
  | set elements => exact congrArg List.length hitems
  | push elements => exact congrArg List.length hitems
  | map pairs =>
      have hlength := congrArg List.length hitems
      rw [items, length_pairItems, List.length_nil] at hlength
      change pairs.length = 0
      omega
  | _ => rfl

theorem countText_eq {value : RespValue} (hnull : value ≠ .array none) :
    value.countText = text value.opening.remaining := by
  cases value with
  | array arr =>
      cases arr with
      | none => exact absurd rfl hnull
      | some elements => rfl
  | _ => rfl

end RespValue

theorem encode_eq_header_append [F64Text] {value : RespValue}
    (hagg : value.isAggregate = true) :
    encode value = value.header ++ encodeAll value.items := by
  have hpairs : ∀ pairs, encodePairs pairs = encodeAll (RespValue.pairItems pairs) := by
    intro pairs
    induction pairs with
    | nil => simp [encodePairs, encodeAll, RespValue.pairItems]
    | cons pair pairs ih =>
        simp only [encodePairs, ih, RespValue.pairItems, List.flatMap_cons, List.cons_append,
          List.nil_append, encodeAll, List.append_assoc]
  cases value with
  | array arr =>
      cases arr with
      | none => rfl
      | some elements =>
          simp [encode, RespValue.header, RespValue.marker, RespValue.countText,
            RespValue.opening, Frame.remaining, RespValue.items]
  | set elements =>
      simp [encode, RespValue.header, RespValue.marker, RespValue.countText,
        RespValue.opening, Frame.remaining, RespValue.items]
  | push elements =>
      simp [encode, RespValue.header, RespValue.marker, RespValue.countText,
        RespValue.opening, Frame.remaining, RespValue.items]
  | map pairs =>
      simp [encode, RespValue.header, RespValue.marker, RespValue.countText,
        RespValue.opening, Frame.remaining, RespValue.items, hpairs]
  | _ => cases hagg

theorem parseI64_of_i64FromStr {bytes : Bytes} {i : Int64} (h : i64FromStr bytes = some i) :
    parseI64 bytes = some i := by
  have hascii : ∀ b ∈ bytes, b < 0x80 := by
    intro b hb
    rcases mem_of_i64FromStr h hb with rfl | rfl | hdigit
    · decide
    · decide
    · simp only [isDigit, Bool.and_eq_true, decide_eq_true_eq] at hdigit
      rw [UInt8.lt_iff_toNat_lt]
      exact Nat.lt_of_le_of_lt hdigit.2 (by decide)
  simp [parseI64, fromUtf8_of_ascii hascii, h]

theorem i64FromStr_of_parseI64 {bytes : Bytes} {i : Int64} (h : parseI64 bytes = some i) :
    i64FromStr bytes = some i := by
  obtain ⟨str, hstr, hi⟩ := Option.bind_eq_some_iff.mp h
  rwa [eq_of_fromUtf8 hstr] at hi

/-- Text accepted as a number holds no CR. -/
theorem cr_not_mem_of_parseI64 {bytes : Bytes} {i : Int64} (h : parseI64 bytes = some i) :
    13 ∉ bytes := by
  intro hmem
  rcases mem_of_i64FromStr (i64FromStr_of_parseI64 h) hmem with h | h | h
  · exact absurd h (by decide)
  · exact absurd h (by decide)
  · simp [isDigit] at h

theorem parseI64_text {n : Nat} (hn : n < 2 ^ 63) :
    ∃ len : Int64, parseI64 (text n) = some len ∧ len.toNatClampNeg = n ∧ ¬ len < 0 := by
  have htoInt : (Int64.ofNat n).toInt = n := Int64.toInt_ofNat_of_lt hn
  refine ⟨Int64.ofNat n, parseI64_of_i64FromStr (i64FromStr_text_of_lt hn), ?_, ?_⟩
  · rw [← Int64.toNat_toInt, htoInt]
    rfl
  · rw [Int64.lt_iff_toInt_lt, htoInt]
    simp

theorem parseI64_zero : parseI64 [48] = some 0 :=
  parseI64_of_i64FromStr (by decide)

/-- A length line with a proper length reaches the kind's own checks. -/
theorem lenStep_enter {p : RespParser} {keep : Bytes → ParseState} {lenBytes line : Bytes}
    {null : Option RespValue} {enter : RespParser → Nat → Bytes → Pass} {len : Int64}
    (hline : CrlfFree line) (hlen : parseI64 (lenBytes ++ line) = some len)
    (hneg : ¬ len < 0) (rest : Bytes) :
    lenStep p (line ++ (crlf ++ rest)) keep lenBytes null enter =
      enter { p with state := keep (lenBytes ++ line) } len.toNatClampNeg rest := by
  have hnull : len ≠ -1 := by
    rintro rfl
    exact hneg (by decide)
  rw [lenStep, withLine_line hline, hlen]
  cases null <;> simp [hneg, hnull]

/-- A length of `-1` is the null form, where the kind has one. -/
theorem lenStep_null {p : RespParser} {keep : Bytes → ParseState} {lenBytes line : Bytes}
    {value : RespValue} {enter : RespParser → Nat → Bytes → Pass} (hline : CrlfFree line)
    (hlen : parseI64 (lenBytes ++ line) = some (-1)) (rest : Bytes) :
    lenStep p (line ++ (crlf ++ rest)) keep lenBytes (some value) enter =
      complete value p rest := by
  rw [lenStep, withLine_line hline, hlen]
  rfl

/-- A count within the limits opens an aggregate one level further in. -/
theorem lenStep_opens {p : RespParser} {keep : Bytes → ParseState} {lenBytes line : Bytes}
    {null : Option RespValue} {empty : RespValue} {state : Nat → ParseState} {len : Int64}
    (hline : CrlfFree line) (hlen : parseI64 (lenBytes ++ line) = some len)
    (hneg : ¬ len < 0) (hpos : len.toNatClampNeg ≠ 0)
    (hmax : len.toNatClampNeg ≤ p.maxArrayLen) (hdepth : p.currentDepth + 1 ≤ p.maxDepth)
    (rest : Bytes) :
    lenStep { p with state := keep lenBytes } (line ++ (crlf ++ rest)) keep lenBytes null
        (enterAggregate empty state) =
      again { p with
        currentDepth := p.currentDepth + 1
        state := state len.toNatClampNeg } rest := by
  rw [lenStep_enter hline hlen hneg, enterAggregate, if_neg (Nat.not_lt_of_le hmax), if_neg hpos,
    if_neg (Nat.not_lt_of_le hdepth)]

/-- An aggregate that announces no elements is complete. -/
theorem lenStep_empty {p : RespParser} {keep : Bytes → ParseState} {lenBytes line : Bytes}
    {null : Option RespValue} {empty : RespValue} {state : Nat → ParseState} {len : Int64}
    (hline : CrlfFree line) (hlen : parseI64 (lenBytes ++ line) = some len)
    (hneg : ¬ len < 0) (hzero : len.toNatClampNeg = 0) (rest : Bytes) :
    lenStep { p with state := keep lenBytes } (line ++ (crlf ++ rest)) keep lenBytes null
        (enterAggregate empty state) =
      complete empty p rest := by
  rw [lenStep_enter hline hlen hneg, hzero, enterAggregate, if_neg (Nat.not_lt_zero _),
    if_pos rfl]
  rfl

variable [F64Text]

theorem parse_of_answer {c t : Cursor} {outcome : Outcome}
    (h : parseStep c = answer outcome t.parser t.buf) : parse c = (outcome, t) :=
  parseMachine.run_of_ret h

theorem parse_of_again {c t : Cursor} (h : parseStep c = again t.parser t.buf) :
    parse c = parse t :=
  parseMachine.run_of_loop h

theorem parseStep_frame (p : RespParser) {frame : Frame} (hrem : frame.remaining ≠ 0)
    (buf : Bytes) :
    parseMachine.step ⟨{ p with state := frame.state }, buf⟩ =
      .call frame ⟨{ p with state := .waitingForType }, buf⟩ := by
  cases frame with
  | seq kind rem elems =>
      cases rem with
      | zero => exact absurd rfl hrem
      | succ rem => rfl
  | map rem pairs key =>
      cases rem with
      | zero => exact absurd rfl hrem
      | succ rem => rfl

theorem parse_marker {p : RespParser} {b : UInt8} {state : ParseState}
    (hb : markerState b = some state) (rest : Bytes) :
    parse ⟨{ p with state := .waitingForType }, b :: rest⟩ =
      parse ⟨{ p with state := state }, rest⟩ := by
  apply parse_of_again
  change typeStep b _ _ = _
  unfold markerState at hb
  split at hb
  all_goals first
    | contradiction
    | cases hb; rfl

theorem parse_line {p : RespParser} {kind : LineKind} {data line : Bytes}
    {value : RespValue} (hline : CrlfFree line)
    (hvalue : kind.value (data ++ line) = some value) (rest : Bytes) :
    parse ⟨{ p with state := .line kind data }, line ++ (crlf ++ rest)⟩ =
      (.ok (some value), ⟨{ p with state := .waitingForType }, rest⟩) := by
  apply parse_of_answer
  change lineStep kind _ _ _ = _
  rw [lineStep, withLine_line hline, hvalue]
  rfl

theorem parse_bulkData {p : RespParser} {kind : BulkKind} {len : Nat} {data body : Bytes}
    {value : RespValue} (hbody : data.length + body.length = len)
    (hvalue : kind.value (data ++ body) = some value) (rest : Bytes) :
    parse ⟨{ p with state := .bulkData kind len data }, body ++ (crlf ++ rest)⟩ =
      (.ok (some value), ⟨{ p with state := .waitingForType }, rest⟩) := by
  apply parse_of_answer
  change bulkDataStep kind _ _ _ _ = _
  have hneeded : checkedSub (len + 2) data.length = some (body.length + 2) := by
    rw [checkedSub, if_pos (by omega)]
    congr 1
    omega
  have hdata : checkedSub len data.length = some body.length := by
    rw [checkedSub, if_pos (by omega)]
    congr 1
    omega
  have hslice : slice (body ++ (crlf ++ rest)) 0 body.length = some body := by
    simp [slice]
  have hterm : slice (body ++ (crlf ++ rest)) body.length (body.length + 2) = some crlf := by
    simp [slice, crlf, List.take_append]
  have hrest : advance (body ++ (crlf ++ rest)) (body.length + 2) = some rest := by
    simp [advance, crlf, List.drop_append]
  have hlength : ¬ (body ++ (crlf ++ rest)).length < body.length + 2 := by
    simp [crlf]
  simp only [bulkDataStep, hneeded, hdata, hslice, hterm, hrest, hlength, ↓reduceIte,
    ne_eq, not_true_eq_false, hvalue]
  rfl

theorem parse_bulkLen {p : RespParser} {kind : BulkKind} {lenBytes line : Bytes}
    {len : Int64} (hline : CrlfFree line) (hlen : parseI64 (lenBytes ++ line) = some len)
    (hneg : ¬ len < 0) (hmin : kind.minLen ≤ len.toNatClampNeg)
    (hmax : len.toNatClampNeg ≤ p.maxBulkSize) (rest : Bytes) :
    parse ⟨{ p with state := .bulkLen kind lenBytes }, line ++ (crlf ++ rest)⟩ =
      parse ⟨{ p with state := .bulkData kind len.toNatClampNeg [] }, rest⟩ := by
  apply parse_of_again
  change lenStep _ _ _ _ _ _ = _
  rw [lenStep_enter hline hlen hneg]
  rw [BulkKind.enter, if_neg (Nat.not_lt_of_le hmax)]
  cases kind with
  | bulkString => exact if_neg (Nat.one_le_iff_ne_zero.mp hmin)
  | bulkError => exact if_neg (Nat.one_le_iff_ne_zero.mp hmin)
  | verbatimString => exact if_neg (Nat.not_lt_of_le hmin)

theorem parse_emptyBulk {p : RespParser} {kind : BulkKind} {lenBytes line : Bytes}
    {len : Int64} {value : RespValue} (hline : CrlfFree line)
    (hlen : parseI64 (lenBytes ++ line) = some len) (hneg : ¬ len < 0)
    (hzero : len.toNatClampNeg = 0) (hkind : kind ≠ .verbatimString)
    (hvalue : kind.value [] = some value) (rest : Bytes) :
    parse ⟨{ p with state := .bulkLen kind lenBytes },
        line ++ (crlf ++ (crlf ++ rest))⟩ =
      (.ok (some value), ⟨{ p with state := .waitingForType }, rest⟩) := by
  apply parse_of_answer
  change lenStep _ _ _ _ _ _ = _
  rw [lenStep_enter hline hlen hneg, hzero]
  cases kind with
  | bulkString => cases hvalue; rfl
  | bulkError => cases hvalue; rfl
  | verbatimString => exact absurd rfl hkind

theorem parse_nullBulk {p : RespParser} {kind : BulkKind} {lenBytes line : Bytes}
    (hline : CrlfFree line) (hlen : parseI64 (lenBytes ++ line) = some (-1))
    (rest : Bytes) :
    parse ⟨{ p with state := .bulkLen kind lenBytes }, line ++ (crlf ++ rest)⟩ =
      (.ok (some kind.null), ⟨{ p with state := .waitingForType }, rest⟩) := by
  apply parse_of_answer
  change lenStep _ _ _ _ _ _ = _
  exact lenStep_null hline hlen rest

omit [F64Text] in
/-- A body with a value and less than the kind's minimal length is empty; a
verbatim body carries its format and colon. -/
theorem BulkKind.of_lt_minLen {kind : BulkKind} {body : Bytes} {value : RespValue}
    (hvalue : kind.value body = some value) (hmin : ¬ kind.minLen ≤ body.length) :
    kind ≠ .verbatimString ∧ body.length = 0 := by
  have hkind : kind ≠ .verbatimString := by
    rintro rfl
    match body with
    | [] => cases hvalue
    | [_] => cases hvalue
    | [_, _] => cases hvalue
    | [_, _, _] => cases hvalue
    | _ :: _ :: _ :: _ :: _ =>
        simp only [BulkKind.minLen, List.length_cons] at hmin
        omega
  refine ⟨hkind, ?_⟩
  cases kind <;> simp only [BulkKind.minLen] at hmin
  · omega
  · omega
  · exact absurd rfl hkind

/-- A body within the limits behind its length line. -/
theorem parse_bulk {p : RespParser} {kind : BulkKind} {lenBytes line body : Bytes}
    {len : Int64} {value : RespValue} (hline : CrlfFree line)
    (hlen : parseI64 (lenBytes ++ line) = some len) (hneg : ¬ len < 0)
    (hbody : body.length = len.toNatClampNeg) (hmax : body.length ≤ p.maxBulkSize)
    (hvalue : kind.value body = some value) (rest : Bytes) :
    parse ⟨{ p with state := .bulkLen kind lenBytes },
        line ++ (crlf ++ (body ++ (crlf ++ rest)))⟩ =
      (.ok (some value), ⟨{ p with state := .waitingForType }, rest⟩) := by
  by_cases hmin : kind.minLen ≤ body.length
  · rw [parse_bulkLen hline hlen hneg (hbody ▸ hmin) (hbody ▸ hmax)]
    exact parse_bulkData (by simpa using hbody) hvalue rest
  · obtain ⟨hkind, hzero⟩ := BulkKind.of_lt_minLen hvalue hmin
    obtain rfl := List.eq_nil_of_length_eq_zero hzero
    exact parse_emptyBulk hline hlen hneg hbody.symm hkind hvalue rest

theorem parse_seqLen {p : RespParser} {kind : SeqKind} {lenBytes line : Bytes}
    {len : Int64} (hline : CrlfFree line) (hlen : parseI64 (lenBytes ++ line) = some len)
    (hneg : ¬ len < 0) (hpos : len.toNatClampNeg ≠ 0)
    (hmax : len.toNatClampNeg ≤ p.maxArrayLen) (hdepth : p.currentDepth + 1 ≤ p.maxDepth)
    (rest : Bytes) :
    parse ⟨{ p with state := .seqLen kind lenBytes }, line ++ (crlf ++ rest)⟩ =
      parse ⟨{ p with
        currentDepth := p.currentDepth + 1
        state := .seqData kind len.toNatClampNeg [] }, rest⟩ := by
  apply parse_of_again
  change lenStep _ _ _ _ _ _ = _
  exact lenStep_opens hline hlen hneg hpos hmax hdepth rest

theorem parse_emptySeq {p : RespParser} {kind : SeqKind} {lenBytes line : Bytes}
    {len : Int64} (hline : CrlfFree line) (hlen : parseI64 (lenBytes ++ line) = some len)
    (hneg : ¬ len < 0) (hzero : len.toNatClampNeg = 0) (rest : Bytes) :
    parse ⟨{ p with state := .seqLen kind lenBytes }, line ++ (crlf ++ rest)⟩ =
      (.ok (some (kind.value [])), ⟨{ p with state := .waitingForType }, rest⟩) := by
  apply parse_of_answer
  change lenStep _ _ _ _ _ _ = _
  exact lenStep_empty hline hlen hneg hzero rest

theorem parse_mapLen {p : RespParser} {lenBytes line : Bytes}
    {len : Int64} (hline : CrlfFree line) (hlen : parseI64 (lenBytes ++ line) = some len)
    (hneg : ¬ len < 0) (hpos : len.toNatClampNeg ≠ 0)
    (hmax : len.toNatClampNeg ≤ p.maxArrayLen) (hdepth : p.currentDepth + 1 ≤ p.maxDepth)
    (rest : Bytes) :
    parse ⟨{ p with state := .mapLen lenBytes }, line ++ (crlf ++ rest)⟩ =
      parse ⟨{ p with
        currentDepth := p.currentDepth + 1
        state := .mapData len.toNatClampNeg [] none }, rest⟩ := by
  apply parse_of_again
  change lenStep _ _ _ _ _ _ = _
  exact lenStep_opens hline hlen hneg hpos hmax hdepth rest

theorem parse_emptyMap {p : RespParser} {lenBytes line : Bytes}
    {len : Int64} (hline : CrlfFree line) (hlen : parseI64 (lenBytes ++ line) = some len)
    (hneg : ¬ len < 0) (hzero : len.toNatClampNeg = 0) (rest : Bytes) :
    parse ⟨{ p with state := .mapLen lenBytes }, line ++ (crlf ++ rest)⟩ =
      (.ok (some (.map [])), ⟨{ p with state := .waitingForType }, rest⟩) := by
  apply parse_of_answer
  change lenStep _ _ _ _ _ _ = _
  exact lenStep_empty hline hlen hneg hzero rest

theorem parse_frame_grows {p : RespParser} {frame frame' : Frame} {item : RespValue}
    {bytes : Bytes} (hrem : frame.remaining ≠ 0) (hgrows : frame.Grows item frame')
    (hitem : Reads p bytes item) (tail : Bytes) :
    parse ⟨{ p with state := frame.state }, bytes ++ tail⟩ =
      parse ⟨{ p with state := frame'.state }, tail⟩ := by
  apply parseMachine.run_of_callLoop (parseStep_frame p hrem _)
  rw [show parseMachine.run _ = _ from hitem tail]
  exact parseResume_grows hgrows _

theorem parse_frame_closes {p : RespParser} {frame : Frame} {item value : RespValue}
    {bytes : Bytes} (hcloses : frame.Closes item value) (hitem : Reads p bytes item)
    (hdepth : 0 < p.currentDepth) (tail : Bytes) :
    parse ⟨{ p with state := frame.state }, bytes ++ tail⟩ =
      (.ok (some value),
        ⟨{ p with state := .waitingForType, currentDepth := p.currentDepth - 1 }, tail⟩) := by
  have hrem : frame.remaining ≠ 0 := by
    cases hcloses <;> simp [Frame.remaining]
  apply parseMachine.run_of_callRet (parseStep_frame p hrem _)
  rw [show parseMachine.run _ = _ from hitem tail]
  refine (parseResume_closes hcloses _).trans ?_
  simp only [leaveAggregate, checkedSub, if_pos (Nat.succ_le_of_lt hdepth)]

/-- With nothing to read an open frame stays as it is. -/
theorem parse_frame_nil (p : RespParser) {frame : Frame} (hrem : frame.remaining ≠ 0) :
    parse ⟨{ p with state := frame.state }, []⟩ =
      (.ok none, ⟨{ p with state := frame.state }, []⟩) := by
  apply parseMachine.run_of_callRet (parseStep_frame p hrem _)
  have hnil : parseMachine.run ⟨{ p with state := .waitingForType }, []⟩ =
      (.ok none, ⟨{ p with state := .waitingForType }, []⟩) :=
    parseMachine.run_of_ret rfl
  rw [hnil]
  rfl

theorem parse_frame_growsAll {p : RespParser} {frame frame' : Frame}
    {items : List RespValue} (hrem : frame.remaining ≠ 0)
    (hgrows : frame.GrowsAll items frame')
    (hitems : ∀ item ∈ items, Reads p (encode item) item) (tail : Bytes) :
    parse ⟨{ p with state := frame.state }, encodeAll items ++ tail⟩ =
      parse ⟨{ p with state := frame'.state }, tail⟩ := by
  induction hgrows with
  | nil frame => rfl
  | cons head rest ih =>
      rw [encodeAll, List.append_assoc,
        parse_frame_grows hrem head (hitems _ List.mem_cons_self)]
      exact ih (head.remaining_ne_zero hrem)
        fun item hitem => hitems item (List.mem_cons_of_mem _ hitem)

/-- Items that are read one after the other, in whatever form they are written,
close the frame that waits for them. -/
theorem parse_items_close {ι : Type*} {p : RespParser} {frame : Frame} {items : List ι}
    {bytes : ι → Bytes} {item : ι → RespValue} {value : RespValue}
    (hcloses : frame.ClosesAll (items.map item) value)
    (hitems : ∀ i ∈ items, Reads p (bytes i) (item i)) (hdepth : 0 < p.currentDepth)
    (tail : Bytes) :
    parse ⟨{ p with state := frame.state }, items.flatMap bytes ++ tail⟩ =
      (.ok (some value),
        ⟨{ p with state := .waitingForType, currentDepth := p.currentDepth - 1 }, tail⟩) := by
  induction items generalizing frame with
  | nil => cases hcloses
  | cons i items ih =>
      have hrem := hcloses.remaining_ne_zero
      have hread := hitems i List.mem_cons_self
      rw [List.flatMap_cons, List.append_assoc]
      rw [List.map_cons] at hcloses
      generalize hrest : items.map item = rest at hcloses
      cases hcloses with
      | last hlast =>
          obtain rfl := List.map_eq_nil_iff.mp hrest
          exact parse_frame_closes hlast hread hdepth tail
      | cons head more =>
          rw [parse_frame_grows hrem head hread]
          exact ih (hrest ▸ more) fun j hj => hitems j (List.mem_cons_of_mem _ hj)

/-- A complete list of items closes the frame that waits for them. -/
theorem parse_frame_closesAll {p : RespParser} {frame : Frame} {items : List RespValue}
    {value : RespValue} (hcloses : frame.ClosesAll items value)
    (hitems : ∀ item ∈ items, Reads p (encode item) item)
    (hdepth : 0 < p.currentDepth) (tail : Bytes) :
    parse ⟨{ p with state := frame.state }, encodeAll items ++ tail⟩ =
      (.ok (some value),
        ⟨{ p with state := .waitingForType, currentDepth := p.currentDepth - 1 }, tail⟩) := by
  rw [encodeAll_eq_flatMap]
  rw [← List.map_id items] at hcloses
  exact parse_items_close hcloses hitems hdepth tail

theorem opening_remaining_lt {value : RespValue} (h : Writable value) :
    value.opening.remaining < 2 ^ 63 := by
  cases value with
  | array arr =>
      cases arr with
      | none => exact Nat.two_pow_pos 63
      | some elements => exact h
  | map pairs => exact h
  | set elements => exact h
  | push elements => exact h
  | _ => exact Nat.two_pow_pos 63

theorem cr_not_mem_countText {value : RespValue} (h : Writable value) :
    13 ∉ value.countText := by
  obtain ⟨len, hparse, -⟩ := parseI64_text (opening_remaining_lt h)
  have htext := cr_not_mem_of_parseI64 hparse
  cases value with
  | array arr =>
      cases arr with
      | none => decide
      | some elements => exact htext
  | _ => exact htext

/-- A count within the limits opens the aggregate's frame. -/
theorem parse_counted {p : RespParser} {value : RespValue} (hitems : value.items ≠ [])
    (hfits : FitsLimits p value) (hdepth : p.currentDepth + 1 ≤ p.maxDepth)
    {lenBytes line : Bytes} {len : Int64} (hline : CrlfFree line)
    (hlen : parseI64 (lenBytes ++ line) = some len) (hneg : ¬ len < 0)
    (hcount : len.toNatClampNeg = value.opening.remaining) (tail : Bytes) :
    parse ⟨{ p with state := value.lenState lenBytes }, line ++ (crlf ++ tail)⟩ =
      parse ⟨{ p with
        currentDepth := p.currentDepth + 1
        state := value.opening.state }, tail⟩ := by
  have hmax := RespValue.opening_remaining_le hfits
  have hpos := RespValue.opening_remaining_ne_zero hitems
  rw [← hcount] at hmax hpos
  have hseq : ∀ kind : SeqKind,
      parse ⟨{ p with state := .seqLen kind lenBytes }, line ++ (crlf ++ tail)⟩ =
        parse ⟨{ p with
          currentDepth := p.currentDepth + 1
          state := .seqData kind value.opening.remaining [] }, tail⟩ := by
    intro kind
    rw [parse_seqLen hline hlen hneg hpos hmax hdepth, hcount]
  cases value with
  | array arr =>
      cases arr with
      | none => exact absurd rfl hitems
      | some elements => exact hseq .array
  | set elements => exact hseq .set
  | push elements => exact hseq .push
  | map pairs =>
      refine (parse_mapLen hline hlen hneg hpos hmax hdepth tail).trans ?_
      rw [hcount]
      rfl
  | _ => exact absurd rfl hitems

/-- An aggregate without items is complete with its length line. -/
theorem parse_counted_empty {p : RespParser} {value : RespValue}
    (hagg : value.isAggregate = true) (hnull : value ≠ .array none) (hitems : value.items = [])
    {lenBytes line : Bytes} {len : Int64} (hline : CrlfFree line)
    (hlen : parseI64 (lenBytes ++ line) = some len) (hneg : ¬ len < 0)
    (hzero : len.toNatClampNeg = 0) (tail : Bytes) :
    parse ⟨{ p with state := value.lenState lenBytes }, line ++ (crlf ++ tail)⟩ =
      (.ok (some value), ⟨{ p with state := .waitingForType }, tail⟩) := by
  cases value with
  | array arr =>
      cases arr with
      | none => exact absurd rfl hnull
      | some elements =>
          obtain rfl : elements = [] := hitems
          exact parse_emptySeq hline hlen hneg hzero tail
  | set elements =>
      obtain rfl : elements = [] := hitems
      exact parse_emptySeq hline hlen hneg hzero tail
  | push elements =>
      obtain rfl : elements = [] := hitems
      exact parse_emptySeq hline hlen hneg hzero tail
  | map pairs =>
      obtain rfl : pairs = [] :=
        List.eq_nil_of_length_eq_zero (RespValue.opening_remaining_eq_zero hitems)
      exact parse_emptyMap hline hlen hneg hzero tail
  | _ => cases hagg

/-- The rest of a length line within the limits opens the aggregate's frame. -/
theorem parse_count {p : RespParser} {value : RespValue} (hitems : value.items ≠ [])
    (hwrite : Writable value) (hfits : FitsLimits p value)
    (hdepth : p.currentDepth + 1 ≤ p.maxDepth) {lenBytes line : Bytes}
    (hcount : lenBytes ++ line = value.countText) (tail : Bytes) :
    parse ⟨{ p with state := value.lenState lenBytes }, line ++ (crlf ++ tail)⟩ =
      parse ⟨{ p with
        currentDepth := p.currentDepth + 1
        state := value.opening.state }, tail⟩ := by
  have hline : CrlfFree line :=
    (crlfFree_of_cr_not_mem (hcount ▸ cr_not_mem_countText hwrite)).of_append_right
  obtain ⟨len, hparse, hnat, hneg⟩ := parseI64_text (opening_remaining_lt hwrite)
  have hnull : value ≠ .array none := by
    rintro rfl
    exact hitems rfl
  rw [← RespValue.countText_eq hnull, ← hcount] at hparse
  exact parse_counted hitems hfits hdepth hline hparse hneg hnat tail

/-- An aggregate without items, the null array among them, is complete with its
length line. -/
theorem parse_count_empty {p : RespParser} {value : RespValue}
    (hagg : value.isAggregate = true) (hitems : value.items = []) {lenBytes line : Bytes}
    (hcount : lenBytes ++ line = value.countText) (tail : Bytes) :
    parse ⟨{ p with state := value.lenState lenBytes }, line ++ (crlf ++ tail)⟩ =
      (.ok (some value), ⟨{ p with state := .waitingForType }, tail⟩) := by
  by_cases hnull : value = .array none
  · subst hnull
    have hline : CrlfFree line := by
      refine CrlfFree.of_append_right (s := lenBytes) ?_
      rw [hcount]
      decide
    apply parse_of_answer
    change lenStep _ _ _ _ _ _ = _
    exact lenStep_null hline (hcount ▸ parseI64_of_i64FromStr (by decide)) tail
  · rw [RespValue.countText_eq hnull, RespValue.opening_remaining_eq_zero hitems] at hcount
    have hline : CrlfFree line := by
      refine CrlfFree.of_append_right (s := lenBytes) ?_
      rw [hcount]
      decide
    have hzero : parseI64 (lenBytes ++ line) = some 0 := by
      rw [hcount]
      exact parseI64_zero
    exact parse_counted_empty hagg hnull hitems hline hzero (by decide) (by decide) tail

end Seshat
