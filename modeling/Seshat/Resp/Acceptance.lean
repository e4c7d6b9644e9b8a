/-
What one call accepts.  The bytes read so far of the current frame are followed
through every pass of the loop: a value comes out of exactly the frames of the
wire grammar within the limits, and what comes out can be written again.
-/
import Seshat.Resp.Grammar
import Seshat.Resp.Invariant
import Seshat.Resp.RoundTrip

namespace Seshat

open CallMachine Decimal RespValue

section

variable [F64Text]

/-- What a state has read of the current frame within one call.  Nothing is
accumulated in a line or a body that a single call reads, and an aggregate
that is open waits for elements. -/
inductive Opened : ParseState → Bytes → Prop where
  | waiting : Opened .waitingForType []
  | line (kind : LineKind) : Opened (.line kind []) [(FrameKind.line kind).marker]
  | bulkLen (kind : BulkKind) : Opened (.bulkLen kind []) [(FrameKind.bulk kind).marker]
  | bulkData (kind : BulkKind) {count : Bytes} {len : Nat} (hcount : Declares count len) :
      Opened (.bulkData kind len []) ((FrameKind.bulk kind).marker :: (count ++ crlf))
  | seqLen (kind : SeqKind) : Opened (.seqLen kind []) [(FrameKind.seq kind).marker]
  | mapLen : Opened (.mapLen []) [FrameKind.map.marker]
  | seqData (kind : SeqKind) {count : Bytes} {rem : Nat} {frames : List WireFrame}
      (hcount : Declares count (frames.length + (rem + 1)))
      (hframes : ∀ frame ∈ frames, Wire frame) :
      Opened (.seqData kind (rem + 1) (frames.map WireFrame.value))
        ((FrameKind.seq kind).marker :: (count ++ (crlf ++ frames.flatMap WireFrame.bytes)))
  | mapData {count : Bytes} {rem : Nat} {pairs : List (RespValue × RespValue)}
      {key : Option RespValue} {frames : List WireFrame}
      (hcount : Declares count (pairs.length + (rem + 1)))
      (hitems : frames.map WireFrame.value = pairItems pairs ++ key.toList)
      (hframes : ∀ frame ∈ frames, Wire frame) :
      Opened (.mapData (rem + 1) pairs key)
        (FrameKind.map.marker :: (count ++ (crlf ++ frames.flatMap WireFrame.bytes)))

/-- The bytes read so far and still to come begin with a frame of the value. -/
def Derives (input : Bytes) (value : RespValue) (rest : Bytes) : Prop :=
  ∃ frame, Wire frame ∧ frame.value = value ∧ input = frame.bytes ++ rest

theorem Wire.derives {kind : FrameKind} {line content : Bytes} {value : RespValue}
    {booleans : List UInt8} (h : Wire ⟨kind, line, content, value, booleans⟩) (rest : Bytes) :
    Derives (kind.marker :: (line ++ (crlf ++ (content ++ rest)))) value rest :=
  ⟨_, h, rfl, by simp [WireFrame.bytes]⟩

/-- What a pass does with the input, by the bytes read before it and its
buffer: a value it answers is derived, and going round keeps track of what is
read. -/
def Follows (input : Bytes) : Pass → Prop
  | .next (.ret (.ok (some value)) c) => Derives input value c.buf
  | .next (.ret _ _) => True
  | .next (.loop c) => ∃ opened, Opened c.parser.state opened ∧ input = opened ++ c.buf
  | .call _ _ => True

theorem typeStep_follows (b : UInt8) (p : RespParser) (buf : Bytes) :
    Follows (b :: buf) (typeStep b p buf) := by
  unfold typeStep
  split
  case h_6 =>
    split
    · rename_i a b rest
      split
      · trivial
      · rename_i hcrlf
        obtain ⟨rfl, rfl⟩ : a = 13 ∧ b = 10 := by simpa [crlf] using hcrlf
        exact Wire.null.derives rest
    · trivial
  case h_7 =>
    split
    · rename_i val a b rest
      split
      · trivial
      · rename_i hcrlf
        obtain ⟨rfl, rfl⟩ : a = 13 ∧ b = 10 := by simpa [crlf] using hcrlf
        exact (Wire.boolean val).derives rest
    · trivial
  case h_15 => trivial
  all_goals first
    | exact ⟨_, .line _, rfl⟩
    | exact ⟨_, .bulkLen _, rfl⟩
    | exact ⟨_, .seqLen _, rfl⟩
    | exact ⟨_, .mapLen, rfl⟩

theorem waitingStep_follows (p : RespParser) (buf : Bytes) :
    Follows buf (waitingStep p buf) := by
  cases buf with
  | nil => trivial
  | cons b buf => exact typeStep_follows b p buf

theorem LineKind.value_eq_some_iff {kind : LineKind} {text : Bytes} {value : RespValue} :
    kind.value text = some value ↔ kind.Denotes text value := by
  cases kind with
  | simpleString => exact Option.some_inj.trans eq_comm
  | error => exact Option.some_inj.trans eq_comm
  | bigNumber => exact Option.some_inj.trans eq_comm
  | integer =>
      refine Option.map_eq_some_iff.trans (exists_congr fun i => and_congr ?_ eq_comm)
      exact ⟨i64FromStr_of_parseI64, parseI64_of_i64FromStr⟩
  | double =>
      exact Option.map_eq_some_iff.trans (exists_congr fun d => and_congr Iff.rfl eq_comm)

omit [F64Text] in
theorem BulkKind.value_eq_some_iff {kind : BulkKind} {body : Bytes} {value : RespValue} :
    kind.value body = some value ↔ kind.Denotes body value := by
  cases kind with
  | bulkString => exact Option.some_inj.trans eq_comm
  | bulkError => exact Option.some_inj.trans eq_comm
  | verbatimString =>
      constructor
      · intro h
        unfold BulkKind.value at h
        split at h
        · contradiction
        · contradiction
        · split at h
          · rename_i hcolon
            cases h
            exact ⟨_, _, _, _, by rw [hcolon], rfl⟩
          · cases h
        · cases h
      · rintro ⟨f₀, f₁, f₂, data, rfl, rfl⟩
        rfl

theorem lineStep_follows (kind : LineKind) (p : RespParser) (buf : Bytes) :
    Follows ((FrameKind.line kind).marker :: buf) (lineStep kind p buf []) := by
  rcases crlfFree_or_line buf with hbuf | ⟨text, rest, htext, rfl⟩
  · rw [lineStep, withLine_more hbuf]
    trivial
  · rw [lineStep, withLine_line htext, List.nil_append]
    cases hvalue : kind.value text with
    | none => trivial
    | some value => exact (Wire.line htext (LineKind.value_eq_some_iff.mp hvalue)).derives rest

omit [F64Text] in
/-- A length that is not negative is what its text declares. -/
theorem declares_iff {count : Bytes} {n : Nat} :
    Declares count n ↔
      ∃ len, parseI64 count = some len ∧ ¬ len < 0 ∧ len.toNatClampNeg = n := by
  constructor
  · rintro ⟨len, hlen, hn⟩
    refine ⟨len, parseI64_of_i64FromStr hlen, ?_, ?_⟩
    · rw [Int64.lt_iff_toInt_lt, hn]
      simp
    · rw [← Int64.toNat_toInt, hn]
      rfl
  · rintro ⟨len, hlen, hneg, rfl⟩
    refine ⟨len, i64FromStr_of_parseI64 hlen, ?_⟩
    rw [Int64.lt_iff_toInt_lt] at hneg
    rw [← Int64.toNat_toInt, Int.toNat_of_nonneg (by simpa using hneg)]

/-- A length line leads to the null form or to what the kind does with a
declared length. -/
theorem lenStep_follows (kind : FrameKind) {p : RespParser} {keep : Bytes → ParseState}
    {null : Option RespValue} {enter : RespParser → Nat → Bytes → Pass}
    (hnull : ∀ {count value}, i64FromStr count = some (-1) → null = some value →
      Wire ⟨kind, count, [], value, []⟩)
    (henter : ∀ {count n} (p : RespParser) (rest : Bytes), Declares count n →
      Follows (kind.marker :: (count ++ (crlf ++ rest))) (enter p n rest))
    (buf : Bytes) : Follows (kind.marker :: buf) (lenStep p buf keep [] null enter) := by
  rcases crlfFree_or_line buf with hbuf | ⟨count, rest, hcount, rfl⟩
  · rw [lenStep, withLine_more hbuf]
    trivial
  · rw [lenStep, withLine_line hcount, List.nil_append]
    cases hlen : parseI64 count with
    | none => trivial
    | some len =>
        dsimp only
        split
        · rename_i value hminus
          have hcount := i64FromStr_of_parseI64 hlen
          rw [of_decide_eq_true hminus] at hcount
          exact (hnull hcount rfl).derives rest
        · split
          · trivial
          · rename_i hneg
            exact henter _ rest (declares_iff.mpr ⟨len, hlen, hneg, rfl⟩)

/-- The closing CRLF of an empty body is read with its length line. -/
theorem emptyBulk_follows (kind : BulkKind) {count : Bytes} {value : RespValue}
    (hcount : Declares count 0) (hvalue : kind.Denotes [] value) (p : RespParser)
    (rest : Bytes) :
    Follows ((FrameKind.bulk kind).marker :: (count ++ (crlf ++ rest)))
      (emptyBulk kind value p rest) := by
  unfold emptyBulk
  split
  · rename_i a b rest
    split
    · trivial
    · rename_i hcrlf
      obtain ⟨rfl, rfl⟩ : a = 13 ∧ b = 10 := by simpa [crlf] using hcrlf
      exact (Wire.bulk hcount hvalue).derives rest
  · trivial

theorem BulkKind.enter_follows (kind : BulkKind) {count : Bytes} {n : Nat} (p : RespParser)
    (rest : Bytes) (hcount : Declares count n) :
    Follows ((FrameKind.bulk kind).marker :: (count ++ (crlf ++ rest))) (kind.enter p n rest) := by
  have hopen : Follows ((FrameKind.bulk kind).marker :: (count ++ (crlf ++ rest)))
      (again { p with state := .bulkData kind n [] } rest) :=
    ⟨_, .bulkData kind hcount, by simp⟩
  unfold BulkKind.enter
  split
  · trivial
  · cases kind with
    | bulkString =>
        dsimp only
        split
        · rename_i hzero
          exact emptyBulk_follows .bulkString (hzero ▸ hcount) rfl p rest
        · exact hopen
    | bulkError =>
        dsimp only
        split
        · rename_i hzero
          exact emptyBulk_follows .bulkError (hzero ▸ hcount) rfl p rest
        · exact hopen
    | verbatimString =>
        dsimp only
        split
        · trivial
        · exact hopen

omit [F64Text] in
/-- A body hands out its value with all its bytes and their CRLF. -/
theorem Exits.body {p : RespParser} {kind : BulkKind} {len : Nat}
    (hp : p.state = .bulkData kind len []) {buf : Bytes} {value : RespValue} {c : Cursor}
    (h : Exits p buf (.ok (some value)) c) :
    ∃ body, body.length = len ∧ kind.Denotes body value ∧ buf = body ++ (crlf ++ c.buf) := by
  generalize houtcome : Outcome.ok (some value) = outcome at h
  cases h with
  | immediate hp' hv b body rest => exact absurd (hp.symm.trans hp') (by simp)
  | lineValue hkeep hp' hv line skipped rest =>
      cases hkeep <;> exact absurd (hp.symm.trans hp') (by simp)
  | @bodyValue kind' len' data' hp' body hbody value' hv rest =>
      obtain ⟨rfl, rfl, rfl⟩ : kind = kind' ∧ len = len' ∧ [] = data' := by
        simpa using hp.symm.trans hp'
      cases houtcome
      exact ⟨body, by simpa using hbody, BulkKind.value_eq_some_iff.mp hv, rfl⟩
  | @spent frame hp' hrem buf outcome q hq =>
      cases frame <;> exact absurd (hp.symm.trans hp') (by simp [Frame.state])
  | _ => cases houtcome

theorem bulkDataStep_follows (kind : BulkKind) {count : Bytes} {len : Nat} {p : RespParser}
    (hp : p.state = .bulkData kind len []) (hcount : Declares count len) (buf : Bytes) :
    Follows ((FrameKind.bulk kind).marker :: (count ++ (crlf ++ buf)))
      (bulkDataStep kind p buf len []) := by
  have hpass := bulkDataStep_passOf hp buf
  generalize bulkDataStep kind p buf len [] = pass at hpass
  rcases pass with (⟨(value | e | _), c⟩ | c) | ⟨frame, c⟩
  · cases value with
    | none => trivial
    | some value =>
        obtain ⟨body, rfl, hvalue, rfl⟩ := Exits.body hp hpass
        have hframe := (Wire.bulk hcount hvalue).derives c.buf
        rwa [List.append_assoc] at hframe
  · trivial
  · trivial
  · cases hpass with
    | marker hp' hb rest => exact absurd (hp.symm.trans hp') (by simp)
    | openBody hp' hline hlen hmin hmax rest => exact absurd (hp.symm.trans hp') (by simp)
    | openFrame hkeep hp' hframe hempty hdepth line rest =>
        cases hkeep <;> exact absurd (hp.symm.trans hp') (by simp)
  · trivial

theorem enterAggregate_follows {kind : FrameKind} {count : Bytes} {n : Nat}
    {empty : RespValue} {state : Nat → ParseState} (p : RespParser) (rest : Bytes)
    (hempty : Declares count 0 → Wire ⟨kind, count, [], empty, []⟩)
    (hstate : ∀ m, Declares count (m + 1) →
      Opened (state (m + 1)) (kind.marker :: (count ++ crlf)))
    (hcount : Declares count n) :
    Follows (kind.marker :: (count ++ (crlf ++ rest))) (enterAggregate empty state p n rest) := by
  unfold enterAggregate
  split
  · trivial
  · split
    · rename_i hzero
      exact (hempty (hzero ▸ hcount)).derives rest
    · rename_i hpos
      split
      · trivial
      · obtain ⟨m, rfl⟩ := Nat.exists_eq_succ_of_ne_zero hpos
        exact ⟨_, hstate m hcount, by simp⟩

theorem bulkLen_follows (kind : BulkKind) (p : RespParser) (buf : Bytes) :
    Follows ((FrameKind.bulk kind).marker :: buf)
      (lenStep p buf (.bulkLen kind) [] (some kind.null) kind.enter) := by
  refine lenStep_follows (.bulk kind) ?_ kind.enter_follows buf
  intro count value hcount hnull
  rw [← Option.some.inj hnull]
  exact .nullBulk kind hcount

theorem seqLen_follows (kind : SeqKind) (p : RespParser) (buf : Bytes) :
    Follows ((FrameKind.seq kind).marker :: buf)
      (lenStep p buf (.seqLen kind) [] kind.null
        (enterAggregate (kind.value []) fun len => .seqData kind len [])) := by
  refine lenStep_follows (.seq kind) Wire.nullSeq ?_ buf
  intro count n p rest hcount
  refine enterAggregate_follows p rest ?_ ?_ hcount
  · intro hzero
    exact @Wire.seq _ kind count [] hzero (by simp)
  · intro m hm
    have hopen := @Opened.seqData _ kind count m [] (by simpa using hm) (by simp)
    simpa using hopen

theorem mapLen_follows (p : RespParser) (buf : Bytes) :
    Follows (FrameKind.map.marker :: buf)
      (lenStep p buf .mapLen [] (some .null)
        (enterAggregate (.map []) fun len => .mapData len [] none)) := by
  refine lenStep_follows .map ?_ ?_ buf
  · intro count value hcount hnull
    rw [← Option.some.inj hnull]
    exact .nullMap hcount
  · intro count n p rest hcount
    refine enterAggregate_follows p rest ?_ ?_ hcount
    · intro hzero
      exact @Wire.map _ count [] [] hzero rfl (by simp)
    · intro m hm
      have hopen := @Opened.mapData _ count m [] none [] (by simpa using hm) rfl (by simp)
      simpa using hopen

/-- From what a state has read, a pass follows the grammar. -/
theorem parseStep_follows {p : RespParser} {opened : Bytes} (h : Opened p.state opened)
    (buf : Bytes) : Follows (opened ++ buf) (parseStep ⟨p, buf⟩) := by
  obtain ⟨state, maxBulkSize, maxArrayLen, maxDepth, currentDepth⟩ := p
  change Opened state opened at h
  cases h with
  | waiting => exact waitingStep_follows _ buf
  | line kind => exact lineStep_follows kind _ buf
  | bulkLen kind => exact bulkLen_follows kind _ buf
  | bulkData kind hcount =>
      rw [List.cons_append, List.append_assoc]
      exact bulkDataStep_follows kind rfl hcount buf
  | seqLen kind => exact seqLen_follows kind _ buf
  | mapLen => exact mapLen_follows _ buf
  | seqData kind hcount hframes => trivial
  | mapData hcount hitems hframes => trivial

theorem wire_concat {frames : List WireFrame} {element : WireFrame}
    (hframes : ∀ frame ∈ frames, Wire frame) (helement : Wire element) :
    ∀ frame ∈ frames ++ [element], Wire frame := by
  intro frame hframe
  rcases List.mem_append.mp hframe with hframe | hframe
  · exact hframes frame hframe
  · rwa [List.mem_singleton.mp hframe]

/-- An element that does not complete its aggregate belongs to what is read of
it. -/
theorem Opened.grows {frame frame' : Frame} {opened : Bytes} {element : WireFrame}
    (h : Opened frame.state opened) (hgrows : frame.Grows element.value frame')
    (helement : Wire element) : Opened frame'.state (opened ++ element.bytes) := by
  cases hgrows with
  | element kind rem elems =>
      cases h with
      | @seqData _ count _ frames hcount hframes =>
          have hlength : frames.length + (rem + 2) = (frames ++ [element]).length + (rem + 1) := by
            rw [List.length_append, List.length_singleton]
            omega
          have hnext := @Opened.seqData _ kind count rem (frames ++ [element])
            (hlength ▸ hcount) (wire_concat hframes helement)
          simpa [Frame.state] using hnext
  | key rem pairs =>
      cases h with
      | @mapData count rem _ _ frames hcount hitems hframes =>
          have hnext := @Opened.mapData _ count rem pairs (some element.value)
            (frames ++ [element]) hcount (by simpa using hitems) (wire_concat hframes helement)
          simpa [Frame.state] using hnext
  | pair rem pairs key =>
      cases h with
      | @mapData count _ _ _ frames hcount hitems hframes =>
          have hlength : pairs.length + (rem + 2) =
              (pairs ++ [(key, element.value)]).length + (rem + 1) := by
            rw [List.length_append, List.length_singleton]
            omega
          have hnext := @Opened.mapData _ count rem (pairs ++ [(key, element.value)]) none
            (frames ++ [element]) (hlength ▸ hcount) (by simp [hitems, pairItems])
            (wire_concat hframes helement)
          simpa [Frame.state] using hnext

/-- The last element completes a frame of the grammar. -/
theorem Opened.closes {frame : Frame} {opened : Bytes} {element : WireFrame}
    {value : RespValue} (h : Opened frame.state opened)
    (hcloses : frame.Closes element.value value) (helement : Wire element) (rest : Bytes) :
    Derives (opened ++ (element.bytes ++ rest)) value rest := by
  cases hcloses with
  | element kind elems =>
      cases h with
      | @seqData _ count _ frames hcount hframes =>
          have hwhole := @Wire.seq _ kind count (frames ++ [element]) (by simpa using hcount)
            (wire_concat hframes helement)
          simpa using hwhole.derives rest
  | pair pairs key =>
      cases h with
      | @mapData count _ _ _ frames hcount hitems hframes =>
          have hwhole := @Wire.map _ count (pairs ++ [(key, element.value)])
            (frames ++ [element]) (by simpa using hcount) (by simp [hitems, pairItems])
            (wire_concat hframes helement)
          simpa using hwhole.derives rest

/-- A call that answers a value has read a frame of that value, together with
what its state had read before. -/
def Parses (s : Cursor) (outcome : Outcome) (t : Cursor) : Prop :=
  ∀ opened value, Opened s.parser.state opened → outcome = .ok (some value) →
    Derives (opened ++ s.buf) value t.buf

theorem keeps_parses : parseBody.Keeps Parses where
  ret {s r t} h := by
    rintro opened value hopened rfl
    have hpass := parseStep_follows hopened s.buf
    rwa [show parseStep ⟨s.parser, s.buf⟩ = _ from h] at hpass
  loop {s s' r t} h hrest := by
    rintro opened value hopened rfl
    have hpass := parseStep_follows hopened s.buf
    rw [show parseStep ⟨s.parser, s.buf⟩ = _ from h] at hpass
    obtain ⟨opened', hopened', heq⟩ := hpass
    rw [heq]
    exact hrest opened' value hopened' rfl
  callRet {s k s₀ r s₁ r' t} h hcall hresume := by
    rintro opened value hopened rfl
    obtain ⟨hp, hrem, rfl⟩ := calls_of_step h
    rw [hp] at hopened
    generalize hnext : Next.ret (Outcome.ok (some value)) t = next at hresume
    cases resumed_of_resume hrem hresume with
    | err e => cases hnext
    | panic => cases hnext
    | missing => cases hnext
    | grows hgrows => cases hnext
    | closes hcloses =>
        obtain ⟨element, helement, rfl, hbuf⟩ := hcall [] _ .waiting rfl
        obtain ⟨ht, ⟨hpanic, -⟩ | ⟨hvalue, -⟩⟩ := leaveAggregate_ret hnext.symm
        · cases hpanic
        · cases hvalue
          rw [show s.buf = element.bytes ++ s₁.buf from hbuf, ht]
          exact hopened.closes hcloses helement s₁.buf
  callLoop {s k s₀ r s₁ s' r' t} h hcall hresume hrest := by
    rintro opened value hopened rfl
    obtain ⟨hp, hrem, rfl⟩ := calls_of_step h
    rw [hp] at hopened
    obtain ⟨element, frame', rfl, hgrows, rfl⟩ :=
      (resumed_of_resume hrem hresume).loop_cases
    obtain ⟨frame, hframe, rfl, hbuf⟩ := hcall [] _ .waiting rfl
    rw [show s.buf = frame.bytes ++ s₁.buf from hbuf, ← List.append_assoc]
    exact hrest _ value (hopened.grows hgrows hframe) rfl

/-- One call on an idle parser accepts only frames of the wire grammar. -/
theorem parse_derives {p : RespParser} (hp : p.state = .waitingForType) {buf : Bytes}
    {value : RespValue} {c : Cursor} (h : parse ⟨p, buf⟩ = (.ok (some value), c)) :
    Derives buf value c.buf := by
  have hparses := parseMachine.run_keeps keeps_parses ⟨p, buf⟩
  rw [show parseMachine.run ⟨p, buf⟩ = _ from h] at hparses
  exact hparses [] value (hp ▸ .waiting) rfl

/-- A frame is read when the rest of it is, from the state its type byte opens. -/
theorem WireFrame.reads_of_marker {p : RespParser} {frame : WireFrame} {state : ParseState}
    (hmarker : markerState frame.kind.marker = some state)
    (h : ∀ rest, parse ⟨{ p with state := state },
        frame.line ++ (crlf ++ (frame.content ++ rest))⟩ =
      (.ok (some frame.value), ⟨{ p with state := .waitingForType }, rest⟩)) :
    Reads p frame.bytes frame.value := by
  intro rest
  rw [WireFrame.bytes, List.cons_append, parse_marker hmarker, List.append_assoc,
    List.append_assoc]
  exact h rest

omit [F64Text] in
theorem SeqKind.items_value (kind : SeqKind) (elements : List RespValue) :
    (kind.value elements).items = elements := by
  cases kind <;> rfl

omit [F64Text] in
theorem SeqKind.markerState_marker (kind : SeqKind) :
    markerState (FrameKind.seq kind).marker = some (.seqLen kind []) := by
  cases kind <;> rfl

omit [F64Text] in
theorem BulkKind.Denotes.length_le {kind : BulkKind} {body : Bytes} {value : RespValue}
    (h : kind.Denotes body value) {p : RespParser} (hfits : FitsLimits p value) :
    body.length ≤ p.maxBulkSize := by
  cases kind with
  | bulkString =>
      rw [h] at hfits
      exact hfits
  | bulkError =>
      rw [h] at hfits
      exact hfits
  | verbatimString =>
      obtain ⟨f₀, f₁, f₂, data, rfl, rfl⟩ := h
      simp only [FitsLimits] at hfits
      simp only [List.length_cons]
      omega

/-- The frames of an aggregate that is not empty, behind its length line. -/
theorem parse_opening {p : RespParser} {value : RespValue} {frames : List WireFrame}
    (hitems : frames.map WireFrame.value = value.items) (hne : value.items ≠ [])
    (hfits : value.Everywhere (FitsLimits p))
    (hnest : value.nesting + p.currentDepth ≤ p.maxDepth)
    (hframes : ∀ frame ∈ frames, ∀ p : RespParser, frame.value.Everywhere (FitsLimits p) →
      frame.value.nesting + p.currentDepth ≤ p.maxDepth → Reads p frame.bytes frame.value)
    (rest : Bytes) :
    parse ⟨{ p with currentDepth := p.currentDepth + 1, state := value.opening.state },
        frames.flatMap WireFrame.bytes ++ rest⟩ =
      (.ok (some value), ⟨{ p with state := .waitingForType }, rest⟩) := by
  have hcloses := opening_closesAll hne
  rw [← hitems] at hcloses
  have hreads : ∀ frame ∈ frames,
      Reads { p with currentDepth := p.currentDepth + 1 } frame.bytes frame.value := by
    intro frame hframe
    have hitem : frame.value ∈ value.items := by
      rw [← hitems]
      exact List.mem_map_of_mem hframe
    have := nesting_item_lt hitem
    exact hframes frame hframe _ (hfits.item hitem) (by dsimp only; omega)
  exact parse_items_close hcloses hreads (Nat.succ_pos _) rest

/-- An aggregate behind its type byte: a count that declares its frames, and the
frames. -/
theorem parse_aggregate {p : RespParser} (value : RespValue) (hagg : value.isAggregate = true)
    (hnull : value ≠ .array none) {count : Bytes} {frames : List WireFrame}
    (hitems : frames.map WireFrame.value = value.items)
    (hcount : Declares count value.opening.remaining)
    (hfits : value.Everywhere (FitsLimits p))
    (hnest : value.nesting + p.currentDepth ≤ p.maxDepth)
    (hframes : ∀ frame ∈ frames, ∀ p : RespParser, frame.value.Everywhere (FitsLimits p) →
      frame.value.nesting + p.currentDepth ≤ p.maxDepth → Reads p frame.bytes frame.value)
    (rest : Bytes) :
    parse ⟨{ p with state := value.lenState [] },
        count ++ (crlf ++ (frames.flatMap WireFrame.bytes ++ rest))⟩ =
      (.ok (some value), ⟨{ p with state := .waitingForType }, rest⟩) := by
  obtain ⟨len, hlen, hneg, hn⟩ := declares_iff.mp hcount
  rw [← List.nil_append count] at hlen
  by_cases hempty : value.items = []
  · obtain rfl : frames = [] := List.map_eq_nil_iff.mp (hitems.trans hempty)
    rw [opening_remaining_eq_zero hempty] at hn
    exact parse_counted_empty hagg hnull hempty hcount.crlfFree hlen hneg hn rest
  · have hdepth : p.currentDepth + 1 ≤ p.maxDepth := by
      have := nesting_pos hempty
      omega
    rw [parse_counted hempty hfits.self hdepth hcount.crlfFree hlen hneg hn]
    exact parse_opening hitems hempty hfits hnest hframes rest

/-- Every frame of the grammar within the limits is read, at any depth that leaves
room for its nesting. -/
theorem Wire.reads {frame : WireFrame} (h : Wire frame) (p : RespParser)
    (hfits : frame.value.Everywhere (FitsLimits p))
    (hnest : frame.value.nesting + p.currentDepth ≤ p.maxDepth) :
    Reads p frame.bytes frame.value := by
  induction h generalizing p with
  | @line kind text value htext hvalue =>
      refine WireFrame.reads_of_marker kind.markerState_marker fun rest => ?_
      exact parse_line htext (LineKind.value_eq_some_iff.mpr hvalue) rest
  | null => exact reads_null
  | boolean byte => exact fun rest => parse_of_answer rfl
  | @nullBulk kind count hcount =>
      refine WireFrame.reads_of_marker kind.markerState_marker fun rest => ?_
      rw [← List.nil_append count] at hcount
      exact parse_nullBulk (crlfFree_of_i64FromStr hcount) (parseI64_of_i64FromStr hcount) rest
  | @bulk kind count body value hcount hvalue =>
      refine WireFrame.reads_of_marker kind.markerState_marker fun rest => ?_
      obtain ⟨len, hlen, hneg, hn⟩ := declares_iff.mp hcount
      rw [← List.nil_append count] at hlen
      rw [List.append_assoc]
      exact parse_bulk hcount.crlfFree hlen hneg hn.symm (hvalue.length_le hfits.self)
        (BulkKind.value_eq_some_iff.mpr hvalue) rest
  | @nullSeq kind count value hcount hnull =>
      refine WireFrame.reads_of_marker kind.markerState_marker fun rest => parse_of_answer ?_
      change lenStep _ _ _ _ kind.null _ = _
      rw [← List.nil_append count] at hcount
      rw [hnull]
      exact lenStep_null (crlfFree_of_i64FromStr hcount) (parseI64_of_i64FromStr hcount) rest
  | @seq kind count frames hcount hframes ih =>
      refine WireFrame.reads_of_marker kind.markerState_marker fun rest => ?_
      rw [← List.length_map WireFrame.value] at hcount
      cases kind with
      | array =>
          exact parse_aggregate (.array (some (frames.map WireFrame.value))) rfl (by simp) rfl
            hcount hfits hnest ih rest
      | set =>
          exact parse_aggregate (.set (frames.map WireFrame.value)) rfl (by simp) rfl
            hcount hfits hnest ih rest
      | push =>
          exact parse_aggregate (.push (frames.map WireFrame.value)) rfl (by simp) rfl
            hcount hfits hnest ih rest
  | @nullMap count hcount =>
      refine WireFrame.reads_of_marker rfl fun rest => parse_of_answer ?_
      change lenStep _ _ _ _ _ _ = _
      rw [← List.nil_append count] at hcount
      exact lenStep_null (crlfFree_of_i64FromStr hcount) (parseI64_of_i64FromStr hcount) rest
  | @map count pairs frames hcount hitems hframes ih =>
      refine WireFrame.reads_of_marker rfl fun rest => ?_
      exact parse_aggregate (.map pairs) rfl (by simp) hitems hcount hfits hnest ih rest

/-- One call on a fresh parser accepts exactly the frames of the grammar within its
limits, and is as fresh as before. -/
theorem parse_fresh_iff {bulkSize arrayLen depth : Nat} {buf : Bytes} {value : RespValue}
    {c : Cursor} :
    parse ⟨.fresh bulkSize arrayLen depth, buf⟩ = (.ok (some value), c) ↔
      ∃ frame, Wire frame ∧ frame.value = value ∧ Fits (.fresh bulkSize arrayLen depth) 0 value ∧
        buf = frame.bytes ++ c.buf ∧ c.parser = .fresh bulkSize arrayLen depth := by
  constructor
  · intro h
    obtain ⟨frame, hframe, rfl, rfl⟩ := parse_derives rfl h
    have hguarded := parse_guarded (RespParser.inv_fresh bulkSize arrayLen depth)
      (frame.bytes ++ c.buf)
    rw [h] at hguarded
    have hfits := (hguarded.fits _ rfl).1
    have hread := (hframe.reads _ hfits.1 hfits.2).parse_append rfl c.buf
    rw [h, Prod.mk.injEq] at hread
    exact ⟨frame, hframe, rfl, hfits, rfl, congrArg Cursor.parser hread.2⟩
  · rintro ⟨frame, hframe, rfl, hfits, rfl, hparser⟩
    obtain ⟨p, rest⟩ := c
    obtain rfl : p = .fresh bulkSize arrayLen depth := hparser
    exact (hframe.reads _ hfits.1 hfits.2).parse_append rfl rest

/-- What a fresh parser accepts is a documented frame of the value it returns
exactly when no frame within its limits that begins the input has a boolean other
than `#t` and `#f`. -/
theorem documented_iff (bulkSize arrayLen depth : Nat) (buf : Bytes) :
    (∀ value c, parse ⟨.fresh bulkSize arrayLen depth, buf⟩ = (.ok (some value), c) →
        ∃ consumed, buf = consumed ++ c.buf ∧ Documented consumed value) ↔
      ∀ frame, Wire frame → Fits (.fresh bulkSize arrayLen depth) 0 frame.value →
        frame.bytes <+: buf → frame.ProperBooleans := by
  constructor
  · rintro h frame hframe hfits ⟨rest, rfl⟩
    obtain ⟨consumed, hsplit, documented, hdocumented, rfl, -, hproper⟩ :=
      h frame.value ⟨.fresh bulkSize arrayLen depth, rest⟩
        (parse_fresh_iff.mpr ⟨frame, hframe, rfl, hfits, rfl, rfl⟩)
    rw [hframe.unique hdocumented hsplit]
    exact hproper
  · intro h value c hparse
    obtain ⟨frame, hframe, rfl, hfits, rfl, -⟩ := parse_fresh_iff.mp hparse
    exact ⟨frame.bytes, rfl, frame, hframe, rfl, rfl,
      h frame hframe hfits (List.prefix_append _ _)⟩

/-- Any value but a double. -/
def NotDouble : RespValue → Prop
  | .double _ => False
  | _ => True

omit [F64Text] in
theorem Declares.lt {count : Bytes} {n : Nat} (h : Declares count n) : n < 2 ^ 63 := by
  obtain ⟨len, -, hlen⟩ := h
  have := Int64.toInt_lt len
  omega

theorem LineKind.Denotes.writable {kind : LineKind} {text : Bytes} {value : RespValue}
    (h : kind.Denotes text value) (htext : CrlfFree text)
    (hdouble : value.Everywhere NotDouble) : value.Everywhere Writable := by
  cases kind with
  | simpleString => exact h ▸ htext
  | error => exact h ▸ htext
  | bigNumber => exact h ▸ htext
  | integer =>
      obtain ⟨i, -, rfl⟩ := h
      trivial
  | double =>
      obtain ⟨d, -, rfl⟩ := h
      exact hdouble.elim

theorem BulkKind.Denotes.writable {kind : BulkKind} {body : Bytes} {value : RespValue}
    (h : kind.Denotes body value) (hbody : body.length < 2 ^ 63) :
    value.Everywhere Writable := by
  cases kind with
  | bulkString => exact h ▸ hbody
  | bulkError => exact h ▸ hbody
  | verbatimString =>
      obtain ⟨f₀, f₁, f₂, data, rfl, rfl⟩ := h
      simp only [List.length_cons] at hbody
      change 4 + data.length < 2 ^ 63
      omega

/-- An aggregate can be written when its count and the values of its frames
can. -/
theorem writable_of_frames {value : RespValue} {frames : List WireFrame}
    (hitems : frames.map WireFrame.value = value.items) (hself : Writable value)
    (hframes : ∀ frame ∈ frames, frame.value.Everywhere NotDouble →
      frame.value.Everywhere Writable)
    (hdouble : value.Everywhere NotDouble) : value.Everywhere Writable := by
  refine everywhere_of_items hself ?_
  intro item hitem
  obtain ⟨frame, hframe, rfl⟩ := List.mem_map.mp (hitems ▸ hitem)
  exact hframes frame hframe (hdouble.item hitem)

/-- Whatever is on the wire, its value can be written again, doubles apart. -/
theorem Wire.writable {frame : WireFrame} (h : Wire frame)
    (hdouble : frame.value.Everywhere NotDouble) : frame.value.Everywhere Writable := by
  induction h with
  | line htext hvalue => exact hvalue.writable htext hdouble
  | null => trivial
  | boolean byte => trivial
  | nullBulk kind hcount => cases kind <;> trivial
  | bulk hcount hvalue => exact hvalue.writable hcount.lt
  | @nullSeq kind count value hcount hnull =>
      cases kind <;> cases hnull <;> trivial
  | @seq kind count frames hcount hframes ih =>
      have hlength : (frames.map WireFrame.value).length < 2 ^ 63 := by
        rw [List.length_map]
        exact hcount.lt
      refine writable_of_frames (kind.items_value _).symm ?_ ih hdouble
      cases kind <;> exact hlength
  | nullMap hcount => trivial
  | map hcount hitems hframes ih =>
      exact writable_of_frames hitems hcount.lt ih hdouble

/-- Encoding what was parsed gives a message that parses to the same value and
leaves nothing behind, whatever bytes it came from. -/
theorem parse_encode_of_parse (bulkSize arrayLen depth : Nat) (buf : Bytes) (value : RespValue)
    (c : Cursor) (h : parse ⟨.fresh bulkSize arrayLen depth, buf⟩ = (.ok (some value), c))
    (hdouble : value.Everywhere NotDouble) :
    parse ⟨.fresh bulkSize arrayLen depth, encode value⟩ =
      (.ok (some value), ⟨.fresh bulkSize arrayLen depth, []⟩) := by
  obtain ⟨frame, hframe, rfl, ⟨hfits, hnest⟩, -⟩ := parse_fresh_iff.mp h
  have hreads := reads_encode frame.value (.fresh bulkSize arrayLen depth) hfits
    (hframe.writable hdouble) hnest
  have hparse := hreads.parse_append rfl []
  rwa [List.append_nil] at hparse

end

namespace Witness

/-- A boolean that is neither `#t` nor `#f` is read as false. -/
theorem strayBoolean_accepted :
    ¬ ∀ (buf : Bytes) (value : RespValue) (c : Cursor),
      parse ⟨RespParser.new, buf⟩ = (.ok (some value), c) →
        ∃ consumed, buf = consumed ++ c.buf ∧ Documented consumed value := by
  intro h
  obtain ⟨consumed, hsplit, frame, hframe, rfl, -, hproper⟩ :=
    h (ascii "#x\r\n") (.boolean false) ⟨RespParser.new, []⟩ rfl
  have heq : WireFrame.bytes ⟨.boolean, [120], [], .boolean false, [120]⟩ ++ [] =
      frame.bytes ++ [] := hsplit
  rw [← (Wire.boolean 120).unique hframe heq] at hproper
  exact absurd (hproper 120 (by simp)) (by decide)

/-- A padded length and a null written as a bulk error come back in their
shortest form. -/
theorem paddedArray_reencoded :
    parse ⟨.fresh 8 8 8, encode (.array (some [.bulkString (some (ascii "abc")), .null]))⟩ =
      (.ok (some (.array (some [.bulkString (some (ascii "abc")), .null]))),
        ⟨.fresh 8 8 8, []⟩) := by
  refine parse_encode_of_parse 8 8 8 (ascii "*+2\r\n$03\r\nabc\r\n!-1\r\n+OK") _
    ⟨.fresh 8 8 8, ascii "+OK"⟩ rfl ?_
  simp [Everywhere, EverywhereIn, NotDouble]

end Witness

end Seshat
