/-
What one pass of the parser's loop can do.  Lines are split at their first
CRLF; each state then has a short list of exits, stated once here and used by
every invariant of the parser.
-/
import Seshat.Resp.Limits

namespace Seshat

open CallMachine Decimal Utf8

theorem crlfFree_nil : CrlfFree [] := by
  simp [CrlfFree, crlf]

theorem crlfFree_cons_iff {b : UInt8} {s : Bytes} :
    CrlfFree (b :: s) ↔ ¬ crlf <+: b :: s ∧ CrlfFree s := by
  simp [CrlfFree, List.infix_cons_iff]

theorem crlfFree_of_cr_not_mem {s : Bytes} (h : 13 ∉ s) : CrlfFree s := by
  intro hpair
  exact h (hpair.subset (by simp [crlf]))

theorem CrlfFree.of_append_left {s t : Bytes} (h : CrlfFree (s ++ t)) : CrlfFree s :=
  fun hpair => h (hpair.trans (List.prefix_append s t).isInfix)

theorem CrlfFree.of_append_right {s t : Bytes} (h : CrlfFree (s ++ t)) : CrlfFree t :=
  fun hpair => h (hpair.trans (List.suffix_append s t).isInfix)

/-- A CR at the very end does not complete a CRLF. -/
theorem CrlfFree.concat_cr {s : Bytes} (h : CrlfFree s) : CrlfFree (s ++ [13]) := by
  rintro ⟨before, behind, heq⟩
  rcases List.eq_nil_or_concat' behind with rfl | ⟨init, last, rfl⟩
  · have hlast : before ++ [13] ++ [10] = s ++ [13] := by
      simpa [crlf] using heq
    exact absurd (List.append_inj' hlast rfl).2 (by decide)
  · have hinit : before ++ crlf ++ init ++ [last] = s ++ [13] := by
      simpa using heq
    exact h ⟨before, init, (List.append_inj' hinit rfl).1⟩

theorem findCrlf_eq_none_iff {s : Bytes} : findCrlf s = none ↔ CrlfFree s := by
  induction s using findCrlf.induct with
  | case1 rest => simp [findCrlf, CrlfFree, crlf, List.infix_cons_iff]
  | case2 b rest hnot ih =>
      rw [findCrlf.eq_2 b rest hnot, Option.map_eq_none_iff, ih, crlfFree_cons_iff]
      constructor
      · intro hrest
        refine ⟨?_, hrest⟩
        rintro ⟨tail, htail⟩
        simp only [crlf, List.cons_append, List.nil_append, List.cons.injEq] at htail
        exact hnot tail htail.1.symm htail.2.symm
      · exact And.right
  | case3 => simp [findCrlf, crlfFree_nil]

theorem findCrlf_line {line : Bytes} (hline : CrlfFree line) (rest : Bytes) :
    findCrlf (line ++ (crlf ++ rest)) = some line.length := by
  induction line with
  | nil => rfl
  | cons b line ih =>
      have htail := ih (crlfFree_cons_iff.mp hline).2
      have hhead := (crlfFree_cons_iff.mp hline).1
      rw [List.cons_append, findCrlf.eq_2, htail]
      · rfl
      · -- CR then LF would start inside `line` or straddle its end
        intro tail hb htail'
        subst hb
        cases line with
        | nil => simp [crlf] at htail'
        | cons c line =>
            simp only [List.cons_append, List.cons.injEq] at htail'
            exact hhead ⟨line, by simp [crlf, htail'.1]⟩

/-- A buffer either holds no CRLF or splits at the first one. -/
theorem crlfFree_or_line (buf : Bytes) :
    CrlfFree buf ∨ ∃ line rest, CrlfFree line ∧ buf = line ++ (crlf ++ rest) := by
  induction buf using findCrlf.induct with
  | case1 rest => exact Or.inr ⟨[], rest, crlfFree_nil, rfl⟩
  | case2 b rest hnot ih =>
      have hhead : ¬ crlf <+: b :: rest := by
        rintro ⟨tail, htail⟩
        simp only [crlf, List.cons_append, List.nil_append, List.cons.injEq] at htail
        exact hnot tail htail.1.symm htail.2.symm
      rcases ih with hfree | ⟨line, rest, hline, rfl⟩
      · exact Or.inl (crlfFree_cons_iff.mpr ⟨hhead, hfree⟩)
      · refine Or.inr ⟨b :: line, rest, crlfFree_cons_iff.mpr ⟨?_, hline⟩, by simp⟩
        intro hbegin
        apply hhead
        rw [← List.cons_append]
        exact hbegin.trans (List.prefix_append _ _)
  | case3 => exact Or.inl crlfFree_nil

section WithLine

variable {p : RespParser} {keep : Bytes → ParseState} {data : Bytes}
  {finish : RespParser → Bytes → Bytes → Pass}

theorem withLine_more {buf : Bytes} (hbuf : CrlfFree buf) :
    withLine p buf keep data finish =
      answer (.ok none) { p with state := keep (data ++ buf) } [] := by
  simp [withLine, findCrlf_eq_none_iff.mpr hbuf]

theorem withLine_line {line : Bytes} (hline : CrlfFree line) (rest : Bytes) :
    withLine p (line ++ (crlf ++ rest)) keep data finish =
      finish { p with state := keep (data ++ line) } (data ++ line) rest := by
  have hpos := findCrlf_line hline rest
  have hslice : slice (line ++ (crlf ++ rest)) 0 line.length = some line := by
    simp [slice]
  have hadvance : advance (line ++ (crlf ++ rest)) (line.length + 2) = some rest := by
    simp [advance, crlf, List.drop_append]
  simp [withLine, hpos, hslice, hadvance]

end WithLine

/-- The state a type byte opens.  `_` and `#` are read on the spot and open
none. -/
def markerState : UInt8 → Option ParseState
  | 43 => some (.simpleString [])
  | 45 => some (.error [])
  | 58 => some (.integer [])
  | 36 => some (.bulkStringLen [])
  | 42 => some (.arrayLen [])
  | 44 => some (.double [])
  | 40 => some (.bigNumber [])
  | 33 => some (.bulkErrorLen [])
  | 61 => some (.verbatimStringLen [])
  | 37 => some (.mapLen [])
  | 126 => some (.setLen [])
  | 62 => some (.pushLen [])
  | _ => none

def LineKind.marker : LineKind → UInt8
  | .simpleString => 43
  | .error => 45
  | .integer => 58
  | .double => 44
  | .bigNumber => 40

def BulkKind.marker : BulkKind → UInt8
  | .bulkString => 36
  | .bulkError => 33
  | .verbatimString => 61

theorem LineKind.markerState_marker (kind : LineKind) :
    markerState kind.marker = some (.line kind []) := by
  cases kind <;> rfl

theorem BulkKind.markerState_marker (kind : BulkKind) :
    markerState kind.marker = some (.bulkLen kind []) := by
  cases kind <;> rfl

/-- The states that accumulate a line. -/
inductive ReadsLine : (Bytes → ParseState) → Prop where
  | line (kind : LineKind) : ReadsLine (.line kind)
  | bulkLen (kind : BulkKind) : ReadsLine (.bulkLen kind)
  | seqLen (kind : SeqKind) : ReadsLine (.seqLen kind)
  | mapLen : ReadsLine .mapLen

/-- The states that accumulate the text of a length. -/
inductive ReadsLen : (Bytes → ParseState) → Prop where
  | bulkLen (kind : BulkKind) : ReadsLen (.bulkLen kind)
  | seqLen (kind : SeqKind) : ReadsLen (.seqLen kind)
  | mapLen : ReadsLen .mapLen

/-- The states that accumulate the element count of an aggregate. -/
inductive ReadsCount : (Bytes → ParseState) → Prop where
  | seqLen (kind : SeqKind) : ReadsCount (.seqLen kind)
  | mapLen : ReadsCount .mapLen

theorem ReadsLen.readsLine {keep : Bytes → ParseState} (h : ReadsLen keep) :
    ReadsLine keep := by
  cases h with
  | bulkLen kind => exact .bulkLen kind
  | seqLen kind => exact .seqLen kind
  | mapLen => exact .mapLen

theorem ReadsCount.readsLen {keep : Bytes → ParseState} (h : ReadsCount keep) :
    ReadsLen keep := by
  cases h with
  | seqLen kind => exact .seqLen kind
  | mapLen => exact .mapLen

theorem ReadsCount.readsLine {keep : Bytes → ParseState} (h : ReadsCount keep) :
    ReadsLine keep :=
  h.readsLen.readsLine

/-- The shortest body a length line opens. -/
def BulkKind.minLen : BulkKind → Nat
  | .verbatimString => 4
  | _ => 1

def Frame.remaining : Frame → Nat
  | .seq _ rem _ => rem
  | .map rem _ _ => rem

/-- Values that no limit can reject: lines, nulls and empty frames. -/
inductive Plain : RespValue → Prop where
  | simpleString (s : Bytes) : Plain (.simpleString s)
  | error (e : Bytes) : Plain (.error e)
  | integer (i : Int64) : Plain (.integer i)
  | double (d : F64) : Plain (.double d)
  | bigNumber (n : Bytes) : Plain (.bigNumber n)
  | null : Plain .null
  | boolean (b : Bool) : Plain (.boolean b)
  | nullBulk : Plain (.bulkString none)
  | nullArray : Plain (.array none)
  | emptyBulk : Plain (.bulkString (some []))
  | emptyError : Plain (.bulkError [])
  | emptySeq (kind : SeqKind) : Plain (kind.value [])
  | emptyMap : Plain (.map [])

/-- The ways a pass leaves the call, by parser and buffer. -/
inductive Exits (p : RespParser) : Bytes → Outcome → Cursor → Prop where
  | idle (hp : p.state = .waitingForType) : Exits p [] (.ok none) ⟨p, []⟩
  | short (hp : p.state = .waitingForType) {b : UInt8} (rest : Bytes)
      (hb : markerState b = none) : Exits p (b :: rest) (.ok none) ⟨p, rest⟩
  | badMarker (hp : p.state = .waitingForType) {b : UInt8} (rest : Bytes)
      (hb : markerState b = none) (e : ProtocolError) :
      Exits p (b :: rest) (.err e) ⟨p, rest⟩
  | immediate (hp : p.state = .waitingForType) {value : RespValue} (hv : Plain value)
      (b : UInt8) (body rest : Bytes) :
      Exits p (b :: (body ++ rest)) (.ok (some value))
        ⟨{ p with state := .waitingForType }, rest⟩
  | moreLine {keep : Bytes → ParseState} (hkeep : ReadsLine keep) {data : Bytes}
      (hp : p.state = keep data) {buf : Bytes} (hbuf : CrlfFree buf) :
      Exits p buf (.ok none) ⟨{ p with state := keep (data ++ buf) }, []⟩
  | badLine {keep : Bytes → ParseState} (hkeep : ReadsLine keep) {data : Bytes}
      (hp : p.state = keep data) {line : Bytes} (hline : CrlfFree line) (rest : Bytes)
      (e : ProtocolError) :
      Exits p (line ++ (crlf ++ rest)) (.err e)
        ⟨{ p with state := keep (data ++ line) }, rest⟩
  | lineValue {keep : Bytes → ParseState} (hkeep : ReadsLine keep) {data : Bytes}
      (hp : p.state = keep data) {value : RespValue} (hv : Plain value)
      (line skipped rest : Bytes) :
      Exits p (line ++ (crlf ++ (skipped ++ rest))) (.ok (some value))
        ⟨{ p with state := .waitingForType }, rest⟩
  | emptyBody {kind : BulkKind} {lenBytes : Bytes} (hp : p.state = .bulkLen kind lenBytes)
      (hkind : kind ≠ .verbatimString) {line : Bytes} (hline : CrlfFree line)
      {len : Int64} (hlen : parseI64 (lenBytes ++ line) = some len)
      (hzero : len.toNatClampNeg = 0) (rest : Bytes) :
      Exits p (line ++ (crlf ++ rest)) (.ok none)
        ⟨{ p with state := .bulkData kind 0 [] }, rest⟩
  | moreBody {kind : BulkKind} {len : Nat} {data : Bytes}
      (hp : p.state = .bulkData kind len data) {buf : Bytes}
      (hbuf : data.length + buf.length < len + 2) :
      Exits p buf (.ok none) ⟨{ p with state := .bulkData kind len (data ++ buf) }, []⟩
  | badBody {kind : BulkKind} {len : Nat} {data : Bytes}
      (hp : p.state = .bulkData kind len data) {body : Bytes}
      (hbody : data.length + body.length = len) {buf rest : Bytes}
      (hrest : rest.length ≤ buf.length) (e : ProtocolError) :
      Exits p buf (.err e) ⟨{ p with state := .bulkData kind len (data ++ body) }, rest⟩
  | bodyValue {kind : BulkKind} {len : Nat} {data : Bytes}
      (hp : p.state = .bulkData kind len data) {body : Bytes}
      (hbody : data.length + body.length = len) {value : RespValue}
      (hv : kind.value (data ++ body) = some value) (rest : Bytes) :
      Exits p (body ++ (crlf ++ rest)) (.ok (some value))
        ⟨{ p with state := .waitingForType }, rest⟩
  | bodyPanic {kind : BulkKind} {len : Nat} {data : Bytes}
      (hp : p.state = .bulkData kind len data) {buf : Bytes}
      (hdata : len < data.length)
      (hbuf : len + 2 < data.length ∨ len + 2 ≤ data.length + buf.length) :
      Exits p buf .panic ⟨p, buf⟩
  | spent {frame : Frame} (hp : p.state = frame.state) (hrem : frame.remaining = 0)
      (buf : Bytes) (outcome : Outcome) {q : RespParser} (hq : q.state = .waitingForType) :
      Exits p buf outcome ⟨q, buf⟩

/-- The ways a pass goes round the loop again. -/
inductive Continues (p : RespParser) : Bytes → Cursor → Prop where
  | marker (hp : p.state = .waitingForType) {b : UInt8} {state : ParseState}
      (hb : markerState b = some state) (rest : Bytes) :
      Continues p (b :: rest) ⟨{ p with state := state }, rest⟩
  | openBody {kind : BulkKind} {lenBytes : Bytes} (hp : p.state = .bulkLen kind lenBytes)
      {line : Bytes} (hline : CrlfFree line) {len : Int64}
      (hlen : parseI64 (lenBytes ++ line) = some len)
      (hmin : kind.minLen ≤ len.toNatClampNeg) (hmax : len.toNatClampNeg ≤ p.maxBulkSize)
      (rest : Bytes) :
      Continues p (line ++ (crlf ++ rest))
        ⟨{ p with state := .bulkData kind len.toNatClampNeg [] }, rest⟩
  | openFrame {keep : Bytes → ParseState} (hkeep : ReadsCount keep) {lenBytes : Bytes}
      (hp : p.state = keep lenBytes) {frame : Frame}
      (hframe : frame.remaining ≠ 0 ∧ frame.remaining ≤ p.maxArrayLen)
      (hempty : (∃ kind, frame = .seq kind frame.remaining []) ∨
        frame = .map frame.remaining [] none)
      (hdepth : p.currentDepth + 1 ≤ p.maxDepth) (line rest : Bytes) :
      Continues p (line ++ (crlf ++ rest))
        ⟨{ p with currentDepth := p.currentDepth + 1, state := frame.state }, rest⟩

/-- Everything a pass can do from a parser and a buffer. -/
def PassOf (p : RespParser) (buf : Bytes) : Pass → Prop
  | .next (.ret outcome c) => Exits p buf outcome c
  | .next (.loop c) => Continues p buf c
  | .call frame c => p.state = frame.state ∧ frame.remaining ≠ 0 ∧
      c = ⟨{ p with state := .waitingForType }, buf⟩

theorem typeStep_passOf {p : RespParser} (hp : p.state = .waitingForType) (b : UInt8)
    (buf : Bytes) : PassOf p (b :: buf) (typeStep b p buf) := by
  unfold typeStep
  split
  case h_6 =>
    split
    · split
      · exact .badMarker hp _ rfl _
      · exact .immediate hp .null _ [_, _] _
    · exact .short hp _ rfl
  case h_7 =>
    split
    · split
      · exact .badMarker hp _ rfl _
      · exact .immediate hp (.boolean _) _ [_, _, _] _
    · exact .short hp _ rfl
  case h_15 =>
    apply Exits.badMarker hp
    unfold markerState
    split
    all_goals first | contradiction | rfl
  all_goals exact .marker hp rfl buf

theorem waitingStep_passOf {p : RespParser} (hp : p.state = .waitingForType) (buf : Bytes) :
    PassOf p buf (waitingStep p buf) := by
  cases buf with
  | nil => exact .idle hp
  | cons b buf => exact typeStep_passOf hp b buf

/-- A length state passes through its line; what `enter` does with an accepted
length is the kind's own. -/
theorem lenStep_passOf {p : RespParser} {keep : Bytes → ParseState} {lenBytes : Bytes}
    {null : Option RespValue} {enter : RespParser → Nat → Bytes → Pass}
    (hkeep : ReadsLine keep) (hp : p.state = keep lenBytes)
    (hnull : ∀ value, null = some value → Plain value)
    (henter : ∀ {line : Bytes} {len : Int64} (rest : Bytes), CrlfFree line →
      parseI64 (lenBytes ++ line) = some len →
      PassOf p (line ++ (crlf ++ rest))
        (enter { p with state := keep (lenBytes ++ line) } len.toNatClampNeg rest))
    (buf : Bytes) : PassOf p buf (lenStep p buf keep lenBytes null enter) := by
  rcases crlfFree_or_line buf with hbuf | ⟨line, rest, hline, rfl⟩
  · rw [lenStep, withLine_more hbuf]
    exact .moreLine hkeep hp hbuf
  · rw [lenStep, withLine_line hline]
    cases hlen : parseI64 (lenBytes ++ line) with
    | none => exact .badLine hkeep hp hline rest _
    | some len =>
        dsimp only
        split
        · exact .lineValue hkeep hp (hnull _ rfl) line [] rest
        · split
          · exact .badLine hkeep hp hline rest _
          · exact henter rest hline hlen

theorem BulkKind.enter_passOf {p : RespParser} {kind : BulkKind} {lenBytes line : Bytes}
    {len : Int64} (hp : p.state = .bulkLen kind lenBytes) (rest : Bytes)
    (hline : CrlfFree line) (hlen : parseI64 (lenBytes ++ line) = some len) :
    PassOf p (line ++ (crlf ++ rest))
      (kind.enter { p with state := .bulkLen kind (lenBytes ++ line) } len.toNatClampNeg rest) := by
  have hempty : ∀ value, Plain value → kind ≠ .verbatimString → len.toNatClampNeg = 0 →
      PassOf p (line ++ (crlf ++ rest))
        (emptyBulk kind value { p with state := .bulkLen kind (lenBytes ++ line) } rest) := by
    intro value hvalue hkind hzero
    unfold emptyBulk
    split
    · split
      · exact .badLine (.bulkLen kind) hp hline _ _
      · exact .lineValue (.bulkLen kind) hp hvalue line [_, _] _
    · exact .emptyBody hp hkind hline hlen hzero rest
  unfold BulkKind.enter
  split
  · exact .badLine (.bulkLen kind) hp hline _ _
  · rename_i hmax
    replace hmax : len.toNatClampNeg ≤ p.maxBulkSize := Nat.le_of_not_gt hmax
    cases kind with
    | bulkString =>
        dsimp only
        split
        · rename_i hzero
          exact hempty _ .emptyBulk (by decide) hzero
        · rename_i hzero
          exact .openBody hp hline hlen (Nat.one_le_iff_ne_zero.mpr hzero) hmax rest
    | bulkError =>
        dsimp only
        split
        · rename_i hzero
          exact hempty _ .emptyError (by decide) hzero
        · rename_i hzero
          exact .openBody hp hline hlen (Nat.one_le_iff_ne_zero.mpr hzero) hmax rest
    | verbatimString =>
        dsimp only
        split
        · exact .badLine (.bulkLen .verbatimString) hp hline _ _
        · rename_i hmin
          exact .openBody hp hline hlen (Nat.le_of_not_gt hmin) hmax rest

theorem enterAggregate_passOf {p : RespParser} {keep : Bytes → ParseState}
    {lenBytes line : Bytes} (hkeep : ReadsCount keep) (hp : p.state = keep lenBytes)
    {empty : RespValue} (hplain : Plain empty) {state : Nat → ParseState}
    (hstate : ∀ len, ∃ frame : Frame, frame.state = state len ∧ frame.remaining = len ∧
      ((∃ kind, frame = .seq kind frame.remaining []) ∨
        frame = .map frame.remaining [] none))
    (len : Nat) (rest : Bytes) (hline : CrlfFree line) :
    PassOf p (line ++ (crlf ++ rest))
      (enterAggregate empty state { p with state := keep (lenBytes ++ line) } len rest) := by
  unfold enterAggregate
  split
  · exact .badLine hkeep.readsLine hp hline _ _
  · rename_i hmax
    replace hmax : len ≤ p.maxArrayLen := Nat.le_of_not_gt hmax
    split
    · exact .lineValue hkeep.readsLine hp hplain line [] rest
    · rename_i hzero
      split
      · exact .badLine hkeep.readsLine hp hline _ _
      · rename_i hdepth
        obtain ⟨frame, hframe, hremaining, hfirst⟩ := hstate len
        rw [← hframe]
        exact .openFrame hkeep hp ⟨by omega, by omega⟩ hfirst
          (Nat.le_of_not_gt hdepth) line rest

theorem bulkDataStep_passOf {p : RespParser} {kind : BulkKind} {len : Nat} {data : Bytes}
    (hp : p.state = .bulkData kind len data) (buf : Bytes) :
    PassOf p buf (bulkDataStep kind p buf len data) := by
  unfold bulkDataStep
  by_cases hover : data.length ≤ len + 2
  · simp only [checkedSub, hover, ↓reduceIte]
    split
    · exact .moreBody hp (by omega)
    · rename_i hneeded
      by_cases hdata : data.length ≤ len
      · obtain ⟨body, tail, hbuf, hbody⟩ :
            ∃ body tail, buf = body ++ tail ∧ body.length = len - data.length :=
          ⟨buf.take (len - data.length), buf.drop (len - data.length),
            (List.take_append_drop _ _).symm, by simp; omega⟩
        obtain ⟨a, b, rest, rfl⟩ : ∃ a b rest, tail = a :: b :: rest := by
          have hlength := congrArg List.length hbuf
          simp only [List.length_append] at hlength
          match tail, hlength with
          | [], hlength => simp at hlength; omega
          | [a], hlength => simp at hlength; omega
          | a :: b :: rest, _ => exact ⟨a, b, rest, rfl⟩
        have hslice : slice buf 0 (len - data.length) = some body := by
          simp [slice, hbuf, ← hbody]
        have hterm : slice buf (len - data.length) (len - data.length + 2) = some [a, b] := by
          simp [slice, hbuf, ← hbody, List.take_append]
        have hrest : advance buf (len - data.length + 2) = some rest := by
          simp [advance, hbuf, ← hbody, List.drop_append]
        simp only [hdata, ↓reduceIte, hslice, hterm, hrest]
        split
        · exact .badBody hp (by omega) le_rfl _
        · rename_i hcrlf
          have hcrlf : [a, b] = crlf := not_not.mp hcrlf
          have hsplit : buf = body ++ (crlf ++ rest) := by
            rw [hbuf, ← hcrlf]
            rfl
          split
          · rename_i value hvalue
            rw [hsplit]
            exact .bodyValue hp (by omega) hvalue rest
          · refine .badBody hp (by omega) ?_ _
            rw [hbuf]
            simp
            omega
      · simp only [hdata, ↓reduceIte]
        exact .bodyPanic hp (by omega) (Or.inr (by omega))
  · simp only [checkedSub, hover, ↓reduceIte]
    exact .bodyPanic hp (by omega) (Or.inl (by omega))

theorem leaveAggregate_eq (value : RespValue) (p : RespParser) (buf : Bytes) :
    ∃ outcome q, leaveAggregate value p buf = .ret outcome ⟨q, buf⟩ ∧ q.state = p.state := by
  unfold leaveAggregate
  split
  · exact ⟨_, _, rfl, rfl⟩
  · exact ⟨_, _, rfl, rfl⟩

theorem aggregateStep_passOf {p : RespParser} (frame : Frame) (hp : p.state = frame.state)
    (buf : Bytes) : PassOf p buf (aggregateStep frame p buf) := by
  unfold aggregateStep
  dsimp only
  split
  · rename_i kind elems
    obtain ⟨outcome, q, heq, hq⟩ := leaveAggregate_eq (kind.value elems)
      { p with state := .waitingForType } buf
    rw [heq]
    exact .spent hp rfl buf outcome hq
  · rename_i pairs key
    obtain ⟨outcome, q, heq, hq⟩ := leaveAggregate_eq (.map pairs)
      { p with state := .waitingForType } buf
    rw [heq]
    exact .spent hp rfl buf outcome hq
  · rename_i hseq hmap
    refine ⟨hp, ?_, rfl⟩
    intro hzero
    cases frame with
    | seq kind rem elems => exact hseq kind elems (by rw [← hzero]; rfl)
    | map rem pairs key => exact hmap pairs key (by rw [← hzero]; rfl)

variable [F64Text]

theorem LineKind.plain_of_value {kind : LineKind} {data : Bytes} {value : RespValue}
    (h : kind.value data = some value) : Plain value := by
  cases kind with
  | simpleString => cases h; exact .simpleString data
  | error => cases h; exact .error data
  | bigNumber => cases h; exact .bigNumber data
  | integer =>
      obtain ⟨i, -, rfl⟩ := Option.map_eq_some_iff.mp h
      exact .integer i
  | double =>
      obtain ⟨d, -, rfl⟩ := Option.map_eq_some_iff.mp h
      exact .double d

theorem lineStep_passOf {p : RespParser} {kind : LineKind} {data : Bytes}
    (hp : p.state = .line kind data) (buf : Bytes) :
    PassOf p buf (lineStep kind p buf data) := by
  rcases crlfFree_or_line buf with hbuf | ⟨line, rest, hline, rfl⟩
  · rw [lineStep, withLine_more hbuf]
    exact .moreLine (.line kind) hp hbuf
  · rw [lineStep, withLine_line hline]
    cases hvalue : kind.value (data ++ line) with
    | some value =>
        exact .lineValue (.line kind) hp (LineKind.plain_of_value hvalue) line [] rest
    | none => exact .badLine (.line kind) hp hline rest _

theorem parseStep_passOf (p : RespParser) (buf : Bytes) :
    PassOf p buf (parseStep ⟨p, buf⟩) := by
  unfold parseStep
  dsimp only
  split
  · rename_i hp
    exact waitingStep_passOf hp buf
  · rename_i hp
    exact lineStep_passOf hp buf
  · rename_i kind lenBytes hp
    refine lenStep_passOf (.bulkLen kind) hp ?_
      (fun rest hline hlen => BulkKind.enter_passOf hp rest hline hlen) buf
    rintro value hvalue
    cases kind <;> cases hvalue <;> constructor
  · rename_i hp
    exact bulkDataStep_passOf hp buf
  · rename_i kind lenBytes hp
    refine lenStep_passOf (.seqLen kind) hp ?_ (fun rest hline _ =>
      enterAggregate_passOf (.seqLen kind) hp (.emptySeq kind)
        (fun len => ⟨.seq kind len [], rfl, rfl, Or.inl ⟨kind, rfl⟩⟩) _ rest hline) buf
    rintro value hvalue
    cases kind <;> cases hvalue <;> constructor
  · rename_i lenBytes hp
    refine lenStep_passOf .mapLen hp ?_ (fun rest hline _ =>
      enterAggregate_passOf .mapLen hp .emptyMap
        (fun len => ⟨.map len [] none, rfl, rfl, Or.inr rfl⟩) _ rest hline) buf
    rintro value hvalue
    cases hvalue
    constructor
  · rename_i kind rem elems hp
    exact aggregateStep_passOf (.seq kind rem elems) hp buf
  · rename_i rem pairs key hp
    exact aggregateStep_passOf (.map rem pairs key) hp buf

end Seshat
