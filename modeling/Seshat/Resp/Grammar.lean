/-
The wire grammar of the fourteen frames, stated without the parser.  A frame is
its type byte, a line up to the first CRLF and what the line announces; an input
begins with at most one frame.
-/
import Seshat.Resp.Frames

namespace Seshat

open CallMachine Decimal RespValue

/-- The kinds of frames. -/
inductive FrameKind where
  | line (kind : LineKind)
  | null
  | boolean
  | bulk (kind : BulkKind)
  | seq (kind : SeqKind)
  | map
deriving DecidableEq

def FrameKind.marker : FrameKind → UInt8
  | .line kind => kind.marker
  | .null => 95
  | .boolean => 35
  | .bulk kind => kind.marker
  | .seq .array => 42
  | .seq .set => 126
  | .seq .push => 62
  | .map => 37

/-- The kind a type byte stands for. -/
def FrameKind.ofMarker : UInt8 → Option FrameKind
  | 43 => some (.line .simpleString)
  | 45 => some (.line .error)
  | 58 => some (.line .integer)
  | 44 => some (.line .double)
  | 40 => some (.line .bigNumber)
  | 95 => some .null
  | 35 => some .boolean
  | 36 => some (.bulk .bulkString)
  | 33 => some (.bulk .bulkError)
  | 61 => some (.bulk .verbatimString)
  | 42 => some (.seq .array)
  | 126 => some (.seq .set)
  | 62 => some (.seq .push)
  | 37 => some .map
  | _ => none

theorem FrameKind.ofMarker_marker (kind : FrameKind) : ofMarker kind.marker = some kind := by
  cases kind with
  | line kind => cases kind <;> rfl
  | bulk kind => cases kind <;> rfl
  | seq kind => cases kind <;> rfl
  | _ => rfl

theorem FrameKind.marker_injective : Function.Injective FrameKind.marker := by
  intro left right h
  have hkind := congrArg ofMarker h
  rw [ofMarker_marker, ofMarker_marker] at hkind
  exact Option.some.inj hkind

/-- A frame by its parts: the line behind the type byte, what follows the line,
the value it denotes and the value bytes of the booleans in it. -/
structure WireFrame where
  kind : FrameKind
  line : Bytes
  content : Bytes
  value : RespValue
  booleans : List UInt8

namespace WireFrame

def bytes (frame : WireFrame) : Bytes :=
  frame.kind.marker :: (frame.line ++ (crlf ++ frame.content))

/-- Every boolean of the frame is written as `t` or `f`. -/
def ProperBooleans (frame : WireFrame) : Prop :=
  ∀ byte ∈ frame.booleans, byte = 116 ∨ byte = 102

end WireFrame

theorem length_frames {frames : List WireFrame} {pairs : List (RespValue × RespValue)}
    (hitems : frames.map WireFrame.value = pairItems pairs) :
    frames.length = 2 * pairs.length := by
  rw [← length_pairItems, ← hitems, List.length_map]

/-- A decimal number in `i64` that is a length. -/
def Declares (count : Bytes) (n : Nat) : Prop :=
  ∃ len : Int64, i64FromStr count = some len ∧ len.toInt = n

/-- What the body of a bulk frame denotes.  A verbatim body is its format, a
colon and its data. -/
def BulkKind.Denotes : BulkKind → Bytes → RespValue → Prop
  | .bulkString, body, value => value = .bulkString (some body)
  | .bulkError, body, value => value = .bulkError body
  | .verbatimString, body, value => ∃ f₀ f₁ f₂ data,
      body = f₀ :: f₁ :: f₂ :: 58 :: data ∧ value = .verbatimString (f₀, f₁, f₂) data

theorem line_crlf_inj {line line' tail tail' : Bytes} (hline : CrlfFree line)
    (hline' : CrlfFree line') (heq : line ++ (crlf ++ tail) = line' ++ (crlf ++ tail')) :
    line = line' ∧ tail = tail' := by
  have hpos : some line.length = some line'.length := by
    rw [← findCrlf_line hline tail, ← findCrlf_line hline' tail', heq]
  obtain ⟨rfl, htail⟩ := List.append_inj heq (Option.some.inj hpos)
  exact ⟨rfl, List.append_cancel_left htail⟩

theorem Declares.unique {count : Bytes} {m n : Nat} (hm : Declares count m)
    (hn : Declares count n) : m = n := by
  obtain ⟨len, hlen, hm⟩ := hm
  obtain ⟨len', hlen', hn⟩ := hn
  obtain rfl := Option.some.inj (hlen.symm.trans hlen')
  exact Int.ofNat_inj.mp (hm.symm.trans hn)

theorem Declares.ne_null {count : Bytes} {n : Nat} (hn : Declares count n) :
    i64FromStr count ≠ some (-1) := by
  intro hnull
  obtain ⟨len, hlen, hn⟩ := hn
  obtain rfl := Option.some.inj (hlen.symm.trans hnull)
  simp at hn

theorem crlfFree_of_i64FromStr {count : Bytes} {len : Int64}
    (h : i64FromStr count = some len) : CrlfFree count :=
  crlfFree_of_cr_not_mem (cr_not_mem_of_parseI64 (parseI64_of_i64FromStr h))

theorem Declares.crlfFree {count : Bytes} {n : Nat} (h : Declares count n) : CrlfFree count := by
  obtain ⟨len, hlen, -⟩ := h
  exact crlfFree_of_i64FromStr hlen

theorem BulkKind.Denotes.unique {kind : BulkKind} {body : Bytes} {v w : RespValue}
    (hv : kind.Denotes body v) (hw : kind.Denotes body w) : v = w := by
  cases kind with
  | bulkString => exact hv.trans hw.symm
  | bulkError => exact hv.trans hw.symm
  | verbatimString =>
      obtain ⟨f₀, f₁, f₂, data, rfl, rfl⟩ := hv
      obtain ⟨g₀, g₁, g₂, data', heq, rfl⟩ := hw
      simp_all

variable [F64Text]

/-- What the text of a line frame denotes. -/
def LineKind.Denotes : LineKind → Bytes → RespValue → Prop
  | .simpleString, text, value => value = .simpleString text
  | .error, text, value => value = .error text
  | .integer, text, value => ∃ i, i64FromStr text = some i ∧ value = .integer i
  | .double, text, value => ∃ d, parseDouble text = some d ∧ value = .double d
  | .bigNumber, text, value => value = .bigNumber text

/-- The frames of the wire grammar.  The value byte of a boolean is recorded and
otherwise left open: `t` is true and any other byte false. -/
inductive Wire : WireFrame → Prop where
  | line {kind : LineKind} {text : Bytes} {value : RespValue} (htext : CrlfFree text)
      (hvalue : kind.Denotes text value) : Wire ⟨.line kind, text, [], value, []⟩
  | null : Wire ⟨.null, [], [], .null, []⟩
  | boolean (byte : UInt8) : Wire ⟨.boolean, [byte], [], .boolean (byte == 116), [byte]⟩
  | nullBulk (kind : BulkKind) {count : Bytes} (hcount : i64FromStr count = some (-1)) :
      Wire ⟨.bulk kind, count, [], kind.null, []⟩
  | bulk {kind : BulkKind} {count body : Bytes} {value : RespValue}
      (hcount : Declares count body.length) (hvalue : kind.Denotes body value) :
      Wire ⟨.bulk kind, count, body ++ crlf, value, []⟩
  | nullSeq {kind : SeqKind} {count : Bytes} {value : RespValue}
      (hcount : i64FromStr count = some (-1)) (hnull : kind.null = some value) :
      Wire ⟨.seq kind, count, [], value, []⟩
  | seq (kind : SeqKind) {count : Bytes} {frames : List WireFrame}
      (hcount : Declares count frames.length) (hframes : ∀ frame ∈ frames, Wire frame) :
      Wire ⟨.seq kind, count, frames.flatMap WireFrame.bytes,
        kind.value (frames.map WireFrame.value), frames.flatMap WireFrame.booleans⟩
  | nullMap {count : Bytes} (hcount : i64FromStr count = some (-1)) :
      Wire ⟨.map, count, [], .null, []⟩
  | map {count : Bytes} {pairs : List (RespValue × RespValue)} {frames : List WireFrame}
      (hcount : Declares count pairs.length)
      (hitems : frames.map WireFrame.value = pairItems pairs)
      (hframes : ∀ frame ∈ frames, Wire frame) :
      Wire ⟨.map, count, frames.flatMap WireFrame.bytes, .map pairs,
        frames.flatMap WireFrame.booleans⟩

/-- The bytes are a frame as documented, with the given value: booleans are
exactly `#t` and `#f`. -/
def Documented (bytes : Bytes) (value : RespValue) : Prop :=
  ∃ frame, Wire frame ∧ frame.bytes = bytes ∧ frame.value = value ∧ frame.ProperBooleans

theorem LineKind.Denotes.unique {kind : LineKind} {text : Bytes} {v w : RespValue}
    (hv : kind.Denotes text v) (hw : kind.Denotes text w) : v = w := by
  cases kind with
  | simpleString => exact hv.trans hw.symm
  | error => exact hv.trans hw.symm
  | bigNumber => exact hv.trans hw.symm
  | integer =>
      obtain ⟨i, hi, rfl⟩ := hv
      obtain ⟨j, hj, rfl⟩ := hw
      rw [Option.some.inj (hi.symm.trans hj)]
  | double =>
      obtain ⟨d, hd, rfl⟩ := hv
      obtain ⟨e, he, rfl⟩ := hw
      rw [Option.some.inj (hd.symm.trans he)]

/-- The line behind the type byte ends at the first CRLF. -/
theorem Wire.crlfFree_line {frame : WireFrame} (h : Wire frame) : CrlfFree frame.line := by
  cases h with
  | line htext hvalue => exact htext
  | null => exact crlfFree_nil
  | boolean byte => simp [CrlfFree, crlf, List.infix_cons_iff]
  | nullBulk kind hcount => exact crlfFree_of_i64FromStr hcount
  | bulk hcount hvalue => exact hcount.crlfFree
  | nullSeq hcount hnull => exact crlfFree_of_i64FromStr hcount
  | seq kind hcount hframes => exact hcount.crlfFree
  | nullMap hcount => exact crlfFree_of_i64FromStr hcount
  | map hcount hitems hframes => exact hcount.crlfFree

/-- No other frame begins the same input. -/
def WireFrame.Unique (frame : WireFrame) : Prop :=
  ∀ {other : WireFrame} {rest rest' : Bytes}, Wire other →
    frame.bytes ++ rest = other.bytes ++ rest' → frame = other

theorem unique_frames {frames others : List WireFrame} {rest rest' : Bytes}
    (hunique : ∀ frame ∈ frames, frame.Unique) (hothers : ∀ other ∈ others, Wire other)
    (hlength : frames.length = others.length)
    (heq : frames.flatMap WireFrame.bytes ++ rest = others.flatMap WireFrame.bytes ++ rest') :
    frames = others := by
  induction frames generalizing others with
  | nil => exact (List.eq_nil_of_length_eq_zero hlength.symm).symm
  | cons frame frames ih =>
      cases others with
      | nil => simp at hlength
      | cons other others =>
          simp only [List.flatMap_cons, List.append_assoc] at heq
          obtain rfl := hunique frame List.mem_cons_self (hothers other List.mem_cons_self) heq
          rw [ih (fun f hf => hunique f (List.mem_cons_of_mem _ hf))
            (fun f hf => hothers f (List.mem_cons_of_mem _ hf)) (by simpa using hlength)
            (List.append_cancel_left heq)]

/-- Frames that begin the same input share their type byte and their line. -/
theorem Wire.same_line {frame other : WireFrame} {rest rest' : Bytes} (hframe : Wire frame)
    (hother : Wire other) (heq : frame.bytes ++ rest = other.bytes ++ rest') :
    frame.kind = other.kind ∧ frame.line = other.line ∧
      frame.content ++ rest = other.content ++ rest' := by
  simp only [WireFrame.bytes, List.cons_append, List.append_assoc, List.cons.injEq] at heq
  obtain ⟨hkind, hline⟩ := heq
  obtain ⟨hline, hcontent⟩ := line_crlf_inj hframe.crlfFree_line hother.crlfFree_line hline
  exact ⟨FrameKind.marker_injective hkind, hline, hcontent⟩

/-- An input begins with at most one frame. -/
theorem Wire.unique {frame : WireFrame} (h : Wire frame) : frame.Unique := by
  induction h with
  | @line kind text value htext hvalue =>
      rintro ⟨kind', line', content', value', booleans'⟩ rest rest' hother heq
      obtain ⟨rfl, rfl, -⟩ := (Wire.line htext hvalue).same_line hother heq
      cases hother with
      | line htext' hvalue' => rw [hvalue.unique hvalue']
  | null =>
      rintro ⟨kind', line', content', value', booleans'⟩ rest rest' hother heq
      obtain ⟨rfl, rfl, -⟩ := Wire.null.same_line hother heq
      cases hother with
      | null => rfl
  | boolean byte =>
      rintro ⟨kind', line', content', value', booleans'⟩ rest rest' hother heq
      obtain ⟨rfl, rfl, -⟩ := (Wire.boolean byte).same_line hother heq
      cases hother with
      | boolean => rfl
  | nullBulk kind hcount =>
      rintro ⟨kind', line', content', value', booleans'⟩ rest rest' hother heq
      obtain ⟨rfl, rfl, -⟩ := (Wire.nullBulk kind hcount).same_line hother heq
      cases hother with
      | nullBulk => rfl
      | bulk hcount' hvalue' => exact absurd hcount hcount'.ne_null
  | @bulk kind count body value hcount hvalue =>
      rintro ⟨kind', line', content', value', booleans'⟩ rest rest' hother heq
      obtain ⟨rfl, rfl, hcontent⟩ := (Wire.bulk hcount hvalue).same_line hother heq
      cases hother with
      | nullBulk kind hcount' => exact absurd hcount' hcount.ne_null
      | @bulk _ _ body' _ hcount' hvalue' =>
          simp only [List.append_assoc] at hcontent
          obtain ⟨rfl, -⟩ := List.append_inj hcontent (hcount.unique hcount')
          rw [hvalue.unique hvalue']
  | nullSeq hcount hnull =>
      rintro ⟨kind', line', content', value', booleans'⟩ rest rest' hother heq
      obtain ⟨rfl, rfl, -⟩ := (Wire.nullSeq hcount hnull).same_line hother heq
      cases hother with
      | nullSeq hcount' hnull' => rw [Option.some.inj (hnull.symm.trans hnull')]
      | seq kind hcount' hframes' => exact absurd hcount hcount'.ne_null
  | @seq kind count frames hcount hframes ih =>
      rintro ⟨kind', line', content', value', booleans'⟩ rest rest' hother heq
      obtain ⟨rfl, rfl, hcontent⟩ := (Wire.seq kind hcount hframes).same_line hother heq
      cases hother with
      | nullSeq hcount' hnull' => exact absurd hcount' hcount.ne_null
      | seq kind hcount' hframes' =>
          rw [unique_frames ih hframes' (hcount.unique hcount') hcontent]
  | nullMap hcount =>
      rintro ⟨kind', line', content', value', booleans'⟩ rest rest' hother heq
      obtain ⟨rfl, rfl, -⟩ := (Wire.nullMap hcount).same_line hother heq
      cases hother with
      | nullMap => rfl
      | map hcount' hitems' hframes' => exact absurd hcount hcount'.ne_null
  | @map count pairs frames hcount hitems hframes ih =>
      rintro ⟨kind', line', content', value', booleans'⟩ rest rest' hother heq
      obtain ⟨rfl, rfl, hcontent⟩ := (Wire.map hcount hitems hframes).same_line hother heq
      cases hother with
      | nullMap hcount' => exact absurd hcount' hcount.ne_null
      | @map _ pairs' frames' hcount' hitems' hframes' =>
          have hlength : frames.length = frames'.length := by
            rw [length_frames hitems, length_frames hitems', hcount.unique hcount']
          obtain rfl := unique_frames ih hframes' hlength hcontent
          rw [pairItems_injective (hitems.symm.trans hitems')]

end Seshat
