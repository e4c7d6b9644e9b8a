/-
What the encoder writes the parser reads, whatever follows on the wire.
-/
import Seshat.Resp.Frames

namespace Seshat

open Decimal RespValue

section

variable [F64Text]

/-- Text accepted as a double holds no CR. -/
theorem cr_not_mem_of_parseDouble {text : Bytes} {d : F64} (h : parseDouble text = some d) :
    13 ∉ text := by
  obtain ⟨str, hstr, hd⟩ := Option.bind_eq_some_iff.mp h
  obtain rfl := Utf8.eq_of_fromUtf8 hstr
  split at hd
  · rename_i heq
    rw [heq]
    decide
  · split at hd
    · rename_i heq
      rw [heq]
      decide
    · split at hd
      · rename_i heq
        rw [heq]
        decide
      · exact F64Text.cr_not_mem hd

theorem reads_line {p : RespParser} {b : UInt8} {kind : LineKind} {line : Bytes}
    {value : RespValue} (hb : markerState b = some (.line kind [])) (hline : CrlfFree line)
    (hvalue : kind.value line = some value) : Reads p (b :: line ++ crlf) value := by
  intro rest
  rw [List.cons_append, List.cons_append, List.append_assoc, parse_marker hb]
  exact parse_line hline hvalue rest

theorem reads_bulk {p : RespParser} {b : UInt8} {kind : BulkKind} (body : Bytes)
    {value : RespValue} (hb : markerState b = some (.bulkLen kind []))
    (hlen : body.length < 2 ^ 63) (hmax : body.length ≤ p.maxBulkSize)
    (hvalue : kind.value body = some value) :
    Reads p (b :: text body.length ++ crlf ++ body ++ crlf) value := by
  intro rest
  obtain ⟨len, hparse, hnat, hneg⟩ := parseI64_text hlen
  have hline : CrlfFree (text body.length) :=
    crlfFree_of_cr_not_mem (cr_not_mem_of_parseI64 hparse)
  simp only [List.cons_append, List.append_assoc]
  rw [parse_marker hb]
  exact parse_bulk hline hparse hneg hnat.symm hmax hvalue rest

theorem reads_null {p : RespParser} : Reads p (95 :: crlf) .null :=
  fun _ => parse_of_answer rfl

theorem reads_boolean {p : RespParser} (b : Bool) :
    Reads p (35 :: (if b then 116 else 102) :: crlf) (.boolean b) := by
  cases b <;> exact fun rest => parse_of_answer rfl

/-- An aggregate is read when each of its items is, one level further in. -/
theorem reads_aggregate {p : RespParser} {value : RespValue}
    (hagg : value.isAggregate = true) (hfits : FitsLimits p value)
    (hwrite : Writable value) (hnest : value.nesting + p.currentDepth ≤ p.maxDepth)
    (hitems : ∀ item ∈ value.items,
      Reads { p with currentDepth := p.currentDepth + 1 } (encode item) item) :
    Reads p (encode value) value := by
  intro rest
  rw [encode_eq_header_append hagg, header]
  simp only [List.cons_append, List.append_assoc]
  rw [parse_marker (markerState_marker value)]
  by_cases hempty : value.items = []
  · rw [hempty]
    exact parse_count_empty hagg hempty rfl rest
  · have hdepth : p.currentDepth + 1 ≤ p.maxDepth := by
      have := nesting_pos hempty
      omega
    rw [parse_count hempty hwrite hfits hdepth rfl]
    exact parse_frame_closesAll (p := { p with currentDepth := p.currentDepth + 1 })
      (opening_closesAll hempty) hitems (Nat.succ_pos _) rest

/-- Every writable value within the limits is read back, at any depth that
leaves room for its nesting. -/
theorem reads_encode (value : RespValue) (p : RespParser)
    (hfits : value.Everywhere (FitsLimits p)) (hwrite : value.Everywhere Writable)
    (hnest : value.nesting + p.currentDepth ≤ p.maxDepth) :
    Reads p (encode value) value := by
  induction value using itemInduction generalizing p with
  | aggregate value hagg ih =>
      refine reads_aggregate hagg hfits.self hwrite.self hnest ?_
      intro item hitem
      have := nesting_item_lt hitem
      exact ih item hitem _ (hfits.item hitem) (hwrite.item hitem) (by dsimp only; omega)
  | scalar value hscalar =>
      cases value with
      | simpleString s => exact reads_line rfl hwrite rfl
      | error e => exact reads_line rfl hwrite rfl
      | bigNumber n => exact reads_line rfl hwrite rfl
      | integer i =>
          have hparse := parseI64_of_i64FromStr (i64FromStr_i64ToString i)
          refine reads_line rfl (crlfFree_of_cr_not_mem (cr_not_mem_of_parseI64 hparse)) ?_
          simp only [LineKind.value, hparse, Option.map_some]
      | double d =>
          refine reads_line rfl (crlfFree_of_cr_not_mem (cr_not_mem_of_parseDouble hwrite)) ?_
          simp only [LineKind.value, show parseDouble (doubleText d) = some d from hwrite,
            Option.map_some]
      | bulkString s =>
          cases s with
          | none =>
              intro rest
              exact (parse_marker (b := 36) rfl (45 :: 49 :: crlf ++ rest)).trans
                (parse_of_answer rfl)
          | some s => exact reads_bulk s rfl hwrite hfits rfl
      | bulkError e => exact reads_bulk e rfl hwrite hfits rfl
      | verbatimString format data =>
          obtain ⟨f₀, f₁, f₂⟩ := format
          have hbody : (f₀ :: f₁ :: f₂ :: 58 :: data).length = 4 + data.length := by
            simp only [List.length_cons]
            omega
          have hreads : Reads p _ (.verbatimString (f₀, f₁, f₂) data) :=
            reads_bulk (b := 61) (f₀ :: f₁ :: f₂ :: 58 :: data) rfl
              (hbody ▸ hwrite) (hbody ▸ hfits) rfl
          rw [hbody] at hreads
          simpa [encode] using hreads
      | null => exact reads_null
      | boolean b =>
          cases b with
          | true => exact reads_boolean true
          | false => exact reads_boolean false
      | _ => cases hscalar

/-- Round trip with pipelining: one call on an idle parser returns the encoded
value, keeps exactly the bytes behind it, and is idle again. -/
theorem parse_encode_append (p : RespParser) (hstate : p.state = .waitingForType)
    (hdepth : p.currentDepth = 0) (value : RespValue)
    (hfits : value.Everywhere (FitsLimits p)) (hwrite : value.Everywhere Writable)
    (hnest : value.nesting ≤ p.maxDepth) (rest : Bytes) :
    parse ⟨p, encode value ++ rest⟩ = (.ok (some value), ⟨p, rest⟩) := by
  have hreads : Reads p (encode value) value := reads_encode value p hfits hwrite (by omega)
  exact hreads.parse_append hstate rest

end

namespace Witness

/-- Every aggregate kind, an empty body, a null and a double under one array. -/
def catalogue : RespValue :=
  .array (some [
    .map [(.simpleString (ascii "key"), .set [.double oneAndAHalf, .integer (-7)])],
    .push [.bulkString (some []), .bulkString none, .boolean true],
    .verbatimString (116, 120, 116) (ascii "hi")])

theorem parse_encode_catalogue :
    parse ⟨RespParser.new, encode catalogue ++ ascii "+OK"⟩ =
      (.ok (some catalogue), ⟨RespParser.new, ascii "+OK"⟩) := by
  apply parse_encode_append RespParser.new rfl rfl
  · simp [catalogue, Everywhere, EverywhereIn, EverywhereInPairs, FitsLimits, RespParser.new,
      ascii]
  · simp only [catalogue, Everywhere, EverywhereIn, EverywhereInPairs, Writable]
    decide
  · decide

end Witness

end Seshat
