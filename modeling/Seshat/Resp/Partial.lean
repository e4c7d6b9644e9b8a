/-
Calls that stop in the middle of a line or of a body, and the two places where
the bytes kept so far can no longer become the frame they began: a line that has
taken over its CR, and a body that has taken over the CR behind it.
-/
import Seshat.Resp.Frames

namespace Seshat

open Decimal

/-- The parser after a part of a line that begins with a type byte. -/
def RespParser.inLine (p : RespParser) (keep : Bytes → ParseState) : Bytes → RespParser
  | [] => p
  | _ :: data => { p with state := keep data }

/-- A length that has taken over a CR is no number whatever follows. -/
def RespParser.Stuck (keep : Bytes → ParseState) (q : RespParser) : Prop :=
  ∃ data, q.state = keep data ∧ 13 ∈ data

/-- A body state that already holds one byte of its terminator. -/
def ParseState.Stranded : ParseState → Prop
  | .bulkData _ len data => data.length = len + 1
  | _ => False

variable [F64Text]

theorem parse_waiting_nil {p : RespParser} (hp : p.state = .waitingForType) :
    parse ⟨p, []⟩ = (.ok none, ⟨p, []⟩) := by
  apply parse_of_answer
  simp only [parseStep, hp, waitingStep]

theorem ReadsLine.parse_more {keep : Bytes → ParseState} (hkeep : ReadsLine keep)
    {p : RespParser} {data : Bytes} (hp : p.state = keep data) {buf : Bytes}
    (hbuf : CrlfFree buf) :
    parse ⟨p, buf⟩ = (.ok none, ⟨{ p with state := keep (data ++ buf) }, []⟩) := by
  apply parse_of_answer
  cases hkeep <;>
    simp only [parseStep, hp, lineStep, lenStep, withLine_more hbuf]

/-- In a line, as long as its LF is not reached, every call waits. -/
theorem parse_inLine {p : RespParser} (hp : p.state = .waitingForType) {b : UInt8}
    {keep : Bytes → ParseState} (hb : markerState b = some (keep []))
    (hkeep : ReadsLine keep) {line : Bytes} (hline : CrlfFree line)
    (left chunk : Bytes) (hbegin : left ++ chunk <+: b :: (line ++ [13])) :
    parse ⟨p.inLine keep left, chunk⟩ = (.ok none, ⟨p.inLine keep (left ++ chunk), []⟩) := by
  obtain ⟨tail, htail⟩ := hbegin
  cases left with
  | nil =>
      cases chunk with
      | nil => exact parse_waiting_nil hp
      | cons c chunk =>
          -- the chunk brings the type byte
          simp only [List.nil_append, List.cons_append, List.cons.injEq] at htail
          obtain ⟨rfl, htail⟩ := htail
          have hmarker := parse_marker (p := p) hb chunk
          rw [← hp] at hmarker
          refine hmarker.trans ?_
          exact hkeep.parse_more (p := { p with state := keep [] }) rfl
            (htail ▸ hline.concat_cr : CrlfFree _).of_append_left
  | cons c data =>
      simp only [List.cons_append, List.cons.injEq] at htail
      exact hkeep.parse_more (p := { p with state := keep data }) rfl
        (htail.2 ▸ hline.concat_cr : CrlfFree _).of_append_left.of_append_right

/-- The rest of a line is read as if its beginning had just been taken over. -/
theorem parse_inLine_rest {p : RespParser} (hp : p.state = .waitingForType) {b : UInt8}
    {keep : Bytes → ParseState} (hb : markerState b = some (keep [])) {left tail line : Bytes}
    (heq : left ++ tail = b :: line) (rest : Bytes) :
    ∃ data more, data ++ more = line ∧ parse ⟨p.inLine keep left, tail ++ rest⟩ =
      parse ⟨{ p with state := keep data }, more ++ rest⟩ := by
  cases left with
  | nil =>
      obtain rfl : tail = b :: line := heq
      refine ⟨[], line, rfl, ?_⟩
      have hmarker := parse_marker (p := p) hb (line ++ rest)
      rw [← hp] at hmarker
      exact hmarker
  | cons c data =>
      simp only [List.cons_append, List.cons.injEq] at heq
      exact ⟨data, tail, heq.2, rfl⟩

theorem ReadsLen.parse_of_stuck {keep : Bytes → ParseState} (hkeep : ReadsLen keep)
    {q : RespParser} (hstuck : q.Stuck keep) (buf : Bytes) :
    ((parse ⟨q, buf⟩).1 = .ok none ∨ ∃ e, (parse ⟨q, buf⟩).1 = .err e) ∧
      (parse ⟨q, buf⟩).2.parser.Stuck keep := by
  obtain ⟨data, hq, hcr⟩ := hstuck
  rcases crlfFree_or_line buf with hbuf | ⟨line, rest, hline, rfl⟩
  · rw [hkeep.readsLine.parse_more hq hbuf]
    exact ⟨Or.inl rfl, _, rfl, List.mem_append_left _ hcr⟩
  · have hnone : parseI64 (data ++ line) = none := by
      cases hparse : parseI64 (data ++ line) with
      | none => rfl
      | some len => exact absurd (List.mem_append_left _ hcr) (cr_not_mem_of_parseI64 hparse)
    have hparse : parse ⟨q, line ++ (crlf ++ rest)⟩ = (.err .invalidLength,
        ⟨{ q with state := keep (data ++ line) }, rest⟩) := by
      apply parse_of_answer
      cases hkeep <;>
        simp only [parseStep, hq, lenStep, withLine_line hline, hnone]
    rw [hparse]
    exact ⟨Or.inr ⟨_, rfl⟩, _, rfl, List.mem_append_left _ hcr⟩

/-- Behind the length line of an empty body, less than its CRLF stays in the
buffer. -/
theorem parse_emptyBulk_short {p : RespParser} {kind : BulkKind} {lenBytes line : Bytes}
    {len : Int64} (hline : CrlfFree line) (hlen : parseI64 (lenBytes ++ line) = some len)
    (hneg : ¬ len < 0) (hzero : len.toNatClampNeg = 0) (hkind : kind ≠ .verbatimString)
    {left : Bytes} (hleft : left.length < 2) :
    parse ⟨{ p with state := .bulkLen kind lenBytes }, line ++ (crlf ++ left)⟩ =
      (.ok none, ⟨{ p with state := .bulkData kind 0 [] }, left⟩) := by
  apply parse_of_answer
  change lenStep _ _ _ _ _ _ = _
  rw [lenStep_enter hline hlen hneg, hzero]
  match left, hleft with
  | [], _ =>
      cases kind with
      | bulkString => rfl
      | bulkError => rfl
      | verbatimString => exact absurd rfl hkind
  | [b], _ =>
      cases kind with
      | bulkString => rfl
      | bulkError => rfl
      | verbatimString => exact absurd rfl hkind

theorem parse_bulkData_more {p : RespParser} {kind : BulkKind} {len : Nat}
    {data buf : Bytes} (hp : p.state = .bulkData kind len data)
    (hlength : data.length + buf.length < len + 2) :
    parse ⟨p, buf⟩ = (.ok none, ⟨{ p with state := .bulkData kind len (data ++ buf) }, []⟩) := by
  apply parse_of_answer
  simp only [parseStep, hp, bulkDataStep, checkedSub,
    if_pos (show data.length ≤ len + 2 by omega),
    if_pos (show buf.length < len + 2 - data.length by omega)]

theorem parse_stranded {p : RespParser} (h : p.state.Stranded) {buf : Bytes}
    (hbuf : buf ≠ []) : (parse ⟨p, buf⟩).1 = .panic := by
  cases hp : p.state with
  | bulkData kind len data =>
      rw [hp] at h
      replace h : data.length = len + 1 := h
      have hlength : 1 ≤ buf.length := List.length_pos_iff.mpr hbuf
      have hpanic : parse ⟨p, buf⟩ = (.panic, ⟨p, buf⟩) := by
        apply parse_of_answer
        simp only [parseStep, hp, bulkDataStep, checkedSub,
          if_pos (show data.length ≤ len + 2 by omega),
          if_neg (show ¬ buf.length < len + 2 - data.length by omega),
          if_neg (show ¬ data.length ≤ len by omega)]
        rfl
      rw [hpanic]
  | _ =>
      rw [hp] at h
      exact h.elim

end Seshat
