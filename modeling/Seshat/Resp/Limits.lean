/-
The limits a parser enforces on values, and the conditions under which the
encoder writes a value unambiguously.
-/
import Seshat.Resp.Parser

namespace Seshat

open Decimal

/-- Two parsers with the same configured limits. -/
def RespParser.SameLimits (p q : RespParser) : Prop :=
  p.maxBulkSize = q.maxBulkSize ∧ p.maxArrayLen = q.maxArrayLen ∧ p.maxDepth = q.maxDepth

/-- What `max_bulk_size` and `max_array_len` say about one value, nested values
aside.  A map's limit counts pairs; a verbatim string counts its format. -/
def FitsLimits (p : RespParser) : RespValue → Prop
  | .bulkString (some s) => s.length ≤ p.maxBulkSize
  | .bulkError e => e.length ≤ p.maxBulkSize
  | .verbatimString _ data => 4 + data.length ≤ p.maxBulkSize
  | .array (some elements) => elements.length ≤ p.maxArrayLen
  | .map pairs => pairs.length ≤ p.maxArrayLen
  | .set elements => elements.length ≤ p.maxArrayLen
  | .push elements => elements.length ≤ p.maxArrayLen
  | _ => True

/-- No CR is directly followed by LF. -/
def CrlfFree (s : Bytes) : Prop :=
  ¬ crlf <:+: s

instance (s : Bytes) : Decidable (CrlfFree s) :=
  inferInstanceAs (Decidable (¬ crlf <:+: s))

/-- What the encoder needs of one value, nested values aside: line payloads
without CRLF, written lengths within a signed word, and a double whose text the
reader maps back to it. -/
def Writable [F64Text] : RespValue → Prop
  | .simpleString s => CrlfFree s
  | .error e => CrlfFree e
  | .bigNumber n => CrlfFree n
  | .double d => parseDouble (doubleText d) = some d
  | .bulkString (some s) => s.length < 2 ^ 63
  | .bulkError e => e.length < 2 ^ 63
  | .verbatimString _ data => 4 + data.length < 2 ^ 63
  | .array (some elements) => elements.length < 2 ^ 63
  | .map pairs => pairs.length < 2 ^ 63
  | .set elements => elements.length < 2 ^ 63
  | .push elements => elements.length < 2 ^ 63
  | _ => True

theorem FitsLimits.congr {p q : RespParser} (h : p.SameLimits q) :
    FitsLimits p = FitsLimits q := by
  obtain ⟨hbulk, harray, -⟩ := h
  funext value
  simp only [FitsLimits, hbulk, harray]

namespace RespValue

theorem Everywhere.self {P : RespValue → Prop} {value : RespValue}
    (h : value.Everywhere P) : P value := by
  cases value with
  | array arr =>
      cases arr with
      | none => exact h
      | some elements => exact h.1
  | map pairs => exact h.1
  | set elements => exact h.1
  | push elements => exact h.1
  | _ => exact h

end RespValue

end Seshat
