/-
The RESP encoder as the bytes it appends to its buffer.  Every branch of the
source ends in `Ok(())`, so the encoder is a total function of the value.
-/
import Seshat.Resp.Value

namespace Seshat

open Decimal

/-- The line terminator `\r\n`. -/
def crlf : Bytes := [13, 10]

variable [F64Text]

/-- The text of a double: words for the infinities and nan, decimal otherwise. -/
def doubleText (d : F64) : Bytes :=
  if d.isInfinite then
    if d.gtZero then ascii "inf" else ascii "-inf"
  else if d.isNan then ascii "nan"
  else F64Text.toString d

mutual

/-- `RespEncoder::encode`, as the bytes put into the buffer. -/
def encode : RespValue → Bytes
  | .simpleString s => 43 :: s ++ crlf                                  -- `+`
  | .error e => 45 :: e ++ crlf                                         -- `-`
  | .integer i => 58 :: i64ToString i ++ crlf                           -- `:`
  | .bulkString none => [36, 45, 49, 13, 10]                            -- `$-1`
  | .bulkString (some s) => 36 :: text s.length ++ crlf ++ s ++ crlf    -- `$`
  | .array none => [42, 45, 49, 13, 10]                                 -- `*-1`
  | .array (some arr) => 42 :: text arr.length ++ crlf ++ encodeAll arr -- `*`
  | .null => [95, 13, 10]                                               -- `_`
  | .boolean true => [35, 116, 13, 10]                                  -- `#t`
  | .boolean false => [35, 102, 13, 10]                                 -- `#f`
  | .double d => 44 :: doubleText d ++ crlf                             -- `,`
  | .bigNumber n => 40 :: n ++ crlf                                     -- `(`
  | .bulkError e => 33 :: text e.length ++ crlf ++ e ++ crlf            -- `!`
  | .verbatimString (f₀, f₁, f₂) data =>
      -- the length counts the format (3), the colon (1) and the data
      61 :: text (4 + data.length) ++ crlf ++ [f₀, f₁, f₂, 58] ++ data ++ crlf
  | .map pairs => 37 :: text pairs.length ++ crlf ++ encodePairs pairs  -- `%`
  | .set elements => 126 :: text elements.length ++ crlf ++ encodeAll elements
  | .push elements => 62 :: text elements.length ++ crlf ++ encodeAll elements

/-- The loop over the elements of an array, set or push. -/
def encodeAll : List RespValue → Bytes
  | [] => []
  | elem :: rest => encode elem ++ encodeAll rest

/-- The loop over the pairs of a map, key before value. -/
def encodePairs : List (RespValue × RespValue) → Bytes
  | [] => []
  | (key, value) :: rest => encode key ++ encode value ++ encodePairs rest

end

theorem encode_ne_nil (value : RespValue) : encode value ≠ [] := by
  cases value using RespValue.casesOn with
  | bulkString s => cases s <;> simp [encode]
  | array arr => cases arr <;> simp [encode]
  | boolean b => cases b <;> simp [encode]
  | _ => simp [encode]

theorem encodeAll_eq_flatMap (items : List RespValue) : encodeAll items = items.flatMap encode := by
  induction items with
  | nil => simp [encodeAll]
  | cons item items ih => simp [encodeAll, ih]

theorem encodeAll_append (left right : List RespValue) :
    encodeAll (left ++ right) = encodeAll left ++ encodeAll right := by
  simp only [encodeAll_eq_flatMap, List.flatMap_append]

end Seshat
