/-
The streaming parser: its twenty states, the body of its loop and the code
that follows the recursive call of the four aggregate states.  States that the
source spells out alike are one constructor with a kind; their source names are
kept as patterns.  Subtractions and slices that would panic are checked.
-/
import Seshat.Lib.CallMachine
import Seshat.Resp.Encoder

namespace Seshat

open CallMachine Decimal Utf8

/-- Frames that consist of one line of text. -/
inductive LineKind where
  | simpleString | error | integer | double | bigNumber
deriving DecidableEq, Repr

/-- Frames that announce a byte count. -/
inductive BulkKind where
  | bulkString | bulkError | verbatimString
deriving DecidableEq, Repr

/-- Frames that announce a number of elements; a map announces pairs. -/
inductive SeqKind where
  | array | set | push
deriving DecidableEq, Repr

/-- Internal parser state machine. -/
inductive ParseState where
  | waitingForType
  | line (kind : LineKind) (data : Bytes)
  | bulkLen (kind : BulkKind) (lenBytes : Bytes)
  | bulkData (kind : BulkKind) (len : Nat) (data : Bytes)
  | seqLen (kind : SeqKind) (lenBytes : Bytes)
  | seqData (kind : SeqKind) (remaining : Nat) (elements : List RespValue)
  | mapLen (lenBytes : Bytes)
  | mapData (remaining : Nat) (pairs : List (RespValue × RespValue))
      (currentKey : Option RespValue)

namespace ParseState

@[match_pattern] abbrev simpleString (data : Bytes) := line .simpleString data
@[match_pattern] abbrev error (data : Bytes) := line .error data
@[match_pattern] abbrev integer (data : Bytes) := line .integer data
@[match_pattern] abbrev double (data : Bytes) := line .double data
@[match_pattern] abbrev bigNumber (data : Bytes) := line .bigNumber data
@[match_pattern] abbrev bulkStringLen (lenBytes : Bytes) :=
  bulkLen .bulkString lenBytes
@[match_pattern] abbrev bulkStringData (len : Nat) (data : Bytes) :=
  bulkData .bulkString len data
@[match_pattern] abbrev bulkErrorLen (lenBytes : Bytes) :=
  bulkLen .bulkError lenBytes
@[match_pattern] abbrev bulkErrorData (len : Nat) (data : Bytes) :=
  bulkData .bulkError len data
@[match_pattern] abbrev verbatimStringLen (lenBytes : Bytes) :=
  bulkLen .verbatimString lenBytes
@[match_pattern] abbrev verbatimStringData (len : Nat) (data : Bytes) :=
  bulkData .verbatimString len data
@[match_pattern] abbrev arrayLen (lenBytes : Bytes) := seqLen .array lenBytes
@[match_pattern] abbrev arrayData (remaining : Nat) (elements : List RespValue) :=
  seqData .array remaining elements
@[match_pattern] abbrev setLen (lenBytes : Bytes) := seqLen .set lenBytes
@[match_pattern] abbrev setData (remaining : Nat) (elements : List RespValue) :=
  seqData .set remaining elements
@[match_pattern] abbrev pushLen (lenBytes : Bytes) := seqLen .push lenBytes
@[match_pattern] abbrev pushData (remaining : Nat) (elements : List RespValue) :=
  seqData .push remaining elements

end ParseState

/-- Streaming RESP3 parser with its limits and its nesting counter. -/
structure RespParser where
  state : ParseState
  maxBulkSize : Nat
  maxArrayLen : Nat
  maxDepth : Nat
  currentDepth : Nat

namespace RespParser

/-- Default limits: 512 MB, one million elements, 32 levels. -/
def new : RespParser where
  state := .waitingForType
  maxBulkSize := 512 * 1024 * 1024
  maxArrayLen := 1000000
  maxDepth := 32
  currentDepth := 0

def withMaxBulkSize (p : RespParser) (size : Nat) : RespParser :=
  { p with maxBulkSize := size }

def withMaxArrayLen (p : RespParser) (len : Nat) : RespParser :=
  { p with maxArrayLen := len }

def withMaxDepth (p : RespParser) (depth : Nat) : RespParser :=
  { p with maxDepth := depth }

/-- A fresh parser with the given limits. -/
def fresh (bulkSize arrayLen depth : Nat) : RespParser :=
  ((new.withMaxBulkSize bulkSize).withMaxArrayLen arrayLen).withMaxDepth depth

end RespParser

/-- What a call answers; `panic` stands for a failed subtraction or slice. -/
inductive Outcome where
  | ok (value : Option RespValue)
  | err (error : ProtocolError)
  | panic

/-- The `&mut self` and the `&mut BytesMut` of a call. -/
structure Cursor where
  parser : RespParser
  buf : Bytes

/-- What an aggregate state keeps across the recursive call. -/
inductive Frame where
  | seq (kind : SeqKind) (rem : Nat) (elems : List RespValue)
  | map (rem : Nat) (pairs : List (RespValue × RespValue))
      (key : Option RespValue)

/-- Find CRLF; the position of CR if there is one. -/
def findCrlf : Bytes → Option Nat
  | 13 :: 10 :: _ => some 0
  | _ :: rest => (findCrlf rest).map (· + 1)
  | [] => none

/-- `usize` subtraction. -/
def checkedSub (a b : Nat) : Option Nat :=
  if b ≤ a then some (a - b) else none

/-- The slice `&buf[start..stop]`. -/
def slice (buf : Bytes) (start stop : Nat) : Option Bytes :=
  if start ≤ stop ∧ stop ≤ buf.length then some ((buf.take stop).drop start) else none

/-- `Buf::advance`. -/
def advance (buf : Bytes) (count : Nat) : Option Bytes :=
  if count ≤ buf.length then some (buf.drop count) else none

/-- `str::from_utf8` followed by `parse::<i64>`. -/
def parseI64 (bytes : Bytes) : Option Int64 :=
  (fromUtf8 bytes).bind i64FromStr

/-- One pass of the parser's loop. -/
abbrev Pass := Act Cursor Outcome Frame

/-- Leave the call with an answer. -/
def answer (outcome : Outcome) (p : RespParser) (buf : Bytes) : Pass :=
  .next (.ret outcome ⟨p, buf⟩)

/-- Go round the loop again. -/
def again (p : RespParser) (buf : Bytes) : Pass :=
  .next (.loop ⟨p, buf⟩)

def panicking (p : RespParser) (buf : Bytes) : Pass :=
  answer .panic p buf

/-- Leave the call with a value, waiting for the next frame. -/
def complete (value : RespValue) (p : RespParser) (buf : Bytes) : Pass :=
  answer (.ok (some value)) { p with state := .waitingForType } buf

/-- The part shared by every state that reads a line: take the bytes up to
CRLF, or keep what there is and ask for more.  The state has already taken over
the bytes when `finish` looks at them. -/
def withLine (p : RespParser) (buf : Bytes) (keep : Bytes → ParseState) (data : Bytes)
    (finish : RespParser → Bytes → Bytes → Pass) : Pass :=
  match findCrlf buf with
  | some pos =>
      match slice buf 0 pos, advance buf (pos + 2) with
      | some line, some rest =>
          finish { p with state := keep (data ++ line) } (data ++ line) rest
      | _, _ => panicking p buf
  | none => answer (.ok none) { p with state := keep (data ++ buf) } []

variable [F64Text]

/-- The double of a line: three words, otherwise the standard parser. -/
def parseDouble (bytes : Bytes) : Option F64 :=
  (fromUtf8 bytes).bind fun str =>
    if str = ascii "inf" then some F64.infinity
    else if str = ascii "-inf" then some F64.negInfinity
    else if str = ascii "nan" then some F64.nan
    else F64Text.fromStr str

/-- The value a complete line denotes; `none` is reported as `InvalidLength`. -/
def LineKind.value : LineKind → Bytes → Option RespValue
  | .simpleString, data => some (.simpleString data)
  | .error, data => some (.error data)
  | .integer, data => (parseI64 data).map .integer
  | .double, data => (parseDouble data).map .double
  | .bigNumber, data => some (.bigNumber data)

def lineStep (kind : LineKind) (p : RespParser) (buf data : Bytes) : Pass :=
  withLine p buf (.line kind) data fun p data rest =>
    match kind.value data with
    | some value => complete value p rest
    | none => answer (.err .invalidLength) p rest

/-- A length line: the null form where there is one, then a non-negative
length handed to the kind's own checks. -/
def lenStep (p : RespParser) (buf : Bytes) (keep : Bytes → ParseState)
    (lenBytes : Bytes) (null : Option RespValue)
    (enter : RespParser → Nat → Bytes → Pass) : Pass :=
  withLine p buf keep lenBytes fun p line rest =>
    match parseI64 line with
    | none => answer (.err .invalidLength) p rest
    | some len =>
        match null, decide (len = -1) with
        | some value, true => complete value p rest
        | _, _ =>
            if len < 0 then answer (.err .invalidLength) p rest
            else enter p len.toNatClampNeg rest

def BulkKind.null : BulkKind → RespValue
  | .bulkString => .bulkString none
  | .bulkError => .null
  | .verbatimString => .null

/-- The value of a complete body; `none` is reported as `InvalidLength`. -/
def BulkKind.value : BulkKind → Bytes → Option RespValue
  | .bulkString, data => some (.bulkString (some data))
  | .bulkError, data => some (.bulkError data)
  | .verbatimString, f₀ :: f₁ :: f₂ :: colon :: content =>
      if colon = 58 then some (.verbatimString (f₀, f₁, f₂) content) else none
  | .verbatimString, _ => none

/-- A zero length still has its final CRLF to consume; with fewer than two
bytes at hand they stay in the buffer. -/
def emptyBulk (kind : BulkKind) (value : RespValue) (p : RespParser) (buf : Bytes) : Pass :=
  match buf with
  | a :: b :: rest =>
      if [a, b] ≠ crlf then answer (.err .invalidLength) p buf
      else complete value p rest
  | _ => answer (.ok none) { p with state := .bulkData kind 0 [] } buf

/-- The checks behind a length line.  The room that is then reserved for the body is left
to `Capacity`, where a call can also end for want of it. -/
def BulkKind.enter (kind : BulkKind) (p : RespParser) (len : Nat) (buf : Bytes) : Pass :=
  if len > p.maxBulkSize then
    answer (.err (.bulkStringTooLarge len p.maxBulkSize)) p buf
  else
    let openBody := again { p with state := .bulkData kind len [] } buf
    match kind with
    | .bulkString =>
        if len = 0 then emptyBulk .bulkString (.bulkString (some [])) p buf else openBody
    | .bulkError =>
        if len = 0 then emptyBulk .bulkError (.bulkError []) p buf else openBody
    | .verbatimString =>
        -- format and colon take four bytes
        if len < 4 then answer (.err .invalidLength) p buf else openBody

/-- A body of known length and its CRLF, accumulated over calls. -/
def bulkDataStep (kind : BulkKind) (p : RespParser) (buf : Bytes) (len : Nat)
    (data : Bytes) : Pass :=
  match checkedSub (len + 2) data.length with
  | none => panicking p buf
  | some needed =>
      if buf.length < needed then
        answer (.ok none) { p with state := .bulkData kind len (data ++ buf) } []
      else
        match checkedSub len data.length with
        | none => panicking p buf
        | some dataNeeded =>
            match slice buf 0 dataNeeded, slice buf dataNeeded (dataNeeded + 2),
                advance buf (dataNeeded + 2) with
            | some body, some terminator, some rest =>
                let p := { p with state := .bulkData kind len (data ++ body) }
                if terminator ≠ crlf then answer (.err .invalidLength) p buf
                else
                  match kind.value (data ++ body) with
                  | some value => complete value p rest
                  | none => answer (.err .invalidLength) p rest
            | _, _, _ => panicking p buf

/-- The checks behind an aggregate's length line.  The room that is then reserved for the
elements is left to `Capacity`, as for a body. -/
def enterAggregate (empty : RespValue) (state : Nat → ParseState) (p : RespParser)
    (len : Nat) (buf : Bytes) : Pass :=
  if len > p.maxArrayLen then
    answer (.err (.arrayTooLarge len p.maxArrayLen)) p buf
  else if len = 0 then complete empty p buf
  else if p.currentDepth + 1 > p.maxDepth then
    -- the counter is restored before the error leaves
    answer (.err .nestingTooDeep) p buf
  else again { p with currentDepth := p.currentDepth + 1, state := state len } buf

def SeqKind.null : SeqKind → Option RespValue
  | .array => some (.array none)
  | .set => some .null
  | .push => none

def SeqKind.value : SeqKind → List RespValue → RespValue
  | .array, elements => .array (some elements)
  | .set, elements => .set elements
  | .push, elements => .push elements

/-- An aggregate whose count has run out leaves one level of nesting. -/
def leaveAggregate (value : RespValue) (p : RespParser) (buf : Bytes) :
    Next Cursor Outcome :=
  match checkedSub p.currentDepth 1 with
  | none => .ret .panic ⟨p, buf⟩
  | some depth => .ret (.ok (some value)) ⟨{ p with currentDepth := depth }, buf⟩

/-- The aggregate states: answer when nothing remains, otherwise parse the next
element from `WaitingForType`. -/
def aggregateStep (frame : Frame) (p : RespParser) (buf : Bytes) : Pass :=
  let p := { p with state := .waitingForType }
  match frame with
  | .seq kind 0 elems => .next (leaveAggregate (kind.value elems) p buf)
  | .map 0 pairs _ => .next (leaveAggregate (.map pairs) p buf)
  | frame => .call frame ⟨p, buf⟩

def Frame.state : Frame → ParseState
  | .seq kind rem elems => .seqData kind rem elems
  | .map rem pairs key => .mapData rem pairs key

/-- The first byte of a frame decides its type. -/
def typeStep (typeByte : UInt8) (p : RespParser) (buf : Bytes) : Pass :=
  match typeByte with
  | 43 => again { p with state := .simpleString [] } buf
  | 45 => again { p with state := .error [] } buf
  | 58 => again { p with state := .integer [] } buf
  | 36 => again { p with state := .bulkStringLen [] } buf
  | 42 => again { p with state := .arrayLen [] } buf
  | 95 =>
      match buf with
      | a :: b :: rest =>
          if [a, b] ≠ crlf then answer (.err .invalidLength) p buf
          else complete .null p rest
      | _ => answer (.ok none) p buf
  | 35 =>
      match buf with
      | val :: a :: b :: rest =>
          if [a, b] ≠ crlf then answer (.err .invalidLength) p buf
          else complete (.boolean (val == 116)) p rest
      | _ => answer (.ok none) p buf
  | 44 => again { p with state := .double [] } buf
  | 40 => again { p with state := .bigNumber [] } buf
  | 33 => again { p with state := .bulkErrorLen [] } buf
  | 61 => again { p with state := .verbatimStringLen [] } buf
  | 37 => again { p with state := .mapLen [] } buf
  | 126 => again { p with state := .setLen [] } buf
  | 62 => again { p with state := .pushLen [] } buf
  | _ => answer (.err (.invalidTypeMarker typeByte)) p buf

/-- The type byte is consumed before anything else is looked at. -/
def waitingStep (p : RespParser) (buf : Bytes) : Pass :=
  match buf with
  | [] => answer (.ok none) p []
  | typeByte :: buf => typeStep typeByte p buf

/-- The body of `RespParser::parse`'s loop. -/
def parseStep (c : Cursor) : Pass :=
  let p := c.parser
  match p.state with
  | .waitingForType => waitingStep p c.buf
  | .line kind data => lineStep kind p c.buf data
  | .bulkLen kind lenBytes =>
      lenStep p c.buf (.bulkLen kind) lenBytes (some kind.null) kind.enter
  | .bulkData kind len data => bulkDataStep kind p c.buf len data
  | .seqLen kind lenBytes =>
      lenStep p c.buf (.seqLen kind) lenBytes kind.null
        (enterAggregate (kind.value []) fun len => .seqData kind len [])
  | .mapLen lenBytes =>
      lenStep p c.buf .mapLen lenBytes (some .null)
        (enterAggregate (.map []) fun len => .mapData len [] none)
  | .seqData kind rem elems => aggregateStep (.seq kind rem elems) p c.buf
  | .mapData rem pairs key => aggregateStep (.map rem pairs key) p c.buf

/-- The code behind `self.parse(buf)?`: an error leaves at once, a missing
element puts the aggregate's own state back, an element is collected. -/
def parseResume (frame : Frame) (outcome : Outcome) (c : Cursor) :
    Next Cursor Outcome :=
  match outcome with
  | .err e => .ret (.err e) c
  | .panic => .ret .panic c
  | .ok none => .ret (.ok none) ⟨{ c.parser with state := frame.state }, c.buf⟩
  | .ok (some element) =>
      match frame with
      | .map rem pairs none =>
          -- this element is the key, its value comes next
          .loop ⟨{ c.parser with state := .mapData rem pairs (some element) }, c.buf⟩
      | .map rem pairs (some key) =>
          let pairs := pairs ++ [(key, element)]
          match checkedSub rem 1 with
          | none => .ret .panic c
          | some 0 => leaveAggregate (.map pairs) c.parser c.buf
          | some rem => .loop ⟨{ c.parser with state := .mapData rem pairs none }, c.buf⟩
      | .seq kind rem elems =>
          let elems := elems ++ [element]
          match checkedSub rem 1 with
          | none => .ret .panic c
          | some 0 => leaveAggregate (kind.value elems) c.parser c.buf
          | some rem => .loop ⟨{ c.parser with state := .seqData kind rem elems }, c.buf⟩

end Seshat
