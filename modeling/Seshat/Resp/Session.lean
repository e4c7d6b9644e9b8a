/-
Two ends of a connection.  A client writes its commands one behind the other, as arrays of
bulk strings or as inline text, and the server makes the same commands of both; the server
writes its replies one behind the other, and the client reads them back exactly if no line
of text among them holds a CRLF.
-/
import Seshat.Resp.Acceptance
import Seshat.Resp.Aggregates
import Seshat.Resp.Command
import Seshat.Resp.Inline
import Seshat.Resp.Streaming

namespace Seshat

open CallMachine CaseMapping Decimal RespValue

/-- `RespCodec`: a parser, and the encoder that keeps no state. -/
structure RespCodec where
  parser : RespParser

namespace RespCodec

variable [F64Text]

def new : RespCodec := ⟨.new⟩

/-- `Decoder::decode`, with the rest of `src`. -/
def decode (codec : RespCodec) (src : Bytes) : Outcome × RespCodec × Bytes :=
  let answer := parse ⟨codec.parser, src⟩
  (answer.1, ⟨answer.2.parser⟩, answer.2.buf)

/-- `Encoder::encode`, as what becomes of `dst`. -/
def encode (item : RespValue) (dst : Bytes) : Bytes :=
  dst ++ Seshat.encode item

end RespCodec

def encodeOk (buf : Bytes) : Bytes := buf ++ ascii "+OK\r\n"

/-- The message is written as it is. -/
def encodeError (msg buf : Bytes) : Bytes := buf ++ 45 :: msg ++ crlf

def encodeNull (buf : Bytes) : Bytes := buf ++ ascii "_\r\n"

/-- What a server can put into a reply buffer. -/
inductive Reply where
  | value (value : RespValue)
  | ok
  | error (msg : Bytes)
  | null

namespace Reply

variable [F64Text]

def write (buf : Bytes) : Reply → Bytes
  | value v => RespCodec.encode v buf
  | ok => encodeOk buf
  | error msg => encodeError msg buf
  | null => encodeNull buf

/-- The value a reply is meant to arrive as. -/
def denotes : Reply → RespValue
  | value v => v
  | ok => .simpleString (ascii "OK")
  | error msg => .error msg
  | null => .null

theorem write_eq (buf : Bytes) (reply : Reply) :
    reply.write buf = buf ++ encode reply.denotes := by
  cases reply with
  | value v => rfl
  | ok => rfl
  | error msg => simp [write, encodeError, denotes, encode]
  | null => rfl

/-- A buffer of replies. -/
def writeAll (replies : List Reply) : Bytes :=
  replies.foldl write []

theorem writeAll_eq (replies : List Reply) :
    writeAll replies = encodeAll (replies.map denotes) := by
  have hfold : ∀ buf, replies.foldl write buf = buf ++ encodeAll (replies.map denotes) := by
    induction replies with
    | nil => simp [encodeAll]
    | cons reply replies ih =>
        intro buf
        rw [List.foldl_cons, ih, write_eq, List.map_cons, encodeAll, List.append_assoc]
  rw [writeAll, hfold, List.nil_append]

end Reply

/-! ## Lines without CRLF -/

/-- A line of text that does not end early. -/
def LineSafe : RespValue → Prop
  | .simpleString s => CrlfFree s
  | .error e => CrlfFree e
  | .bigNumber n => CrlfFree n
  | _ => True

/-- The rest of what the encoder needs: lengths within a signed word, doubles whose text is
read back. -/
def Countable [F64Text] : RespValue → Prop
  | .simpleString _ => True
  | .error _ => True
  | .bigNumber _ => True
  | value => Writable value

theorem Writable.of_lineSafe [F64Text] {value : RespValue} (hline : LineSafe value)
    (hcount : Countable value) : Writable value := by
  cases value with
  | simpleString s => exact hline
  | error e => exact hline
  | bigNumber n => exact hline
  | _ => exact hcount

theorem RespValue.Everywhere.zip {P Q R : RespValue → Prop} (h : ∀ v, P v → Q v → R v)
    {value : RespValue} (hp : value.Everywhere P) (hq : value.Everywhere Q) :
    value.Everywhere R := by
  induction value using itemInduction with
  | scalar value hscalar =>
      refine everywhere_of_items (h _ hp.self hq.self) fun item hitem => ?_
      rw [isAggregate_of_items (List.ne_nil_of_mem hitem)] at hscalar
      contradiction
  | aggregate value hagg ih =>
      refine everywhere_of_items (h _ hp.self hq.self) fun item hitem => ?_
      exact ih item hitem (hp.item hitem) (hq.item hitem)

section Reading

variable [F64Text]

/-- Whatever is on the wire, its lines end at their first CRLF. -/
theorem Wire.lineSafe {frame : WireFrame} (h : Wire frame) :
    frame.value.Everywhere LineSafe := by
  induction h with
  | @line kind text value htext hvalue =>
      cases kind with
      | simpleString => exact hvalue ▸ htext
      | error => exact hvalue ▸ htext
      | bigNumber => exact hvalue ▸ htext
      | integer =>
          obtain ⟨i, -, rfl⟩ := hvalue
          trivial
      | double =>
          obtain ⟨d, -, rfl⟩ := hvalue
          trivial
  | null => trivial
  | boolean byte => trivial
  | nullBulk kind hcount => cases kind <;> trivial
  | @bulk kind count body value hcount hvalue =>
      cases kind with
      | bulkString => exact hvalue ▸ trivial
      | bulkError => exact hvalue ▸ trivial
      | verbatimString =>
          obtain ⟨f₀, f₁, f₂, data, -, rfl⟩ := hvalue
          trivial
  | @nullSeq kind count value hcount hnull => cases kind <;> cases hnull <;> trivial
  | @seq kind count frames hcount hframes ih =>
      refine everywhere_of_items (by cases kind <;> trivial) fun item hitem => ?_
      rw [kind.items_value] at hitem
      obtain ⟨frame, hframe, rfl⟩ := List.mem_map.mp hitem
      exact ih frame hframe
  | nullMap hcount => trivial
  | @map count pairs frames hcount hitems hframes ih =>
      refine everywhere_of_items trivial fun item hitem => ?_
      have hmem : item ∈ pairItems pairs := hitem
      rw [← hitems] at hmem
      obtain ⟨frame, hframe, rfl⟩ := List.mem_map.mp hmem
      exact ih frame hframe

/-- Nothing that an idle parser reads from a buffer has a CRLF in a line. -/
theorem drain_lineSafe {c : Cursor} (hc : c.parser.state = .waitingForType) :
    ∀ value ∈ (drain c).1, value.Everywhere LineSafe := by
  induction hn : c.buf.length using Nat.strong_induction_on generalizing c with
  | _ n ih =>
      have hconsumes := parseMachine.run_keeps keeps_consumes c
      have hwaits := parseMachine.run_keeps keeps_returnsWaiting c
      generalize hparse : parse c = answer
      rw [show parseMachine.run c = _ from hparse] at hconsumes hwaits
      obtain ⟨outcome, c'⟩ := answer
      match outcome with
      | .ok (some value) =>
          have hlt : c'.buf.length < c.buf.length := hconsumes.2 hc value rfl
          obtain ⟨frame, hframe, rfl, -⟩ := parse_derives hc hparse
          rw [drain_some hparse, List.forall_mem_cons]
          exact ⟨hframe.lineSafe, ih _ (hn ▸ hlt) (hwaits _ rfl) rfl⟩
      | .ok none => simp [drain_stop hparse]
      | .err e => simp [drain_stop hparse]
      | .panic => simp [drain_stop hparse]

theorem drain_encodeAll {p : RespParser} (hidle : p.Idle) {values : List RespValue}
    (hadmits : ∀ value ∈ values, Admits p value) :
    drain ⟨p, encodeAll values⟩ = (values, .ok none, ⟨p, []⟩) := by
  induction values with
  | nil => exact drain_stop (parse_idle hidle) (by simp)
  | cons value values ih =>
      rw [List.forall_mem_cons] at hadmits
      have hvalue := hadmits.1
      have hreads : Reads p (encode value) value :=
        reads_encode value p hvalue.fits hvalue.writable
          (by rw [hidle.depth_eq]; exact hvalue.nesting_le)
      have hparse := hreads.parse_append hidle.state_eq (encodeAll values)
      rw [encodeAll, drain_some hparse, ih hadmits.2]

/-- Replies a parser admits, whatever the text of their lines. -/
structure Reply.Fits (p : RespParser) (reply : Reply) : Prop where
  fits : reply.denotes.Everywhere (FitsLimits p)
  countable : reply.denotes.Everywhere Countable
  nesting_le : reply.denotes.nesting ≤ p.maxDepth

/-- A client reads back the replies of a server, and nothing else, exactly if no line of
text in them holds a CRLF. -/
theorem drain_replies_iff (p : RespParser) (hidle : p.Idle) (replies : List Reply)
    (hfits : ∀ reply ∈ replies, reply.Fits p) :
    drain ⟨p, Reply.writeAll replies⟩ = (replies.map Reply.denotes, .ok none, ⟨p, []⟩) ↔
      ∀ reply ∈ replies, reply.denotes.Everywhere LineSafe := by
  rw [Reply.writeAll_eq]
  constructor
  · intro hdrain reply hreply
    have hread := drain_lineSafe (c := ⟨p, encodeAll (replies.map Reply.denotes)⟩) hidle.state_eq
    rw [hdrain] at hread
    exact hread _ (List.mem_map_of_mem hreply)
  · intro hlines
    refine drain_encodeAll hidle fun value hvalue => ?_
    obtain ⟨reply, hreply, rfl⟩ := List.mem_map.mp hvalue
    have hreads := hfits reply hreply
    exact ⟨hreads.fits, (hlines reply hreply).zip (fun _ => Writable.of_lineSafe) hreads.countable,
      hreads.nesting_le⟩

end Reading

/-! ## Commands -/

namespace RespCommand

def name : RespCommand → CommandName
  | get _ => .get
  | set _ _ => .set
  | del _ => .del
  | «exists» _ => .exists
  | ping _ => .ping

def args : RespCommand → List Bytes
  | get key => [key]
  | set key value => [key, value]
  | del keys => keys
  | «exists» keys => keys
  | ping message => message.toList

/-- Commands over keys have at least one. -/
def HasKeys : RespCommand → Prop
  | del keys => keys ≠ []
  | «exists» keys => keys ≠ []
  | _ => True

end RespCommand

/-- Words as an array of bulk strings. -/
def requestOf (words : List Bytes) : RespValue :=
  .array (some (words.map fun word => .bulkString (some word)))

/-- A command as a client sends it: its name may be in any ASCII case. -/
structure ClientRequest where
  command : RespCommand
  word : Bytes
  hasKeys : command.HasKeys
  spelled : word.map toAsciiUppercase = Utf8.encode command.name.word

namespace ClientRequest

def words (request : ClientRequest) : List Bytes :=
  request.word :: request.command.args

def value (request : ClientRequest) : RespValue :=
  requestOf request.words

theorem takes_args (command : RespCommand) (hkeys : command.HasKeys) :
    command.name.Takes (command.args.map fun word => .bulkString (some word)) command := by
  have hstrings : ∀ words : List Bytes,
      (words.map fun word => RespValue.bulkString (some word)).map RespValue.asBytes =
        words.map some := by
    intro words
    rw [List.map_map]
    rfl
  cases command with
  | get key => exact .get rfl
  | set key value => exact .set rfl rfl
  | del keys => exact .del (mt List.map_eq_nil_iff.mp hkeys) (hstrings keys)
  | «exists» keys => exact .exists (mt List.map_eq_nil_iff.mp hkeys) (hstrings keys)
  | ping message =>
      cases message with
      | none => exact .ping
      | some message => exact .pingMessage (.bulkString (some message))

/-- The server makes of a request the command it was sent for. -/
theorem fromValue_value (request : ClientRequest) :
    RespCommand.fromValue request.value = .ok request.command := by
  have hrecognises : Recognises request.value request.command :=
    .mk rfl request.spelled (takes_args request.command request.hasKeys)
  obtain ⟨text, hspelt, -⟩ := recognises_iff.mp hrecognises
  exact RespCommand.fromValue_eq_ok.mpr ⟨text, hspelt⟩

/-- A request within the limits of a parser. -/
structure Fits (p : RespParser) (request : ClientRequest) : Prop where
  depth : 1 ≤ p.maxDepth
  count : request.words.length ≤ p.maxArrayLen ∧ request.words.length < 2 ^ 63
  sizes : ∀ word ∈ request.words, word.length ≤ p.maxBulkSize ∧ word.length < 2 ^ 63

theorem admits [F64Text] {p : RespParser} {request : ClientRequest} (hfits : request.Fits p) :
    Admits p request.value where
  fits := by
    refine everywhere_of_items (by simpa [value, requestOf, FitsLimits] using hfits.count.1) ?_
    intro item hitem
    obtain ⟨word, hword, rfl⟩ := List.mem_map.mp hitem
    exact (hfits.sizes word hword).1
  writable := by
    refine everywhere_of_items (by simpa [value, requestOf, Writable] using hfits.count.2) ?_
    intro item hitem
    obtain ⟨word, hword, rfl⟩ := List.mem_map.mp hitem
    exact (hfits.sizes word hword).2
  nesting_le := by
    have hflat : ∀ words : List Bytes,
        nestingIn (words.map fun word => RespValue.bulkString (some word)) ≤ 1 := by
      intro words
      induction words with
      | nil => simp [nestingIn]
      | cons word words ih =>
          rw [List.map_cons, nestingIn]
          simpa [nesting] using ih
    exact le_trans (hflat request.words) hfits.depth

end ClientRequest

/-- A line that writes the words of a request is read as the request. -/
theorem InlineCommandParser.parse_of_writesLine {tokens : List (List Char)} {line : List Char}
    (hline : WritesLine tokens line) :
    parse (Utf8.encode line ++ crlf) = .ok (requestOf (tokens.map Utf8.encode)) := by
  have htokens : ¬ tokens.isEmpty = true := by
    rw [List.isEmpty_iff]
    exact hline.ne_nil
  rw [parse_line, splitInlineCommand_of_hasRead (splitChars_writesLine hline), if_neg htokens,
    requestOf, List.map_map]
  rfl

/-- Requests sent one behind the other are read as the commands they stand for, in order
and with nothing left over; typed as a line of text, however quoted and spaced, each of
them gives the same command. -/
theorem requests_arrive [F64Text] (p : RespParser) (hidle : p.Idle)
    (requests : List ClientRequest) (hfits : ∀ request ∈ requests, request.Fits p) :
    drain ⟨p, encodeAll (requests.map ClientRequest.value)⟩ =
        (requests.map ClientRequest.value, .ok none, ⟨p, []⟩) ∧
      (drain ⟨p, encodeAll (requests.map ClientRequest.value)⟩).1.map RespCommand.fromValue =
        requests.map (fun request => .ok request.command) ∧
      ∀ request ∈ requests, ∀ (tokens : List (List Char)) (line : List Char),
        tokens.map Utf8.encode = request.words →
        InlineCommandParser.WritesLine tokens line →
        (InlineCommandParser.parse (Utf8.encode line ++ crlf) >>= RespCommand.fromValue) =
          .ok request.command := by
  have hadmits : ∀ value ∈ requests.map ClientRequest.value, Admits p value := by
    intro value hvalue
    obtain ⟨request, hrequest, rfl⟩ := List.mem_map.mp hvalue
    exact ClientRequest.admits (hfits request hrequest)
  have hdrain := drain_encodeAll hidle hadmits
  refine ⟨hdrain, ?_, ?_⟩
  · rw [hdrain, List.map_map]
    exact List.map_congr_left fun request _ => request.fromValue_value
  · intro request _ tokens line htokens hline
    rw [InlineCommandParser.parse_of_writesLine hline, htokens]
    exact request.fromValue_value

namespace Witness

/-- An acknowledgement, a null and a message without CRLF are read back. -/
theorem drain_replies_plain :
    drain ⟨RespParser.new, Reply.writeAll [.ok, .null, .error (ascii "ERR no")]⟩ =
      ([.simpleString (ascii "OK"), .null, .error (ascii "ERR no")], .ok none,
        ⟨RespParser.new, []⟩) := by
  refine (drain_replies_iff RespParser.new idle_new _ ?_).mpr ?_
  · simp only [List.forall_mem_cons]
    refine ⟨⟨trivial, trivial, by decide⟩, ⟨trivial, trivial, by decide⟩,
      ⟨trivial, trivial, by decide⟩, by simp⟩
  · simp only [List.forall_mem_cons]
    exact ⟨by change CrlfFree _; decide, trivial, by change CrlfFree _; decide, by simp⟩

/-- `get k` in lower case, then `PING`. -/
def getThenPing : List ClientRequest :=
  [⟨.get (ascii "k"), ascii "get", trivial, by decide⟩,
    ⟨.ping none, ascii "PING", trivial, by decide⟩]

theorem getThenPing_arrive :
    (drain ⟨RespParser.new, encodeAll (getThenPing.map ClientRequest.value)⟩).1.map
        RespCommand.fromValue = [.ok (.get (ascii "k")), .ok (.ping none)] := by
  refine (requests_arrive RespParser.new idle_new getThenPing ?_).2.1
  simp only [getThenPing, List.forall_mem_cons]
  refine ⟨⟨by decide, by decide, by decide⟩, ⟨by decide, by decide, by decide⟩, by simp⟩

end Witness

end Seshat
