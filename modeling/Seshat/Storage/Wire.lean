/-
One lawful instance of the parameters: the messages in the protobuf wire format,
with the field numbers their derive attributes give, memberships over sorted sets
of node ids, and operations and snapshots in bincode's fixed-width layout.
-/
import Seshat.Lib.FixedInt
import Seshat.Lib.Protobuf
import Seshat.Storage.Operation

namespace Seshat

open Decimal Protobuf

namespace Witness

/-- A `u64` on its own is written as the wrapper message with field 1. -/
scoped instance : Message UInt64 where
  fields value := uint 1 value
  name _ := none
  empty := 0
  merge value field :=
    match field.tag with
    | 1 => return UInt64.ofNat (← field.uint)
    | _ => return value
  merge_fields value := by
    rw [uint]
    split
    · simp_all
    · simp [Field.tag, Field.uint]

scoped instance : Message VoteMessage where
  fields msg := uint 1 msg.term ++ (uint 2 msg.nodeId ++ uint 3 msg.votedFor)
  name
    | 1 => some "VoteMessage.term"
    | 2 => some "VoteMessage.node_id"
    | 3 => some "VoteMessage.voted_for"
    | _ => none
  empty := ⟨0, 0, 0⟩
  merge msg field :=
    match field.tag with
    | 1 => return { msg with term := UInt64.ofNat (← field.uint) }
    | 2 => return { msg with nodeId := UInt64.ofNat (← field.uint) }
    | 3 => return { msg with votedFor := UInt64.ofNat (← field.uint) }
    | _ => return msg
  merge_fields := by
    rintro ⟨term, nodeId, votedFor⟩
    by_cases hterm : term = 0 <;> by_cases hnode : nodeId = 0 <;>
      by_cases hvoted : votedFor = 0 <;>
      simp [uint, Field.tag, Field.uint, hterm, hnode, hvoted]

scoped instance : Message LogIdMessage where
  fields msg := uint 1 msg.term ++ (uint 2 msg.nodeId ++ uint 3 msg.index)
  name
    | 1 => some "LogIdMessage.term"
    | 2 => some "LogIdMessage.node_id"
    | 3 => some "LogIdMessage.index"
    | _ => none
  empty := ⟨0, 0, 0⟩
  merge msg field :=
    match field.tag with
    | 1 => return { msg with term := UInt64.ofNat (← field.uint) }
    | 2 => return { msg with nodeId := UInt64.ofNat (← field.uint) }
    | 3 => return { msg with index := UInt64.ofNat (← field.uint) }
    | _ => return msg
  merge_fields := by
    rintro ⟨term, nodeId, index⟩
    by_cases hterm : term = 0 <;> by_cases hnode : nodeId = 0 <;>
      by_cases hindex : index = 0 <;>
      simp [uint, Field.tag, Field.uint, hterm, hnode, hindex]

/-- Node ids are packed into one field. -/
scoped instance : Message VotersMessage where
  fields msg :=
    if msg.nodes = [] then [] else [.bytes 1 (packed (msg.nodes.map UInt64.toNat))]
  name
    | 1 => some "VotersMessage.nodes"
    | _ => none
  empty := ⟨[]⟩
  merge msg field :=
    match field.tag with
    | 1 => return ⟨msg.nodes ++ (← field.uints).map UInt64.ofNat⟩
    | _ => return msg
  merge_fields := by
    rintro ⟨nodes⟩
    by_cases hnodes : nodes = [] <;>
      simp [hnodes, Field.tag, Field.uints, Function.comp_def]

def mergeMembership (msg : MembershipMessage) (field : Field) :
    Protobuf.Result MembershipMessage :=
  match field.tag with
  | 1 => return { msg with logId := some (← Message.decode (← field.message)) }
  | 2 => return { msg with voters := msg.voters ++ [← Message.decode (← field.message)] }
  | 3 => return { msg with learners := msg.learners ++ [← Message.decode (← field.message)] }
  | _ => return msg

theorem mergeMembership_voters (voters : List VotersMessage) (msg : MembershipMessage) :
    (voters.map fun v => Field.bytes 2 (Message.encode v)).foldlM mergeMembership msg =
      .ok { msg with voters := msg.voters ++ voters } := by
  induction voters generalizing msg with
  | nil => simp
  | cons v voters ih => simp [mergeMembership, Field.tag, Field.message, ih]

theorem mergeMembership_learners (learners : List UInt64) (msg : MembershipMessage) :
    (learners.map fun l => Field.bytes 3 (Message.encode l)).foldlM mergeMembership msg =
      .ok { msg with learners := msg.learners ++ learners } := by
  induction learners generalizing msg with
  | nil => simp
  | cons l learners ih => simp [mergeMembership, Field.tag, Field.message, ih]

/-- The log id, then every group of voters, then every learner. -/
scoped instance : Message MembershipMessage where
  fields msg :=
    (msg.logId.map fun id => Field.bytes 1 (Message.encode id)).toList ++
      (msg.voters.map (fun v => Field.bytes 2 (Message.encode v)) ++
        msg.learners.map fun l => Field.bytes 3 (Message.encode l))
  name
    | 1 => some "MembershipMessage.log_id"
    | 2 => some "MembershipMessage.voters"
    | 3 => some "MembershipMessage.learners"
    | _ => none
  empty := ⟨none, [], []⟩
  merge := mergeMembership
  merge_fields := by
    rintro ⟨logId, voters, learners⟩
    cases logId with
    | none => simp [List.foldlM_append, mergeMembership_voters, mergeMembership_learners]
    | some id =>
        simp [List.foldlM_append, mergeMembership, Field.tag, Field.message,
          mergeMembership_voters, mergeMembership_learners]

/-- The text of prost's decode errors: the fields, the innermost first, then the
reason. -/
def describe (e : Protobuf.DecodeError) : Bytes :=
  ascii "failed to decode Protobuf message: " ++
    e.stack.flatMap (fun field => ascii field ++ ascii ": ") ++
    match e.reason with
    | .invalidVarint => ascii "invalid varint"
    | .bufferUnderflow => ascii "buffer underflow"
    | .invalidWireTypeValue value => ascii "invalid wire type value: " ++ text value
    | .invalidWireType found expected =>
        ascii "invalid wire type: " ++ ascii found ++ ascii " (expected " ++ ascii expected ++
          ascii ")"

/-- A wire message as prost reads and writes it. -/
scoped instance {M : Type} [Message M] : Prost M where
  encodeToVec := Message.encode
  decode data := (Message.decode data).mapError describe
  decode_encodeToVec msg := by rw [Message.decode_encode, Except.mapError]

/-- Voters are the union of the configurations, learners the other nodes; nodes
without an address get the default one. -/
scoped instance : MembershipApi where
  voterIds m :=
    (Std.ExtTreeSet.ofList (m.configs.flatMap fun config => config.toList)).toList
  learnerIds m :=
    m.nodes.keys.filter fun id => !m.configs.any fun config => config.contains id
  new configs learners :=
    let ids := (configs ++ learners.toList).flatMap fun ids => ids.toList
    ⟨configs, ids.foldl (fun nodes id => nodes.insert id ⟨[]⟩) ∅⟩

/-- What bincode says of bytes that end too early. -/
def unexpectedEof : Bytes := ascii "io error: unexpected end of file"

/-- A reader's value; bytes behind it are allowed. -/
def fromReader {α : Type} (value : Option (α × Bytes)) : Except Bytes α :=
  match value with
  | some (a, _) => .ok a
  | none => .error unexpectedEof

def readPair : FixedInt.Reader (Bytes × Bytes) := fun data => do
  let (key, rest) ← FixedInt.readBytes data
  let (value, rest) ← FixedInt.readBytes rest
  return ((key, value), rest)

/-- The variant in four bytes, then its fields. -/
scoped instance : Bincode Operation where
  serialize
    | .set key value =>
        FixedInt.write 4 0 ++ (FixedInt.writeBytes key ++ FixedInt.writeBytes value)
    | .del key => FixedInt.write 4 1 ++ FixedInt.writeBytes key
  deserialize data := do
    let (tag, rest) ←
      match FixedInt.read 4 data with
      | some found => Except.ok found
      | none => Except.error unexpectedEof
    if tag = 0 then
      let (key, value) ← fromReader (readPair rest)
      return .set key value
    else if tag = 1 then
      return .del (← fromReader (FixedInt.readBytes rest))
    else
      throw (ascii "invalid value: integer \x60" ++ text tag ++
        ascii "\x60, expected variant index 0 <= i < 2")

def orEof {α : Type} (value : Option α) : Except Bytes α :=
  match value with
  | some a => .ok a
  | none => .error unexpectedEof

def readImage (data : Bytes) : Except Bytes StateMachineImage := do
  let (count, rest) ← orEof (FixedInt.read 8 data)
  let (pairs, rest) ← orEof (FixedInt.readMany readPair count rest)
  let (lastApplied, rest) ← orEof (FixedInt.read 8 rest)
  let (tag, rest) ← orEof (FixedInt.read 1 rest)
  if tag = 0 then
    return ⟨pairs, UInt64.ofNat lastApplied, none⟩
  else if tag = 1 then
    let (term, rest) ← orEof (FixedInt.read 8 rest)
    let (leaderId, _) ← orEof (FixedInt.read 8 rest)
    return ⟨pairs, UInt64.ofNat lastApplied, some (UInt64.ofNat term, UInt64.ofNat leaderId)⟩
  else
    throw (ascii "tag for enum is not valid, found " ++ text tag)

/-- The number of pairs and the pairs, then the position. -/
scoped instance : Bincode StateMachineImage where
  serialize image :=
    FixedInt.write 8 image.data.length ++
      image.data.flatMap (fun pair =>
        FixedInt.writeBytes pair.1 ++ FixedInt.writeBytes pair.2) ++
      FixedInt.write 8 image.lastApplied.toNat ++
      match image.lastAppliedLog with
      | none => FixedInt.write 1 0
      | some (term, leaderId) =>
          FixedInt.write 1 1 ++ FixedInt.write 8 term.toNat ++ FixedInt.write 8 leaderId.toNat
  deserialize := readImage

end Witness

end Seshat
