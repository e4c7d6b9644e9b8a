/-
What the storage crate passes around: column families and Raft groups, log ids
and entries, the protobuf messages and the errors.  Text is kept as its bytes;
the codec of the messages and the membership type's own functions belong to
other packages and enter as parameters.
-/
import Mathlib
import Seshat.Lib.Bytes
import Seshat.Lib.Decimal

namespace Seshat

open Decimal

/-- The six column families of the database. -/
inductive ColumnFamily where
  | systemRaftLog
  | systemRaftState
  | systemData
  | dataRaftLog
  | dataRaftState
  | dataKv
deriving DecidableEq, Repr

namespace ColumnFamily

def asStr : ColumnFamily → Bytes
  | systemRaftLog => ascii "system_raft_log"
  | systemRaftState => ascii "system_raft_state"
  | systemData => ascii "system_data"
  | dataRaftLog => ascii "data_raft_log"
  | dataRaftState => ascii "data_raft_state"
  | dataKv => ascii "data_kv"

def isLogCf : ColumnFamily → Bool
  | systemRaftLog => true
  | dataRaftLog => true
  | _ => false

end ColumnFamily

/-- The two Raft groups, each with its own column families. -/
inductive RaftGroup where
  | systemRaft
  | dataRaft
deriving DecidableEq, Repr

namespace RaftGroup

def logCf : RaftGroup → ColumnFamily
  | systemRaft => .systemRaftLog
  | dataRaft => .dataRaftLog

/-- Persistent state: vote, applied log id, membership. -/
def stateCf : RaftGroup → ColumnFamily
  | systemRaft => .systemRaftState
  | dataRaft => .dataRaftState

/-- Only the data group keeps key-value data. -/
def kvCf : RaftGroup → Option ColumnFamily
  | systemRaft => none
  | dataRaft => some .dataKv

@[simp]
theorem logCf_isLogCf (g : RaftGroup) : g.logCf.isLogCf = true := by
  cases g <;> rfl

end RaftGroup

/-- A leader: the term and the node that won it. -/
structure LeaderId where
  term : UInt64
  nodeId : UInt64
deriving DecidableEq, Repr

structure LogId where
  leaderId : LeaderId
  index : UInt64
deriving DecidableEq, Repr

/-- openraft's leader id votes for its own node. -/
def LeaderId.votedFor (id : LeaderId) : Option UInt64 :=
  some id.nodeId

/-- openraft's vote: a leader id, and whether a quorum has granted it. -/
structure Vote where
  leaderId : LeaderId
  committed : Bool
deriving DecidableEq, Repr

/-- `Vote::new`: not committed yet. -/
def Vote.new (term nodeId : UInt64) : Vote :=
  ⟨⟨term, nodeId⟩, false⟩

/-- `LogId::default()`. -/
def LogId.default : LogId := ⟨⟨0, 0⟩, 0⟩

/-- An operation submitted to Raft, opaque to the log. -/
structure Request where
  operationBytes : Bytes
deriving DecidableEq, Repr

/-- What an applied operation answers. -/
structure Response where
  result : Bytes
deriving DecidableEq, Repr

structure BasicNode where
  addr : Bytes
deriving DecidableEq, Repr

/-- Voter configurations (more than one while a change is joint) and the nodes
known to the cluster. -/
structure Membership where
  configs : List (Std.ExtTreeSet UInt64)
  nodes : Std.ExtTreeMap UInt64 BasicNode
deriving DecidableEq

/-- `Membership::default()`: no configuration and no node. -/
def Membership.default : Membership := ⟨[], ∅⟩

/-- The functions of openraft's membership type that the storage calls. -/
class MembershipApi where
  voterIds : Membership → List UInt64
  learnerIds : Membership → List UInt64
  new : List (Std.ExtTreeSet UInt64) → Option (Std.ExtTreeSet UInt64) → Membership

structure StoredMembership where
  logId : Option LogId
  membership : Membership
deriving DecidableEq

/-- `StoredMembership::default()`. -/
def StoredMembership.default : StoredMembership := ⟨none, .default⟩

inductive EntryPayload where
  | blank
  | normal (request : Request)
  | membership (membership : Membership)
deriving DecidableEq

structure Entry where
  logId : LogId
  payload : EntryPayload
deriving DecidableEq

/-- openraft's `SnapshotMeta`. -/
structure SnapshotMeta where
  lastLogId : Option LogId
  lastMembership : StoredMembership
  snapshotId : Bytes
deriving DecidableEq

/-- openraft's `Snapshot`, its data as bytes. -/
structure Snapshot where
  snapshotMeta : SnapshotMeta
  snapshot : Bytes
deriving DecidableEq

/-- Protobuf message for a vote; the committed flag has no field. -/
structure VoteMessage where
  term : UInt64
  nodeId : UInt64
  votedFor : UInt64
deriving DecidableEq, Repr

namespace VoteMessage

def fromVote (vote : Vote) : VoteMessage where
  term := vote.leaderId.term
  nodeId := vote.leaderId.nodeId
  votedFor := vote.leaderId.votedFor.getD 0

def toVote (msg : VoteMessage) : Vote :=
  .new msg.term msg.nodeId

end VoteMessage

/-- Protobuf message for a log id. -/
structure LogIdMessage where
  term : UInt64
  nodeId : UInt64
  index : UInt64
deriving DecidableEq, Repr

namespace LogIdMessage

def fromLogId (id : LogId) : LogIdMessage where
  term := id.leaderId.term
  nodeId := id.leaderId.nodeId
  index := id.index

def toLogId (msg : LogIdMessage) : LogId :=
  ⟨⟨msg.term, msg.nodeId⟩, msg.index⟩

@[simp]
theorem toLogId_fromLogId (id : LogId) : (fromLogId id).toLogId = id := rfl

end LogIdMessage

structure VotersMessage where
  nodes : List UInt64
deriving DecidableEq, Repr

/-- Protobuf message for a membership; node addresses have no field. -/
structure MembershipMessage where
  logId : Option LogIdMessage
  voters : List VotersMessage
  learners : List UInt64
deriving DecidableEq, Repr

namespace MembershipMessage

variable [MembershipApi]

def fromStoredMembership (stored : StoredMembership) : MembershipMessage where
  logId := stored.logId.map LogIdMessage.fromLogId
  voters := [⟨MembershipApi.voterIds stored.membership⟩]
  learners := MembershipApi.learnerIds stored.membership

/-- The same fields once more. -/
def fromMembership (stored : StoredMembership) : MembershipMessage :=
  fromStoredMembership stored

/-- All voters are gathered into one configuration. -/
def toMembership (msg : MembershipMessage) : StoredMembership :=
  let voterIds := msg.voters.foldl (fun ids voters => ids.insertMany voters.nodes) ∅
  let learnerIds := Std.ExtTreeSet.ofList msg.learners
  { logId := msg.logId.map LogIdMessage.toLogId
    membership := MembershipApi.new [voterIds]
      (if learnerIds.isEmpty then none else some learnerIds) }

end MembershipMessage

/-- `prost::Message`: encoding into a growing buffer always succeeds, and
decoding reads back what was encoded.  A decode error is its text. -/
class Prost (M : Type) where
  encodeToVec : M → Bytes
  decode : Bytes → Except Bytes M
  decode_encodeToVec : ∀ msg, decode (encodeToVec msg) = .ok msg

attribute [simp] Prost.decode_encodeToVec

/-- `StorageError`, restricted to what the modelled operations raise. -/
inductive StorageError where
  | protobufDecode (error : Bytes)
  | corruptedData (cf key reason : Bytes)
  | invalidColumnFamily (cf reason : Bytes)
  | invalidLogIndex (cf : Bytes) (expected got : UInt64) (reason : Bytes)
  | batchTooLarge (operations max : Nat)
deriving DecidableEq, Repr

namespace StorageError

/-- `{:?}` of a byte vector. -/
def debugBytes (bytes : Bytes) : Bytes :=
  ascii "[" ++ (ascii ", ").intercalate (bytes.map fun b => text b.toNat) ++ ascii "]"

/-- The `Display` text of an error. -/
def display : StorageError → Bytes
  | protobufDecode error => ascii "Protobuf decode error: " ++ error
  | corruptedData cf key reason =>
      ascii "Corrupted data in CF " ++ cf ++ ascii " at key " ++ debugBytes key ++
        ascii ": " ++ reason
  | invalidColumnFamily cf reason =>
      ascii "Invalid column family for operation: " ++ cf ++ ascii " (" ++ reason ++
        ascii ")"
  | invalidLogIndex cf expected got reason =>
      ascii "Invalid log index in CF " ++ cf ++ ascii ": expected " ++ text expected.toNat ++
        ascii ", got " ++ text got.toNat ++ ascii " (" ++ reason ++ ascii ")"
  | batchTooLarge operations max =>
      ascii "Batch too large: " ++ text operations ++ ascii " operations, max=" ++
        text max

end StorageError

/-- What an openraft storage error is about. -/
inductive ErrorSubject where
  | store
  | logs
  | log (id : LogId)
  | vote
  | stateMachine
  | snapshot
deriving DecidableEq, Repr

inductive ErrorVerb where
  | read
  | write
deriving DecidableEq, Repr

/-- openraft's `StorageIOError`; its source is kept as its text. -/
structure StorageIOError where
  subject : ErrorSubject
  verb : ErrorVerb
  source : Bytes
deriving DecidableEq, Repr

/-- How a call of the Raft interface can fail: with an I/O error, or in checked
arithmetic. -/
inductive Failure where
  | panic
  | io (source : StorageIOError)
deriving DecidableEq, Repr

end Seshat
