/-
Operations on the key-value data, and the in-memory state machines that apply them.
The bytes of an operation and of a snapshot are read and written by bincode, which
enters as a parameter.  A `HashMap` is a map; its order of iteration, which a snapshot
shows, is passed along.
-/
import Seshat.Storage.LogStore

namespace Seshat

open Decimal

/-- `bincode`, for one type.  A decode error is its text. -/
class Bincode (α : Type) where
  serialize : α → Bytes
  deserialize : Bytes → Except Bytes α

abbrev Data := Std.ExtTreeMap Bytes Bytes

inductive Operation where
  | set (key value : Bytes)
  | del (key : Bytes)
deriving DecidableEq, Repr

inductive OperationError where
  | serializationError (source : Bytes)
deriving DecidableEq, Repr

def OperationError.display : OperationError → Bytes
  | serializationError source => ascii "Serialization error: " ++ source

def maxOperationSize : Nat := 16 * 1024 * 1024

namespace Operation

/-- The response, and the data afterwards. -/
def apply (op : Operation) (state : Data) : Bytes × Data :=
  match op with
  | set key value => (ascii "OK", state.insert key value)
  | del key => (if state.contains key then ascii "1" else ascii "0", state.erase key)

variable [Bincode Operation]

def serialize (op : Operation) : Bytes :=
  Bincode.serialize op

def deserialize (bytes : Bytes) : Except OperationError Operation :=
  if maxOperationSize < bytes.length then
    .error (.serializationError (ascii "Operation exceeds maximum size limit"))
  else
    (Bincode.deserialize bytes).mapError .serializationError

end Operation

/-- The key-value data with the position it was brought to.  Term and leader of the last
applied entry are kept apart from its index. -/
structure StateMachine where
  data : Data
  lastApplied : UInt64
  lastAppliedLog : Option (UInt64 × UInt64)

/-- A snapshot as it is serialized: the data in some order, and the position. -/
structure StateMachineImage where
  data : List (Bytes × Bytes)
  lastApplied : UInt64
  lastAppliedLog : Option (UInt64 × UInt64)
deriving DecidableEq, Repr

/-- Its errors are boxed and only ever shown as text. -/
abbrev StateMachineM := EStateM Bytes StateMachine

namespace StateMachine

def new : StateMachine := ⟨∅, 0, none⟩

def get (sm : StateMachine) (key : Bytes) : Option Bytes :=
  sm.data[key]?

/-- Term, leader and index of the last applied entry. -/
def lastAppliedLogId (sm : StateMachine) : Option LogId :=
  sm.lastAppliedLog.map fun log => ⟨⟨log.1, log.2⟩, sm.lastApplied⟩

variable [Bincode Operation] [Bincode StateMachineImage]

def apply (index : UInt64) (data : Bytes) : StateMachineM Bytes := do
  let sm ← MonadState.get
  if index ≤ sm.lastApplied then
    throw (ascii "Entry already applied: index " ++ text index.toNat ++
      ascii " <= last_applied " ++ text sm.lastApplied.toNat)
  match Operation.deserialize data with
  | .error e => throw e.display
  | .ok operation =>
      let (result, data) := operation.apply sm.data
      set { sm with data, lastApplied := index }
      return result

def applyWithLogId (term leaderId index : UInt64) (data : Bytes) : StateMachineM Bytes := do
  let result ← apply index data
  modify fun sm => { sm with lastAppliedLog := some (term, leaderId) }
  return result

/-- The bytes of a snapshot when the data is iterated over in the given order. -/
def snapshot (order : List (Bytes × Bytes)) (sm : StateMachine) : Bytes :=
  Bincode.serialize (StateMachineImage.mk order sm.lastApplied sm.lastAppliedLog)

def restore (snapshot : Bytes) : StateMachineM Unit :=
  match Bincode.deserialize snapshot with
  | .error e => throw e
  | .ok (image : StateMachineImage) =>
      set (StateMachine.mk (.ofList image.data) image.lastApplied image.lastAppliedLog)

end StateMachine

structure OpenRaftMemStateMachine where
  sm : StateMachine
  snapshot : Option Snapshot
  membership : StoredMembership

abbrev MemMachineM := EStateM Failure OpenRaftMemStateMachine

/-- A call of the state machine with its error wrapped for openraft. -/
def onMachine {α : Type} (subject : ErrorSubject) (verb : ErrorVerb)
    (op : StateMachineM α) : MemMachineM α := fun m =>
  match op.run m.sm with
  | .ok a sm => .ok a { m with sm }
  | .error e sm => .error (ioError subject verb e) { m with sm }

@[simp]
theorem onMachine_run {α : Type} (subject : ErrorSubject) (verb : ErrorVerb)
    (op : StateMachineM α) (m : OpenRaftMemStateMachine) :
    (onMachine subject verb op).run m =
      match op.run m.sm with
      | .ok a sm => .ok a { m with sm }
      | .error e sm => .error (ioError subject verb e) { m with sm } := rfl

namespace OpenRaftMemStateMachine

def new : OpenRaftMemStateMachine := ⟨.new, none, .default⟩

def appliedState (m : OpenRaftMemStateMachine) : Option LogId × StoredMembership :=
  (m.sm.lastAppliedLogId, m.membership)

/-- A membership replaces the stored one, under the log id of its entry. -/
def updateMembership (m : OpenRaftMemStateMachine) (entry : Entry) : OpenRaftMemStateMachine :=
  match entry.payload with
  | .membership membership => { m with membership := ⟨some entry.logId, membership⟩ }
  | _ => m

def getCurrentSnapshot (m : OpenRaftMemStateMachine) : Option Snapshot :=
  m.snapshot

variable [Bincode Operation] [Bincode StateMachineImage]

/-- Only normal entries reach the state machine. -/
def applyEntry (entry : Entry) : MemMachineM Response :=
  match entry.payload with
  | .normal request => do
      let result ← onMachine .stateMachine .write
        (StateMachine.applyWithLogId entry.logId.leaderId.term entry.logId.leaderId.nodeId
          entry.logId.index request.operationBytes)
      return ⟨result⟩
  | .blank => return ⟨[]⟩
  | .membership _ => return ⟨[]⟩

/-- The first pass over a batch: one response per entry. -/
def applyEntries : List Entry → MemMachineM (List Response)
  | [] => return []
  | entry :: entries => do
      let response ← applyEntry entry
      let responses ← applyEntries entries
      return response :: responses

/-- The second pass takes the memberships. -/
def apply (entries : List Entry) : MemMachineM (List Response) := do
  let responses ← applyEntries entries
  modify fun m => entries.foldl updateMembership m
  return responses

/-- The metadata is not looked at. -/
def installSnapshot (_snapshotMeta : SnapshotMeta) (snapshot : Bytes) : MemMachineM Unit :=
  onMachine .snapshot .write (StateMachine.restore snapshot)

/-- The builder sees the state machine alone: it has neither the leader of the last
applied entry nor the membership. -/
def buildSnapshot (order : List (Bytes × Bytes)) (m : OpenRaftMemStateMachine) : Snapshot :=
  let lastApplied := m.sm.lastApplied
  { snapshotMeta :=
      { lastLogId := if lastApplied > 0 then some ⟨⟨0, 0⟩, lastApplied⟩ else none
        lastMembership := .default
        snapshotId := ascii "snapshot-" ++ text lastApplied.toNat }
    snapshot := m.sm.snapshot order }

end OpenRaftMemStateMachine

end Seshat
