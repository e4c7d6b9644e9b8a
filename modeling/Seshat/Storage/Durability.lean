/-
Which writes survive a power outage.  RocksDB keeps one log for all column families; a
write to a Raft state waits until that log is on disk, every other write does not.  So an
outage takes a node back to a moment since the last write to a Raft state of either group.
-/
import Seshat.Lib.WriteAhead
import Seshat.Storage.Crash
import Seshat.Storage.Groups

namespace Seshat

open Tracing Traced WriteAhead

/-- Raft states have to be on disk before a write to them returns. -/
def ColumnFamily.requiresFsync : ColumnFamily → Bool
  | systemRaftState | dataRaftState => true
  | _ => false

def BatchOperation.cf : BatchOperation → ColumnFamily
  | put cf _ _ => cf
  | delete cf _ => cf

/-- One operation on a Raft state is enough for the whole batch. -/
def WriteBatch.requiresFsync (batch : WriteBatch) : Bool :=
  batch.any fun op => op.cf.requiresFsync

@[simp]
theorem BatchOperation.update_cf (op : BatchOperation) : op.update.1.1 = op.cf := by
  cases op <;> rfl

theorem RaftGroup.requiresFsync_stateCf (g : RaftGroup) : g.stateCf.requiresFsync = true := by
  cases g <;> rfl

theorem RaftGroup.requiresFsync_logCf (g : RaftGroup) : g.logCf.requiresFsync = false := by
  cases g <;> rfl

section Calls

def tracedOnLogStorage {α : Type} (g : RaftGroup) (op : TracedM Failure RocksDBLogStorage α) :
    TracedM Failure Node α :=
  op.zoom (Node.logStorage g) (Node.withLogStorage g)

def tracedOnStateMachine {α : Type} (g : RaftGroup)
    (op : TracedM Failure RocksDBStateMachine α) : TracedM Failure Node α :=
  op.zoom (Node.stateMachine g) (Node.withStateMachine g)

@[simp]
theorem forget_tracedOnLogStorage {α : Type} (g : RaftGroup)
    (op : TracedM Failure RocksDBLogStorage α) :
    (tracedOnLogStorage g op).forget = onLogStorage g op.forget := rfl

@[simp]
theorem forget_tracedOnStateMachine {α : Type} (g : RaftGroup)
    (op : TracedM Failure RocksDBStateMachine α) :
    (tracedOnStateMachine g op).forget = onStateMachine g op.forget := rfl

theorem accounts_tracedOnLogStorage {α : Type} {op : TracedM Failure RocksDBLogStorage α}
    (h : AccountsFiles (fun store => store.storage.db) op) (g : RaftGroup) :
    AccountsFiles (fun node => node.storage.db) (tracedOnLogStorage g op) :=
  h.zoom (fun _ => rfl) fun _ _ => rfl

theorem accounts_tracedOnStateMachine {α : Type} {op : TracedM Failure RocksDBStateMachine α}
    (h : AccountsFiles (fun m => m.storage.db) op) (g : RaftGroup) :
    AccountsFiles (fun node => node.storage.db) (tracedOnStateMachine g op) :=
  h.zoom (fun _ => rfl) fun _ _ => rfl

variable [MembershipApi] [Prost LogIdMessage] [Prost MembershipMessage] [Prost VoteMessage]
  [Bincode Operation]

/-- A call with its writes; the others only read. -/
def GroupCall.traced (g : RaftGroup) : GroupCall → TracedM Failure Node GroupAnswer
  | append entries => do
      tracedOnLogStorage g (tracedOnStorage ((LogOp.append entries).traced g))
      return .unit
  | truncate id => do
      tracedOnLogStorage g (tracedOnStorage ((LogOp.truncate id).traced g))
      return .unit
  | purge id => do
      tracedOnLogStorage g (tracedOnStorage ((LogOp.purge id).traced g))
      return .unit
  | saveVote vote => do
      tracedOnLogStorage g (RocksDBLogStorage.tracedSaveVote g vote)
      return .unit
  | apply entries =>
      return .responses (← tracedOnStateMachine g (RocksDBStateMachine.tracedApply g entries))
  | installSnapshot pathExists snapshotMeta snapshotData => do
      tracedOnStateMachine g
        (RocksDBStateMachine.tracedInstallSnapshot g pathExists snapshotMeta snapshotData)
      return .unit
  | call => quiet (call.call g)

/-- Without its report the traced call is the call. -/
theorem GroupCall.forget_traced (g : RaftGroup) (call : GroupCall) :
    (call.traced g).forget = call.call g := by
  cases call with
  | append entries => simp [traced, GroupCall.call, LogOp.call]
  | truncate id => simp [traced, GroupCall.call, LogOp.call]
  | purge id => simp [traced, GroupCall.call, LogOp.call]
  | saveVote vote => simp [traced, GroupCall.call]
  | apply entries => simp [traced, GroupCall.call]
  | installSnapshot pathExists snapshotMeta snapshotData =>
      simp [traced, GroupCall.call]
  | _ => rfl

/-- The writes a call issues, in order. -/
def GroupCall.writes (g : RaftGroup) (node : Node) (call : GroupCall) : List WriteBatch :=
  (call.traced g).writes node

/-- The writes a call issues whatever the database holds.  An application ends at the first
entry that does not decode. -/
def GroupCall.recordWrites (g : RaftGroup) : GroupCall → List WriteBatch
  | saveVote vote =>
      [[.put g.stateCf voteKey (Prost.encodeToVec (VoteMessage.fromVote vote))]]
  | apply entries => (issuedByApply g entries).map ([·])
  | installSnapshot pathExists snapshotMeta snapshotData =>
      if snapshotMeta.snapshotId.isEmpty || !pathExists snapshotMeta.snapshotId ||
          snapshotData.isEmpty then []
      else (installWrites g snapshotMeta).map ([·])
  | _ => []

/-- Only calls on the log look at the database to know what to write. -/
theorem GroupCall.writes_eq (g : RaftGroup) (node : Node) (call : GroupCall) :
    call.writes g node =
      match call with
      | append entries => (LogOp.append entries).writes g node.storage
      | truncate id => (LogOp.truncate id).writes g node.storage
      | purge id => (LogOp.purge id).writes g node.storage
      | call => call.recordWrites g := by
  rw [writes]
  cases call with
  | append entries => exact writes_bind_pure _ _ node
  | truncate id => exact writes_bind_pure _ _ node
  | purge id => exact writes_bind_pure _ _ node
  | apply entries =>
      rw [traced, writes_bind_pure]
      exact writes_tracedApply g entries (node.stateMachine g)
  | installSnapshot pathExists snapshotMeta snapshotData =>
      rw [traced, writes_bind_pure]
      exact writes_tracedInstallSnapshot g pathExists snapshotMeta snapshotData
        (node.stateMachine g)
  | _ => rfl

end Calls

section Reads

/-- A read of the vote changes the cache alone. -/
theorem storage_readVote [Prost VoteMessage] (g : RaftGroup) :
    Footprint.Avoids RocksDBLogStorage.storage (RocksDBLogStorage.readVote g) := by
  rw [RocksDBLogStorage.readVote]
  refine Footprint.avoids_get.bind fun store => ?_
  split
  · exact Footprint.avoids_pure _
  · refine Footprint.avoids_get.bind fun store => ?_
    split
    · exact Footprint.avoids_pure _
    · split
      · exact Footprint.avoids_throw _
      · refine (Footprint.avoids_modify fun _ => ?_).bind fun _ => Footprint.avoids_pure _
        rfl

theorem storage_appliedState [MembershipApi] [Prost LogIdMessage] [Prost MembershipMessage]
    (g : RaftGroup) :
    Footprint.Avoids RocksDBStateMachine.storage (RocksDBStateMachine.appliedState g) := by
  rw [RocksDBStateMachine.appliedState]
  refine Footprint.avoids_get.bind fun m => (Footprint.avoids_ofExcept _).bind fun _ => ?_
  refine (Footprint.avoids_ofExcept _).bind fun _ => ?_
  refine (Footprint.avoids_modify fun _ => ?_).bind fun _ => Footprint.avoids_pure _
  rfl

theorem storage_reading {α : Type} (read : Storage → Except Failure α) :
    Footprint.Avoids Node.storage (reading read) :=
  Footprint.avoids_get.bind fun _ => Footprint.avoids_ofExcept _

end Reads

section Files

/-- A batch that is not synced writes to no Raft state. -/
theorem cf_ne_of_unsynced {batch : WriteBatch} (hbatch : batch.requiresFsync = false)
    {op : BatchOperation} (hop : op ∈ batch) (g : RaftGroup) : op.cf ≠ g.stateCf := by
  intro heq
  rw [WriteBatch.requiresFsync, List.any_eq_false] at hbatch
  refine hbatch op hop ?_
  rw [heq]
  exact g.requiresFsync_stateCf

/-- It leaves them as they are. -/
theorem db_write_unsynced {batch : WriteBatch} (hbatch : batch.requiresFsync = false)
    (g : RaftGroup) (s : Storage) : (s.write batch).db g.stateCf = s.db g.stateCf := by
  refine Std.ExtTreeMap.ext_getElem? fun key => Storage.get_write_of_ne (fun op hop => ?_) s key
  rw [op.update_cf]
  exact cf_ne_of_unsynced hbatch hop g

end Files

section Process

variable [MembershipApi] [Prost LogIdMessage] [Prost MembershipMessage] [Prost VoteMessage]
  [Bincode Operation]

/-- Every write of a call is reported. -/
theorem GroupCall.accounts_traced (g : RaftGroup) (call : GroupCall) :
    AccountsFiles (fun node => node.storage.db) (call.traced g) := by
  have hlog : ∀ op : LogOp, AccountsFiles (fun node => node.storage.db)
      (tracedOnLogStorage g (tracedOnStorage (op.traced g)) >>= fun _ =>
        pure GroupAnswer.unit) := fun op =>
    (accounts_tracedOnLogStorage ((op.accounts_traced g).zoom (fun _ => rfl) fun _ _ => rfl)
      g).bind fun _ => accounts_pure _
  have hreads : ∀ {op : NodeM GroupAnswer}, Footprint.Avoids Node.storage op →
      AccountsFiles (fun node => node.storage.db) (quiet op) := fun h =>
    .of_storage (accounts_quiet h)
  cases call with
  | append entries => exact hlog (.append entries)
  | truncate id => exact hlog (.truncate id)
  | purge id => exact hlog (.purge id)
  | saveVote vote =>
      exact (accounts_tracedOnLogStorage (.of_storage (accounts_tracedSaveVote g vote)) g).bind
        fun _ => accounts_pure _
  | apply entries =>
      exact (accounts_tracedOnStateMachine (.of_storage (accounts_tracedApply g entries)) g).bind
        fun _ => accounts_pure _
  | installSnapshot pathExists snapshotMeta snapshotData =>
      exact (accounts_tracedOnStateMachine (.of_storage (accounts_tracedInstallSnapshot g pathExists
        snapshotMeta snapshotData)) g).bind fun _ => accounts_pure _
  | readVote =>
      have hread : Footprint.Avoids Node.storage
          (onLogStorage g (RocksDBLogStorage.readVote g)) :=
        (storage_readVote g).zoom fun h => h
      exact hreads (hread.bind fun _ => Footprint.avoids_pure _)
  | appliedState =>
      have hread : Footprint.Avoids Node.storage
          (onStateMachine g (RocksDBStateMachine.appliedState g)) :=
        (storage_appliedState g).zoom fun h => h
      exact hreads (hread.bind fun _ => Footprint.avoids_pure _)
  | getCurrentSnapshot => exact hreads (Footprint.avoids_get.bind fun _ => Footprint.avoids_pure _)
  | _ => exact hreads ((storage_reading _).bind fun _ => Footprint.avoids_pure _)

/-- A node as a process over its files.  Opening the database writes the log it finds to
the column families, so that everything it finds is on disk afterwards. -/
def nodeProcess : Process Node Files WriteBatch (RaftGroup × GroupCall) where
  files node := node.storage.db
  write := writeFiles
  sync := WriteBatch.requiresFsync
  writes call node := call.2.writes call.1 node
  after call node := leaves ((call.2.call call.1).run node)
  start files := Node.restart ⟨.closed files, fun _ => .new⟩
  files_after := by
    rintro ⟨g, call⟩ node
    rw [← call.forget_traced g]
    exact leaves_of_accounts (call.accounts_traced g) node
  files_start := by
    intro files node hstart
    obtain ⟨s, hopen, rfl⟩ := Node.restart_eq_some hstart
    exact db_of_reopen hopen

/-- What happens to a node: calls of both groups, crashes and power outages. -/
abbrev NodeIncident := Incident (RaftGroup × GroupCall)

/-- A node with the disk it runs on, after incidents from an empty database on. -/
def runIncidents (incidents : List NodeIncident) : Option (Running Node Files WriteBatch) :=
  nodeProcess.run (nodeProcess.started .new) incidents

/-- Whatever a power outage loses, the node is where a crash of its process at some earlier
moment would have left it, and nothing issued since that moment writes to a Raft state:
votes, applied log ids and memberships are as they were when the power failed.  So outages
lead to no node that crashes alone do not lead to. -/
theorem outage_is_earlier_crash (incidents : List NodeIncident) (call : RaftGroup × GroupCall)
    (issued kept : Nat) (node node' : Running Node Files WriteBatch)
    (hrun : runIncidents incidents = some node)
    (hstep : nodeProcess.step node (.outage call issued kept) = some node') :
    (∃ (before : List NodeIncident) (call' : RaftGroup × GroupCall) (issued' : Nat)
        (behind : List (RaftGroup × GroupCall)) (earlier : Running Node Files WriteBatch)
        (since : List WriteBatch),
      incidents ++ [.call call] = before ++ .call call' :: behind.map .call ∧
        runIncidents before = some earlier ∧
        nodeProcess.step earlier (.crash call' issued') = some node' ∧
        (behind = [] → issued' ≤ issued) ∧
        nodeProcess.issuedWrites earlier.state issued (call' :: behind) =
          (nodeProcess.writes call' earlier.state).take issued' ++ since ∧
        ∀ batch ∈ since, ∀ op ∈ batch, ∀ g : RaftGroup, op.cf ≠ g.stateCf) ∧
      (∀ g : RaftGroup, node'.state.storage.db g.stateCf =
        nodeProcess.crashed node.state call issued g.stateCf) ∧
      nodeProcess.Reachable .new node'.state := by
  obtain ⟨⟨before, call', issued', behind, earlier, since, hsplit, hbefore, hcrash, hissued,
    hsince, hunsynced⟩, hparts⟩ := Process.outage_eq_crash hrun hstep
  have hrun' : nodeProcess.run (nodeProcess.started .new)
      (incidents ++ [.outage call issued kept]) = some node' :=
    Process.run_concat_eq_some.mpr ⟨node, hrun, hstep⟩
  refine ⟨⟨before, call', issued', behind, earlier, since, hsplit, hbefore, hcrash, hissued,
    hsince, fun batch hbatch op hop g => ?_⟩, fun g => ?_, Process.reachable_of_run hrun'⟩
  · exact cf_ne_of_unsynced (hunsynced batch hbatch) hop g
  · exact hparts (fun files => files g.stateCf) fun files batch hbatch =>
      db_write_unsynced hbatch g (.closed files)

end Process

namespace Witness

/-- Key `a` is set by the first entry. -/
def firstEntry : Entry :=
  operationEntry 3 1 1 (.set (Decimal.ascii "a") (Decimal.ascii "1"))

/-- A vote is saved, then an entry is appended. -/
def voteThenAppend : List NodeIncident :=
  [.call (.dataRaft, .saveVote ⟨⟨3, 1⟩, false⟩), .call (.dataRaft, .append [firstEntry])]

/-- The power fails before the entry is on disk. -/
theorem voteThenAppend_outage :
    ∃ node node', runIncidents voteThenAppend = some node ∧
      nodeProcess.step node (.outage (.dataRaft, .getLogState) 0 0) = some node' ∧
      node.state.storage.get .dataRaftLog (formatLogKey 1) ≠ none ∧
      node'.state.storage.get .dataRaftLog (formatLogKey 1) = none ∧
      (∀ g : RaftGroup, node'.state.storage.db g.stateCf =
        nodeProcess.crashed node.state (.dataRaft, .getLogState) 0 g.stateCf) ∧
      nodeProcess.Reachable .new node'.state := by
  refine ⟨_, _, rfl, rfl, by decide, by decide, ?_⟩
  exact (outage_is_earlier_crash voteThenAppend (.dataRaft, .getLogState) 0 0 _ _ rfl rfl).2

end Witness

end Seshat
