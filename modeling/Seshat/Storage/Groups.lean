/-
Two Raft groups on one database.  The log storage and the state machine of each group
share the database with those of the other group and keep caches of their own.  Each
group works in its own column families, so that whatever the order in which the calls of
both groups come, each of them gets what it would get alone; only a restart concerns both,
and fails where the log of either cannot be opened.
-/
import Seshat.Lib.Locality
import Seshat.Storage.Checkpoints
import Seshat.Storage.LogApi
import Seshat.Storage.Vote

namespace Seshat

open Footprint

/-- What the log storage and the state machine of a group keep in memory. -/
structure GroupMemory where
  cachedVote : Option Vote
  cachedApplied : Option LogId
  cachedMembership : StoredMembership
  currentSnapshot : Option Snapshot

/-- `RocksDBLogStorage::new` and `RocksDBStateMachine::new`. -/
def GroupMemory.new : GroupMemory := ⟨none, none, .default, none⟩

/-- A database and the two groups that use it. -/
structure Node where
  storage : Storage
  memory : RaftGroup → GroupMemory

abbrev NodeM := EStateM Failure Node

namespace Node

def new : Node := ⟨.new, fun _ => .new⟩

def logStorage (g : RaftGroup) (node : Node) : RocksDBLogStorage :=
  ⟨node.storage, (node.memory g).cachedVote⟩

def withLogStorage (g : RaftGroup) (node : Node) (store : RocksDBLogStorage) : Node where
  storage := store.storage
  memory := Function.update node.memory g
    { node.memory g with cachedVote := store.cachedVote }

def stateMachine (g : RaftGroup) (node : Node) : RocksDBStateMachine where
  storage := node.storage
  cachedApplied := (node.memory g).cachedApplied
  cachedMembership := (node.memory g).cachedMembership
  currentSnapshot := (node.memory g).currentSnapshot

def withStateMachine (g : RaftGroup) (node : Node) (m : RocksDBStateMachine) : Node where
  storage := m.storage
  memory := Function.update node.memory g
    { node.memory g with
      cachedApplied := m.cachedApplied
      cachedMembership := m.cachedMembership
      currentSnapshot := m.currentSnapshot }

/-- The process ends and starts again on the same files. -/
def restart (node : Node) : Option Node :=
  match node.storage.reopen with
  | .ok s => some ⟨s, fun _ => .new⟩
  | .error _ => none

theorem restart_eq_some {node node' : Node} (h : node.restart = some node') :
    ∃ s, node.storage.reopen = .ok s ∧ node' = ⟨s, fun _ => .new⟩ := by
  rw [restart] at h
  cases hopen : node.storage.reopen with
  | ok s =>
      rw [hopen] at h
      exact ⟨s, rfl, (Option.some.inj h).symm⟩
  | error e =>
      rw [hopen] at h
      contradiction

end Node

/-- A call of openraft on the storage of one group.  What the file system says about the
path of a snapshot comes with the call. -/
inductive GroupCall where
  | append (entries : List Entry)
  | truncate (id : LogId)
  | purge (id : LogId)
  | getLogState
  | tryGetLogEntries (range : RangeBounds)
  | readerTryGetLogEntries (range : RangeBounds)
  | saveVote (vote : Vote)
  | readVote
  | apply (entries : List Entry)
  | appliedState
  | buildSnapshot (snapshotId : Bytes)
  | installSnapshot (pathExists : Bytes → Bool) (snapshotMeta : SnapshotMeta)
      (snapshotData : Bytes)
  | getCurrentSnapshot

/-- What a call that succeeds returns. -/
inductive GroupAnswer where
  | unit
  | logState (state : LogState)
  | entries (entries : List Entry)
  | vote (vote : Option Vote)
  | responses (responses : List Response)
  | applied (id : Option LogId) (membership : StoredMembership)
  | snapshot (snapshot : Option Snapshot)

section Calls

variable [MembershipApi] [Prost LogIdMessage] [Prost MembershipMessage] [Prost VoteMessage]
  [Bincode Operation]

def onLogStorage {α : Type} (g : RaftGroup) (op : LogStorageM α) : NodeM α :=
  zoom (Node.logStorage g) (Node.withLogStorage g) op

def onStateMachine {α : Type} (g : RaftGroup) (op : MachineM α) : NodeM α :=
  zoom (Node.stateMachine g) (Node.withStateMachine g) op

/-- A call that only reads the database. -/
def reading {α : Type} (read : Storage → Except Failure α) : NodeM α := do
  MonadExcept.ofExcept (read (← get).storage)

def GroupCall.call (g : RaftGroup) : GroupCall → NodeM GroupAnswer
  | append entries => do
      onLogStorage g (onStorage (RocksDBLogStorage.append g entries))
      return .unit
  | truncate id => do
      onLogStorage g (onStorage (RocksDBLogStorage.truncate g id))
      return .unit
  | purge id => do
      onLogStorage g (onStorage (RocksDBLogStorage.purge g id))
      return .unit
  | getLogState => return .logState (← reading (RocksDBLogStorage.getLogState g))
  | tryGetLogEntries range =>
      return .entries (← reading (RocksDBLogStorage.tryGetLogEntries g · range))
  | readerTryGetLogEntries range =>
      return .entries (← reading (RocksDBLogReader.tryGetLogEntries g · range))
  | saveVote vote => do
      onLogStorage g (RocksDBLogStorage.saveVote g vote)
      return .unit
  | readVote => return .vote (← onLogStorage g (RocksDBLogStorage.readVote g))
  | apply entries =>
      return .responses (← onStateMachine g (RocksDBStateMachine.apply g entries))
  | appliedState => do
      let (id, membership) ← onStateMachine g (RocksDBStateMachine.appliedState g)
      return .applied id membership
  | buildSnapshot snapshotId =>
      return .snapshot (some (← reading (RocksDBSnapshotBuilder.buildSnapshot g snapshotId)))
  | installSnapshot pathExists snapshotMeta snapshotData => do
      onStateMachine g
        (RocksDBStateMachine.installSnapshot g pathExists snapshotMeta snapshotData)
      return .unit
  | getCurrentSnapshot => do
      return .snapshot ((← get).stateMachine g).getCurrentSnapshot

end Calls

/-- The column families of a group. -/
def RaftGroup.owns (g : RaftGroup) (cf : ColumnFamily) : Bool :=
  cf = g.logCf || cf = g.stateCf || g.kvCf = some cf

theorem RaftGroup.owns_logCf (g : RaftGroup) : g.owns g.logCf = true := by
  cases g <;> rfl

theorem RaftGroup.owns_stateCf (g : RaftGroup) : g.owns g.stateCf = true := by
  cases g <;> rfl

theorem RaftGroup.owns_kvCf {g : RaftGroup} {cf : ColumnFamily} (hcf : g.kvCf = some cf) :
    g.owns cf = true := by
  simp [owns, hcf]

/-- No column family belongs to both. -/
theorem RaftGroup.owns_disjoint {g g' : RaftGroup} (hne : g ≠ g') {cf : ColumnFamily}
    (h : g'.owns cf = true) : g.owns cf = false := by
  revert hne h
  cases g <;> cases g' <;> cases cf <;> decide

/-- What of a database belongs to a group: its column families and their cached indices. -/
def ownFiles (g : RaftGroup) (s : Storage) :
    ColumnFamily → Option (Std.ExtTreeMap Bytes Bytes × Option UInt64) := fun cf =>
  if g.owns cf then some (logPart cf s) else none

theorem ownFiles_eq_iff {g : RaftGroup} {s t : Storage} :
    ownFiles g s = ownFiles g t ↔ ∀ cf, g.owns cf = true → logPart cf s = logPart cf t := by
  rw [funext_iff]
  refine forall_congr' fun cf => ?_
  by_cases hcf : g.owns cf = true <;> simp [ownFiles, hcf]

/-- Each column family goes its own way under a batch. -/
theorem logPart_write_congr {cf : ColumnFamily} {s t : Storage}
    (h : logPart cf s = logPart cf t) (batch : WriteBatch) :
    logPart cf (s.write batch) = logPart cf (t.write batch) := by
  induction batch generalizing s t with
  | nil => exact h
  | cons op batch ih =>
      refine ih ?_
      simp only [logPart, Prod.mk.injEq] at h ⊢
      cases op with
      | put cf' key value =>
          refine ⟨?_, h.2⟩
          by_cases hcf : cf = cf'
          · subst hcf
            simp [Storage.apply, Storage.setCf, h.1]
          · simp [Storage.apply, Storage.setCf, hcf, h.1]
      | delete cf' key =>
          refine ⟨?_, h.2⟩
          by_cases hcf : cf = cf'
          · subst hcf
            simp [Storage.apply, Storage.setCf, h.1]
          · simp [Storage.apply, Storage.setCf, hcf, h.1]

section Locality

variable {g : RaftGroup}

theorem get_eq_of_ownFiles {s t : Storage} (h : ownFiles g s = ownFiles g t)
    {cf : ColumnFamily} (hcf : g.owns cf = true) : s.get cf = t.get cf := by
  have hdb := congrArg Prod.fst (ownFiles_eq_iff.mp h cf hcf)
  funext key
  rw [Storage.get, show s.db cf = t.db cf from hdb, Storage.get]

theorem lastKey_eq_of_ownFiles {s t : Storage} (h : ownFiles g s = ownFiles g t)
    {cf : ColumnFamily} (hcf : g.owns cf = true) : s.lastKey cf = t.lastKey cf := by
  have hdb := congrArg Prod.fst (ownFiles_eq_iff.mp h cf hcf)
  rw [Storage.lastKey, show s.db cf = t.db cf from hdb, Storage.lastKey]

theorem local_write (batch : WriteBatch) :
    Local (ownFiles g) (modify fun s => s.write batch : StorageM Unit) :=
  local_modify fun h => ownFiles_eq_iff.mpr fun cf hcf =>
    logPart_write_congr (ownFiles_eq_iff.mp h cf hcf) batch

theorem local_put (cf : ColumnFamily) (key value : Bytes) :
    Local (ownFiles g) (put cf key value) :=
  local_write [.put cf key value]

theorem local_delete (cf : ColumnFamily) (key : Bytes) :
    Local (ownFiles g) (delete cf key) :=
  local_write [.delete cf key]

theorem local_setCache (cf : ColumnFamily) (index : Option UInt64) :
    Local (ownFiles g) (modify fun s => s.setCache cf index : StorageM Unit) := by
  refine local_modify fun h => ownFiles_eq_iff.mpr fun cf' hcf' => ?_
  have hpart := ownFiles_eq_iff.mp h cf' hcf'
  simp only [logPart, Prod.mk.injEq] at hpart ⊢
  by_cases hcf : cf' = cf
  · subst hcf
    simp [Storage.setCache, hpart.1]
  · simp [Storage.setCache, hcf, hpart]

theorem local_batchWrite (batch : WriteBatch) : Local (ownFiles g) (batchWrite batch) := by
  rw [batchWrite]
  split
  · exact local_pure _
  · split
    · exact local_throw_bind _ _
    · exact local_write batch

theorem local_getLastLogIndexFromDb {cf : ColumnFamily} (hcf : g.owns cf = true) :
    Local (ownFiles g) (getLastLogIndexFromDb cf) := by
  simp only [getLastLogIndexFromDb]
  split
  · exact local_throw_bind _ _
  · refine local_get_bind (fun h => by rw [lastKey_eq_of_ownFiles h hcf]) fun s => ?_
    split
    · exact local_pure _
    · split
      · exact local_throw _
      · split
        · exact local_throw_bind _ _
        · split
          · exact local_throw _
          · exact local_pure _

theorem local_getCachedLastLogIndex {cf : ColumnFamily} (hcf : g.owns cf = true) :
    Local (ownFiles g) (getCachedLastLogIndex cf) := by
  rw [getCachedLastLogIndex]
  refine local_get_bind (fun h => ?_) fun s => ?_
  · have hcache := congrArg Prod.snd (ownFiles_eq_iff.mp h cf hcf)
    simp only [logPart] at hcache
    rw [hcache]
  · split
    · exact local_pure _
    · refine (local_getLastLogIndexFromDb hcf).bind fun index => ?_
      cases index with
      | none => exact local_pure _
      | some last => exact (local_setCache cf _).bind fun _ => local_pure _

theorem local_truncateLogBefore {cf : ColumnFamily} (hcf : g.owns cf = true)
    (truncateIndex : UInt64) : Local (ownFiles g) (truncateLogBefore cf truncateIndex) := by
  rw [truncateLogBefore]
  split
  · exact local_throw_bind _ _
  · refine (local_getCachedLastLogIndex hcf).bind fun last => ?_
    cases last with
    | none => exact local_pure _
    | some last => exact (local_write _).bind fun _ => local_setCache cf none

theorem local_mapErr {α : Type} {op : StorageM α} (h : Local (ownFiles g) op)
    (subject : ErrorSubject) (verb : ErrorVerb) :
    Local (ownFiles g) (mapErr subject verb op) :=
  h.adaptExcept _

theorem local_ignore {op : StorageM Unit} (h : Local (ownFiles g) op) :
    Local (ownFiles g) (ignore op) := by
  intro s t hst
  rw [ignore_run, ignore_run]
  obtain ⟨a, s', t', hs, ht, hend⟩ | ⟨e, s', t', hs, ht, hend⟩ := h.ends hst
  · rw [hs, ht]
    exact .ok hend
  · rw [hs, ht]
    exact .ok hend

/-- What a group's log storage is made of, the other group's files apart. -/
def storePart (g : RaftGroup) (store : RocksDBLogStorage) :=
  (ownFiles g store.storage, store.cachedVote)

/-- What a group's state machine is made of, the other group's files apart. -/
def machinePart (g : RaftGroup) (m : RocksDBStateMachine) :=
  (ownFiles g m.storage, m.cachedApplied, m.cachedMembership, m.currentSnapshot)

/-- What of a node belongs to a group. -/
def nodePart (g : RaftGroup) (node : Node) :=
  (ownFiles g node.storage, node.memory g)

theorem local_onStorage {α : Type} {op : RaftM α} (h : Local (ownFiles g) op) :
    Local (storePart g) (onStorage op) := by
  rw [onStorage_eq_zoom]
  refine h.zoom (fun hst => congrArg Prod.fst hst) fun hst hfiles => ?_
  simp only [storePart, Prod.mk.injEq] at hst ⊢
  exact ⟨hfiles, hst.2⟩

theorem local_onDatabase {α : Type} {op : RaftM α} (h : Local (ownFiles g) op) :
    Local (machinePart g) (onDatabase op) := by
  rw [onDatabase_eq_zoom]
  refine h.zoom (fun hst => congrArg Prod.fst hst) fun hst hfiles => ?_
  simp only [machinePart, Prod.mk.injEq] at hst ⊢
  exact ⟨hfiles, hst.2⟩

theorem local_onLogStorage {α : Type} {op : LogStorageM α} (h : Local (storePart g) op) :
    Local (nodePart g) (onLogStorage g op) := by
  refine h.zoom (fun hst => ?_) fun hst hstore => ?_
  · simp only [nodePart, storePart, Node.logStorage, Prod.mk.injEq] at hst ⊢
    exact ⟨hst.1, by rw [hst.2]⟩
  · simp only [nodePart, storePart, Node.withLogStorage, Function.update_self,
      Prod.mk.injEq] at hst hstore ⊢
    exact ⟨hstore.1, by rw [hst.2, hstore.2]⟩

theorem local_onStateMachine {α : Type} {op : MachineM α} (h : Local (machinePart g) op) :
    Local (nodePart g) (onStateMachine g op) := by
  refine h.zoom (fun hst => ?_) fun hst hm => ?_
  · simp only [nodePart, machinePart, Node.stateMachine, Prod.mk.injEq] at hst ⊢
    rw [hst.2]
    exact ⟨hst.1, rfl, rfl, rfl⟩
  · simp only [nodePart, machinePart, Node.withStateMachine, Function.update_self,
      Prod.mk.injEq] at hst hm ⊢
    exact ⟨hm.1, by rw [hst.2, hm.2.1, hm.2.2.1, hm.2.2.2]⟩

/-- A read that depends on the files of the group. -/
theorem local_reading {α : Type} {read : Storage → Except Failure α}
    (h : ∀ {s t}, ownFiles g s = ownFiles g t → read s = read t) :
    Local (nodePart g) (reading read) := by
  refine local_get_bind (fun hst => ?_) fun node => local_ofExcept _
  rw [h (congrArg Prod.fst hst)]

section Calls

variable [MembershipApi] [Prost LogIdMessage] [Prost MembershipMessage]

theorem local_append (entries : List Entry) :
    Local (ownFiles g) (RocksDBLogStorage.append g entries) := by
  rw [RocksDBLogStorage.append]
  refine (local_mapErr (local_batchWrite _) _ _).bind fun _ => ?_
  cases entries.getLast? with
  | none => exact local_pure _
  | some entry =>
      refine (local_mapErr (local_put _ _ _) _ _).bind fun _ => ?_
      exact local_ignore (local_setCache _ _)

omit [MembershipApi] [Prost LogIdMessage] [Prost MembershipMessage] in
theorem local_truncate (id : LogId) : Local (ownFiles g) (RocksDBLogStorage.truncate g id) :=
  local_mapErr (local_truncateLogBefore g.owns_logCf _) _ _

omit [MembershipApi] [Prost MembershipMessage] in
theorem local_purge (id : LogId) : Local (ownFiles g) (RocksDBLogStorage.purge g id) := by
  rw [RocksDBLogStorage.purge]
  split
  · exact local_throw_bind _ _
  · refine (local_mapErr (local_truncateLogBefore g.owns_logCf _) _ _).bind fun _ => ?_
    exact local_mapErr (local_put _ _ _) _ _

omit [MembershipApi] [Prost MembershipMessage] in
theorem getLogState_congr {s t : Storage} (h : ownFiles g s = ownFiles g t) :
    RocksDBLogStorage.getLogState g s = RocksDBLogStorage.getLogState g t := by
  have hget := get_eq_of_ownFiles h g.owns_logCf
  have hlast := lastKey_eq_of_ownFiles h g.owns_logCf
  simp only [RocksDBLogStorage.getLogState, getLastLogId, getLastPurgedLogId, findLastLogEntry,
    hget, hlast]

omit [Prost LogIdMessage] in
theorem lookupEntries_congr {s t : Storage} {cf : ColumnFamily} (hget : s.get cf = t.get cf)
    (lastLogId : Option LogId) (indices : List UInt64) :
    lookupEntries s cf lastLogId indices = lookupEntries t cf lastLogId indices := by
  induction indices with
  | nil => rfl
  | cons index indices ih => rw [lookupEntries, lookupEntries, hget, ih]

theorem tryGetLogEntries_congr {s t : Storage} (h : ownFiles g s = ownFiles g t)
    (range : RangeBounds) :
    RocksDBLogStorage.tryGetLogEntries g s range =
      RocksDBLogStorage.tryGetLogEntries g t range := by
  have hget := get_eq_of_ownFiles h g.owns_logCf
  have hlast := lastKey_eq_of_ownFiles h g.owns_logCf
  simp only [RocksDBLogStorage.tryGetLogEntries, getLastLogId, findLastLogEntry, hget, hlast,
    lookupEntries_congr hget]

theorem readerTryGetLogEntries_congr {s t : Storage} (h : ownFiles g s = ownFiles g t)
    (range : RangeBounds) :
    RocksDBLogReader.tryGetLogEntries g s range =
      RocksDBLogReader.tryGetLogEntries g t range := by
  have hget := get_eq_of_ownFiles h g.owns_logCf
  have hdb := congrArg Prod.fst (ownFiles_eq_iff.mp h g.logCf g.owns_logCf)
  simp only [logPart] at hdb
  simp only [RocksDBLogReader.tryGetLogEntries, readerGetLastLogId, hget, Storage.iteratorFrom,
    hdb]

omit [MembershipApi] [Prost MembershipMessage] in
theorem readApplied_congr {s t : Storage} (h : ownFiles g s = ownFiles g t) :
    readApplied g s = readApplied g t := by
  rw [readApplied, get_eq_of_ownFiles h g.owns_stateCf, readApplied]

omit [Prost LogIdMessage] in
theorem readMembership_congr {s t : Storage} (h : ownFiles g s = ownFiles g t) :
    readMembership g s = readMembership g t := by
  rw [readMembership, get_eq_of_ownFiles h g.owns_stateCf, readMembership]

theorem local_appliedState : Local (machinePart g) (RocksDBStateMachine.appliedState g) := by
  rw [RocksDBStateMachine.appliedState]
  refine local_get_bind (fun h => ?_) fun m => ?_
  · have hfiles := congrArg Prod.fst h
    simp only [readApplied_congr hfiles, readMembership_congr hfiles]
  · refine (local_ofExcept _).bind fun applied => (local_ofExcept _).bind fun membership => ?_
    refine (local_modify fun h => ?_).bind fun _ => local_pure _
    simp only [machinePart, Prod.mk.injEq] at h ⊢
    exact ⟨h.1, trivial, trivial, h.2.2.2⟩

theorem local_installSnapshot (pathExists : Bytes → Bool) (snapshotMeta : SnapshotMeta)
    (snapshotData : Bytes) :
    Local (machinePart g)
      (RocksDBStateMachine.installSnapshot g pathExists snapshotMeta snapshotData) := by
  rcases installSnapshot_cases g pathExists snapshotMeta snapshotData with
    ⟨-, e, hthrow, -⟩ | ⟨-, hrecords, -⟩
  · rw [hthrow]
    exact local_throw e
  · rw [hrecords, RocksDBStateMachine.installRecords]
    have htail : ∀ m : SnapshotMeta, Local (machinePart g) (do
        onDatabase (mapErr .stateMachine .write
          (put g.stateCf membershipKey
            (Prost.encodeToVec (MembershipMessage.fromMembership m.lastMembership))))
        modify fun n => { n with cachedMembership := m.lastMembership }
        modify fun n => { n with currentSnapshot := some ⟨m, snapshotData⟩ }
          : MachineM Unit) := by
      intro m
      refine (local_onDatabase (local_mapErr (local_put _ _ _) _ _)).bind fun _ => ?_
      refine (local_modify fun h => ?_).bind fun _ => local_modify fun h => ?_
      · simp only [machinePart, Prod.mk.injEq] at h ⊢
        exact ⟨h.1, h.2.1, trivial, h.2.2.2⟩
      · simp only [machinePart, Prod.mk.injEq] at h ⊢
        exact ⟨h.1, h.2.1, h.2.2.1, trivial⟩
    cases snapshotMeta.lastLogId with
    | none => exact htail snapshotMeta
    | some id =>
        refine (local_onDatabase (local_mapErr (local_put _ _ _) _ _)).bind fun _ => ?_
        refine (local_modify fun h => ?_).bind fun _ => htail snapshotMeta
        simp only [machinePart, Prod.mk.injEq] at h ⊢
        exact ⟨h.1, trivial, h.2.2.1, h.2.2.2⟩

variable [Prost VoteMessage] [Bincode Operation]

omit [MembershipApi] [Prost LogIdMessage] [Prost MembershipMessage] [Bincode Operation] in
theorem local_saveVote (vote : Vote) :
    Local (storePart g) (RocksDBLogStorage.saveVote g vote) := by
  rw [RocksDBLogStorage.saveVote]
  refine (local_onStorage (local_mapErr (local_put _ _ _) _ _)).bind fun _ => ?_
  refine local_modify fun h => ?_
  simp only [storePart, Prod.mk.injEq] at h ⊢
  exact ⟨h.1, trivial⟩

omit [MembershipApi] [Prost LogIdMessage] [Prost MembershipMessage] [Bincode Operation] in
theorem local_readVote : Local (storePart g) (RocksDBLogStorage.readVote g) := by
  rw [RocksDBLogStorage.readVote]
  refine local_get_bind (fun h => ?_) fun store => ?_
  · have hcached := congrArg Prod.snd h
    simp only [storePart] at hcached
    rw [hcached]
  · split
    · exact local_pure _
    · refine local_get_bind (fun h => ?_) fun store => ?_
      · have hfiles := congrArg Prod.fst h
        simp only [storePart] at hfiles
        rw [get_eq_of_ownFiles hfiles g.owns_stateCf]
      · split
        · exact local_pure _
        · split
          · exact local_throw _
          · refine (local_modify fun h => ?_).bind fun _ => local_pure _
            simp only [storePart, Prod.mk.injEq] at h ⊢
            exact ⟨h.1, trivial⟩

omit [Prost LogIdMessage] [Prost VoteMessage] in
theorem local_applyEntry (entry : Entry) :
    Local (machinePart g) (RocksDBStateMachine.applyEntry g entry) := by
  rw [RocksDBStateMachine.applyEntry]
  split
  · split
    · exact local_pure _
    · split
      · exact (local_onDatabase (local_mapErr (local_put _ _ _) _ _)).bind fun _ => local_pure _
      · exact (local_onDatabase (local_mapErr (local_delete _ _) _ _)).bind fun _ => local_pure _
      · exact local_throw _
  · exact local_pure _
  · refine (local_onDatabase (local_mapErr (local_put _ _ _) _ _)).bind fun _ => ?_
    refine (local_modify fun h => ?_).bind fun _ => local_pure _
    simp only [machinePart, Prod.mk.injEq] at h ⊢
    exact ⟨h.1, h.2.1, trivial, h.2.2.2⟩

omit [Prost LogIdMessage] [Prost VoteMessage] in
theorem local_applyEntries (entries : List Entry) :
    Local (machinePart g) (RocksDBStateMachine.applyEntries g entries) := by
  induction entries with
  | nil => exact local_pure _
  | cons entry entries ih =>
      exact (local_applyEntry entry).bind fun _ => ih.bind fun _ => local_pure _

omit [Prost VoteMessage] in
theorem local_apply (entries : List Entry) :
    Local (machinePart g) (RocksDBStateMachine.apply g entries) := by
  rw [RocksDBStateMachine.apply]
  refine (local_applyEntries entries).bind fun responses => ?_
  cases entries.getLast? with
  | none => exact local_pure _
  | some entry =>
      refine (local_onDatabase (local_mapErr (local_put _ _ _) _ _)).bind fun _ => ?_
      refine (local_modify fun h => ?_).bind fun _ => local_pure _
      simp only [machinePart, Prod.mk.injEq] at h ⊢
      exact ⟨h.1, trivial, h.2.2.1, h.2.2.2⟩

/-- The answer to a group's call, and what it does to the group, depend on the group. -/
theorem local_call (call : GroupCall) : Local (nodePart g) (call.call g) := by
  cases call with
  | append entries =>
      exact (local_onLogStorage (local_onStorage (local_append entries))).bind
        fun _ => local_pure _
  | truncate id =>
      exact (local_onLogStorage (local_onStorage (local_truncate id))).bind
        fun _ => local_pure _
  | purge id =>
      exact (local_onLogStorage (local_onStorage (local_purge id))).bind fun _ => local_pure _
  | getLogState => exact (local_reading getLogState_congr).bind fun _ => local_pure _
  | tryGetLogEntries range =>
      exact (local_reading fun h => tryGetLogEntries_congr h range).bind fun _ => local_pure _
  | readerTryGetLogEntries range =>
      exact (local_reading fun h => readerTryGetLogEntries_congr h range).bind
        fun _ => local_pure _
  | saveVote vote =>
      exact (local_onLogStorage (local_saveVote vote)).bind fun _ => local_pure _
  | readVote => exact (local_onLogStorage local_readVote).bind fun _ => local_pure _
  | apply entries =>
      exact (local_onStateMachine (local_apply entries)).bind fun _ => local_pure _
  | appliedState =>
      exact (local_onStateMachine local_appliedState).bind fun _ => local_pure _
  | buildSnapshot snapshotId =>
      refine (local_reading fun h => ?_).bind fun _ => local_pure _
      rw [RocksDBSnapshotBuilder.buildSnapshot, readApplied_congr h, readMembership_congr h,
        RocksDBSnapshotBuilder.buildSnapshot]
  | installSnapshot pathExists snapshotMeta snapshotData =>
      exact (local_onStateMachine (local_installSnapshot pathExists snapshotMeta
        snapshotData)).bind fun _ => local_pure _
  | getCurrentSnapshot =>
      refine local_get_bind (fun h => ?_) fun node => local_pure _
      have hmemory := congrArg Prod.snd h
      simp only [nodePart] at hmemory
      rw [Node.stateMachine, hmemory]
      rfl

end Calls

end Locality

section Frames

variable {g g' : RaftGroup}

/-- It is enough to leave each column family of the group alone. -/
theorem avoids_ownFiles {ε α : Type} {op : EStateM ε Storage α}
    (h : ∀ cf, g.owns cf = true → Avoids (logPart cf) op) : Avoids (ownFiles g) op where
  ok := fun hrun => ownFiles_eq_iff.mpr fun cf hcf => (h cf hcf).ok hrun
  error := fun hrun => ownFiles_eq_iff.mpr fun cf hcf => (h cf hcf).error hrun

variable {cf : ColumnFamily} (hcf : g.owns cf = false)

include hcf

theorem ne_of_owns {cf' : ColumnFamily} (hcf' : g.owns cf' = true) : cf' ≠ cf := by
  rintro rfl
  rw [hcf] at hcf'
  contradiction

theorem ownFiles_avoids_put (key value : Bytes) : Avoids (ownFiles g) (put cf key value) :=
  avoids_ownFiles fun _ hcf' => avoids_write (ne_of_owns hcf hcf') [.put cf key value]
    fun _ hop => by rw [List.mem_singleton.mp hop]; rfl

theorem ownFiles_avoids_delete (key : Bytes) : Avoids (ownFiles g) (delete cf key) :=
  avoids_ownFiles fun _ hcf' => avoids_write (ne_of_owns hcf hcf') [.delete cf key]
    fun _ hop => by rw [List.mem_singleton.mp hop]; rfl

theorem ownFiles_avoids_batchWrite {batch : WriteBatch}
    (hbatch : ∀ op ∈ batch, op.update.1.1 = cf) : Avoids (ownFiles g) (batchWrite batch) := by
  refine avoids_ownFiles fun cf' hcf' => ?_
  rw [batchWrite]
  split
  · exact avoids_pure _
  · split
    · exact avoids_throw_bind _ _
    · exact avoids_write (ne_of_owns hcf hcf') batch hbatch

theorem ownFiles_avoids_setCache (index : Option UInt64) :
    Avoids (ownFiles g) (modify fun s => s.setCache cf index : StorageM Unit) :=
  avoids_ownFiles fun _ hcf' => avoids_setCache (ne_of_owns hcf hcf') index

theorem ownFiles_avoids_truncateLogBefore (truncateIndex : UInt64) :
    Avoids (ownFiles g) (truncateLogBefore cf truncateIndex) :=
  avoids_ownFiles fun _ hcf' => avoids_truncateLogBefore (ne_of_owns hcf hcf') truncateIndex

omit hcf

/-- The files of `g`, under a log storage of the other group. -/
abbrev storeFiles (g : RaftGroup) (store : RocksDBLogStorage) := ownFiles g store.storage

/-- The files of `g`, under a state machine of the other group. -/
abbrev machineFiles (g : RaftGroup) (m : RocksDBStateMachine) := ownFiles g m.storage

theorem avoids_onStorage {α : Type} {op : RaftM α} (h : Avoids (ownFiles g) op) :
    Avoids (storeFiles g) (onStorage op) := by
  rw [onStorage_eq_zoom]
  exact h.zoom fun hfiles => hfiles

theorem avoids_onDatabase {α : Type} {op : RaftM α} (h : Avoids (ownFiles g) op) :
    Avoids (machineFiles g) (onDatabase op) := by
  rw [onDatabase_eq_zoom]
  exact h.zoom fun hfiles => hfiles

variable (hne : g ≠ g')

include hne

theorem avoids_onLogStorage {α : Type} {op : LogStorageM α} (h : Avoids (storeFiles g) op) :
    Avoids (nodePart g) (onLogStorage g' op) := by
  refine h.zoom fun hfiles => Prod.ext hfiles ?_
  exact Function.update_of_ne hne _ _

theorem avoids_onStateMachine {α : Type} {op : MachineM α} (h : Avoids (machineFiles g) op) :
    Avoids (nodePart g) (onStateMachine g' op) := by
  refine h.zoom fun hfiles => Prod.ext hfiles ?_
  exact Function.update_of_ne hne _ _

omit hne in
theorem avoids_reading {α : Type} (read : Storage → Except Failure α) :
    Avoids (nodePart g) (reading read) :=
  avoids_get.bind fun _ => avoids_ofExcept _

theorem not_owns_logCf : g.owns g'.logCf = false :=
  RaftGroup.owns_disjoint hne g'.owns_logCf

theorem not_owns_stateCf : g.owns g'.stateCf = false :=
  RaftGroup.owns_disjoint hne g'.owns_stateCf

/-- A record of the other group's state. -/
theorem avoids_putState (subject : ErrorSubject) (key value : Bytes) :
    Avoids (ownFiles g) (mapErr subject .write (put g'.stateCf key value)) :=
  (ownFiles_avoids_put (not_owns_stateCf hne) key value).adaptExcept _

/-- A record of the other group's log. -/
theorem avoids_putLog (subject : ErrorSubject) (key value : Bytes) :
    Avoids (ownFiles g) (mapErr subject .write (put g'.logCf key value)) :=
  (ownFiles_avoids_put (not_owns_logCf hne) key value).adaptExcept _

section Calls

variable [MembershipApi] [Prost LogIdMessage] [Prost MembershipMessage]

theorem avoids_append (entries : List Entry) :
    Avoids (ownFiles g) (RocksDBLogStorage.append g' entries) := by
  have hcf := not_owns_logCf hne
  rw [RocksDBLogStorage.append]
  refine (Avoids.adaptExcept (ownFiles_avoids_batchWrite hcf ?_) _).bind fun _ => ?_
  · intro op hop
    obtain ⟨entry, -, rfl⟩ := List.mem_map.mp hop
    rfl
  · cases entries.getLast? with
    | none => exact avoids_pure _
    | some entry =>
        refine (avoids_putLog hne _ _ _).bind fun _ => ?_
        exact avoids_ignore (ownFiles_avoids_setCache hcf _)

omit [MembershipApi] [Prost LogIdMessage] [Prost MembershipMessage] in
theorem avoids_truncate (id : LogId) :
    Avoids (ownFiles g) (RocksDBLogStorage.truncate g' id) :=
  (ownFiles_avoids_truncateLogBefore (not_owns_logCf hne) _).adaptExcept _

omit [MembershipApi] [Prost MembershipMessage] in
theorem avoids_purge (id : LogId) : Avoids (ownFiles g) (RocksDBLogStorage.purge g' id) := by
  rw [RocksDBLogStorage.purge]
  split
  · exact avoids_throw_bind _ _
  · refine ((ownFiles_avoids_truncateLogBefore (not_owns_logCf hne) _).adaptExcept _).bind
      fun _ => ?_
    exact avoids_putLog hne _ _ _

omit hne in
theorem avoids_appliedState : Avoids (machineFiles g) (RocksDBStateMachine.appliedState g') := by
  rw [RocksDBStateMachine.appliedState]
  refine avoids_get.bind fun m => (avoids_ofExcept _).bind fun _ => ?_
  refine (avoids_ofExcept _).bind fun _ => (avoids_modify fun _ => ?_).bind fun _ => avoids_pure _
  rfl

theorem avoids_installSnapshot (pathExists : Bytes → Bool) (snapshotMeta : SnapshotMeta)
    (snapshotData : Bytes) :
    Avoids (machineFiles g)
      (RocksDBStateMachine.installSnapshot g' pathExists snapshotMeta snapshotData) := by
  rcases installSnapshot_cases g' pathExists snapshotMeta snapshotData with
    ⟨-, e, hthrow, -⟩ | ⟨-, hrecords, -⟩
  · rw [hthrow]
    exact avoids_throw e
  · rw [hrecords, RocksDBStateMachine.installRecords]
    have htail : ∀ m : SnapshotMeta, Avoids (machineFiles g) (do
        onDatabase (mapErr .stateMachine .write
          (put g'.stateCf membershipKey
            (Prost.encodeToVec (MembershipMessage.fromMembership m.lastMembership))))
        modify fun n => { n with cachedMembership := m.lastMembership }
        modify fun n => { n with currentSnapshot := some ⟨m, snapshotData⟩ }
          : MachineM Unit) := by
      intro m
      refine (avoids_onDatabase (avoids_putState hne _ _ _)).bind fun _ => ?_
      refine (avoids_modify fun _ => ?_).bind fun _ => avoids_modify fun _ => ?_ <;> rfl
    cases snapshotMeta.lastLogId with
    | none => exact htail snapshotMeta
    | some id =>
        refine (avoids_onDatabase (avoids_putState hne _ _ _)).bind fun _ => ?_
        refine (avoids_modify fun _ => ?_).bind fun _ => htail snapshotMeta
        rfl

variable [Prost VoteMessage] [Bincode Operation]

omit [MembershipApi] [Prost LogIdMessage] [Prost MembershipMessage] [Bincode Operation] in
theorem avoids_saveVote (vote : Vote) :
    Avoids (storeFiles g) (RocksDBLogStorage.saveVote g' vote) := by
  rw [RocksDBLogStorage.saveVote]
  exact (avoids_onStorage (avoids_putState hne _ _ _)).bind fun _ => avoids_modify fun _ => rfl

omit hne [MembershipApi] [Prost LogIdMessage] [Prost MembershipMessage] [Bincode Operation] in
theorem avoids_readVote : Avoids (storeFiles g) (RocksDBLogStorage.readVote g') := by
  rw [RocksDBLogStorage.readVote]
  refine avoids_get.bind fun store => ?_
  split
  · exact avoids_pure _
  · refine avoids_get.bind fun store => ?_
    split
    · exact avoids_pure _
    · split
      · exact avoids_throw _
      · refine (avoids_modify fun _ => ?_).bind fun _ => avoids_pure _
        rfl

omit [Prost LogIdMessage] [Prost VoteMessage] in
theorem avoids_groupApplyEntry (entry : Entry) :
    Avoids (machineFiles g) (RocksDBStateMachine.applyEntry g' entry) := by
  rw [RocksDBStateMachine.applyEntry]
  split
  · split
    · exact avoids_pure _
    · rename_i kvCf hkv
      have hcf := RaftGroup.owns_disjoint hne (RaftGroup.owns_kvCf hkv)
      split
      · exact (avoids_onDatabase ((ownFiles_avoids_put hcf _ _).adaptExcept _)).bind
          fun _ => avoids_pure _
      · exact (avoids_onDatabase ((ownFiles_avoids_delete hcf _).adaptExcept _)).bind
          fun _ => avoids_pure _
      · exact avoids_throw _
  · exact avoids_pure _
  · refine (avoids_onDatabase (avoids_putState hne _ _ _)).bind fun _ => ?_
    refine (avoids_modify fun _ => ?_).bind fun _ => avoids_pure _
    rfl

omit [Prost LogIdMessage] [Prost VoteMessage] in
theorem avoids_groupApplyEntries (entries : List Entry) :
    Avoids (machineFiles g) (RocksDBStateMachine.applyEntries g' entries) := by
  induction entries with
  | nil => exact avoids_pure _
  | cons entry entries ih =>
      exact (avoids_groupApplyEntry hne entry).bind fun _ => ih.bind fun _ => avoids_pure _

omit [Prost VoteMessage] in
theorem avoids_groupApply (entries : List Entry) :
    Avoids (machineFiles g) (RocksDBStateMachine.apply g' entries) := by
  rw [RocksDBStateMachine.apply]
  refine (avoids_groupApplyEntries hne entries).bind fun responses => ?_
  cases entries.getLast? with
  | none => exact avoids_pure _
  | some entry =>
      refine (avoids_onDatabase (avoids_putState hne _ _ _)).bind fun _ => ?_
      refine (avoids_modify fun _ => ?_).bind fun _ => avoids_pure _
      rfl

/-- A call of one group leaves the other as it was. -/
theorem avoids_call (call : GroupCall) : Avoids (nodePart g) (call.call g') := by
  cases call with
  | append entries =>
      exact (avoids_onLogStorage hne (avoids_onStorage (avoids_append hne entries))).bind
        fun _ => avoids_pure _
  | truncate id =>
      exact (avoids_onLogStorage hne (avoids_onStorage (avoids_truncate hne id))).bind
        fun _ => avoids_pure _
  | purge id =>
      exact (avoids_onLogStorage hne (avoids_onStorage (avoids_purge hne id))).bind
        fun _ => avoids_pure _
  | getLogState => exact (avoids_reading _).bind fun _ => avoids_pure _
  | tryGetLogEntries range => exact (avoids_reading _).bind fun _ => avoids_pure _
  | readerTryGetLogEntries range => exact (avoids_reading _).bind fun _ => avoids_pure _
  | saveVote vote =>
      exact (avoids_onLogStorage hne (avoids_saveVote hne vote)).bind fun _ => avoids_pure _
  | readVote => exact (avoids_onLogStorage hne avoids_readVote).bind fun _ => avoids_pure _
  | apply entries =>
      exact (avoids_onStateMachine hne (avoids_groupApply hne entries)).bind
        fun _ => avoids_pure _
  | appliedState =>
      exact (avoids_onStateMachine hne avoids_appliedState).bind fun _ => avoids_pure _
  | buildSnapshot snapshotId => exact (avoids_reading _).bind fun _ => avoids_pure _
  | installSnapshot pathExists snapshotMeta snapshotData =>
      exact (avoids_onStateMachine hne (avoids_installSnapshot hne pathExists snapshotMeta
        snapshotData)).bind fun _ => avoids_pure _
  | getCurrentSnapshot => exact avoids_get.bind fun _ => avoids_pure _

end Calls

end Frames

end Seshat
