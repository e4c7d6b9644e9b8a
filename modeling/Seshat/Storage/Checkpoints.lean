/-
Snapshots of the RocksDB state machine.  A snapshot is the id of a checkpoint that
nobody writes, with the position and the membership on record; installing it takes over
these two and leaves the data as it was.
-/
import Seshat.Storage.Machine

namespace Seshat

open Decimal Tracing Traced

section Snapshots

variable [MembershipApi] [Prost LogIdMessage] [Prost MembershipMessage]

namespace RocksDBSnapshotBuilder

/-- The id of a builder made this many seconds after the epoch. -/
def snapshotIdAt (seconds : UInt64) : Bytes :=
  ascii "snapshot-" ++ text seconds.toNat

/-- The id is also the data. -/
def buildSnapshot (g : RaftGroup) (snapshotId : Bytes) (s : Storage) :
    Except Failure Snapshot := do
  let applied ← readApplied g s
  let membership ← readMembership g s
  return ⟨⟨applied, membership, snapshotId⟩, snapshotId⟩

end RocksDBSnapshotBuilder

namespace RocksDBStateMachine

/-- `pathExists` is the file system's answer for the path that the id is taken for. -/
def installSnapshot (g : RaftGroup) (pathExists : Bytes → Bool) (snapshotMeta : SnapshotMeta)
    (snapshotData : Bytes) : MachineM Unit := do
  if snapshotMeta.snapshotId.isEmpty then
    throw (ioError .snapshot .read (ascii "Empty snapshot ID"))
  if !pathExists snapshotMeta.snapshotId then
    throw (ioError .snapshot .read (ascii "Checkpoint directory does not exist"))
  if snapshotData.isEmpty then
    throw (ioError .snapshot .read (ascii "Empty snapshot data"))
  if let some id := snapshotMeta.lastLogId then
    onDatabase (mapErr .stateMachine .write
      (put g.stateCf appliedKey (Prost.encodeToVec (LogIdMessage.fromLogId id))))
    modify fun m => { m with cachedApplied := some id }
  onDatabase (mapErr .stateMachine .write
    (put g.stateCf membershipKey
      (Prost.encodeToVec (MembershipMessage.fromMembership snapshotMeta.lastMembership))))
  modify fun m => { m with cachedMembership := snapshotMeta.lastMembership }
  modify fun m => { m with currentSnapshot := some ⟨snapshotMeta, snapshotData⟩ }

def getCurrentSnapshot (m : RocksDBStateMachine) : Option Snapshot :=
  m.currentSnapshot

end RocksDBStateMachine

/-- The writes of an installation that gets past its checks. -/
def installWrites (g : RaftGroup) (snapshotMeta : SnapshotMeta) : WriteBatch :=
  (snapshotMeta.lastLogId.map fun id => BatchOperation.put g.stateCf appliedKey
    (Prost.encodeToVec (LogIdMessage.fromLogId id))).toList ++
    [.put g.stateCf membershipKey
      (Prost.encodeToVec (MembershipMessage.fromMembership snapshotMeta.lastMembership))]

/-- The machine after an installation. -/
def installed (g : RaftGroup) (m : RocksDBStateMachine) (snapshotMeta : SnapshotMeta)
    (snapshotData : Bytes) : RocksDBStateMachine where
  storage := m.storage.write (installWrites g snapshotMeta)
  cachedApplied := snapshotMeta.lastLogId.or m.cachedApplied
  cachedMembership := snapshotMeta.lastMembership
  currentSnapshot := some ⟨snapshotMeta, snapshotData⟩

namespace RocksDBStateMachine

/-- The part of an installation behind its checks. -/
def installRecords (g : RaftGroup) (snapshotMeta : SnapshotMeta) (snapshotData : Bytes) :
    MachineM Unit := do
  if let some id := snapshotMeta.lastLogId then
    onDatabase (mapErr .stateMachine .write
      (put g.stateCf appliedKey (Prost.encodeToVec (LogIdMessage.fromLogId id))))
    modify fun m => { m with cachedApplied := some id }
  onDatabase (mapErr .stateMachine .write
    (put g.stateCf membershipKey
      (Prost.encodeToVec (MembershipMessage.fromMembership snapshotMeta.lastMembership))))
  modify fun m => { m with cachedMembership := snapshotMeta.lastMembership }
  modify fun m => { m with currentSnapshot := some ⟨snapshotMeta, snapshotData⟩ }

def tracedInstallRecords (g : RaftGroup) (snapshotMeta : SnapshotMeta) (snapshotData : Bytes) :
    TracedM Failure RocksDBStateMachine Unit := do
  if let some id := snapshotMeta.lastLogId then
    tracedWrite (tracedPut g.stateCf appliedKey (Prost.encodeToVec (LogIdMessage.fromLogId id)))
    quiet (modify fun m => { m with cachedApplied := some id })
  tracedWrite (tracedPut g.stateCf membershipKey
    (Prost.encodeToVec (MembershipMessage.fromMembership snapshotMeta.lastMembership)))
  quiet (modify fun m => { m with cachedMembership := snapshotMeta.lastMembership })
  quiet (modify fun m => { m with currentSnapshot := some ⟨snapshotMeta, snapshotData⟩ })

def tracedInstallSnapshot (g : RaftGroup) (pathExists : Bytes → Bool)
    (snapshotMeta : SnapshotMeta) (snapshotData : Bytes) :
    TracedM Failure RocksDBStateMachine Unit := do
  if snapshotMeta.snapshotId.isEmpty then
    quiet (throw (ioError .snapshot .read (ascii "Empty snapshot ID")))
  if !pathExists snapshotMeta.snapshotId then
    quiet (throw (ioError .snapshot .read (ascii "Checkpoint directory does not exist")))
  if snapshotData.isEmpty then
    quiet (throw (ioError .snapshot .read (ascii "Empty snapshot data")))
  tracedInstallRecords g snapshotMeta snapshotData

end RocksDBStateMachine

open RocksDBStateMachine

/-- A check fails at once, or the records are written. -/
theorem installSnapshot_cases (g : RaftGroup) (pathExists : Bytes → Bool)
    (snapshotMeta : SnapshotMeta) (snapshotData : Bytes) :
    ((snapshotMeta.snapshotId.isEmpty || !pathExists snapshotMeta.snapshotId ||
        snapshotData.isEmpty) = true ∧
      ∃ e, installSnapshot g pathExists snapshotMeta snapshotData = throw e ∧
        tracedInstallSnapshot g pathExists snapshotMeta snapshotData = quiet (throw e)) ∨
    ((snapshotMeta.snapshotId.isEmpty || !pathExists snapshotMeta.snapshotId ||
        snapshotData.isEmpty) = false ∧
      installSnapshot g pathExists snapshotMeta snapshotData =
        installRecords g snapshotMeta snapshotData ∧
      tracedInstallSnapshot g pathExists snapshotMeta snapshotData =
        tracedInstallRecords g snapshotMeta snapshotData) := by
  rw [installSnapshot, tracedInstallSnapshot]
  cases snapshotMeta.snapshotId.isEmpty with
  | true => exact .inl ⟨rfl, _, rfl, rfl⟩
  | false =>
      cases pathExists snapshotMeta.snapshotId with
      | false => exact .inl ⟨rfl, _, rfl, rfl⟩
      | true =>
          cases snapshotData.isEmpty with
          | true => exact .inl ⟨rfl, _, rfl, rfl⟩
          | false => exact .inr ⟨rfl, rfl, rfl⟩

theorem forget_tracedInstallRecords (g : RaftGroup) (snapshotMeta : SnapshotMeta)
    (snapshotData : Bytes) :
    (tracedInstallRecords g snapshotMeta snapshotData).forget =
      installRecords g snapshotMeta snapshotData := by
  rw [tracedInstallRecords, installRecords]
  cases snapshotMeta.lastLogId <;> simp

theorem writes_tracedInstallRecords (g : RaftGroup) (snapshotMeta : SnapshotMeta)
    (snapshotData : Bytes) (m : RocksDBStateMachine) :
    (tracedInstallRecords g snapshotMeta snapshotData).writes m =
      (installWrites g snapshotMeta).map ([·]) := by
  rw [tracedInstallRecords, installWrites]
  cases snapshotMeta.lastLogId <;> rfl

theorem accounts_tracedInstallRecords (g : RaftGroup) (snapshotMeta : SnapshotMeta)
    (snapshotData : Bytes) :
    Accounts RocksDBStateMachine.storage Storage.write
      (tracedInstallRecords g snapshotMeta snapshotData) := by
  have hmembership : Accounts RocksDBStateMachine.storage Storage.write (do
      tracedWrite (tracedPut g.stateCf membershipKey
        (Prost.encodeToVec (MembershipMessage.fromMembership snapshotMeta.lastMembership)))
      quiet (modify fun m => { m with cachedMembership := snapshotMeta.lastMembership })
      quiet (modify fun m => { m with currentSnapshot := some ⟨snapshotMeta, snapshotData⟩ })) := by
    refine (accounts_tracedRecord g _ _).bind fun _ => Accounts.bind ?_ fun _ => ?_
    · exact accounts_modify fun _ => rfl
    · exact accounts_modify fun _ => rfl
  rw [tracedInstallRecords]
  cases snapshotMeta.lastLogId with
  | none => exact hmembership
  | some id =>
      refine (accounts_tracedRecord g _ _).bind fun _ => Accounts.bind ?_ fun _ => hmembership
      exact accounts_modify fun _ => rfl

/-- Without its report the traced installation is the installation. -/
@[simp]
theorem forget_tracedInstallSnapshot (g : RaftGroup) (pathExists : Bytes → Bool)
    (snapshotMeta : SnapshotMeta) (snapshotData : Bytes) :
    (tracedInstallSnapshot g pathExists snapshotMeta snapshotData).forget =
      installSnapshot g pathExists snapshotMeta snapshotData := by
  rcases installSnapshot_cases g pathExists snapshotMeta snapshotData with
    ⟨-, e, hplain, htraced⟩ | ⟨-, hplain, htraced⟩
  · rw [hplain, htraced, forget_quiet]
  · rw [hplain, htraced, forget_tracedInstallRecords]

/-- An installation that fails its checks writes nothing. -/
theorem writes_tracedInstallSnapshot (g : RaftGroup) (pathExists : Bytes → Bool)
    (snapshotMeta : SnapshotMeta) (snapshotData : Bytes) (m : RocksDBStateMachine) :
    (tracedInstallSnapshot g pathExists snapshotMeta snapshotData).writes m =
      if snapshotMeta.snapshotId.isEmpty || !pathExists snapshotMeta.snapshotId ||
          snapshotData.isEmpty then []
      else (installWrites g snapshotMeta).map ([·]) := by
  rcases installSnapshot_cases g pathExists snapshotMeta snapshotData with
    ⟨hfails, e, -, htraced⟩ | ⟨hpasses, -, htraced⟩
  · rw [htraced, writes_quiet, if_pos hfails]
  · rw [htraced, writes_tracedInstallRecords, if_neg (by simp [hpasses])]

/-- Every write of an installation is reported. -/
theorem accounts_tracedInstallSnapshot (g : RaftGroup) (pathExists : Bytes → Bool)
    (snapshotMeta : SnapshotMeta) (snapshotData : Bytes) :
    Accounts RocksDBStateMachine.storage Storage.write
      (tracedInstallSnapshot g pathExists snapshotMeta snapshotData) := by
  rcases installSnapshot_cases g pathExists snapshotMeta snapshotData with
    ⟨-, e, -, htraced⟩ | ⟨-, -, htraced⟩
  · rw [htraced]
    exact accounts_quiet (Footprint.avoids_throw e)
  · rw [htraced]
    exact accounts_tracedInstallRecords g snapshotMeta snapshotData

/-- An installation that succeeded passed its checks and did its writes. -/
theorem installSnapshot_run_ok {g : RaftGroup} {pathExists : Bytes → Bool}
    {snapshotMeta : SnapshotMeta} {snapshotData : Bytes} {m m' : RocksDBStateMachine}
    (hrun : (RocksDBStateMachine.installSnapshot g pathExists snapshotMeta snapshotData).run m =
      .ok () m') :
    pathExists snapshotMeta.snapshotId = true ∧
      m' = installed g m snapshotMeta snapshotData := by
  rcases installSnapshot_cases g pathExists snapshotMeta snapshotData with
    ⟨-, e, hplain, -⟩ | ⟨hpasses, hplain, -⟩
  · rw [hplain] at hrun
    contradiction
  · refine ⟨?_, ?_⟩
    · simp only [Bool.or_eq_false_iff, Bool.not_eq_false'] at hpasses
      exact hpasses.1.2
    · rw [hplain, installRecords] at hrun
      rw [installed, installWrites]
      cases hlast : snapshotMeta.lastLogId with
      | none =>
          rw [hlast] at hrun
          cases hrun
          rfl
      | some id =>
          rw [hlast] at hrun
          cases hrun
          rfl

/-- Only the state of the group is written. -/
theorem get_installed (g : RaftGroup) (m : RocksDBStateMachine) (snapshotMeta : SnapshotMeta)
    (snapshotData : Bytes) {cf : ColumnFamily} (hcf : g.stateCf ≠ cf) (key : Bytes) :
    (installed g m snapshotMeta snapshotData).storage.get cf key = m.storage.get cf key := by
  refine Storage.get_write_of_ne (fun op hop => ?_) m.storage key
  rcases List.mem_append.mp hop with hop | hop
  · obtain ⟨id, -, rfl⟩ := Option.map_eq_some_iff.mp (Option.mem_toList.mp hop)
    exact hcf
  · obtain rfl := List.mem_singleton.mp hop
    exact hcf

/-- The position of the snapshot is on record afterwards. -/
theorem readApplied_installed (g : RaftGroup) (m : RocksDBStateMachine)
    {snapshotMeta : SnapshotMeta} (snapshotData : Bytes) {id : LogId}
    (hid : snapshotMeta.lastLogId = some id) :
    readApplied g (installed g m snapshotMeta snapshotData).storage = .ok (some id) := by
  have hkey : appliedKey ≠ membershipKey := by decide
  have hget : (installed g m snapshotMeta snapshotData).storage.get g.stateCf appliedKey =
      some (Prost.encodeToVec (LogIdMessage.fromLogId id)) := by
    rw [installed, installWrites, hid, Option.map_some, Option.toList_some, List.singleton_append,
      ← List.singleton_append, Storage.write_append, Storage.write_singleton,
      Storage.write_singleton, Storage.get_apply_put, if_neg fun h => hkey h.2,
      Storage.get_apply_put, if_pos ⟨rfl, rfl⟩]
  simp [readApplied, hget]

/-- The database holds the same data. -/
def SameKv (s t : Storage) : Prop :=
  ∀ key, s.get .dataKv key = t.get .dataKv key

/-- A snapshot of `a` that was installed on `b` puts `b` at the position of `a`, but it
gives `b` the data of `a` exactly where `b` had it before. -/
theorem sameKv_after_install_iff (pathExists : Bytes → Bool) (seconds : UInt64)
    (a b b' : RocksDBStateMachine) (snapshot : Snapshot)
    (hbuild : RocksDBSnapshotBuilder.buildSnapshot .dataRaft
      (RocksDBSnapshotBuilder.snapshotIdAt seconds) a.storage = .ok snapshot)
    (hinstall : (RocksDBStateMachine.installSnapshot .dataRaft pathExists
      snapshot.snapshotMeta snapshot.snapshot).run b = .ok () b') :
    (SameKv b'.storage a.storage ↔ SameKv b.storage a.storage) ∧
      ∀ id, readApplied .dataRaft a.storage = .ok (some id) →
        readApplied .dataRaft b'.storage = .ok (some id) := by
  obtain ⟨-, rfl⟩ := installSnapshot_run_ok hinstall
  constructor
  · have hcf : RaftGroup.dataRaft.stateCf ≠ .dataKv := by decide
    simp only [SameKv, get_installed _ _ _ _ hcf]
  · intro id hid
    refine readApplied_installed .dataRaft b _ ?_
    rw [RocksDBSnapshotBuilder.buildSnapshot, hid] at hbuild
    cases hmembership : readMembership .dataRaft a.storage with
    | error e =>
        rw [hmembership] at hbuild
        contradiction
    | ok membership =>
        rw [hmembership] at hbuild
        cases hbuild
        rfl

end Snapshots

namespace Witness

/-- A machine after one batch. -/
def afterApply (entries : List Entry) : RocksDBStateMachine :=
  leaves ((RocksDBStateMachine.apply .dataRaft entries).run (.new .new))

/-- Key `a` is set. -/
def source : RocksDBStateMachine :=
  afterApply [operationEntry 1 1 1 (.set (ascii "a") (ascii "1"))]

/-- What is built from a machine, at second 7. -/
def builtFrom (m : RocksDBStateMachine) : Except Failure Snapshot :=
  RocksDBSnapshotBuilder.buildSnapshot .dataRaft (RocksDBSnapshotBuilder.snapshotIdAt 7) m.storage

/-- The snapshot of the source. -/
def sourceSnapshot : Snapshot :=
  ⟨⟨some ⟨⟨1, 1⟩, 1⟩, .default, ascii "snapshot-7"⟩, ascii "snapshot-7"⟩

theorem builtFrom_source : builtFrom source = .ok sourceSnapshot := rfl

/-- The snapshot of the source, installed where its path exists. -/
def installSource : MachineM Unit :=
  RocksDBStateMachine.installSnapshot .dataRaft (fun _ => true) sourceSnapshot.snapshotMeta
    sourceSnapshot.snapshot

/-- A machine that applied the same batch keeps the data. -/
theorem installSource_on_same :
    ∃ t, installSource.run source = .ok () t ∧ SameKv t.storage source.storage ∧
      readApplied .dataRaft t.storage = .ok (some ⟨⟨1, 1⟩, 1⟩) := by
  refine ⟨_, rfl, ?_⟩
  have h := sameKv_after_install_iff (fun _ => true) 7 source source _ sourceSnapshot
    builtFrom_source rfl
  exact ⟨h.1.mpr fun _ => rfl, h.2 _ rfl⟩

/-- A new machine claims entry 1 afterwards and has no key `a`. -/
theorem installSource_on_new :
    builtFrom source = .ok sourceSnapshot ∧
      ∃ t, installSource.run (.new .new) = .ok () t ∧
        readApplied .dataRaft t.storage = .ok (some ⟨⟨1, 1⟩, 1⟩) ∧
        ¬ SameKv t.storage source.storage := by
  refine ⟨builtFrom_source, _, rfl, rfl, fun hsame => ?_⟩
  have hkey := hsame (ascii "a")
  revert hkey
  decide

end Witness

end Seshat
