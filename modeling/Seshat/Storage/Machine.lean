/-
The RocksDB state machine.  Applying a batch writes the effect of each entry to the
database, one write at a time, and the applied log id at the end.  A crash in between
leaves the data ahead of the applied id; applying the batch again after a restart
overwrites whatever part of it was there, so that the outcome is that of one run.
-/
import Seshat.Storage.Operation
import Seshat.Storage.Reopen
import Seshat.Storage.Traces
import Seshat.Storage.Wire

namespace Seshat

open Decimal Tracing Traced

def appliedKey : Bytes := ascii "applied"
def membershipKey : Bytes := ascii "membership"

structure RocksDBStateMachine where
  storage : Storage
  cachedApplied : Option LogId
  cachedMembership : StoredMembership
  currentSnapshot : Option Snapshot

abbrev MachineM := EStateM Failure RocksDBStateMachine

/-- A call that only works on the database. -/
def onDatabase {α : Type} (op : RaftM α) : MachineM α := fun m =>
  match op.run m.storage with
  | .ok a t => .ok a { m with storage := t }
  | .error e t => .error e { m with storage := t }

section Reads

variable [MembershipApi] [Prost LogIdMessage] [Prost MembershipMessage]

/-- The applied log id on record. -/
def readApplied (g : RaftGroup) (s : Storage) : Except Failure (Option LogId) :=
  match s.get g.stateCf appliedKey with
  | none => .ok none
  | some bytes =>
      match Prost.decode bytes with
      | .error e => .error (ioError .stateMachine .read e)
      | .ok (msg : LogIdMessage) => .ok (some msg.toLogId)

/-- The membership on record. -/
def readMembership (g : RaftGroup) (s : Storage) : Except Failure StoredMembership :=
  match s.get g.stateCf membershipKey with
  | none => .ok .default
  | some bytes =>
      match Prost.decode bytes with
      | .error e => .error (ioError .stateMachine .read e)
      | .ok (msg : MembershipMessage) => .ok msg.toMembership

end Reads

namespace RocksDBStateMachine

def new (s : Storage) : RocksDBStateMachine := ⟨s, none, .default, none⟩

variable [MembershipApi] [Prost LogIdMessage] [Prost MembershipMessage]

def appliedState (g : RaftGroup) : MachineM (Option LogId × StoredMembership) := do
  let s := (← get).storage
  let applied ← MonadExcept.ofExcept (readApplied g s)
  let membership ← MonadExcept.ofExcept (readMembership g s)
  modify fun m => { m with cachedApplied := applied, cachedMembership := membership }
  return (applied, membership)

variable [Bincode Operation]

/-- One write at most.  Without a column family for data an operation is not even
decoded. -/
def applyEntry (g : RaftGroup) (entry : Entry) : MachineM Response :=
  match entry.payload with
  | .normal request =>
      match g.kvCf with
      | none => return ⟨ascii "OK"⟩
      | some kvCf =>
          match Operation.deserialize request.operationBytes with
          | .ok (.set key value) => do
              onDatabase (mapErr .stateMachine .write (put kvCf key value))
              return ⟨ascii "OK"⟩
          | .ok (.del key) => do
              onDatabase (mapErr .stateMachine .write (delete kvCf key))
              return ⟨ascii "OK"⟩
          | .error e => throw (ioError .stateMachine .read e.display)
  | .blank => return ⟨[]⟩
  | .membership membership => do
      let stored : StoredMembership := ⟨some entry.logId, membership⟩
      onDatabase (mapErr .stateMachine .write
        (put g.stateCf membershipKey
          (Prost.encodeToVec (MembershipMessage.fromMembership stored))))
      modify fun m => { m with cachedMembership := stored }
      return ⟨[]⟩

def applyEntries (g : RaftGroup) : List Entry → MachineM (List Response)
  | [] => return []
  | entry :: entries => do
      let response ← applyEntry g entry
      let responses ← applyEntries g entries
      return response :: responses

/-- The applied log id is persisted last. -/
def apply (g : RaftGroup) (entries : List Entry) : MachineM (List Response) := do
  let responses ← applyEntries g entries
  if let some entry := entries.getLast? then
    onDatabase (mapErr .stateMachine .write
      (put g.stateCf appliedKey (Prost.encodeToVec (LogIdMessage.fromLogId entry.logId))))
    modify fun m => { m with cachedApplied := some entry.logId }
  return responses

end RocksDBStateMachine

/-- A normal entry carries an operation that decodes. -/
def Entry.Decodable [Bincode Operation] (entry : Entry) : Prop :=
  ∀ request, entry.payload = .normal request →
    ∃ op, Operation.deserialize request.operationBytes = .ok op

def Entry.decodes [Bincode Operation] (entry : Entry) : Bool :=
  match entry.payload with
  | .normal request => (Operation.deserialize request.operationBytes).isOk
  | _ => true

theorem Entry.decodes_iff [Bincode Operation] {entry : Entry} :
    entry.decodes = true ↔ entry.Decodable := by
  obtain ⟨id, payload⟩ := entry
  cases payload with
  | blank => simp [decodes, Decodable]
  | membership membership => simp [decodes, Decodable]
  | normal request =>
      cases hop : Operation.deserialize request.operationBytes <;>
        simp [decodes, Decodable, hop, Except.isOk, Except.toBool]

instance [Bincode Operation] (entry : Entry) : Decidable entry.Decodable :=
  decidable_of_iff (entry.decodes = true) Entry.decodes_iff

/-- How the database answers an entry. -/
def Entry.acknowledged (entry : Entry) : Response :=
  match entry.payload with
  | .normal _ => ⟨ascii "OK"⟩
  | _ => ⟨[]⟩

section Writes

variable [MembershipApi] [Prost LogIdMessage] [Prost MembershipMessage] [Bincode Operation]

/-- The write of an entry, if it has one. -/
def entryWrites (g : RaftGroup) (entry : Entry) : WriteBatch :=
  match entry.payload with
  | .normal request =>
      match g.kvCf, Operation.deserialize request.operationBytes with
      | some kvCf, .ok (.set key value) => [.put kvCf key value]
      | some kvCf, .ok (.del key) => [.delete kvCf key]
      | _, _ => []
  | .blank => []
  | .membership membership =>
      [.put g.stateCf membershipKey
        (Prost.encodeToVec (MembershipMessage.fromMembership ⟨some entry.logId, membership⟩))]

/-- The record of the applied log id, if a batch has one. -/
def positionWrite (g : RaftGroup) (entries : List Entry) : WriteBatch :=
  (entries.getLast?.map fun entry => BatchOperation.put g.stateCf appliedKey
    (Prost.encodeToVec (LogIdMessage.fromLogId entry.logId))).toList

/-- The writes of a batch, in the order they are issued. -/
def applyWrites (g : RaftGroup) (entries : List Entry) : WriteBatch :=
  entries.flatMap (entryWrites g) ++ positionWrite g entries

/-- The state machine of the group gets past the entry. -/
def Entry.applies (g : RaftGroup) (entry : Entry) : Bool :=
  g.kvCf.isNone || entry.decodes

/-- All that an application writes: it ends at the first entry that does not decode. -/
def issuedByApply (g : RaftGroup) (entries : List Entry) : WriteBatch :=
  (entries.takeWhile (Entry.applies g)).flatMap (entryWrites g) ++
    if entries.all (Entry.applies g) then positionWrite g entries else []

end Writes

/-- A call that only works on the database, with its writes. -/
def tracedOnDatabase {α : Type} (op : TracedM Failure Storage α) :
    TracedM Failure RocksDBStateMachine α :=
  op.zoom RocksDBStateMachine.storage fun m s => { m with storage := s }

theorem onDatabase_eq_zoom {α : Type} (op : RaftM α) :
    onDatabase op = Footprint.zoom RocksDBStateMachine.storage
      (fun m t => { m with storage := t }) op := by
  funext m
  rw [onDatabase, Footprint.zoom]
  cases op.run m.storage <;> rfl

@[simp]
theorem forget_tracedOnDatabase {α : Type} (op : TracedM Failure Storage α) :
    (tracedOnDatabase op).forget = onDatabase op.forget :=
  (onDatabase_eq_zoom op.forget).symm

/-- A write of the state machine. -/
def tracedWrite (op : TracedM StorageError Storage Unit) :
    TracedM Failure RocksDBStateMachine Unit :=
  tracedOnDatabase (tracedMapErr .stateMachine .write op)

@[simp]
theorem forget_tracedWrite (op : TracedM StorageError Storage Unit) :
    (tracedWrite op).forget = onDatabase (mapErr .stateMachine .write op.forget) :=
  forget_tracedOnDatabase _

theorem accounts_tracedWrite {op : TracedM StorageError Storage Unit}
    (h : Accounts id Storage.write op) :
    Accounts RocksDBStateMachine.storage Storage.write (tracedWrite op) :=
  (h.adaptExcept _).zoom (fun _ => rfl) fun _ _ => rfl

theorem accounts_tracedRecord (g : RaftGroup) (key value : Bytes) :
    Accounts RocksDBStateMachine.storage Storage.write
      (tracedWrite (tracedPut g.stateCf key value)) :=
  accounts_tracedWrite (accounts_tracedPut _ _ _)

section Trace

variable [MembershipApi] [Prost LogIdMessage] [Prost MembershipMessage] [Bincode Operation]

namespace RocksDBStateMachine

def tracedApplyEntry (g : RaftGroup) (entry : Entry) :
    TracedM Failure RocksDBStateMachine Response :=
  match entry.payload with
  | .normal request =>
      match g.kvCf with
      | none => return ⟨ascii "OK"⟩
      | some kvCf =>
          match Operation.deserialize request.operationBytes with
          | .ok (.set key value) => do
              tracedWrite (tracedPut kvCf key value)
              return ⟨ascii "OK"⟩
          | .ok (.del key) => do
              tracedWrite (tracedDelete kvCf key)
              return ⟨ascii "OK"⟩
          | .error e => quiet (throw (ioError .stateMachine .read e.display))
  | .blank => return ⟨[]⟩
  | .membership membership => do
      let stored : StoredMembership := ⟨some entry.logId, membership⟩
      tracedWrite (tracedPut g.stateCf membershipKey
        (Prost.encodeToVec (MembershipMessage.fromMembership stored)))
      quiet (modify fun m => { m with cachedMembership := stored })
      return ⟨[]⟩

def tracedApplyEntries (g : RaftGroup) :
    List Entry → TracedM Failure RocksDBStateMachine (List Response)
  | [] => return []
  | entry :: entries => do
      let response ← tracedApplyEntry g entry
      let responses ← tracedApplyEntries g entries
      return response :: responses

def tracedApply (g : RaftGroup) (entries : List Entry) :
    TracedM Failure RocksDBStateMachine (List Response) := do
  let responses ← tracedApplyEntries g entries
  if let some entry := entries.getLast? then
    tracedWrite (tracedPut g.stateCf appliedKey
      (Prost.encodeToVec (LogIdMessage.fromLogId entry.logId)))
    quiet (modify fun m => { m with cachedApplied := some entry.logId })
  return responses

end RocksDBStateMachine

open RocksDBStateMachine

omit [Prost LogIdMessage] in
theorem forget_tracedApplyEntry (g : RaftGroup) (entry : Entry) :
    (tracedApplyEntry g entry).forget = applyEntry g entry := by
  obtain ⟨id, payload⟩ := entry
  cases payload with
  | blank => rfl
  | membership membership => simp [tracedApplyEntry, applyEntry]
  | normal request =>
      cases g with
      | systemRaft => rfl
      | dataRaft =>
          cases hop : Operation.deserialize request.operationBytes with
          | error e => simp [tracedApplyEntry, applyEntry, RaftGroup.kvCf, hop]
          | ok op => cases op <;> simp [tracedApplyEntry, applyEntry, RaftGroup.kvCf, hop]

omit [Prost LogIdMessage] in
theorem forget_tracedApplyEntries (g : RaftGroup) (entries : List Entry) :
    (tracedApplyEntries g entries).forget = applyEntries g entries := by
  induction entries with
  | nil => rfl
  | cons entry entries ih =>
      simp [tracedApplyEntries, applyEntries, forget_tracedApplyEntry, ih]

/-- Without its report the traced application is the application. -/
@[simp]
theorem forget_tracedApply (g : RaftGroup) (entries : List Entry) :
    (tracedApply g entries).forget = apply g entries := by
  rw [tracedApply, RocksDBStateMachine.apply, forget_bind, forget_tracedApplyEntries]
  refine bind_congr fun responses => ?_
  cases entries.getLast? <;> simp

omit [Prost LogIdMessage] in
theorem accounts_tracedApplyEntry (g : RaftGroup) (entry : Entry) :
    Accounts RocksDBStateMachine.storage Storage.write (tracedApplyEntry g entry) := by
  obtain ⟨id, payload⟩ := entry
  cases payload with
  | blank => exact accounts_pure _
  | membership membership =>
      refine (accounts_tracedRecord g _ _).bind fun _ => Accounts.bind ?_ fun _ => accounts_pure _
      exact accounts_modify fun _ => rfl
  | normal request =>
      simp only [tracedApplyEntry]
      split
      · exact accounts_pure _
      · split
        · exact (accounts_tracedWrite (accounts_tracedPut _ _ _)).bind fun _ => accounts_pure _
        · exact (accounts_tracedWrite (accounts_tracedDelete _ _)).bind fun _ => accounts_pure _
        · exact accounts_quiet (Footprint.avoids_throw _)

omit [Prost LogIdMessage] in
theorem accounts_tracedApplyEntries (g : RaftGroup) (entries : List Entry) :
    Accounts RocksDBStateMachine.storage Storage.write (tracedApplyEntries g entries) := by
  induction entries with
  | nil => exact accounts_pure _
  | cons entry entries ih =>
      exact (accounts_tracedApplyEntry g entry).bind fun _ => ih.bind fun _ => accounts_pure _

/-- Every write of an application is reported. -/
theorem accounts_tracedApply (g : RaftGroup) (entries : List Entry) :
    Accounts RocksDBStateMachine.storage Storage.write (tracedApply g entries) := by
  refine (accounts_tracedApplyEntries g entries).bind fun responses => ?_
  cases entries.getLast? with
  | none => exact accounts_pure _
  | some entry =>
      refine (accounts_tracedRecord g _ _).bind fun _ => Accounts.bind ?_ fun _ => accounts_pure _
      exact accounts_modify fun _ => rfl

end Trace

section Runs

variable [MembershipApi] [Prost LogIdMessage] [Prost MembershipMessage] [Bincode Operation]

open RocksDBStateMachine

omit [MembershipApi] [Prost LogIdMessage] [Prost MembershipMessage] in
theorem Entry.Decodable.applies {entry : Entry} (h : entry.Decodable) (g : RaftGroup) :
    entry.applies g = true := by
  rw [Entry.applies, Entry.decodes_iff.mpr h, Bool.or_true]

omit [Prost LogIdMessage] in
/-- An entry is applied with its write, or stops the batch without one. -/
theorem applyEntry_cases (g : RaftGroup) (entry : Entry) (m : RocksDBStateMachine) :
    (entry.applies g = true ∧ (∃ m', (applyEntry g entry).run m = .ok entry.acknowledged m') ∧
        (tracedApplyEntry g entry).writes m = (entryWrites g entry).map ([·])) ∨
      entry.applies g = false ∧ (∃ e, (applyEntry g entry).run m = .error e m) ∧
        (tracedApplyEntry g entry).writes m = [] := by
  obtain ⟨id, payload⟩ := entry
  cases payload with
  | blank => exact .inl ⟨by simp [Entry.applies, Entry.decodes], ⟨m, rfl⟩, rfl⟩
  | membership membership =>
      exact .inl ⟨by simp [Entry.applies, Entry.decodes], ⟨_, rfl⟩, rfl⟩
  | normal request =>
      cases g with
      | systemRaft => exact .inl ⟨rfl, ⟨m, rfl⟩, rfl⟩
      | dataRaft =>
          cases hop : Operation.deserialize request.operationBytes with
          | ok op =>
              refine .inl ⟨by simp [Entry.applies, Entry.decodes, hop, Except.isOk, Except.toBool],
                ?_⟩
              simp only [applyEntry, tracedApplyEntry, entryWrites, hop]
              cases op with
              | set key value => exact ⟨⟨_, rfl⟩, rfl⟩
              | del key => exact ⟨⟨_, rfl⟩, rfl⟩
          | error e =>
              refine .inr ⟨by simp [Entry.applies, Entry.decodes, hop, Except.isOk, Except.toBool,
                RaftGroup.kvCf], ?_⟩
              simp only [applyEntry, tracedApplyEntry, hop]
              exact ⟨⟨_, rfl⟩, rfl⟩

omit [Prost LogIdMessage] in
theorem applyEntries_cases (g : RaftGroup) (entries : List Entry) (m : RocksDBStateMachine) :
    (entries.all (Entry.applies g) = true ∧ (∃ m', (applyEntries g entries).run m =
          .ok (entries.map Entry.acknowledged) m') ∧
        (tracedApplyEntries g entries).writes m =
          (entries.flatMap (entryWrites g)).map ([·])) ∨
      entries.all (Entry.applies g) = false ∧ (∃ e m', (applyEntries g entries).run m =
          .error e m') ∧
        (tracedApplyEntries g entries).writes m =
          ((entries.takeWhile (Entry.applies g)).flatMap (entryWrites g)).map ([·]) := by
  induction entries generalizing m with
  | nil => exact .inl ⟨rfl, ⟨m, rfl⟩, rfl⟩
  | cons entry entries ih =>
      rw [List.all_cons, tracedApplyEntries, writes_bind, forget_tracedApplyEntry]
      rcases applyEntry_cases g entry m with
        ⟨happlies, ⟨t, hrun⟩, hwrites⟩ | ⟨hstops, ⟨e, hrun⟩, hwrites⟩
      · rw [List.takeWhile_cons_of_pos happlies, happlies, Bool.true_and, hrun, hwrites]
        simp only [writes_bind, forget_tracedApplyEntries, List.flatMap_cons, List.map_append]
        rcases ih t with ⟨hall, ⟨u, hrest⟩, hrest'⟩ | ⟨hall, ⟨e, u, hrest⟩, hrest'⟩
        · refine .inl ⟨hall, ⟨u, by simp [applyEntries, hrun, hrest]⟩, ?_⟩
          simp [hrest, hrest']
        · refine .inr ⟨hall, ⟨e, u, by simp [applyEntries, hrun, hrest]⟩, ?_⟩
          simp [hrest, hrest']
      · refine .inr ⟨by simp [hstops], ⟨e, m, by simp [applyEntries, hrun]⟩, ?_⟩
        simp [hrun, hwrites, hstops]

/-- The writes of an application, also where it fails. -/
theorem writes_tracedApply (g : RaftGroup) (entries : List Entry) (m : RocksDBStateMachine) :
    (tracedApply g entries).writes m = (issuedByApply g entries).map ([·]) := by
  rw [tracedApply, writes_bind, forget_tracedApplyEntries, issuedByApply]
  rcases applyEntries_cases g entries m with
    ⟨hall, ⟨t, hrun⟩, hwrites⟩ | ⟨hall, ⟨e, t, hrun⟩, hwrites⟩
  · rw [hrun, hwrites, if_pos hall, List.takeWhile_eq_self_iff.mpr (by simpa using hall),
      List.map_append, positionWrite]
    cases entries.getLast? <;> rfl
  · rw [hrun, hwrites, hall]
    simp

/-- An application leaves its writes behind, also where it fails. -/
theorem storage_apply (g : RaftGroup) (entries : List Entry) (m : RocksDBStateMachine) :
    (leaves ((apply g entries).run m)).storage = m.storage.write (issuedByApply g entries) := by
  rw [← forget_tracedApply, ← written_map_singleton, ← writes_tracedApply g entries m]
  exact leaves_of_accounts (accounts_tracedApply g entries) m

theorem issuedByApply_decodable (g : RaftGroup) {entries : List Entry}
    (hentries : ∀ entry ∈ entries, entry.Decodable) :
    issuedByApply g entries = applyWrites g entries := by
  have happlies : ∀ entry ∈ entries, entry.applies g = true := fun entry he =>
    (hentries entry he).applies g
  rw [issuedByApply, if_pos (List.all_eq_true.mpr happlies),
    List.takeWhile_eq_self_iff.mpr happlies, applyWrites]

/-- Applying a batch of decodable entries succeeds and issues its writes. -/
theorem apply_run (g : RaftGroup) {entries : List Entry}
    (hentries : ∀ entry ∈ entries, entry.Decodable) (m : RocksDBStateMachine) :
    ∃ m', (RocksDBStateMachine.apply g entries).run m =
        .ok (entries.map Entry.acknowledged) m' ∧
      m'.storage = m.storage.write (applyWrites g entries) := by
  have hall : entries.all (Entry.applies g) = true :=
    List.all_eq_true.mpr fun entry he => (hentries entry he).applies g
  have hok : ∃ m', (apply g entries).run m = .ok (entries.map Entry.acknowledged) m' := by
    rcases applyEntries_cases g entries m with ⟨-, ⟨t, hrun⟩, -⟩ | ⟨hstops, -⟩
    · rw [RocksDBStateMachine.apply, EStateM.run_bind, hrun]
      cases entries.getLast? <;> exact ⟨_, rfl⟩
    · rw [hall] at hstops
      contradiction
  obtain ⟨m', hrun⟩ := hok
  refine ⟨m', hrun, ?_⟩
  have hstorage := storage_apply g entries m
  rwa [hrun, leaves, issuedByApply_decodable g hentries] at hstorage

/-- The database after a crash in a batch, behind its first writes. -/
def RocksDBStateMachine.crashedIn (g : RaftGroup) (entries : List Entry) (k : Nat)
    (m : RocksDBStateMachine) : Storage :=
  written m.storage (((tracedApply g entries).writes m).take k)

theorem crashedIn_eq (g : RaftGroup) {entries : List Entry}
    (hentries : ∀ entry ∈ entries, entry.Decodable) (k : Nat) (m : RocksDBStateMachine) :
    crashedIn g entries k m = m.storage.write ((applyWrites g entries).take k) := by
  rw [crashedIn, writes_tracedApply, issuedByApply_decodable g hentries, ← List.map_take,
    written_map_singleton]

end Runs

section Crashes

variable [MembershipApi] [Prost LogIdMessage] [Prost MembershipMessage] [Bincode Operation]

omit [Prost LogIdMessage] in
/-- An operation is written to the data alone. -/
theorem entryWrites_normal_cf {g : RaftGroup} {id : LogId} {request : Request}
    {op : BatchOperation} (hop : op ∈ entryWrites g ⟨id, .normal request⟩) :
    g.kvCf = some op.update.1.1 := by
  simp only [entryWrites] at hop
  split at hop
  · rename_i hcf _
    obtain rfl := List.mem_singleton.mp hop
    exact hcf
  · rename_i hcf _
    obtain rfl := List.mem_singleton.mp hop
    exact hcf
  · simp at hop

omit [Prost LogIdMessage] in
/-- An entry is written as the membership or to the data. -/
theorem entryWrites_key {g : RaftGroup} {entry : Entry} {op : BatchOperation}
    (hop : op ∈ entryWrites g entry) :
    op.update.1 = (g.stateCf, membershipKey) ∨ g.kvCf = some op.update.1.1 := by
  obtain ⟨id, payload⟩ := entry
  cases payload with
  | blank => simp [entryWrites] at hop
  | membership membership =>
      obtain rfl := List.mem_singleton.mp hop
      exact Or.inl rfl
  | normal request => exact Or.inr (entryWrites_normal_cf hop)

/-- The state machine does not write to the logs. -/
theorem applyWrites_ne_logCf (g g' : RaftGroup) {entries : List Entry} {op : BatchOperation}
    (hop : op ∈ applyWrites g entries) : op.update.1.1 ≠ g'.logCf := by
  have hstate : g.stateCf ≠ g'.logCf := by cases g <;> cases g' <;> decide
  rcases List.mem_append.mp hop with hop | hop
  · obtain ⟨entry, -, hop⟩ := List.mem_flatMap.mp hop
    rcases entryWrites_key hop with hkey | hcf
    · rw [hkey]
      exact hstate
    · intro heq
      rw [heq] at hcf
      revert hcf
      cases g <;> cases g' <;> decide
  · obtain ⟨entry, -, rfl⟩ := Option.map_eq_some_iff.mp (Option.mem_toList.mp hop)
    exact hstate

/-- The database after crashes in the given numbers of writes of a batch, each followed
by a restart and the batch begun anew. -/
def recover (g : RaftGroup) (entries : List Entry) : Storage → List Nat →
    Except StorageError Storage
  | s, [] => .ok s
  | s, k :: crashes => do
      let t ← (RocksDBStateMachine.crashedIn g entries k (.new s)).reopen
      recover g entries t crashes

/-- A restart after a crash is possible if it was before the batch. -/
theorem exists_recover {g : RaftGroup} {entries : List Entry}
    (hentries : ∀ entry ∈ entries, entry.Decodable) {s u : Storage} (hopen : s.reopen = .ok u)
    (crashes : List Nat) : ∃ t, recover g entries s crashes = .ok t := by
  induction crashes generalizing s u with
  | nil => exact ⟨s, rfl⟩
  | cons k crashes ih =>
      have hlog : ∀ g' : RaftGroup,
          (s.write ((applyWrites g entries).take k)).db g'.logCf = s.db g'.logCf := by
        intro g'
        exact Std.ExtTreeMap.ext_getElem? fun key => Storage.get_write_of_ne
          (fun op hop => applyWrites_ne_logCf g g' (List.mem_of_mem_take hop)) s key
      obtain ⟨t, ht⟩ := exists_reopen_congr hlog ⟨u, hopen⟩
      obtain ⟨v, hv⟩ := exists_reopen_congr (s := s) (t := t)
        (fun g' => by rw [db_of_reopen ht, hlog]) ⟨u, hopen⟩
      obtain ⟨w, hw⟩ := ih hv
      refine ⟨w, ?_⟩
      rw [recover, crashedIn_eq g hentries, RocksDBStateMachine.new, ht]
      exact hw

/-- After any crashes the whole batch overwrites what is there of it. -/
theorem get_write_recover {g : RaftGroup} {entries : List Entry}
    (hentries : ∀ entry ∈ entries, entry.Decodable) {s t : Storage} {crashes : List Nat}
    (hrecover : recover g entries s crashes = .ok t) (cf : ColumnFamily) (key : Bytes) :
    (t.write (applyWrites g entries)).get cf key =
      (s.write (applyWrites g entries)).get cf key := by
  induction crashes generalizing s with
  | nil =>
      cases hrecover
      rfl
  | cons k crashes ih =>
      rw [recover, crashedIn_eq g hentries, RocksDBStateMachine.new] at hrecover
      cases hopen : (s.write ((applyWrites g entries).take k)).reopen with
      | error e =>
          rw [hopen] at hrecover
          contradiction
      | ok u =>
          rw [hopen] at hrecover
          rw [ih hrecover, Storage.get_eq_of_db_eq (Storage.db_write_congr (db_of_reopen hopen) _),
            Storage.get_write_replay (List.take_subset k _)]

/-- For every state machine, batch of decodable entries and crashes in any of its
writes: the restarts are possible if one was before the batch, and applying the batch
again ends in the database of one uninterrupted run. -/
theorem apply_after_crashes (g : RaftGroup) (entries : List Entry)
    (hentries : ∀ entry ∈ entries, entry.Decodable) (m : RocksDBStateMachine)
    (crashes : List Nat) :
    ∃ responses t, (RocksDBStateMachine.apply g entries).run m = .ok responses t ∧
      (∀ s, m.storage.reopen = .ok s → ∃ s', recover g entries m.storage crashes = .ok s') ∧
      ∀ s, recover g entries m.storage crashes = .ok s →
        ∃ u, (RocksDBStateMachine.apply g entries).run (.new s) = .ok responses u ∧
          ∀ cf key, u.storage.get cf key = t.storage.get cf key := by
  obtain ⟨t, hrun, ht⟩ := apply_run g hentries m
  refine ⟨_, t, hrun, fun s hs => exists_recover hentries hs crashes, fun s hs => ?_⟩
  obtain ⟨u, hagain, hu⟩ := apply_run g hentries (.new s)
  refine ⟨u, hagain, fun cf key => ?_⟩
  rw [hu, ht]
  exact get_write_recover hentries hs cf key

end Crashes

namespace Witness

/-- An entry with a serialized operation. -/
def operationEntry (term nodeId index : UInt64) (op : Operation) : Entry :=
  ⟨⟨⟨term, nodeId⟩, index⟩, .normal ⟨op.serialize⟩⟩

/-- A key is set, deleted and set again around a change of membership. -/
def applyBatch : List Entry :=
  [operationEntry 1 1 1 (.set (ascii "a") (ascii "1")),
    ⟨⟨⟨1, 1⟩, 2⟩, .membership .default⟩,
    operationEntry 1 1 3 (.del (ascii "a")), ⟨⟨⟨1, 1⟩, 4⟩, .blank⟩,
    operationEntry 1 1 5 (.set (ascii "a") (ascii "2"))]

theorem applyBatch_decodable : ∀ entry ∈ applyBatch, entry.Decodable := by
  decide

/-- Two crashes, after two and after three of the five writes. -/
theorem applyBatch_after_two_crashes :
    (∀ entry ∈ applyBatch, entry.Decodable) ∧
      ∃ responses t,
        (RocksDBStateMachine.apply .dataRaft applyBatch).run (.new .new) = .ok responses t ∧
          ∃ s u, recover .dataRaft applyBatch .new [2, 3] = .ok s ∧
            (RocksDBStateMachine.apply .dataRaft applyBatch).run (.new s) = .ok responses u ∧
            ∀ cf key, u.storage.get cf key = t.storage.get cf key := by
  obtain ⟨responses, t, hrun, hrecover, hsame⟩ :=
    apply_after_crashes .dataRaft applyBatch applyBatch_decodable (.new .new) [2, 3]
  obtain ⟨s₀, hs₀, -⟩ := reopen_of_openable (s := .new) (fun g => logKeysOnly_new g.logCf)
    fun g => Or.inr fun key => Storage.get_new g.logCf key
  obtain ⟨s, hs⟩ := hrecover s₀ hs₀
  obtain ⟨u, hagain, heq⟩ := hsame s hs
  exact ⟨applyBatch_decodable, responses, t, hrun, s, u, hs, hagain, heq⟩

end Witness

end Seshat
