/-
The calls that write to the database, with a report of their writes.  Each is the call
itself with every put, deletion and batch reported where RocksDB is handed it, so that the
result of the call and the points at which a crash can cut it off are read off one form.
-/
import Seshat.Lib.Traced
import Seshat.Storage.Purge
import Seshat.Storage.Writes

namespace Seshat

open Decimal Tracing Traced

/-- What RocksDB keeps on disk. -/
abbrev Files := ColumnFamily → Std.ExtTreeMap Bytes Bytes

/-- A database that is not in use: no index is cached. -/
def Storage.closed (files : Files) : Storage := ⟨files, fun _ => none⟩

/-- The files after a write. -/
def writeFiles (files : Files) (batch : WriteBatch) : Files :=
  ((Storage.closed files).write batch).db

/-- The database after some writes. -/
def written (s : Storage) (writes : List WriteBatch) : Storage :=
  writes.foldl Storage.write s

theorem db_write (s : Storage) (batch : WriteBatch) :
    (s.write batch).db = writeFiles s.db batch :=
  Storage.db_write_congr (s := .closed s.db) (t := s) rfl batch

theorem db_written (s : Storage) (writes : List WriteBatch) :
    (written s writes).db = writes.foldl writeFiles s.db :=
  (List.foldl_hom Storage.db fun s batch => (db_write s batch).symm).symm

theorem written_map_singleton (s : Storage) (ops : WriteBatch) :
    written s (ops.map ([·])) = s.write ops := by
  rw [written, List.foldl_map]
  rfl

/-- The deletions of a truncation. -/
def truncateBatch (cf : ColumnFamily) (last truncateIndex : UInt64) : WriteBatch :=
  (if truncateIndex > last then inclusiveRange 1 last
    else exclusiveRange 1 truncateIndex).map fun index => .delete cf (formatLogKey index)

/-- A computation that reports its writes to the database. -/
abbrev TracedM (ε σ α : Type) := Traced WriteBatch ε σ α

/-- The report accounts for the files. -/
abbrev AccountsFiles {ε σ α : Type} (files : σ → Files) (x : TracedM ε σ α) : Prop :=
  Accounts files writeFiles x

/-- What accounts for the database accounts for its files. -/
theorem AccountsFiles.of_storage {ε σ α : Type} {part : σ → Storage} {x : TracedM ε σ α}
    (h : Accounts part Storage.write x) : AccountsFiles (fun s => (part s).db) x :=
  h.map Storage.db fun s batch => (db_write s batch).symm

/-- What a call leaves is what its writes leave. -/
theorem leaves_of_accounts {ε σ δ α : Type} {part : σ → δ} {write : δ → WriteBatch → δ}
    {x : TracedM ε σ α} (h : Accounts part write x) (s : σ) :
    part (leaves (x.forget.run s)) = (x.writes s).foldl write (part s) := by
  cases hrun : x.forget.run s with
  | ok a t => exact h.ok hrun
  | error e t => exact h.error hrun

section Database

def tracedPut (cf : ColumnFamily) (key value : Bytes) : TracedM StorageError Storage Unit :=
  issue [.put cf key value] fun s => s.apply (.put cf key value)

def tracedDelete (cf : ColumnFamily) (key : Bytes) : TracedM StorageError Storage Unit :=
  issue [.delete cf key] fun s => s.apply (.delete cf key)

def tracedBatchWrite (batch : WriteBatch) : TracedM StorageError Storage Unit := do
  if batch.isEmpty then
    return
  if maxBatchOperations < batch.length then
    quiet (throw (.batchTooLarge batch.length maxBatchOperations))
  issue batch fun s => s.write batch

def tracedTruncateLogBefore (cf : ColumnFamily) (truncateIndex : UInt64) :
    TracedM StorageError Storage Unit := do
  if !cf.isLogCf then
    quiet (throw (.invalidColumnFamily cf.asStr
      (ascii "truncate_log_before only works on log CFs (SystemRaftLog, DataRaftLog)")))
  match ← quiet (getCachedLastLogIndex cf) with
  | none => return
  | some last =>
      issue (truncateBatch cf last truncateIndex) fun s =>
        s.write (truncateBatch cf last truncateIndex)
      quiet (modify fun s => s.setCache cf none)

def tracedMapErr {α : Type} (subject : ErrorSubject) (verb : ErrorVerb)
    (op : TracedM StorageError Storage α) : TracedM Failure Storage α :=
  op.adaptExcept fun e => ioError subject verb e.display

@[simp]
theorem forget_tracedPut (cf : ColumnFamily) (key value : Bytes) :
    (tracedPut cf key value).forget = put cf key value := rfl

@[simp]
theorem forget_tracedDelete (cf : ColumnFamily) (key : Bytes) :
    (tracedDelete cf key).forget = delete cf key := rfl

@[simp]
theorem forget_tracedMapErr {α : Type} (subject : ErrorSubject) (verb : ErrorVerb)
    (op : TracedM StorageError Storage α) :
    (tracedMapErr subject verb op).forget = mapErr subject verb op.forget := rfl

@[simp]
theorem forget_tracedBatchWrite (batch : WriteBatch) :
    (tracedBatchWrite batch).forget = batchWrite batch := by
  rw [tracedBatchWrite, batchWrite]
  split
  · rfl
  · split
    · simp
    · simp

@[simp]
theorem forget_tracedTruncateLogBefore (cf : ColumnFamily) (truncateIndex : UInt64) :
    (tracedTruncateLogBefore cf truncateIndex).forget = truncateLogBefore cf truncateIndex := by
  rw [tracedTruncateLogBefore, truncateLogBefore]
  split
  · rfl
  · rw [forget_bind, forget_quiet]
    exact bind_congr fun last => by cases last <;> rfl

theorem accounts_tracedPut (cf : ColumnFamily) (key value : Bytes) :
    Accounts id Storage.write (tracedPut cf key value) :=
  accounts_issue fun _ => rfl

theorem accounts_tracedDelete (cf : ColumnFamily) (key : Bytes) :
    Accounts id Storage.write (tracedDelete cf key) :=
  accounts_issue fun _ => rfl

theorem accounts_tracedBatchWrite (batch : WriteBatch) :
    Accounts id Storage.write (tracedBatchWrite batch) := by
  have hissue : Accounts id Storage.write
      (issue batch fun s => s.write batch : TracedM StorageError Storage Unit) :=
    accounts_issue fun _ => rfl
  rw [tracedBatchWrite]
  split
  · exact accounts_pure _
  · split
    · exact (accounts_quiet (Footprint.avoids_throw _)).bind fun _ => hissue
    · exact hissue

/-- The last index is looked up without a write. -/
theorem db_getCachedLastLogIndex (cf : ColumnFamily) :
    Footprint.Avoids Storage.db (getCachedLastLogIndex cf) := by
  rw [getCachedLastLogIndex]
  refine Footprint.avoids_get.bind fun s => ?_
  cases s.lastLogIndexCache cf with
  | some index => exact Footprint.avoids_pure _
  | none =>
      refine (avoids_getLastLogIndexFromDb _ cf).bind fun index => ?_
      cases index with
      | none => exact Footprint.avoids_pure _
      | some last =>
          have hcache : Footprint.Avoids Storage.db (updateCachedLastLogIndex cf last) :=
            Footprint.avoids_modify fun _ => rfl
          exact hcache.bind fun _ => Footprint.avoids_pure _

theorem accounts_tracedTruncateLogBefore (cf : ColumnFamily) (truncateIndex : UInt64) :
    AccountsFiles Storage.db (tracedTruncateLogBefore cf truncateIndex) := by
  have hcut : ∀ last : Option UInt64, AccountsFiles Storage.db (match last with
      | none => pure ()
      | some last => do
          issue (truncateBatch cf last truncateIndex) fun s =>
            s.write (truncateBatch cf last truncateIndex)
          quiet (modify fun s => s.setCache cf none) : TracedM StorageError Storage Unit) := by
    intro last
    cases last with
    | none => exact accounts_pure _
    | some last =>
        exact (accounts_issue fun s => db_write s _).bind fun _ =>
          accounts_quiet (Footprint.avoids_modify fun _ => rfl)
  have hrest := (accounts_quiet (db_getCachedLastLogIndex cf)).bind hcut
  rw [tracedTruncateLogBefore]
  split
  · exact (accounts_quiet (Footprint.avoids_throw _)).bind fun _ => hrest
  · exact hrest

theorem tracedBatchWrite_eq_issue {batch : WriteBatch} (hne : batch ≠ [])
    (hlength : batch.length ≤ maxBatchOperations) :
    tracedBatchWrite batch = issue batch fun s => s.write batch := by
  rw [tracedBatchWrite, if_neg (by simpa using hne), if_neg (Nat.not_lt.mpr hlength)]

theorem tracedBatchWrite_tooLarge {batch : WriteBatch}
    (hlength : maxBatchOperations < batch.length) (s : Storage) :
    (tracedBatchWrite batch).writes s = [] := by
  rw [tracedBatchWrite]
  split
  · rfl
  · rfl

/-- A truncation deletes its entries if the last index could be found. -/
theorem writes_tracedTruncateLogBefore {cf : ColumnFamily} (hcf : cf.isLogCf = true)
    (truncateIndex : UInt64) (s : Storage) :
    (tracedTruncateLogBefore cf truncateIndex).writes s =
      match returned ((getCachedLastLogIndex cf).run s) with
      | .ok (some last) => [truncateBatch cf last truncateIndex]
      | _ => [] := by
  rw [tracedTruncateLogBefore, if_neg (by simp [hcf])]
  cases hrun : (getCachedLastLogIndex cf).run s with
  | ok last t =>
      rw [writes_bind_ok (x := quiet (getCachedLastLogIndex cf)) hrun]
      cases last <;> rfl
  | error e t =>
      rw [writes_bind_error (x := quiet (getCachedLastLogIndex cf)) hrun]
      rfl

end Database

section Log

variable [MembershipApi] [Prost LogIdMessage] [Prost MembershipMessage]

namespace RocksDBLogStorage

def tracedAppend (g : RaftGroup) (entries : List Entry) : TracedM Failure Storage Unit := do
  tracedMapErr .logs .write (tracedBatchWrite (appendBatch g entries))
  if let some entry := entries.getLast? then
    tracedMapErr (.log entry.logId) .write
      (tracedPut g.logCf lastLogIdKey (logIdRecord entry.logId))
    quiet (ignore (updateCachedLastLogIndex g.logCf entry.logId.index))

def tracedTruncate (g : RaftGroup) (id : LogId) : TracedM Failure Storage Unit :=
  tracedMapErr .store .write (tracedTruncateLogBefore g.logCf id.index)

def tracedPurge (g : RaftGroup) (id : LogId) : TracedM Failure Storage Unit := do
  if 2 ^ 64 ≤ id.index.toNat + 1 then
    quiet (throw .panic)
  tracedMapErr .store .write (tracedTruncateLogBefore g.logCf (id.index + 1))
  tracedMapErr .store .write (tracedPut g.logCf lastPurgedLogIdKey (logIdRecord id))

end RocksDBLogStorage

/-- A call with its writes. -/
def LogOp.traced (g : RaftGroup) : LogOp → TracedM Failure Storage Unit
  | append entries => RocksDBLogStorage.tracedAppend g entries
  | truncate id => RocksDBLogStorage.tracedTruncate g id
  | purge id => RocksDBLogStorage.tracedPurge g id

@[simp]
theorem LogOp.forget_traced (g : RaftGroup) (op : LogOp) : (op.traced g).forget = op.call g := by
  cases op with
  | append entries =>
      simp only [traced, RocksDBLogStorage.tracedAppend, forget_bind, forget_tracedMapErr,
        forget_tracedBatchWrite, call, RocksDBLogStorage.append]
      refine bind_congr fun _ => ?_
      cases entries.getLast? <;> rfl
  | truncate id =>
      simp only [traced, RocksDBLogStorage.tracedTruncate, forget_tracedMapErr,
        forget_tracedTruncateLogBefore, call, RocksDBLogStorage.truncate]
  | purge id =>
      simp only [traced, RocksDBLogStorage.tracedPurge, call, RocksDBLogStorage.purge]
      split
      · simp only [forget_bind, forget_quiet, forget_tracedMapErr, forget_tracedTruncateLogBefore]
        rfl
      · simp only [forget_bind, forget_tracedMapErr, forget_tracedTruncateLogBefore]
        rfl

theorem LogOp.accounts_traced (g : RaftGroup) (op : LogOp) :
    AccountsFiles Storage.db (op.traced g) := by
  have hput : ∀ (subject : ErrorSubject) (key value : Bytes), AccountsFiles Storage.db
      (tracedMapErr subject .write (tracedPut g.logCf key value)) := fun subject key value =>
    (AccountsFiles.of_storage (accounts_tracedPut g.logCf key value)).adaptExcept _
  have htruncate : ∀ index, AccountsFiles Storage.db
      (tracedMapErr .store .write (tracedTruncateLogBefore g.logCf index)) := fun index =>
    (accounts_tracedTruncateLogBefore g.logCf index).adaptExcept _
  cases op with
  | append entries =>
      refine Accounts.bind ((AccountsFiles.of_storage (accounts_tracedBatchWrite _)).adaptExcept _)
        fun _ => ?_
      cases entries.getLast? with
      | none => exact accounts_pure _
      | some entry =>
          have hcache : Footprint.Avoids Storage.db
              (updateCachedLastLogIndex g.logCf entry.logId.index) :=
            Footprint.avoids_modify fun _ => rfl
          exact (hput _ _ _).bind fun _ => accounts_quiet (avoids_ignore hcache)
  | truncate id => exact htruncate id.index
  | purge id =>
      rw [traced, RocksDBLogStorage.tracedPurge]
      split
      · exact (accounts_quiet (Footprint.avoids_throw _)).bind fun _ =>
          (htruncate _).bind fun _ => hput _ _ _
      · exact (htruncate _).bind fun _ => hput _ _ _

/-- The writes a call issues, in order. -/
def LogOp.writes (g : RaftGroup) (s : Storage) (op : LogOp) : List WriteBatch :=
  (op.traced g).writes s

/-- A call that is not interrupted leaves all its writes behind. -/
theorem db_logOp (g : RaftGroup) (op : LogOp) (s : Storage) :
    (leaves ((op.call g).run s)).db = (written s (op.writes g s)).db := by
  rw [← op.forget_traced g, db_written]
  exact leaves_of_accounts (op.accounts_traced g) s

theorem writes_append_tooLarge {g : RaftGroup} {entries : List Entry}
    (hlength : maxBatchOperations < entries.length) (s : Storage) :
    (LogOp.append entries).writes g s = [] := by
  have hbatch : maxBatchOperations < (RocksDBLogStorage.appendBatch g entries).length := by
    rwa [RocksDBLogStorage.appendBatch, List.length_map]
  have hne : entries ≠ [] := by
    rintro rfl
    exact absurd hlength (by decide)
  have hfails : (batchWrite (RocksDBLogStorage.appendBatch g entries)).run s =
      .error (.batchTooLarge (RocksDBLogStorage.appendBatch g entries).length
        maxBatchOperations) s := by
    simp [batchWrite, RocksDBLogStorage.appendBatch, hne, hlength]
  rw [LogOp.writes, LogOp.traced, RocksDBLogStorage.tracedAppend, writes_bind, forget_tracedMapErr,
    forget_tracedBatchWrite, mapErr_run, hfails]
  exact tracedBatchWrite_tooLarge hbatch s

theorem writes_append {g : RaftGroup} {entries : List Entry}
    (hlength : entries.length ≤ maxBatchOperations) {last : Entry}
    (hlast : entries.getLast? = some last) (s : Storage) :
    (LogOp.append entries).writes g s =
      [RocksDBLogStorage.appendBatch g entries,
        [.put g.logCf lastLogIdKey (logIdRecord last.logId)]] := by
  have hne : RocksDBLogStorage.appendBatch g entries ≠ [] := by
    intro hnil
    rw [List.map_eq_nil_iff.mp hnil] at hlast
    contradiction
  rw [LogOp.writes, LogOp.traced, RocksDBLogStorage.tracedAppend,
    tracedBatchWrite_eq_issue hne (by rwa [RocksDBLogStorage.appendBatch, List.length_map]), hlast]
  rfl

theorem writes_append_nil (g : RaftGroup) (s : Storage) : (LogOp.append []).writes g s = [] := rfl

theorem writes_truncate (g : RaftGroup) (id : LogId) (s : Storage) :
    (LogOp.truncate id).writes g s =
      match returned ((getCachedLastLogIndex g.logCf).run s) with
      | .ok (some last) => [truncateBatch g.logCf last id.index]
      | _ => [] :=
  writes_tracedTruncateLogBefore g.logCf_isLogCf id.index s

theorem writes_purge_overflow {g : RaftGroup} {id : LogId}
    (hid : ¬ id.index.toNat + 1 < 2 ^ 64) (s : Storage) : (LogOp.purge id).writes g s = [] := by
  rw [LogOp.writes, LogOp.traced, RocksDBLogStorage.tracedPurge, if_pos (Nat.not_lt.mp hid)]
  rfl

/-- A purge records its id unless the truncation fails. -/
theorem writes_purge {g : RaftGroup} {id : LogId} (hid : id.index.toNat + 1 < 2 ^ 64)
    (s : Storage) :
    (LogOp.purge id).writes g s =
      match returned ((getCachedLastLogIndex g.logCf).run s) with
      | .ok (some last) =>
          [truncateBatch g.logCf last (id.index + 1),
            [.put g.logCf lastPurgedLogIdKey (logIdRecord id)]]
      | .ok none => [[.put g.logCf lastPurgedLogIdKey (logIdRecord id)]]
      | .error _ => [] := by
  have htruncate : (tracedMapErr .store .write
      (tracedTruncateLogBefore g.logCf (id.index + 1))).writes s = _ :=
    writes_tracedTruncateLogBefore g.logCf_isLogCf (id.index + 1) s
  rw [LogOp.writes, LogOp.traced, RocksDBLogStorage.tracedPurge, if_neg (Nat.not_le.mpr hid),
    writes_bind, htruncate, forget_tracedMapErr, forget_tracedTruncateLogBefore, mapErr_run]
  cases hrun : (getCachedLastLogIndex g.logCf).run s with
  | error e t => rw [truncateLogBefore_run_error g.logCf_isLogCf hrun]; rfl
  | ok last t =>
      cases last with
      | none => rw [truncateLogBefore_run_none g.logCf_isLogCf hrun]; rfl
      | some last => rw [truncateLogBefore_run_some g.logCf_isLogCf hrun]; rfl

end Log

end Seshat
