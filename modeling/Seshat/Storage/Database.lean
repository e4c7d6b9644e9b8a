/-
The database: an ordered byte map per column family with a cache of the last
log index.  An operation leaves its state behind even when it fails.  Reads and
writes of the map itself do not fail.
-/
import Seshat.Lib.Footprint
import Seshat.Lib.Utf8
import Seshat.Storage.Types

namespace Seshat

open Decimal Utf8

structure Storage where
  db : ColumnFamily → Std.ExtTreeMap Bytes Bytes
  lastLogIndexCache : ColumnFamily → Option UInt64

abbrev StorageM := EStateM StorageError Storage

/-- What a call returned, without the state it left. -/
def returned {ε σ α : Type} : EStateM.Result ε σ α → Except ε α
  | .ok a _ => .ok a
  | .error e _ => .error e

/-- The state a call left, whether or not it succeeded. -/
def leaves {ε σ α : Type} : EStateM.Result ε σ α → σ
  | .ok _ t => t
  | .error _ t => t

theorem leaves_of_avoids {ε σ α τ : Type} {part : σ → τ} {op : EStateM ε σ α}
    (h : Footprint.Avoids part op) (s : σ) : part (leaves (op.run s)) = part s := by
  cases hrun : op.run s with
  | ok a t => exact h.ok hrun
  | error e t => exact h.error hrun

/-- `log:` and the index in twenty digits. -/
def formatLogKey (index : UInt64) : Bytes :=
  ascii "log:" ++ zeroPad 20 (text index.toNat)

/-- The indices `start..=last` of a loop. -/
def inclusiveRange (start last : UInt64) : List UInt64 :=
  (List.range' start.toNat (last.toNat + 1 - start.toNat)).map UInt64.ofNat

/-- The indices `start..stop` of a loop. -/
def exclusiveRange (start stop : UInt64) : List UInt64 :=
  (List.range' start.toNat (stop.toNat - start.toNat)).map UInt64.ofNat

inductive BatchOperation where
  | put (cf : ColumnFamily) (key value : Bytes)
  | delete (cf : ColumnFamily) (key : Bytes)

abbrev WriteBatch := List BatchOperation

namespace Storage

/-- A new database: every column family and the cache are empty. -/
def new : Storage where
  db _ := ∅
  lastLogIndexCache _ := none

def setCf (s : Storage) (cf : ColumnFamily) (map : Std.ExtTreeMap Bytes Bytes) :
    Storage :=
  { s with db := Function.update s.db cf map }

def setCache (s : Storage) (cf : ColumnFamily) (index : Option UInt64) : Storage :=
  { s with lastLogIndexCache := Function.update s.lastLogIndexCache cf index }

def get (s : Storage) (cf : ColumnFamily) (key : Bytes) : Option Bytes :=
  (s.db cf)[key]?

/-- `seek_to_last` and the key found there. -/
def lastKey (s : Storage) (cf : ColumnFamily) : Option Bytes :=
  (s.db cf).toList.getLast?.map Prod.fst

/-- The pairs that `step_forward` yields after a seek to `start`. -/
def iteratorFrom (s : Storage) (cf : ColumnFamily) (start : Bytes) :
    List (Bytes × Bytes) :=
  (s.db cf).toList.dropWhile fun pair => compare pair.1 start == .lt

/-- One operation of a batch. -/
def apply (s : Storage) : BatchOperation → Storage
  | .put cf key value => s.setCf cf ((s.db cf).insert key value)
  | .delete cf key => s.setCf cf ((s.db cf).erase key)

/-- RocksDB's atomic write. -/
def write (s : Storage) (batch : WriteBatch) : Storage :=
  batch.foldl apply s

end Storage

def put (cf : ColumnFamily) (key value : Bytes) : StorageM Unit :=
  modify fun s => s.apply (.put cf key value)

/-- Deleting a missing key is no error. -/
def delete (cf : ColumnFamily) (key : Bytes) : StorageM Unit :=
  modify fun s => s.apply (.delete cf key)

def maxBatchOperations : Nat := 100000

/-- An empty batch writes nothing; one over the limit is rejected whole. -/
def batchWrite (batch : WriteBatch) : StorageM Unit := do
  if batch.isEmpty then
    return
  if maxBatchOperations < batch.length then
    throw (.batchTooLarge batch.length maxBatchOperations)
  modify fun s => s.write batch

/-- The index in the last key of a log column family. -/
def getLastLogIndexFromDb (cf : ColumnFamily) : StorageM (Option UInt64) := do
  if !cf.isLogCf then
    throw (.invalidColumnFamily cf.asStr
      (ascii "get_last_log_index_from_db only works on log CFs"))
  match (← MonadState.get).lastKey cf with
  | none => return none
  | some key =>
      match fromUtf8 key with
      | none => throw (.corruptedData cf.asStr key (ascii "Key is not valid UTF-8"))
      | some keyStr =>
          if !(ascii "log:").isPrefixOf keyStr then
            throw (.corruptedData cf.asStr key
              (ascii "Key does not start with 'log:': " ++ keyStr))
          match u64FromStr (keyStr.drop 4) with
          | none =>
              throw (.corruptedData cf.asStr key
                (ascii "Cannot parse log index from: " ++ keyStr.drop 4))
          | some index => return some index

def updateCachedLastLogIndex (cf : ColumnFamily) (newIndex : UInt64) : StorageM Unit :=
  modify fun s => s.setCache cf (some newIndex)

/-- Answer from the cache; on a miss ask the database and remember an index. -/
def getCachedLastLogIndex (cf : ColumnFamily) : StorageM (Option UInt64) := do
  match (← MonadState.get).lastLogIndexCache cf with
  | some index => return some index
  | none =>
      let index ← getLastLogIndexFromDb cf
      if let some idx := index then
        updateCachedLastLogIndex cf idx
      return index

def getLastLogIndex (cf : ColumnFamily) : StorageM (Option UInt64) :=
  getCachedLastLogIndex cf

/-- Both log column families are read for their last index. -/
def warmUpIndexCache : StorageM Unit := do
  for cf in [ColumnFamily.systemRaftLog, ColumnFamily.dataRaftLog] do
    if let some lastIndex ← getLastLogIndexFromDb cf then
      updateCachedLastLogIndex cf lastIndex

/-- `Storage::new` on the files of a closed or crashed store: what was written is
there, the cache is built anew. -/
def Storage.reopen (s : Storage) : Except StorageError Storage :=
  match warmUpIndexCache.run { s with lastLogIndexCache := fun _ => none } with
  | .ok _ t => .ok t
  | .error e _ => .error e

/-- Delete the entries below `truncateIndex`, or the whole log when it lies
behind the last one.  Deletion starts at index 1. -/
def truncateLogBefore (cf : ColumnFamily) (truncateIndex : UInt64) : StorageM Unit := do
  if !cf.isLogCf then
    throw (.invalidColumnFamily cf.asStr
      (ascii "truncate_log_before only works on log CFs (SystemRaftLog, DataRaftLog)"))
  match ← getCachedLastLogIndex cf with
  | none => return
  | some last =>
      let indices :=
        if truncateIndex > last then inclusiveRange 1 last
        else exclusiveRange 1 truncateIndex
      modify fun s => s.write (indices.map fun index => .delete cf (formatLogKey index))
      modify fun s => s.setCache cf none

end Seshat
