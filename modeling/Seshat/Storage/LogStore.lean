/-
The RocksDB log store of one Raft group.  An entry is stored as its payload
under its index; its term and node are written only in the record of the last
log id.  Both readers rebuild log ids from that record.
-/
import Seshat.Storage.Database

namespace Seshat

open Decimal Utf8

abbrev RaftM := EStateM Failure Storage

def lastLogIdKey : Bytes := ascii "__last_log_id"
def lastPurgedLogIdKey : Bytes := ascii "__last_purged_log_id"

def entryTypeBlank : UInt8 := 0x00
def entryTypeNormal : UInt8 := 0x01
def entryTypeMembership : UInt8 := 0x02

/-- `StorageError::IO` about `subject`. -/
def ioError (subject : ErrorSubject) (verb : ErrorVerb) (source : Bytes) : Failure :=
  .io ⟨subject, verb, source⟩

/-- A storage operation with its error wrapped for openraft. -/
def mapErr {α : Type} (subject : ErrorSubject) (verb : ErrorVerb) (op : StorageM α) :
    RaftM α :=
  op.adaptExcept fun e => ioError subject verb e.display

/-- A storage operation whose result is not looked at. -/
def ignore (op : StorageM Unit) : RaftM Unit := fun s =>
  match op s with
  | .ok _ s => .ok () s
  | .error _ s => .ok () s

@[simp]
theorem mapErr_run {α : Type} (subject : ErrorSubject) (verb : ErrorVerb)
    (op : StorageM α) (s : Storage) :
    (mapErr subject verb op).run s =
      match op.run s with
      | .ok a t => .ok a t
      | .error e t => .error (ioError subject verb e.display) t := by
  rw [mapErr, EStateM.run_adaptExcept]
  cases op.run s <;> rfl

@[simp]
theorem ignore_run (op : StorageM Unit) (s : Storage) :
    (ignore op).run s =
      match op.run s with
      | .ok _ t => .ok () t
      | .error _ t => .ok () t := rfl

variable [MembershipApi] [Prost LogIdMessage] [Prost MembershipMessage]

/-- Type marker and payload bytes of an entry. -/
def serializeEntryPayload (payload : EntryPayload) (id : LogId) : Bytes :=
  match payload with
  | .normal req => entryTypeNormal :: req.operationBytes
  | .blank => [entryTypeBlank]
  | .membership m =>
      entryTypeMembership ::
        Prost.encodeToVec (MembershipMessage.fromStoredMembership ⟨some id, m⟩)

/-- Empty data and unknown markers are read as a blank payload. -/
def deserializeEntryPayload (data : Bytes) : Except Failure EntryPayload :=
  match data with
  | [] => .ok .blank
  | marker :: payloadData =>
      if marker = entryTypeBlank then .ok .blank
      else if marker = entryTypeNormal then .ok (.normal ⟨payloadData⟩)
      else if marker = entryTypeMembership then
        match Prost.decode payloadData with
        | .error e => .error (ioError (.log LogId.default) .read e)
        | .ok (msg : MembershipMessage) => .ok (.membership msg.toMembership.membership)
      else .ok .blank

def parseLogKey (key : Bytes) : Option UInt64 := do
  let keyStr ← fromUtf8 key
  if !(ascii "log:").isPrefixOf keyStr then
    none
  else
    u64FromStr (keyStr.drop 4)

def saveLogIdMetadata (cf : ColumnFamily) (id : LogId) : StorageM Unit :=
  put cf lastLogIdKey (Prost.encodeToVec (LogIdMessage.fromLogId id))

def saveLastPurgedLogId (cf : ColumnFamily) (id : LogId) : StorageM Unit :=
  put cf lastPurgedLogIdKey (Prost.encodeToVec (LogIdMessage.fromLogId id))

/-- The log id a metadata record holds. -/
def decodeLogId (data : Bytes) : Except StorageError LogId :=
  match Prost.decode data with
  | .error e => .error (.protobufDecode e)
  | .ok (msg : LogIdMessage) => .ok msg.toLogId

/-- Fall back to the last key, with neither term nor node. -/
def findLastLogEntry (s : Storage) (cf : ColumnFamily) : Option LogId := do
  let key ← s.lastKey cf
  let keyStr ← fromUtf8 key
  if (ascii "log:").isPrefixOf keyStr then
    let index ← u64FromStr (keyStr.drop 4)
    return ⟨⟨0, 0⟩, index⟩
  else
    none

def getLastLogId (s : Storage) (cf : ColumnFamily) : Except StorageError (Option LogId) :=
  match s.get cf lastLogIdKey with
  | some data => some <$> decodeLogId data
  | none => .ok (findLastLogEntry s cf)

def getLastPurgedLogId (s : Storage) (cf : ColumnFamily) :
    Except StorageError (Option LogId) :=
  match s.get cf lastPurgedLogIdKey with
  | some data => some <$> decodeLogId data
  | none => .ok none

/-- The reader's own copy has no fallback. -/
def readerGetLastLogId (s : Storage) (cf : ColumnFamily) :
    Except StorageError (Option LogId) :=
  match s.get cf lastLogIdKey with
  | some data => some <$> decodeLogId data
  | none => .ok none

inductive Bound where
  | included (n : UInt64)
  | excluded (n : UInt64)
  | unbounded
deriving DecidableEq, Repr

/-- A range of log indices, as its two bounds. -/
structure RangeBounds where
  startBound : Bound
  endBound : Bound
deriving DecidableEq, Repr

/-- The range `lo..=hi`. -/
def RangeBounds.inclusive (lo hi : UInt64) : RangeBounds :=
  ⟨.included lo, .included hi⟩

def RangeBounds.start (range : RangeBounds) : Except Failure UInt64 :=
  match range.startBound with
  | .included n => .ok n
  | .excluded n => if n.toNat + 1 < 2 ^ 64 then .ok (n + 1) else .error .panic
  | .unbounded => .ok 1

def RangeBounds.last (range : RangeBounds) : Except Failure UInt64 :=
  match range.endBound with
  | .included n => .ok n
  | .excluded n => if 1 ≤ n.toNat then .ok (n - 1) else .error .panic
  | .unbounded => .ok (UInt64.ofNat (2 ^ 64 - 1))

/-- The log id given to an entry: up to the last known index every entry gets
the leader of the last one. -/
def entryLogId (lastLogId : Option LogId) (index : UInt64) : LogId :=
  match lastLogId with
  | some last => if index ≤ last.index then ⟨last.leaderId, index⟩ else ⟨⟨0, 0⟩, index⟩
  | none => ⟨⟨0, 0⟩, index⟩

/-- `Result::ok` and `Option::flatten`. -/
def okFlatten {ε α : Type} : Except ε (Option α) → Option α
  | .ok value => value
  | .error _ => none

/-- The loop of the storage: one lookup per index, missing keys skipped. -/
def lookupEntries (s : Storage) (cf : ColumnFamily) (lastLogId : Option LogId) :
    List UInt64 → Except Failure (List Entry)
  | [] => .ok []
  | index :: indices =>
      match s.get cf (formatLogKey index) with
      | none => lookupEntries s cf lastLogId indices
      | some value => do
          let payload ← deserializeEntryPayload value
          let entries ← lookupEntries s cf lastLogId indices
          return ⟨entryLogId lastLogId index, payload⟩ :: entries

/-- The loop of the reader: the scan ends at the first index past `last` and
skips keys that are no log keys. -/
def scanEntries (lastLogId : Option LogId) (last : UInt64) :
    List (Bytes × Bytes) → Except Failure (List Entry)
  | [] => .ok []
  | (key, value) :: pairs =>
      match parseLogKey key with
      | none => scanEntries lastLogId last pairs
      | some index =>
          if index > last then .ok []
          else do
            let payload ← deserializeEntryPayload value
            let entries ← scanEntries lastLogId last pairs
            return ⟨entryLogId lastLogId index, payload⟩ :: entries

namespace RocksDBLogStorage

def tryGetLogEntries (g : RaftGroup) (s : Storage) (range : RangeBounds) :
    Except Failure (List Entry) := do
  let start ← range.start
  let last ← range.last
  let lastLogId := okFlatten (getLastLogId s g.logCf)
  lookupEntries s g.logCf lastLogId (inclusiveRange start last)

end RocksDBLogStorage

namespace RocksDBLogReader

def tryGetLogEntries (g : RaftGroup) (s : Storage) (range : RangeBounds) :
    Except Failure (List Entry) := do
  let start ← range.start
  let last ← range.last
  let lastLogId := okFlatten (readerGetLastLogId s g.logCf)
  scanEntries lastLogId last (s.iteratorFrom g.logCf (formatLogKey start))

end RocksDBLogReader

/-- openraft's `LogState`. -/
structure LogState where
  lastPurgedLogId : Option LogId
  lastLogId : Option LogId
deriving DecidableEq, Repr

namespace RocksDBLogStorage

def getLogState (g : RaftGroup) (s : Storage) : Except Failure LogState := do
  let wrap := fun (e : StorageError) => ioError .store .read e.display
  let lastLogId ← (getLastLogId s g.logCf).mapError wrap
  let lastPurgedLogId ← (getLastPurgedLogId s g.logCf).mapError wrap
  return { lastPurgedLogId, lastLogId }

/-- The write batch of an append. -/
def appendBatch (g : RaftGroup) (entries : List Entry) : WriteBatch :=
  entries.map fun entry =>
    .put g.logCf (formatLogKey entry.logId.index)
      (serializeEntryPayload entry.payload entry.logId)

/-- The batch is written at once, then the record of the last log id, then the
cache.  The flush callback is told the same outcome. -/
def append (g : RaftGroup) (entries : List Entry) : RaftM Unit := do
  mapErr .logs .write (batchWrite (appendBatch g entries))
  if let some entry := entries.getLast? then
    mapErr (.log entry.logId) .write (saveLogIdMetadata g.logCf entry.logId)
    ignore (updateCachedLastLogIndex g.logCf entry.logId.index)

def truncate (g : RaftGroup) (id : LogId) : RaftM Unit :=
  mapErr .store .write (truncateLogBefore g.logCf id.index)

/-- Purge is essentially truncate, one index further, and remembers its id. -/
def purge (g : RaftGroup) (id : LogId) : RaftM Unit := do
  if 2 ^ 64 ≤ id.index.toNat + 1 then
    throw .panic
  mapErr .store .write (truncateLogBefore g.logCf (id.index + 1))
  mapErr .store .write (saveLastPurgedLogId g.logCf id)

end RocksDBLogStorage

end Seshat
