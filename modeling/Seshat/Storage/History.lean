/-
Histories of a log store: the calls made on it, the state they leave and the
entries they appended.  A failed call appends nothing.  A stretch of appends
only adds to the map of stored indices; the latest entry of an index wins.
-/
import Seshat.Storage.Effects

namespace Seshat

open Decimal Keyed

/-- The last of the entries with a given index. -/
def latest (entries : List Entry) (index : UInt64) : Option Entry :=
  entries.reverse.find? fun entry => entry.logId.index == index

theorem latest_append (entries entries' : List Entry) (index : UInt64) :
    latest (entries ++ entries') index =
      (latest entries' index).or (latest entries index) := by
  rw [latest, List.reverse_append, List.find?_append]
  rfl

theorem latest_eq_some {entries : List Entry} {index : UInt64} {entry : Entry}
    (h : latest entries index = some entry) :
    entry ∈ entries ∧ entry.logId.index = index := by
  refine ⟨List.mem_reverse.mp (List.mem_of_find?_eq_some h), ?_⟩
  simpa using List.find?_some h

theorem exists_latest {entries : List Entry} {entry : Entry} (hmem : entry ∈ entries) :
    ∃ found, latest entries entry.logId.index = some found := by
  rw [← Option.isSome_iff_exists, latest, List.find?_isSome]
  exact ⟨entry, List.mem_reverse.mpr hmem, beq_self_eq_true _⟩

theorem latest_getLast {entries : List Entry} {last : Entry}
    (hlast : entries.getLast? = some last) :
    latest entries last.logId.index = some last := by
  obtain ⟨before, rfl⟩ := List.getLast?_eq_some_iff.mp hlast
  rw [latest_append]
  simp [latest]

/-- The entries of those batches that are not too large to be accepted. -/
def accepted (batches : List (List Entry)) : List Entry :=
  (batches.filter fun batch => batch.length ≤ maxBatchOperations).flatten

/-- The batch ends at an index that none of the log exceeds. -/
def EndsHighest (g : RaftGroup) (s : Storage) (entries : List Entry) : Prop :=
  ∀ last, entries.getLast? = some last →
    (∀ entry ∈ entries, entry.logId.index ≤ last.logId.index) ∧
      ∀ index value, storedAt s g.logCf index = some value → index ≤ last.logId.index

theorem endsHighest_nil (g : RaftGroup) (s : Storage) : EndsHighest g s [] := by
  rintro last ⟨⟩

section Payloads

variable [MembershipApi] [Prost MembershipMessage]

/-- The bytes stored for an entry. -/
def entryBytes (entry : Entry) : Bytes :=
  serializeEntryPayload entry.payload entry.logId

theorem storedAt_write_appendBatch (g : RaftGroup) (s : Storage) (entries : List Entry)
    (index : UInt64) :
    storedAt (s.write (RocksDBLogStorage.appendBatch g entries)) g.logCf index =
      ((latest entries index).map entryBytes).or (storedAt s g.logCf index) := by
  induction entries using List.reverseRecOn with
  | nil => rfl
  | append_singleton entries entry ih =>
      have hbatch : RocksDBLogStorage.appendBatch g (entries ++ [entry]) =
          RocksDBLogStorage.appendBatch g entries ++
            [.put g.logCf (formatLogKey entry.logId.index) (entryBytes entry)] :=
        List.map_append
      rw [hbatch, Storage.write_append, Storage.write_singleton, storedAt,
        Storage.get_apply_put, latest_append]
      by_cases hindex : entry.logId.index = index
      · simp [hindex, latest]
      · have hkey : formatLogKey index ≠ formatLogKey entry.logId.index :=
          fun heq => hindex (formatLogKey_inj.mp heq).symm
        have hbeq : (entry.logId.index == index) = false := by simpa using hindex
        rw [if_neg (fun h => hkey h.2), ← storedAt, ih]
        simp [latest, hbeq]

/-- What is stored after entries were written is one of them or was there before. -/
theorem stored_iff_of_latest {s t : Storage} {cf : ColumnFamily} {entries : List Entry}
    {index : UInt64} (hstored : storedAt t cf index =
      ((latest entries index).map entryBytes).or (storedAt s cf index)) :
    (∃ value, storedAt t cf index = some value) ↔
      (∃ entry ∈ entries, entry.logId.index = index) ∨
        ∃ value, storedAt s cf index = some value := by
  rw [hstored]
  constructor
  · rintro ⟨value, hvalue⟩
    rcases Option.or_eq_some_iff.mp hvalue with hnew | ⟨-, hold⟩
    · obtain ⟨entry, hlatest, -⟩ := Option.map_eq_some_iff.mp hnew
      exact Or.inl ⟨entry, latest_eq_some hlatest⟩
    · exact Or.inr ⟨value, hold⟩
  · rintro (⟨entry, hmem, rfl⟩ | ⟨value, hvalue⟩)
    · obtain ⟨found, hfound⟩ := exists_latest hmem
      exact ⟨entryBytes found, by rw [hfound]; rfl⟩
    · cases latest entries index with
      | none => exact ⟨value, hvalue⟩
      | some entry => exact ⟨entryBytes entry, rfl⟩

theorem get_write_appendBatch (g : RaftGroup) (s : Storage) {entries : List Entry}
    (cf : ColumnFamily) {key : Bytes}
    (hkey : ∀ entry ∈ entries, key ≠ formatLogKey entry.logId.index) :
    (s.write (RocksDBLogStorage.appendBatch g entries)).get cf key = s.get cf key := by
  induction entries generalizing s with
  | nil => rfl
  | cons entry entries ih =>
      have hhead := hkey entry List.mem_cons_self
      change ((s.apply _).write (RocksDBLogStorage.appendBatch g entries)).get cf key = _
      rw [ih _ fun e he => hkey e (List.mem_cons_of_mem entry he), Storage.get_apply_put,
        if_neg fun h => hhead h.2]

end Payloads

section Record

variable [Prost LogIdMessage]

/-- The record of a log id. -/
def logIdRecord (id : LogId) : Bytes :=
  Prost.encodeToVec (LogIdMessage.fromLogId id)

@[simp]
theorem decodeLogId_logIdRecord (id : LogId) :
    decodeLogId (logIdRecord id) = .ok id := by
  simp [decodeLogId, logIdRecord]

/-- Both readers know the last log id on record. -/
theorem lastLogId_of_record {s : Storage} {cf : ColumnFamily} {id : LogId}
    (hrecord : s.get cf lastLogIdKey = some (logIdRecord id)) :
    okFlatten (getLastLogId s cf) = some id ∧
      okFlatten (readerGetLastLogId s cf) = some id := by
  simp [getLastLogId, readerGetLastLogId, hrecord, okFlatten]

end Record

variable [MembershipApi] [Prost LogIdMessage] [Prost MembershipMessage]

/-- The calls that change a log. -/
inductive LogOp where
  | append (entries : List Entry)
  | truncate (id : LogId)
  | purge (id : LogId)

namespace LogOp

def call (g : RaftGroup) : LogOp → RaftM Unit
  | append entries => RocksDBLogStorage.append g entries
  | truncate id => RocksDBLogStorage.truncate g id
  | purge id => RocksDBLogStorage.purge g id

/-- The entries a call hands over. -/
def entries : LogOp → List Entry
  | append entries => entries
  | _ => []

end LogOp

/-- The store after a history, and the entries of its successful appends. -/
def runLog (g : RaftGroup) (s : Storage) : List LogOp → Storage × List Entry
  | [] => (s, [])
  | op :: ops =>
      match (op.call g).run s with
      | .ok _ t =>
          let rest := runLog g t ops
          (rest.1, op.entries ++ rest.2)
      | .error _ t => runLog g t ops

/-- The store after a batch was accepted. -/
def appended (g : RaftGroup) (s : Storage) (entries : List Entry) : Storage :=
  match entries.getLast? with
  | none => s
  | some entry =>
      ((s.write (RocksDBLogStorage.appendBatch g entries)).apply
        (.put g.logCf lastLogIdKey (logIdRecord entry.logId))).setCache g.logCf
          (some entry.logId.index)

theorem append_run {g : RaftGroup} {entries : List Entry}
    (hlength : entries.length ≤ maxBatchOperations) (s : Storage) :
    (RocksDBLogStorage.append g entries).run s = .ok () (appended g s entries) := by
  cases hlast : entries.getLast? with
  | none =>
      obtain rfl := List.getLast?_eq_none_iff.mp hlast
      simp [RocksDBLogStorage.append, RocksDBLogStorage.appendBatch, appended, batchWrite]
  | some entry =>
      have hne : entries ≠ [] := by
        rintro rfl
        contradiction
      have hsize : ¬ maxBatchOperations < entries.length := Nat.not_lt.mpr hlength
      simp [RocksDBLogStorage.append, RocksDBLogStorage.appendBatch, appended, batchWrite,
        hlast, hne, hsize, saveLogIdMetadata, put, logIdRecord, updateCachedLastLogIndex]

theorem append_run_tooLarge {g : RaftGroup} {entries : List Entry}
    (hlength : maxBatchOperations < entries.length) (s : Storage) :
    (RocksDBLogStorage.append g entries).run s =
      .error (ioError .logs .write
        (StorageError.batchTooLarge entries.length maxBatchOperations).display) s := by
  have hne : entries ≠ [] := by
    rintro rfl
    exact absurd hlength (by decide)
  simp [RocksDBLogStorage.append, RocksDBLogStorage.appendBatch, batchWrite, hne, hlength]

omit [Prost LogIdMessage] in
/-- The batch of an append holds entries, no metadata. -/
theorem get_write_appendBatch_metadata (g : RaftGroup) (s : Storage) (batch : List Entry)
    {key : Bytes} (hkey : key ∈ metadataKeys) :
    (s.write (RocksDBLogStorage.appendBatch g batch)).get g.logCf key = s.get g.logCf key :=
  get_write_appendBatch g s g.logCf fun entry _ =>
    metadataKey_ne_formatLogKey hkey entry.logId.index

omit [Prost LogIdMessage] in
theorem LogKeysOnly.write_appendBatch {g : RaftGroup} {s : Storage}
    (hkeys : LogKeysOnly s g.logCf) (batch : List Entry) :
    LogKeysOnly (s.write (RocksDBLogStorage.appendBatch g batch)) g.logCf := by
  intro key value hget
  by_cases hlog : ∃ entry ∈ batch, key = formatLogKey entry.logId.index
  · obtain ⟨entry, -, rfl⟩ := hlog
    exact Or.inr ⟨entry.logId.index, rfl⟩
  · rw [get_write_appendBatch g s g.logCf fun entry hmem heq => hlog ⟨entry, hmem, heq⟩] at hget
    exact hkeys key value hget

/-- `t` is `s` with the entries appended to it. -/
structure Extends (g : RaftGroup) (s : Storage) (entries : List Entry) (t : Storage) :
    Prop where
  stored : ∀ index, storedAt t g.logCf index =
    ((latest entries index).map entryBytes).or (storedAt s g.logCf index)
  lastLogId : t.get g.logCf lastLogIdKey =
    (entries.getLast?.map fun entry => logIdRecord entry.logId).or
      (s.get g.logCf lastLogIdKey)
  lastPurged : t.get g.logCf lastPurgedLogIdKey = s.get g.logCf lastPurgedLogIdKey
  cache : t.lastLogIndexCache g.logCf =
    (entries.getLast?.map fun entry => entry.logId.index).or
      (s.lastLogIndexCache g.logCf)
  keys : LogKeysOnly s g.logCf → LogKeysOnly t g.logCf

theorem Extends.refl (g : RaftGroup) (s : Storage) : Extends g s [] s where
  stored _ := rfl
  lastLogId := rfl
  lastPurged := rfl
  cache := rfl
  keys := id

theorem Extends.trans {g : RaftGroup} {s t u : Storage} {entries entries' : List Entry}
    (h : Extends g s entries t) (h' : Extends g t entries' u) :
    Extends g s (entries ++ entries') u where
  stored index := by
    rw [h'.stored, h.stored, latest_append, ← Option.or_assoc, Option.map_or]
  lastLogId := by
    rw [h'.lastLogId, h.lastLogId, List.getLast?_append, ← Option.or_assoc, Option.map_or]
  lastPurged := h'.lastPurged.trans h.lastPurged
  cache := by
    rw [h'.cache, h.cache, List.getLast?_append, ← Option.or_assoc, Option.map_or]
  keys hkeys := h'.keys (h.keys hkeys)

theorem appended_extends (g : RaftGroup) (s : Storage) (entries : List Entry) :
    Extends g s entries (appended g s entries) := by
  cases hlast : entries.getLast? with
  | none =>
      obtain rfl := List.getLast?_eq_none_iff.mp hlast
      exact Extends.refl g s
  | some last =>
      refine ⟨?_, ?_, ?_, ?_, ?_⟩
      · intro index
        have hne : formatLogKey index ≠ lastLogIdKey :=
          (metadataKey_ne_formatLogKey lastLogIdKey_mem index).symm
        rw [← storedAt_write_appendBatch]
        simp [appended, hlast, storedAt, hne]
      · simp [appended, hlast]
      · simp [appended, hlast, lastLogIdKey_ne_lastPurgedLogIdKey.symm,
          get_write_appendBatch_metadata g s entries lastPurgedLogIdKey_mem]
      · simp [appended, hlast]
      · intro hkeys
        rw [appended, hlast]
        exact (hkeys.write_appendBatch entries).put_metadata lastLogIdKey_mem _

theorem Extends.stored_iff {g : RaftGroup} {s t : Storage} {entries : List Entry}
    (h : Extends g s entries t) {index : UInt64} :
    (∃ value, storedAt t g.logCf index = some value) ↔
      (∃ entry ∈ entries, entry.logId.index = index) ∨
        ∃ value, storedAt s g.logCf index = some value :=
  stored_iff_of_latest (h.stored index)

/-- Then, and only then, the last entry appended is the last of the log. -/
theorem Extends.isLast_iff {g : RaftGroup} {s t : Storage} {entries : List Entry}
    (h : Extends g s entries t) {last : Entry} (hlast : entries.getLast? = some last) :
    IsLast t g.logCf last.logId.index ↔ EndsHighest g s entries := by
  constructor
  · rintro hmax last' hlast'
    obtain rfl : last = last' := Option.some.inj (hlast.symm.trans hlast')
    refine ⟨fun entry hmem => ?_, fun index value hvalue => ?_⟩
    · obtain ⟨value, hvalue⟩ := h.stored_iff.mpr (Or.inl ⟨entry, hmem, rfl⟩)
      exact hmax.max _ value hvalue
    · obtain ⟨value', hvalue'⟩ := h.stored_iff.mpr (Or.inr ⟨value, hvalue⟩)
      exact hmax.max index value' hvalue'
  · intro hends
    obtain ⟨hbatch, hold⟩ := hends last hlast
    refine ⟨h.stored_iff.mpr (Or.inl ⟨last, List.mem_of_getLast? hlast, rfl⟩), ?_⟩
    intro index value hvalue
    rcases h.stored_iff.mp ⟨value, hvalue⟩ with ⟨entry, hmem, rfl⟩ | ⟨value', hvalue'⟩
    · exact hbatch entry hmem
    · exact hold index value' hvalue'

/-- One call of `append`, accepted or rejected. -/
theorem append_call_cases (g : RaftGroup) (s : Storage) (entries : List Entry) :
    (∃ t, (RocksDBLogStorage.append g entries).run s = .ok () t ∧
        Extends g s entries t) ∨
      ∃ e, (RocksDBLogStorage.append g entries).run s = .error e s := by
  rcases Nat.lt_or_ge maxBatchOperations entries.length with hlarge | hsmall
  · exact Or.inr ⟨_, append_run_tooLarge hlarge s⟩
  · exact Or.inl ⟨_, append_run hsmall s, appended_extends g s entries⟩

/-- A history of appends extends the store by what it appended. -/
theorem runLog_appends_extends (g : RaftGroup) (s : Storage)
    (batches : List (List Entry)) :
    Extends g s (runLog g s (batches.map .append)).2
      (runLog g s (batches.map .append)).1 := by
  induction batches generalizing s with
  | nil => exact Extends.refl g s
  | cons batch batches ih =>
      simp only [List.map_cons, runLog, LogOp.call]
      rcases append_call_cases g s batch with ⟨t, hrun, hextends⟩ | ⟨e, hrun⟩
      · simp only [hrun, LogOp.entries]
        exact hextends.trans (ih t)
      · simp only [hrun]
        exact ih s

/-- What a history of appends appends does not depend on the store. -/
theorem runLog_appends_snd (g : RaftGroup) (s : Storage) (batches : List (List Entry)) :
    (runLog g s (batches.map .append)).2 = accepted batches := by
  induction batches generalizing s with
  | nil => rfl
  | cons batch batches ih =>
      simp only [List.map_cons, runLog, LogOp.call, accepted, List.filter_cons]
      rcases Nat.lt_or_ge maxBatchOperations batch.length with hlarge | hsmall
      · have hnot : ¬ batch.length ≤ maxBatchOperations := Nat.not_le.mpr hlarge
        simp only [append_run_tooLarge hlarge, hnot, decide_false, Bool.false_eq_true,
          ↓reduceIte]
        exact ih s
      · simp only [append_run hsmall, hsmall, decide_true, ↓reduceIte, List.flatten_cons]
        rw [ih]
        rfl

end Seshat
