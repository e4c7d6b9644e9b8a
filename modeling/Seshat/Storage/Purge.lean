/-
Purging.  Over any history of calls with growing indices the cache, where it is
filled, holds the last stored index.  A purge then deletes the entries from 1 on
up to its index and drops the cache; what remains decides whether the next purge
finds a log key at the end of the column family.
-/
import Seshat.Storage.ReadBack

namespace Seshat

open Decimal Keyed

/-- What a call of `truncate` can do. -/
theorem truncate_run_known {g : RaftGroup} {s : Storage} (hkeys : LogKeysOnly s g.logCf)
    (id : LogId) :
    (∃ last, KnownLast s g.logCf last ∧ (RocksDBLogStorage.truncate g id).run s =
        .ok () (truncated (s.setCache g.logCf (some last)) g.logCf last id.index)) ∨
      (∀ index, storedAt s g.logCf index = none) ∧
        ((RocksDBLogStorage.truncate g id).run s = .ok () s ∨
          ∃ e, (RocksDBLogStorage.truncate g id).run s = .error e s) := by
  rw [RocksDBLogStorage.truncate, mapErr_run]
  rcases truncateLogBefore_run_known g.logCf_isLogCf hkeys id.index with
    ⟨last, hlast, hrun⟩ | ⟨hnone, -, ⟨-, hrun⟩ | ⟨-, e, hrun⟩⟩
  · exact Or.inl ⟨last, hlast, by rw [hrun]⟩
  · exact Or.inr ⟨hnone, Or.inl (by rw [hrun])⟩
  · exact Or.inr ⟨hnone, Or.inr ⟨_, by rw [hrun]⟩⟩

theorem truncate_run_cases {g : RaftGroup} {s : Storage} (hkeys : LogKeysOnly s g.logCf)
    (hcache : CacheSound s g.logCf) (id : LogId) :
    (∃ last, IsLast s g.logCf last ∧ (RocksDBLogStorage.truncate g id).run s =
        .ok () (truncated (s.setCache g.logCf (some last)) g.logCf last id.index)) ∨
      (∀ index, storedAt s g.logCf index = none) ∧
        ((RocksDBLogStorage.truncate g id).run s = .ok () s ∨
          ∃ e, (RocksDBLogStorage.truncate g id).run s = .error e s) := by
  rcases truncate_run_known hkeys id with ⟨last, hlast, hrun⟩ | hnone
  · exact Or.inl ⟨last, hlast.isLast hcache, hrun⟩
  · exact Or.inr hnone

section Record

variable [Prost LogIdMessage]

/-- The store after a purge that found the last index. -/
def purged (g : RaftGroup) (s : Storage) (id : LogId) (last : UInt64) : Storage :=
  (truncated (s.setCache g.logCf (some last)) g.logCf last (id.index + 1)).apply
    (.put g.logCf lastPurgedLogIdKey (logIdRecord id))

theorem storedAt_purged {g : RaftGroup} {s : Storage} {id : LogId}
    (hid : id.index.toNat + 1 < 2 ^ 64) (last index : UInt64) :
    storedAt (purged g s id last) g.logCf index =
      if 1 ≤ index ∧ index ≤ last ∧ index ≤ id.index then none
      else storedAt s g.logCf index := by
  rw [purged, storedAt_put_metadata lastPurgedLogIdKey_mem, storedAt_truncated]
  simp only [lt_add_one_iff hid]
  rfl

theorem storedAt_of_purged {g : RaftGroup} {s : Storage} {id : LogId}
    (hid : id.index.toNat + 1 < 2 ^ 64) {last index : UInt64} {value : Bytes}
    (hvalue : storedAt (purged g s id last) g.logCf index = some value) :
    storedAt s g.logCf index = some value := by
  rw [storedAt_purged hid] at hvalue
  split at hvalue
  · contradiction
  · exact hvalue

/-- Entries behind the purged index are untouched. -/
theorem storedAt_purged_behind {g : RaftGroup} {s : Storage} {id : LogId}
    (hid : id.index.toNat + 1 < 2 ^ 64) (last : UInt64) {index : UInt64}
    (hindex : id.index < index) :
    storedAt (purged g s id last) g.logCf index = storedAt s g.logCf index := by
  rw [storedAt_purged hid, if_neg fun h => UInt64.not_le.mpr hindex h.2.2]

theorem IsLast.purged {g : RaftGroup} {s : Storage} {id : LogId}
    (hid : id.index.toNat + 1 < 2 ^ 64) {last : UInt64} (hlast : IsLast s g.logCf last)
    (hbehind : id.index < last) : IsLast (purged g s id last) g.logCf last := by
  obtain ⟨value, hvalue⟩ := hlast.stored
  refine ⟨⟨value, ?_⟩, fun index v hv => hlast.max index v (storedAt_of_purged hid hv)⟩
  rw [storedAt_purged_behind hid last hbehind, hvalue]

theorem get_purged_lastPurged (g : RaftGroup) (s : Storage) (id : LogId) (last : UInt64) :
    (purged g s id last).get g.logCf lastPurgedLogIdKey = some (logIdRecord id) := by
  simp [purged]

theorem get_purged_lastLogId (g : RaftGroup) (s : Storage) (id : LogId) (last : UInt64) :
    (purged g s id last).get g.logCf lastLogIdKey = s.get g.logCf lastLogIdKey := by
  rw [purged, Storage.get_apply_put, if_neg fun h => lastLogIdKey_ne_lastPurgedLogIdKey h.2,
    get_truncated_metadata _ _ _ _ lastLogIdKey_mem]
  rfl

theorem cache_purged (g : RaftGroup) (s : Storage) (id : LogId) (last : UInt64) :
    (purged g s id last).lastLogIndexCache =
      Function.update s.lastLogIndexCache g.logCf none := by
  simp [purged, cache_truncated]

theorem LogKeysOnly.purged {g : RaftGroup} {s : Storage} (hkeys : LogKeysOnly s g.logCf)
    (id : LogId) (last : UInt64) : LogKeysOnly (purged g s id last) g.logCf := by
  have hset : LogKeysOnly (s.setCache g.logCf (some last)) g.logCf := hkeys
  exact (hset.truncated _ _).put_metadata lastPurgedLogIdKey_mem _

/-- A purge is the truncation and, if that succeeds, the record of its id. -/
theorem purge_run {g : RaftGroup} {id : LogId} (hid : id.index.toNat + 1 < 2 ^ 64)
    (s : Storage) :
    (RocksDBLogStorage.purge g id).run s =
      match (truncateLogBefore g.logCf (id.index + 1)).run s with
      | .ok _ t => .ok () (t.apply (.put g.logCf lastPurgedLogIdKey (logIdRecord id)))
      | .error e t => .error (ioError .store .write e.display) t := by
  rw [RocksDBLogStorage.purge, if_neg (Nat.not_le.mpr hid), EStateM.run_bind, mapErr_run]
  cases (truncateLogBefore g.logCf (id.index + 1)).run s <;> rfl

/-- The index behind the last possible one cannot be computed. -/
theorem purge_run_overflow {g : RaftGroup} {id : LogId}
    (hid : ¬ id.index.toNat + 1 < 2 ^ 64) (s : Storage) :
    (RocksDBLogStorage.purge g id).run s = .error .panic s := by
  rw [RocksDBLogStorage.purge, if_pos (Nat.not_lt.mp hid)]
  rfl

/-- What a call of `purge` can do. -/
theorem purge_run_known {g : RaftGroup} {s : Storage} (hkeys : LogKeysOnly s g.logCf)
    {id : LogId} (hid : id.index.toNat + 1 < 2 ^ 64) :
    (∃ last, KnownLast s g.logCf last ∧
        (RocksDBLogStorage.purge g id).run s = .ok () (purged g s id last)) ∨
      (∀ index, storedAt s g.logCf index = none) ∧ s.lastLogIndexCache g.logCf = none ∧
        ((∀ key, s.get g.logCf key = none) ∧
            (RocksDBLogStorage.purge g id).run s =
              .ok () (s.apply (.put g.logCf lastPurgedLogIdKey (logIdRecord id))) ∨
          (∃ key value, s.get g.logCf key = some value) ∧
            ∃ e, (RocksDBLogStorage.purge g id).run s = .error e s) := by
  rw [purge_run hid]
  rcases truncateLogBefore_run_known g.logCf_isLogCf hkeys (id.index + 1) with
    ⟨last, hlast, hrun⟩ | ⟨hnone, hmiss, ⟨hempty, hrun⟩ | ⟨hkey, e, hrun⟩⟩
  · exact Or.inl ⟨last, hlast, by rw [hrun, purged]⟩
  · exact Or.inr ⟨hnone, hmiss, Or.inl ⟨hempty, by rw [hrun]⟩⟩
  · exact Or.inr ⟨hnone, hmiss, Or.inr ⟨hkey, _, by rw [hrun]⟩⟩

theorem purge_run_cases {g : RaftGroup} {s : Storage} (hkeys : LogKeysOnly s g.logCf)
    (hcache : CacheSound s g.logCf) {id : LogId} (hid : id.index.toNat + 1 < 2 ^ 64) :
    (∃ last, IsLast s g.logCf last ∧
        (RocksDBLogStorage.purge g id).run s = .ok () (purged g s id last)) ∨
      (∀ index, storedAt s g.logCf index = none) ∧ s.lastLogIndexCache g.logCf = none ∧
        ((∀ key, s.get g.logCf key = none) ∧
            (RocksDBLogStorage.purge g id).run s =
              .ok () (s.apply (.put g.logCf lastPurgedLogIdKey (logIdRecord id))) ∨
          (∃ key value, s.get g.logCf key = some value) ∧
            ∃ e, (RocksDBLogStorage.purge g id).run s = .error e s) := by
  rcases purge_run_known hkeys hid with ⟨last, hlast, hrun⟩ | hnone
  · exact Or.inl ⟨last, hlast.isLast hcache, hrun⟩
  · exact Or.inr hnone

/-- What holds of a store whose appended entries have growing indices. -/
structure LogInvariant (g : RaftGroup) (s : Storage) (entries : List Entry) : Prop where
  keys : LogKeysOnly s g.logCf
  cache : CacheSound s g.logCf
  record : ∀ value, s.get g.logCf lastLogIdKey = some value →
    ∃ id, value = logIdRecord id
  appended : ∀ index value, storedAt s g.logCf index = some value →
    ∃ entry ∈ entries, entry.logId.index = index

theorem logInvariant_new (g : RaftGroup) : LogInvariant g .new [] where
  keys := logKeysOnly_new _
  cache _ hlast := by contradiction
  record value hget := by
    rw [Storage.get_new] at hget
    contradiction
  appended index value hget := by
    rw [storedAt, Storage.get_new] at hget
    contradiction

/-- Losing entries along with the cache keeps the invariant. -/
theorem LogInvariant.of_shrunk {g : RaftGroup} {s t : Storage} {entries : List Entry}
    (h : LogInvariant g s entries) (hkeys : LogKeysOnly t g.logCf)
    (hmiss : t.lastLogIndexCache g.logCf = none)
    (hrecord : t.get g.logCf lastLogIdKey = s.get g.logCf lastLogIdKey)
    (hstored : ∀ index value, storedAt t g.logCf index = some value →
      storedAt s g.logCf index = some value) : LogInvariant g t entries where
  keys := hkeys
  cache := cacheSound_of_miss hmiss
  record value hget := h.record value (hrecord.symm.trans hget)
  appended index value hget := h.appended index value (hstored index value hget)

theorem LogInvariant.purged {g : RaftGroup} {s : Storage} {entries : List Entry}
    (h : LogInvariant g s entries) {id : LogId} (hid : id.index.toNat + 1 < 2 ^ 64)
    (last : UInt64) : LogInvariant g (purged g s id last) entries :=
  h.of_shrunk (h.keys.purged id last) (by rw [cache_purged, Function.update_self])
    (get_purged_lastLogId g s id last) fun _ _ => storedAt_of_purged hid

theorem LogInvariant.purge_run {g : RaftGroup} {s : Storage} {entries : List Entry}
    (h : LogInvariant g s entries) {id : LogId} (hid : id.index.toNat + 1 < 2 ^ 64)
    {last : UInt64} (hlast : IsLast s g.logCf last) :
    (RocksDBLogStorage.purge g id).run s = .ok () (Seshat.purged g s id last) := by
  rcases purge_run_cases h.keys h.cache hid with ⟨last', hlast', hrun⟩ | ⟨hnone, -⟩
  · rw [hrun, hlast'.unique hlast]
  · exact absurd hlast (not_isLast_of_none hnone)

/-- What openraft asks of `purge`: no entry up to the index is left, the others
are untouched, the id is remembered, and doing it again changes nothing. -/
def PurgeContract (g : RaftGroup) (s : Storage) (id : LogId) : Prop :=
  ∃ t, (RocksDBLogStorage.purge g id).run s = .ok () t ∧
    (∀ index, index ≤ id.index → storedAt t g.logCf index = none) ∧
    (∀ index, id.index < index → storedAt t g.logCf index = storedAt s g.logCf index) ∧
    (∃ state, RocksDBLogStorage.getLogState g t = .ok state ∧
      state.lastPurgedLogId = some id) ∧
    (RocksDBLogStorage.purge g id).run t = .ok () t

/-- With metadata but no entry the next purge fails. -/
theorem purge_run_ne_ok {g : RaftGroup} {t : Storage} (hkeys : LogKeysOnly t g.logCf)
    (hmiss : t.lastLogIndexCache g.logCf = none)
    (hnone : ∀ index, storedAt t g.logCf index = none) {key value : Bytes}
    (hget : t.get g.logCf key = some value) {id : LogId}
    (hid : id.index.toNat + 1 < 2 ^ 64) (u : Storage) :
    (RocksDBLogStorage.purge g id).run t ≠ .ok () u := by
  intro hok
  rcases purge_run_cases hkeys (cacheSound_of_miss hmiss) hid with
    ⟨last, hlast, -⟩ | ⟨-, -, ⟨hempty, -⟩ | ⟨-, e, hrun⟩⟩
  · exact not_isLast_of_none hnone hlast
  · rw [hempty] at hget
    contradiction
  · rw [hrun] at hok
    contradiction

theorem storedAt_purged_self {g : RaftGroup} {s : Storage} {id : LogId}
    (hid : id.index.toNat + 1 < 2 ^ 64) (last : UInt64) {index : UInt64}
    (hindex : 1 ≤ index ∧ index ≤ last ∧ index ≤ id.index) :
    storedAt (purged g s id last) g.logCf index = none := by
  rw [storedAt_purged hid, if_pos hindex]

/-- Purging again from the same last index changes nothing. -/
theorem purged_purged {g : RaftGroup} {s : Storage} {id : LogId}
    (hid : id.index.toNat + 1 < 2 ^ 64) (last : UInt64) :
    purged g (purged g s id last) id last = purged g s id last := by
  refine Storage.ext_get (fun cf key => ?_) ?_
  · rw [purged, Storage.get_apply_put]
    split
    · rename_i heq
      rw [heq.1, heq.2, get_purged_lastPurged]
    · rw [get_truncated, Storage.get_setCache]
      split
      · rename_i hgone
        obtain ⟨rfl, index, ⟨hpos, hlast, hlt⟩, rfl⟩ := hgone
        exact (storedAt_purged_self hid last ⟨hpos, hlast, (lt_add_one_iff hid).mp hlt⟩).symm
      · rfl
  · rw [cache_purged, cache_purged, Function.update_idem]

theorem getLogState_purged {g : RaftGroup} {s : Storage} {entries : List Entry}
    (h : LogInvariant g s entries) {t : Storage} {id : LogId}
    (hrecord : t.get g.logCf lastLogIdKey = s.get g.logCf lastLogIdKey)
    (hpurged : t.get g.logCf lastPurgedLogIdKey = some (logIdRecord id)) :
    ∃ state, RocksDBLogStorage.getLogState g t = .ok state ∧
      state.lastPurgedLogId = some id := by
  have hid : getLastPurgedLogId t g.logCf = .ok (some id) := by
    simp [getLastPurgedLogId, hpurged]
  have hlast : ∃ last, getLastLogId t g.logCf = .ok last := by
    cases hget : s.get g.logCf lastLogIdKey with
    | none => exact ⟨_, by rw [getLastLogId, hrecord, hget]⟩
    | some value =>
        obtain ⟨last, rfl⟩ := h.record value hget
        exact ⟨some last, by simp [getLastLogId, hrecord, hget]⟩
  obtain ⟨last, hlast⟩ := hlast
  refine ⟨⟨some id, last⟩, ?_, rfl⟩
  rw [RocksDBLogStorage.getLogState, hlast, hid]
  rfl

/-- A purge that leaves an entry behind it, in a log without entry 0, keeps the
contract. -/
theorem purgeContract_of_behind {g : RaftGroup} {s : Storage} {entries : List Entry}
    (h : LogInvariant g s entries) {id : LogId} (hid : id.index.toNat + 1 < 2 ^ 64)
    (hzero : storedAt s g.logCf 0 = none) {index : UInt64} {value : Bytes}
    (hbehind : id.index < index) (hvalue : storedAt s g.logCf index = some value) :
    PurgeContract g s id := by
  obtain ⟨last, hlast, -⟩ := lastKey_of_stored h.keys hvalue
  have hbound : id.index < last :=
    UInt64.lt_of_lt_of_le hbehind (hlast.max index value hvalue)
  refine ⟨_, h.purge_run hid hlast, fun i hi => ?_,
    fun i hi => storedAt_purged_behind hid last hi, ?_, ?_⟩
  · by_cases hi0 : i = 0
    · rw [hi0, storedAt_purged hid, if_neg (by simp), hzero]
    · refine storedAt_purged_self hid last ⟨?_, ?_, hi⟩
      · exact one_le_iff_ne_zero.mpr hi0
      · exact UInt64.le_trans hi (UInt64.le_of_lt hbound)
  · exact getLogState_purged h (get_purged_lastLogId g s id last)
      (get_purged_lastPurged g s id last)
  · rw [(h.purged hid last).purge_run hid (hlast.purged hid hbound), purged_purged hid]

/-- A purge that keeps the contract leaves an entry behind it: otherwise the
second purge meets metadata alone. -/
theorem behind_of_purgeContract {g : RaftGroup} {s : Storage} {entries : List Entry}
    (h : LogInvariant g s entries) {id : LogId} (hid : id.index.toNat + 1 < 2 ^ 64)
    (hcontract : PurgeContract g s id) :
    storedAt s g.logCf 0 = none ∧
      ∃ index value, id.index < index ∧ storedAt s g.logCf index = some value := by
  obtain ⟨t, hrun, hgone, hrest, -, hagain⟩ := hcontract
  rcases purge_run_cases h.keys h.cache hid with
    ⟨last, hlast, hpurge⟩ | ⟨hnone, hmiss, ⟨-, hpurge⟩ | ⟨-, e, hpurge⟩⟩
  · rw [hpurge] at hrun
    cases hrun
    refine ⟨?_, ?_⟩
    · have hzero := hgone 0 UInt64.zero_le
      rwa [storedAt_purged hid, if_neg (by simp)] at hzero
    · by_contra hbehind
      have hnone : ∀ index, storedAt (purged g s id last) g.logCf index = none := by
        intro index
        by_cases hle : index ≤ id.index
        · exact hgone index hle
        · rw [hrest index (UInt64.not_le.mp hle)]
          exact Option.eq_none_iff_forall_ne_some.mpr fun value hvalue =>
            hbehind ⟨index, value, UInt64.not_le.mp hle, hvalue⟩
      exact purge_run_ne_ok (h.keys.purged id last)
        (by rw [cache_purged, Function.update_self]) hnone
        (get_purged_lastPurged g s id last) hid _ hagain
  · rw [hpurge] at hrun
    cases hrun
    have hget : (s.apply (.put g.logCf lastPurgedLogIdKey (logIdRecord id))).get g.logCf
        lastPurgedLogIdKey = some (logIdRecord id) := by simp
    refine absurd hagain (purge_run_ne_ok
      (h.keys.put_metadata lastPurgedLogIdKey_mem _) (by rw [Storage.cache_apply, hmiss])
      (fun index => ?_) hget hid _)
    rw [storedAt_put_metadata lastPurgedLogIdKey_mem, hnone]
  · rw [hpurge] at hrun
    contradiction

end Record

section Histories

variable [MembershipApi] [Prost LogIdMessage] [Prost MembershipMessage]

/-- Appending behind everything appended before makes the last new entry the
last of the log. -/
theorem LogInvariant.extends {g : RaftGroup} {s t : Storage} {entries batch : List Entry}
    (h : LogInvariant g s entries) (hextends : Extends g s batch t)
    (hascending : Ascending (entries ++ batch)) :
    LogInvariant g t (entries ++ batch) := by
  obtain ⟨-, hbatch, hbehind⟩ := List.pairwise_append.mp hascending
  refine ⟨hextends.keys h.keys, ?_, ?_, ?_⟩
  · intro last hlast
    rw [hextends.cache] at hlast
    cases hnew : batch.getLast? with
    | none =>
        obtain rfl := List.getLast?_eq_none_iff.mp hnew
        have hold := h.cache last hlast
        have hsame : ∀ index, storedAt t g.logCf index = storedAt s g.logCf index :=
          hextends.stored
        exact ⟨by rw [hsame]; exact hold.stored, fun index value hvalue =>
          hold.max index value ((hsame index).symm.trans hvalue)⟩
    | some entry =>
        rw [hnew] at hlast
        obtain rfl : entry.logId.index = last := by simpa using hlast
        refine (hextends.isLast_iff hnew).mpr fun entry' hnew' => ?_
        refine ⟨fun other hother => index_le_of_getLast hbatch hnew' hother, ?_⟩
        intro index value hvalue
        obtain ⟨other, hother, rfl⟩ := h.appended index value hvalue
        exact UInt64.le_iff_toNat_le.mpr
          (le_of_lt (hbehind other hother entry' (List.mem_of_getLast? hnew')))
  · intro value hvalue
    rw [hextends.lastLogId, Option.or_eq_some_iff] at hvalue
    rcases hvalue with hnew | ⟨-, hold⟩
    · obtain ⟨entry, -, rfl⟩ := Option.map_eq_some_iff.mp hnew
      exact ⟨entry.logId, rfl⟩
    · exact h.record value hold
  · intro index value hvalue
    rcases hextends.stored_iff.mp ⟨value, hvalue⟩ with ⟨entry, hmem, hindex⟩ | ⟨value', hold⟩
    · exact ⟨entry, List.mem_append_right entries hmem, hindex⟩
    · obtain ⟨entry, hmem, hindex⟩ := h.appended index value' hold
      exact ⟨entry, List.mem_append_left batch hmem, hindex⟩

/-- One call: it succeeds and keeps the invariant, or fails and changes nothing. -/
theorem LogInvariant.call_cases {g : RaftGroup} {s : Storage} {entries : List Entry}
    (h : LogInvariant g s entries) (op : LogOp) :
    (∃ t, (op.call g).run s = .ok () t ∧
        (Ascending (entries ++ op.entries) → LogInvariant g t (entries ++ op.entries))) ∨
      ∃ e, (op.call g).run s = .error e s := by
  cases op with
  | append batch =>
      rcases append_call_cases g s batch with ⟨t, hrun, hextends⟩ | herror
      · exact Or.inl ⟨t, hrun, fun hascending => h.extends hextends hascending⟩
      · exact Or.inr herror
  | truncate id =>
      simp only [LogOp.call, LogOp.entries, List.append_nil]
      rcases truncate_run_cases h.keys h.cache id with
        ⟨last, -, hrun⟩ | ⟨-, hrun | ⟨e, hrun⟩⟩
      · refine Or.inl ⟨_, hrun, fun _ => h.of_shrunk ?_ ?_ ?_ ?_⟩
        · exact LogKeysOnly.truncated (s := s.setCache g.logCf (some last)) h.keys _ _
        · rw [cache_truncated, Function.update_self]
        · exact get_truncated_metadata _ _ _ _ lastLogIdKey_mem
        · exact fun index value hvalue =>
            storedAt_of_truncated (s := s.setCache g.logCf (some last)) hvalue
      · exact Or.inl ⟨s, hrun, fun _ => h⟩
      · exact Or.inr ⟨e, hrun⟩
  | purge id =>
      simp only [LogOp.call, LogOp.entries, List.append_nil]
      by_cases hid : id.index.toNat + 1 < 2 ^ 64
      · rcases purge_run_cases h.keys h.cache hid with
          ⟨last, -, hrun⟩ | ⟨hnone, hmiss, ⟨-, hrun⟩ | ⟨-, e, hrun⟩⟩
        · exact Or.inl ⟨_, hrun, fun _ => h.purged hid last⟩
        · refine Or.inl ⟨_, hrun, fun _ => h.of_shrunk ?_ ?_ ?_ ?_⟩
          · exact h.keys.put_metadata lastPurgedLogIdKey_mem _
          · rw [Storage.cache_apply, hmiss]
          · simp [lastLogIdKey_ne_lastPurgedLogIdKey]
          · intro index value hvalue
            rwa [storedAt_put_metadata lastPurgedLogIdKey_mem] at hvalue
        · exact Or.inr ⟨e, hrun⟩
      · exact Or.inr ⟨.panic, purge_run_overflow hid s⟩

theorem runLog_invariant {g : RaftGroup} {s : Storage} {entries : List Entry}
    (h : LogInvariant g s entries) (ops : List LogOp)
    (hascending : Ascending (entries ++ (runLog g s ops).2)) :
    LogInvariant g (runLog g s ops).1 (entries ++ (runLog g s ops).2) := by
  induction ops generalizing s entries with
  | nil =>
      rw [runLog, List.append_nil]
      exact h
  | cons op ops ih =>
      rw [runLog] at hascending ⊢
      rcases h.call_cases op with ⟨t, hrun, hkeep⟩ | ⟨e, hrun⟩
      · simp only [hrun] at hascending ⊢
        rw [← List.append_assoc] at hascending ⊢
        exact ih (hkeep (List.pairwise_append.mp hascending).1) hascending
      · simp only [hrun] at hascending ⊢
        exact ih h hascending

/-- Over every history with consecutive indices a purge meets openraft's contract
exactly where no entry is stored at index 0 and some entry lies behind the purged
index. -/
theorem runLog_purge_contract_iff (g : RaftGroup) (ops : List LogOp)
    (hconsecutive : Consecutive (runLog g .new ops).2) (id : LogId)
    (hid : id.index.toNat + 1 < 2 ^ 64) :
    PurgeContract g (runLog g .new ops).1 id ↔
      storedAt (runLog g .new ops).1 g.logCf 0 = none ∧
        ∃ index value, id.index < index ∧
          storedAt (runLog g .new ops).1 g.logCf index = some value := by
  have hinv := runLog_invariant (logInvariant_new g) ops hconsecutive.ascending
  constructor
  · exact behind_of_purgeContract hinv hid
  · rintro ⟨hzero, index, value, hbehind, hvalue⟩
    exact purgeContract_of_behind hinv hid hzero hbehind hvalue

end Histories

namespace Witness

/-- Three entries from index 1 on and an earlier purge of the first. -/
def purgedOnce : List LogOp :=
  [.append [blankEntry 1 1 1, blankEntry 1 1 2], .purge ⟨⟨1, 1⟩, 1⟩,
    .append [blankEntry 1 1 3]]

theorem purgeContract_keeps_last :
    PurgeContract .dataRaft (runLog .dataRaft .new purgedOnce).1 ⟨⟨1, 1⟩, 2⟩ := by
  refine (runLog_purge_contract_iff .dataRaft purgedOnce ?_ ⟨⟨1, 1⟩, 2⟩ (by decide)).mpr
    ⟨by decide, 3, [0], by decide, by decide⟩
  have hentries : (runLog .dataRaft .new purgedOnce).2 =
      [blankEntry 1 1 1, blankEntry 1 1 2, blankEntry 1 1 3] := by decide
  rw [hentries]
  simp [Consecutive, blankEntry]

/-- The store a call leaves behind. -/
def leftBehind : EStateM.Result Failure Storage Unit → Storage
  | .ok _ t => t
  | .error _ t => t

def succeeded : EStateM.Result Failure Storage Unit → Bool
  | .ok _ _ => true
  | .error _ _ => false

/-- A log from index 0 on. -/
def fromZero : List LogOp :=
  [.append [blankEntry 1 1 0, blankEntry 1 1 1]]

/-- A log of one entry. -/
def single : List LogOp :=
  [.append [blankEntry 1 1 1]]

/-- Entry 0 is never deleted; and once the only entry is purged, purging again is
an error. -/
theorem purgeContract_fails_at_ends :
    ¬ PurgeContract .dataRaft (runLog .dataRaft .new fromZero).1 ⟨⟨1, 1⟩, 0⟩ ∧
      ¬ PurgeContract .dataRaft (runLog .dataRaft .new single).1 ⟨⟨1, 1⟩, 1⟩ := by
  constructor
  · rintro ⟨t, hrun, hgone, -⟩
    obtain rfl : leftBehind ((RocksDBLogStorage.purge .dataRaft ⟨⟨1, 1⟩, 0⟩).run
        (runLog .dataRaft .new fromZero).1) = t := by
      rw [hrun]
      rfl
    exact absurd (hgone 0 (by decide)) (by decide)
  · rintro ⟨t, hrun, -, -, -, hagain⟩
    obtain rfl : leftBehind ((RocksDBLogStorage.purge .dataRaft ⟨⟨1, 1⟩, 1⟩).run
        (runLog .dataRaft .new single).1) = t := by
      rw [hrun]
      rfl
    exact absurd (congrArg succeeded hagain) (by decide)

end Witness

end Seshat
