/-
Restarting a node.  Both Raft groups keep their logs in one database, and opening
it reads the last key of each log.  The database reopens with the indices it had
as long as every call leaves each log with an entry, or as empty as it was, and
every append ends at the highest index.
-/
import Seshat.Lib.Trace
import Seshat.Storage.Purge
import Seshat.Storage.Vote
import Seshat.Storage.Writes

namespace Seshat

open Decimal

/-- The database reopens, and each log gives its highest index before and after. -/
def RestartSafe (s : Storage) : Prop :=
  ∃ t, s.reopen = .ok t ∧ ∀ g : RaftGroup, ∃ last,
    Highest s g.logCf last ∧
      returned ((getLastLogIndex g.logCf).run s) = .ok last ∧
      returned ((getLastLogIndex g.logCf).run t) = .ok last

theorem logCf_ne {g g' : RaftGroup} (hne : g' ≠ g) : g'.logCf ≠ g.logCf := by
  cases g <;> cases g' <;> first | exact absurd rfl hne | decide

theorem logCf_ne_stateCf (g g' : RaftGroup) : g.logCf ≠ g'.stateCf := by
  cases g <;> cases g' <;> decide

/-- A log that can be opened, with nothing wrong in its cache. -/
structure Healthy (s : Storage) (cf : ColumnFamily) : Prop where
  cache : CacheSound s cf
  openable : Openable s cf

/-- A log with an entry has its last log id on record. -/
def Recorded (s : Storage) (cf : ColumnFamily) : Prop :=
  (∃ index value, storedAt s cf index = some value) →
    ∃ value, s.get cf lastLogIdKey = some value

theorem getLastLogIndex_run_healthy {s : Storage} {cf : ColumnFamily}
    (hcf : cf.isLogCf = true) (hkeys : LogKeysOnly s cf) (h : Healthy s cf) :
    ∃ last, Highest s cf last ∧ returned ((getLastLogIndex cf).run s) = .ok last := by
  rcases h.openable with ⟨index, value, hvalue⟩ | hempty
  · obtain ⟨last, hlast, -⟩ := lastKey_of_stored hkeys hvalue
    refine ⟨some last, hlast, ?_⟩
    rw [getLastLogIndex, getCachedLastLogIndex_run_isLast hcf hkeys h.cache hlast]
    rfl
  · have hmiss : s.lastLogIndexCache cf = none :=
      Option.eq_none_iff_forall_ne_some.mpr fun last hlast => by
        obtain ⟨value, hvalue⟩ := (h.cache last hlast).stored
        rw [storedAt, hempty] at hvalue
        contradiction
    refine ⟨none, fun index => hempty _, ?_⟩
    rw [getLastLogIndex, getCachedLastLogIndex_run_none hmiss
      (getLastLogIndexFromDb_run_empty hcf hempty)]
    rfl

/-- A log column family that did not change. -/
structure SameLog (s t : Storage) (cf : ColumnFamily) : Prop where
  get : ∀ key, t.get cf key = s.get cf key
  cache : t.lastLogIndexCache cf = s.lastLogIndexCache cf

theorem isLast_congr {s t : Storage} {cf : ColumnFamily}
    (hget : ∀ key, t.get cf key = s.get cf key) {last : UInt64} :
    IsLast t cf last ↔ IsLast s cf last := by
  have hstored : storedAt t cf = storedAt s cf := funext fun index => hget _
  constructor <;> rintro ⟨hlast, hmax⟩
  · exact ⟨hstored ▸ hlast, hstored ▸ hmax⟩
  · exact ⟨hstored ▸ hlast, hstored ▸ hmax⟩

theorem SameLog.healthy {s t : Storage} {cf : ColumnFamily} (h : SameLog s t cf)
    (hs : Healthy s cf) : Healthy t cf := by
  refine ⟨fun last hlast => (isLast_congr h.get).mpr (hs.cache last (h.cache ▸ hlast)), ?_⟩
  rcases hs.openable with ⟨index, value, hvalue⟩ | hempty
  · exact Or.inl ⟨index, value, (h.get _).trans hvalue⟩
  · exact Or.inr fun key => (h.get key).trans (hempty key)

theorem SameLog.keys {s t : Storage} {cf : ColumnFamily} (h : SameLog s t cf)
    (hs : LogKeysOnly s cf) : LogKeysOnly t cf :=
  fun key value hget => hs key value ((h.get key).symm.trans hget)

theorem SameLog.recorded {s t : Storage} {cf : ColumnFamily} (h : SameLog s t cf)
    (hs : Recorded s cf) : Recorded t cf := by
  rintro ⟨index, value, hvalue⟩
  obtain ⟨record, hrecord⟩ := hs ⟨index, value, (h.get _).symm.trans hvalue⟩
  exact ⟨record, (h.get _).trans hrecord⟩

/-- A restart is safe exactly if both logs are healthy. -/
theorem restartSafe_iff {s : Storage} (hkeys : ∀ g : RaftGroup, LogKeysOnly s g.logCf) :
    RestartSafe s ↔ ∀ g : RaftGroup, Healthy s g.logCf := by
  constructor
  · rintro ⟨t, hopen, hindex⟩ g
    refine ⟨fun last hlast => ?_, openable_of_reopen hkeys hopen g⟩
    obtain ⟨highest, hhighest, hbefore, -⟩ := hindex g
    rw [getLastLogIndex, getCachedLastLogIndex_run_hit hlast] at hbefore
    cases hbefore
    exact hhighest
  · intro hhealthy
    obtain ⟨t, hopen, hdb, hcache⟩ :=
      reopen_of_openable hkeys fun g => (hhealthy g).openable
    have hget : ∀ cf key, t.get cf key = s.get cf key := by
      rw [Storage.get_eq_of_db_eq hdb]
      exact fun _ _ => rfl
    refine ⟨t, hopen, fun g => ?_⟩
    obtain ⟨last, hlast, hbefore⟩ :=
      getLastLogIndex_run_healthy g.logCf_isLogCf (hkeys g) (hhealthy g)
    refine ⟨last, hlast, hbefore, ?_⟩
    have hsame := (hcache g).unique hlast
    have hwarm : t.lastLogIndexCache g.logCf = last := hsame
    cases last with
    | some index =>
        rw [getLastLogIndex, getCachedLastLogIndex_run_hit hwarm]
        rfl
    | none =>
        have hempty : ∀ key, t.get g.logCf key = none := by
          intro key
          rw [hget]
          rcases (hhealthy g).openable with ⟨index, value, hvalue⟩ | hempty
          · rw [hlast] at hvalue
            contradiction
          · exact hempty key
        rw [getLastLogIndex, getCachedLastLogIndex_run_none hwarm
          (getLastLogIndexFromDb_run_empty g.logCf_isLogCf hempty)]
        rfl

theorem SameLog.refl (s : Storage) (cf : ColumnFamily) : SameLog s s cf where
  get _ := rfl
  cache := rfl

theorem SameLog.trans {s t u : Storage} {cf : ColumnFamily} (h : SameLog s t cf)
    (h' : SameLog t u cf) : SameLog s u cf where
  get key := (h'.get key).trans (h.get key)
  cache := h'.cache.trans h.cache

theorem sameLog_put {cf cf' : ColumnFamily} (hcf : cf' ≠ cf) (s : Storage) (key value : Bytes) :
    SameLog s (s.apply (.put cf key value)) cf' where
  get key' := by rw [Storage.get_apply_put, if_neg fun h => hcf h.1]
  cache := by rw [Storage.cache_apply]

theorem sameLog_setCache {cf cf' : ColumnFamily} (hcf : cf' ≠ cf) (s : Storage)
    (index : Option UInt64) : SameLog s (s.setCache cf index) cf' where
  get key := rfl
  cache := by rw [Storage.cache_setCache, Function.update_of_ne hcf]

theorem sameLog_write {batch : WriteBatch} {cf : ColumnFamily}
    (h : ∀ op ∈ batch, op.update.1.1 ≠ cf) (s : Storage) : SameLog s (s.write batch) cf where
  get := Storage.get_write_of_ne h s
  cache := by rw [Storage.cache_write]

theorem sameLog_truncated {cf cf' : ColumnFamily} (hcf : cf' ≠ cf) (s : Storage)
    (last truncateIndex : UInt64) : SameLog s (truncated s cf last truncateIndex) cf' := by
  refine (sameLog_write ?_ s).trans (sameLog_setCache hcf _ _)
  intro op hop
  obtain ⟨index, -, rfl⟩ := List.mem_map.mp hop
  exact hcf.symm

/-- What a restart relies on beside healthy logs. -/
structure RestartInvariant (s : Storage) : Prop where
  keys : ∀ g : RaftGroup, LogKeysOnly s g.logCf
  recorded : ∀ g : RaftGroup, Recorded s g.logCf

theorem restartInvariant_new : RestartInvariant .new where
  keys g := logKeysOnly_new g.logCf
  recorded g := by
    rintro ⟨index, value, hvalue⟩
    rw [storedAt, Storage.get_new] at hvalue
    contradiction

theorem healthy_new (cf : ColumnFamily) : Healthy .new cf where
  cache := by rintro last ⟨⟩
  openable := Or.inr fun key => Storage.get_new cf key

section Calls

variable [MembershipApi] [Prost LogIdMessage] [Prost MembershipMessage]

omit [Prost LogIdMessage] in
theorem sameLog_half {g : RaftGroup} {cf : ColumnFamily} (hcf : cf ≠ g.logCf) (s : Storage)
    (batch : List Entry) :
    SameLog s (s.write (RocksDBLogStorage.appendBatch g batch)) cf := by
  refine sameLog_write (fun op hop => ?_) s
  obtain ⟨entry, -, rfl⟩ := List.mem_map.mp hop
  exact hcf.symm

theorem sameLog_appended {g : RaftGroup} {cf : ColumnFamily} (hcf : cf ≠ g.logCf)
    (s : Storage) (entries : List Entry) : SameLog s (appended g s entries) cf := by
  rw [appended]
  split
  · exact .refl s cf
  · exact ((sameLog_half hcf s entries).trans (sameLog_put hcf _ _ _)).trans
      (sameLog_setCache hcf _ _)

/-- A call of one group leaves the log of the other alone. -/
theorem sameLog_call {g : RaftGroup} {s : Storage} (hkeys : LogKeysOnly s g.logCf)
    (op : LogOp) {cf : ColumnFamily} (hcf : cf ≠ g.logCf) :
    SameLog s (leaves ((op.call g).run s)) cf := by
  cases op with
  | append entries =>
      rcases Nat.lt_or_ge maxBatchOperations entries.length with hlarge | hsmall
      · rw [LogOp.call, append_run_tooLarge hlarge]
        exact .refl s cf
      · rw [LogOp.call, append_run hsmall]
        exact sameLog_appended hcf s entries
  | truncate id =>
      rw [LogOp.call]
      rcases truncate_run_known hkeys id with ⟨last, -, hrun⟩ | ⟨-, hrun | ⟨e, hrun⟩⟩
      · rw [hrun]
        exact (sameLog_setCache hcf s _).trans (sameLog_truncated hcf _ _ _)
      · rw [hrun]
        exact .refl s cf
      · rw [hrun]
        exact .refl s cf
  | purge id =>
      rw [LogOp.call]
      by_cases hid : id.index.toNat + 1 < 2 ^ 64
      · rcases purge_run_known hkeys hid with
          ⟨last, -, hrun⟩ | ⟨-, -, ⟨-, hrun⟩ | ⟨-, e, hrun⟩⟩
        · rw [hrun]
          exact ((sameLog_setCache hcf s _).trans (sameLog_truncated hcf _ _ _)).trans
            (sameLog_put hcf _ _ _)
        · rw [hrun]
          exact sameLog_put hcf s _ _
        · rw [hrun]
          exact .refl s cf
      · rw [purge_run_overflow hid]
        exact .refl s cf

omit [MembershipApi] [Prost LogIdMessage] [Prost MembershipMessage] in
/-- Beside the record only an entry makes a log openable. -/
theorem openable_iff_of_record {s : Storage} {cf : ColumnFamily} {key value : Bytes}
    (hget : s.get cf key = some value) :
    Openable s cf ↔ ∃ index value, storedAt s cf index = some value := by
  constructor
  · rintro (hstored | hempty)
    · exact hstored
    · rw [hempty] at hget
      contradiction
  · exact Or.inl

omit [MembershipApi] [Prost LogIdMessage] [Prost MembershipMessage] in
/-- Without anything cached, a log with a record is healthy while it has entries. -/
theorem healthy_iff_of_miss {s : Storage} {cf : ColumnFamily} {key value : Bytes}
    (hmiss : s.lastLogIndexCache cf = none) (hget : s.get cf key = some value) :
    Healthy s cf ↔ ∃ index value, storedAt s cf index = some value := by
  rw [← openable_iff_of_record hget]
  exact ⟨Healthy.openable, fun hopen => ⟨cacheSound_of_miss hmiss, hopen⟩⟩

/-- What a call must not do to a log, by the state it is made in. -/
def LogOp.KeepsLog (g : RaftGroup) (s : Storage) : LogOp → Prop
  | append entries => entries.length ≤ maxBatchOperations → EndsHighest g s entries
  | truncate id =>
      (∀ index, storedAt s g.logCf index = none) ∨
        ∃ index value, storedAt s g.logCf index = some value ∧ (index = 0 ∨ id.index ≤ index)
  | purge id =>
      id.index.toNat + 1 < 2 ^ 64 →
        ∃ index value, storedAt s g.logCf index = some value ∧ (index = 0 ∨ id.index < index)

/-- What one call leaves of a healthy log. -/
structure LogStep (g : RaftGroup) (s t : Storage) (keeps : Prop) : Prop where
  keys : LogKeysOnly t g.logCf
  recorded : Recorded t g.logCf
  healthy : Healthy t g.logCf ↔ keeps

theorem logStep_append {g : RaftGroup} {s : Storage} (hkeys : LogKeysOnly s g.logCf)
    (hrecorded : Recorded s g.logCf) (hs : Healthy s g.logCf) (entries : List Entry) :
    LogStep g s (leaves ((RocksDBLogStorage.append g entries).run s))
      ((LogOp.append entries).KeepsLog g s) := by
  rcases Nat.lt_or_ge maxBatchOperations entries.length with hlarge | hsmall
  · rw [append_run_tooLarge hlarge]
    exact ⟨hkeys, hrecorded, iff_of_true hs fun hle => absurd hlarge (Nat.not_lt.mpr hle)⟩
  · rw [append_run hsmall]
    have hextends := appended_extends g s entries
    change LogStep g s (appended g s entries) _
    cases hlast : entries.getLast? with
    | none =>
        obtain rfl := List.getLast?_eq_none_iff.mp hlast
        exact ⟨hkeys, hrecorded, iff_of_true hs fun _ => endsHighest_nil g s⟩
    | some last =>
        have hrecord : (appended g s entries).get g.logCf lastLogIdKey =
            some (logIdRecord last.logId) := by
          rw [hextends.lastLogId, hlast]
          rfl
        have hcache : (appended g s entries).lastLogIndexCache g.logCf =
            some last.logId.index := by
          rw [hextends.cache, hlast]
          rfl
        refine ⟨hextends.keys hkeys, fun _ => ⟨_, hrecord⟩, ?_⟩
        rw [LogOp.KeepsLog, imp_iff_right hsmall, ← hextends.isLast_iff hlast]
        refine ⟨fun h => h.cache _ hcache, fun h => ⟨fun index hindex => ?_, Or.inl ?_⟩⟩
        · rw [hcache] at hindex
          exact Option.some.inj hindex ▸ h
        · exact ⟨_, h.stored⟩

omit [MembershipApi] [Prost LogIdMessage] [Prost MembershipMessage] in
theorem logStep_truncate {g : RaftGroup} {s : Storage} (hkeys : LogKeysOnly s g.logCf)
    (hrecorded : Recorded s g.logCf) (hs : Healthy s g.logCf) (id : LogId) :
    LogStep g s (leaves ((RocksDBLogStorage.truncate g id).run s))
      ((LogOp.truncate id).KeepsLog g s) := by
  rcases truncate_run_cases hkeys hs.cache id with ⟨last, hlast, hrun⟩ | ⟨hnone, hrun | ⟨e, hrun⟩⟩
  · rw [hrun, leaves]
    obtain ⟨value, hvalue⟩ := hlast.stored
    obtain ⟨record, hrecord⟩ := hrecorded ⟨last, value, hvalue⟩
    have hget : (truncated (s.setCache g.logCf (some last)) g.logCf last id.index).get g.logCf
        lastLogIdKey = some record := by
      rw [get_truncated_metadata _ _ _ _ lastLogIdKey_mem]
      exact hrecord
    refine ⟨LogKeysOnly.truncated (s := s.setCache g.logCf (some last)) hkeys _ _,
      fun _ => ⟨record, hget⟩, ?_⟩
    refine (healthy_iff_of_miss (by rw [cache_truncated, Function.update_self]) hget).trans ?_
    refine (exists_storedAt_truncated (s := s.setCache g.logCf (some last)) hlast.max
      id.index).trans ⟨Or.inr, ?_⟩
    rintro (hnone | hkept)
    · rw [hnone] at hvalue
      contradiction
    · exact hkept
  · rw [hrun]
    exact ⟨hkeys, hrecorded, iff_of_true hs (Or.inl hnone)⟩
  · rw [hrun]
    exact ⟨hkeys, hrecorded, iff_of_true hs (Or.inl hnone)⟩

omit [MembershipApi] [Prost MembershipMessage] in
theorem logStep_purge {g : RaftGroup} {s : Storage} (hkeys : LogKeysOnly s g.logCf)
    (hrecorded : Recorded s g.logCf) (hs : Healthy s g.logCf) (id : LogId) :
    LogStep g s (leaves ((RocksDBLogStorage.purge g id).run s))
      ((LogOp.purge id).KeepsLog g s) := by
  by_cases hid : id.index.toNat + 1 < 2 ^ 64
  · rw [LogOp.KeepsLog, imp_iff_right hid]
    rcases purge_run_cases hkeys hs.cache hid with
      ⟨last, hlast, hrun⟩ | ⟨hnone, hmiss, ⟨-, hrun⟩ | ⟨⟨key, value, hget⟩, -⟩⟩
    · rw [hrun, leaves]
      obtain ⟨value, hvalue⟩ := hlast.stored
      obtain ⟨record, hrecord⟩ := hrecorded ⟨last, value, hvalue⟩
      have hget := get_purged_lastLogId g s id last
      refine ⟨hkeys.purged id last, fun _ => ⟨record, hget.trans hrecord⟩, ?_⟩
      refine (healthy_iff_of_miss (by rw [cache_purged, Function.update_self])
        (hget.trans hrecord)).trans ?_
      have hkept := exists_storedAt_truncated (s := s.setCache g.logCf (some last)) hlast.max
        (id.index + 1)
      simp only [add_one_le_iff hid] at hkept
      refine Iff.trans ?_ hkept
      simp only [purged, storedAt_put_metadata lastPurgedLogIdKey_mem]
    · -- the record of the purged id is all that the log holds
      rw [hrun, leaves]
      have hsame : ∀ index, storedAt (s.apply (.put g.logCf lastPurgedLogIdKey
          (logIdRecord id))) g.logCf index = storedAt s g.logCf index :=
        storedAt_put_metadata lastPurgedLogIdKey_mem s g.logCf _
      refine ⟨hkeys.put_metadata lastPurgedLogIdKey_mem _, ?_, ?_⟩
      · rintro ⟨index, value, hvalue⟩
        rw [hsame, hnone] at hvalue
        contradiction
      · have hget : (s.apply (.put g.logCf lastPurgedLogIdKey (logIdRecord id))).get g.logCf
            lastPurgedLogIdKey = some (logIdRecord id) := by simp
        refine (healthy_iff_of_miss (by rw [Storage.cache_apply, hmiss]) hget).trans ?_
        simp only [hsame, hnone]
        simp
    · exfalso
      rcases hs.openable with ⟨index, v, hv⟩ | hempty
      · rw [hnone] at hv
        contradiction
      · rw [hempty] at hget
        contradiction
  · rw [purge_run_overflow hid]
    exact ⟨hkeys, hrecorded, iff_of_true hs fun h => absurd h hid⟩

theorem logStep_call {g : RaftGroup} {s : Storage} (hkeys : LogKeysOnly s g.logCf)
    (hrecorded : Recorded s g.logCf) (hs : Healthy s g.logCf) (op : LogOp) :
    LogStep g s (leaves ((op.call g).run s)) (op.KeepsLog g s) := by
  cases op with
  | append entries => exact logStep_append hkeys hrecorded hs entries
  | truncate id => exact logStep_truncate hkeys hrecorded hs id
  | purge id => exact logStep_purge hkeys hrecorded hs id

/-- The writing calls of a log storage. -/
inductive StoreOp where
  | log (op : LogOp)
  | saveVote (vote : Vote)

/-- A saved vote is no danger to a log. -/
def StoreOp.KeepsLog (g : RaftGroup) (s : Storage) : StoreOp → Prop
  | log op => op.KeepsLog g s
  | saveVote _ => True

/-- The log storages of both groups on one database. -/
structure LogStores where
  storage : Storage
  cachedVote : RaftGroup → Option Vote

theorem RestartInvariant.step_log {s : Storage} (h : RestartInvariant s)
    (hs : ∀ g : RaftGroup, Healthy s g.logCf) (g : RaftGroup) (op : LogOp) :
    RestartInvariant (leaves ((op.call g).run s)) ∧
      ((∀ g' : RaftGroup, Healthy (leaves ((op.call g).run s)) g'.logCf) ↔ op.KeepsLog g s) := by
  obtain ⟨hkeys, hrecorded, hhealthy⟩ := logStep_call (h.keys g) (h.recorded g) (hs g) op
  -- the other group's log is as it was
  have hother : ∀ g', g' ≠ g → SameLog s (leaves ((op.call g).run s)) g'.logCf :=
    fun g' hne => sameLog_call (h.keys g) op (logCf_ne hne)
  refine ⟨⟨fun g' => ?_, fun g' => ?_⟩, fun hall => hhealthy.mp (hall g), fun hkeeps g' => ?_⟩
  · by_cases hg : g' = g
    · exact hg ▸ hkeys
    · exact (hother g' hg).keys (h.keys g')
  · by_cases hg : g' = g
    · exact hg ▸ hrecorded
    · exact (hother g' hg).recorded (h.recorded g')
  · by_cases hg : g' = g
    · exact hg ▸ hhealthy.mpr hkeeps
    · exact (hother g' hg).healthy (hs g')

section Stores

variable [Prost VoteMessage]

def StoreOp.call (g : RaftGroup) : StoreOp → LogStorageM Unit
  | log op => onStorage (op.call g)
  | saveVote vote => RocksDBLogStorage.saveVote g vote

namespace LogStores

/-- A new database with nothing cached. -/
def new : LogStores := ⟨.new, fun _ => none⟩

def ofGroup (stores : LogStores) (g : RaftGroup) : RocksDBLogStorage :=
  ⟨stores.storage, stores.cachedVote g⟩

/-- One call of one group, whether or not it succeeds. -/
def step (stores : LogStores) (call : RaftGroup × StoreOp) : LogStores :=
  let t := leaves ((call.2.call call.1).run (stores.ofGroup call.1))
  ⟨t.storage, Function.update stores.cachedVote call.1 t.cachedVote⟩

theorem storage_step_log (stores : LogStores) (g : RaftGroup) (op : LogOp) :
    (stores.step (g, .log op)).storage = leaves ((op.call g).run stores.storage) := by
  rw [step, StoreOp.call, EStateM.run, onStorage, ofGroup]
  cases (op.call g).run stores.storage <;> rfl

theorem storage_step_saveVote (stores : LogStores) (g : RaftGroup) (vote : Vote) :
    (stores.step (g, .saveVote vote)).storage =
      stores.storage.apply (.put g.stateCf voteKey
        (Prost.encodeToVec (VoteMessage.fromVote vote))) := by
  rw [step, StoreOp.call, saveVote_run]
  rfl

end LogStores

theorem RestartInvariant.step {stores : LogStores} (h : RestartInvariant stores.storage)
    (hs : ∀ g : RaftGroup, Healthy stores.storage g.logCf) (call : RaftGroup × StoreOp) :
    RestartInvariant (stores.step call).storage ∧
      ((∀ g : RaftGroup, Healthy (stores.step call).storage g.logCf) ↔
        call.2.KeepsLog call.1 stores.storage) := by
  obtain ⟨g, op | vote⟩ := call
  · rw [LogStores.storage_step_log]
    exact h.step_log hs g op
  · rw [LogStores.storage_step_saveVote]
    have hsame := fun g' : RaftGroup => sameLog_put (logCf_ne_stateCf g' g) stores.storage voteKey
      (Prost.encodeToVec (VoteMessage.fromVote vote))
    exact ⟨⟨fun g' => (hsame g').keys (h.keys g'), fun g' => (hsame g').recorded (h.recorded g')⟩,
      iff_of_true (fun g' => (hsame g').healthy (hs g')) trivial⟩

/-- A run of calls stays safe to restart after each of them exactly if every append
it accepts ends at the highest index and no truncation or purge takes the last entry
of a log. -/
theorem restartSafe_always_iff (calls : List (RaftGroup × StoreOp)) :
    Trace.Always LogStores.step (fun stores => RestartSafe stores.storage) .new calls ↔
      Trace.EachStep LogStores.step
        (fun stores call => call.2.KeepsLog call.1 stores.storage) .new calls := by
  have hsafe : ∀ stores : LogStores, RestartInvariant stores.storage →
      (RestartSafe stores.storage ↔ ∀ g : RaftGroup, Healthy stores.storage g.logCf) :=
    fun stores h => restartSafe_iff h.keys
  refine Trace.always_iff_eachStep (fun stores => RestartInvariant stores.storage) ?_ ?_
    restartInvariant_new ?_ calls
  · intro stores call hinv hP _
    exact (hinv.step ((hsafe stores hinv).mp hP) call).1
  · intro stores call hinv hP
    obtain ⟨hnext, hiff⟩ := hinv.step ((hsafe stores hinv).mp hP) call
    exact (hsafe _ hnext).trans hiff
  · exact (hsafe .new restartInvariant_new).mpr fun g => healthy_new g.logCf

end Stores

end Calls

namespace Witness

/-- The only entry of a log is purged. -/
def purgeOnly : List (RaftGroup × StoreOp) :=
  [(.dataRaft, .log (.append [blankEntry 1 1 1])), (.dataRaft, .log (.purge ⟨⟨1, 1⟩, 1⟩))]

/-- The record of the purged id is then the last key, and opening takes it for a
corrupted log key. -/
theorem purged_log_does_not_reopen :
    ¬ Trace.Always LogStores.step (fun stores => RestartSafe stores.storage) .new purgeOnly ∧
      (purgeOnly.foldl LogStores.step .new).storage.reopen.map (fun _ => ()) =
        .error (.corruptedData (ascii "data_raft_log") lastPurgedLogIdKey
          (ascii "Key does not start with 'log:': __last_purged_log_id")) := by
  have hreopen : (purgeOnly.foldl LogStores.step .new).storage.reopen.map (fun _ => ()) =
      .error (.corruptedData (ascii "data_raft_log") lastPurgedLogIdKey
        (ascii "Key does not start with 'log:': __last_purged_log_id")) := by decide
  refine ⟨fun halways => ?_, hreopen⟩
  obtain ⟨t, hopen, -⟩ := halways purgeOnly List.prefix_rfl
  rw [hopen] at hreopen
  contradiction

end Witness

end Seshat
