/-
The two log stores side by side.  The same calls are made on the store in memory and on the
one over RocksDB, and the latter is restarted in between.  As long as the log grows at its
end and a purge leaves an entry, the store on disk reads like the one that never went down,
but for the leaders of its entries and for whether its vote was committed.
-/
import Seshat.Storage.MemLog
import Seshat.Storage.Restart

namespace Seshat

open Decimal Keyed

/-- The calls made on both stores; only the one on disk goes through a restart. -/
inductive TwinCall where
  | append (entries : List Entry)
  | purge (id : LogId)
  | saveVote (vote : Vote)
  | restart

namespace TwinCall

def inMemory (m : OpenRaftMemLog) : TwinCall → OpenRaftMemLog
  | append entries => m.append entries
  | purge id => m.purge id
  | saveVote vote => m.saveVote vote
  | restart => m

def purgeId : TwinCall → Option LogId
  | purge id => some id
  | _ => none

/-- The log grows at its end: an accepted batch ends at the highest index.  It is compacted
behind its end: a purge finds no entry at index 0 and leaves one. -/
def Orderly (m : OpenRaftMemLog) : TwinCall → Prop
  | append entries =>
      entries.length ≤ maxBatchOperations ∧ ∀ last, entries.getLast? = some last →
        (∀ entry ∈ entries, entry.logId.index ≤ last.logId.index) ∧
          ∀ index, m.contents index ≠ none → index ≤ last.logId.index
  | purge id => m.contents 0 = none ∧ ∃ index, id.index < index ∧ m.contents index ≠ none
  | _ => True

end TwinCall

/-- The store in memory after these calls. -/
def runInMemory (calls : List TwinCall) : OpenRaftMemLog := calls.foldl TwinCall.inMemory .new

/-- The id of the last purge among the calls. -/
def lastPurgeCall (calls : List TwinCall) : Option LogId :=
  (calls.filterMap TwinCall.purgeId).getLast?

theorem lastPurgeCall_concat (calls : List TwinCall) (call : TwinCall) :
    lastPurgeCall (calls ++ [call]) = call.purgeId.or (lastPurgeCall calls) := by
  cases call <;> simp [lastPurgeCall, TwinCall.purgeId]

/-- The state after a call that succeeded. -/
def finished {ε σ α : Type} : EStateM.Result ε σ α → Option σ
  | .ok _ s => some s
  | .error _ _ => none

section Calls

variable [MembershipApi] [Prost LogIdMessage] [Prost MembershipMessage] [Prost VoteMessage]

def TwinCall.onDisk (g : RaftGroup) (store : RocksDBLogStorage) :
    TwinCall → Option RocksDBLogStorage
  | append entries => finished ((onStorage (RocksDBLogStorage.append g entries)).run store)
  | purge id => finished ((onStorage (RocksDBLogStorage.purge g id)).run store)
  | saveVote vote => finished ((RocksDBLogStorage.saveVote g vote).run store)
  | restart =>
      match store.storage.reopen with
      | .ok s => some (.new s)
      | .error _ => none

/-- The store on disk after these calls, if every one succeeded. -/
def runOnDisk (g : RaftGroup) (calls : List TwinCall) : Option RocksDBLogStorage :=
  calls.foldlM (TwinCall.onDisk g) (.new .new)

/-- The store on disk holds what the store in memory does. -/
structure Mirrors (g : RaftGroup) (purged : Option LogId) (m : OpenRaftMemLog)
    (store : RocksDBLogStorage) : Prop where
  keyed : m.contents.Keyed
  keys : ∀ g' : RaftGroup, LogKeysOnly store.storage g'.logCf
  stored : ∀ index, storedAt store.storage g.logCf index = (m.contents index).map entryBytes
  lastLogId : store.storage.get g.logCf lastLogIdKey = m.getLogState.lastLogId.map logIdRecord
  lastPurged : store.storage.get g.logCf lastPurgedLogIdKey = purged.map logIdRecord
  healthy : ∀ g' : RaftGroup, Healthy store.storage g'.logCf
  vote : store.storage.get g.stateCf voteKey =
    m.vote.map fun vote => Prost.encodeToVec (VoteMessage.fromVote vote)
  cached : ∀ cached, store.cachedVote = some cached →
    ∃ vote, m.vote = some vote ∧ cached.leaderId = vote.leaderId

namespace Mirrors

variable {g : RaftGroup} {purged : Option LogId} {m : OpenRaftMemLog}
  {store : RocksDBLogStorage}

theorem new (g : RaftGroup) : Mirrors g none .new (.new .new) where
  keyed := OpenRaftMemLog.keyed_contents_run []
  keys g' := logKeysOnly_new g'.logCf
  stored index := by
    rw [storedAt, RocksDBLogStorage.new, Storage.get_new]
    exact (congrArg (Option.map entryBytes) Std.ExtTreeMap.getElem?_empty).symm
  lastLogId := (Storage.get_new _ _).trans rfl
  lastPurged := Storage.get_new _ _
  healthy g' := healthy_new g'.logCf
  vote := Storage.get_new _ _
  cached := by
    rintro cached ⟨⟩

theorem exists_stored_iff (h : Mirrors g purged m store) {index : UInt64} :
    (∃ value, storedAt store.storage g.logCf index = some value) ↔
      m.contents index ≠ none := by
  rw [h.stored]
  cases m.contents index <;> simp

/-- A change of the group's log alone keeps the other one and the vote. -/
theorem of_log {purged' : Option LogId} {m' : OpenRaftMemLog} {s : Storage}
    (h : Mirrors g purged m store) (hvote : m'.vote = m.vote)
    (hsame : ∀ cf, cf ≠ g.logCf → SameLog store.storage s cf)
    (hkeyed : m'.contents.Keyed) (hkeys : LogKeysOnly s g.logCf)
    (hstored : ∀ index, storedAt s g.logCf index = (m'.contents index).map entryBytes)
    (hlast : s.get g.logCf lastLogIdKey = m'.getLogState.lastLogId.map logIdRecord)
    (hpurged : s.get g.logCf lastPurgedLogIdKey = purged'.map logIdRecord)
    (hhealthy : Healthy s g.logCf) : Mirrors g purged' m' { store with storage := s } where
  keyed := hkeyed
  keys g' := by
    by_cases hg : g' = g
    · rw [hg]
      exact hkeys
    · exact (hsame _ (logCf_ne hg)).keys (h.keys g')
  stored := hstored
  lastLogId := hlast
  lastPurged := hpurged
  healthy g' := by
    by_cases hg : g' = g
    · rw [hg]
      exact hhealthy
    · exact (hsame _ (logCf_ne hg)).healthy (h.healthy g')
  vote := by
    rw [hvote, ← h.vote]
    exact (hsame _ (logCf_ne_stateCf g g).symm).get voteKey
  cached := by
    rw [hvote]
    exact h.cached

theorem append (h : Mirrors g purged m store) {entries : List Entry}
    (hends : ∀ last, entries.getLast? = some last →
      (∀ entry ∈ entries, entry.logId.index ≤ last.logId.index) ∧
        ∀ index, m.contents index ≠ none → index ≤ last.logId.index) :
    Mirrors g purged (m.append entries)
      { store with storage := appended g store.storage entries } := by
  cases hlast : entries.getLast? with
  | none =>
      obtain rfl := List.getLast?_eq_none_iff.mp hlast
      exact h
  | some last =>
      obtain ⟨hbatch, hbehind⟩ := hends last hlast
      have hextends := appended_extends g store.storage entries
      have hcontents := OpenRaftMemLog.contents_append entries m
      have hentry : (m.append entries).contents last.logId.index = some last := by
        rw [hcontents, AbstractLog.append, latest_getLast hlast]
        rfl
      have hhighest : ∀ index, (m.append entries).contents index ≠ none →
          index ≤ last.logId.index := by
        intro index hindex
        rw [hcontents, AbstractLog.append] at hindex
        cases hlatest : latest entries index with
        | none =>
            rw [hlatest, Option.none_or] at hindex
            exact hbehind index hindex
        | some entry =>
            obtain ⟨hmem, rfl⟩ := latest_eq_some hlatest
            exact hbatch entry hmem
      have hisLast : IsLast (appended g store.storage entries) g.logCf last.logId.index := by
        refine (hextends.isLast_iff hlast).mpr fun last' hlast' => ?_
        obtain rfl : last = last' := Option.some.inj (hlast.symm.trans hlast')
        exact ⟨hbatch, fun index value hvalue =>
          hbehind index (h.exists_stored_iff.mp ⟨value, hvalue⟩)⟩
      refine h.of_log rfl (fun cf hcf => sameLog_appended hcf _ _) ?_
        (hextends.keys (h.keys g)) ?_ ?_ (hextends.lastPurged.trans h.lastPurged) ?_
      · rw [hcontents]
        exact h.keyed.step AbstractLog.cutBehind (.append entries)
      · intro index
        rw [hextends.stored, h.stored, hcontents, AbstractLog.append, Option.map_or]
      · rw [hextends.lastLogId, hlast,
          OpenRaftMemLog.lastLogId_of_highest hentry hhighest]
        rfl
      · refine ⟨fun index hindex => ?_, Or.inl ⟨_, hisLast.stored⟩⟩
        rw [hextends.cache, hlast] at hindex
        obtain rfl : last.logId.index = index := Option.some.inj hindex
        exact hisLast

theorem purge (h : Mirrors g purged m store) {id : LogId} (hzero : m.contents 0 = none)
    {index : UInt64} (hindex : id.index < index) (hentry : m.contents index ≠ none) :
    ∃ s, (RocksDBLogStorage.purge g id).run store.storage = .ok () s ∧
      Mirrors g (some id) (m.purge id) { store with storage := s } := by
  have hid : id.index.toNat + 1 < 2 ^ 64 := by
    have hlt := UInt64.lt_iff_toNat_lt.mp hindex
    have hmax := index.toNat_lt
    omega
  rcases purge_run_cases (h.keys g) (h.healthy g).cache hid with ⟨last, hlast, hrun⟩ | ⟨hnone, -⟩
  · have hbehind : id.index < last := by
      obtain ⟨value, hvalue⟩ := h.exists_stored_iff.mpr hentry
      exact UInt64.lt_of_lt_of_le hindex (hlast.max index value hvalue)
    have hcontents : (m.purge id).contents = m.contents.remove fun index => index ≤ id.index :=
      OpenRaftMemLog.contents_step m (.purge id)
    have hstored : ∀ index, storedAt (Seshat.purged g store.storage id last) g.logCf index =
        ((m.purge id).contents index).map entryBytes := by
      intro index
      rw [storedAt_purged hid, h.stored, hcontents, AbstractLog.remove]
      by_cases hle : index ≤ id.index
      · rw [if_pos (decide_eq_true hle)]
        by_cases hzeroth : index = 0
        · rw [hzeroth, hzero]
          exact ite_self _
        · refine if_pos ⟨?_, UInt64.le_of_lt (UInt64.lt_of_le_of_lt hle hbehind), hle⟩
          rw [UInt64.le_iff_toNat_le]
          have hne : index.toNat ≠ 0 := fun heq => hzeroth (UInt64.toNat_inj.mp heq)
          exact Nat.pos_of_ne_zero hne
      · rw [if_neg fun hall => hle hall.2.2, if_neg (by simpa using hle)]
    refine ⟨_, hrun, h.of_log rfl ?_ ?_ ((h.keys g).purged id last) hstored ?_
      (get_purged_lastPurged g _ id last) ?_⟩
    · intro cf hcf
      exact ((sameLog_setCache hcf _ _).trans (sameLog_truncated hcf _ _ _)).trans
        (sameLog_put hcf _ _ _)
    · rw [hcontents]
      exact h.keyed.step AbstractLog.cutBehind (.purge id)
    · -- the last entry is the one before
      rw [get_purged_lastLogId, h.lastLogId]
      obtain ⟨entry, hlastEntry⟩ :=
        Option.ne_none_iff_exists'.mp (h.exists_stored_iff.mp hlast.stored)
      have hkept : (m.purge id).contents last = some entry := by
        rw [hcontents, AbstractLog.remove, if_neg (by simpa using hbehind)]
        exact hlastEntry
      rw [OpenRaftMemLog.lastLogId_of_highest hlastEntry, OpenRaftMemLog.lastLogId_of_highest hkept]
      · intro other hother
        rw [hcontents, AbstractLog.remove] at hother
        obtain ⟨value, hvalue⟩ := h.exists_stored_iff.mpr
          (fun hnone => hother (by rw [hnone]; exact ite_self _))
        exact hlast.max other value hvalue
      · intro other hother
        obtain ⟨value, hvalue⟩ := h.exists_stored_iff.mpr hother
        exact hlast.max other value hvalue
    · refine (healthy_iff_of_miss ?_ (get_purged_lastPurged g _ id last)).mpr
        ⟨last, (hlast.purged hid hbehind).stored⟩
      rw [cache_purged, Function.update_self]
  · obtain ⟨value, hvalue⟩ := h.exists_stored_iff.mpr hentry
    rw [hnone] at hvalue
    contradiction

theorem saveVote (h : Mirrors g purged m store) (vote : Vote) :
    Mirrors g purged (m.saveVote vote)
      ⟨store.storage.apply (.put g.stateCf voteKey
        (Prost.encodeToVec (VoteMessage.fromVote vote))), some vote⟩ := by
  have hsame : ∀ g' : RaftGroup, SameLog store.storage (store.storage.apply (.put g.stateCf
      voteKey (Prost.encodeToVec (VoteMessage.fromVote vote)))) g'.logCf :=
    fun g' => sameLog_put (logCf_ne_stateCf g' g) _ _ _
  refine ⟨h.keyed, fun g' => (hsame g').keys (h.keys g'), fun index => ?_, ?_, ?_,
    fun g' => (hsame g').healthy (h.healthy g'), ?_, ?_⟩
  · exact ((hsame g).get _).trans (h.stored index)
  · exact ((hsame g).get _).trans h.lastLogId
  · exact ((hsame g).get _).trans h.lastPurged
  · simp [OpenRaftMemLog.saveVote]
  · intro cached hcached
    exact ⟨vote, rfl, congrArg Vote.leaderId (Option.some.inj hcached).symm⟩

/-- The store comes up again with all it had, but for the cached vote. -/
theorem restart (h : Mirrors g purged m store) :
    ∃ s, store.storage.reopen = .ok s ∧ Mirrors g purged m (.new s) := by
  obtain ⟨s, hopen, hdb, hhighest⟩ :=
    reopen_of_openable h.keys fun g' => (h.healthy g').openable
  have hget : s.get = store.storage.get := Storage.get_eq_of_db_eq hdb
  refine ⟨s, hopen, h.keyed, fun g' => ?_, fun index => ?_, ?_, ?_, fun g' => ⟨?_, ?_⟩, ?_, ?_⟩
  · rw [LogKeysOnly, RocksDBLogStorage.new, hget]
    exact h.keys g'
  · rw [storedAt, RocksDBLogStorage.new, hget]
    exact h.stored index
  · rw [RocksDBLogStorage.new, hget]
    exact h.lastLogId
  · rw [RocksDBLogStorage.new, hget]
    exact h.lastPurged
  · intro last hlast
    have hfound := hhighest g'
    rw [show s.lastLogIndexCache g'.logCf = some last from hlast] at hfound
    exact (isLast_congr fun key => congrFun (congrFun hget _) key).mpr hfound
  · rw [Openable]
    simp only [storedAt, RocksDBLogStorage.new, hget]
    exact (h.healthy g').openable
  · rw [RocksDBLogStorage.new, hget]
    exact h.vote
  · intro cached hcached
    contradiction

theorem step (h : Mirrors g purged m store) (call : TwinCall) (hcall : call.Orderly m) :
    ∃ store', call.onDisk g store = some store' ∧
      Mirrors g (call.purgeId.or purged) (call.inMemory m) store' := by
  cases call with
  | append entries =>
      refine ⟨{ store with storage := appended g store.storage entries }, ?_, h.append hcall.2⟩
      have hrun := append_run (g := g) hcall.1 store.storage
      simp only [TwinCall.onDisk, onStorage, EStateM.run] at hrun ⊢
      rw [hrun]
      rfl
  | purge id =>
      obtain ⟨hzero, index, hindex, hentry⟩ := hcall
      obtain ⟨s, hrun, hs⟩ := h.purge hzero hindex hentry
      refine ⟨{ store with storage := s }, ?_, hs⟩
      simp only [TwinCall.onDisk, onStorage, EStateM.run] at hrun ⊢
      rw [hrun]
      rfl
  | saveVote vote => exact ⟨_, by rw [TwinCall.onDisk, saveVote_run, finished], h.saveVote vote⟩
  | restart =>
      obtain ⟨s, hopen, hs⟩ := h.restart
      exact ⟨.new s, by rw [TwinCall.onDisk, hopen], hs⟩

/-- The records name the last of the entries held in memory. -/
theorem facts (h : Mirrors g purged m store) :
    LogFacts g store.storage (m.log.toList.map Prod.snd) purged where
  keys := h.keys g
  lastLogId := by
    rw [h.lastLogId, OpenRaftMemLog.getLogState, List.getLast?_map, Option.map_map,
      Option.map_map]
    rfl
  lastPurged := h.lastPurged
  appended index value hvalue := by
    obtain ⟨entry, hentry⟩ :=
      Option.ne_none_iff_exists'.mp (h.exists_stored_iff.mp ⟨value, hvalue⟩)
    have hindex := h.keyed index entry hentry
    exact ⟨entry, ((OpenRaftMemLog.lists_toList h.keyed).2 entry).mpr (by rw [hindex, hentry]),
      hindex⟩

/-- Between two indices both stores see the same entries. -/
theorem logView_eq (h : Mirrors g purged m store) (lo hi : UInt64) :
    logView store.storage g.logCf lo hi =
      ((m.log.toList.filter fun pair => (RangeBounds.inclusive lo hi).Contains pair.1).map
        Prod.snd).map fun entry => (entry.logId.index, entryBytes entry) := by
  refine (logView_increasing store.storage g.logCf lo hi).eq_of_mem_iff ?_ ?_
  · have hsub : ((m.log.toList.filter fun pair =>
        (RangeBounds.inclusive lo hi).Contains pair.1).map Prod.snd).Sublist
          (m.log.toList.map Prod.snd) := List.filter_sublist.map _
    exact List.pairwise_map.mpr ((OpenRaftMemLog.lists_toList h.keyed).1.sublist hsub)
  · rintro ⟨index, value⟩
    rw [mem_logView, h.stored, Option.map_eq_some_iff]
    simp only [List.mem_map, List.mem_filter, Prod.exists, exists_eq_right, decide_eq_true_eq,
      Std.ExtTreeMap.mem_toList_iff_getElem?_eq_some, Prod.mk.injEq]
    constructor
    · rintro ⟨hlo, hhi, entry, hentry, hvalue⟩
      exact ⟨entry, ⟨index, hentry, hlo, hhi⟩, h.keyed index entry hentry, hvalue⟩
    · rintro ⟨entry, ⟨index', hentry, hlo, hhi⟩, hindex, hvalue⟩
      obtain rfl : index' = index := (h.keyed index' entry hentry).symm.trans hindex
      exact ⟨hlo, hhi, entry, hentry, hvalue⟩

/-- A read of the disk returns the entries of the memory, under the last one's leader. -/
theorem reads (h : Mirrors g purged m store) {lo hi : UInt64} (hle : lo ≤ hi) :
    ∃ entries, m.tryGetLogEntries (.inclusive lo hi) = .ok entries ∧
      RocksDBLogStorage.tryGetLogEntries g store.storage (.inclusive lo hi) =
        .ok (entries.map (rereadEntry m.getLogState.lastLogId)) ∧
      RocksDBLogReader.tryGetLogEntries g store.storage (.inclusive lo hi) =
        .ok (entries.map (rereadEntry m.getLogState.lastLogId)) := by
  have hpanics : (RangeBounds.inclusive lo hi).panics = false := by
    simpa [RangeBounds.inclusive, RangeBounds.panics] using hle
  refine ⟨_, by rw [OpenRaftMemLog.tryGetLogEntries, hpanics]; rfl, ?_⟩
  rw [RocksDBLogStorage.tryGetLogEntries_inclusive,
    RocksDBLogReader.tryGetLogEntries_inclusive g (h.keys g), h.logView_eq, rebuild_map,
    rebuild_map]
  cases hlast : m.getLogState.lastLogId with
  | some id =>
      have hrecord := h.lastLogId
      rw [hlast] at hrecord
      obtain ⟨hstorage, hreader⟩ := lastLogId_of_record hrecord
      rw [hstorage, hreader]
      exact ⟨rfl, rfl⟩
  | none =>
      -- nothing is stored, so that no id is asked for
      have hempty : m.log.toList = [] := by
        rw [OpenRaftMemLog.getLogState, Option.map_eq_none_iff] at hlast
        exact List.getLast?_eq_none_iff.mp hlast
      rw [hempty]
      exact ⟨rfl, rfl⟩

theorem readVote (h : Mirrors g purged m store) :
    ∃ vote store', (RocksDBLogStorage.readVote g).run store = .ok vote store' ∧
      vote.map Vote.leaderId = m.readVote.map Vote.leaderId := by
  cases hcached : store.cachedVote with
  | some cached =>
      obtain ⟨vote, hvote, hleader⟩ := h.cached cached hcached
      refine ⟨_, _, readVote_run_hit hcached, ?_⟩
      rw [OpenRaftMemLog.readVote, hvote, Option.map_some, Option.map_some, hleader]
  | none =>
      have hpersisted := h.vote
      cases hvote : m.vote with
      | none =>
          rw [hvote] at hpersisted
          exact ⟨_, _, readVote_run_none hcached hpersisted, by
            rw [OpenRaftMemLog.readVote, hvote]⟩
      | some vote =>
          rw [hvote] at hpersisted
          refine ⟨_, _, readVote_run_decode hcached hpersisted, ?_⟩
          rw [OpenRaftMemLog.readVote, hvote]
          rfl

end Mirrors

theorem mirrors_run (g : RaftGroup) (calls : List TwinCall)
    (horderly : Trace.EachStep TwinCall.inMemory TwinCall.Orderly .new calls) :
    ∃ store, runOnDisk g calls = some store ∧
      Mirrors g (lastPurgeCall calls) (runInMemory calls) store := by
  induction calls using List.reverseRecOn with
  | nil => exact ⟨_, rfl, Mirrors.new g⟩
  | append_singleton calls call ih =>
      obtain ⟨store, hrun, hstore⟩ := ih fun before a hbefore =>
        horderly before a (hbefore.trans (List.prefix_append calls [call]))
      obtain ⟨store', hstep, hstore'⟩ := hstore.step call (horderly calls call (List.prefix_refl _))
      refine ⟨store', ?_, ?_⟩
      · rw [runOnDisk] at hrun ⊢
        simp [List.foldlM_append, hrun, hstep]
      · rw [lastPurgeCall_concat, runInMemory, List.foldl_append]
        exact hstore'

/-- For every history of calls in which the log grows at its end and is compacted behind it,
with restarts of the store on disk anywhere in between: every call on disk succeeds; the
state it reports is the last purged id and the last log id in memory; reads of a range
return the entries held in memory, under the last one's leader; and the vote read is for
the leader voted for last. -/
theorem disk_log_mirrors_memory (g : RaftGroup) (calls : List TwinCall)
    (horderly : Trace.EachStep TwinCall.inMemory TwinCall.Orderly .new calls) :
    ∃ store, runOnDisk g calls = some store ∧
      RocksDBLogStorage.getLogState g store.storage =
        .ok ⟨lastPurgeCall calls, (runInMemory calls).getLogState.lastLogId⟩ ∧
      (∀ lo hi, lo ≤ hi → ∃ entries,
        (runInMemory calls).tryGetLogEntries (.inclusive lo hi) = .ok entries ∧
        RocksDBLogStorage.tryGetLogEntries g store.storage (.inclusive lo hi) =
          .ok (entries.map (rereadEntry (runInMemory calls).getLogState.lastLogId)) ∧
        RocksDBLogReader.tryGetLogEntries g store.storage (.inclusive lo hi) =
          .ok (entries.map (rereadEntry (runInMemory calls).getLogState.lastLogId))) ∧
      ∃ vote store', (RocksDBLogStorage.readVote g).run store = .ok vote store' ∧
        vote.map Vote.leaderId = (runInMemory calls).readVote.map Vote.leaderId := by
  obtain ⟨store, hrun, hstore⟩ := mirrors_run g calls horderly
  have hstate := hstore.facts.getLogState_eq
  rw [List.getLast?_map, Option.map_map] at hstate
  exact ⟨store, hrun, hstate, fun lo hi hle => hstore.reads hle, hstore.readVote⟩

end Calls

namespace Witness

/-- Two batches of two terms, compacted, with a vote and a restart. -/
def mirroredCalls : List TwinCall :=
  [.saveVote ⟨⟨1, 1⟩, true⟩, .append [blankEntry 1 1 1, blankEntry 1 1 2], .restart,
    .purge ⟨⟨1, 1⟩, 1⟩, .append [blankEntry 2 1 3], .restart]

theorem mirroredCalls_orderly :
    Trace.EachStep TwinCall.inMemory TwinCall.Orderly .new mirroredCalls := by
  simp only [mirroredCalls, Trace.eachStep_cons]
  refine ⟨trivial, ⟨by decide, ?_⟩, trivial, ⟨by decide, 2, by decide, by decide⟩,
    ⟨by decide, ?_⟩, trivial, Trace.eachStep_nil⟩
  · intro last hlast
    obtain rfl : blankEntry 1 1 2 = last := Option.some.inj hlast
    exact ⟨by decide, fun index hindex => absurd Std.ExtTreeMap.getElem?_empty hindex⟩
  · intro last hlast
    obtain rfl : blankEntry 2 1 3 = last := Option.some.inj hlast
    refine ⟨by decide, fun index hindex => ?_⟩
    -- what the purge left was appended before
    have hstored : latest [blankEntry 1 1 1, blankEntry 1 1 2] index ≠ none := by
      intro hnone
      refine hindex
        ((congrFun (OpenRaftMemLog.contents_step _ (.purge ⟨⟨1, 1⟩, 1⟩)) index).trans ?_)
      rw [AbstractLog.step, AbstractLog.remove]
      split
      · rfl
      · refine (congrFun (OpenRaftMemLog.contents_append _ _) index).trans ?_
        rw [AbstractLog.append, hnone]
        exact Std.ExtTreeMap.getElem?_empty
    obtain ⟨entry, hentry⟩ := Option.ne_none_iff_exists'.mp hstored
    obtain ⟨hmem, rfl⟩ := latest_eq_some hentry
    rcases List.mem_cons.mp hmem with rfl | hmem
    · decide
    · rw [List.mem_singleton.mp hmem]
      decide

theorem mirroredCalls_read : ∃ store, runOnDisk .dataRaft mirroredCalls = some store ∧
    RocksDBLogStorage.getLogState .dataRaft store.storage =
      .ok ⟨some ⟨⟨1, 1⟩, 1⟩, some ⟨⟨2, 1⟩, 3⟩⟩ := by
  obtain ⟨store, hrun, hstate, -⟩ :=
    disk_log_mirrors_memory .dataRaft mirroredCalls mirroredCalls_orderly
  exact ⟨store, hrun, hstate.trans (by decide +kernel)⟩

end Witness

end Seshat
