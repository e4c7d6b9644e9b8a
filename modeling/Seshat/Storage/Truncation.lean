/-
Conflict truncation.  Openraft asks `truncate` to delete the log from the given
index on; the store deletes the entries below it instead.  The contract holds
only where nothing had to be kept and nothing had to go.
-/
import Seshat.Storage.Payload

namespace Seshat

open Keyed

/-- The same index and payload, under whatever leader. -/
def SameSlot (entry entry' : Entry) : Prop :=
  entry.logId.index = entry'.logId.index ∧ entry.payload = entry'.payload

/-- Consecutive entries that begin at an index. -/
def ConsecutiveFrom (index : UInt64) (entries : List Entry) : Prop :=
  Consecutive entries ∧ ∀ entry, entries.head? = some entry → entry.logId.index = index

theorem entryLogId_index (lastLogId : Option LogId) (index : UInt64) :
    (entryLogId lastLogId index).index = index := by
  cases lastLogId with
  | none => rfl
  | some last =>
      rw [entryLogId]
      split <;> rfl

theorem ConsecutiveFrom.le {start : UInt64} {entries : List Entry}
    (h : ConsecutiveFrom start entries) {entry : Entry} (hmem : entry ∈ entries) :
    start ≤ entry.logId.index := by
  obtain ⟨first, hfirst⟩ : ∃ first, entries.head? = some first := by
    cases entries with
    | nil => simp at hmem
    | cons first rest => exact ⟨first, rfl⟩
  rw [← h.2 first hfirst]
  exact index_ge_of_head h.1.ascending hfirst hmem

section Record

variable [Prost LogIdMessage]

/-- The last log id that both readers work with; none is needed for an empty
log. -/
def Known (s : Storage) (cf : ColumnFamily) (last : LogId) : Prop :=
  s.get cf lastLogIdKey = some (logIdRecord last) ∨ ∀ index, storedAt s cf index = none

theorem Known.truncated {s : Storage} {cf : ColumnFamily} {id : LogId}
    (h : Known s cf id) (last truncateIndex : UInt64) :
    Known (truncated s cf last truncateIndex) cf id := by
  rcases h with hrecord | hnone
  · left
    rw [get_truncated_metadata s cf last truncateIndex lastLogIdKey_mem, hrecord]
  · right
    intro index
    rw [storedAt_truncated, hnone, ite_self]

end Record

section Payloads

variable [MembershipApi] [Prost MembershipMessage]

/-- An entry that stored pairs stand for. -/
def Rebuilt (lastLogId : Option LogId) (pair : UInt64 × Bytes) (entry : Entry) : Prop :=
  entry.logId = entryLogId lastLogId pair.1 ∧
    deserializeEntryPayload pair.2 = .ok entry.payload

theorem rebuild_eq_ok_iff {lastLogId : Option LogId} {pairs : List (UInt64 × Bytes)}
    {entries : List Entry} :
    rebuild lastLogId pairs = .ok entries ↔
      List.Forall₂ (Rebuilt lastLogId) pairs entries := by
  induction pairs generalizing entries with
  | nil => simp [rebuild, eq_comm]
  | cons pair pairs ih =>
      obtain ⟨index, value⟩ := pair
      rw [rebuild, List.forall₂_cons_left_iff]
      simp only [← ih, Rebuilt]
      constructor
      · intro h
        cases hpayload : deserializeEntryPayload value with
        | error e =>
            rw [hpayload] at h
            contradiction
        | ok payload =>
            cases hrest : rebuild lastLogId pairs with
            | error e =>
                rw [hpayload, hrest] at h
                contradiction
            | ok rest =>
                rw [hpayload, hrest] at h
                exact ⟨_, rest, ⟨rfl, rfl⟩, rfl, (Except.ok.inj h).symm⟩
      · rintro ⟨entry, rest, ⟨hid, hpayload⟩, hrest, rfl⟩
        rw [hpayload, hrest]
        obtain ⟨id, payload⟩ := entry
        obtain rfl := hid
        rfl

theorem Rebuilt.sameSlot {lastLogId lastLogId' : Option LogId} {pair : UInt64 × Bytes}
    {entry entry' : Entry} (h : Rebuilt lastLogId pair entry)
    (h' : Rebuilt lastLogId' pair entry') : SameSlot entry entry' := by
  constructor
  · rw [h.1, h'.1, entryLogId_index, entryLogId_index]
  · exact Except.ok.inj (h.2.symm.trans h'.2)

/-- Two readings of the same pairs agree slot by slot. -/
theorem forall₂_sameSlot {lastLogId lastLogId' : Option LogId}
    {pairs : List (UInt64 × Bytes)} {entries entries' : List Entry}
    (h : List.Forall₂ (Rebuilt lastLogId) pairs entries)
    (h' : List.Forall₂ (Rebuilt lastLogId') pairs entries') :
    List.Forall₂ SameSlot entries entries' := by
  induction h generalizing entries' with
  | nil =>
      cases h'
      exact .nil
  | cons hhead htail ih =>
      cases h' with
      | cons hhead' htail' => exact .cons (hhead.sameSlot hhead') (ih htail')

/-- The indices read are the indices seen. -/
theorem map_index_of_rebuilt {lastLogId : Option LogId} {pairs : List (UInt64 × Bytes)}
    {entries : List Entry} (h : List.Forall₂ (Rebuilt lastLogId) pairs entries) :
    pairs.map Prod.fst = entries.map fun entry => entry.logId.index :=
  map_eq_of_forall₂ (fun pair entry hrebuilt => by rw [hrebuilt.1, entryLogId_index]) h

/-- Pairs that hold payloads can be read. -/
theorem exists_rebuilt (lastLogId : Option LogId) {pairs : List (UInt64 × Bytes)}
    (hpairs : ∀ pair ∈ pairs, ∃ payload, deserializeEntryPayload pair.2 = .ok payload) :
    ∃ entries, List.Forall₂ (Rebuilt lastLogId) pairs entries := by
  induction pairs with
  | nil => exact ⟨[], .nil⟩
  | cons pair pairs ih =>
      obtain ⟨rest, hrest⟩ := ih fun p hp => hpairs p (List.mem_cons_of_mem pair hp)
      obtain ⟨payload, hpayload⟩ := hpairs pair List.mem_cons_self
      exact ⟨⟨entryLogId lastLogId pair.1, payload⟩ :: rest, .cons ⟨rfl, hpayload⟩ hrest⟩

/-- Whatever is stored for an index can be read as a payload. -/
def Readable (s : Storage) (cf : ColumnFamily) : Prop :=
  ∀ index value, storedAt s cf index = some value →
    ∃ payload, deserializeEntryPayload value = .ok payload

theorem Readable.logView {s : Storage} {cf : ColumnFamily} (h : Readable s cf)
    (lo hi : UInt64) : ∀ pair ∈ Seshat.logView s cf lo hi,
      ∃ payload, deserializeEntryPayload pair.2 = .ok payload :=
  fun pair hmem => h pair.1 pair.2 (mem_logView.mp hmem).2.2

end Payloads

section Appends

variable [MembershipApi] [Prost LogIdMessage] [Prost MembershipMessage]

/-- The storage and its reader return these entries. -/
def BothRead (g : RaftGroup) (s : Storage) (lo hi : UInt64) (entries : List Entry) : Prop :=
  RocksDBLogStorage.tryGetLogEntries g s (.inclusive lo hi) = .ok entries ∧
    RocksDBLogReader.tryGetLogEntries g s (.inclusive lo hi) = .ok entries

theorem bothRead_iff {g : RaftGroup} {s : Storage} (hkeys : LogKeysOnly s g.logCf)
    {last : LogId} (hknown : Known s g.logCf last) {lo hi : UInt64}
    {entries : List Entry} :
    BothRead g s lo hi entries ↔
      List.Forall₂ (Rebuilt (some last)) (logView s g.logCf lo hi) entries := by
  rw [BothRead, RocksDBLogStorage.tryGetLogEntries_inclusive,
    RocksDBLogReader.tryGetLogEntries_inclusive g hkeys]
  rcases hknown with hrecord | hnone
  · obtain ⟨hstorage, hreader⟩ := lastLogId_of_record hrecord
    rw [hstorage, hreader, and_self, rebuild_eq_ok_iff]
  · have hview : logView s g.logCf lo hi = [] := by
      simp [logView, hnone]
    rw [hview]
    simp [rebuild, eq_comm]

/-- What openraft asks of `truncate`: the entries below the index stay readable with
their payloads, no other does, and entries appended at the index come behind them as
they were appended. -/
def TruncateContract (g : RaftGroup) (s : Storage) (id : LogId)
    (news : List (List Entry)) : Prop :=
  ∃ t, (RocksDBLogStorage.truncate g id).run s = .ok () t ∧
    ∀ lo hi, ∃ before, BothRead g s lo hi before ∧
      (∃ after, BothRead g t lo hi after ∧
        List.Forall₂ SameSlot after
          (before.filter fun entry => entry.logId.index < id.index)) ∧
      ∃ kept, BothRead g (runLog g t (news.map .append)).1 lo hi
          (kept ++ (accepted news).filter (inRange lo hi)) ∧
        List.Forall₂ SameSlot kept
          (before.filter fun entry => entry.logId.index < id.index)

/-- The indices a read can return are those stored in its range. -/
theorem BothRead.mem_index_iff {g : RaftGroup} {s : Storage}
    (hkeys : LogKeysOnly s g.logCf) {last : LogId} (hknown : Known s g.logCf last)
    {lo hi : UInt64} {entries : List Entry} (hread : BothRead g s lo hi entries)
    (index : UInt64) :
    (index ∈ entries.map fun entry => entry.logId.index) ↔
      lo ≤ index ∧ index ≤ hi ∧ ∃ value, storedAt s g.logCf index = some value := by
  rw [← map_index_of_rebuilt ((bothRead_iff hkeys hknown).mp hread), List.mem_map]
  simp only [Prod.exists, mem_logView, exists_and_right, exists_eq_right]
  tauto

/-- Exactly the stored indices below the cut survive a truncation that keeps
the contract. -/
theorem stored_iff_of_contract {g : RaftGroup} {s t : Storage} {id last : LogId}
    (hkeys : LogKeysOnly s g.logCf) (hknown : Known s g.logCf last)
    (hkeys' : LogKeysOnly t g.logCf) (hknown' : Known t g.logCf last)
    (hcontract : ∀ lo hi, ∃ before, BothRead g s lo hi before ∧
      ∃ after, BothRead g t lo hi after ∧ List.Forall₂ SameSlot after
        (before.filter fun entry => entry.logId.index < id.index)) (index : UInt64) :
    (∃ value, storedAt t g.logCf index = some value) ↔
      index < id.index ∧ ∃ value, storedAt s g.logCf index = some value := by
  obtain ⟨before, hbefore, after, hafter, hsame⟩ := hcontract index index
  have hindices := map_eq_of_forall₂ (fun _ _ h => h.1) hsame
  have hleft := hafter.mem_index_iff hkeys' hknown' index
  have hright := hbefore.mem_index_iff hkeys hknown index
  have hrefl := UInt64.le_refl index
  simp only [hrefl, true_and] at hleft hright
  rw [← hleft, hindices, ← hright]
  simp only [List.mem_map, List.mem_filter, decide_eq_true_eq]
  constructor
  · rintro ⟨entry, ⟨hmem, hlt⟩, rfl⟩
    exact ⟨hlt, entry, hmem, rfl⟩
  · rintro ⟨hlt, entry, hmem, rfl⟩
    exact ⟨entry, ⟨hmem, hlt⟩, rfl⟩

/-- New entries that are read as they were appended have the leader of the last of them
and payloads that survive. -/
theorem survives_of_contract {g : RaftGroup} {t : Storage} (hkeys : LogKeysOnly t g.logCf)
    {news : List (List Entry)} (hascending : Ascending (accepted news)) {last : Entry}
    (hlast : (accepted news).getLast? = some last) {lo hi : UInt64} {kept : List Entry}
    (hread : BothRead g (runLog g t (news.map .append)).1 lo hi
      (kept ++ (accepted news).filter (inRange lo hi)))
    {entry : Entry} (hmem : entry ∈ accepted news) (hrange : inRange lo hi entry = true) :
    entry.logId.leaderId = last.logId.leaderId ∧ rereadPayload entry = entry.payload := by
  have hextends := runLog_appends_extends g t news
  rw [runLog_appends_snd] at hextends
  have hknown : Known (runLog g t (news.map .append)).1 g.logCf last.logId := by
    left
    rw [hextends.lastLogId, hlast]
    rfl
  have hrebuilt := (bothRead_iff (hextends.keys hkeys) hknown).mp hread
  have hreads : (logView (runLog g t (news.map .append)).1 g.logCf lo hi).map
      (fun pair => (entryLogId (some last.logId) pair.1, deserializeEntryPayload pair.2)) =
        (kept ++ (accepted news).filter (inRange lo hi)).map
          fun entry => (entry.logId, .ok entry.payload) :=
    map_eq_of_forall₂ (fun _ _ h => Prod.ext h.1.symm h.2) hrebuilt
  have hentry : (entry.logId, Except.ok entry.payload) ∈
      (kept ++ (accepted news).filter (inRange lo hi)).map
        fun entry => (entry.logId, (.ok entry.payload : Except Failure EntryPayload)) :=
    List.mem_map_of_mem (List.mem_append_right _ (List.mem_filter.mpr ⟨hmem, hrange⟩))
  rw [← hreads, List.mem_map] at hentry
  obtain ⟨⟨index, value⟩, hview, heq⟩ := hentry
  obtain ⟨hid, hpayload⟩ := Prod.mk.inj heq
  have hindex : index = entry.logId.index := by
    rw [← hid, entryLogId_index]
  subst hindex
  -- what is stored at the index is this entry's own bytes
  have hvalue := (mem_logView.mp hview).2.2
  rw [hextends.stored, (mem_iff_latest hascending).mpr ⟨hmem, rfl⟩] at hvalue
  obtain rfl := Option.some.inj hvalue
  rw [deserializeEntryPayload_entryBytes, Except.ok.injEq] at hpayload
  rw [entryLogId_of_le (index_le_of_getLast hascending hlast hmem)] at hid
  exact ⟨by rw [← hid], hpayload⟩

/-- A log built by appends of nothing holds no key at all. -/
theorem Extends.get_eq_none {g : RaftGroup} {s : Storage} (h : Extends g .new [] s)
    (key : Bytes) : s.get g.logCf key = none := by
  cases hget : s.get g.logCf key with
  | none => rfl
  | some value =>
      rcases h.keys (logKeysOnly_new _) key value hget with hmeta | ⟨index, rfl⟩
      · simp only [metadataKeys, List.mem_cons, List.not_mem_nil, or_false] at hmeta
        rcases hmeta with rfl | rfl
        · rw [h.lastLogId, Storage.get_new] at hget
          contradiction
        · rw [h.lastPurged, Storage.get_new] at hget
          contradiction
      · have hstored := h.stored index
        rw [storedAt, hget, storedAt, Storage.get_new] at hstored
        contradiction

theorem truncate_run_empty {g : RaftGroup} {s : Storage} (h : Extends g .new [] s)
    (id : LogId) : (RocksDBLogStorage.truncate g id).run s = .ok () s := by
  have hcached := getCachedLastLogIndex_run_none h.cache
    (getLastLogIndexFromDb_run_empty g.logCf_isLogCf h.get_eq_none)
  rw [RocksDBLogStorage.truncate, mapErr_run,
    truncateLogBefore_run_none g.logCf_isLogCf hcached]

theorem truncate_run_appends {g : RaftGroup} {s : Storage} {entries : List Entry}
    (h : Extends g .new entries s) {last : Entry} (hlast : entries.getLast? = some last)
    (id : LogId) :
    (RocksDBLogStorage.truncate g id).run s =
      .ok () (truncated s g.logCf last.logId.index id.index) := by
  have hcache : s.lastLogIndexCache g.logCf = some last.logId.index := by
    rw [h.cache, hlast]
    rfl
  rw [RocksDBLogStorage.truncate, mapErr_run,
    truncateLogBefore_run_some g.logCf_isLogCf (getCachedLastLogIndex_run_hit hcache)]

theorem Extends.known {g : RaftGroup} {s : Storage} {entries : List Entry}
    (h : Extends g .new entries s) : ∃ last, Known s g.logCf last := by
  cases hlast : entries.getLast? with
  | none =>
      obtain rfl := List.getLast?_eq_none_iff.mp hlast
      exact ⟨LogId.default, Or.inr fun index => h.get_eq_none _⟩
  | some last =>
      refine ⟨last.logId, Or.inl ?_⟩
      rw [h.lastLogId, hlast]
      rfl

/-- What is stored was appended. -/
theorem Extends.exists_entry {g : RaftGroup} {s : Storage} {entries : List Entry}
    (h : Extends g .new entries s) {index : UInt64} {value : Bytes}
    (hvalue : storedAt s g.logCf index = some value) :
    ∃ entry ∈ entries, entry.logId.index = index ∧ value = entryBytes entry := by
  rw [h.stored, storedAt, Storage.get_new, Option.or_none, Option.map_eq_some_iff] at hvalue
  obtain ⟨entry, hlatest, rfl⟩ := hvalue
  obtain ⟨hmem, hindex⟩ := latest_eq_some hlatest
  exact ⟨entry, hmem, hindex, rfl⟩

/-- A log built by appends can be read. -/
theorem Extends.readable {g : RaftGroup} {s : Storage} {entries : List Entry}
    (h : Extends g .new entries s) : Readable s g.logCf := by
  intro index value hvalue
  obtain ⟨entry, -, -, rfl⟩ := h.exists_entry hvalue
  exact ⟨rereadPayload entry, deserializeEntryPayload_entryBytes entry⟩

/-- After appends of one leader, with payloads that survive, the record that the readers
work with returns the new entries as they were. -/
theorem exists_known_appends {g : RaftGroup} {t : Storage} {last : LogId}
    (hknown : Known t g.logCf last) {news : List (List Entry)}
    (hascending : Ascending (accepted news))
    (hsurvive : ∀ new, (accepted news).getLast? = some new → ∀ entry ∈ accepted news,
      entry.logId.leaderId = new.logId.leaderId ∧ rereadPayload entry = entry.payload) :
    ∃ last', Known (runLog g t (news.map .append)).1 g.logCf last' ∧
      ∀ entry ∈ accepted news, rereadEntry (some last') entry = entry := by
  have hmore := runLog_appends_extends g t news
  rw [runLog_appends_snd] at hmore
  cases hnew : (accepted news).getLast? with
  | none =>
      rw [List.getLast?_eq_none_iff] at hnew
      rw [hnew] at hmore ⊢
      refine ⟨last, ?_, by simp⟩
      rcases hknown with hrecord | hnone
      · exact Or.inl (hmore.lastLogId.trans hrecord)
      · exact Or.inr fun index => (hmore.stored index).trans (hnone index)
  | some new =>
      refine ⟨new.logId, Or.inl ?_, fun entry hmem => ?_⟩
      · rw [hmore.lastLogId, hnew]
        rfl
      · exact (rereadEntry_eq_iff (index_le_of_getLast hascending hnew hmem)).mpr
          (hsurvive new hnew entry hmem)

/-- A truncation that changed no entry, with every entry below the cut, keeps the
contract as far as the new entries are of one leader and their payloads survive. -/
theorem contract_of_unchanged {g : RaftGroup} {s t : Storage} {entries : List Entry}
    (hextends : Extends g .new entries s) {id : LogId}
    (hrun : (RocksDBLogStorage.truncate g id).run s = .ok () t)
    (hkeys' : LogKeysOnly t g.logCf)
    (hknown' : ∀ last, Known s g.logCf last → Known t g.logCf last)
    (hsame : ∀ index, storedAt t g.logCf index = storedAt s g.logCf index)
    (hbelow : ∀ entry ∈ entries, entry.logId.index < id.index)
    {news : List (List Entry)} (hnews : ConsecutiveFrom id.index (accepted news))
    (hsurvive : ∀ last, (accepted news).getLast? = some last → ∀ entry ∈ accepted news,
      entry.logId.leaderId = last.logId.leaderId ∧ rereadPayload entry = entry.payload) :
    TruncateContract g s id news := by
  have hkeys := hextends.keys (logKeysOnly_new _)
  have hunder : ∀ index value, storedAt t g.logCf index = some value →
      index < id.index := by
    intro index value hvalue
    rw [hsame] at hvalue
    obtain ⟨entry, hmem, rfl, -⟩ := hextends.exists_entry hvalue
    exact hbelow entry hmem
  obtain ⟨last, hknown⟩ := hextends.known
  obtain ⟨last', hlast', hfresh⟩ :=
    exists_known_appends (hknown' last hknown) hnews.1.ascending hsurvive
  have hmore := runLog_appends_extends g t news
  rw [runLog_appends_snd] at hmore
  refine ⟨t, hrun, fun lo hi => ?_⟩
  have hview : logView t g.logCf lo hi = logView s g.logCf lo hi := by
    simp only [logView, hsame]
  obtain ⟨before, hbefore⟩ := exists_rebuilt (some last) (hextends.readable.logView lo hi)
  obtain ⟨kept, hkept⟩ := exists_rebuilt (some last') (hextends.readable.logView lo hi)
  have hread := (bothRead_iff hkeys hknown).mpr hbefore
  have hfilter : before.filter (fun entry => entry.logId.index < id.index) = before := by
    refine List.filter_eq_self.mpr fun entry hmem => decide_eq_true ?_
    obtain ⟨-, -, value, hvalue⟩ := (hread.mem_index_iff hkeys hknown _).mp
      (List.mem_map_of_mem (f := fun entry => entry.logId.index) hmem)
    exact hunder _ value ((hsame _).trans hvalue)
  refine ⟨before, hread, ?_⟩
  rw [hfilter]
  refine ⟨⟨before, ?_, forall₂_sameSlot hbefore hbefore⟩, kept, ?_,
    forall₂_sameSlot hkept hbefore⟩
  · rw [bothRead_iff hkeys' (hknown' last hknown), hview]
    exact hbefore
  · rw [bothRead_iff (hmore.keys hkeys') hlast',
      logView_extends hmore hunder hnews.1.ascending (fun _ => hnews.le) lo hi, hview]
    refine List.rel_append hkept ?_
    rw [List.forall₂_map_left_iff, List.forall₂_same]
    intro entry hmem
    have hreread := hfresh entry (List.mem_filter.mp hmem).1
    refine ⟨(congrArg Entry.logId hreread).symm, ?_⟩
    rw [deserializeEntryPayload_entryBytes]
    exact congrArg (fun entry => Except.ok entry.payload) hreread

/-- The last entry appended is one that truncation either has to keep and
deletes, or has to delete and keeps, unless its index is 0. -/
theorem last_eq_zero_of_contract {g : RaftGroup} {s t : Storage} {entries : List Entry}
    (hextends : Extends g .new entries s) {last : Entry}
    (hlast : entries.getLast? = some last) {id : LogId}
    (ht : t = truncated s g.logCf last.logId.index id.index)
    (hstored : ∀ index, (∃ value, storedAt t g.logCf index = some value) ↔
      index < id.index ∧ ∃ value, storedAt s g.logCf index = some value) :
    last.logId.index = 0 ∧ ∀ entry ∈ entries, entry.logId.index < id.index := by
  have happended : ∀ entry ∈ entries, ∃ value,
      storedAt s g.logCf entry.logId.index = some value := by
    intro entry hmem
    obtain ⟨found, hfound⟩ := exists_latest hmem
    exact ⟨entryBytes found, by rw [hextends.stored, hfound]; rfl⟩
  have hzero : last.logId.index = 0 := by
    obtain ⟨value, hvalue⟩ := happended last (List.mem_of_getLast? hlast)
    have hiff := hstored last.logId.index
    rw [ht, storedAt_truncated, hvalue] at hiff
    by_contra hne
    have hpos : 1 ≤ last.logId.index := one_le_iff_ne_zero.mpr hne
    by_cases hlt : last.logId.index < id.index
    · rw [if_pos ⟨hpos, UInt64.le_refl _, hlt⟩] at hiff
      simp [hlt] at hiff
    · rw [if_neg fun h => hlt h.2.2] at hiff
      simp [hlt] at hiff
  refine ⟨hzero, fun entry hmem => ?_⟩
  obtain ⟨value, hvalue⟩ := happended entry hmem
  refine ((hstored entry.logId.index).mp ⟨value, ?_⟩).1
  rw [ht, hzero, storedAt_truncated_zero, hvalue]

variable [LawfulMembershipApi]

/-- Truncation meets openraft's contract on a log built by appends exactly where nothing
was appended, or entry 0 was appended last and all of the log lies below the cut; the
new entries must then be of one leader, and a membership among them plain, to be read as
they were. -/
theorem truncate_contract_iff (g : RaftGroup) (batches : List (List Entry)) (id : LogId)
    (news : List (List Entry)) (hnews : ConsecutiveFrom id.index (accepted news)) :
    TruncateContract g (runLog g .new (batches.map .append)).1 id news ↔
      (∀ last, (runLog g .new (batches.map .append)).2.getLast? = some last →
        last.logId.index = 0 ∧
          ∀ entry ∈ (runLog g .new (batches.map .append)).2,
            entry.logId.index < id.index) ∧
      ∀ last, (accepted news).getLast? = some last → ∀ entry ∈ accepted news,
        entry.logId.leaderId = last.logId.leaderId ∧
          ∀ m, entry.payload = .membership m → m.Plain := by
  simp only [← rereadPayload_eq_iff]
  have hextends := runLog_appends_extends g .new batches
  generalize (runLog g .new (batches.map .append)).1 = s at *
  generalize (runLog g .new (batches.map .append)).2 = entries at *
  have hkeys := hextends.keys (logKeysOnly_new _)
  obtain ⟨known, hknown⟩ := hextends.known
  constructor
  · rintro ⟨t, hrun, hreads⟩
    have hkeys' : LogKeysOnly t g.logCf := by
      cases hlast : entries.getLast? with
      | none =>
          obtain rfl := List.getLast?_eq_none_iff.mp hlast
          rw [truncate_run_empty hextends] at hrun
          cases hrun
          exact hkeys
      | some last =>
          rw [truncate_run_appends hextends hlast] at hrun
          cases hrun
          exact hkeys.truncated _ _
    refine ⟨fun last hlast => ?_, fun last hlast entry hmem => ?_⟩
    · rw [truncate_run_appends hextends hlast] at hrun
      cases hrun
      refine last_eq_zero_of_contract hextends hlast rfl
        (stored_iff_of_contract hkeys hknown hkeys' (hknown.truncated _ _) fun lo hi => ?_)
      obtain ⟨before, hbefore, hafter, -⟩ := hreads lo hi
      exact ⟨before, hbefore, hafter⟩
    · obtain ⟨-, -, -, kept, hread, -⟩ := hreads entry.logId.index entry.logId.index
      exact survives_of_contract hkeys' hnews.1.ascending hlast hread hmem (by simp [inRange])
  · rintro ⟨hold, hsurvive⟩
    cases hlast : entries.getLast? with
    | none =>
        obtain rfl := List.getLast?_eq_none_iff.mp hlast
        exact contract_of_unchanged hextends (truncate_run_empty hextends id) hkeys
          (fun _ h => h) (fun _ => rfl) (by simp) hnews hsurvive
    | some last =>
        obtain ⟨hzero, hbelow⟩ := hold last hlast
        refine contract_of_unchanged hextends (truncate_run_appends hextends hlast id)
          (hkeys.truncated _ _) (fun _ h => h.truncated _ _) (fun index => ?_) hbelow hnews
          hsurvive
        rw [hzero, storedAt_truncated_zero]

end Appends

namespace Witness

/-- Entry 0 alone, cut behind it, then continued with a new membership. -/
theorem truncateContract_behind_zero :
    TruncateContract .dataRaft
      (runLog .dataRaft .new ([[blankEntry 1 1 0]].map .append)).1 ⟨⟨2, 1⟩, 1⟩
      [[blankEntry 2 1 1, ⟨⟨⟨2, 1⟩, 2⟩, .membership plainMembership⟩]] := by
  refine (truncate_contract_iff .dataRaft [[blankEntry 1 1 0]] ⟨⟨2, 1⟩, 1⟩
    [[blankEntry 2 1 1, ⟨⟨⟨2, 1⟩, 2⟩, .membership plainMembership⟩]] ?_).mpr ⟨?_, ?_⟩
  · simp [ConsecutiveFrom, Consecutive, accepted, blankEntry, maxBatchOperations]
  · rw [runLog_appends_snd]
    decide
  · have hplain : plainMembership.Plain := plain_new _ _
    simp [accepted, blankEntry, maxBatchOperations, hplain]

/-- The store after entries 1, 2 and 3 are cut at 3. -/
def cutAtThree : Storage :=
  truncated (runLog .dataRaft .new (oneLeader.map .append)).1 .dataRaftLog 3 3

/-- Entries 1 and 2 are lost and entry 3, which had to go, stays. -/
theorem truncateContract_fails_at_last :
    ConsecutiveFrom 3 (accepted []) ∧
      ¬ TruncateContract .dataRaft (runLog .dataRaft .new (oneLeader.map .append)).1
        ⟨⟨2, 1⟩, 3⟩ [] := by
  refine ⟨by simp [ConsecutiveFrom, Consecutive, accepted], ?_⟩
  rintro ⟨t, hrun, hreads⟩
  obtain ⟨before, -, ⟨after, ⟨hafter, -⟩, hsame⟩, -⟩ := hreads 1 3
  have hcut : t = cutAtThree := by
    have hstate : (RocksDBLogStorage.truncate .dataRaft ⟨⟨2, 1⟩, 3⟩).run
        (runLog .dataRaft .new (oneLeader.map .append)).1 = .ok () cutAtThree := rfl
    rw [hstate] at hrun
    cases hrun
    rfl
  have hindices := map_eq_of_forall₂ (fun _ _ h => h.1) hsame
  have hnew : after.map (fun entry => entry.logId.index) = [3] := by
    have hvalue : (RocksDBLogStorage.tryGetLogEntries .dataRaft cutAtThree
        (.inclusive 1 3)).map
          (fun entries => entries.map fun entry => entry.logId.index) = .ok [3] := by
      decide
    rw [← hcut, hafter] at hvalue
    exact Except.ok.inj hvalue
  rw [hnew] at hindices
  have hthree : (3 : UInt64) ∈ (before.filter fun entry => entry.logId.index < 3).map
      fun entry => entry.logId.index := by
    rw [← hindices]
    exact List.mem_singleton.mpr rfl
  obtain ⟨entry, hmem, hindex⟩ := List.mem_map.mp hthree
  have hlt := of_decide_eq_true (List.mem_filter.mp hmem).2
  rw [hindex] at hlt
  exact absurd hlt (by decide)

end Witness

end Seshat
