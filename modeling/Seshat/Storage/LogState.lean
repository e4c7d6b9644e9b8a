/-
What a log store says about itself.  The record of the last log id is written by
appends alone, while truncations and purges take away the entries it speaks of.
So the reported state is true as long as the entry appended last stays the highest
one stored, or was the one purged last.
-/
import Seshat.Lib.Trace
import Seshat.Storage.Purge

namespace Seshat

open Decimal Keyed Utf8

namespace LogId

/-- openraft's order of log ids: by term, then by node, then by index. -/
def Below (a b : LogId) : Prop :=
  a.leaderId.term < b.leaderId.term ∨ a.leaderId.term = b.leaderId.term ∧
    (a.leaderId.nodeId < b.leaderId.nodeId ∨ a.leaderId.nodeId = b.leaderId.nodeId ∧
      a.index < b.index)

instance (a b : LogId) : Decidable (a.Below b) := by
  unfold Below
  infer_instance

end LogId

/-- The id a call purges up to. -/
def LogOp.purgeId : LogOp → Option LogId
  | purge id => some id
  | _ => none

/-- A log store with what was done to it: the entries of its successful appends, and
the id of the last purge that was asked for. -/
structure LogHistory where
  store : Storage
  appended : List Entry
  lastPurged : Option LogId

namespace LogHistory

/-- A new store, nothing done to it. -/
def new : LogHistory := ⟨.new, [], none⟩

/-- The log id of the entry appended last. -/
def lastLogId (h : LogHistory) : Option LogId :=
  h.appended.getLast?.map Entry.logId

end LogHistory

/-- What is stored at an index was appended to it; the records hold the id of the
last entry appended and a purged id. -/
structure LogFacts [Prost LogIdMessage] (g : RaftGroup) (s : Storage) (entries : List Entry)
    (purged : Option LogId) : Prop where
  keys : LogKeysOnly s g.logCf
  lastLogId : s.get g.logCf lastLogIdKey =
    entries.getLast?.map fun entry => logIdRecord entry.logId
  lastPurged : s.get g.logCf lastPurgedLogIdKey = purged.map logIdRecord
  appended : ∀ index value, storedAt s g.logCf index = some value →
    ∃ entry ∈ entries, entry.logId.index = index

section Facts

variable [Prost LogIdMessage]

theorem logFacts_new (g : RaftGroup) : LogFacts g .new [] none where
  keys := logKeysOnly_new g.logCf
  lastLogId := Storage.get_new _ _
  lastPurged := Storage.get_new _ _
  appended index value hvalue := by
    rw [storedAt, Storage.get_new] at hvalue
    contradiction

/-- Without an append there is no log key to fall back to. -/
theorem LogFacts.findLastLogEntry_nil {g : RaftGroup} {s : Storage} {purged : Option LogId}
    (h : LogFacts g s [] purged) : findLastLogEntry s g.logCf = none := by
  cases hlast : s.lastKey g.logCf with
  | none => simp [findLastLogEntry, hlast]
  | some key =>
      obtain ⟨value, hvalue⟩ : ∃ value, s.get g.logCf key = some value := by
        obtain ⟨pair, hpair, rfl⟩ := Option.map_eq_some_iff.mp hlast
        exact ⟨pair.2, Std.ExtTreeMap.mem_toList_iff_getElem?_eq_some.mp
          (List.mem_of_getLast? hpair)⟩
      rcases h.keys key value hvalue with hmeta | ⟨index, rfl⟩
      · obtain ⟨hutf8, hbegin⟩ := metadataKey_plain key hmeta
        simp only [findLastLogEntry, hlast, hutf8, hbegin, Option.bind_eq_bind,
          Option.bind_some, Bool.false_eq_true, ↓reduceIte]
      · obtain ⟨entry, hmem, -⟩ := h.appended index value hvalue
        contradiction

theorem LogFacts.getLastPurgedLogId_eq {g : RaftGroup} {s : Storage} {entries : List Entry}
    {purged : Option LogId} (h : LogFacts g s entries purged) :
    getLastPurgedLogId s g.logCf = .ok purged := by
  cases purged with
  | none => simp [getLastPurgedLogId, h.lastPurged]
  | some id => simp [getLastPurgedLogId, h.lastPurged]

theorem getLogState_of_records {g : RaftGroup} {s : Storage} {last purged : Option LogId}
    (hlast : getLastLogId s g.logCf = .ok last)
    (hpurged : getLastPurgedLogId s g.logCf = .ok purged) :
    RocksDBLogStorage.getLogState g s = .ok ⟨purged, last⟩ := by
  rw [RocksDBLogStorage.getLogState, hlast, hpurged]
  rfl

/-- The reported state is what the records hold. -/
theorem LogFacts.getLogState_eq {g : RaftGroup} {s : Storage} {entries : List Entry}
    {purged : Option LogId} (h : LogFacts g s entries purged) :
    RocksDBLogStorage.getLogState g s =
      .ok ⟨purged, entries.getLast?.map Entry.logId⟩ := by
  have hlast : getLastLogId s g.logCf = .ok (entries.getLast?.map Entry.logId) := by
    cases hentries : entries.getLast? with
    | none =>
        obtain rfl := List.getLast?_eq_none_iff.mp hentries
        simp [getLastLogId, h.lastLogId, h.findLastLogEntry_nil]
    | some entry => simp [getLastLogId, h.lastLogId, hentries]
  exact getLogState_of_records hlast h.getLastPurgedLogId_eq

/-- Losing entries, with another purged id on record. -/
theorem LogFacts.of_shrunk {g : RaftGroup} {s t : Storage} {entries : List Entry}
    {purged purged' : Option LogId} (h : LogFacts g s entries purged)
    (hkeys : LogKeysOnly t g.logCf)
    (hlast : t.get g.logCf lastLogIdKey = s.get g.logCf lastLogIdKey)
    (hpurged : t.get g.logCf lastPurgedLogIdKey = purged'.map logIdRecord)
    (hstored : ∀ index value, storedAt t g.logCf index = some value →
      storedAt s g.logCf index = some value) : LogFacts g t entries purged' where
  keys := hkeys
  lastLogId := hlast.trans h.lastLogId
  lastPurged := hpurged
  appended index value hvalue := h.appended index value (hstored index value hvalue)

theorem LogFacts.truncated {g : RaftGroup} {s : Storage} {entries : List Entry}
    {purged : Option LogId} (h : LogFacts g s entries purged) (last truncateIndex : UInt64) :
    LogFacts g (truncated s g.logCf last truncateIndex) entries purged := by
  refine h.of_shrunk (h.keys.truncated _ _)
    (get_truncated_metadata _ _ _ _ lastLogIdKey_mem) ?_ fun _ _ => storedAt_of_truncated
  exact (get_truncated_metadata _ _ _ _ lastPurgedLogIdKey_mem).trans h.lastPurged

theorem LogFacts.setCache {g : RaftGroup} {s : Storage} {entries : List Entry}
    {purged : Option LogId} (h : LogFacts g s entries purged) (index : Option UInt64) :
    LogFacts g (s.setCache g.logCf index) entries purged :=
  ⟨h.keys, h.lastLogId, h.lastPurged, h.appended⟩

theorem LogFacts.put_purged {g : RaftGroup} {s : Storage} {entries : List Entry}
    {before : Option LogId} (h : LogFacts g s entries before) (id : LogId) :
    LogFacts g (s.apply (.put g.logCf lastPurgedLogIdKey (logIdRecord id))) entries
      (some id) := by
  refine h.of_shrunk (h.keys.put_metadata lastPurgedLogIdKey_mem _) ?_ ?_ ?_
  · simp [lastLogIdKey_ne_lastPurgedLogIdKey]
  · simp
  · intro index value hvalue
    rwa [storedAt_put_metadata lastPurgedLogIdKey_mem] at hvalue

theorem LogFacts.purged {g : RaftGroup} {s : Storage} {entries : List Entry}
    {before : Option LogId} (h : LogFacts g s entries before) {id : LogId}
    (hid : id.index.toNat + 1 < 2 ^ 64) (last : UInt64) :
    LogFacts g (purged g s id last) entries (some id) :=
  h.of_shrunk (h.keys.purged id last) (get_purged_lastLogId g s id last)
    (get_purged_lastPurged g s id last) fun _ _ => storedAt_of_purged hid

/-- What the records must say of the stored entries, by the entry appended last and
the purged id on record. -/
structure Reports (g : RaftGroup) (s : Storage) (entries : List Entry)
    (purged : Option LogId) : Prop where
  last : ∀ last, IsLast s g.logCf last →
    ∃ entry, entries.getLast? = some entry ∧ entry.logId.index = last
  empty : (∀ index, storedAt s g.logCf index = none) →
    entries.getLast?.map Entry.logId = purged
  above : ∀ id, purged = some id →
    ∃ entry, entries.getLast? = some entry ∧ ¬ entry.logId.Below id

omit [Prost LogIdMessage] in
/-- A cut that does not reach the last entry leaves it in place. -/
theorem IsLast.of_cut {cf : ColumnFamily} {s t : Storage} {last cut : UInt64}
    (hlast : IsLast s cf last)
    (hstored : ∀ index, storedAt t cf index =
      if 1 ≤ index ∧ index ≤ last ∧ index < cut then none else storedAt s cf index)
    (hkeep : last = 0 ∨ cut ≤ last) : IsLast t cf last := by
  have hstays : storedAt t cf last = storedAt s cf last := by
    rw [hstored, if_neg]
    rintro ⟨hpos, -, hlt⟩
    rcases hkeep with hzero | hcut
    · exact one_le_iff_ne_zero.mp hpos hzero
    · exact absurd hlt (UInt64.not_lt.mpr hcut)
  refine ⟨hstays ▸ hlast.stored, fun index value hvalue => ?_⟩
  rw [hstored] at hvalue
  split at hvalue
  · contradiction
  · exact hlast.max index value hvalue

omit [Prost LogIdMessage] in
/-- A cut over the last entry leaves at most index 0. -/
theorem IsLast.cut_over {cf : ColumnFamily} {s t : Storage} {last cut : UInt64}
    (hlast : IsLast s cf last)
    (hstored : ∀ index, storedAt t cf index =
      if 1 ≤ index ∧ index ≤ last ∧ index < cut then none else storedAt s cf index)
    (hcut : last < cut) {index : UInt64} (hindex : index ≠ 0) :
    storedAt t cf index = none := by
  rw [hstored]
  split
  · rfl
  · rename_i hout
    refine Option.eq_none_iff_forall_ne_some.mpr fun value hvalue => hout ?_
    have hle := hlast.max index value hvalue
    exact ⟨one_le_iff_ne_zero.mpr hindex, hle, UInt64.lt_of_le_of_lt hle hcut⟩

omit [Prost LogIdMessage] in
/-- A cut through a log leaves its last entry in place, or nothing at all. -/
theorem reports_cut {cf : ColumnFamily} {s t : Storage} {last cut : UInt64}
    (hlast : IsLast s cf last)
    (hstored : ∀ index, storedAt t cf index =
      if 1 ≤ index ∧ index ≤ last ∧ index < cut then none else storedAt s cf index)
    {P : Prop} :
    ((∀ index, IsLast t cf index → index = last) ∧
        ((∀ index, storedAt t cf index = none) → P)) ↔
      last = 0 ∨ cut ≤ last ∨ storedAt s cf 0 = none ∧ P := by
  by_cases hkeep : last = 0 ∨ cut ≤ last
  · have hlast' := hlast.of_cut hstored hkeep
    refine iff_of_true ⟨fun index hindex => hindex.unique hlast', fun hnone => ?_⟩ ?_
    · obtain ⟨value, hvalue⟩ := hlast'.stored
      rw [hnone] at hvalue
      contradiction
    · rcases hkeep with hzero | hcut
      · exact Or.inl hzero
      · exact Or.inr (Or.inl hcut)
  · rw [not_or, UInt64.not_le] at hkeep
    have hgone : ∀ index, index ≠ 0 → storedAt t cf index = none :=
      fun index => hlast.cut_over hstored hkeep.2
    have hzero : storedAt t cf 0 = storedAt s cf 0 := by
      rw [hstored, if_neg fun h => one_le_iff_ne_zero.mp h.1 rfl]
    constructor
    · rintro ⟨hall, hP⟩
      -- entry 0 would be the last one left
      have hnone : storedAt s cf 0 = none := by
        refine Option.eq_none_iff_forall_ne_some.mpr fun value hvalue => hkeep.1 ?_
        refine (hall 0 ⟨⟨value, hzero.trans hvalue⟩, fun index v hv => ?_⟩).symm
        by_contra hpos
        rw [hgone index fun h => hpos (h ▸ UInt64.le_refl 0)] at hv
        contradiction
      refine Or.inr (Or.inr ⟨hnone, hP fun index => ?_⟩)
      by_cases hindex : index = 0
      · rw [hindex, hzero, hnone]
      · exact hgone index hindex
    · rintro (hlast0 | hcut | ⟨hnone, hP⟩)
      · exact absurd hlast0 hkeep.1
      · exact absurd hcut (UInt64.not_le.mpr hkeep.2)
      · refine ⟨fun index hindex => ?_, fun _ => hP⟩
        obtain ⟨value, hvalue⟩ := hindex.stored
        by_cases hi : index = 0
        · rw [hi, hzero, hnone] at hvalue
          contradiction
        · rw [hgone index hi] at hvalue
          contradiction

end Facts

/-- What the records say after a cut through a log whose last entry was the one
appended last. -/
theorem reports_cut_iff {g : RaftGroup} {s t : Storage} {entries : List Entry} {entry : Entry}
    (hentry : entries.getLast? = some entry) (hlast : IsLast s g.logCf entry.logId.index)
    {cut : UInt64} (hstored : ∀ index, storedAt t g.logCf index =
      if 1 ≤ index ∧ index ≤ entry.logId.index ∧ index < cut then none
      else storedAt s g.logCf index) {purged : Option LogId} :
    Reports g t entries purged ↔
      (entry.logId.index = 0 ∨ cut ≤ entry.logId.index ∨
        storedAt s g.logCf 0 = none ∧ entries.getLast?.map Entry.logId = purged) ∧
      ∀ id, purged = some id → ¬ entry.logId.Below id := by
  rw [← reports_cut hlast hstored]
  constructor
  · intro hreports
    refine ⟨⟨fun index hindex => ?_, hreports.empty⟩, fun id hid => ?_⟩
    · obtain ⟨entry', hentry', rfl⟩ := hreports.last index hindex
      rw [hentry] at hentry'
      rw [Option.some.inj hentry']
    · obtain ⟨entry', hentry', hbelow⟩ := hreports.above id hid
      rw [hentry] at hentry'
      exact Option.some.inj hentry' ▸ hbelow
  · rintro ⟨⟨hindex, hempty⟩, habove⟩
    exact ⟨fun index hlast' => ⟨entry, hentry, (hindex index hlast').symm⟩, hempty,
      fun id hid => ⟨entry, hentry, habove id hid⟩⟩

theorem LogFacts.extends [MembershipApi] [Prost LogIdMessage] [Prost MembershipMessage]
    {g : RaftGroup} {s t : Storage} {entries batch : List Entry} {purged : Option LogId}
    (h : LogFacts g s entries purged) (hextends : Extends g s batch t) :
    LogFacts g t (entries ++ batch) purged where
  keys := hextends.keys h.keys
  lastLogId := by
    rw [hextends.lastLogId, h.lastLogId, List.getLast?_append, Option.map_or]
  lastPurged := hextends.lastPurged.trans h.lastPurged
  appended index value hvalue := by
    rcases hextends.stored_iff.mp ⟨value, hvalue⟩ with ⟨entry, hmem, hindex⟩ | ⟨value', hold⟩
    · exact ⟨entry, List.mem_append_right entries hmem, hindex⟩
    · obtain ⟨entry, hmem, hindex⟩ := h.appended index value' hold
      exact ⟨entry, List.mem_append_left batch hmem, hindex⟩

/-- The last entry of a batch is reported rightly if it is the highest one. -/
theorem Extends.reports_iff [MembershipApi] [Prost LogIdMessage] [Prost MembershipMessage]
    {g : RaftGroup} {s t : Storage} {entries batch : List Entry} {purged : Option LogId}
    (h : Extends g s batch t) {last : Entry} (hlast : batch.getLast? = some last)
    (hkeys : LogKeysOnly t g.logCf) :
    Reports g t (entries ++ batch) purged ↔
      EndsHighest g s batch ∧ ∀ id, purged = some id → ¬ last.logId.Below id := by
  have hnew : (entries ++ batch).getLast? = some last := by
    rw [List.getLast?_append, hlast]
    rfl
  obtain ⟨value, hvalue⟩ := h.stored_iff.mpr (Or.inl ⟨last, List.mem_of_getLast? hlast, rfl⟩)
  rw [← h.isLast_iff hlast]
  constructor
  · intro hreports
    refine ⟨?_, fun id hid => ?_⟩
    · obtain ⟨highest, hhighest, -⟩ := lastKey_of_stored hkeys hvalue
      obtain ⟨entry, hentry, rfl⟩ := hreports.last highest hhighest
      rw [hnew] at hentry
      exact Option.some.inj hentry ▸ hhighest
    · obtain ⟨entry, hentry, hbelow⟩ := hreports.above id hid
      rw [hnew] at hentry
      exact Option.some.inj hentry ▸ hbelow
  · rintro ⟨hhighest, habove⟩
    refine ⟨fun index hindex => ⟨last, hnew, hhighest.unique hindex⟩, fun hnone => ?_,
      fun id hid => ⟨last, hnew, habove id hid⟩⟩
    rw [hnone] at hvalue
    contradiction

/-- The state a store reports is true of its history. -/
structure StateTruthful (g : RaftGroup) (h : LogHistory) (state : LogState) : Prop where
  purged : state.lastPurgedLogId = h.lastPurged
  stored : ∀ last, IsLast h.store g.logCf last →
    ∃ entry, latest h.appended last = some entry ∧ state.lastLogId = some entry.logId
  empty : (∀ index, storedAt h.store g.logCf index = none) →
    state.lastLogId = state.lastPurgedLogId
  above : ∀ purged, state.lastPurgedLogId = some purged →
    ∃ last, state.lastLogId = some last ∧ ¬ last.Below purged

namespace LogHistory

variable [MembershipApi] [Prost LogIdMessage] [Prost MembershipMessage]

/-- One call.  A failed append appends nothing. -/
def step (g : RaftGroup) (h : LogHistory) (op : LogOp) : LogHistory :=
  let lastPurged := op.purgeId.or h.lastPurged
  match (op.call g).run h.store with
  | .ok _ t => ⟨t, h.appended ++ op.entries, lastPurged⟩
  | .error _ t => ⟨t, h.appended, lastPurged⟩

/-- `get_log_state` answers, and truthfully. -/
def Truthful (g : RaftGroup) (h : LogHistory) : Prop :=
  ∃ state, RocksDBLogStorage.getLogState g h.store = .ok state ∧ StateTruthful g h state

/-- When a call leaves the reported state true.  An accepted append ends at the
highest index, not below the purged id.  A truncation or a purge leaves the last entry
in place, or takes all of a log whose last entry is the purged one. -/
def StepOk (g : RaftGroup) (h : LogHistory) : LogOp → Prop
  | .append entries =>
      entries.length ≤ maxBatchOperations → EndsHighest g h.store entries ∧
        ∀ last purged, entries.getLast? = some last → h.lastPurged = some purged →
          ¬ last.logId.Below purged
  | .truncate id =>
      ∀ last, IsLast h.store g.logCf last → last = 0 ∨ id.index ≤ last ∨
        storedAt h.store g.logCf 0 = none ∧ h.lastLogId = h.lastPurged
  | .purge id =>
      id.index.toNat + 1 < 2 ^ 64 ∧
        ((∀ index, storedAt h.store g.logCf index = none) ∧ h.lastPurged = some id ∨
          ∃ last, IsLast h.store g.logCf last ∧
            (∃ entry, h.appended.getLast? = some entry ∧ ¬ entry.logId.Below id) ∧
            (last = 0 ∨ id.index < last ∨
              storedAt h.store g.logCf 0 = none ∧ h.lastLogId = some id))

omit [MembershipApi] [Prost MembershipMessage] in
theorem truthful_iff {g : RaftGroup} {h : LogHistory} {purged : Option LogId}
    (hfacts : LogFacts g h.store h.appended purged) :
    h.Truthful g ↔ purged = h.lastPurged ∧ Reports g h.store h.appended purged := by
  constructor
  · rintro ⟨state, hstate, htrue⟩
    rw [hfacts.getLogState_eq] at hstate
    cases hstate
    refine ⟨htrue.purged, fun last hlast => ?_, htrue.empty, fun id hid => ?_⟩
    · obtain ⟨entry, hlatest, heq⟩ := htrue.stored last hlast
      obtain ⟨entry', hentry', hid⟩ := Option.map_eq_some_iff.mp heq
      exact ⟨entry', hentry', by rw [hid, (latest_eq_some hlatest).2]⟩
    · obtain ⟨last, hlast, hbelow⟩ := htrue.above id hid
      obtain ⟨entry, hentry, rfl⟩ := Option.map_eq_some_iff.mp hlast
      exact ⟨entry, hentry, hbelow⟩
  · rintro ⟨hpurged, hreports⟩
    refine ⟨_, hfacts.getLogState_eq, hpurged, fun last hlast => ?_, hreports.empty,
      fun id hid => ?_⟩
    · obtain ⟨entry, hentry, rfl⟩ := hreports.last last hlast
      exact ⟨entry, latest_getLast hentry, by rw [hentry, Option.map_some]⟩
    · obtain ⟨entry, hentry, hbelow⟩ := hreports.above id hid
      exact ⟨entry.logId, by rw [hentry, Option.map_some], hbelow⟩

omit [MembershipApi] [Prost MembershipMessage] in
/-- Only the purge asked for last is another one. -/
theorem truthful_of_store {g : RaftGroup} {h : LogHistory} {purged : Option LogId}
    (hfacts : LogFacts g h.store h.appended purged) {id : Option LogId} :
    Truthful g ⟨h.store, h.appended, id⟩ ↔
      purged = id ∧ Reports g h.store h.appended purged :=
  truthful_iff (h := ⟨h.store, h.appended, id⟩) hfacts

/-- What holds of a store with a truthful history. -/
structure Invariant (g : RaftGroup) (h : LogHistory) : Prop where
  facts : LogFacts g h.store h.appended h.lastPurged
  cache : CacheSound h.store g.logCf
  bound : ∀ id, h.lastPurged = some id → id.index.toNat + 1 < 2 ^ 64

/-- What one call does to a truthful store, and when it stays truthful. -/
structure StepSpec (g : RaftGroup) (h : LogHistory) (op : LogOp) : Prop where
  keep : h.StepOk g op → Invariant g (h.step g op)
  iff : (h.step g op).Truthful g ↔ h.StepOk g op

omit [MembershipApi] [Prost MembershipMessage] in
theorem Invariant.reports {g : RaftGroup} {h : LogHistory} (hinv : Invariant g h)
    (htrue : h.Truthful g) : Reports g h.store h.appended h.lastPurged :=
  ((truthful_iff hinv.facts).mp htrue).2

theorem stepSpec_append {g : RaftGroup} {h : LogHistory} (hinv : Invariant g h)
    (htrue : h.Truthful g) (entries : List Entry) : StepSpec g h (.append entries) := by
  rcases Nat.lt_or_ge maxBatchOperations entries.length with hlarge | hsmall
  · have hstep : h.step g (.append entries) = h := by
      rw [step, LogOp.call, append_run_tooLarge hlarge]
      rfl
    refine ⟨fun _ => hstep.symm ▸ hinv, iff_of_true (hstep.symm ▸ htrue) fun hle => ?_⟩
    exact absurd hlarge (Nat.not_lt.mpr hle)
  · have hstep : h.step g (.append entries) =
        ⟨Seshat.appended g h.store entries, h.appended ++ entries, h.lastPurged⟩ := by
      rw [step, LogOp.call, append_run hsmall]
      rfl
    have hextends := appended_extends g h.store entries
    have hfacts := hinv.facts.extends hextends
    cases hlast : entries.getLast? with
    | none =>
        obtain rfl := List.getLast?_eq_none_iff.mp hlast
        have hsame : h.step g (.append []) = h := by
          rw [hstep, List.append_nil]
          rfl
        refine ⟨fun _ => hsame.symm ▸ hinv, iff_of_true (hsame.symm ▸ htrue) fun _ => ?_⟩
        exact ⟨endsHighest_nil g h.store, by rintro _ _ ⟨⟩⟩
    | some last =>
        refine ⟨fun hok => ?_, ?_⟩
        · rw [hstep]
          refine ⟨hfacts, fun index hindex => ?_, hinv.bound⟩
          rw [hextends.cache, hlast] at hindex
          exact Option.some.inj hindex ▸ (hextends.isLast_iff hlast).mpr (hok hsmall).1
        · rw [hstep, truthful_iff hfacts, hextends.reports_iff hlast hfacts.keys]
          constructor
          · rintro ⟨-, hends, habove⟩ -
            refine ⟨hends, fun last' purged hlast' hpurged => ?_⟩
            rw [hlast] at hlast'
            exact Option.some.inj hlast' ▸ habove purged hpurged
          · intro hok
            exact ⟨rfl, (hok hsmall).1, fun id hid => (hok hsmall).2 last id hlast hid⟩

theorem stepSpec_truncate {g : RaftGroup} {h : LogHistory} (hinv : Invariant g h)
    (htrue : h.Truthful g) (id : LogId) : StepSpec g h (.truncate id) := by
  have hreports := hinv.reports htrue
  rcases truncate_run_cases hinv.facts.keys hinv.cache id with
    ⟨last, hlast, hrun⟩ | ⟨hnone, hrun⟩
  · have hstep : h.step g (.truncate id) =
        ⟨truncated (h.store.setCache g.logCf (some last)) g.logCf last id.index, h.appended,
          h.lastPurged⟩ := by
      rw [step, LogOp.call, hrun]
      simp [LogOp.entries, LogOp.purgeId]
    have hfacts := (hinv.facts.setCache (some last)).truncated last id.index
    obtain ⟨entry, hentry, rfl⟩ := hreports.last last hlast
    refine ⟨fun _ => ?_, ?_⟩
    · rw [hstep]
      exact ⟨hfacts, cacheSound_of_miss (by rw [cache_truncated, Function.update_self]),
        hinv.bound⟩
    · rw [hstep, truthful_iff hfacts, reports_cut_iff hentry hlast fun index =>
        storedAt_truncated (h.store.setCache g.logCf (some entry.logId.index)) g.logCf _ _ index]
      have habove : ∀ purged, h.lastPurged = some purged → ¬ entry.logId.Below purged := by
        intro purged hpurged
        obtain ⟨entry', hentry', hbelow⟩ := hreports.above purged hpurged
        rw [hentry] at hentry'
        exact Option.some.inj hentry' ▸ hbelow
      constructor
      · rintro ⟨-, hcut, -⟩ last hlast'
        obtain rfl := hlast'.unique hlast
        exact hcut
      · exact fun hok => ⟨rfl, hok _ hlast, habove⟩
  · have hstep : h.step g (.truncate id) = h := by
      rcases hrun with hrun | ⟨e, hrun⟩
      · rw [step, LogOp.call, hrun]
        simp [LogOp.entries, LogOp.purgeId]
      · rw [step, LogOp.call, hrun]
        simp [LogOp.purgeId]
    refine ⟨fun _ => hstep.symm ▸ hinv, iff_of_true (hstep.symm ▸ htrue) fun last hlast => ?_⟩
    obtain ⟨value, hvalue⟩ := hlast.stored
    rw [hnone] at hvalue
    contradiction

/-- A purge of a log without entries records its id in a new store and is refused by
one with metadata. -/
theorem stepSpec_purge_none {g : RaftGroup} {h : LogHistory} (hinv : Invariant g h)
    (htrue : h.Truthful g) {id : LogId} (hid : id.index.toNat + 1 < 2 ^ 64)
    (hnone : ∀ index, storedAt h.store g.logCf index = none)
    (hrun : (∀ key, h.store.get g.logCf key = none) ∧
          (RocksDBLogStorage.purge g id).run h.store =
            .ok () (h.store.apply (.put g.logCf lastPurgedLogIdKey (logIdRecord id))) ∨
        (∃ key value, h.store.get g.logCf key = some value) ∧
          ∃ e, (RocksDBLogStorage.purge g id).run h.store = .error e h.store) :
    StepSpec g h (.purge id) := by
  have hok : h.StepOk g (.purge id) ↔ h.lastPurged = some id := by
    constructor
    · rintro ⟨-, ⟨-, hpurged⟩ | ⟨last, hlast, -⟩⟩
      · exact hpurged
      · exact absurd hlast (not_isLast_of_none hnone)
    · exact fun hpurged => ⟨hid, Or.inl ⟨hnone, hpurged⟩⟩
  rcases hrun with ⟨hempty, hrun⟩ | ⟨-, e, hrun⟩
  · have hstep : h.step g (.purge id) =
        ⟨h.store.apply (.put g.logCf lastPurgedLogIdKey (logIdRecord id)), h.appended,
          some id⟩ := by
      rw [step, LogOp.call, hrun]
      simp [LogOp.entries, LogOp.purgeId]
    -- no record of either id was there before
    have hpurged : h.lastPurged ≠ some id := by
      intro hpurged
      have hget := hinv.facts.lastPurged
      rw [hempty, hpurged] at hget
      contradiction
    have hentries : h.appended.getLast?.map Entry.logId ≠ some id := by
      intro hlast
      obtain ⟨entry, hentry, -⟩ := Option.map_eq_some_iff.mp hlast
      have hget := hinv.facts.lastLogId
      rw [hempty, hentry] at hget
      contradiction
    have hfacts := hinv.facts.put_purged id
    refine ⟨fun h => absurd (hok.mp h) hpurged, fun hnew => ?_, fun h => absurd (hok.mp h) hpurged⟩
    rw [hstep, truthful_iff hfacts] at hnew
    refine absurd (hnew.2.empty fun index => ?_) hentries
    rw [storedAt_put_metadata lastPurgedLogIdKey_mem, hnone]
  · have hstep : h.step g (.purge id) = ⟨h.store, h.appended, some id⟩ := by
      rw [step, LogOp.call, hrun]
      rfl
    refine ⟨fun h => ?_, ?_⟩
    · rw [hstep, ← hok.mp h]
      exact hinv
    · rw [hstep, hok, truthful_of_store hinv.facts]
      exact ⟨fun hnew => hnew.1, fun hpurged => ⟨hpurged, hinv.reports htrue⟩⟩

theorem stepSpec_purge {g : RaftGroup} {h : LogHistory} (hinv : Invariant g h)
    (htrue : h.Truthful g) (id : LogId) : StepSpec g h (.purge id) := by
  have hreports := hinv.reports htrue
  by_cases hid : id.index.toNat + 1 < 2 ^ 64
  · rcases purge_run_cases hinv.facts.keys hinv.cache hid with
      ⟨last, hlast, hrun⟩ | ⟨hnone, hmiss, hrun⟩
    · have hstep : h.step g (.purge id) =
          ⟨purged g h.store id last, h.appended, some id⟩ := by
        rw [step, LogOp.call, hrun]
        simp [LogOp.entries, LogOp.purgeId]
      have hfacts := hinv.facts.purged hid last
      obtain ⟨entry, hentry, rfl⟩ := hreports.last last hlast
      refine ⟨fun _ => ?_, ?_⟩
      · rw [hstep]
        refine ⟨hfacts, cacheSound_of_miss (by rw [cache_purged, Function.update_self]), ?_⟩
        rintro id' ⟨⟩
        exact hid
      · have hstored : ∀ index, storedAt (purged g h.store id entry.logId.index) g.logCf index =
            if 1 ≤ index ∧ index ≤ entry.logId.index ∧ index < id.index + 1 then none
            else storedAt h.store g.logCf index := by
          intro index
          rw [storedAt_purged hid]
          simp only [lt_add_one_iff hid]
        rw [hstep, truthful_iff hfacts, reports_cut_iff hentry hlast hstored,
          add_one_le_iff hid]
        constructor
        · rintro ⟨-, hcut, habove⟩
          exact ⟨hid, Or.inr ⟨_, hlast, ⟨entry, hentry, habove id rfl⟩, hcut⟩⟩
        · rintro ⟨-, ⟨hnone, -⟩ | ⟨last, hlast', ⟨entry', hentry', habove⟩, hcut⟩⟩
          · exact absurd hlast (not_isLast_of_none hnone)
          · obtain rfl := hlast'.unique hlast
            rw [hentry] at hentry'
            obtain rfl := Option.some.inj hentry'
            refine ⟨rfl, hcut, ?_⟩
            rintro id' ⟨⟩
            exact habove
    · exact stepSpec_purge_none hinv htrue hid hnone hrun
  · have hstep : h.step g (.purge id) = ⟨h.store, h.appended, some id⟩ := by
      rw [step, LogOp.call, purge_run_overflow hid]
      rfl
    refine ⟨fun hok => absurd hok.1 hid, fun hnew => ?_, fun hok => absurd hok.1 hid⟩
    rw [hstep, truthful_of_store hinv.facts] at hnew
    exact absurd (hinv.bound id hnew.1) hid

theorem stepSpec_call {g : RaftGroup} {h : LogHistory} (hinv : Invariant g h)
    (htrue : h.Truthful g) (op : LogOp) : StepSpec g h op := by
  cases op with
  | append entries => exact stepSpec_append hinv htrue entries
  | truncate id => exact stepSpec_truncate hinv htrue id
  | purge id => exact stepSpec_purge hinv htrue id

omit [MembershipApi] [Prost MembershipMessage] in
theorem invariant_new (g : RaftGroup) : Invariant g .new where
  facts := logFacts_new g
  cache := cacheSound_of_miss rfl
  bound := by rintro id ⟨⟩

omit [MembershipApi] [Prost MembershipMessage] in
theorem truthful_new (g : RaftGroup) : LogHistory.new.Truthful g := by
  refine (truthful_iff (logFacts_new g)).mpr ⟨rfl, fun last hlast => ?_, fun _ => rfl, ?_⟩
  · exact absurd hlast (not_isLast_of_none fun index => Storage.get_new _ _)
  · rintro id ⟨⟩

/-- The log state is true in every state of a run exactly if every call of it meets
the condition in the state it is made in. -/
theorem truthful_always_iff (g : RaftGroup) (ops : List LogOp) :
    Trace.Always (step g) (Truthful g) .new ops ↔ Trace.EachStep (step g) (StepOk g) .new ops := by
  refine Trace.always_iff_eachStep (Invariant g) ?_ ?_ (invariant_new g) (truthful_new g) ops
  · exact fun h op hinv htrue => (stepSpec_call hinv htrue op).keep
  · exact fun h op hinv htrue => (stepSpec_call hinv htrue op).iff

end LogHistory

namespace Witness

/-- Three entries, and a purge beyond them as after an installed snapshot. -/
def purgeBeyond : List LogOp :=
  [.append [blankEntry 1 1 1, blankEntry 1 1 2, blankEntry 1 1 3], .purge ⟨⟨1, 1⟩, 5⟩]

/-- The last log id stays behind the purged one, and no entry is left. -/
theorem log_state_behind_purge :
    ¬ Trace.Always (LogHistory.step .dataRaft) (LogHistory.Truthful .dataRaft) .new
        purgeBeyond ∧
      RocksDBLogStorage.getLogState .dataRaft
          (purgeBeyond.foldl (LogHistory.step .dataRaft) .new).store =
        .ok ⟨some ⟨⟨1, 1⟩, 5⟩, some ⟨⟨1, 1⟩, 3⟩⟩ := by
  have hstate : RocksDBLogStorage.getLogState .dataRaft
      (purgeBeyond.foldl (LogHistory.step .dataRaft) .new).store =
        .ok ⟨some ⟨⟨1, 1⟩, 5⟩, some ⟨⟨1, 1⟩, 3⟩⟩ := by decide
  refine ⟨fun halways => ?_, hstate⟩
  obtain ⟨state, hstate', htrue⟩ := halways purgeBeyond List.prefix_rfl
  rw [hstate] at hstate'
  cases hstate'
  obtain ⟨last, hlast, habove⟩ := htrue.above _ rfl
  cases hlast
  exact absurd habove (by decide)

end Witness

end Seshat
