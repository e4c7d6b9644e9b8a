/-
Reading a log back after appends.  Indices and payloads come back as they were
appended; every entry comes back with the leader of the last one, so log ids
survive exactly where that leader is the entry's own.
-/
import Seshat.Storage.History
import Seshat.Storage.Wire

namespace Seshat

open Keyed

/-- Indices follow one another without gaps. -/
def Consecutive (entries : List Entry) : Prop :=
  entries.IsChain fun a b => a.logId.index.toNat + 1 = b.logId.index.toNat

/-- Indices grow along the list. -/
abbrev Ascending (entries : List Entry) : Prop :=
  Increasing (fun entry => entry.logId.index.toNat) entries

theorem Consecutive.ascending {entries : List Entry} (h : Consecutive entries) :
    Ascending entries := by
  have hlt : entries.IsChain fun a b => a.logId.index.toNat < b.logId.index.toNat :=
    h.imp fun a b hab => by omega
  exact hlt.pairwise

/-- The entry's index lies in `lo..=hi`. -/
def inRange (lo hi : UInt64) (entry : Entry) : Bool :=
  decide (lo ≤ entry.logId.index ∧ entry.logId.index ≤ hi)

/-- The same payload; of a membership only that it is one. -/
def SamePayload : EntryPayload → EntryPayload → Prop
  | .blank, .blank => True
  | .normal request, .normal request' => request = request'
  | .membership _, .membership _ => True
  | _, _ => False

/-- The same log id, in full, and the same payload. -/
def SameEntry (entry entry' : Entry) : Prop :=
  entry.logId = entry'.logId ∧ SamePayload entry.payload entry'.payload

/-- A read that returned exactly the expected entries, in order. -/
def ReadBack (result : Except Failure (List Entry)) (expected : List Entry) : Prop :=
  ∃ entries, result = .ok entries ∧ List.Forall₂ SameEntry entries expected

theorem readBack_ok_iff {entries expected : List Entry} :
    ReadBack (.ok entries) expected ↔ List.Forall₂ SameEntry entries expected := by
  simp [ReadBack]

theorem mem_iff_latest {entries : List Entry}
    (hascending : Ascending entries)
    {index : UInt64} {entry : Entry} :
    latest entries index = some entry ↔ entry ∈ entries ∧ entry.logId.index = index := by
  refine ⟨latest_eq_some, ?_⟩
  rintro ⟨hmem, rfl⟩
  induction entries using List.reverseRecOn with
  | nil => simp at hmem
  | append_singleton entries last ih =>
      obtain ⟨hbefore, -, hlast⟩ := List.pairwise_append.mp hascending
      rw [latest_append]
      rcases List.mem_append.mp hmem with hmem | hmem
      · have hlt : entry.logId.index.toNat < last.logId.index.toNat :=
          hlast entry hmem last (by simp)
        have hne : (last.logId.index == entry.logId.index) = false := by
          simp only [beq_eq_false_iff_ne, ne_eq, ← UInt64.toNat_inj]
          omega
        rw [ih hbefore hmem]
        simp [latest, hne]
      · obtain rfl : entry = last := by simpa using hmem
        simp [latest]

/-- No entry lies below the first one. -/
theorem index_ge_of_head {entries : List Entry} (hascending : Ascending entries)
    {first entry : Entry} (hfirst : entries.head? = some first) (hmem : entry ∈ entries) :
    first.logId.index ≤ entry.logId.index := by
  obtain ⟨rest, rfl⟩ := List.head?_eq_some_iff.mp hfirst
  rcases List.mem_cons.mp hmem with rfl | hmem
  · exact UInt64.le_refl _
  · exact UInt64.le_iff_toNat_le.mpr
      (le_of_lt ((List.pairwise_cons.mp hascending).1 entry hmem))

/-- No entry lies above the last one. -/
theorem index_le_of_getLast {entries : List Entry}
    (hascending : Ascending entries)
    {last entry : Entry} (hlast : entries.getLast? = some last) (hmem : entry ∈ entries) :
    entry.logId.index ≤ last.logId.index := by
  obtain ⟨before, rfl⟩ := List.getLast?_eq_some_iff.mp hlast
  rw [UInt64.le_iff_toNat_le]
  rcases List.mem_append.mp hmem with hmem | hmem
  · exact le_of_lt ((List.pairwise_append.mp hascending).2.2 entry hmem last (by simp))
  · obtain rfl : entry = last := by simpa using hmem
    exact le_refl _

theorem entryLogId_of_le {last : LogId} {index : UInt64} (hle : index ≤ last.index) :
    entryLogId (some last) index = ⟨last.leaderId, index⟩ :=
  if_pos hle

section Payloads

variable [MembershipApi]

/-- The payload that is read for a stored one. -/
def rereadPayload (entry : Entry) : EntryPayload :=
  match entry.payload with
  | .membership m =>
      .membership
        (MembershipMessage.fromStoredMembership ⟨some entry.logId, m⟩).toMembership.membership
  | payload => payload

theorem rereadPayload_same (entry : Entry) :
    SamePayload (rereadPayload entry) entry.payload := by
  obtain ⟨id, payload⟩ := entry
  cases payload <;> simp [rereadPayload, SamePayload]

/-- The entry that is read for a stored one, given the last log id on record. -/
def rereadEntry (lastLogId : Option LogId) (entry : Entry) : Entry :=
  ⟨entryLogId lastLogId entry.logId.index, rereadPayload entry⟩

/-- An entry up to the last one is read back under the last one's leader. -/
theorem sameEntry_reread_iff {entry last : Entry}
    (hle : entry.logId.index ≤ last.logId.index) :
    SameEntry (rereadEntry (some last.logId) entry) entry ↔
      entry.logId.leaderId = last.logId.leaderId := by
  obtain ⟨⟨leader, index⟩, payload⟩ := entry
  rw [SameEntry, rereadEntry, entryLogId_of_le hle, and_iff_left (rereadPayload_same _),
    LogId.mk.injEq, and_iff_left rfl, eq_comm]

/-- An entry up to the last one is read back as it was exactly if it has the last one's
leader and a payload that survives. -/
theorem rereadEntry_eq_iff {entry last : Entry}
    (hle : entry.logId.index ≤ last.logId.index) :
    rereadEntry (some last.logId) entry = entry ↔
      entry.logId.leaderId = last.logId.leaderId ∧ rereadPayload entry = entry.payload := by
  obtain ⟨⟨leader, index⟩, payload⟩ := entry
  rw [rereadEntry, entryLogId_of_le hle, Entry.mk.injEq, LogId.mk.injEq, and_iff_left rfl,
    eq_comm (a := last.logId.leaderId)]

variable [Prost MembershipMessage]

theorem deserializeEntryPayload_entryBytes (entry : Entry) :
    deserializeEntryPayload (entryBytes entry) = .ok (rereadPayload entry) := by
  obtain ⟨id, payload⟩ := entry
  cases payload with
  | blank => rfl
  | normal request => rfl
  | membership m =>
      simp [entryBytes, serializeEntryPayload, deserializeEntryPayload, rereadPayload,
        entryTypeBlank, entryTypeNormal, entryTypeMembership]

theorem rebuild_map (lastLogId : Option LogId) (entries : List Entry) :
    rebuild lastLogId (entries.map fun entry => (entry.logId.index, entryBytes entry)) =
      .ok (entries.map (rereadEntry lastLogId)) := by
  induction entries with
  | nil => rfl
  | cons entry entries ih =>
      rw [List.map_cons, rebuild, deserializeEntryPayload_entryBytes, ih]
      rfl

end Payloads

section Appends

variable [MembershipApi] [Prost LogIdMessage] [Prost MembershipMessage]

/-- Entries appended behind everything stored follow what was seen before. -/
theorem logView_extends {g : RaftGroup} {s t : Storage} {entries : List Entry}
    (hextends : Extends g s entries t) {start : UInt64}
    (hbelow : ∀ index value, storedAt s g.logCf index = some value → index < start)
    (hascending : Ascending entries)
    (hfrom : ∀ entry ∈ entries, start ≤ entry.logId.index) (lo hi : UInt64) :
    logView t g.logCf lo hi = logView s g.logCf lo hi ++
      (entries.filter (inRange lo hi)).map fun entry =>
        (entry.logId.index, entryBytes entry) := by
  have hnew : ∀ {index entry}, latest entries index = some entry →
      storedAt s g.logCf index = none := by
    intro index entry hlatest
    obtain ⟨hmem, rfl⟩ := latest_eq_some hlatest
    cases hstored : storedAt s g.logCf entry.logId.index with
    | none => rfl
    | some value =>
        exact absurd (hbelow _ _ hstored) (UInt64.not_lt.mpr (hfrom _ hmem))
  refine (logView_increasing t g.logCf lo hi).eq_of_mem_iff ?_ ?_
  · refine List.pairwise_append.mpr ⟨logView_increasing s g.logCf lo hi,
      List.pairwise_map.mpr (hascending.filter _), ?_⟩
    rintro ⟨index, value⟩ hold pair hpair
    obtain ⟨entry, hentry, rfl⟩ := List.mem_map.mp hpair
    have hlt := UInt64.lt_iff_toNat_lt.mp (hbelow _ _ (mem_logView.mp hold).2.2)
    have hle := UInt64.le_iff_toNat_le.mp (hfrom _ (List.mem_filter.mp hentry).1)
    exact lt_of_lt_of_le hlt hle
  · rintro ⟨index, value⟩
    rw [List.mem_append, mem_logView, mem_logView, hextends.stored, List.mem_map]
    simp only [List.mem_filter, inRange, decide_eq_true_eq, Prod.mk.injEq]
    cases hlatest : latest entries index with
    | none =>
        simp only [Option.map_none, Option.none_or]
        refine ⟨Or.inl, ?_⟩
        rintro (h | ⟨entry, ⟨hmem, -⟩, rfl, -⟩)
        · exact h
        · rw [(mem_iff_latest hascending).mpr ⟨hmem, rfl⟩] at hlatest
          contradiction
    | some entry =>
        obtain ⟨hmem, rfl⟩ := latest_eq_some hlatest
        simp only [Option.map_some, Option.some_or, Option.some.injEq, hnew hlatest,
          reduceCtorEq, and_false, false_or]
        constructor
        · rintro ⟨hlo, hhi, hvalue⟩
          exact ⟨entry, ⟨hmem, hlo, hhi⟩, rfl, hvalue⟩
        · rintro ⟨other, ⟨hother, hlo, hhi⟩, hindex, hvalue⟩
          have hsame := (mem_iff_latest hascending).mpr ⟨hother, hindex⟩
          rw [hlatest, Option.some.injEq] at hsame
          rw [hindex] at hlo hhi
          exact ⟨hlo, hhi, hsame ▸ hvalue⟩

/-- A log built from nothing shows the entries of the range. -/
theorem logView_appends {g : RaftGroup} {s : Storage} {entries : List Entry}
    (hextends : Extends g .new entries s) (hascending : Ascending entries)
    (lo hi : UInt64) :
    logView s g.logCf lo hi =
      (entries.filter (inRange lo hi)).map fun entry =>
        (entry.logId.index, entryBytes entry) := by
  have hnone : ∀ index, storedAt Storage.new g.logCf index = none := fun _ =>
    Storage.get_new _ _
  have hbelow : ∀ index value, storedAt Storage.new g.logCf index = some value →
      index < (0 : UInt64) := by
    intro index value hstored
    rw [hnone] at hstored
    contradiction
  have hview := logView_extends hextends hbelow hascending
    (fun entry _ => UInt64.zero_le) lo hi
  have hempty : logView Storage.new g.logCf lo hi = [] := by
    simp [logView, hnone]
  rw [hview, hempty, List.nil_append]

/-- After appends both readers return the entries of the range, each under the
leader of the last one appended. -/
theorem tryGetLogEntries_appends {g : RaftGroup} {entries : List Entry} {s : Storage}
    (hascending : Ascending entries)
    (hextends : Extends g .new entries s) {last : Entry}
    (hlast : entries.getLast? = some last) (lo hi : UInt64) :
    RocksDBLogStorage.tryGetLogEntries g s (.inclusive lo hi) =
        .ok ((entries.filter (inRange lo hi)).map (rereadEntry (some last.logId))) ∧
      RocksDBLogReader.tryGetLogEntries g s (.inclusive lo hi) =
        .ok ((entries.filter (inRange lo hi)).map (rereadEntry (some last.logId))) := by
  have hrecord : s.get g.logCf lastLogIdKey = some (logIdRecord last.logId) := by
    rw [hextends.lastLogId, hlast]
    rfl
  obtain ⟨hstorage, hreader⟩ := lastLogId_of_record hrecord
  rw [RocksDBLogStorage.tryGetLogEntries_inclusive,
    RocksDBLogReader.tryGetLogEntries_inclusive g (hextends.keys (logKeysOnly_new _)), hstorage,
    hreader, logView_appends hextends hascending, rebuild_map]
  exact ⟨rfl, rfl⟩

/-- The storage and its reader both return the given entries of the range. -/
def LogReadsBack (g : RaftGroup) (s : Storage) (entries : List Entry)
    (lo hi : UInt64) : Prop :=
  ReadBack (RocksDBLogStorage.tryGetLogEntries g s (.inclusive lo hi))
      (entries.filter (inRange lo hi)) ∧
    ReadBack (RocksDBLogReader.tryGetLogEntries g s (.inclusive lo hi))
      (entries.filter (inRange lo hi))

/-- Where nothing was appended nothing is read. -/
theorem logReadsBack_nil {g : RaftGroup} {s : Storage} (hextends : Extends g .new [] s)
    (lo hi : UInt64) : LogReadsBack g s [] lo hi := by
  rw [LogReadsBack, RocksDBLogStorage.tryGetLogEntries_inclusive,
    RocksDBLogReader.tryGetLogEntries_inclusive g (hextends.keys (logKeysOnly_new _)),
    logView_appends hextends List.Pairwise.nil]
  exact ⟨⟨[], rfl, .nil⟩, ⟨[], rfl, .nil⟩⟩

/-- A log of consecutive entries reads back in full exactly where the entries of
the range carry the leader of the last entry appended. -/
theorem runLog_appends_readsBack_iff (g : RaftGroup) (batches : List (List Entry))
    (hconsecutive : Consecutive (runLog g .new (batches.map .append)).2)
    (lo hi : UInt64) :
    LogReadsBack g (runLog g .new (batches.map .append)).1
        (runLog g .new (batches.map .append)).2 lo hi ↔
      ∀ last, (runLog g .new (batches.map .append)).2.getLast? = some last →
        ∀ entry ∈ (runLog g .new (batches.map .append)).2, inRange lo hi entry = true →
          entry.logId.leaderId = last.logId.leaderId := by
  have hextends := runLog_appends_extends g .new batches
  generalize (runLog g .new (batches.map .append)).1 = s at *
  generalize (runLog g .new (batches.map .append)).2 = entries at *
  have hascending := hconsecutive.ascending
  cases hlast : entries.getLast? with
  | none =>
      obtain rfl := List.getLast?_eq_none_iff.mp hlast
      simp [logReadsBack_nil hextends lo hi]
  | some last =>
      obtain ⟨hstorage, hreader⟩ := tryGetLogEntries_appends hascending hextends hlast lo hi
      rw [LogReadsBack, hstorage, hreader, and_self, readBack_ok_iff,
        List.forall₂_map_left_iff, List.forall₂_same]
      simp only [List.mem_filter, Option.some.injEq, forall_eq']
      constructor
      · intro h entry hmem hrange
        exact (sameEntry_reread_iff (index_le_of_getLast hascending hlast hmem)).mp
          (h entry ⟨hmem, hrange⟩)
      · rintro h entry ⟨hmem, hrange⟩
        exact (sameEntry_reread_iff (index_le_of_getLast hascending hlast hmem)).mpr
          (h entry hmem hrange)

end Appends

namespace Witness

/-- A blank entry of the given term, node and index. -/
def blankEntry (term nodeId index : UInt64) : Entry :=
  ⟨⟨⟨term, nodeId⟩, index⟩, .blank⟩

/-- Two batches of one leader. -/
def oneLeader : List (List Entry) :=
  [[blankEntry 1 1 1, ⟨⟨⟨1, 1⟩, 2⟩, .normal ⟨[115, 101, 116]⟩⟩], [blankEntry 1 1 3]]

/-- The second entry comes from the next term. -/
def newTerm : List (List Entry) :=
  [[blankEntry 1 1 1], [blankEntry 2 1 2]]

theorem readsBack_oneLeader :
    LogReadsBack .dataRaft (runLog .dataRaft .new (oneLeader.map .append)).1
      (accepted oneLeader) 1 3 := by
  have hread := (runLog_appends_readsBack_iff .dataRaft oneLeader
    (by rw [runLog_appends_snd]; simp [Consecutive, accepted, oneLeader, blankEntry,
      maxBatchOperations]) 1 3).mpr ?_
  · rwa [runLog_appends_snd] at hread
  · rw [runLog_appends_snd]
    decide

/-- Entry 1 of term 1 comes back as an entry of term 2. -/
theorem readsBack_fails_newTerm :
    Consecutive (accepted newTerm) ∧
      ¬ LogReadsBack .dataRaft (runLog .dataRaft .new (newTerm.map .append)).1
        (accepted newTerm) 1 2 := by
  refine ⟨by simp [Consecutive, accepted, newTerm, blankEntry, maxBatchOperations], ?_⟩
  rintro ⟨⟨entries, hread, hsame⟩, -⟩
  have hids : entries.map Entry.logId = [⟨⟨2, 1⟩, 1⟩, ⟨⟨2, 1⟩, 2⟩] := by
    have hvalue : (RocksDBLogStorage.tryGetLogEntries .dataRaft
        (runLog .dataRaft .new (newTerm.map .append)).1 (.inclusive 1 2)).map
          (fun entries => entries.map Entry.logId) = .ok [⟨⟨2, 1⟩, 1⟩, ⟨⟨2, 1⟩, 2⟩] := by
      decide
    rw [hread] at hvalue
    exact Except.ok.inj hvalue
  have hwanted := map_eq_of_forall₂ (fun _ _ h => h.1) hsame
  rw [hids] at hwanted
  exact absurd hwanted (by decide)

end Witness

end Seshat
