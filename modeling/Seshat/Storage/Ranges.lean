/-
Reads of the log over any range.  Both readers turn the two bounds into one
inclusive interval of indices, and see the same pairs in it.  The interval is the
range except where a bound cannot be moved by one, and except for index 0, which
no range without a start begins at.
-/
import Seshat.Storage.Truncation

namespace Seshat

open Keyed

def u64Max : UInt64 := UInt64.ofNat (2 ^ 64 - 1)

theorem le_u64Max (index : UInt64) : index ≤ u64Max := by
  rw [UInt64.le_iff_toNat_le]
  have hlt := index.toNat_lt
  have hmax : u64Max.toNat = 2 ^ 64 - 1 := rfl
  omega

namespace Bound

/-- The index is not below this start. -/
def AdmitsFrom (bound : Bound) (index : UInt64) : Prop :=
  match bound with
  | included n => n ≤ index
  | excluded n => n < index
  | unbounded => True

/-- The index is not above this end. -/
def AdmitsTo (bound : Bound) (index : UInt64) : Prop :=
  match bound with
  | included n => index ≤ n
  | excluded n => index < n
  | unbounded => True

end Bound

namespace RangeBounds

/-- `RangeBounds::contains`. -/
def Contains (range : RangeBounds) (index : UInt64) : Prop :=
  range.startBound.AdmitsFrom index ∧ range.endBound.AdmitsTo index

/-- The start is found unless it had to be behind the last index. -/
theorem exists_start_iff {range : RangeBounds} :
    (∃ lo, range.start = .ok lo) ↔ range.startBound ≠ .excluded u64Max := by
  obtain ⟨start, last⟩ := range
  cases start with
  | included n => simp [start]
  | unbounded => simp [start]
  | excluded n =>
      have hmax : u64Max.toNat = 2 ^ 64 - 1 := rfl
      have hn := n.toNat_lt
      simp only [RangeBounds.start, ne_eq, Bound.excluded.injEq, ← UInt64.toNat_inj, hmax]
      split <;> simp <;> omega

/-- The end is found unless it had to be before the first index. -/
theorem exists_last_iff {range : RangeBounds} :
    (∃ hi, range.last = .ok hi) ↔ range.endBound ≠ .excluded 0 := by
  obtain ⟨start, last⟩ := range
  cases last with
  | included n => simp [RangeBounds.last]
  | unbounded => simp [RangeBounds.last]
  | excluded n =>
      simp only [RangeBounds.last, ne_eq, Bound.excluded.injEq, ← UInt64.toNat_inj]
      split <;> simp <;> omega

/-- The interval starts where the range does, but for index 0 of a range without a
start. -/
theorem start_le_iff {range : RangeBounds} {lo : UInt64} (hstart : range.start = .ok lo)
    (index : UInt64) :
    lo ≤ index ↔
      range.startBound.AdmitsFrom index ∧ (range.startBound = .unbounded → index ≠ 0) := by
  obtain ⟨start, last⟩ := range
  cases start with
  | included n =>
      obtain rfl := Except.ok.inj hstart
      simp [Bound.AdmitsFrom]
  | unbounded =>
      obtain rfl := Except.ok.inj hstart
      simp [Bound.AdmitsFrom, one_le_iff_ne_zero]
  | excluded n =>
      simp only [RangeBounds.start] at hstart
      split at hstart
      · next hlt =>
          obtain rfl := Except.ok.inj hstart
          simp [Bound.AdmitsFrom, add_one_le_iff hlt]
      · contradiction

theorem le_last_iff {range : RangeBounds} {hi : UInt64} (hlast : range.last = .ok hi)
    (index : UInt64) : index ≤ hi ↔ range.endBound.AdmitsTo index := by
  obtain ⟨start, last⟩ := range
  cases last with
  | included n =>
      obtain rfl := Except.ok.inj hlast
      rfl
  | unbounded =>
      obtain rfl := Except.ok.inj hlast
      exact iff_of_true (le_u64Max index) trivial
  | excluded n =>
      simp only [RangeBounds.last] at hlast
      split at hlast
      · next hpos =>
          obtain rfl := Except.ok.inj hlast
          have hone : (1 : UInt64) ≤ n := UInt64.le_iff_toNat_le.mpr hpos
          simp only [Bound.AdmitsTo, UInt64.le_iff_toNat_le, UInt64.lt_iff_toNat_lt,
            UInt64.toNat_sub_of_le _ _ hone]
          have hn : (1 : UInt64).toNat = 1 := rfl
          omega
      · contradiction

end RangeBounds

section Readers

variable [MembershipApi] [Prost LogIdMessage] [Prost MembershipMessage]

omit [MembershipApi] [Prost MembershipMessage] in
/-- Where the record is missing, the storage falls back to a log id without a
leader, and an entry gets the same log id as without any. -/
theorem entryLogId_getLastLogId (s : Storage) (cf : ColumnFamily) :
    entryLogId (okFlatten (getLastLogId s cf)) =
      entryLogId (okFlatten (readerGetLastLogId s cf)) := by
  funext index
  rw [getLastLogId, readerGetLastLogId]
  cases s.get cf lastLogIdKey with
  | some data => rfl
  | none =>
      cases hfound : findLastLogEntry s cf with
      | none => simp [okFlatten]
      | some id =>
          have hleader : id.leaderId = ⟨0, 0⟩ := by
            simp only [findLastLogEntry, Option.bind_eq_bind, Option.bind_eq_some_iff] at hfound
            obtain ⟨key, -, keyStr, -, hid⟩ := hfound
            split at hid
            · obtain ⟨i, -, heq⟩ := Option.bind_eq_some_iff.mp hid
              rw [← Option.some.inj heq]
            · contradiction
          simp [okFlatten, entryLogId, hleader]

omit [Prost LogIdMessage] in
theorem rebuild_congr {lastLogId lastLogId' : Option LogId}
    (h : entryLogId lastLogId = entryLogId lastLogId') (pairs : List (UInt64 × Bytes)) :
    rebuild lastLogId pairs = rebuild lastLogId' pairs := by
  induction pairs with
  | nil => rfl
  | cons pair pairs ih => rw [rebuild, rebuild, ih, h]

theorem RocksDBLogStorage.tryGetLogEntries_of_bounds (g : RaftGroup) (s : Storage)
    {range : RangeBounds} {lo hi : UInt64} (hstart : range.start = .ok lo)
    (hlast : range.last = .ok hi) :
    RocksDBLogStorage.tryGetLogEntries g s range =
      rebuild (okFlatten (getLastLogId s g.logCf)) (logView s g.logCf lo hi) := by
  rw [← RocksDBLogStorage.tryGetLogEntries_inclusive]
  simp only [RocksDBLogStorage.tryGetLogEntries, hstart, hlast]
  rfl

theorem RocksDBLogReader.tryGetLogEntries_of_bounds (g : RaftGroup) {s : Storage}
    (hkeys : LogKeysOnly s g.logCf) {range : RangeBounds} {lo hi : UInt64}
    (hstart : range.start = .ok lo) (hlast : range.last = .ok hi) :
    RocksDBLogReader.tryGetLogEntries g s range =
      rebuild (okFlatten (readerGetLastLogId s g.logCf)) (logView s g.logCf lo hi) := by
  rw [← RocksDBLogReader.tryGetLogEntries_inclusive g hkeys]
  simp only [RocksDBLogReader.tryGetLogEntries, hstart, hlast]
  rfl

/-- A read that succeeds has computed both ends of its interval. -/
theorem RocksDBLogReader.exists_bounds {g : RaftGroup} {s : Storage} {range : RangeBounds}
    {entries : List Entry} (h : RocksDBLogReader.tryGetLogEntries g s range = .ok entries) :
    ∃ lo hi, range.start = .ok lo ∧ range.last = .ok hi := by
  rw [RocksDBLogReader.tryGetLogEntries] at h
  cases hstart : range.start with
  | error e =>
      rw [hstart] at h
      contradiction
  | ok lo =>
      cases hlast : range.last with
      | error e =>
          rw [hstart, hlast] at h
          contradiction
      | ok hi => exact ⟨lo, hi, rfl, rfl⟩

/-- Lookups per index and the ordered scan return the same entries or the same
error, whatever is stored under the log keys and in the records. -/
theorem readers_agree (g : RaftGroup) {s : Storage} (hkeys : LogKeysOnly s g.logCf)
    (range : RangeBounds) :
    RocksDBLogStorage.tryGetLogEntries g s range =
      RocksDBLogReader.tryGetLogEntries g s range := by
  cases hstart : range.start with
  | error e =>
      rw [RocksDBLogStorage.tryGetLogEntries, RocksDBLogReader.tryGetLogEntries, hstart]
      rfl
  | ok lo =>
      cases hlast : range.last with
      | error e =>
          rw [RocksDBLogStorage.tryGetLogEntries, RocksDBLogReader.tryGetLogEntries, hstart, hlast]
          rfl
      | ok hi =>
          rw [RocksDBLogStorage.tryGetLogEntries_of_bounds g s hstart hlast,
            RocksDBLogReader.tryGetLogEntries_of_bounds g hkeys hstart hlast]
          exact rebuild_congr (entryLogId_getLastLogId s g.logCf) _

/-- The read succeeds with the stored indices of the range, in increasing order. -/
def ReadsExactly (g : RaftGroup) (s : Storage) (range : RangeBounds) : Prop :=
  ∃ entries, RocksDBLogReader.tryGetLogEntries g s range = .ok entries ∧
    Ascending entries ∧
    ∀ index, (index ∈ entries.map fun entry => entry.logId.index) ↔
      range.Contains index ∧ ∃ value, storedAt s g.logCf index = some value

/-- A read within bounds returns the stored indices of its interval. -/
theorem exists_read_of_bounds (g : RaftGroup) {s : Storage} (hkeys : LogKeysOnly s g.logCf)
    (hreadable : Readable s g.logCf) {range : RangeBounds} {lo hi : UInt64}
    (hstart : range.start = .ok lo) (hlast : range.last = .ok hi) :
    ∃ entries, RocksDBLogReader.tryGetLogEntries g s range = .ok entries ∧
      Ascending entries ∧
      ∀ index, (index ∈ entries.map fun entry => entry.logId.index) ↔
        lo ≤ index ∧ index ≤ hi ∧ ∃ value, storedAt s g.logCf index = some value := by
  obtain ⟨entries, hentries⟩ :=
    exists_rebuilt (okFlatten (readerGetLastLogId s g.logCf)) (hreadable.logView lo hi)
  have hindices := map_index_of_rebuilt hentries
  refine ⟨entries, ?_, ?_, fun index => ?_⟩
  · rw [RocksDBLogReader.tryGetLogEntries_of_bounds g hkeys hstart hlast]
    exact rebuild_eq_ok_iff.mpr hentries
  · have hview : ((logView s g.logCf lo hi).map Prod.fst).Pairwise
        fun a b => a.toNat < b.toNat :=
      List.pairwise_map.mpr (logView_increasing s g.logCf lo hi)
    rw [hindices] at hview
    exact (List.pairwise_map (f := fun entry : Entry => entry.logId.index)).mp hview
  · rw [← hindices, List.mem_map]
    simp only [Prod.exists, mem_logView, exists_and_right, exists_eq_right]
    tauto

/-- The reader returns the stored indices of a range exactly where neither bound has
to be moved over an end of `u64`, and index 0 is not stored when the range has no
start. -/
theorem readsExactly_iff (g : RaftGroup) {s : Storage} (hkeys : LogKeysOnly s g.logCf)
    (hreadable : Readable s g.logCf) (range : RangeBounds) :
    ReadsExactly g s range ↔
      range.startBound ≠ .excluded u64Max ∧ range.endBound ≠ .excluded 0 ∧
        (range.startBound = .unbounded → storedAt s g.logCf 0 = none) := by
  constructor
  · rintro ⟨entries, hread, -, hindices⟩
    obtain ⟨lo, hi, hstart, hlast⟩ := RocksDBLogReader.exists_bounds hread
    refine ⟨RangeBounds.exists_start_iff.mp ⟨lo, hstart⟩,
      RangeBounds.exists_last_iff.mp ⟨hi, hlast⟩, fun hunbounded => ?_⟩
    obtain ⟨entries', hread', -, hinterval⟩ :=
      exists_read_of_bounds g hkeys hreadable hstart hlast
    obtain rfl := Except.ok.inj (hread.symm.trans hread')
    -- index 0 is in the range, but the interval starts at 1
    have hzero : range.Contains 0 := by
      constructor
      · rw [hunbounded]
        trivial
      · exact (RangeBounds.le_last_iff hlast 0).mp UInt64.zero_le
    cases hvalue : storedAt s g.logCf 0 with
    | none => rfl
    | some value =>
        have hmem := (hindices 0).mpr ⟨hzero, value, hvalue⟩
        have hlo := ((hinterval 0).mp hmem).1
        exact absurd rfl (((RangeBounds.start_le_iff hstart 0).mp hlo).2 hunbounded)
  · rintro ⟨hstartBound, hendBound, hzero⟩
    obtain ⟨lo, hstart⟩ := RangeBounds.exists_start_iff.mpr hstartBound
    obtain ⟨hi, hlast⟩ := RangeBounds.exists_last_iff.mpr hendBound
    obtain ⟨entries, hread, hascending, hinterval⟩ :=
      exists_read_of_bounds g hkeys hreadable hstart hlast
    refine ⟨entries, hread, hascending, fun index => ?_⟩
    rw [hinterval, RangeBounds.start_le_iff hstart, RangeBounds.le_last_iff hlast,
      RangeBounds.Contains]
    constructor
    · rintro ⟨⟨hfrom, -⟩, hto, hstored⟩
      exact ⟨⟨hfrom, hto⟩, hstored⟩
    · rintro ⟨⟨hfrom, hto⟩, value, hvalue⟩
      refine ⟨⟨hfrom, ?_⟩, hto, value, hvalue⟩
      rintro hunbounded rfl
      rw [hzero hunbounded] at hvalue
      contradiction

end Readers

namespace Witness

/-- Entries 1 to 3, appended in two batches. -/
def threeEntries : Storage := (runLog .dataRaft .new (oneLeader.map .append)).1

theorem threeEntries_extends :
    LogKeysOnly threeEntries .dataRaftLog ∧ Readable threeEntries .dataRaftLog := by
  have h := runLog_appends_extends .dataRaft .new oneLeader
  exact ⟨h.keys (logKeysOnly_new _), h.readable⟩

theorem threeEntries_readers_agree :
    RocksDBLogStorage.tryGetLogEntries .dataRaft threeEntries ⟨.excluded 1, .unbounded⟩ =
      RocksDBLogReader.tryGetLogEntries .dataRaft threeEntries ⟨.excluded 1, .unbounded⟩ :=
  readers_agree .dataRaft threeEntries_extends.1 ⟨.excluded 1, .unbounded⟩

theorem threeEntries_readsExactly :
    ReadsExactly .dataRaft threeEntries ⟨.unbounded, .excluded 3⟩ :=
  (readsExactly_iff .dataRaft threeEntries_extends.1 threeEntries_extends.2
    ⟨.unbounded, .excluded 3⟩).mpr (by decide)

/-- A log that starts at index 0. -/
def zeroAndOne : Storage :=
  (runLog .dataRaft .new ([[blankEntry 1 1 0, blankEntry 1 1 1]].map .append)).1

/-- The end `..0` underflows, and `..` leaves out index 0. -/
theorem readsExactly_fails_at_zero :
    (LogKeysOnly zeroAndOne .dataRaftLog ∧ Readable zeroAndOne .dataRaftLog) ∧
      ¬ ReadsExactly .dataRaft zeroAndOne ⟨.included 0, .excluded 0⟩ ∧
      ¬ ReadsExactly .dataRaft zeroAndOne ⟨.unbounded, .unbounded⟩ := by
  have h := runLog_appends_extends .dataRaft .new [[blankEntry 1 1 0, blankEntry 1 1 1]]
  refine ⟨⟨h.keys (logKeysOnly_new _), h.readable⟩, ?_, ?_⟩
  · rintro ⟨entries, hread, -⟩
    have hpanic : RocksDBLogReader.tryGetLogEntries .dataRaft zeroAndOne
        ⟨.included 0, .excluded 0⟩ = .error .panic := rfl
    rw [hpanic] at hread
    contradiction
  · rintro ⟨entries, hread, -, hindices⟩
    have hone : entries.map (fun entry => entry.logId.index) = [1] := by
      have hvalue : (RocksDBLogReader.tryGetLogEntries .dataRaft zeroAndOne
          ⟨.unbounded, .unbounded⟩).map
            (fun entries => entries.map fun entry => entry.logId.index) = .ok [1] := by
        decide
      rw [hread] at hvalue
      exact Except.ok.inj hvalue
    have hzero : ∃ value, storedAt zeroAndOne RaftGroup.dataRaft.logCf 0 = some value :=
      ⟨[0], by decide⟩
    have hmem := (hindices 0).mpr ⟨⟨trivial, trivial⟩, hzero⟩
    rw [hone] at hmem
    exact absurd hmem (by decide)

end Witness

end Seshat
