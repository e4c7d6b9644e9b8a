/-
What the two log readers return.  The log of a column family is seen as a
partial map from indices to stored bytes; both readers rebuild the entries of
that map in the requested range, in order.
-/
import Seshat.Lib.Keyed
import Seshat.Storage.Keys

namespace Seshat

open Decimal Keyed

/-- The bytes stored for a log index. -/
def storedAt (s : Storage) (cf : ColumnFamily) (index : UInt64) : Option Bytes :=
  s.get cf (formatLogKey index)

/-- Apart from log keys a log column family holds only the two metadata keys. -/
def LogKeysOnly (s : Storage) (cf : ColumnFamily) : Prop :=
  ∀ key value, s.get cf key = some value →
    key ∈ metadataKeys ∨ ∃ index, key = formatLogKey index

/-- The stored indices of `lo..=hi` with their bytes. -/
def logView (s : Storage) (cf : ColumnFamily) (lo hi : UInt64) : List (UInt64 × Bytes) :=
  (inclusiveRange lo hi).filterMap fun index => (storedAt s cf index).map (index, ·)

/-- A scanned pair with its key read as an index. -/
def logPair (pair : Bytes × Bytes) : Option (UInt64 × Bytes) :=
  (parseLogKey pair.1).map (·, pair.2)

@[simp]
theorem mem_inclusiveRange {lo hi index : UInt64} :
    index ∈ inclusiveRange lo hi ↔ lo ≤ index ∧ index ≤ hi := by
  simp only [inclusiveRange, List.mem_map, List.mem_range'_1, UInt64.le_iff_toNat_le]
  constructor
  · rintro ⟨n, hn, rfl⟩
    have hhi := hi.toNat_lt
    rw [UInt64.toNat_ofNat_of_lt' (lt_of_le_of_lt (by omega) hhi)]
    omega
  · intro h
    exact ⟨index.toNat, by omega, UInt64.ofNat_toNat⟩

theorem inclusiveRange_increasing (lo hi : UInt64) :
    Increasing UInt64.toNat (inclusiveRange lo hi) := by
  have hhi := hi.toNat_lt
  refine List.pairwise_map.mpr (List.Pairwise.imp_of_mem ?_ List.pairwise_lt_range')
  intro a b ha hb hab
  rw [List.mem_range'_1] at ha hb
  rw [UInt64.toNat_ofNat_of_lt' (lt_of_le_of_lt (by omega) hhi),
    UInt64.toNat_ofNat_of_lt' (lt_of_le_of_lt (by omega) hhi)]
  exact hab

theorem mem_logView {s : Storage} {cf : ColumnFamily} {lo hi index : UInt64}
    {value : Bytes} :
    (index, value) ∈ logView s cf lo hi ↔
      lo ≤ index ∧ index ≤ hi ∧ storedAt s cf index = some value := by
  simp only [logView, List.mem_filterMap, mem_inclusiveRange, Option.map_eq_some_iff,
    Prod.mk.injEq]
  constructor
  · rintro ⟨i, hi, v, hv, rfl, rfl⟩
    exact ⟨hi.1, hi.2, hv⟩
  · rintro ⟨hlo, hhi, hv⟩
    exact ⟨index, ⟨hlo, hhi⟩, value, hv, rfl, rfl⟩

theorem logView_increasing (s : Storage) (cf : ColumnFamily) (lo hi : UInt64) :
    Increasing (fun pair => pair.1.toNat) (logView s cf lo hi) := by
  refine List.pairwise_filterMap.mpr ((inclusiveRange_increasing lo hi).imp ?_)
  intro a b hab p hp q hq
  obtain ⟨v, -, rfl⟩ := Option.map_eq_some_iff.mp hp
  obtain ⟨w, -, rfl⟩ := Option.map_eq_some_iff.mp hq
  exact hab

theorem mem_iteratorFrom {s : Storage} {cf : ColumnFamily} {start key value : Bytes} :
    (key, value) ∈ s.iteratorFrom cf start ↔
      compare key start ≠ .lt ∧ s.get cf key = some value := by
  have hcut : (s.db cf).toList.Pairwise fun a b =>
      (compare b.1 start == .lt) = true → (compare a.1 start == .lt) = true := by
    refine Std.ExtTreeMap.ordered_keys_toList.imp ?_
    intro a b hab hb
    rw [beq_iff_eq] at hb ⊢
    exact Std.TransCmp.lt_trans hab hb
  rw [Storage.iteratorFrom, dropWhile_eq_filter hcut, List.mem_filter,
    Std.ExtTreeMap.mem_toList_iff_getElem?_eq_some, and_comm]
  simp [Storage.get]

theorem iteratorFrom_increasing (s : Storage) (cf : ColumnFamily) (start : Bytes) :
    (s.iteratorFrom cf start).Pairwise fun a b => compare a.1 b.1 = .lt :=
  Std.ExtTreeMap.ordered_keys_toList.sublist (List.dropWhile_sublist _)

/-- A stored key that reads as an index is the key of that index. -/
theorem LogKeysOnly.key_eq {s : Storage} {cf : ColumnFamily} (hkeys : LogKeysOnly s cf)
    {key value : Bytes} (hget : s.get cf key = some value) {index : UInt64}
    (hindex : parseLogKey key = some index) : key = formatLogKey index := by
  rcases hkeys key value hget with hmeta | ⟨i, rfl⟩
  · rw [parseLogKey_metadataKey hmeta] at hindex
    contradiction
  · rw [parseLogKey_formatLogKey] at hindex
    rw [Option.some.inj hindex]

theorem mem_logPairs {s : Storage} {cf : ColumnFamily} (hkeys : LogKeysOnly s cf)
    {lo index : UInt64} {value : Bytes} :
    (index, value) ∈ (s.iteratorFrom cf (formatLogKey lo)).filterMap logPair ↔
      lo ≤ index ∧ storedAt s cf index = some value := by
  rw [List.mem_filterMap]
  constructor
  · rintro ⟨⟨key, v⟩, hmem, hpair⟩
    obtain ⟨i, hindex, heq⟩ := Option.map_eq_some_iff.mp hpair
    obtain ⟨rfl, rfl⟩ := Prod.mk.inj heq
    obtain ⟨hstart, hget⟩ := mem_iteratorFrom.mp hmem
    obtain rfl := hkeys.key_eq hget hindex
    rw [Ne, compare_formatLogKey_eq_lt, UInt64.not_lt] at hstart
    exact ⟨hstart, hget⟩
  · rintro ⟨hlo, hget⟩
    refine ⟨(formatLogKey index, value), mem_iteratorFrom.mpr ⟨?_, hget⟩, ?_⟩
    · rw [Ne, compare_formatLogKey_eq_lt, UInt64.not_lt]
      exact hlo
    · simp [logPair]

/-- Scanned log pairs come in index order. -/
theorem logPairs_increasing {s : Storage} {cf : ColumnFamily} (hkeys : LogKeysOnly s cf)
    (start : Bytes) :
    Increasing (fun pair => pair.1.toNat) ((s.iteratorFrom cf start).filterMap logPair) := by
  have hkey : ∀ {pair : Bytes × Bytes} {p : UInt64 × Bytes},
      pair ∈ s.iteratorFrom cf start → logPair pair = some p →
      pair.1 = formatLogKey p.1 := by
    rintro ⟨key, value⟩ p hmem hp
    obtain ⟨index, hindex, rfl⟩ := Option.map_eq_some_iff.mp hp
    exact hkeys.key_eq (mem_iteratorFrom.mp hmem).2 hindex
  refine List.pairwise_filterMap.mpr
    (List.Pairwise.imp_of_mem ?_ (iteratorFrom_increasing s cf start))
  intro a b ha hb hab p hp q hq
  rw [hkey ha hp, hkey hb hq, compare_formatLogKey_eq_lt] at hab
  exact UInt64.lt_iff_toNat_lt.mp hab

/-- The scan and the lookups see the same pairs. -/
theorem scan_eq_logView {s : Storage} {cf : ColumnFamily} (hkeys : LogKeysOnly s cf)
    (lo hi : UInt64) :
    ((s.iteratorFrom cf (formatLogKey lo)).filterMap logPair).takeWhile
        (fun pair => pair.1 ≤ hi) = logView s cf lo hi := by
  have hincreasing := logPairs_increasing hkeys (formatLogKey lo)
  have hcut : ((s.iteratorFrom cf (formatLogKey lo)).filterMap logPair).Pairwise fun a b =>
      decide (b.1 ≤ hi) = true → decide (a.1 ≤ hi) = true := by
    refine hincreasing.imp ?_
    intro a b hab hb
    rw [decide_eq_true_eq, UInt64.le_iff_toNat_le] at hb ⊢
    exact le_trans (le_of_lt hab) hb
  rw [takeWhile_eq_filter hcut]
  refine (hincreasing.filter _).eq_of_mem_iff (logView_increasing s cf lo hi) ?_
  rintro ⟨index, value⟩
  rw [mem_logView, List.mem_filter, mem_logPairs hkeys, decide_eq_true_eq]
  tauto

section Readers

variable [MembershipApi] [Prost MembershipMessage]

/-- The entries that stored pairs stand for, given the last log id on record. -/
def rebuild (lastLogId : Option LogId) :
    List (UInt64 × Bytes) → Except Failure (List Entry)
  | [] => .ok []
  | (index, value) :: pairs => do
      let payload ← deserializeEntryPayload value
      let entries ← rebuild lastLogId pairs
      return ⟨entryLogId lastLogId index, payload⟩ :: entries

/-- The loop of lookups rebuilds what is stored under its indices. -/
theorem lookupEntries_eq_rebuild (s : Storage) (cf : ColumnFamily)
    (lastLogId : Option LogId) (indices : List UInt64) :
    lookupEntries s cf lastLogId indices =
      rebuild lastLogId
        (indices.filterMap fun index => (storedAt s cf index).map (index, ·)) := by
  induction indices with
  | nil => rfl
  | cons index indices ih =>
      cases hget : s.get cf (formatLogKey index) with
      | none => simp [lookupEntries, storedAt, hget, ih]
      | some value => simp [lookupEntries, storedAt, hget, ih, rebuild]

/-- The scan rebuilds its log pairs up to the first index past the end. -/
theorem scanEntries_eq_rebuild (lastLogId : Option LogId) (last : UInt64)
    (pairs : List (Bytes × Bytes)) :
    scanEntries lastLogId last pairs =
      rebuild lastLogId
        ((pairs.filterMap logPair).takeWhile fun pair => pair.1 ≤ last) := by
  induction pairs with
  | nil => rfl
  | cons pair pairs ih =>
      obtain ⟨key, value⟩ := pair
      cases hkey : parseLogKey key with
      | none => simp [scanEntries, logPair, hkey, ih]
      | some index =>
          by_cases hlast : last < index
          · have hnot : ¬ index ≤ last := UInt64.not_le.mpr hlast
            simp [scanEntries, logPair, hkey, hlast, hnot, rebuild]
          · have hle : index ≤ last := UInt64.not_lt.mp hlast
            simp [scanEntries, logPair, hkey, hlast, hle, ih, rebuild]

variable [Prost LogIdMessage]

theorem RocksDBLogStorage.tryGetLogEntries_inclusive (g : RaftGroup) (s : Storage)
    (lo hi : UInt64) :
    RocksDBLogStorage.tryGetLogEntries g s (.inclusive lo hi) =
      rebuild (okFlatten (getLastLogId s g.logCf)) (logView s g.logCf lo hi) :=
  lookupEntries_eq_rebuild s g.logCf _ (inclusiveRange lo hi)

theorem RocksDBLogReader.tryGetLogEntries_inclusive (g : RaftGroup) {s : Storage}
    (hkeys : LogKeysOnly s g.logCf) (lo hi : UInt64) :
    RocksDBLogReader.tryGetLogEntries g s (.inclusive lo hi) =
      rebuild (okFlatten (readerGetLastLogId s g.logCf)) (logView s g.logCf lo hi) := by
  rw [← scan_eq_logView hkeys]
  exact scanEntries_eq_rebuild _ hi _

end Readers

end Seshat
