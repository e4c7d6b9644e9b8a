/-
What each operation of the log store does to a column family, said through
lookups: which indices are stored afterwards, what the metadata records hold
and what the cache remembers.
-/
import Seshat.Storage.Readers

namespace Seshat

open Decimal Keyed Utf8

namespace Storage

@[simp]
theorem get_new (cf : ColumnFamily) (key : Bytes) : new.get cf key = none :=
  Std.ExtTreeMap.getElem?_empty

@[simp]
theorem get_setCache (s : Storage) (cf : ColumnFamily) (index : Option UInt64) :
    (s.setCache cf index).get = s.get := rfl

@[simp]
theorem cache_setCache (s : Storage) (cf : ColumnFamily) (index : Option UInt64) :
    (s.setCache cf index).lastLogIndexCache =
      Function.update s.lastLogIndexCache cf index := rfl

@[simp]
theorem get_apply_put (s : Storage) (cf cf' : ColumnFamily) (key key' value : Bytes) :
    (s.apply (.put cf key value)).get cf' key' =
      if cf' = cf ∧ key' = key then some value else s.get cf' key' := by
  by_cases hcf : cf' = cf
  · subst hcf
    simp [get, apply, setCf, Std.ExtTreeMap.getElem?_insert,
      eq_comm (a := key')]
  · simp [get, apply, setCf, hcf]

@[simp]
theorem get_apply_delete (s : Storage) (cf cf' : ColumnFamily) (key key' : Bytes) :
    (s.apply (.delete cf key)).get cf' key' =
      if cf' = cf ∧ key' = key then none else s.get cf' key' := by
  by_cases hcf : cf' = cf
  · subst hcf
    simp [get, apply, setCf, Std.ExtTreeMap.getElem?_erase,
      eq_comm (a := key')]
  · simp [get, apply, setCf, hcf]

@[simp]
theorem cache_apply (s : Storage) (op : BatchOperation) :
    (s.apply op).lastLogIndexCache = s.lastLogIndexCache := by
  cases op <;> rfl

@[simp]
theorem cache_write (s : Storage) (batch : WriteBatch) :
    (s.write batch).lastLogIndexCache = s.lastLogIndexCache := by
  induction batch generalizing s with
  | nil => rfl
  | cons op batch ih => rw [write, List.foldl_cons, ← write, ih, cache_apply]

theorem write_singleton (s : Storage) (op : BatchOperation) :
    s.write [op] = s.apply op := rfl

theorem write_append (s : Storage) (batch batch' : WriteBatch) :
    s.write (batch ++ batch') = (s.write batch).write batch' :=
  List.foldl_append

/-- Two stores with the same lookups and the same cache are one. -/
theorem ext_get {s t : Storage} (hget : ∀ cf key, s.get cf key = t.get cf key)
    (hcache : s.lastLogIndexCache = t.lastLogIndexCache) : s = t := by
  obtain ⟨sdb, scache⟩ := s
  obtain ⟨tdb, tcache⟩ := t
  have hdb : sdb = tdb := funext fun cf => Std.ExtTreeMap.ext_getElem? (hget cf)
  rw [hdb, show scache = tcache from hcache]

/-- A batch of deletions removes its keys and nothing else. -/
theorem get_write_deletes (s : Storage) (cf cf' : ColumnFamily) (key : Bytes)
    (indices : List UInt64) :
    (s.write (indices.map fun index => .delete cf (formatLogKey index))).get cf' key =
      if cf' = cf ∧ ∃ index ∈ indices, key = formatLogKey index then none
      else s.get cf' key := by
  induction indices generalizing s with
  | nil => simp [write]
  | cons index indices ih =>
      rw [List.map_cons, write, List.foldl_cons, ← write, ih, get_apply_delete]
      by_cases hcf : cf' = cf
      · by_cases hkey : key = formatLogKey index <;> simp [hcf, hkey]
      · simp [hcf]

theorem lastKey_eq_none {s : Storage} {cf : ColumnFamily}
    (hempty : ∀ key, s.get cf key = none) : s.lastKey cf = none := by
  have hmap : s.db cf = ∅ := Std.ExtTreeMap.ext_getElem? fun key => by
    rw [Std.ExtTreeMap.getElem?_empty]
    exact hempty key
  rw [lastKey, hmap]
  rfl

/-- The last key of a column family that holds any is stored, and none of the
others is greater. -/
theorem exists_lastKey {s : Storage} {cf : ColumnFamily} {key value : Bytes}
    (hget : s.get cf key = some value) :
    ∃ last v, s.lastKey cf = some last ∧ s.get cf last = some v ∧
      ∀ other w, s.get cf other = some w → compare other last ≠ .gt := by
  have hmem : (key, value) ∈ (s.db cf).toList :=
    Std.ExtTreeMap.mem_toList_iff_getElem?_eq_some.mpr hget
  obtain ⟨⟨last, v⟩, hlast⟩ := Option.ne_none_iff_exists'.mp
    (mt List.getLast?_eq_none_iff.mp (List.ne_nil_of_mem hmem))
  obtain ⟨before, hlist⟩ := List.getLast?_eq_some_iff.mp hlast
  have hordered := Std.ExtTreeMap.ordered_keys_toList (t := s.db cf)
  refine ⟨last, v, by rw [lastKey, hlast]; rfl, ?_, fun other w hother => ?_⟩
  · exact Std.ExtTreeMap.mem_toList_iff_getElem?_eq_some.mp (List.mem_of_getLast? hlast)
  · have hpair : (other, w) ∈ (s.db cf).toList :=
      Std.ExtTreeMap.mem_toList_iff_getElem?_eq_some.mpr hother
    rw [hlist] at hordered hpair
    rcases List.mem_append.mp hpair with hpair | hpair
    · have hlt := (List.pairwise_append.mp hordered).2.2 _ hpair (last, v) (by simp)
      rw [hlt]
      decide
    · obtain ⟨rfl, -⟩ : other = last ∧ w = v := by simpa using hpair
      rw [Std.compare_self]
      decide

end Storage

theorem logKeysOnly_new (cf : ColumnFamily) : LogKeysOnly .new cf := by
  intro key value hget
  rw [Storage.get_new] at hget
  contradiction

theorem LogKeysOnly.put_metadata {s : Storage} {cf : ColumnFamily}
    (hkeys : LogKeysOnly s cf) {key : Bytes} (hkey : key ∈ metadataKeys) (value : Bytes) :
    LogKeysOnly (s.apply (.put cf key value)) cf := by
  intro key' value' hget
  rw [Storage.get_apply_put] at hget
  split at hget
  · rename_i heq
    exact Or.inl (heq.2 ▸ hkey)
  · exact hkeys key' value' hget

theorem storedAt_put_metadata {key : Bytes} (hkey : key ∈ metadataKeys) (s : Storage)
    (cf : ColumnFamily) (value : Bytes) (index : UInt64) :
    storedAt (s.apply (.put cf key value)) cf index = storedAt s cf index := by
  have hne := (metadataKey_ne_formatLogKey hkey index).symm
  rw [storedAt, Storage.get_apply_put, if_neg fun h => hne h.2, storedAt]

/-- The last index of a log: stored, and none is stored above it. -/
structure IsLast (s : Storage) (cf : ColumnFamily) (last : UInt64) : Prop where
  stored : ∃ value, storedAt s cf last = some value
  max : ∀ index value, storedAt s cf index = some value → index ≤ last

theorem IsLast.unique {s : Storage} {cf : ColumnFamily} {a b : UInt64}
    (ha : IsLast s cf a) (hb : IsLast s cf b) : a = b := by
  obtain ⟨v, hv⟩ := ha.stored
  obtain ⟨w, hw⟩ := hb.stored
  exact UInt64.le_antisymm (hb.max a v hv) (ha.max b w hw)

theorem not_isLast_of_none {s : Storage} {cf : ColumnFamily} {last : UInt64}
    (hnone : ∀ index, storedAt s cf index = none) : ¬ IsLast s cf last := by
  rintro ⟨⟨value, hvalue⟩, -⟩
  rw [hnone] at hvalue
  contradiction

/-- The highest index of a log, or none where it holds no entry. -/
def Highest (s : Storage) (cf : ColumnFamily) : Option UInt64 → Prop
  | some last => IsLast s cf last
  | none => ∀ index, storedAt s cf index = none

theorem Highest.unique {s : Storage} {cf : ColumnFamily} {a b : Option UInt64}
    (ha : Highest s cf a) (hb : Highest s cf b) : a = b := by
  cases a with
  | none =>
      cases b with
      | none => rfl
      | some b => exact absurd hb (not_isLast_of_none ha)
  | some a =>
      cases b with
      | none => exact absurd ha (not_isLast_of_none hb)
      | some b => rw [IsLast.unique ha hb]

/-- A stored entry makes the last key of the column family a log key. -/
theorem lastKey_of_stored {s : Storage} {cf : ColumnFamily} (hkeys : LogKeysOnly s cf)
    {index : UInt64} {value : Bytes} (hstored : storedAt s cf index = some value) :
    ∃ last, IsLast s cf last ∧ s.lastKey cf = some (formatLogKey last) := by
  obtain ⟨key, v, hkey, hv, hmax⟩ := Storage.exists_lastKey hstored
  rcases hkeys key v hv with hmeta | ⟨last, rfl⟩
  · -- a metadata key lies below the stored log key
    exact absurd (Std.OrientedCmp.gt_of_lt (compare_metadataKey hmeta index))
      (hmax (formatLogKey index) value hstored)
  · refine ⟨last, ⟨⟨v, hv⟩, ?_⟩, hkey⟩
    intro i w hw
    have hle := hmax (formatLogKey i) w hw
    rw [compare_formatLogKey, Nat.compare_ne_gt] at hle
    exact UInt64.le_iff_toNat_le.mpr hle

theorem IsLast.lastKey {s : Storage} {cf : ColumnFamily} (hkeys : LogKeysOnly s cf)
    {last : UInt64} (hlast : IsLast s cf last) :
    s.lastKey cf = some (formatLogKey last) := by
  obtain ⟨v, hv⟩ := hlast.stored
  obtain ⟨last', hlast', hkey⟩ := lastKey_of_stored hkeys hv
  rw [hlast.unique hlast', hkey]

/-- A log key at the end of the column family is stripped of its prefix and parsed. -/
theorem getLastLogIndexFromDb_run_lastKey {s : Storage} {cf : ColumnFamily}
    (hcf : cf.isLogCf = true) {last : UInt64} (hlast : s.lastKey cf = some (formatLogKey last)) :
    (getLastLogIndexFromDb cf).run s = .ok (some last) s := by
  simp [getLastLogIndexFromDb, hcf, hlast, fromUtf8_of_ascii (formatLogKey_ascii last),
    formatLogKey_begins, u64FromStr_keyDigits]

theorem getLastLogIndexFromDb_run_isLast {s : Storage} {cf : ColumnFamily}
    (hcf : cf.isLogCf = true) (hkeys : LogKeysOnly s cf) {last : UInt64}
    (hlast : IsLast s cf last) :
    (getLastLogIndexFromDb cf).run s = .ok (some last) s :=
  getLastLogIndexFromDb_run_lastKey hcf (hlast.lastKey hkeys)

theorem getLastLogIndexFromDb_run_empty {s : Storage} {cf : ColumnFamily}
    (hcf : cf.isLogCf = true) (hempty : ∀ key, s.get cf key = none) :
    (getLastLogIndexFromDb cf).run s = .ok none s := by
  simp [getLastLogIndexFromDb, hcf, Storage.lastKey_eq_none hempty]

/-- The metadata keys are text, and no log keys. -/
theorem metadataKey_plain : ∀ key ∈ metadataKeys,
    fromUtf8 key = some key ∧ (ascii "log:").isPrefixOf key = false := by decide

/-- With metadata but no entry left, the last key is no log key. -/
theorem getLastLogIndexFromDb_run_metadata {s : Storage} {cf : ColumnFamily}
    (hcf : cf.isLogCf = true) (hkeys : LogKeysOnly s cf)
    (hnone : ∀ index, storedAt s cf index = none) {key value : Bytes}
    (hget : s.get cf key = some value) :
    ∃ found ∈ metadataKeys, (getLastLogIndexFromDb cf).run s =
      .error (.corruptedData cf.asStr found
        (ascii "Key does not start with 'log:': " ++ found)) s := by
  obtain ⟨found, v, hfound, hv, -⟩ := Storage.exists_lastKey hget
  rcases hkeys found v hv with hmeta | ⟨index, rfl⟩
  · obtain ⟨hutf8, hbegin⟩ := metadataKey_plain found hmeta
    refine ⟨found, hmeta, ?_⟩
    simp [getLastLogIndexFromDb, hcf, hfound, hutf8, hbegin]
  · have hgone := hnone index
    rw [storedAt, hv] at hgone
    contradiction

/-- The last key is looked up without a change to the store. -/
theorem avoids_getLastLogIndexFromDb {τ : Type} (part : Storage → τ) (cf : ColumnFamily) :
    Footprint.Avoids part (getLastLogIndexFromDb cf) := by
  simp only [getLastLogIndexFromDb]
  split
  · exact Footprint.avoids_throw_bind _ _
  · refine Footprint.avoids_get.bind fun s => ?_
    split
    · exact Footprint.avoids_pure _
    · split
      · exact Footprint.avoids_throw _
      · split
        · exact Footprint.avoids_throw_bind _ _
        · split
          · exact Footprint.avoids_throw _
          · exact Footprint.avoids_pure _

theorem avoids_ignore {τ : Type} {part : Storage → τ} {op : StorageM Unit}
    (h : Footprint.Avoids part op) : Footprint.Avoids part (ignore op) where
  ok := by
    intro s a t hrun
    rw [ignore_run] at hrun
    cases hop : op.run s with
    | ok b u =>
        rw [hop] at hrun
        cases hrun
        exact h.ok hop
    | error e u =>
        rw [hop] at hrun
        cases hrun
        exact h.error hop
  error := by
    intro s e t hrun
    rw [ignore_run] at hrun
    cases hop : op.run s <;> rw [hop] at hrun <;> contradiction

/-- Where the cache remembers an index, it is the last one. -/
def CacheSound (s : Storage) (cf : ColumnFamily) : Prop :=
  ∀ last, s.lastLogIndexCache cf = some last → IsLast s cf last

theorem cacheSound_of_miss {s : Storage} {cf : ColumnFamily}
    (hmiss : s.lastLogIndexCache cf = none) : CacheSound s cf := by
  intro last hlast
  rw [hmiss] at hlast
  contradiction

theorem getCachedLastLogIndex_run_hit {s : Storage} {cf : ColumnFamily} {last : UInt64}
    (hcache : s.lastLogIndexCache cf = some last) :
    (getCachedLastLogIndex cf).run s = .ok (some last) s := by
  simp [getCachedLastLogIndex, hcache]

theorem getCachedLastLogIndex_run_isLast {s : Storage} {cf : ColumnFamily}
    (hcf : cf.isLogCf = true) (hkeys : LogKeysOnly s cf) (hsound : CacheSound s cf)
    {last : UInt64} (hlast : IsLast s cf last) :
    (getCachedLastLogIndex cf).run s = .ok (some last) (s.setCache cf (some last)) := by
  cases hcache : s.lastLogIndexCache cf with
  | some index =>
      obtain rfl := (hsound index hcache).unique hlast
      rw [getCachedLastLogIndex_run_hit hcache, Storage.setCache, ← hcache,
        Function.update_eq_self]
  | none =>
      simp [getCachedLastLogIndex, hcache, updateCachedLastLogIndex,
        getLastLogIndexFromDb_run_isLast hcf hkeys hlast]

theorem getCachedLastLogIndex_run_none {s : Storage} {cf : ColumnFamily}
    (hcache : s.lastLogIndexCache cf = none)
    (hdb : (getLastLogIndexFromDb cf).run s = .ok none s) :
    (getCachedLastLogIndex cf).run s = .ok none s := by
  simp [getCachedLastLogIndex, hcache, hdb]

theorem getCachedLastLogIndex_run_error {s : Storage} {cf : ColumnFamily}
    (hcache : s.lastLogIndexCache cf = none) {e : StorageError}
    (hdb : (getLastLogIndexFromDb cf).run s = .error e s) :
    (getCachedLastLogIndex cf).run s = .error e s := by
  simp [getCachedLastLogIndex, hcache, hdb]

@[simp]
theorem mem_exclusiveRange {start stop index : UInt64} :
    index ∈ exclusiveRange start stop ↔ start ≤ index ∧ index < stop := by
  simp only [exclusiveRange, List.mem_map, List.mem_range'_1, UInt64.le_iff_toNat_le,
    UInt64.lt_iff_toNat_lt]
  constructor
  · rintro ⟨n, hn, rfl⟩
    have hstop := stop.toNat_lt
    rw [UInt64.toNat_ofNat_of_lt' (lt_trans (by omega) hstop)]
    omega
  · intro h
    exact ⟨index.toNat, by omega, UInt64.ofNat_toNat⟩

/-- The store after `truncate_log_before` found the last index. -/
def truncated (s : Storage) (cf : ColumnFamily) (last truncateIndex : UInt64) : Storage :=
  let indices :=
    if truncateIndex > last then inclusiveRange 1 last else exclusiveRange 1 truncateIndex
  (s.write (indices.map fun index => .delete cf (formatLogKey index))).setCache cf none

theorem truncateLogBefore_run_some {s t : Storage} {cf : ColumnFamily}
    (hcf : cf.isLogCf = true) {last : UInt64}
    (hcached : (getCachedLastLogIndex cf).run s = .ok (some last) t)
    (truncateIndex : UInt64) :
    (truncateLogBefore cf truncateIndex).run s =
      .ok () (truncated t cf last truncateIndex) := by
  simp [truncateLogBefore, hcf, hcached, truncated]

theorem truncateLogBefore_run_none {s t : Storage} {cf : ColumnFamily}
    (hcf : cf.isLogCf = true)
    (hcached : (getCachedLastLogIndex cf).run s = .ok none t) (truncateIndex : UInt64) :
    (truncateLogBefore cf truncateIndex).run s = .ok () t := by
  simp [truncateLogBefore, hcf, hcached]

theorem truncateLogBefore_run_error {s t : Storage} {cf : ColumnFamily}
    (hcf : cf.isLogCf = true) {e : StorageError}
    (hcached : (getCachedLastLogIndex cf).run s = .error e t) (truncateIndex : UInt64) :
    (truncateLogBefore cf truncateIndex).run s = .error e t := by
  simp [truncateLogBefore, hcf, hcached]

/-- The last index that is known: the cached one, or what the database holds. -/
def KnownLast (s : Storage) (cf : ColumnFamily) (last : UInt64) : Prop :=
  s.lastLogIndexCache cf = some last ∨ s.lastLogIndexCache cf = none ∧ IsLast s cf last

theorem KnownLast.isLast {s : Storage} {cf : ColumnFamily} {last : UInt64}
    (h : KnownLast s cf last) (hcache : CacheSound s cf) : IsLast s cf last := by
  rcases h with hhit | ⟨-, hlast⟩
  · exact hcache last hhit
  · exact hlast

theorem KnownLast.unique {s : Storage} {cf : ColumnFamily} {a b : UInt64}
    (ha : KnownLast s cf a) (hb : KnownLast s cf b) : a = b := by
  rcases ha with ha | ⟨hmiss, ha⟩
  · rcases hb with hb | ⟨hmiss, -⟩
    · exact Option.some.inj (ha.symm.trans hb)
    · rw [hmiss] at ha
      contradiction
  · exact ha.unique (hb.isLast (cacheSound_of_miss hmiss))

/-- Either a last index is known, or the column family has no entry: then it holds
nothing, or metadata alone, and that is an error. -/
theorem getCachedLastLogIndex_run_known {s : Storage} {cf : ColumnFamily}
    (hcf : cf.isLogCf = true) (hkeys : LogKeysOnly s cf) :
    (∃ last, KnownLast s cf last ∧
        (getCachedLastLogIndex cf).run s = .ok (some last) (s.setCache cf (some last))) ∨
      (∀ index, storedAt s cf index = none) ∧ s.lastLogIndexCache cf = none ∧
        ((∀ key, s.get cf key = none) ∧ (getCachedLastLogIndex cf).run s = .ok none s ∨
          (∃ key value, s.get cf key = some value) ∧
            ∃ e, (getCachedLastLogIndex cf).run s = .error e s) := by
  cases hcache : s.lastLogIndexCache cf with
  | some last =>
      refine Or.inl ⟨last, Or.inl hcache, ?_⟩
      rw [getCachedLastLogIndex_run_hit hcache, Storage.setCache, ← hcache,
        Function.update_eq_self]
  | none =>
      by_cases hstored : ∃ index value, storedAt s cf index = some value
      · obtain ⟨index, value, hvalue⟩ := hstored
        obtain ⟨last, hlast, -⟩ := lastKey_of_stored hkeys hvalue
        exact Or.inl ⟨last, Or.inr ⟨hcache, hlast⟩,
          getCachedLastLogIndex_run_isLast hcf hkeys (cacheSound_of_miss hcache) hlast⟩
      · have hnone : ∀ index, storedAt s cf index = none := fun index =>
          Option.eq_none_iff_forall_ne_some.mpr fun value hvalue =>
            hstored ⟨index, value, hvalue⟩
        refine Or.inr ⟨hnone, rfl, ?_⟩
        by_cases hkey : ∃ key value, s.get cf key = some value
        · obtain ⟨key, value, hget⟩ := hkey
          obtain ⟨found, -, hdb⟩ := getLastLogIndexFromDb_run_metadata hcf hkeys hnone hget
          exact Or.inr ⟨⟨key, value, hget⟩, _, getCachedLastLogIndex_run_error hcache hdb⟩
        · have hempty : ∀ key, s.get cf key = none := fun key =>
            Option.eq_none_iff_forall_ne_some.mpr fun value hget => hkey ⟨key, value, hget⟩
          exact Or.inl ⟨hempty, getCachedLastLogIndex_run_none hcache
            (getLastLogIndexFromDb_run_empty hcf hempty)⟩

/-- What a truncation can do. -/
theorem truncateLogBefore_run_known {s : Storage} {cf : ColumnFamily}
    (hcf : cf.isLogCf = true) (hkeys : LogKeysOnly s cf) (truncateIndex : UInt64) :
    (∃ last, KnownLast s cf last ∧ (truncateLogBefore cf truncateIndex).run s =
        .ok () (truncated (s.setCache cf (some last)) cf last truncateIndex)) ∨
      (∀ index, storedAt s cf index = none) ∧ s.lastLogIndexCache cf = none ∧
        ((∀ key, s.get cf key = none) ∧
            (truncateLogBefore cf truncateIndex).run s = .ok () s ∨
          (∃ key value, s.get cf key = some value) ∧
            ∃ e, (truncateLogBefore cf truncateIndex).run s = .error e s) := by
  rcases getCachedLastLogIndex_run_known hcf hkeys with
    ⟨last, hlast, hrun⟩ | ⟨hnone, hmiss, ⟨hempty, hrun⟩ | ⟨hkey, e, hrun⟩⟩
  · exact Or.inl ⟨last, hlast, truncateLogBefore_run_some hcf hrun truncateIndex⟩
  · exact Or.inr ⟨hnone, hmiss,
      Or.inl ⟨hempty, truncateLogBefore_run_none hcf hrun truncateIndex⟩⟩
  · exact Or.inr ⟨hnone, hmiss,
      Or.inr ⟨hkey, e, truncateLogBefore_run_error hcf hrun truncateIndex⟩⟩

/-- The keys of the indices from 1 up to the last one below the cut are gone. -/
theorem get_truncated (s : Storage) (cf cf' : ColumnFamily)
    (last truncateIndex : UInt64) (key : Bytes) :
    (truncated s cf last truncateIndex).get cf' key =
      if cf' = cf ∧ ∃ index, (1 ≤ index ∧ index ≤ last ∧ index < truncateIndex) ∧
        key = formatLogKey index then none
      else s.get cf' key := by
  have hmem : ∀ index, index ∈ (if truncateIndex > last then inclusiveRange 1 last
      else exclusiveRange 1 truncateIndex) ↔
      1 ≤ index ∧ index ≤ last ∧ index < truncateIndex := by
    intro index
    split
    · rw [mem_inclusiveRange]
      simp only [UInt64.le_iff_toNat_le, UInt64.lt_iff_toNat_lt] at *
      omega
    · rw [mem_exclusiveRange]
      simp only [UInt64.le_iff_toNat_le, UInt64.lt_iff_toNat_lt] at *
      omega
  rw [truncated, Storage.get_setCache, Storage.get_write_deletes]
  simp only [hmem]

theorem storedAt_truncated (s : Storage) (cf : ColumnFamily)
    (last truncateIndex index : UInt64) :
    storedAt (truncated s cf last truncateIndex) cf index =
      if 1 ≤ index ∧ index ≤ last ∧ index < truncateIndex then none
      else storedAt s cf index := by
  simp only [storedAt, get_truncated, formatLogKey_inj, true_and, exists_eq_right']

/-- With nothing but index 0 there is nothing to delete. -/
theorem storedAt_truncated_zero (s : Storage) (cf : ColumnFamily)
    (truncateIndex index : UInt64) :
    storedAt (truncated s cf 0 truncateIndex) cf index = storedAt s cf index := by
  rw [storedAt_truncated, if_neg]
  rintro ⟨hpos, hle, -⟩
  simp only [UInt64.le_iff_toNat_le] at hpos hle
  exact absurd (le_trans hpos hle) (by decide)

theorem storedAt_of_truncated {s : Storage} {cf : ColumnFamily}
    {last truncateIndex index : UInt64} {value : Bytes}
    (hvalue : storedAt (truncated s cf last truncateIndex) cf index = some value) :
    storedAt s cf index = some value := by
  rw [storedAt_truncated] at hvalue
  split at hvalue
  · contradiction
  · exact hvalue

theorem one_le_iff_ne_zero {index : UInt64} : 1 ≤ index ↔ index ≠ 0 := by
  rw [UInt64.le_iff_toNat_le, ne_eq, ← UInt64.toNat_inj]
  exact Nat.one_le_iff_ne_zero

theorem lt_add_one_iff {index bound : UInt64} (hbound : bound.toNat + 1 < 2 ^ 64) :
    index < bound + 1 ↔ index ≤ bound := by
  have hnext : (bound + 1).toNat = bound.toNat + 1 := by
    rw [UInt64.toNat_add]
    exact Nat.mod_eq_of_lt hbound
  rw [UInt64.lt_iff_toNat_lt, UInt64.le_iff_toNat_le, hnext]
  exact Nat.lt_add_one_iff

theorem add_one_le_iff {index bound : UInt64} (hbound : bound.toNat + 1 < 2 ^ 64) :
    bound + 1 ≤ index ↔ bound < index := by
  rw [← UInt64.not_lt, lt_add_one_iff hbound, UInt64.not_le]

/-- Entry 0 and the entries from the cut on are kept. -/
theorem exists_storedAt_truncated {s : Storage} {cf : ColumnFamily} {last : UInt64}
    (hmax : ∀ index value, storedAt s cf index = some value → index ≤ last)
    (truncateIndex : UInt64) :
    (∃ index value, storedAt (truncated s cf last truncateIndex) cf index = some value) ↔
      ∃ index value, storedAt s cf index = some value ∧
        (index = 0 ∨ truncateIndex ≤ index) := by
  constructor
  · rintro ⟨index, value, hvalue⟩
    have hstored := storedAt_of_truncated hvalue
    refine ⟨index, value, hstored, ?_⟩
    rw [storedAt_truncated] at hvalue
    by_contra hgone
    rw [not_or, UInt64.not_le] at hgone
    rw [if_pos ⟨one_le_iff_ne_zero.mpr hgone.1, hmax index value hstored, hgone.2⟩] at hvalue
    contradiction
  · rintro ⟨index, value, hvalue, hkept⟩
    refine ⟨index, value, ?_⟩
    rw [storedAt_truncated, if_neg, hvalue]
    rintro ⟨hpos, -, hlt⟩
    rcases hkept with hzero | hge
    · exact one_le_iff_ne_zero.mp hpos hzero
    · exact absurd hlt (UInt64.not_lt.mpr hge)

theorem get_truncated_metadata (s : Storage) (cf : ColumnFamily)
    (last truncateIndex : UInt64) {key : Bytes} (hkey : key ∈ metadataKeys) :
    (truncated s cf last truncateIndex).get cf key = s.get cf key := by
  rw [get_truncated, if_neg]
  rintro ⟨-, index, -, heq⟩
  exact metadataKey_ne_formatLogKey hkey index heq

theorem cache_truncated (s : Storage) (cf : ColumnFamily) (last truncateIndex : UInt64) :
    (truncated s cf last truncateIndex).lastLogIndexCache =
      Function.update s.lastLogIndexCache cf none := by
  simp [truncated]

theorem LogKeysOnly.truncated {s : Storage} {cf : ColumnFamily} (hkeys : LogKeysOnly s cf)
    (last truncateIndex : UInt64) : LogKeysOnly (truncated s cf last truncateIndex) cf := by
  intro key value hget
  rw [get_truncated] at hget
  split at hget
  · contradiction
  · exact hkeys key value hget

end Seshat
