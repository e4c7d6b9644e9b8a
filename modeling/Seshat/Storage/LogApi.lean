/-
The log calls of the storage itself.  A log column family that only they touch holds a
contiguous interval of indices; the cache, filled, moved and dropped by different calls,
agrees with its last key throughout.
-/
import Seshat.Storage.Writes

namespace Seshat

open Decimal Footprint Keyed Utf8

/-- How a log call can fail: with an error, or in checked arithmetic. -/
inductive LogFailure where
  | panic
  | storage (error : StorageError)
deriving DecidableEq, Repr

abbrev LogM := EStateM LogFailure Storage

/-- A storage operation as part of a log call. -/
def inLog {α : Type} (op : StorageM α) : LogM α := op.adaptExcept .storage

@[simp]
theorem inLog_run {α : Type} (op : StorageM α) (s : Storage) :
    (inLog op).run s =
      match op.run s with
      | .ok a t => .ok a t
      | .error e t => .error (.storage e) t := by
  rw [inLog, EStateM.run_adaptExcept]
  cases op.run s <;> rfl

/-- The index that may be appended next.  `last + 1` is checked. -/
def validateIndex (cf : ColumnFamily) (index : UInt64) (lastIndex : Option UInt64) :
    Except LogFailure Unit :=
  match lastIndex with
  | none =>
      if index ≠ 1 then
        .error (.storage (.invalidLogIndex cf.asStr 1 index
          (ascii "First log entry must have index 1")))
      else .ok ()
  | some last =>
      if 2 ^ 64 ≤ last.toNat + 1 then .error .panic
      else if index ≠ last + 1 then
        .error (.storage (.invalidLogIndex cf.asStr (last + 1) index
          (if index > last + 1 then
            ascii "Gap in log (expected " ++ text (last + 1).toNat ++ ascii ", got " ++
              text index.toNat ++ ascii ")"
          else ascii "Duplicate index (last was " ++ text last.toNat ++ ascii ")")))
      else .ok ()

def appendLogEntry (cf : ColumnFamily) (index : UInt64) (entryBytes : Bytes) : LogM Unit := do
  if !cf.isLogCf then
    throw (.storage (.invalidColumnFamily cf.asStr
      (ascii "append_log_entry only works on log CFs (SystemRaftLog, DataRaftLog)")))
  let lastIndex ← inLog (getCachedLastLogIndex cf)
  MonadExcept.ofExcept (validateIndex cf index lastIndex)
  inLog (put cf (formatLogKey index) entryBytes)
  inLog (updateCachedLastLogIndex cf index)

/-- The loop of `get_log_range`: it ends at the first key that is no log key and at the
first index not below `stop`. -/
def collectRange (cf : ColumnFamily) (stop : UInt64) :
    List (Bytes × Bytes) → Except StorageError (List Bytes)
  | [] => .ok []
  | (key, value) :: pairs =>
      if key.length < 24 || !(ascii "log:").isPrefixOf key then .ok []
      else
        match fromUtf8 ((key.drop 4).take 20) with
        | none => .error (.corruptedData cf.asStr key (ascii "Invalid log key format"))
        | some indexStr =>
            match u64FromStr indexStr with
            | none => .error (.corruptedData cf.asStr key (ascii "Invalid log index"))
            | some index =>
                if index ≥ stop then .ok []
                else do
                  let entries ← collectRange cf stop pairs
                  return value :: entries

def getLogRange (cf : ColumnFamily) (start stop : UInt64) (s : Storage) :
    Except StorageError (List Bytes) :=
  if !cf.isLogCf then
    .error (.invalidColumnFamily cf.asStr
      (ascii "get_log_range only works on log CFs (SystemRaftLog, DataRaftLog)"))
  else collectRange cf stop (s.iteratorFrom cf (formatLogKey start))

/-- The log calls. -/
inductive LogCall where
  | appendLogEntry (index : UInt64) (entryBytes : Bytes)
  | truncateLogBefore (truncateIndex : UInt64)
  | getLastLogIndex
  | getLogRange (start stop : UInt64)

namespace LogCall

/-- The state a call on a column family leaves. -/
def step (s : Storage) : ColumnFamily × LogCall → Storage
  | (cf, appendLogEntry index entryBytes) =>
      leaves ((Seshat.appendLogEntry cf index entryBytes).run s)
  | (cf, truncateLogBefore truncateIndex) =>
      leaves ((Seshat.truncateLogBefore cf truncateIndex).run s)
  | (cf, getLastLogIndex) => leaves ((Seshat.getLastLogIndex cf).run s)
  | (_, getLogRange _ _) => s

/-- The indices a call appends at are below `u64::MAX`. -/
def Below : LogCall → Prop
  | appendLogEntry index _ => index.toNat + 1 < 2 ^ 64
  | _ => True

instance (call : LogCall) : Decidable call.Below :=
  match call with
  | appendLogEntry index _ => inferInstanceAs (Decidable (index.toNat + 1 < 2 ^ 64))
  | truncateLogBefore _ => inferInstanceAs (Decidable True)
  | getLastLogIndex => inferInstanceAs (Decidable True)
  | getLogRange _ _ => inferInstanceAs (Decidable True)

end LogCall

/-- What a log column family is made of: its map and its cached index. -/
def logPart (cf : ColumnFamily) (s : Storage) : Std.ExtTreeMap Bytes Bytes × Option UInt64 :=
  (s.db cf, s.lastLogIndexCache cf)

section Others

variable {cf cf' : ColumnFamily} (hne : cf' ≠ cf)

include hne

theorem avoids_setCache (index : Option UInt64) :
    Avoids (logPart cf') (modify fun s => s.setCache cf index : StorageM Unit) := by
  refine avoids_modify fun s => ?_
  simp [logPart, Storage.setCache, hne]

theorem avoids_getCachedLastLogIndex : Avoids (logPart cf') (getCachedLastLogIndex cf) := by
  rw [getCachedLastLogIndex]
  refine avoids_get.bind fun s => ?_
  split
  · exact avoids_pure _
  · refine (avoids_getLastLogIndexFromDb _ cf).bind fun index => ?_
    cases index with
    | none => exact avoids_pure _
    | some last => exact (avoids_setCache hne _).bind fun _ => avoids_pure _

theorem avoids_write (batch : WriteBatch) (hbatch : ∀ op ∈ batch, op.update.1.1 = cf) :
    Avoids (logPart cf') (modify fun s => s.write batch : StorageM Unit) := by
  refine avoids_modify fun s => ?_
  have hdb : (s.write batch).db cf' = s.db cf' := by
    refine Std.ExtTreeMap.ext_getElem? fun key => ?_
    exact Storage.get_write_of_ne (fun op hop => (hbatch op hop).trans_ne hne.symm) s key
  simp [logPart, hdb]

theorem avoids_truncateLogBefore (truncateIndex : UInt64) :
    Avoids (logPart cf') (truncateLogBefore cf truncateIndex) := by
  rw [truncateLogBefore]
  split
  · exact avoids_throw_bind _ _
  · refine (avoids_getCachedLastLogIndex hne).bind fun last => ?_
    cases last with
    | none => exact avoids_pure _
    | some last =>
        refine (avoids_write hne _ ?_).bind fun _ => avoids_setCache hne _
        intro op hop
        obtain ⟨index, -, rfl⟩ := List.mem_map.mp hop
        rfl

theorem avoids_appendLogEntry (index : UInt64) (entryBytes : Bytes) :
    Avoids (logPart cf') (appendLogEntry cf index entryBytes) := by
  rw [appendLogEntry]
  split
  · exact avoids_throw_bind _ _
  · refine ((avoids_getCachedLastLogIndex hne).adaptExcept _).bind fun last => ?_
    refine (avoids_ofExcept _).bind fun _ => ?_
    refine (Avoids.adaptExcept ?_ _).bind fun _ => (avoids_setCache hne _).adaptExcept _
    refine avoids_write hne [.put cf (formatLogKey index) entryBytes] fun op hop => ?_
    rw [List.mem_singleton.mp hop]
    rfl

/-- A call on one column family does not touch the others. -/
theorem logPart_step (s : Storage) (call : LogCall) :
    logPart cf' (LogCall.step s (cf, call)) = logPart cf' s := by
  cases call with
  | appendLogEntry index entryBytes => exact leaves_of_avoids (avoids_appendLogEntry hne _ _) s
  | truncateLogBefore truncateIndex => exact leaves_of_avoids (avoids_truncateLogBefore hne _) s
  | getLastLogIndex => exact leaves_of_avoids (avoids_getCachedLastLogIndex hne) s
  | getLogRange start stop => rfl

end Others

/-- An entry is stored at the index. -/
def Stored (s : Storage) (cf : ColumnFamily) (index : UInt64) : Prop :=
  ∃ value, storedAt s cf index = some value

/-- The stored indices form an interval. -/
def Contiguous (s : Storage) (cf : ColumnFamily) : Prop :=
  ∀ i j k, Stored s cf i → Stored s cf k → i ≤ j → j ≤ k → Stored s cf j

/-- The shape that the log calls give a column family. -/
structure LogShape (s : Storage) (cf : ColumnFamily) : Prop where
  keys : ∀ key value, s.get cf key = some value → ∃ index, key = formatLogKey index
  cache : CacheSound s cf
  contiguous : Contiguous s cf
  positive : storedAt s cf 0 = none
  below : ∀ index, Stored s cf index → index.toNat + 1 < 2 ^ 64

theorem logShape_of_empty {s : Storage} {cf : ColumnFamily}
    (hempty : ∀ key, s.get cf key = none) (hcache : s.lastLogIndexCache cf = none) :
    LogShape s cf where
  keys := by
    intro key value hget
    rw [hempty] at hget
    contradiction
  cache := cacheSound_of_miss hcache
  contiguous := by
    rintro i j k ⟨value, hvalue⟩
    rw [storedAt, hempty] at hvalue
    contradiction
  positive := hempty _
  below := by
    rintro index ⟨value, hvalue⟩
    rw [storedAt, hempty] at hvalue
    contradiction

namespace LogShape

variable {s t : Storage} {cf : ColumnFamily}

theorem logKeysOnly (h : LogShape s cf) : LogKeysOnly s cf :=
  fun key value hget => Or.inr (h.keys key value hget)

/-- The shape is one of the map and the cached index alone. -/
theorem congr (h : LogShape s cf) (hpart : logPart cf t = logPart cf s) : LogShape t cf := by
  obtain ⟨hdb, hcache⟩ := Prod.mk.inj hpart
  have hget : ∀ key, t.get cf key = s.get cf key := fun key => by
    rw [Storage.get, hdb, Storage.get]
  have hstored : storedAt t cf = storedAt s cf := funext fun index => hget _
  refine ⟨?_, ?_, ?_, ?_, ?_⟩
  · intro key value hvalue
    exact h.keys key value ((hget key).symm.trans hvalue)
  · intro last hlast
    rw [hcache] at hlast
    obtain ⟨hmem, hmax⟩ := h.cache last hlast
    exact ⟨by rw [hstored]; exact hmem, by rw [hstored]; exact hmax⟩
  · simp only [Contiguous, Stored, hstored]
    exact h.contiguous
  · rw [hstored]
    exact h.positive
  · simp only [Stored, hstored]
    exact h.below

/-- Remembering the last index, or that there is none, changes nothing else. -/
theorem setCache (h : LogShape s cf) {last : Option UInt64} (hlast : Highest s cf last) :
    LogShape (s.setCache cf last) cf where
  keys := h.keys
  cache := by
    intro index hindex
    rw [Storage.cache_setCache, Function.update_self] at hindex
    subst hindex
    exact ⟨hlast.stored, hlast.max⟩
  contiguous := h.contiguous
  positive := h.positive
  below := h.below

/-- The last index is known, from the cache or from the database. -/
theorem exists_last (hcf : cf.isLogCf = true) (h : LogShape s cf) :
    ∃ last, Highest s cf last ∧ (getLastLogIndexFromDb cf).run s = .ok last s ∧
      (getCachedLastLogIndex cf).run s = .ok last (s.setCache cf last) := by
  by_cases hstored : ∃ index value, storedAt s cf index = some value
  · obtain ⟨index, value, hvalue⟩ := hstored
    obtain ⟨last, hlast, -⟩ := lastKey_of_stored h.logKeysOnly hvalue
    exact ⟨some last, hlast, getLastLogIndexFromDb_run_isLast hcf h.logKeysOnly hlast,
      getCachedLastLogIndex_run_isLast hcf h.logKeysOnly h.cache hlast⟩
  · have hnone : ∀ index, storedAt s cf index = none := fun index =>
      Option.eq_none_iff_forall_ne_some.mpr fun value hvalue => hstored ⟨index, value, hvalue⟩
    have hempty : ∀ key, s.get cf key = none := fun key => by
      refine Option.eq_none_iff_forall_ne_some.mpr fun value hget => ?_
      obtain ⟨index, rfl⟩ := h.keys key value hget
      exact hstored ⟨index, value, hget⟩
    have hmiss : s.lastLogIndexCache cf = none := by
      refine Option.eq_none_iff_forall_ne_some.mpr fun index hindex => ?_
      exact not_isLast_of_none hnone (h.cache index hindex)
    have hdb := getLastLogIndexFromDb_run_empty hcf hempty
    refine ⟨none, hnone, hdb, ?_⟩
    rw [getCachedLastLogIndex_run_none hmiss hdb, Storage.setCache, ← hmiss,
      Function.update_eq_self]

end LogShape

/-- The index behind the last one, or 1 for an empty log. -/
def IsNext (s : Storage) (cf : ColumnFamily) (index : UInt64) : Prop :=
  (∃ last, IsLast s cf last ∧ index.toNat = last.toNat + 1) ∨
    (∀ i, storedAt s cf i = none) ∧ index = 1

theorem IsNext.setCache {s : Storage} {cf : ColumnFamily} {index : UInt64}
    (h : IsNext s cf index) (cached : Option UInt64) :
    IsNext (s.setCache cf cached) cf index := by
  rcases h with ⟨last, hlast, hindex⟩ | hempty
  · exact Or.inl ⟨last, ⟨hlast.stored, hlast.max⟩, hindex⟩
  · exact Or.inr hempty

/-- Exactly the next index passes the check. -/
theorem validateIndex_eq_ok_iff {s : Storage} {cf : ColumnFamily} (h : LogShape s cf)
    {last : Option UInt64} (hlast : Highest s cf last) (index : UInt64) :
    validateIndex cf index last = .ok () ↔ IsNext s cf index := by
  cases last with
  | none =>
      have hnext : IsNext s cf index ↔ index = 1 := by
        constructor
        · rintro (⟨last, hsome, -⟩ | ⟨-, hone⟩)
          · exact absurd hsome (not_isLast_of_none hlast)
          · exact hone
        · exact fun hone => Or.inr ⟨hlast, hone⟩
      rw [hnext, validateIndex]
      split <;> simp_all
  | some last =>
      have hbound := h.below last hlast.stored
      have hsucc : (last + 1).toNat = last.toNat + 1 := by
        rw [UInt64.toNat_add]
        exact Nat.mod_eq_of_lt hbound
      have hnext : IsNext s cf index ↔ index = last + 1 := by
        rw [← UInt64.toNat_inj, hsucc]
        constructor
        · rintro (⟨last', hlast', hindex⟩ | ⟨hnone, -⟩)
          · rw [IsLast.unique hlast hlast', hindex]
          · exact absurd hlast (not_isLast_of_none hnone)
        · exact fun hindex => Or.inl ⟨last, hlast, hindex⟩
      rw [hnext, validateIndex, if_neg (Nat.not_le.mpr hbound)]
      split <;> simp_all

/-- The check never overflows, and says why it fails. -/
theorem validateIndex_error {s : Storage} {cf : ColumnFamily} (h : LogShape s cf)
    {last : Option UInt64} (hlast : Highest s cf last) {index : UInt64} {e : LogFailure}
    (hvalid : validateIndex cf index last = .error e) :
    ∃ expected reason, e = .storage (.invalidLogIndex cf.asStr expected index reason) := by
  cases last with
  | none =>
      rw [validateIndex] at hvalid
      split at hvalid
      · cases hvalid
        exact ⟨_, _, rfl⟩
      · contradiction
  | some last =>
      rw [validateIndex, if_neg (Nat.not_le.mpr (h.below last hlast.stored))] at hvalid
      split at hvalid
      · cases hvalid
        exact ⟨_, _, rfl⟩
      · contradiction

/-- The store after an entry was accepted. -/
def withEntry (s : Storage) (cf : ColumnFamily) (index : UInt64) (entryBytes : Bytes) : Storage :=
  (s.apply (.put cf (formatLogKey index) entryBytes)).setCache cf (some index)

theorem storedAt_withEntry (s : Storage) (cf : ColumnFamily) (index : UInt64)
    (entryBytes : Bytes) (i : UInt64) :
    storedAt (withEntry s cf index entryBytes) cf i =
      if i = index then some entryBytes else storedAt s cf i := by
  simp [storedAt, withEntry, formatLogKey_inj]

theorem appendLogEntry_run_ok {s t : Storage} {cf : ColumnFamily} (hcf : cf.isLogCf = true)
    {last : Option UInt64} (hcached : (getCachedLastLogIndex cf).run s = .ok last t)
    {index : UInt64} (hvalid : validateIndex cf index last = .ok ()) (entryBytes : Bytes) :
    (appendLogEntry cf index entryBytes).run s = .ok () (withEntry t cf index entryBytes) := by
  simp only [appendLogEntry, hcf, Bool.not_true, Bool.false_eq_true, ↓reduceIte,
    EStateM.run_bind, inLog_run, hcached, hvalid]
  rfl

theorem appendLogEntry_run_rejected {s t : Storage} {cf : ColumnFamily}
    (hcf : cf.isLogCf = true) {last : Option UInt64}
    (hcached : (getCachedLastLogIndex cf).run s = .ok last t) {index : UInt64} {e : LogFailure}
    (hvalid : validateIndex cf index last = .error e) (entryBytes : Bytes) :
    (appendLogEntry cf index entryBytes).run s = .error e t := by
  simp only [appendLogEntry, hcf, Bool.not_true, Bool.false_eq_true, ↓reduceIte,
    EStateM.run_bind, inLog_run, hcached, hvalid]
  rfl

namespace LogShape

variable {s : Storage} {cf : ColumnFamily}

/-- What an append does: the next index is stored, any other refused. -/
theorem append_cases (hcf : cf.isLogCf = true) (h : LogShape s cf) (index : UInt64)
    (entryBytes : Bytes) :
    ∃ last, Highest s cf last ∧
      (IsNext s cf index ∧ (appendLogEntry cf index entryBytes).run s =
          .ok () (withEntry (s.setCache cf last) cf index entryBytes) ∨
        ¬ IsNext s cf index ∧ ∃ expected reason,
          (appendLogEntry cf index entryBytes).run s =
            .error (.storage (.invalidLogIndex cf.asStr expected index reason))
              (s.setCache cf last)) := by
  obtain ⟨last, hlast, -, hcached⟩ := h.exists_last hcf
  refine ⟨last, hlast, ?_⟩
  cases hvalid : validateIndex cf index last with
  | ok u =>
      exact Or.inl ⟨(validateIndex_eq_ok_iff h hlast index).mp hvalid,
        appendLogEntry_run_ok hcf hcached hvalid entryBytes⟩
  | error e =>
      obtain ⟨expected, reason, rfl⟩ := validateIndex_error h hlast hvalid
      refine Or.inr ⟨fun hnext => ?_, expected, reason,
        appendLogEntry_run_rejected hcf hcached hvalid entryBytes⟩
      rw [(validateIndex_eq_ok_iff h hlast index).mpr hnext] at hvalid
      contradiction

/-- The next index lies above every stored one. -/
theorem not_le_of_isNext {index : UInt64} (hnext : IsNext s cf index) {i : UInt64}
    (hi : Stored s cf i) : ¬ index ≤ i := by
  obtain ⟨value, hvalue⟩ := hi
  rw [UInt64.le_iff_toNat_le]
  rcases hnext with ⟨last, hlast, hindex⟩ | ⟨hnone, -⟩
  · have hle := UInt64.le_iff_toNat_le.mp (hlast.max i value hvalue)
    omega
  · rw [hnone] at hvalue
    contradiction

theorem stored_withEntry_iff {index : UInt64} (entryBytes : Bytes) (i : UInt64) :
    Stored (Seshat.withEntry s cf index entryBytes) cf i ↔ i = index ∨ Stored s cf i := by
  rw [Stored, storedAt_withEntry]
  split
  · next heq => simp [heq]
  · next hne => simp [hne, Stored]

/-- From a stored index up to the next one there is no gap. -/
theorem stored_below_next (h : LogShape s cf) {index : UInt64} (hnext : IsNext s cf index)
    {i j : UInt64} (hi : Stored s cf i) (hij : i ≤ j) (hj : j ≤ index) :
    j = index ∨ Stored s cf j := by
  rcases hnext with ⟨last, hlast, hnumber⟩ | ⟨hnone, -⟩
  · by_cases heq : j = index
    · exact Or.inl heq
    · refine Or.inr (h.contiguous i j last hi hlast.stored hij ?_)
      rw [← UInt64.toNat_inj] at heq
      rw [UInt64.le_iff_toNat_le] at hj ⊢
      omega
  · obtain ⟨value, hvalue⟩ := hi
    rw [hnone] at hvalue
    contradiction

theorem contiguous_withEntry (h : LogShape s cf) {index : UInt64} (hnext : IsNext s cf index)
    (entryBytes : Bytes) : Contiguous (Seshat.withEntry s cf index entryBytes) cf := by
  intro i j k hi hk hij hjk
  rw [stored_withEntry_iff] at hi hk ⊢
  rcases hi with rfl | hi
  · rcases hk with rfl | hk
    · exact Or.inl (UInt64.le_antisymm hjk hij)
    · exact absurd (UInt64.le_trans hij hjk) (not_le_of_isNext hnext hk)
  · rcases hk with rfl | hk
    · exact h.stored_below_next hnext hi hij hjk
    · exact Or.inr (h.contiguous i j k hi hk hij hjk)

theorem withEntry (h : LogShape s cf) {index : UInt64} (hnext : IsNext s cf index)
    (hindex : index.toNat + 1 < 2 ^ 64) (entryBytes : Bytes) :
    LogShape (Seshat.withEntry s cf index entryBytes) cf := by
  refine ⟨?_, ?_, h.contiguous_withEntry hnext entryBytes, ?_, ?_⟩
  · intro key value hget
    simp only [Seshat.withEntry, Storage.get_setCache, Storage.get_apply_put, true_and] at hget
    split at hget
    · next heq => exact ⟨index, heq⟩
    · exact h.keys key value hget
  · intro last hlast
    simp only [Seshat.withEntry, Storage.cache_setCache, Function.update_self,
      Option.some.injEq] at hlast
    subst hlast
    refine ⟨(stored_withEntry_iff entryBytes index).mpr (Or.inl rfl), fun i value hvalue => ?_⟩
    rcases (stored_withEntry_iff entryBytes i).mp ⟨value, hvalue⟩ with rfl | hi
    · exact UInt64.le_refl _
    · exact UInt64.le_of_lt (UInt64.not_le.mp (not_le_of_isNext hnext hi))
  · rw [storedAt_withEntry, if_neg, h.positive]
    rintro rfl
    rcases hnext with ⟨last, -, hzero⟩ | ⟨-, hone⟩
    · rw [UInt64.toNat_zero] at hzero
      omega
    · contradiction
  · intro i hi
    rcases (stored_withEntry_iff entryBytes i).mp hi with rfl | hi
    · exact hindex
    · exact h.below i hi

/-- A log of which a beginning was cut off. -/
theorem of_cut {t : Storage} (h : LogShape s cf) {truncateIndex : UInt64}
    (hkeys : ∀ key value, t.get cf key = some value → s.get cf key = some value)
    (hcache : t.lastLogIndexCache cf = none)
    (hcut : ∀ i, storedAt t cf i = if i < truncateIndex then none else storedAt s cf i) :
    LogShape t cf := by
  have hstored : ∀ i, Stored t cf i ↔ truncateIndex ≤ i ∧ Stored s cf i := by
    intro i
    rw [Stored, hcut, ← UInt64.not_lt]
    split
    · next hlt => simp [hlt]
    · next hge => simp [hge, Stored]
  refine ⟨fun key value hget => h.keys key value (hkeys key value hget),
    cacheSound_of_miss hcache, ?_, ?_, fun i hi => h.below i ((hstored i).mp hi).2⟩
  · intro i j k hi hk hij hjk
    rw [hstored] at hi hk ⊢
    exact ⟨UInt64.le_trans hi.1 hij, h.contiguous i j k hi.2 hk.2 hij hjk⟩
  · rw [hcut, h.positive, ite_self]

/-- A truncation removes exactly what lies before its index. -/
theorem truncate_run (hcf : cf.isLogCf = true) (h : LogShape s cf) (truncateIndex : UInt64) :
    ∃ t, (truncateLogBefore cf truncateIndex).run s = .ok () t ∧ LogShape t cf ∧
      ∀ i, storedAt t cf i = if i < truncateIndex then none else storedAt s cf i := by
  obtain ⟨last, hlast, -, hcached⟩ := h.exists_last hcf
  cases last with
  | none =>
      refine ⟨_, truncateLogBefore_run_none hcf hcached truncateIndex, h.setCache hlast, ?_⟩
      intro i
      have hnone : storedAt (s.setCache cf none) cf i = none := hlast i
      rw [hnone, hlast i, ite_self]
  | some last =>
      have hcut : ∀ i, storedAt (truncated (s.setCache cf (some last)) cf last truncateIndex) cf i =
          if i < truncateIndex then none else storedAt s cf i := by
        intro i
        rw [storedAt_truncated]
        by_cases hlt : i < truncateIndex
        · rw [if_pos hlt]
          split
          · rfl
          · next hkept =>
              -- an index that is not deleted is 0 or above the last one
              refine Option.eq_none_iff_forall_ne_some.mpr fun value hvalue => hkept ?_
              refine ⟨one_le_iff_ne_zero.mpr ?_, hlast.max i value hvalue, hlt⟩
              rintro rfl
              exact absurd (h.positive.symm.trans hvalue) (by simp)
        · rw [if_neg hlt, if_neg fun hgone => hlt hgone.2.2]
          rfl
      refine ⟨_, truncateLogBefore_run_some hcf hcached truncateIndex, ?_, hcut⟩
      refine h.of_cut (fun key value hget => ?_) (by simp [cache_truncated]) hcut
      rw [get_truncated] at hget
      split at hget
      · contradiction
      · exact hget

/-- Every call keeps the shape, as long as it appends below the end of `u64`. -/
theorem step (hcf : cf.isLogCf = true) (h : LogShape s cf) (cf' : ColumnFamily) {call : LogCall}
    (hbelow : cf' = cf → call.Below) : LogShape (LogCall.step s (cf', call)) cf := by
  by_cases heq : cf' = cf
  · subst heq
    cases call with
    | appendLogEntry index entryBytes =>
        obtain ⟨last, hlast, ⟨hnext, hrun⟩ | ⟨-, expected, reason, hrun⟩⟩ :=
          h.append_cases hcf index entryBytes
        · rw [LogCall.step, hrun]
          exact (h.setCache hlast).withEntry (hnext.setCache last) (hbelow rfl) entryBytes
        · rw [LogCall.step, hrun]
          exact h.setCache hlast
    | truncateLogBefore truncateIndex =>
        obtain ⟨t, hrun, hshape, -⟩ := h.truncate_run hcf truncateIndex
        rw [LogCall.step, hrun]
        exact hshape
    | getLastLogIndex =>
        obtain ⟨last, hlast, -, hcached⟩ := h.exists_last hcf
        rw [LogCall.step, getLastLogIndex, hcached]
        exact h.setCache hlast
    | getLogRange start stop => exact h
  · exact h.congr (logPart_step (Ne.symm heq) s call)

theorem run (hcf : cf.isLogCf = true) (h : LogShape s cf) {calls : List (ColumnFamily × LogCall)}
    (hbelow : ∀ call ∈ calls, call.1 = cf → call.2.Below) :
    LogShape (calls.foldl LogCall.step s) cf := by
  induction calls generalizing s with
  | nil => exact h
  | cons call calls ih =>
      exact ih (h.step hcf call.1 (hbelow call List.mem_cons_self))
        fun c hc => hbelow c (List.mem_cons_of_mem call hc)

end LogShape

/-- A log key is read from its bytes behind the fourth. -/
theorem collectRange_cons (cf : ColumnFamily) (stop index : UInt64) (value : Bytes)
    (pairs : List (Bytes × Bytes)) :
    collectRange cf stop ((formatLogKey index, value) :: pairs) =
      if index ≥ stop then .ok [] else (collectRange cf stop pairs).map (value :: ·) := by
  have hdigits : ((formatLogKey index).drop 4).take 20 = (formatLogKey index).drop 4 := by
    refine List.take_of_length_le ?_
    rw [List.length_drop, length_formatLogKey]
  have hutf8 : fromUtf8 ((formatLogKey index).drop 4) = some ((formatLogKey index).drop 4) :=
    fromUtf8_of_ascii fun b hb => formatLogKey_ascii index b (List.mem_of_mem_drop hb)
  rw [collectRange]
  simp only [length_formatLogKey, formatLogKey_begins, hdigits, hutf8, u64FromStr_keyDigits]
  rfl

/-- Over log keys the loop takes the entries below its end. -/
theorem collectRange_eq (cf : ColumnFamily) (stop : UInt64) {pairs : List (Bytes × Bytes)}
    (hpairs : ∀ pair ∈ pairs, ∃ index, pair.1 = formatLogKey index) :
    collectRange cf stop pairs =
      .ok (((pairs.filterMap logPair).takeWhile fun pair => pair.1 < stop).map Prod.snd) := by
  induction pairs with
  | nil => rfl
  | cons pair pairs ih =>
      obtain ⟨key, value⟩ := pair
      obtain ⟨index, rfl⟩ : ∃ index, key = formatLogKey index := hpairs _ List.mem_cons_self
      have hrest := ih fun pair hmem => hpairs pair (List.mem_cons_of_mem _ hmem)
      have hpair : logPair (formatLogKey index, value) = some (index, value) := by
        simp [logPair]
      rw [collectRange_cons, hrest, List.filterMap_cons_some hpair]
      by_cases hstop : index < stop
      · have hnot : ¬ index ≥ stop := UInt64.not_le.mpr hstop
        simp [hstop, hnot, Except.map]
      · have hge : index ≥ stop := UInt64.not_lt.mp hstop
        simp [hstop, hge]

/-- Log keys carry the order of the indices, have one length, are read back by every
reader of keys, and sort behind the metadata. -/
theorem formatLogKey_embeds (a b : UInt64) :
    (a < b ↔ formatLogKey a < formatLogKey b) ∧
      (formatLogKey a).length = 24 ∧
      parseLogKey (formatLogKey a) = some a ∧
      (∀ (s : Storage) (cf : ColumnFamily), cf.isLogCf = true →
        s.lastKey cf = some (formatLogKey a) →
        (getLastLogIndexFromDb cf).run s = .ok (some a) s) ∧
      (∀ (cf : ColumnFamily) (stop : UInt64) (value : Bytes) (pairs : List (Bytes × Bytes)),
        collectRange cf stop ((formatLogKey a, value) :: pairs) =
          if a ≥ stop then .ok [] else (collectRange cf stop pairs).map (value :: ·)) ∧
      lastLogIdKey < formatLogKey a ∧ lastPurgedLogIdKey < formatLogKey a := by
  refine ⟨?_, length_formatLogKey a, parseLogKey_formatLogKey a, ?_, ?_, ?_, ?_⟩
  · rw [← Bytes.compare_eq_lt, compare_formatLogKey_eq_lt]
  · intro s cf hcf hlast
    exact getLastLogIndexFromDb_run_lastKey hcf hlast
  · intro cf stop value pairs
    exact collectRange_cons cf stop a value pairs
  · exact Bytes.compare_eq_lt.mp (compare_metadataKey lastLogIdKey_mem a)
  · exact Bytes.compare_eq_lt.mp (compare_metadataKey lastPurgedLogIdKey_mem a)

/-- A range read returns the stored values of its indices, in index order. -/
theorem LogShape.getLogRange {s : Storage} {cf : ColumnFamily} (hcf : cf.isLogCf = true)
    (h : LogShape s cf) (start stop : UInt64) :
    ∃ pairs, Seshat.getLogRange cf start stop s = .ok (pairs.map Prod.snd) ∧
      Increasing (fun pair : UInt64 × Bytes => pair.1.toNat) pairs ∧
      ∀ index value, (index, value) ∈ pairs ↔
        start ≤ index ∧ index < stop ∧ storedAt s cf index = some value := by
  have hincreasing := logPairs_increasing h.logKeysOnly (formatLogKey start)
  have hcut : ((s.iteratorFrom cf (formatLogKey start)).filterMap logPair).Pairwise
      fun a b => decide (b.1 < stop) = true → decide (a.1 < stop) = true := by
    refine hincreasing.imp ?_
    intro a b hab hb
    rw [decide_eq_true_eq, UInt64.lt_iff_toNat_lt] at hb ⊢
    exact lt_trans hab hb
  refine ⟨_, ?_, hincreasing.filter fun pair => pair.1 < stop, ?_⟩
  · have hkeys : ∀ pair ∈ s.iteratorFrom cf (formatLogKey start),
        ∃ index, pair.1 = formatLogKey index :=
      fun pair hmem => h.keys pair.1 pair.2 (mem_iteratorFrom.mp hmem).2
    rw [Seshat.getLogRange, hcf, collectRange_eq cf stop hkeys, takeWhile_eq_filter hcut]
    rfl
  · intro index value
    rw [List.mem_filter, mem_logPairs h.logKeysOnly, decide_eq_true_eq]
    tauto

/-- What the log calls promise in a state. -/
structure LogContract (s : Storage) (cf : ColumnFamily) : Prop where
  contiguous : Contiguous s cf
  last : ∃ last, Highest s cf last ∧ returned ((getLastLogIndex cf).run s) = .ok last ∧
    returned ((getLastLogIndexFromDb cf).run s) = .ok last
  lastKeeps : ∀ cf' key, (leaves ((getLastLogIndex cf).run s)).get cf' key = s.get cf' key
  accepts : ∀ index entryBytes,
    returned ((appendLogEntry cf index entryBytes).run s) = .ok () ↔ IsNext s cf index
  appended : ∀ index entryBytes, IsNext s cf index →
    storedAt s cf index = none ∧
      ∀ i, storedAt (leaves ((appendLogEntry cf index entryBytes).run s)) cf i =
        if i = index then some entryBytes else storedAt s cf i
  rejected : ∀ index entryBytes, ¬ IsNext s cf index → ∀ cf' key,
    (leaves ((appendLogEntry cf index entryBytes).run s)).get cf' key = s.get cf' key
  truncated : ∀ truncateIndex,
    returned ((truncateLogBefore cf truncateIndex).run s) = .ok () ∧
      ∀ i, storedAt (leaves ((truncateLogBefore cf truncateIndex).run s)) cf i =
        if i < truncateIndex then none else storedAt s cf i
  range : ∀ start stop, ∃ pairs, getLogRange cf start stop s = .ok (pairs.map Prod.snd) ∧
    Increasing (fun pair : UInt64 × Bytes => pair.1.toNat) pairs ∧
    ∀ index value, (index, value) ∈ pairs ↔
      start ≤ index ∧ index < stop ∧ storedAt s cf index = some value
  others : ∀ call cf', cf' ≠ cf → logPart cf' (LogCall.step s (cf, call)) = logPart cf' s

theorem LogShape.contract {s : Storage} {cf : ColumnFamily} (hcf : cf.isLogCf = true)
    (h : LogShape s cf) : LogContract s cf where
  contiguous := h.contiguous
  last := by
    obtain ⟨last, hlast, hdb, hcached⟩ := h.exists_last hcf
    refine ⟨last, hlast, ?_, ?_⟩
    · rw [getLastLogIndex, hcached]
      rfl
    · rw [hdb]
      rfl
  lastKeeps := by
    obtain ⟨last, -, -, hcached⟩ := h.exists_last hcf
    intro cf' key
    rw [getLastLogIndex, hcached]
    rfl
  accepts := by
    intro index entryBytes
    obtain ⟨last, -, ⟨hnext, hrun⟩ | ⟨hnot, expected, reason, hrun⟩⟩ :=
      h.append_cases hcf index entryBytes
    · rw [hrun]
      exact iff_of_true rfl hnext
    · rw [hrun]
      exact iff_of_false (by simp [returned]) hnot
  appended := by
    intro index entryBytes hnext
    constructor
    · refine Option.eq_none_iff_forall_ne_some.mpr fun value hvalue => ?_
      exact LogShape.not_le_of_isNext hnext ⟨value, hvalue⟩ (UInt64.le_refl _)
    · intro i
      obtain ⟨last, -, ⟨-, hrun⟩ | ⟨hnot, -⟩⟩ := h.append_cases hcf index entryBytes
      · rw [hrun]
        exact storedAt_withEntry _ cf index entryBytes i
      · exact absurd hnext hnot
  rejected := by
    intro index entryBytes hnot cf' key
    obtain ⟨last, -, ⟨hnext, -⟩ | ⟨-, expected, reason, hrun⟩⟩ :=
      h.append_cases hcf index entryBytes
    · exact absurd hnext hnot
    · rw [hrun]
      rfl
  truncated := by
    intro truncateIndex
    obtain ⟨t, hrun, -, hcut⟩ := h.truncate_run hcf truncateIndex
    rw [hrun]
    exact ⟨rfl, hcut⟩
  range := h.getLogRange hcf
  others := fun call cf' hne => logPart_step hne s call

/-- A log column family that starts empty keeps the contract through every sequence of
log calls, on it and on the other column families. -/
theorem logContract_run {cf : ColumnFamily} (hcf : cf.isLogCf = true) {s : Storage}
    (hempty : ∀ key, s.get cf key = none) (hcache : s.lastLogIndexCache cf = none)
    (calls : List (ColumnFamily × LogCall))
    (hbelow : ∀ call ∈ calls, call.1 = cf → call.2.Below) :
    LogContract (calls.foldl LogCall.step s) cf :=
  ((logShape_of_empty hempty hcache).run hcf hbelow).contract hcf

namespace Witness

/-- Entries 1 to 3, the first of them cut off, and a gap on the other log. -/
def logCalls : List (ColumnFamily × LogCall) :=
  [(.dataRaftLog, .appendLogEntry 1 [1]), (.dataRaftLog, .appendLogEntry 2 [2]),
    (.systemRaftLog, .appendLogEntry 7 [7]), (.dataRaftLog, .appendLogEntry 3 [3]),
    (.dataRaftLog, .truncateLogBefore 2), (.dataRaftLog, .getLogRange 1 9)]

theorem logCalls_contract : LogContract (logCalls.foldl LogCall.step .new) .dataRaftLog :=
  logContract_run rfl (Storage.get_new _) rfl logCalls (by decide)

end Witness

end Seshat
