/-
Reopening a database.  The written data stays, the cache of the last log indices
is read anew from the last key of each log column family.  That key has to be a
log key: a column family that holds metadata but no entry cannot be opened.
-/
import Seshat.Storage.Effects

namespace Seshat

open Decimal Keyed Utf8

/-- A log column family with an entry, or without any key. -/
def Openable (s : Storage) (cf : ColumnFamily) : Prop :=
  (∃ index value, storedAt s cf index = some value) ∨ ∀ key, s.get cf key = none

theorem storedAt_eq_none_or (s : Storage) (cf : ColumnFamily) :
    (∀ index, storedAt s cf index = none) ∨
      ∃ index value, storedAt s cf index = some value := by
  by_cases hstored : ∃ index value, storedAt s cf index = some value
  · exact Or.inr hstored
  · exact Or.inl fun index => Option.eq_none_iff_forall_ne_some.mpr fun value hvalue =>
      hstored ⟨index, value, hvalue⟩

/-- The last key of an openable column family gives the highest index. -/
theorem getLastLogIndexFromDb_run_openable {s : Storage} {cf : ColumnFamily}
    (hcf : cf.isLogCf = true) (hkeys : LogKeysOnly s cf) (hopen : Openable s cf) :
    ∃ last, Highest s cf last ∧ (getLastLogIndexFromDb cf).run s = .ok last s := by
  rcases hopen with ⟨index, value, hvalue⟩ | hempty
  · obtain ⟨last, hlast, -⟩ := lastKey_of_stored hkeys hvalue
    exact ⟨some last, hlast, getLastLogIndexFromDb_run_isLast hcf hkeys hlast⟩
  · exact ⟨none, fun index => hempty _, getLastLogIndexFromDb_run_empty hcf hempty⟩

theorem openable_of_run_ok {s t : Storage} {cf : ColumnFamily} (hcf : cf.isLogCf = true)
    (hkeys : LogKeysOnly s cf) {last : Option UInt64}
    (hrun : (getLastLogIndexFromDb cf).run s = .ok last t) : Openable s cf := by
  rcases storedAt_eq_none_or s cf with hnone | hstored
  · refine Or.inr fun key => Option.eq_none_iff_forall_ne_some.mpr fun value hget => ?_
    obtain ⟨found, -, herror⟩ := getLastLogIndexFromDb_run_metadata hcf hkeys hnone hget
    rw [herror] at hrun
    contradiction
  · exact Or.inl hstored

@[simp]
theorem throw_run {α : Type} (e : StorageError) (s : Storage) :
    (throw e : StorageM α).run s = .error e s := rfl

/-- Reading the last index looks at the last key alone and changes nothing. -/
theorem getLastLogIndexFromDb_run_cases {s t : Storage} (cf : ColumnFamily)
    (hlast : t.lastKey cf = s.lastKey cf) :
    (∃ last, (getLastLogIndexFromDb cf).run s = .ok last s ∧
        (getLastLogIndexFromDb cf).run t = .ok last t) ∨
      ∃ e, (getLastLogIndexFromDb cf).run s = .error e s ∧
        (getLastLogIndexFromDb cf).run t = .error e t := by
  by_cases hcf : cf.isLogCf = true
  · cases hkey : s.lastKey cf with
    | none => exact Or.inl ⟨none, by simp [getLastLogIndexFromDb, hcf, hkey, hlast]⟩
    | some key =>
        cases hutf8 : fromUtf8 key with
        | none =>
            exact Or.inr ⟨.corruptedData cf.asStr key (ascii "Key is not valid UTF-8"), by
              simp [getLastLogIndexFromDb, hcf, hkey, hlast, hutf8]⟩
        | some keyStr =>
            by_cases hlog : (ascii "log:").isPrefixOf keyStr = true
            · cases hindex : u64FromStr (keyStr.drop 4) with
              | none =>
                  exact Or.inr ⟨.corruptedData cf.asStr key
                    (ascii "Cannot parse log index from: " ++ keyStr.drop 4), by
                    simp [getLastLogIndexFromDb, hcf, hkey, hlast, hutf8, hlog, hindex]⟩
              | some index =>
                  exact Or.inl ⟨some index, by
                    simp [getLastLogIndexFromDb, hcf, hkey, hlast, hutf8, hlog, hindex]⟩
            · exact Or.inr ⟨.corruptedData cf.asStr key
                (ascii "Key does not start with 'log:': " ++ keyStr), by
                simp [getLastLogIndexFromDb, hcf, hkey, hlast, hutf8, hlog]⟩
  · exact Or.inr ⟨.invalidColumnFamily cf.asStr
      (ascii "get_last_log_index_from_db only works on log CFs"), by
      simp [getLastLogIndexFromDb, hcf]⟩

/-- The store with a last index that was read, if any, put into its cache. -/
def warmed (s : Storage) (cf : ColumnFamily) (last : Option UInt64) : Storage :=
  match last with
  | some index => s.setCache cf (some index)
  | none => s

@[simp]
theorem db_warmed (s : Storage) (cf : ColumnFamily) (last : Option UInt64) :
    (warmed s cf last).db = s.db := by
  cases last <;> rfl

theorem cache_warmed (s : Storage) (cf : ColumnFamily) (hmiss : s.lastLogIndexCache cf = none)
    (last : Option UInt64) :
    (warmed s cf last).lastLogIndexCache = Function.update s.lastLogIndexCache cf last := by
  cases last with
  | none =>
      rw [warmed]
      exact (Function.update_eq_self_iff.mpr hmiss.symm).symm
  | some index => rfl

/-- One turn of the loop that builds the cache. -/
def warmUpCf (cf : ColumnFamily) : StorageM Unit := do
  if let some lastIndex ← getLastLogIndexFromDb cf then
    updateCachedLastLogIndex cf lastIndex

theorem warmUpIndexCache_eq :
    warmUpIndexCache = (warmUpCf .systemRaftLog >>= fun _ => warmUpCf .dataRaftLog) := by
  simp only [warmUpIndexCache, warmUpCf, List.forIn_cons, List.forIn_nil, bind_assoc]
  refine bind_congr fun system => ?_
  cases system with
  | none =>
      simp only [bind_assoc, pure_bind]
      refine bind_congr fun data => ?_
      cases data <;> simp
  | some lastIndex =>
      simp only [bind_assoc, pure_bind]
      refine bind_congr fun _ => bind_congr fun data => ?_
      cases data <;> simp

theorem warmUpCf_run {s : Storage} {cf : ColumnFamily} {last : Option UInt64}
    (hread : (getLastLogIndexFromDb cf).run s = .ok last s) :
    (warmUpCf cf).run s = .ok () (warmed s cf last) := by
  rw [warmUpCf, EStateM.run_bind, hread]
  cases last <;> rfl

theorem warmUpCf_run_error {s : Storage} {cf : ColumnFamily} {e : StorageError}
    (hread : (getLastLogIndexFromDb cf).run s = .error e s) :
    (warmUpCf cf).run s = .error e s := by
  rw [warmUpCf, EStateM.run_bind, hread]

/-- A store reopens exactly if the last index of each log column family can be
read, and then the cache holds these indices. -/
theorem reopen_cases (s : Storage) :
    (∃ t, s.reopen = .ok t ∧ t.db = s.db ∧ ∀ g : RaftGroup,
        (getLastLogIndexFromDb g.logCf).run s = .ok (t.lastLogIndexCache g.logCf) s) ∨
      (∃ e, s.reopen = .error e) ∧
        ∃ (g : RaftGroup) (e : _), (getLastLogIndexFromDb g.logCf).run s = .error e s := by
  obtain ⟨cold, hcold⟩ : ∃ cold : Storage, cold = { s with lastLogIndexCache := fun _ => none } :=
    ⟨_, rfl⟩
  have hdb : cold.db = s.db := by rw [hcold]
  have hok : ∀ t, warmUpIndexCache.run cold = .ok () t → s.reopen = .ok t := by
    intro t hrun
    rw [Storage.reopen, ← hcold, hrun]
  have herror : ∀ e t, warmUpIndexCache.run cold = .error e t → s.reopen = .error e := by
    intro e t hrun
    rw [Storage.reopen, ← hcold, hrun]
  rcases getLastLogIndexFromDb_run_cases (s := s) (t := cold) .systemRaftLog
      (by rw [Storage.lastKey, hdb, Storage.lastKey]) with
    ⟨system, hsystem, hsystem'⟩ | ⟨e, hsystem, hsystem'⟩
  · rcases getLastLogIndexFromDb_run_cases (s := s)
        (t := warmed cold .systemRaftLog system) .dataRaftLog
        (by rw [Storage.lastKey, db_warmed, hdb, Storage.lastKey]) with
      ⟨data, hdata, hdata'⟩ | ⟨e, hdata, hdata'⟩
    · have hrun : warmUpIndexCache.run cold =
          .ok () (warmed (warmed cold .systemRaftLog system) .dataRaftLog data) := by
        rw [warmUpIndexCache_eq, EStateM.run_bind, warmUpCf_run hsystem']
        exact warmUpCf_run hdata'
      refine Or.inl ⟨_, hok _ hrun, ?_, ?_⟩
      · rw [db_warmed, db_warmed, hdb]
      · have hcache : (warmed (warmed cold .systemRaftLog system) .dataRaftLog
            data).lastLogIndexCache = Function.update (Function.update (fun _ => none)
              .systemRaftLog system) .dataRaftLog data := by
          rw [cache_warmed, cache_warmed, hcold]
          · rw [hcold]
          · rw [cache_warmed _ _ (by rw [hcold]), hcold]
            rfl
        intro g
        rw [hcache]
        cases g with
        | systemRaft => exact hsystem
        | dataRaft => exact hdata
    · refine Or.inr ⟨⟨e, herror e (warmed cold .systemRaftLog system) ?_⟩, .dataRaft, e, hdata⟩
      rw [warmUpIndexCache_eq, EStateM.run_bind, warmUpCf_run hsystem']
      exact warmUpCf_run_error hdata'
  · refine Or.inr ⟨⟨e, herror e cold ?_⟩, .systemRaft, e, hsystem⟩
    rw [warmUpIndexCache_eq, EStateM.run_bind, warmUpCf_run_error hsystem']

theorem db_of_reopen {s t : Storage} (hopen : s.reopen = .ok t) : t.db = s.db := by
  rcases reopen_cases s with ⟨u, hu, hdb, -⟩ | ⟨⟨e, he⟩, -⟩
  · rw [hu] at hopen
    cases hopen
    exact hdb
  · rw [he] at hopen
    contradiction

/-- Whether a store reopens depends on its log column families alone. -/
theorem exists_reopen_congr {s t : Storage}
    (hlog : ∀ g : RaftGroup, t.db g.logCf = s.db g.logCf) (hopen : ∃ u, s.reopen = .ok u) :
    ∃ u, t.reopen = .ok u := by
  obtain ⟨u, hu⟩ := hopen
  rcases reopen_cases t with ⟨v, hv, -⟩ | ⟨-, g, e, ht⟩
  · exact ⟨v, hv⟩
  · have hread : ∃ last, (getLastLogIndexFromDb g.logCf).run s = .ok last s := by
      rcases reopen_cases s with ⟨v, -, -, hread⟩ | ⟨⟨e, he⟩, -⟩
      · exact ⟨_, hread g⟩
      · rw [he] at hu
        contradiction
    obtain ⟨last, hread⟩ := hread
    rcases getLastLogIndexFromDb_run_cases (s := s) (t := t) g.logCf
        (by rw [Storage.lastKey, hlog, Storage.lastKey]) with ⟨_, -, ht'⟩ | ⟨_, hs, -⟩
    · rw [ht] at ht'
      contradiction
    · rw [hread] at hs
      contradiction

/-- Openable column families give their highest indices. -/
theorem reopen_of_openable {s : Storage} (hkeys : ∀ g : RaftGroup, LogKeysOnly s g.logCf)
    (hopen : ∀ g : RaftGroup, Openable s g.logCf) :
    ∃ t, s.reopen = .ok t ∧ t.db = s.db ∧
      ∀ g : RaftGroup, Highest s g.logCf (t.lastLogIndexCache g.logCf) := by
  rcases reopen_cases s with ⟨t, ht, hdb, hread⟩ | ⟨-, g, e, hread⟩
  · refine ⟨t, ht, hdb, fun g => ?_⟩
    obtain ⟨last, hlast, hrun⟩ :=
      getLastLogIndexFromDb_run_openable g.logCf_isLogCf (hkeys g) (hopen g)
    rw [hread g] at hrun
    cases hrun
    exact hlast
  · obtain ⟨last, -, hrun⟩ :=
      getLastLogIndexFromDb_run_openable g.logCf_isLogCf (hkeys g) (hopen g)
    rw [hread] at hrun
    contradiction

theorem openable_of_reopen {s t : Storage} (hkeys : ∀ g : RaftGroup, LogKeysOnly s g.logCf)
    (hopen : s.reopen = .ok t) (g : RaftGroup) : Openable s g.logCf := by
  rcases reopen_cases s with ⟨u, -, -, hread⟩ | ⟨⟨e, he⟩, -⟩
  · exact openable_of_run_ok g.logCf_isLogCf (hkeys g) (hread g)
  · rw [he] at hopen
    contradiction

end Seshat
