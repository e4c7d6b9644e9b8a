/-
The in-memory log store.  Its ordered map refines the log as a partial function of
the index, under the code's own reading of a truncation: the entry at the given
index is kept.  Its reported state forgets purges.  Locks are never poisoned.
-/
import Seshat.Storage.LogState
import Seshat.Storage.Ranges

namespace Seshat

open Keyed

namespace RangeBounds

instance (bound : Bound) (index : UInt64) : Decidable (bound.AdmitsFrom index) :=
  match bound with
  | .included n => inferInstanceAs (Decidable (n ≤ index))
  | .excluded n => inferInstanceAs (Decidable (n < index))
  | .unbounded => inferInstanceAs (Decidable True)

instance (bound : Bound) (index : UInt64) : Decidable (bound.AdmitsTo index) :=
  match bound with
  | .included n => inferInstanceAs (Decidable (index ≤ n))
  | .excluded n => inferInstanceAs (Decidable (index < n))
  | .unbounded => inferInstanceAs (Decidable True)

instance (range : RangeBounds) (index : UInt64) : Decidable (range.Contains index) :=
  inferInstanceAs (Decidable (_ ∧ _))

/-- The range `..`. -/
def full : RangeBounds := ⟨.unbounded, .unbounded⟩

/-- The ranges on which `BTreeMap::range` panics: the start lies behind the end, or
both exclude the same index. -/
def panics (range : RangeBounds) : Bool :=
  match range.startBound, range.endBound with
  | .excluded lo, .excluded hi => hi ≤ lo
  | .included lo, .included hi => hi < lo
  | .included lo, .excluded hi => hi < lo
  | .excluded lo, .included hi => hi < lo
  | _, _ => false

end RangeBounds

structure OpenRaftMemLog where
  log : Std.ExtTreeMap UInt64 Entry
  vote : Option Vote

namespace OpenRaftMemLog

def new : OpenRaftMemLog := ⟨∅, none⟩

def tryGetLogEntries (m : OpenRaftMemLog) (range : RangeBounds) :
    Except Failure (List Entry) :=
  if range.panics then .error .panic
  else .ok ((m.log.toList.filter fun pair => range.Contains pair.1).map Prod.snd)

/-- The purged id is never known. -/
def getLogState (m : OpenRaftMemLog) : LogState where
  lastPurgedLogId := none
  lastLogId := m.log.toList.getLast?.map fun pair => pair.2.logId

def saveVote (vote : Vote) (m : OpenRaftMemLog) : OpenRaftMemLog :=
  { m with vote := some vote }

def readVote (m : OpenRaftMemLog) : Option Vote := m.vote

def append (entries : List Entry) (m : OpenRaftMemLog) : OpenRaftMemLog :=
  { m with log := entries.foldl (fun log entry => log.insert entry.logId.index entry) m.log }

/-- The entry of the given index is kept. -/
def truncate (id : LogId) (m : OpenRaftMemLog) : OpenRaftMemLog :=
  { m with log := m.log.filter fun index _ => index ≤ id.index }

def purge (id : LogId) (m : OpenRaftMemLog) : OpenRaftMemLog :=
  { m with log := m.log.filter fun index _ => index > id.index }

/-- One call that changes the log. -/
def step (m : OpenRaftMemLog) : LogOp → OpenRaftMemLog
  | .append entries => m.append entries
  | .truncate id => m.truncate id
  | .purge id => m.purge id

/-- The store after these calls on a new one. -/
def run (ops : List LogOp) : OpenRaftMemLog := ops.foldl step new

end OpenRaftMemLog

/-- A log as openraft sees it: the entry of each index, if there is one. -/
abbrev AbstractLog := UInt64 → Option Entry

namespace AbstractLog

/-- Entries are added, or replace those of their indices. -/
def append (log : AbstractLog) (entries : List Entry) : AbstractLog :=
  fun index => (latest entries index).or (log index)

/-- The entries of these indices are gone. -/
def remove (log : AbstractLog) (gone : UInt64 → Bool) : AbstractLog :=
  fun index => if gone index then none else log index

/-- One call; `cut` says which indices a truncation at an index removes. -/
def step (cut : UInt64 → UInt64 → Bool) (log : AbstractLog) : LogOp → AbstractLog
  | .append entries => log.append entries
  | .truncate id => log.remove (cut id.index)
  | .purge id => log.remove fun index => index ≤ id.index

def run (cut : UInt64 → UInt64 → Bool) (ops : List LogOp) : AbstractLog :=
  ops.foldl (step cut) fun _ => none

/-- Openraft's truncation takes the entry at its index too. -/
def cutFrom (start index : UInt64) : Bool := start ≤ index

/-- A truncation that takes only what lies behind its index. -/
def cutBehind (start index : UInt64) : Bool := start < index

/-- The entries are those of the log, in index order. -/
def Lists (log : AbstractLog) (entries : List Entry) : Prop :=
  Ascending entries ∧ ∀ entry, entry ∈ entries ↔ log entry.logId.index = some entry

/-- A log holds each entry under its own index. -/
def Keyed (log : AbstractLog) : Prop :=
  ∀ index entry, log index = some entry → entry.logId.index = index

theorem Keyed.step {log : AbstractLog} (h : log.Keyed) (cut : UInt64 → UInt64 → Bool)
    (op : LogOp) : (log.step cut op).Keyed := by
  intro index entry hentry
  have hremove : ∀ gone, log.remove gone index = some entry → entry.logId.index = index := by
    intro gone hgone
    rw [remove] at hgone
    split at hgone
    · contradiction
    · exact h index entry hgone
  cases op with
  | append entries =>
      rcases Option.or_eq_some_iff.mp hentry with hnew | ⟨-, hold⟩
      · exact (latest_eq_some hnew).2
      · exact h index entry hold
  | truncate id => exact hremove _ hentry
  | purge id => exact hremove (fun index => index ≤ id.index) hentry

theorem keyed_run (cut : UInt64 → UInt64 → Bool) (ops : List LogOp) : (run cut ops).Keyed := by
  induction ops using List.reverseRecOn with
  | nil =>
      intro index entry hentry
      contradiction
  | append_singleton ops op ih =>
      rw [run, List.foldl_append]
      exact ih.step cut op

end AbstractLog

namespace OpenRaftMemLog

/-- The map, read as a log. -/
def contents (m : OpenRaftMemLog) : AbstractLog := fun index => m.log[index]?

theorem contents_append (entries : List Entry) (m : OpenRaftMemLog) :
    (m.append entries).contents = m.contents.append entries := by
  funext index
  induction entries using List.reverseRecOn with
  | nil => rfl
  | append_singleton entries entry ih =>
      rw [contents, append, List.foldl_append, List.foldl_cons, List.foldl_nil,
        Std.ExtTreeMap.getElem?_insert, AbstractLog.append, latest_append]
      by_cases hindex : entry.logId.index = index
      · simp [hindex, latest]
      · have hbeq : (entry.logId.index == index) = false := by simpa using hindex
        have hnone : latest [entry] index = none := by simp [latest, hbeq]
        rw [if_neg (by simpa using hindex), hnone, Option.none_or]
        exact ih

theorem contents_retain (m : OpenRaftMemLog) (keep : UInt64 → Bool) (vote : Option Vote) :
    contents ⟨m.log.filter fun index _ => keep index, vote⟩ =
      m.contents.remove fun index => !keep index := by
  funext index
  rw [contents, Std.ExtTreeMap.getElem?_filter', AbstractLog.remove, contents]
  cases m.log[index]? with
  | none => simp
  | some entry => cases hkeep : keep index <;> simp

/-- The code's step is the abstract one, with truncations that keep their index. -/
theorem contents_step (m : OpenRaftMemLog) (op : LogOp) :
    (m.step op).contents = m.contents.step AbstractLog.cutBehind op := by
  cases op with
  | append entries => exact contents_append entries m
  | truncate id =>
      refine (contents_retain m _ m.vote).trans (congrArg m.contents.remove ?_)
      funext index
      rw [AbstractLog.cutBehind, ← decide_not, decide_eq_decide, UInt64.not_le]
  | purge id =>
      refine (contents_retain m _ m.vote).trans (congrArg m.contents.remove ?_)
      funext index
      rw [← decide_not, decide_eq_decide, gt_iff_lt, UInt64.not_lt]

theorem contents_run (ops : List LogOp) :
    (run ops).contents = AbstractLog.run AbstractLog.cutBehind ops := by
  induction ops using List.reverseRecOn with
  | nil =>
      funext index
      exact Std.ExtTreeMap.getElem?_empty
  | append_singleton ops op ih =>
      rw [run, List.foldl_append, AbstractLog.run, List.foldl_append]
      exact (contents_step _ op).trans (congrArg (AbstractLog.step AbstractLog.cutBehind · op) ih)

theorem keyed_contents_run (ops : List LogOp) : (run ops).contents.Keyed := by
  rw [contents_run]
  exact AbstractLog.keyed_run _ ops

/-- What the map lists is its contents. -/
theorem lists_toList {m : OpenRaftMemLog} (hkeyed : m.contents.Keyed) :
    m.contents.Lists (m.log.toList.map Prod.snd) := by
  constructor
  · refine List.pairwise_map.mpr
      (List.Pairwise.imp_of_mem ?_ Std.ExtTreeMap.ordered_keys_toList)
    rintro ⟨i, a⟩ ⟨j, b⟩ ha hb hlt
    rw [Std.ExtTreeMap.mem_toList_iff_getElem?_eq_some] at ha hb
    have hi := hkeyed i a ha
    have hj := hkeyed j b hb
    subst hi hj
    exact UInt64.lt_iff_toNat_lt.mp (Std.compare_eq_lt.mp hlt)
  · intro entry
    simp only [List.mem_map, Prod.exists, exists_eq_right,
      Std.ExtTreeMap.mem_toList_iff_getElem?_eq_some]
    constructor
    · rintro ⟨index, hentry⟩
      rw [hkeyed index entry hentry]
      exact hentry
    · intro hentry
      exact ⟨_, hentry⟩

theorem tryGetLogEntries_full_eq (m : OpenRaftMemLog) :
    m.tryGetLogEntries .full = .ok (m.log.toList.map Prod.snd) := by
  have hall : m.log.toList.filter (fun pair => RangeBounds.full.Contains pair.1) =
      m.log.toList :=
    List.filter_eq_self.mpr fun pair _ => decide_eq_true ⟨trivial, trivial⟩
  rw [tryGetLogEntries, hall]
  rfl

/-- After every history of calls, a read of the whole log returns the log in which
an append adds or replaces, a truncation removes what lies behind its index and a
purge removes everything up to its index. -/
theorem tryGetLogEntries_full (ops : List LogOp) :
    ∃ entries, (run ops).tryGetLogEntries .full = .ok entries ∧
      (AbstractLog.run AbstractLog.cutBehind ops).Lists entries := by
  refine ⟨_, tryGetLogEntries_full_eq _, ?_⟩
  rw [← contents_run]
  exact lists_toList (keyed_contents_run ops)

end OpenRaftMemLog

/-- The id of the last purge among the calls. -/
def lastPurge (ops : List LogOp) : Option LogId := ops.reverse.findSome? LogOp.purgeId

/-- What openraft expects of the reported state, given the last purged id. -/
structure MemStateTruthful (purged : Option LogId) (m : OpenRaftMemLog) : Prop where
  lastPurged : m.getLogState.lastPurgedLogId = purged
  stored : ∀ index entry, m.contents index = some entry →
    (∀ other, m.contents other ≠ none → other ≤ index) →
    m.getLogState.lastLogId = some entry.logId
  empty : (∀ index, m.contents index = none) → m.getLogState.lastLogId = purged

namespace OpenRaftMemLog

theorem lastLogId_of_highest {m : OpenRaftMemLog} {index : UInt64} {entry : Entry}
    (hentry : m.contents index = some entry)
    (hhighest : ∀ other, m.contents other ≠ none → other ≤ index) :
    m.getLogState.lastLogId = some entry.logId := by
  have hmem : (index, entry) ∈ m.log.toList :=
    Std.ExtTreeMap.mem_toList_iff_getElem?_eq_some.mpr hentry
  obtain ⟨last, hlast⟩ : ∃ last, m.log.toList.getLast? = some last := by
    cases hlist : m.log.toList.getLast? with
    | none =>
        rw [List.getLast?_eq_none_iff.mp hlist] at hmem
        simp at hmem
    | some last => exact ⟨last, rfl⟩
  have hstored : m.contents last.1 = some last.2 :=
    Std.ExtTreeMap.mem_toList_iff_getElem?_eq_some.mp (List.mem_of_getLast? hlast)
  -- the last pair lies at or above every other
  have habove : index ≤ last.1 := by
    obtain ⟨before, hsplit⟩ := List.getLast?_eq_some_iff.mp hlast
    have hordered := Std.ExtTreeMap.ordered_keys_toList (t := m.log)
    rw [hsplit] at hmem hordered
    rcases List.mem_append.mp hmem with hbefore | heq
    · exact UInt64.le_of_lt (Std.compare_eq_lt.mp
        ((List.pairwise_append.mp hordered).2.2 _ hbefore _ List.mem_cons_self))
    · rw [← List.mem_singleton.mp heq]
      exact UInt64.le_refl _
  have hindex : last.1 = index :=
    UInt64.le_antisymm (hhighest last.1 (by simp [hstored])) habove
  rw [hindex, hentry] at hstored
  rw [getLogState, hlast, Option.some.inj hstored]
  rfl

/-- The reported state is what openraft expects exactly where nothing was purged. -/
theorem getLogState_truthful_iff (ops : List LogOp) :
    MemStateTruthful (lastPurge ops) (run ops) ↔ ∀ id, LogOp.purge id ∉ ops := by
  have hnone : lastPurge ops = none ↔ ∀ id, LogOp.purge id ∉ ops := by
    rw [lastPurge, List.findSome?_eq_none_iff]
    constructor
    · intro h id hmem
      exact absurd (h _ (List.mem_reverse.mpr hmem)) (by simp [LogOp.purgeId])
    · intro h op hmem
      cases op with
      | append entries => rfl
      | truncate id => rfl
      | purge id => exact absurd (List.mem_reverse.mp hmem) (h id)
  constructor
  · intro h
    exact hnone.mp h.lastPurged.symm
  · intro h
    rw [hnone.mpr h]
    refine ⟨rfl, fun index entry hentry hhighest => lastLogId_of_highest hentry hhighest, ?_⟩
    intro hempty
    have hlist : (run ops).log.toList = [] := by
      refine List.eq_nil_iff_forall_not_mem.mpr ?_
      rintro ⟨index, entry⟩ hmem
      have hentry : (run ops).contents index = some entry :=
        Std.ExtTreeMap.mem_toList_iff_getElem?_eq_some.mp hmem
      rw [hempty] at hentry
      contradiction
    rw [getLogState, hlist]
    rfl

end OpenRaftMemLog

namespace Witness

/-- Entries 1 to 3, cut at 2. -/
def cutAtTwo : List LogOp :=
  [.append [blankEntry 1 1 1, blankEntry 1 1 2, blankEntry 1 1 3], .truncate ⟨⟨1, 1⟩, 2⟩]

/-- Openraft's log ends at 1 there; entry 2 is read all the same. -/
theorem cutAtTwo_keeps_two :
    ¬ ∃ entries, (OpenRaftMemLog.run cutAtTwo).tryGetLogEntries .full = .ok entries ∧
      (AbstractLog.run AbstractLog.cutFrom cutAtTwo).Lists entries := by
  rintro ⟨entries, hread, -, hlists⟩
  have hmem : blankEntry 1 1 2 ∈ entries := by
    rw [OpenRaftMemLog.tryGetLogEntries_full_eq] at hread
    rw [← Except.ok.inj hread,
      (OpenRaftMemLog.lists_toList (OpenRaftMemLog.keyed_contents_run cutAtTwo)).2,
      OpenRaftMemLog.contents_run]
    rfl
  exact absurd ((hlists _).mp hmem) (by decide)

/-- Entry 1 alone, purged. -/
def purgedAtOne : List LogOp := [.append [blankEntry 1 1 1], .purge ⟨⟨1, 1⟩, 1⟩]

/-- The purge is not in the reported state. -/
theorem purgedAtOne_forgotten :
    lastPurge purgedAtOne = some ⟨⟨1, 1⟩, 1⟩ ∧
      (OpenRaftMemLog.run purgedAtOne).getLogState.lastPurgedLogId = none ∧
      ¬ MemStateTruthful (lastPurge purgedAtOne) (OpenRaftMemLog.run purgedAtOne) := by
  refine ⟨rfl, rfl, fun h => ?_⟩
  exact absurd h.lastPurged (by decide)

end Witness

end Seshat
