/-
A replica on the RocksDB state machine through crashes.  Its Raft node hands it the log
entries behind its position in batches of any size, and asks it for the position after a
restart.  A crash in the middle of a batch leaves data ahead of the position.  Where no
entry that was handed over and is due again writes to, the database reads as if nothing
had crashed; so it does everywhere once the replica has caught up.
-/
import Seshat.Lib.Redo
import Seshat.Storage.Backends

namespace Seshat

open Keyed Redo

/-- A state machine, the position its node takes it to be at, and all entries the node has
handed to it. -/
structure Replica where
  machine : RocksDBStateMachine
  position : Option LogId
  handed : List Entry

/-- A batch of the next `n` entries, or a crash after `k` writes of such a batch. -/
inductive ReplicaStep where
  | apply (n : Nat)
  | crash (n k : Nat)
deriving DecidableEq, Repr

/-- The entries of a log behind a position. -/
def entriesBehind (position : Option LogId) (log : List Entry) : List Entry :=
  log.filter fun entry =>
    match position with
    | none => true
    | some id => id.index < entry.logId.index

section Steps

variable [MembershipApi] [Prost LogIdMessage] [Prost MembershipMessage] [Bincode Operation]

/-- After a crash the store is reopened and the new machine is asked where it is. -/
def Replica.step (g : RaftGroup) (log : List Entry) (r : Replica) :
    ReplicaStep → Option Replica
  | .apply n =>
      let batch := (entriesBehind r.position log).take n
      match (RocksDBStateMachine.apply g batch).run r.machine with
      | .ok _ machine =>
          some ⟨machine, (batch.getLast?.map Entry.logId).or r.position, r.handed ++ batch⟩
      | .error _ _ => none
  | .crash n k =>
      let batch := (entriesBehind r.position log).take n
      match (RocksDBStateMachine.crashedIn g batch k r.machine).reopen with
      | .ok s =>
          match (RocksDBStateMachine.appliedState g).run (.new s) with
          | .ok (applied, _) machine => some ⟨machine, applied, r.handed ++ batch⟩
          | .error _ _ => none
      | .error _ => none

def runReplica (g : RaftGroup) (log : List Entry) : List ReplicaStep → Replica → Option Replica
  | [], r => some r
  | step :: steps, r => (r.step g log step).bind (runReplica g log steps)

end Steps

section Writes

variable [MembershipApi] [Prost LogIdMessage] [Prost MembershipMessage] [Bincode Operation]

/-- The updates of an entry; the record of the position is an item of its own. -/
def itemUpdates (g : RaftGroup) :
    Option Entry → List (Overlay.Update (ColumnFamily × Bytes) Bytes)
  | some entry => (entryWrites g entry).map BatchOperation.update
  | none => [((g.stateCf, appliedKey), none)]

/-- The bytes of the record behind the given entries. -/
def positionRecord (done : List Entry) : Option Bytes :=
  done.getLast?.map fun entry => Prost.encodeToVec (LogIdMessage.fromLogId entry.logId)

/-- What may be ahead of the position: entries that were handed over and are due again. -/
def Loose (handed rest : List Entry) : Option Entry → Prop
  | some entry => entry ∈ handed ∧ entry ∈ rest
  | none => True

/-- A store on which the entries `done` took effect since the store `start`, and a part of
those handed over. -/
structure Recoverable (g : RaftGroup) (start : Storage) (handed done rest : List Entry)
    (s : Storage) : Prop where
  opens : ∃ t, s.reopen = .ok t
  membership : ∃ membership, readMembership g s = .ok membership
  position : s.get g.stateCf appliedKey =
    (positionRecord done).or (start.get g.stateCf appliedKey)
  settled : Redone (itemUpdates g) start.lookup (done.map some) (Loose handed rest) s.lookup

omit [Prost LogIdMessage] in
/-- Entries write nothing at the record of the position. -/
theorem entryWrites_ne_applied {g : RaftGroup} {entry : Entry} {op : BatchOperation}
    (hop : op ∈ entryWrites g entry) : op.update.1 ≠ (g.stateCf, appliedKey) := by
  have hkey : membershipKey ≠ appliedKey := by decide
  rcases entryWrites_key hop with heq | hkv
  · rw [heq]
    exact fun h => hkey (congrArg Prod.snd h)
  · intro heq
    rw [heq] at hkv
    revert hkv
    cases g <;> decide

omit [Prost LogIdMessage] in
/-- A membership that can be read can be read after the write of an entry. -/
theorem readable_entryWrite {g : RaftGroup} {entry : Entry} {op : BatchOperation}
    (hop : op ∈ entryWrites g entry) {s : Storage}
    (hs : ∃ membership, readMembership g s = .ok membership) :
    ∃ membership, readMembership g (s.write [op]) = .ok membership := by
  have hone : entryWrites g entry = [op] := by
    obtain ⟨id, payload⟩ := entry
    cases payload with
    | blank => simp [entryWrites] at hop
    | membership membership => simpa [entryWrites, eq_comm] using hop
    | normal request =>
        simp only [entryWrites] at hop ⊢
        split <;> simp_all
  have hread := readMembership_entryWrites g entry s
  rw [hone] at hread
  obtain ⟨membership, hmembership⟩ := hs
  rw [hread, hmembership]
  cases entry.membership? with
  | none => exact ⟨membership, rfl⟩
  | some stored => exact ⟨_, rfl⟩

omit [Prost LogIdMessage] [Bincode Operation] in
theorem readable_positionWrite {g : RaftGroup} (value : Bytes) {s : Storage}
    (hs : ∃ membership, readMembership g s = .ok membership) :
    ∃ membership, readMembership g (s.write [.put g.stateCf appliedKey value]) =
      .ok membership := by
  have hkey : membershipKey ≠ appliedKey := by decide
  have hsame : readMembership g (s.write [.put g.stateCf appliedKey value]) =
      readMembership g s := by
    simp [readMembership, Storage.write, Storage.get_apply_put, hkey]
  rw [hsame]
  exact hs

theorem readable_writes {g : RaftGroup} {entries : List Entry} {ops : WriteBatch}
    (hops : ops ⊆ applyWrites g entries) {s : Storage}
    (hs : ∃ membership, readMembership g s = .ok membership) :
    ∃ membership, readMembership g (s.write ops) = .ok membership := by
  induction ops generalizing s with
  | nil => exact hs
  | cons op ops ih =>
      rw [List.cons_subset] at hops
      have hone : ∃ membership, readMembership g (s.write [op]) = .ok membership := by
        rcases List.mem_append.mp hops.1 with hop | hop
        · obtain ⟨entry, -, hop⟩ := List.mem_flatMap.mp hop
          exact readable_entryWrite hop hs
        · obtain ⟨entry, -, rfl⟩ := Option.map_eq_some_iff.mp (Option.mem_toList.mp hop)
          exact readable_positionWrite _ hs
      exact ih hops.2 hone

/-- The logs are left alone. -/
theorem opens_writes {g : RaftGroup} {entries : List Entry} {ops : WriteBatch}
    (hops : ops ⊆ applyWrites g entries) {s : Storage} (hs : ∃ t, s.reopen = .ok t) :
    ∃ t, (s.write ops).reopen = .ok t := by
  refine exists_reopen_congr (fun g' => Std.ExtTreeMap.ext_getElem? fun key => ?_) hs
  exact Storage.get_write_of_ne (fun op hop => applyWrites_ne_logCf g g' (hops hop)) s key

omit [Prost LogIdMessage] in
/-- Writes of entries leave the record alone. -/
theorem get_applied_entryWrites {g : RaftGroup} {entries : List Entry} {ops : WriteBatch}
    (hops : ops ⊆ entries.flatMap (entryWrites g)) (s : Storage) :
    (s.write ops).get g.stateCf appliedKey = s.get g.stateCf appliedKey := by
  have hlookup := congrFun (Storage.lookup_write s ops) (g.stateCf, appliedKey)
  rw [Overlay.foldl_apply_of_ne] at hlookup
  · exact hlookup
  · intro u hu
    obtain ⟨op, hop, rfl⟩ := List.mem_map.mp hu
    obtain ⟨entry, -, hop⟩ := List.mem_flatMap.mp (hops hop)
    exact (entryWrites_ne_applied hop).symm

/-- The record behind a batch. -/
theorem get_applied_applyWrites (g : RaftGroup) (entries : List Entry) (s : Storage) :
    (s.write (applyWrites g entries)).get g.stateCf appliedKey =
      (positionRecord entries).or (s.get g.stateCf appliedKey) := by
  rw [applyWrites, positionWrite, Storage.write_append, positionRecord]
  cases entries.getLast? with
  | none => exact get_applied_entryWrites (List.Subset.refl _) s
  | some last => simp [Storage.write, Storage.get_apply_put]

omit [Prost LogIdMessage] in
theorem flatMap_itemUpdates (g : RaftGroup) (entries : List Entry) :
    (entries.map some).flatMap (itemUpdates g) =
      (entries.flatMap (entryWrites g)).map BatchOperation.update := by
  rw [List.flatMap_map, List.map_flatMap]
  rfl

/-- A crash comes among the writes of the entries, or behind them all. -/
theorem take_applyWrites (g : RaftGroup) (entries : List Entry) (k : Nat) :
    (applyWrites g entries).take k = (entries.flatMap (entryWrites g)).take k ∨
      (applyWrites g entries).take k = applyWrites g entries := by
  by_cases hk : k ≤ (entries.flatMap (entryWrites g)).length
  · exact Or.inl (by rw [applyWrites, List.take_append_of_le_length hk])
  · refine Or.inr (List.take_of_length_le ?_)
    have hone : (positionWrite g entries).length ≤ 1 := by
      rw [positionWrite]
      cases entries.getLast? <;> simp
    rw [applyWrites, List.length_append]
    omega

namespace Recoverable

variable {g : RaftGroup} {start s : Storage} {handed done batch rest : List Entry}

/-- Nothing is done yet. -/
theorem refl (hopen : ∃ t, start.reopen = .ok t)
    (hmembership : ∃ membership, readMembership g start = .ok membership) :
    Recoverable g start [] [] rest start where
  opens := hopen
  membership := hmembership
  position := rfl
  settled := redone_start _ _ _

/-- A restart keeps what is written. -/
theorem reopened (h : Recoverable g start handed done rest s) {t : Storage}
    (ht : s.reopen = .ok t) : Recoverable g start handed done rest t := by
  have hdb := db_of_reopen ht
  have hget : t.get = s.get := Storage.get_eq_of_db_eq hdb
  refine ⟨exists_reopen_congr (fun g' => by rw [hdb]) h.opens, ?_, ?_, ?_⟩
  · obtain ⟨membership, hmembership⟩ := h.membership
    exact ⟨membership, by rw [readMembership, hget]; exact hmembership⟩
  · rw [hget]
    exact h.position
  · have hlookup : t.lookup = s.lookup := by
      funext key
      rw [Storage.lookup, hget, Storage.lookup]
    rw [hlookup]
    exact h.settled

/-- A batch that was written in part: the position stays, its entries are due again. -/
theorem partly (h : Recoverable g start handed done (batch ++ rest) s) {ops : WriteBatch}
    (hops : ops ⊆ batch.flatMap (entryWrites g)) :
    Recoverable g start (handed ++ batch) done (batch ++ rest) (s.write ops) := by
  have hsub : ops ⊆ applyWrites g batch := fun op hop => List.mem_append_left _ (hops hop)
  refine ⟨opens_writes hsub h.opens, readable_writes hsub h.membership, ?_, ?_⟩
  · rw [← h.position, get_applied_entryWrites hops]
  · rw [Storage.lookup_write]
    refine h.settled.part ?_ ?_
    · rintro (_ | entry) hentry
      · trivial
      · exact ⟨List.mem_append_left batch hentry.1, hentry.2⟩
    · intro u hu
      obtain ⟨op, hop, rfl⟩ := List.mem_map.mp hu
      obtain ⟨entry, hentry, hop⟩ := List.mem_flatMap.mp (hops hop)
      refine ⟨some entry, ⟨List.mem_append_right handed hentry,
        List.mem_append_left rest hentry⟩, op.update, ?_, rfl⟩
      exact List.mem_map_of_mem hop

/-- A batch that was written as a whole. -/
theorem wholly (h : Recoverable g start handed done (batch ++ rest) s) :
    Recoverable g start (handed ++ batch) (done ++ batch) rest
      (s.write (applyWrites g batch)) := by
  refine ⟨opens_writes (List.Subset.refl _) h.opens,
    readable_writes (List.Subset.refl _) h.membership, ?_, ?_⟩
  · rw [get_applied_applyWrites, h.position, ← Option.or_assoc]
    simp only [positionRecord, List.getLast?_append, Option.map_or]
  · rw [applyWrites, Storage.write_append, Storage.lookup_write, Storage.lookup_write,
      ← flatMap_itemUpdates, List.map_append]
    have hloose : ∀ i, Loose handed (batch ++ rest) i →
        i ∈ batch.map some ∨ Loose (handed ++ batch) rest i := by
      rintro (_ | entry) hentry
      · exact Or.inr trivial
      · rcases List.mem_append.mp hentry.2 with hbatch | hrest
        · exact Or.inl (List.mem_map_of_mem hbatch)
        · exact Or.inr ⟨List.mem_append_left batch hentry.1, hrest⟩
    refine (h.settled.whole hloose).part (fun _ hi => hi) ?_
    · intro u hu
      obtain ⟨op, hop, rfl⟩ := List.mem_map.mp hu
      obtain ⟨entry, -, rfl⟩ := Option.map_eq_some_iff.mp (Option.mem_toList.mp hop)
      exact ⟨none, trivial, _, List.mem_singleton_self _, rfl⟩

/-- A crash leaves the position or moves it to the end of the batch. -/
theorem crashed (h : Recoverable g start handed done (batch ++ rest) s) (k : Nat) :
    Recoverable g start (handed ++ batch) done (batch ++ rest)
        (s.write ((applyWrites g batch).take k)) ∨
      Recoverable g start (handed ++ batch) (done ++ batch) rest
        (s.write ((applyWrites g batch).take k)) := by
  rcases take_applyWrites g batch k with hpart | hwhole
  · rw [hpart]
    exact Or.inl (h.partly (List.take_subset k _))
  · rw [hwhole]
    exact Or.inr h.wholly

/-- Where nothing due again writes to, the entries done decide. -/
theorem get_eq (h : Recoverable g start handed done rest s) {cf : ColumnFamily} {key : Bytes}
    (huntouched : ∀ entry ∈ handed, entry ∈ rest → ∀ op ∈ entryWrites g entry,
      op.update.1 ≠ (cf, key)) :
    s.get cf key = (start.write (applyWrites g done)).get cf key := by
  by_cases hkey : (cf, key) = (g.stateCf, appliedKey)
  · obtain ⟨rfl, rfl⟩ := Prod.mk.inj hkey
    rw [h.position, get_applied_applyWrites]
  · have hsettled : s.lookup (cf, key) = _ := h.settled (cf, key) (by
      rintro (_ | entry) hloose u hu
      · obtain rfl := List.mem_singleton.mp hu
        exact hkey
      · obtain ⟨op, hop, rfl⟩ := List.mem_map.mp hu
        exact (huntouched entry hloose.1 hloose.2 op hop).symm)
    have hrecord : ∀ op ∈ positionWrite g done, (cf, key) ≠ op.update.1 := by
      intro op hop
      obtain ⟨entry, -, rfl⟩ := Option.map_eq_some_iff.mp (Option.mem_toList.mp hop)
      exact hkey
    have hbatch : (start.write (applyWrites g done)).lookup (cf, key) =
        (start.write (done.flatMap (entryWrites g))).lookup (cf, key) := by
      rw [applyWrites, Storage.write_append, Storage.lookup_write]
      refine Overlay.foldl_apply_of_ne (fun u hu => ?_) _
      obtain ⟨op, hop, rfl⟩ := List.mem_map.mp hu
      exact hrecord op hop
    rw [Storage.lookup_write start (done.flatMap _), ← flatMap_itemUpdates, ← hsettled]
      at hbatch
    exact hbatch.symm

/-- The machine reports the last entry done, or the position it started from. -/
theorem readApplied_eq (h : Recoverable g start handed done rest s) {position : Option LogId}
    (hstart : readApplied g start = .ok position) :
    readApplied g s = .ok ((done.getLast?.map Entry.logId).or position) := by
  rw [readApplied] at hstart
  rw [readApplied, h.position, positionRecord]
  cases done.getLast? with
  | none => exact hstart
  | some last => simp

end Recoverable

omit [MembershipApi] [Prost LogIdMessage] [Prost MembershipMessage] [Bincode Operation] in
/-- In a log with growing indices the entries behind the last one done are the rest. -/
theorem entriesBehind_append {done rest : List Entry} (hascending : Ascending (done ++ rest))
    {position : Option LogId}
    (hlater : ∀ id ∈ position, ∀ entry ∈ done ++ rest, id.index < entry.logId.index) :
    entriesBehind ((done.getLast?.map Entry.logId).or position) (done ++ rest) = rest := by
  rcases List.eq_nil_or_concat done with rfl | ⟨init, last, rfl⟩
  · simp only [List.nil_append, List.getLast?_nil, Option.map_none, Option.none_or] at hlater ⊢
    rw [entriesBehind, List.filter_eq_self]
    intro entry hentry
    cases position with
    | none => rfl
    | some id => exact decide_eq_true (hlater id rfl entry hentry)
  · obtain ⟨hdone, -, hcross⟩ := List.pairwise_append.mp hascending
    simp only [List.concat_eq_append] at hdone hcross ⊢
    rw [entriesBehind, List.filter_append]
    have hout : ∀ entry ∈ init ++ [last], ¬ last.logId.index < entry.logId.index := by
      intro entry hentry hlt
      rw [UInt64.lt_iff_toNat_lt] at hlt
      rcases List.mem_append.mp hentry with hentry | hentry
      · have hbefore := (List.pairwise_append.mp hdone).2.2 entry hentry last (by simp)
        omega
      · obtain rfl := List.mem_singleton.mp hentry
        omega
    have hin : ∀ entry ∈ rest, last.logId.index < entry.logId.index := by
      intro entry hentry
      exact UInt64.lt_iff_toNat_lt.mpr (hcross last (by simp) entry hentry)
    simp only [List.getLast?_append, List.getLast?_singleton, Option.map_some, Option.some_or]
    rw [List.filter_eq_nil_iff.mpr (by simpa using hout),
      List.filter_eq_self.mpr (by simpa using hin), List.nil_append]

/-- A replica between the entries done and those due. -/
structure Replica.Between (g : RaftGroup) (start : Storage) (position : Option LogId)
    (done rest : List Entry) (r : Replica) : Prop where
  position_eq : r.position = (done.getLast?.map Entry.logId).or position
  recoverable : Recoverable g start r.handed done rest r.machine.storage

section Runs

variable {g : RaftGroup} {log : List Entry} {start : Storage} {position : Option LogId}

/-- A step succeeds and leaves the replica between the entries done and those due. -/
theorem Replica.Between.step (hascending : Ascending log)
    (hentries : ∀ entry ∈ log, entry.Decodable) (hstart : readApplied g start = .ok position)
    (hlater : ∀ id ∈ position, ∀ entry ∈ log, id.index < entry.logId.index) {r : Replica}
    {done rest : List Entry} (hlog : log = done ++ rest)
    (h : r.Between g start position done rest) (step : ReplicaStep) :
    ∃ r' done' rest', r.step g log step = some r' ∧ log = done' ++ rest' ∧
      r'.Between g start position done' rest' := by
  have hrest : entriesBehind r.position log = rest := by
    rw [h.position_eq, hlog]
    exact entriesBehind_append (hlog ▸ hascending) (hlog ▸ hlater)
  have hsplit : ∀ n, rest = rest.take n ++ rest.drop n := fun n =>
    (List.take_append_drop n rest).symm
  have hdone : ∀ n, log = (done ++ rest.take n) ++ rest.drop n := by
    intro n
    rw [List.append_assoc, ← hsplit, hlog]
  have hbatch : ∀ n, ∀ entry ∈ rest.take n, entry.Decodable := by
    intro n entry hentry
    refine hentries entry ?_
    rw [hlog]
    exact List.mem_append_right done (List.mem_of_mem_take hentry)
  cases step with
  | apply n =>
      obtain ⟨machine, hrun, hmachine⟩ := apply_run g (hbatch n) r.machine
      have hrecoverable := h.recoverable
      rw [hsplit n] at hrecoverable
      refine ⟨⟨machine, ((rest.take n).getLast?.map Entry.logId).or r.position,
        r.handed ++ rest.take n⟩, _, _, by simp only [Replica.step, hrest, hrun], hdone n, ?_, ?_⟩
      · rw [h.position_eq, ← Option.or_assoc, List.getLast?_append, Option.map_or]
      · simp only [hmachine]
        exact hrecoverable.wholly
  | crash n k =>
      have hrecoverable := h.recoverable
      rw [hsplit n] at hrecoverable
      obtain ⟨done', rest', hlog', hcrashed⟩ : ∃ done' rest', log = done' ++ rest' ∧
          Recoverable g start (r.handed ++ rest.take n) done' rest'
            (r.machine.storage.write ((applyWrites g (rest.take n)).take k)) := by
        rcases hrecoverable.crashed k with hpart | hwhole
        · exact ⟨done, rest.take n ++ rest.drop n, by rw [← hsplit, hlog], hpart⟩
        · exact ⟨_, _, hdone n, hwhole⟩
      obtain ⟨s, hopen⟩ := hcrashed.opens
      have hreopened := hcrashed.reopened hopen
      obtain ⟨membership, hmembership⟩ := hreopened.membership
      have happlied := hreopened.readApplied_eq hstart
      have hstate := appliedState_run (m := .new s) happlied hmembership
      obtain ⟨applied, happliedEq⟩ : ∃ applied, applied =
          (done'.getLast?.map Entry.logId).or position := ⟨_, rfl⟩
      rw [← happliedEq] at hstate
      refine ⟨⟨⟨s, applied, membership, none⟩, applied, r.handed ++ rest.take n⟩, done', rest',
        ?_, hlog', happliedEq, hreopened⟩
      simp only [Replica.step, hrest, crashedIn_eq g (hbatch n), hopen, hstate]
      rfl

theorem Replica.Between.run (hascending : Ascending log)
    (hentries : ∀ entry ∈ log, entry.Decodable) (hstart : readApplied g start = .ok position)
    (hlater : ∀ id ∈ position, ∀ entry ∈ log, id.index < entry.logId.index) {r : Replica}
    {done rest : List Entry} (hlog : log = done ++ rest)
    (h : r.Between g start position done rest) (steps : List ReplicaStep) :
    ∃ r' done' rest', runReplica g log steps r = some r' ∧ log = done' ++ rest' ∧
      r'.Between g start position done' rest' := by
  induction steps generalizing r done rest with
  | nil => exact ⟨r, done, rest, rfl, hlog, h⟩
  | cons step steps ih =>
      obtain ⟨r', done', rest', hstep, hlog', hr'⟩ :=
        h.step hascending hentries hstart hlater hlog step
      obtain ⟨u, done'', rest'', hrun, hlog'', hu⟩ := ih hlog' hr'
      exact ⟨u, done'', rest'', by rw [runReplica, hstep]; exact hrun, hlog'', hu⟩

end Runs

/-- In every run of batches of any size and of crashes anywhere in their writes, from a
store that opens and reports the position the log starts behind: no step fails, the machine
reports the last entry of a beginning of the log, and what is read at any key that no entry
due again writes to is what one call with that beginning would have left.  Where all
entries handed over are done this is every key. -/
theorem replica_recovers (g : RaftGroup) (log : List Entry) (hascending : Ascending log)
    (hentries : ∀ entry ∈ log, entry.Decodable) (m : RocksDBStateMachine)
    (position : Option LogId) (hposition : readApplied g m.storage = .ok position)
    (hlater : ∀ id ∈ position, ∀ entry ∈ log, id.index < entry.logId.index)
    (hmembership : ∃ membership, readMembership g m.storage = .ok membership)
    (hopen : ∃ s, m.storage.reopen = .ok s) (steps : List ReplicaStep) :
    ∃ r done rest responses t,
      runReplica g log steps ⟨m, position, []⟩ = some r ∧ log = done ++ rest ∧
      (∃ membership u, (RocksDBStateMachine.appliedState g).run r.machine =
        .ok ((done.getLast?.map Entry.logId).or position, membership) u) ∧
      (RocksDBStateMachine.apply g done).run m = .ok responses t ∧
      (∀ cf key, (∀ entry ∈ r.handed, entry ∈ rest → ∀ op ∈ entryWrites g entry,
          op.update.1 ≠ (cf, key)) →
        r.machine.storage.get cf key = t.storage.get cf key) ∧
      ((∀ entry ∈ r.handed, entry ∈ done) →
        ∀ cf key, r.machine.storage.get cf key = t.storage.get cf key) := by
  have hrefl : Replica.Between g m.storage position [] log ⟨m, position, []⟩ :=
    ⟨rfl, Recoverable.refl hopen hmembership⟩
  obtain ⟨r, done, rest, hrun, hlog, hr⟩ :=
    hrefl.run hascending hentries hposition hlater rfl steps
  have hdone : ∀ entry ∈ done, entry.Decodable := by
    intro entry hentry
    refine hentries entry ?_
    rw [hlog]
    exact List.mem_append_left rest hentry
  obtain ⟨t, happly, ht⟩ := apply_run g hdone m
  obtain ⟨membership', hread⟩ := hr.recoverable.membership
  have hkeys : ∀ cf key, (∀ entry ∈ r.handed, entry ∈ rest → ∀ op ∈ entryWrites g entry,
      op.update.1 ≠ (cf, key)) → r.machine.storage.get cf key = t.storage.get cf key := by
    intro cf key huntouched
    rw [ht]
    exact hr.recoverable.get_eq huntouched
  refine ⟨r, done, rest, _, t, hrun, hlog, ⟨membership', _, appliedState_run
    (hr.recoverable.readApplied_eq hposition) hread⟩, happly, hkeys, ?_⟩
  intro hcaught cf key
  refine hkeys cf key fun entry hhanded hrest => ?_
  -- an entry is not both done and due
  have hdistinct := (List.pairwise_append.mp (hlog ▸ hascending)).2.2 entry
    (hcaught entry hhanded) entry hrest
  exact absurd hdistinct (lt_irrefl _)

end Writes

namespace Witness

/-- A batch torn after two writes, one entry of it done, the next two torn again, then all. -/
theorem applyBatch_recovers :
    ∃ r done rest responses t,
      runReplica .dataRaft applyBatch [.crash 5 2, .apply 1, .crash 2 1, .apply 5]
          ⟨.new .new, none, []⟩ = some r ∧ applyBatch = done ++ rest ∧
      (RocksDBStateMachine.apply .dataRaft done).run (.new .new) = .ok responses t := by
  obtain ⟨s, hs, -⟩ := reopen_of_openable (s := .new) (fun g => logKeysOnly_new g.logCf)
    fun g => Or.inr fun key => Storage.get_new g.logCf key
  have hposition : readApplied .dataRaft Storage.new = .ok none := by
    rw [readApplied, Storage.get_new]
  obtain ⟨r, done, rest, responses, t, hrun, hlog, -, happly, -⟩ :=
    replica_recovers .dataRaft applyBatch applyBatch_ascending applyBatch_decodable (.new .new)
      none hposition (by simp) ⟨_, readMembership_new⟩ ⟨s, hs⟩
      [.crash 5 2, .apply 1, .crash 2 1, .apply 5]
  exact ⟨r, done, rest, responses, t, hrun, hlog, happly⟩

end Witness

end Seshat
