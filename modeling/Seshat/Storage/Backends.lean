/-
The two state machines side by side.  Batch by batch they keep the same data, but the
database answers every operation alike, where the in-memory machine tells whether a
deleted key was there; and only the database records the position of an entry without
an operation.
-/
import Seshat.Storage.Replay

namespace Seshat

open Decimal Keyed

namespace Entry

variable [Bincode Operation]

/-- The entry deletes a key. -/
def deletes (entry : Entry) : Bool :=
  match entry.operation? with
  | some (.del _) => true
  | _ => false

/-- The answers to an entry are the same unless it deletes. -/
theorem response_eq_acknowledged_iff {entry : Entry} (hentry : entry.Decodable) (data : Data) :
    entry.response data = entry.acknowledged ↔ entry.deletes = false := by
  obtain ⟨id, payload⟩ := entry
  cases payload with
  | blank => simp [response, acknowledged, deletes, operation?]
  | membership membership => simp [response, acknowledged, deletes, operation?]
  | normal request =>
      obtain ⟨op, hop⟩ := hentry request rfl
      have hoperation := operation?_normal id hop
      cases op with
      | set key value =>
          simp [response, acknowledged, deletes, hoperation, Operation.apply]
      | del key =>
          simp only [response, acknowledged, deletes, hoperation, Operation.apply]
          split <;> decide

end Entry

section Database

variable [MembershipApi] [Prost LogIdMessage] [Prost MembershipMessage] [Bincode Operation]

theorem applyBatches_run (g : RaftGroup) {batches : List (List Entry)}
    (hentries : ∀ entry ∈ batches.flatten, entry.Decodable) (r : RocksDBStateMachine) :
    ∃ r', (applyBatches (RocksDBStateMachine.apply g) batches).run r =
        .ok (batches.map fun batch => batch.map Entry.acknowledged) r' ∧
      r'.storage = r.storage.write (batches.flatMap (applyWrites g)) := by
  induction batches generalizing r with
  | nil => exact ⟨r, rfl, rfl⟩
  | cons batch batches ih =>
      rw [List.flatten_cons] at hentries
      obtain ⟨t, hrun, ht⟩ :=
        apply_run g (fun e he => hentries e (List.mem_append_left batches.flatten he)) r
      obtain ⟨u, hrest, hu⟩ := ih (fun e he => hentries e (List.mem_append_right batch he)) t
      refine ⟨u, ?_, ?_⟩
      · simp [applyBatches, hrun, hrest]
      · rw [hu, ht, List.flatMap_cons, Storage.write_append]

/-- The data of both machines. -/
def SameData (data : Data) (s : Storage) : Prop :=
  ∀ key, data[key]? = s.get .dataKv key

omit [MembershipApi] [Prost LogIdMessage] [Prost MembershipMessage] [Bincode Operation] in
theorem sameData_new : SameData ∅ .new := by
  intro key
  rw [Storage.get_new]
  exact Std.ExtTreeMap.getElem?_empty

omit [Prost LogIdMessage] in
theorem SameData.advance {sm : StateMachine} {s : Storage} (h : SameData sm.data s)
    {entry : Entry} (hentry : entry.Decodable) :
    SameData (entry.advance sm).data (s.write (entryWrites .dataRaft entry)) := by
  obtain ⟨id, payload⟩ := entry
  cases payload with
  | blank => exact h
  | membership membership =>
      intro key
      refine (h key).trans (Storage.get_write_of_ne ?_ s key).symm
      simp [entryWrites, BatchOperation.update, RaftGroup.stateCf]
  | normal request =>
      obtain ⟨op, hop⟩ := hentry request rfl
      have hoperation := Entry.operation?_normal id hop
      intro key
      have hbefore := h key
      cases op with
      | set key' value =>
          simp only [Entry.advance, hoperation, Operation.apply, entryWrites, RaftGroup.kvCf,
            hop, Storage.write, List.foldl_cons, List.foldl_nil, Storage.get_apply_put,
            Std.ExtTreeMap.getElem?_insert]
          by_cases hkey : key' = key
          · simp [hkey]
          · simp [hkey, Ne.symm hkey, hbefore]
      | del key' =>
          simp only [Entry.advance, hoperation, Operation.apply, entryWrites, RaftGroup.kvCf,
            hop, Storage.write, List.foldl_cons, List.foldl_nil, Storage.get_apply_delete,
            Std.ExtTreeMap.getElem?_erase]
          by_cases hkey : key' = key
          · simp [hkey]
          · simp [hkey, Ne.symm hkey, hbefore]

omit [Prost LogIdMessage] in
theorem SameData.entries {entries : List Entry} (hentries : ∀ entry ∈ entries, entry.Decodable)
    {sm : StateMachine} {s : Storage} (h : SameData sm.data s) :
    SameData (entries.foldl Entry.advance sm).data
      (s.write (entries.flatMap (entryWrites .dataRaft))) := by
  induction entries generalizing sm s with
  | nil => exact h
  | cons entry entries ih =>
      rw [List.flatMap_cons, Storage.write_append]
      exact ih (fun e he => hentries e (List.mem_cons_of_mem entry he))
        (h.advance (hentries entry List.mem_cons_self))

/-- The applied log id goes to a column family of its own. -/
theorem SameData.batch {entries : List Entry} (hentries : ∀ entry ∈ entries, entry.Decodable)
    {sm : StateMachine} {s : Storage} (h : SameData sm.data s) :
    SameData (entries.foldl Entry.advance sm).data (s.write (applyWrites .dataRaft entries)) := by
  intro key
  rw [applyWrites, Storage.write_append, SameData.entries hentries h key]
  refine (Storage.get_write_of_ne ?_ _ key).symm
  intro op hop
  obtain ⟨entry, -, rfl⟩ := Option.map_eq_some_iff.mp (Option.mem_toList.mp hop)
  exact (by decide : RaftGroup.dataRaft.stateCf ≠ .dataKv)

theorem SameData.batches {batches : List (List Entry)}
    (hentries : ∀ entry ∈ batches.flatten, entry.Decodable) {sm : StateMachine} {s : Storage}
    (h : SameData sm.data s) :
    SameData (batches.flatten.foldl Entry.advance sm).data
      (s.write (batches.flatMap (applyWrites .dataRaft))) := by
  induction batches generalizing sm s with
  | nil => exact h
  | cons batch batches ih =>
      rw [List.flatten_cons] at hentries ⊢
      rw [List.foldl_append, List.flatMap_cons, Storage.write_append]
      exact ih (fun e he => hentries e (List.mem_append_right batch he))
        (h.batch fun e he => hentries e (List.mem_append_left batches.flatten he))

omit [MembershipApi] [Prost LogIdMessage] [Prost MembershipMessage] in
theorem responses_eq_acknowledged_iff {entries : List Entry}
    (hentries : ∀ entry ∈ entries, entry.Decodable) (sm : StateMachine) :
    responses sm entries = entries.map Entry.acknowledged ↔
      ∀ entry ∈ entries, entry.deletes = false := by
  induction entries generalizing sm with
  | nil => simp [responses]
  | cons entry entries ih =>
      have hrest := ih (fun e he => hentries e (List.mem_cons_of_mem entry he))
        (entry.advance sm)
      rw [responses, List.map_cons, List.cons.injEq, hrest,
        Entry.response_eq_acknowledged_iff (hentries entry List.mem_cons_self),
        List.forall_mem_cons]

/-- Applied from empty, the machines answer every batch alike and end with the same
data. -/
def BackendsAgree (batches : List (List Entry)) : Prop :=
  ∃ rss m r, (applyBatches OpenRaftMemStateMachine.apply batches).run .new = .ok rss m ∧
    (applyBatches (RocksDBStateMachine.apply .dataRaft) batches).run (.new .new) = .ok rss r ∧
    ∀ key, m.sm.get key = r.storage.get .dataKv key

/-- For all batches of a log the machines end with the same data, and they answer alike
exactly when no entry deletes a key. -/
theorem backends_agree_iff (batches : List (List Entry)) (hascending : Ascending batches.flatten)
    (hindex : ∀ entry ∈ batches.flatten, 1 ≤ entry.logId.index)
    (hentries : ∀ entry ∈ batches.flatten, entry.Decodable) :
    (∃ rss rss' m r,
      (applyBatches OpenRaftMemStateMachine.apply batches).run .new = .ok rss m ∧
        (applyBatches (RocksDBStateMachine.apply .dataRaft) batches).run (.new .new) =
          .ok rss' r ∧
        ∀ key, m.sm.get key = r.storage.get .dataKv key) ∧
      (BackendsAgree batches ↔ ∀ entry ∈ batches.flatten, entry.deletes = false) := by
  have haccepted := allAccepted_new hascending hindex hentries
  obtain ⟨rss, hmem, hlength, hflatten⟩ := applyBatches_run_accepted (m := .new) haccepted
  obtain ⟨r, hrocks, hr⟩ := applyBatches_run .dataRaft hentries (.new .new)
  have hdata : ∀ key, (afterBatch .new batches.flatten).sm.get key =
      r.storage.get .dataKv key := by
    rw [hr]
    exact sameData_new.batches hentries
  refine ⟨⟨rss, _, _, r, hmem, hrocks, hdata⟩, ?_⟩
  have hanswers : rss = batches.map (fun batch => batch.map Entry.acknowledged) ↔
      ∀ entry ∈ batches.flatten, entry.deletes = false := by
    rw [List.eq_iff_flatten_eq, hflatten, ← List.map_flatten,
      responses_eq_acknowledged_iff hentries, hlength]
    simp [Function.comp_def]
  rw [← hanswers]
  constructor
  · rintro ⟨rss', m', r', hmem', hrocks', -⟩
    rw [hmem] at hmem'
    rw [hrocks] at hrocks'
    cases hmem'
    cases hrocks'
    rfl
  · intro heq
    exact ⟨rss, _, r, hmem, heq ▸ hrocks, hdata⟩

/-- What is read back of a membership that was recorded. -/
def recorded (stored : StoredMembership) : Except Failure StoredMembership :=
  .ok (MembershipMessage.fromMembership stored).toMembership

omit [Prost LogIdMessage] in
theorem readMembership_entryWrites (g : RaftGroup) (entry : Entry) (s : Storage) :
    readMembership g (s.write (entryWrites g entry)) =
      (entry.membership?.map recorded).getD (readMembership g s) := by
  obtain ⟨id, payload⟩ := entry
  cases payload with
  | blank => rfl
  | membership membership =>
      simp [entryWrites, Storage.write, readMembership, Storage.get_apply_put, recorded,
        Entry.membership?]
  | normal request =>
      have hsame : (s.write (entryWrites g ⟨id, .normal request⟩)).get g.stateCf membershipKey =
          s.get g.stateCf membershipKey := by
        refine Storage.get_write_of_ne (fun op hop hcf => ?_) s membershipKey
        have hkv := entryWrites_normal_cf hop
        rw [hcf] at hkv
        revert hkv
        cases g <;> decide
      rw [readMembership, hsame]
      rfl

omit [Prost LogIdMessage] in
theorem readMembership_entries (g : RaftGroup) (entries : List Entry) (s : Storage) :
    readMembership g (s.write (entries.flatMap (entryWrites g))) =
      ((memberships entries).getLast?.map recorded).getD (readMembership g s) := by
  induction entries using List.reverseRecOn with
  | nil => rfl
  | append_singleton entries entry ih =>
      rw [List.flatMap_append, Storage.write_append, List.flatMap_singleton,
        readMembership_entryWrites, ih]
      simp only [memberships, List.filterMap_append]
      cases hmembership : entry.membership? <;> simp [hmembership]

omit [Bincode Operation] in
theorem appliedState_run {g : RaftGroup} {m : RocksDBStateMachine} {applied : Option LogId}
    {membership : StoredMembership} (happlied : readApplied g m.storage = .ok applied)
    (hmembership : readMembership g m.storage = .ok membership) :
    (RocksDBStateMachine.appliedState g).run m = .ok (applied, membership)
      { m with cachedApplied := applied, cachedMembership := membership } := by
  simp only [RocksDBStateMachine.appliedState, EStateM.run_bind, EStateM.run_get, happlied,
    hmembership]
  rfl

/-- The database reports the last entry of a batch, whatever it carries. -/
theorem rocks_appliedState (g : RaftGroup) {batch : List Entry} {last : Entry}
    (hlast : batch.getLast? = some last) (hentries : ∀ entry ∈ batch, entry.Decodable)
    {r : RocksDBStateMachine} {membership : StoredMembership}
    (hreadable : readMembership g r.storage = .ok membership) :
    ∃ rs r' membership' t, (RocksDBStateMachine.apply g batch).run r = .ok rs r' ∧
      (RocksDBStateMachine.appliedState g).run r' = .ok (some last.logId, membership') t := by
  obtain ⟨r', hrun, hr'⟩ := apply_run g hentries r
  have happlied : readApplied g r'.storage = .ok (some last.logId) := by
    rw [hr', applyWrites, positionWrite, hlast, Storage.write_append]
    simp [readApplied, Storage.write, Storage.get_apply_put]
  have hmembership : ∃ membership', readMembership g r'.storage = .ok membership' := by
    have hkey : membershipKey ≠ appliedKey := by decide
    have hsame : readMembership g r'.storage =
        readMembership g (r.storage.write (batch.flatMap (entryWrites g))) := by
      rw [hr', applyWrites, positionWrite, hlast, Storage.write_append]
      simp [readMembership, Storage.write, Storage.get_apply_put, hkey]
    rw [hsame, readMembership_entries, hreadable]
    cases (memberships batch).getLast? with
    | none => exact ⟨membership, rfl⟩
    | some stored => exact ⟨_, rfl⟩
  obtain ⟨membership', hmembership⟩ := hmembership
  exact ⟨_, r', membership', _, hrun, appliedState_run happlied hmembership⟩

/-- Where a batch the in-memory machine accepted ends, the position it reports is that of
the last entry exactly if this is a normal one, or the position reached before carries
its log id already.  The database reports the last entry of the same batch. -/
theorem memory_position_iff {batch : List Entry} {last : Entry}
    (hlast : batch.getLast? = some last) {m m' : OpenRaftMemStateMachine} {rs : List Response}
    (hrun : (OpenRaftMemStateMachine.apply batch).run m = .ok rs m') :
    (m'.appliedState.1 = some last.logId ↔
      last.isNormal ∨ (normalIds batch).getLast?.or m.appliedState.1 = some last.logId) ∧
    ∀ g r membership, readMembership g r.storage = .ok membership →
      ∃ rs' r' membership' t, (RocksDBStateMachine.apply g batch).run r = .ok rs' r' ∧
        (RocksDBStateMachine.appliedState g).run r' =
          .ok (some last.logId, membership') t := by
  obtain ⟨haccepted, -, rfl⟩ := apply_run_ok hrun
  have hentries := decodable_of_allAccepted haccepted
  have hposition := lastAppliedLogId_foldl_advance hentries m.sm
  refine ⟨?_, fun g r membership hr => rocks_appliedState g hlast hentries hr⟩
  have hnormal : last.isNormal → (normalIds batch).getLast? = some last.logId := by
    intro hnormal
    obtain ⟨before, rfl⟩ := List.getLast?_eq_some_iff.mp hlast
    simp [normalIds, hnormal]
  refine (Eq.congr hposition rfl).trans ⟨Or.inr, ?_⟩
  rintro (hlastNormal | hbefore)
  · rw [hnormal hlastNormal]
    rfl
  · exact hbefore

end Database

namespace Witness

/-- A key is deleted that is not there. -/
def deleteBatches : List (List Entry) := [[operationEntry 1 1 1 (.del (ascii "a"))]]

/-- The in-memory machine answers 0, the database OK. -/
theorem deleteBatches_disagree :
    Ascending deleteBatches.flatten ∧
      (∀ entry ∈ deleteBatches.flatten, 1 ≤ entry.logId.index) ∧
      (∀ entry ∈ deleteBatches.flatten, entry.Decodable) ∧ ¬ BackendsAgree deleteBatches := by
  refine ⟨by simp [Ascending, Increasing, deleteBatches], by decide, by decide, ?_⟩
  rintro ⟨rss, m, r, hmem, hrocks, -⟩
  have hzero : Except.ok rss = Except.ok [[⟨ascii "0"⟩]] := (congrArg returned hmem).symm
  have hok : Except.ok rss = Except.ok [[⟨ascii "OK"⟩]] := (congrArg returned hrocks).symm
  have heq := Except.ok.inj (hzero.symm.trans hok)
  revert heq
  decide

/-- Keys set in two batches, around a change of membership and a blank entry. -/
def setBatches : List (List Entry) :=
  [[operationEntry 1 1 1 (.set (ascii "a") (ascii "1")),
      ⟨⟨⟨1, 1⟩, 2⟩, .membership .default⟩],
    [⟨⟨⟨1, 1⟩, 3⟩, .blank⟩, operationEntry 1 1 4 (.set (ascii "a") (ascii "2"))]]

theorem setBatches_agree :
    Ascending setBatches.flatten ∧ (∀ entry ∈ setBatches.flatten, 1 ≤ entry.logId.index) ∧
      (∀ entry ∈ setBatches.flatten, entry.Decodable) ∧ BackendsAgree setBatches := by
  have hascending : Ascending setBatches.flatten := by
    simp [Ascending, Increasing, setBatches, operationEntry]
  have hindex : ∀ entry ∈ setBatches.flatten, 1 ≤ entry.logId.index := by decide
  have hentries : ∀ entry ∈ setBatches.flatten, entry.Decodable := by decide
  have hagree := (backends_agree_iff setBatches hascending hindex hentries).2
  exact ⟨hascending, hindex, hentries, hagree.mpr (by decide)⟩

/-- A leader's blank entry, alone. -/
def blankBatch : List Entry := [⟨⟨⟨1, 1⟩, 1⟩, .blank⟩]

theorem readMembership_new : readMembership .dataRaft .new = .ok .default := by
  rw [readMembership, Storage.get_new]

/-- The in-memory machine is still nowhere, the database is at the entry. -/
theorem blankBatch_position :
    blankBatch.getLast?.map Entry.logId = some ⟨⟨1, 1⟩, 1⟩ ∧
      ∃ rs m', (OpenRaftMemStateMachine.apply blankBatch).run .new = .ok rs m' ∧
        m'.appliedState.1 = none ∧
        ∃ rs' r' membership t,
          (RocksDBStateMachine.apply .dataRaft blankBatch).run (.new .new) = .ok rs' r' ∧
            (RocksDBStateMachine.appliedState .dataRaft).run r' =
              .ok (some ⟨⟨1, 1⟩, 1⟩, membership) t := by
  refine ⟨rfl, _, _, rfl, rfl, ?_⟩
  have hentries : ∀ entry ∈ blankBatch, entry.Decodable := by decide
  exact rocks_appliedState (r := .new .new) .dataRaft rfl hentries readMembership_new

/-- Behind a set key the position is that of its entry. -/
theorem applyBatch_position :
    ∃ rs m' rs' r' membership t,
      (OpenRaftMemStateMachine.apply applyBatch).run .new = .ok rs m' ∧
        m'.appliedState.1 = some ⟨⟨1, 1⟩, 5⟩ ∧
        (RocksDBStateMachine.apply .dataRaft applyBatch).run (.new .new) = .ok rs' r' ∧
        (RocksDBStateMachine.appliedState .dataRaft).run r' =
          .ok (some ⟨⟨1, 1⟩, 5⟩, membership) t := by
  have hrun := apply_run_accepted (m := .new)
    (allAccepted_new applyBatch_ascending (by decide) applyBatch_decodable)
  obtain ⟨hposition, hrocks⟩ := memory_position_iff rfl hrun
  obtain ⟨rs', r', membership, t, happly, hstate⟩ :=
    hrocks .dataRaft (.new .new) .default readMembership_new
  exact ⟨_, _, rs', r', membership, t, hrun, hposition.mpr (Or.inl rfl), happly, hstate⟩

end Witness

end Seshat
