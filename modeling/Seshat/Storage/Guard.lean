/-
The guard of the in-memory state machine over whole runs.  A batch is applied up to the
first entry that is refused, and what was applied stays; so every operation takes effect at
most once, in the order of the log, whatever is handed over and however often.  The price is
that a batch which failed once fails for good: on the way again it stops at its first
operation.
-/
import Seshat.Storage.Snapshots

namespace Seshat

open Decimal

section Admission

variable [Bincode Operation]

namespace Entry

def accepted (entry : Entry) (sm : StateMachine) : Bool :=
  match entry.payload with
  | .normal request =>
      sm.lastApplied < entry.logId.index && (Operation.deserialize request.operationBytes).isOk
  | _ => true

theorem accepted_iff {entry : Entry} {sm : StateMachine} :
    entry.accepted sm = true ↔ entry.Accepted sm := by
  obtain ⟨id, payload⟩ := entry
  cases payload with
  | blank => simp [accepted, Accepted]
  | membership membership => simp [accepted, Accepted]
  | normal request =>
      cases hop : Operation.deserialize request.operationBytes <;>
        simp [accepted, Accepted, hop, Except.isOk, Except.toBool]

instance (entry : Entry) (sm : StateMachine) : Decidable (entry.Accepted sm) :=
  decidable_of_iff (entry.accepted sm = true) accepted_iff

end Entry

/-- The entries of a batch up to the first one that is refused. -/
def admitted : StateMachine → List Entry → List Entry
  | _, [] => []
  | sm, entry :: entries =>
      if entry.Accepted sm then entry :: admitted (entry.advance sm) entries else []

theorem admitted_sublist (sm : StateMachine) (entries : List Entry) :
    (admitted sm entries).Sublist entries := by
  induction entries generalizing sm with
  | nil => exact List.Sublist.slnil
  | cons entry entries ih =>
      rw [admitted]
      split
      · exact (ih _).cons_cons entry
      · exact List.nil_sublist _

theorem allAccepted_admitted (sm : StateMachine) (entries : List Entry) :
    AllAccepted sm (admitted sm entries) := by
  induction entries generalizing sm with
  | nil => trivial
  | cons entry entries ih =>
      rw [admitted]
      split
      · exact ⟨‹_›, ih _⟩
      · trivial

theorem admitted_eq_self_iff {sm : StateMachine} {entries : List Entry} :
    admitted sm entries = entries ↔ AllAccepted sm entries := by
  constructor
  · intro h
    rw [← h]
    exact allAccepted_admitted sm entries
  · intro h
    induction entries generalizing sm with
    | nil => rfl
    | cons entry entries ih => rw [admitted, if_pos h.1, ih h.2]

theorem applyEntry_run_refused {entry : Entry} {m : OpenRaftMemStateMachine}
    (h : ¬ entry.Accepted m.sm) :
    ∃ e, (OpenRaftMemStateMachine.applyEntry entry).run m = .error e m := by
  obtain ⟨id, payload⟩ := entry
  cases payload with
  | blank => exact absurd (by simp [Entry.Accepted]) h
  | membership membership => exact absurd (by simp [Entry.Accepted]) h
  | normal request =>
      have hrefused : ¬ (m.sm.lastApplied < id.index ∧
          ∃ op, Operation.deserialize request.operationBytes = .ok op) := by
        intro hok
        refine h fun request' hrequest => ?_
        cases hrequest
        exact hok
      obtain ⟨e, he⟩ :=
        applyWithLogId_run_error id.leaderId.term id.leaderId.nodeId hrefused
      exact ⟨_, by simp [OpenRaftMemStateMachine.applyEntry, he]; rfl⟩

/-- A batch with a refused entry fails there; what came before stays. -/
theorem applyEntries_run_refused {entries : List Entry} {m : OpenRaftMemStateMachine}
    (h : ¬ AllAccepted m.sm entries) :
    ∃ e, (OpenRaftMemStateMachine.applyEntries entries).run m =
      .error e { m with sm := (admitted m.sm entries).foldl Entry.advance m.sm } := by
  induction entries generalizing m with
  | nil => exact absurd trivial h
  | cons entry entries ih =>
      by_cases hentry : entry.Accepted m.sm
      · have hrest : ¬ AllAccepted (entry.advance m.sm) entries := fun hrest => h ⟨hentry, hrest⟩
        obtain ⟨e, he⟩ := ih (m := { m with sm := entry.advance m.sm }) hrest
        refine ⟨e, ?_⟩
        rw [admitted, if_pos hentry, List.foldl_cons]
        simp [OpenRaftMemStateMachine.applyEntries, applyEntry_run_accepted hentry, he]
      · obtain ⟨e, he⟩ := applyEntry_run_refused hentry
        refine ⟨e, ?_⟩
        rw [admitted, if_neg hentry]
        simp [OpenRaftMemStateMachine.applyEntries, he]

theorem apply_run_refused {entries : List Entry} {m : OpenRaftMemStateMachine}
    (h : ¬ AllAccepted m.sm entries) :
    ∃ e, (OpenRaftMemStateMachine.apply entries).run m =
      .error e { m with sm := (admitted m.sm entries).foldl Entry.advance m.sm } := by
  obtain ⟨e, he⟩ := applyEntries_run_refused h
  exact ⟨e, by simp [OpenRaftMemStateMachine.apply, he]⟩

/-! ## At most once -/

theorem accepted_operation {entry : Entry} {sm : StateMachine} (h : entry.Accepted sm) :
    (entry.isNormal = false ∧ entry.advance sm = sm) ∨
      (entry.isNormal = true ∧ sm.lastApplied < entry.logId.index ∧
        (entry.advance sm).lastApplied = entry.logId.index) := by
  obtain ⟨id, payload⟩ := entry
  cases payload with
  | blank => exact Or.inl ⟨rfl, rfl⟩
  | membership membership => exact Or.inl ⟨rfl, rfl⟩
  | normal request =>
      obtain ⟨hindex, op, hop⟩ := h request rfl
      exact Or.inr ⟨rfl, hindex, by simp [Entry.advance, Entry.operation?_normal id hop]⟩

/-- Accepted operations come at growing indices behind the position. -/
theorem AllAccepted.growing {entries : List Entry} {sm : StateMachine}
    (h : AllAccepted sm entries) :
    (normalIds entries).Pairwise (fun a b => a.index < b.index) ∧
      ∀ id ∈ normalIds entries, sm.lastApplied < id.index := by
  induction entries generalizing sm with
  | nil => exact ⟨List.Pairwise.nil, by simp [normalIds]⟩
  | cons entry entries ih =>
      obtain ⟨hentry, hrest⟩ := h
      obtain ⟨hincreasing, hbehind⟩ := ih hrest
      rcases accepted_operation hentry with ⟨hnormal, hadvance⟩ | ⟨hnormal, hindex, hadvance⟩
      · have hids : normalIds (entry :: entries) = normalIds entries := by
          simp [normalIds, hnormal]
        rw [hids, ← hadvance]
        exact ⟨hincreasing, hbehind⟩
      · have hids : normalIds (entry :: entries) = entry.logId :: normalIds entries := by
          simp [normalIds, hnormal]
        rw [hadvance] at hbehind
        rw [hids]
        refine ⟨List.pairwise_cons.mpr ⟨hbehind, hincreasing⟩, ?_⟩
        rw [List.forall_mem_cons]
        exact ⟨hindex, fun id hid => UInt64.lt_trans hindex (hbehind id hid)⟩

variable [Bincode StateMachineImage]

def MemCall.entries : MemCall → List Entry
  | apply entries => entries
  | installSnapshot _ _ => []

theorem sm_step_apply (m : OpenRaftMemStateMachine) (entries : List Entry) :
    (MemCall.step m (.apply entries)).sm =
      (admitted m.sm entries).foldl Entry.advance m.sm := by
  by_cases h : AllAccepted m.sm entries
  · rw [admitted_eq_self_iff.mpr h]
    simp [MemCall.step, MemCall.call, apply_run_accepted h, leaves, afterBatch]
  · obtain ⟨e, he⟩ := apply_run_refused h
    simp [MemCall.step, MemCall.call, he, leaves]

omit [Bincode Operation] in
/-- The state machine of a snapshot. -/
def StateMachineImage.restored (image : StateMachineImage) : StateMachine :=
  ⟨.ofList image.data, image.lastApplied, image.lastAppliedLog⟩

theorem sm_step_installSnapshot (m : OpenRaftMemStateMachine) (snapshotMeta : SnapshotMeta)
    (snapshot : Bytes) :
    (∃ image : StateMachineImage, Bincode.deserialize snapshot = .ok image ∧
        (MemCall.step m (.installSnapshot snapshotMeta snapshot)).sm = image.restored) ∨
      (∃ e, (Bincode.deserialize snapshot : Except Bytes StateMachineImage) = .error e) ∧
        (MemCall.step m (.installSnapshot snapshotMeta snapshot)).sm = m.sm := by
  cases himage : (Bincode.deserialize snapshot : Except Bytes StateMachineImage) with
  | error e =>
      refine Or.inr ⟨⟨e, rfl⟩, ?_⟩
      simp [MemCall.step, MemCall.call, OpenRaftMemStateMachine.installSnapshot,
        StateMachine.restore, himage, leaves]
  | ok image =>
      refine Or.inl ⟨image, rfl, ?_⟩
      simp [MemCall.step, MemCall.call, OpenRaftMemStateMachine.installSnapshot,
        StateMachine.restore, himage, leaves, StateMachineImage.restored]

/-- Where the calls that count begin: at the new machine, or behind the last snapshot that
could be read. -/
structure StartsAt (calls later : List MemCall) (base : StateMachine) : Prop where
  base_eq : (later = calls ∧ base = .new) ∨
    ∃ (before : List MemCall) (snapshotMeta : SnapshotMeta) (snapshot : Bytes)
      (image : StateMachineImage),
      calls = before ++ .installSnapshot snapshotMeta snapshot :: later ∧
        Bincode.deserialize snapshot = .ok image ∧ base = image.restored
  unread : ∀ snapshotMeta snapshot, .installSnapshot snapshotMeta snapshot ∈ later →
    ∃ e, (Bincode.deserialize snapshot : Except Bytes StateMachineImage) = .error e

omit [Bincode Operation] in
theorem StartsAt.append {calls later : List MemCall} {base : StateMachine}
    (h : StartsAt calls later base) {c : MemCall}
    (hc : ∀ snapshotMeta snapshot, c = .installSnapshot snapshotMeta snapshot →
      ∃ e, (Bincode.deserialize snapshot : Except Bytes StateMachineImage) = .error e) :
    StartsAt (calls ++ [c]) (later ++ [c]) base where
  base_eq := by
    rcases h.base_eq with ⟨rfl, rfl⟩ | ⟨before, snapshotMeta, snapshot, image, rfl, hread⟩
    · exact Or.inl ⟨rfl, rfl⟩
    · exact Or.inr ⟨before, snapshotMeta, snapshot, image, by simp, hread⟩
  unread snapshotMeta snapshot hmem := by
    rcases List.mem_append.mp hmem with hmem | hmem
    · exact h.unread snapshotMeta snapshot hmem
    · exact hc snapshotMeta snapshot (List.mem_singleton.mp hmem).symm

/-- At most once: after any calls, failed ones and repeated ones included, the data is that
of the start or of the last snapshot read with some of the entries handed over since, in the
order they came and each at an index above all before it. -/
theorem memory_applies_at_most_once (calls : List MemCall) :
    ∃ later base effective, StartsAt calls later base ∧
      effective.Sublist (later.flatMap MemCall.entries) ∧
      (normalIds effective).Pairwise (fun a b => a.index < b.index) ∧
      (∀ id ∈ normalIds effective, base.lastApplied < id.index) ∧
      (calls.foldl MemCall.step .new).sm.data =
        (operations effective).foldl (fun data op => (op.apply data).2) base.data ∧
      (calls.foldl MemCall.step .new).sm.lastApplied =
        ((normalIds effective).getLast?.map LogId.index).getD base.lastApplied := by
  have hgeneral : ∃ later base effective, StartsAt calls later base ∧
      effective.Sublist (later.flatMap MemCall.entries) ∧ AllAccepted base effective ∧
      (calls.foldl MemCall.step .new).sm = effective.foldl Entry.advance base := by
    induction calls using List.reverseRecOn with
    | nil =>
        exact ⟨[], .new, [], ⟨Or.inl ⟨rfl, rfl⟩, by simp⟩, List.Sublist.slnil, trivial, rfl⟩
    | append_singleton calls c ih =>
        obtain ⟨later, base, effective, hstart, hsub, haccepted, hsm⟩ := ih
        rw [List.foldl_append, List.foldl_cons, List.foldl_nil]
        generalize calls.foldl MemCall.step .new = m at hsm
        cases c with
        | apply entries =>
            refine ⟨later ++ [.apply entries], base, effective ++ admitted m.sm entries,
              hstart.append (by simp), ?_, ?_, ?_⟩
            · rw [List.flatMap_append, List.flatMap_singleton]
              exact hsub.append (admitted_sublist m.sm entries)
            · rw [allAccepted_append, ← hsm]
              exact ⟨haccepted, allAccepted_admitted m.sm entries⟩
            · rw [sm_step_apply, List.foldl_append, ← hsm]
        | installSnapshot snapshotMeta snapshot =>
            rcases sm_step_installSnapshot m snapshotMeta snapshot with
              ⟨image, hread, hrestored⟩ | ⟨⟨e, hread⟩, hsame⟩
            · refine ⟨[], image.restored, [], ⟨Or.inr ⟨calls, snapshotMeta, snapshot, image,
                rfl, hread, rfl⟩, by simp⟩, List.Sublist.slnil, trivial, hrestored⟩
            · refine ⟨later ++ [.installSnapshot snapshotMeta snapshot], base, effective,
                hstart.append ?_, ?_, haccepted, hsame.trans hsm⟩
              · rintro _ _ heq
                cases heq
                exact ⟨e, hread⟩
              · simpa [MemCall.entries] using hsub
  obtain ⟨later, base, effective, hstart, hsub, haccepted, hsm⟩ := hgeneral
  obtain ⟨hincreasing, hbehind⟩ := haccepted.growing
  refine ⟨later, base, effective, hstart, hsub, hincreasing, hbehind, ?_, ?_⟩
  · rw [hsm, data_foldl_advance]
  · rw [hsm]
    exact (position_foldl_advance (decodable_of_allAccepted haccepted) base).1

/-! ## A failed batch -/

/-- The first operation of the batch is refused. -/
def Stuck (sm : StateMachine) (batch : List Entry) : Prop :=
  ∃ quiet entry rest, batch = quiet ++ entry :: rest ∧
    (∀ e ∈ quiet, e.isNormal = false) ∧ ¬ entry.Accepted sm

omit [Bincode StateMachineImage]

theorem lastApplied_le_advance {entries : List Entry} {sm : StateMachine}
    (h : AllAccepted sm entries) :
    sm.lastApplied ≤ (entries.foldl Entry.advance sm).lastApplied := by
  induction entries generalizing sm with
  | nil => exact UInt64.le_refl _
  | cons entry entries ih =>
      refine UInt64.le_trans ?_ (ih h.2)
      rcases accepted_operation h.1 with ⟨-, hadvance⟩ | ⟨-, hindex, hadvance⟩
      · rw [hadvance]
        exact UInt64.le_refl _
      · rw [hadvance]
        exact UInt64.le_of_lt hindex

/-- Whoever refuses an entry keeps refusing it further on. -/
theorem not_accepted_of_le {entry : Entry} {sm sm' : StateMachine}
    (h : ¬ entry.Accepted sm) (hle : sm.lastApplied ≤ sm'.lastApplied) :
    ¬ entry.Accepted sm' := by
  intro haccepted
  refine h fun request hrequest => ?_
  obtain ⟨hindex, hop⟩ := haccepted request hrequest
  exact ⟨UInt64.lt_of_le_of_lt hle hindex, hop⟩

theorem Stuck.of_le {batch : List Entry} {sm sm' : StateMachine} (h : Stuck sm batch)
    (hle : sm.lastApplied ≤ sm'.lastApplied) : Stuck sm' batch := by
  obtain ⟨quiet, entry, rest, hbatch, hquiet, hentry⟩ := h
  exact ⟨quiet, entry, rest, hbatch, hquiet, not_accepted_of_le hentry hle⟩

/-- A batch that failed is stuck: its first operation was refused, or is behind by now. -/
theorem stuck_of_refused {batch : List Entry} {sm : StateMachine}
    (h : ¬ AllAccepted sm batch) :
    Stuck ((admitted sm batch).foldl Entry.advance sm) batch := by
  induction batch generalizing sm with
  | nil => exact absurd trivial h
  | cons entry entries ih =>
      by_cases hentry : entry.Accepted sm
      · have hrest : ¬ AllAccepted (entry.advance sm) entries := fun hrest => h ⟨hentry, hrest⟩
        rw [admitted, if_pos hentry, List.foldl_cons]
        rcases accepted_operation hentry with ⟨hnormal, -⟩ | ⟨hnormal, -, hadvance⟩
        · obtain ⟨quiet, refused, rest, hentries, hquiet, hrefused⟩ := ih hrest
          refine ⟨entry :: quiet, refused, rest, by rw [hentries, List.cons_append], ?_, hrefused⟩
          rw [List.forall_mem_cons]
          exact ⟨hnormal, hquiet⟩
        · refine ⟨[], entry, entries, rfl, by simp, fun haccepted => ?_⟩
          -- the machine is at this entry already, or further on
          have hle := lastApplied_le_advance
            (allAccepted_admitted (entry.advance sm) entries)
          rw [hadvance] at hle
          rcases accepted_operation haccepted with ⟨hquiet, -⟩ | ⟨-, hindex, -⟩
          · rw [hnormal] at hquiet
            contradiction
          · exact absurd (UInt64.lt_of_lt_of_le hindex hle) (UInt64.lt_irrefl _)
      · rw [admitted, if_neg hentry]
        exact ⟨[], entry, entries, rfl, by simp, hentry⟩

theorem accepted_of_quiet {entry : Entry} (h : entry.isNormal = false) (sm : StateMachine) :
    entry.Accepted sm := by
  intro request hrequest
  simp [Entry.isNormal, hrequest] at h

/-- A stuck batch fails and changes nothing. -/
theorem Stuck.apply_run {batch : List Entry} {m : OpenRaftMemStateMachine}
    (h : Stuck m.sm batch) :
    ∃ e, (OpenRaftMemStateMachine.apply batch).run m = .error e m := by
  obtain ⟨quiet, entry, rest, rfl, hquiet, hentry⟩ := h
  have hstays : ∀ quiet : List Entry, (∀ e ∈ quiet, e.isNormal = false) →
      ¬ AllAccepted m.sm (quiet ++ entry :: rest) ∧
        (admitted m.sm (quiet ++ entry :: rest)).foldl Entry.advance m.sm = m.sm := by
    intro quiet hquiet
    induction quiet with
    | nil =>
        rw [List.nil_append, admitted, if_neg hentry]
        exact ⟨fun h => hentry h.1, rfl⟩
    | cons e quiet ih =>
        rw [List.forall_mem_cons] at hquiet
        have haccepted := accepted_of_quiet hquiet.1 m.sm
        have hadvance : e.advance m.sm = m.sm := by
          rcases accepted_operation haccepted with ⟨-, hadvance⟩ | ⟨hnormal, -⟩
          · exact hadvance
          · rw [hquiet.1] at hnormal
            contradiction
        obtain ⟨hrefused, hsame⟩ := ih hquiet.2
        rw [List.cons_append, admitted, if_pos haccepted, List.foldl_cons, hadvance]
        refine ⟨fun h => hrefused ?_, hsame⟩
        rw [← hadvance]
        exact h.2
  obtain ⟨hrefused, hsame⟩ := hstays quiet hquiet
  obtain ⟨e, he⟩ := apply_run_refused hrefused
  rw [hsame] at he
  exact ⟨e, he⟩

/-- The machine behind batches, whether or not they were applied as a whole. -/
def afterAttempts (m : OpenRaftMemStateMachine) (batches : List (List Entry)) :
    OpenRaftMemStateMachine :=
  batches.foldl (fun m batch => leaves ((OpenRaftMemStateMachine.apply batch).run m)) m

theorem lastApplied_le_attempt (m : OpenRaftMemStateMachine) (batch : List Entry) :
    m.sm.lastApplied ≤ (leaves ((OpenRaftMemStateMachine.apply batch).run m)).sm.lastApplied := by
  by_cases h : AllAccepted m.sm batch
  · rw [apply_run_accepted h]
    exact lastApplied_le_advance h
  · obtain ⟨e, he⟩ := apply_run_refused h
    rw [he]
    exact lastApplied_le_advance (allAccepted_admitted m.sm batch)

theorem lastApplied_le_attempts (m : OpenRaftMemStateMachine) (batches : List (List Entry)) :
    m.sm.lastApplied ≤ (afterAttempts m batches).sm.lastApplied := by
  induction batches generalizing m with
  | nil => exact UInt64.le_refl _
  | cons batch batches ih =>
      exact UInt64.le_trans (lastApplied_le_attempt m batch) (ih _)

/-- A batch that failed on a machine fails whenever it is tried again, whatever is applied
in between, and trying it changes nothing. -/
theorem memory_failed_batch_stays_failed {batch : List Entry} {m m' : OpenRaftMemStateMachine}
    {e : Failure} (hfail : (OpenRaftMemStateMachine.apply batch).run m = .error e m')
    (batches : List (List Entry)) :
    ∃ e', (OpenRaftMemStateMachine.apply batch).run (afterAttempts m' batches) =
      .error e' (afterAttempts m' batches) := by
  have hrefused : ¬ AllAccepted m.sm batch := by
    intro haccepted
    rw [apply_run_accepted haccepted] at hfail
    contradiction
  obtain ⟨e', he'⟩ := apply_run_refused hrefused
  rw [he'] at hfail
  cases hfail
  have hle := lastApplied_le_attempts
    { m with sm := (admitted m.sm batch).foldl Entry.advance m.sm } batches
  exact ((stuck_of_refused hrefused).of_le hle).apply_run

end Admission

namespace Witness

/-- A key is set and the membership changed; then an operation that is cut short. -/
def tornBatch : List Entry :=
  [operationEntry 1 1 1 (.set (ascii "a") (ascii "1")), ⟨⟨⟨1, 1⟩, 2⟩, .membership .default⟩,
    ⟨⟨⟨1, 1⟩, 3⟩, .normal ⟨[]⟩⟩]

/-- The key stays, the membership is never taken. -/
theorem tornBatch_stays_failed :
    ∃ e m', (OpenRaftMemStateMachine.apply tornBatch).run .new = .error e m' ∧
      m'.sm.get (ascii "a") = some (ascii "1") ∧ m'.appliedState.2 = .default ∧
      ∃ e', (OpenRaftMemStateMachine.apply tornBatch).run (afterAttempts m' [applyBatch]) =
        .error e' (afterAttempts m' [applyBatch]) := by
  have hrefused : ¬ AllAccepted .new tornBatch := by
    rw [← admitted_eq_self_iff]
    decide
  obtain ⟨e, he⟩ := apply_run_refused (m := .new) hrefused
  exact ⟨e, _, he, by decide, rfl, memory_failed_batch_stays_failed he [applyBatch]⟩

end Witness

end Seshat
