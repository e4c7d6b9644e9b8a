/-
Snapshots of the in-memory state machine.  Their builder shares the key-value data and
the index it was brought to, and makes up the leader and the membership.  Installing one
replaces the state machine alone: membership and current snapshot stay as they were.
-/
import Seshat.Lib.Trace
import Seshat.Storage.Replay

namespace Seshat

open Decimal Footprint

/-- A position as the builder would make it up: the index without its leader. -/
def PlainPosition (lastApplied : UInt64) (lastAppliedLog : Option (UInt64 × UInt64)) : Prop :=
  lastAppliedLog = if lastApplied > 0 then some (0, 0) else none

/-- The calls that change the in-memory state machine. -/
inductive MemCall where
  | apply (entries : List Entry)
  | installSnapshot (snapshotMeta : SnapshotMeta) (snapshot : Bytes)

section Metadata

variable [Bincode Operation] [Bincode StateMachineImage]

/-- The metadata of a snapshot, whatever the order of its data, is the applied state. -/
def MetaAccurate (m : OpenRaftMemStateMachine) : Prop :=
  ∀ order, ((m.buildSnapshot order).snapshotMeta.lastLogId,
    (m.buildSnapshot order).snapshotMeta.lastMembership) = m.appliedState

namespace MemCall

def call : MemCall → MemMachineM Unit
  | apply entries => do
      let _ ← OpenRaftMemStateMachine.apply entries
  | installSnapshot snapshotMeta snapshot =>
      OpenRaftMemStateMachine.installSnapshot snapshotMeta snapshot

def step (m : OpenRaftMemStateMachine) (c : MemCall) : OpenRaftMemStateMachine :=
  leaves (c.call.run m)

def Succeeds (m : OpenRaftMemStateMachine) (c : MemCall) : Prop :=
  returned (c.call.run m) = .ok ()

/-- The call neither sets a membership nor moves to a position with a leader. -/
def KeepsMeta : MemCall → Prop
  | apply entries =>
      memberships entries = [] ∧ ∀ id ∈ (normalIds entries).getLast?, id.leaderId = ⟨0, 0⟩
  | installSnapshot _ snapshot =>
      ∀ image : StateMachineImage, Bincode.deserialize snapshot = .ok image →
        PlainPosition image.lastApplied image.lastAppliedLog

end MemCall

omit [Bincode Operation] in
theorem metaAccurate_iff {m : OpenRaftMemStateMachine} :
    MetaAccurate m ↔
      PlainPosition m.sm.lastApplied m.sm.lastAppliedLog ∧ m.membership = .default := by
  have hposition : (if m.sm.lastApplied > 0 then some ⟨⟨0, 0⟩, m.sm.lastApplied⟩ else none) =
      m.sm.lastAppliedLogId ↔ PlainPosition m.sm.lastApplied m.sm.lastAppliedLog := by
    rw [StateMachine.lastAppliedLogId, PlainPosition]
    cases m.sm.lastAppliedLog <;> split <;> simp [Prod.ext_iff, eq_comm]
  simp only [MetaAccurate, OpenRaftMemStateMachine.buildSnapshot,
    OpenRaftMemStateMachine.appliedState, Prod.mk.injEq, hposition, forall_const]
  exact and_congr_right fun _ => eq_comm

omit [Bincode Operation] [Bincode StateMachineImage] in
/-- A membership comes with a log id, which the default does not have. -/
theorem getD_memberships_eq_default_iff (entries : List Entry) :
    (memberships entries).getLast?.getD .default = .default ↔ memberships entries = [] := by
  cases hlast : (memberships entries).getLast? with
  | none => simpa using hlast
  | some stored =>
      have hmem := List.mem_of_getLast? hlast
      obtain ⟨⟨id, payload⟩, -, hstored⟩ := List.mem_filterMap.mp hmem
      have hid : stored.logId = some id := by
        cases payload <;> simp_all [Entry.membership?]
        simp [← hstored]
      have hne : stored ≠ .default := by
        rintro rfl
        simp [StoredMembership.default] at hid
      simp [hne, List.ne_nil_of_mem hmem]

/-- A machine with accurate metadata keeps it so in an accepted batch exactly under the
condition. -/
theorem metaAccurate_apply_iff {m : OpenRaftMemStateMachine} (hm : MetaAccurate m)
    {entries : List Entry} (haccepted : AllAccepted m.sm entries) :
    MetaAccurate (afterBatch m entries) ↔ (MemCall.apply entries).KeepsMeta := by
  obtain ⟨hplain, hmembership⟩ := metaAccurate_iff.mp hm
  obtain ⟨hindex, hleader⟩ :=
    position_foldl_advance (decodable_of_allAccepted haccepted) m.sm
  have hposition : PlainPosition (afterBatch m entries).sm.lastApplied
      (afterBatch m entries).sm.lastAppliedLog ↔
      ∀ id ∈ (normalIds entries).getLast?, id.leaderId = ⟨0, 0⟩ := by
    simp only [afterBatch, hindex, hleader]
    cases hlast : (normalIds entries).getLast? with
    | none => simpa using hplain
    | some id =>
        have hpos := index_pos_of_allAccepted haccepted id (List.mem_of_getLast? hlast)
        obtain ⟨⟨term, nodeId⟩, index⟩ := id
        simpa [PlainPosition] using fun _ _ => hpos
  rw [metaAccurate_iff, hposition, afterBatch, hmembership, getD_memberships_eq_default_iff]
  exact and_comm

theorem step_apply {m : OpenRaftMemStateMachine} {entries : List Entry}
    (hc : (MemCall.apply entries).Succeeds m) :
    AllAccepted m.sm entries ∧ MemCall.step m (.apply entries) = afterBatch m entries := by
  cases hrun : (OpenRaftMemStateMachine.apply entries).run m with
  | error e t => simp [MemCall.Succeeds, MemCall.call, hrun, returned] at hc
  | ok rs t =>
      obtain ⟨haccepted, -, rfl⟩ := apply_run_ok hrun
      exact ⟨haccepted, by simp [MemCall.step, MemCall.call, hrun, leaves]⟩

theorem succeeds_installSnapshot_iff {m : OpenRaftMemStateMachine} {snapshotMeta : SnapshotMeta}
    {snapshot : Bytes} :
    (MemCall.installSnapshot snapshotMeta snapshot).Succeeds m ↔
      ∃ image : StateMachineImage, Bincode.deserialize snapshot = .ok image := by
  cases himage : (Bincode.deserialize snapshot : Except Bytes StateMachineImage) <;>
    simp [MemCall.Succeeds, MemCall.call, OpenRaftMemStateMachine.installSnapshot,
      StateMachine.restore, himage, returned]

theorem step_installSnapshot {m : OpenRaftMemStateMachine} {snapshotMeta : SnapshotMeta}
    {snapshot : Bytes} (hc : (MemCall.installSnapshot snapshotMeta snapshot).Succeeds m) :
    ∃ image : StateMachineImage, Bincode.deserialize snapshot = .ok image ∧
      MemCall.step m (.installSnapshot snapshotMeta snapshot) =
        { m with sm := ⟨.ofList image.data, image.lastApplied, image.lastAppliedLog⟩ } := by
  obtain ⟨image, himage⟩ := succeeds_installSnapshot_iff.mp hc
  refine ⟨image, himage, ?_⟩
  simp [MemCall.step, MemCall.call, OpenRaftMemStateMachine.installSnapshot,
    StateMachine.restore, himage, leaves]

theorem metaAccurate_step_iff {m : OpenRaftMemStateMachine} (hm : MetaAccurate m) {c : MemCall}
    (hc : c.Succeeds m) : MetaAccurate (MemCall.step m c) ↔ c.KeepsMeta := by
  cases c with
  | apply entries =>
      obtain ⟨haccepted, hstep⟩ := step_apply hc
      rw [hstep]
      exact metaAccurate_apply_iff hm haccepted
  | installSnapshot snapshotMeta snapshot =>
      obtain ⟨-, hmembership⟩ := metaAccurate_iff.mp hm
      obtain ⟨image, himage, hstep⟩ := step_installSnapshot hc
      rw [hstep, metaAccurate_iff, and_iff_left hmembership]
      constructor
      · intro hplain image' himage'
        cases himage.symm.trans himage'
        exact hplain
      · intro hkeeps
        exact hkeeps image himage

omit [Bincode Operation] in
theorem metaAccurate_new : MetaAccurate .new :=
  metaAccurate_iff.mpr ⟨rfl, rfl⟩

/-- In every run of successful calls from a new machine, the snapshots to be had in its
states carry the applied position and membership exactly if every call keeps them. -/
theorem metaAccurate_always_iff (calls : List MemCall)
    (hcalls : Trace.EachStep MemCall.step MemCall.Succeeds .new calls) :
    Trace.Always MemCall.step MetaAccurate .new calls ↔ ∀ c ∈ calls, c.KeepsMeta := by
  rw [← Trace.eachStep_action]
  refine Trace.always_iff_eachStep_of_permitted (fun _ => True) ?_ ?_ trivial
    metaAccurate_new hcalls
  · intro m c _ _ _ _
    trivial
  · intro m c _ hm hc
    exact metaAccurate_step_iff hm hc

end Metadata

section Installing

theorem avoids_onMachine {α τ : Type} {part : OpenRaftMemStateMachine → τ}
    (hpart : ∀ m sm, part { m with sm } = part m) (subject : ErrorSubject) (verb : ErrorVerb)
    (op : StateMachineM α) : Avoids part (onMachine subject verb op) where
  ok := by
    intro m a t hrun
    rw [onMachine_run] at hrun
    cases hop : op.run m.sm with
    | ok a sm =>
        rw [hop] at hrun
        cases hrun
        exact hpart m sm
    | error e sm =>
        rw [hop] at hrun
        contradiction
  error := by
    intro m e t hrun
    rw [onMachine_run] at hrun
    cases hop : op.run m.sm with
    | ok a sm =>
        rw [hop] at hrun
        contradiction
    | error e sm =>
        rw [hop] at hrun
        cases hrun
        exact hpart m sm

variable [Bincode Operation] [Bincode StateMachineImage]

omit [Bincode StateMachineImage] in
theorem avoids_applyEntry {τ : Type} {part : OpenRaftMemStateMachine → τ}
    (hpart : ∀ m sm, part { m with sm } = part m) (entry : Entry) :
    Avoids part (OpenRaftMemStateMachine.applyEntry entry) := by
  rw [OpenRaftMemStateMachine.applyEntry]
  cases entry.payload with
  | normal request =>
      exact (avoids_onMachine hpart _ _ _).bind fun _ => avoids_pure _
  | blank => exact avoids_pure _
  | membership membership => exact avoids_pure _

omit [Bincode StateMachineImage] in
theorem avoids_applyEntries {τ : Type} {part : OpenRaftMemStateMachine → τ}
    (hpart : ∀ m sm, part { m with sm } = part m) (entries : List Entry) :
    Avoids part (OpenRaftMemStateMachine.applyEntries entries) := by
  induction entries with
  | nil => exact avoids_pure _
  | cons entry entries ih =>
      exact (avoids_applyEntry hpart entry).bind fun _ =>
        ih.bind fun _ => avoids_pure _

omit [Bincode Operation] [Bincode StateMachineImage] in
theorem snapshot_updateMemberships (entries : List Entry) (m : OpenRaftMemStateMachine) :
    (entries.foldl OpenRaftMemStateMachine.updateMembership m).snapshot = m.snapshot := by
  induction entries generalizing m with
  | nil => rfl
  | cons entry entries ih =>
      rw [List.foldl_cons, ih, OpenRaftMemStateMachine.updateMembership]
      split <;> rfl

/-- No call ever sets the current snapshot. -/
theorem MemCall.avoids_snapshot (c : MemCall) :
    Avoids OpenRaftMemStateMachine.snapshot c.call := by
  cases c with
  | apply entries =>
      refine Avoids.bind ?_ fun _ => avoids_pure _
      refine (avoids_applyEntries (fun _ _ => rfl) entries).bind fun _ => ?_
      refine Avoids.bind ?_ fun _ => avoids_pure _
      exact avoids_modify fun m => snapshot_updateMemberships entries m
  | installSnapshot snapshotMeta snapshot => exact avoids_onMachine (fun _ _ => rfl) _ _ _

theorem snapshot_run (calls : List MemCall) :
    (calls.foldl MemCall.step .new).snapshot = none := by
  induction calls using List.reverseRecOn with
  | nil => rfl
  | append_singleton calls c ih =>
      rw [List.foldl_append]
      exact (leaves_of_avoids c.avoids_snapshot _).trans ih

/-- The snapshot of `a` has arrived: its data, its position and membership, and the
snapshot itself. -/
structure Installed (a b : OpenRaftMemStateMachine) (snapshotMeta : SnapshotMeta)
    (snapshot : Bytes) : Prop where
  data : b.sm.data = a.sm.data
  applied : b.appliedState = (snapshotMeta.lastLogId, snapshotMeta.lastMembership)
  current : b.getCurrentSnapshot = some ⟨snapshotMeta, snapshot⟩

/-- Whatever was done to the two machines before, and whatever the metadata, a snapshot of
the one is accepted by the other as far as it can be read back, and never fully installed:
membership and current snapshot are not replaced. -/
theorem installSnapshot_incomplete (source target : List MemCall)
    (order : List (Bytes × Bytes)) (snapshotMeta : SnapshotMeta) :
    ((MemCall.installSnapshot snapshotMeta
        ((source.foldl MemCall.step .new).sm.snapshot order)).Succeeds
          (target.foldl MemCall.step .new) ↔
      ∃ image : StateMachineImage,
        Bincode.deserialize ((source.foldl MemCall.step .new).sm.snapshot order) = .ok image) ∧
    ¬ Installed (source.foldl MemCall.step .new)
      (MemCall.step (target.foldl MemCall.step .new)
        (.installSnapshot snapshotMeta ((source.foldl MemCall.step .new).sm.snapshot order)))
      snapshotMeta ((source.foldl MemCall.step .new).sm.snapshot order) := by
  refine ⟨succeeds_installSnapshot_iff, fun h => ?_⟩
  have hnone := snapshot_run (target ++
    [.installSnapshot snapshotMeta ((source.foldl MemCall.step .new).sm.snapshot order)])
  rw [List.foldl_append] at hnone
  have hcurrent := h.current
  rw [OpenRaftMemStateMachine.getCurrentSnapshot] at hcurrent
  rw [List.foldl_cons, List.foldl_nil, hcurrent] at hnone
  contradiction

end Installing

namespace Witness

/-- One key is set, in term 1. -/
def setCall : List MemCall :=
  [.apply [operationEntry 1 1 1 (.set (ascii "a") (ascii "1"))]]

/-- The snapshot says term 0 of what was applied in term 1. -/
theorem setCall_not_accurate :
    Trace.EachStep MemCall.step MemCall.Succeeds .new setCall ∧
      ¬ Trace.Always MemCall.step MetaAccurate .new setCall := by
  refine ⟨Trace.eachStep_cons.mpr ⟨rfl, Trace.eachStep_nil⟩, fun halways => ?_⟩
  have hmeta := halways setCall List.prefix_rfl []
  have hposition := congrArg (fun state => state.1.map fun id => id.leaderId.term) hmeta
  revert hposition
  decide

/-- The key arrives on a new machine; the snapshot is not to be had there. -/
theorem setCall_not_installed :
    (MemCall.installSnapshot
        ⟨some ⟨⟨1, 1⟩, 1⟩, .default, ascii "snapshot-1"⟩
        ((setCall.foldl MemCall.step .new).sm.snapshot [(ascii "a", ascii "1")])).Succeeds .new ∧
      ¬ Installed (setCall.foldl MemCall.step .new)
        (MemCall.step .new (.installSnapshot
          ⟨some ⟨⟨1, 1⟩, 1⟩, .default, ascii "snapshot-1"⟩
          ((setCall.foldl MemCall.step .new).sm.snapshot [(ascii "a", ascii "1")])))
        ⟨some ⟨⟨1, 1⟩, 1⟩, .default, ascii "snapshot-1"⟩
        ((setCall.foldl MemCall.step .new).sm.snapshot [(ascii "a", ascii "1")]) := by
  refine ⟨rfl, fun h => ?_⟩
  have hcurrent := congrArg Option.isSome h.current
  revert hcurrent
  decide

/-- A snapshot at index 7 without a leader. -/
def plainSnapshot : Bytes :=
  Bincode.serialize (StateMachineImage.mk [(ascii "a", ascii "1")] 7 (some (0, 0)))

/-- A blank entry, the snapshot, and an operation of no term. -/
def plainCalls : List MemCall :=
  [.apply [⟨⟨⟨1, 1⟩, 1⟩, .blank⟩],
    .installSnapshot ⟨none, .default, ascii "snapshot-7"⟩ plainSnapshot,
    .apply [operationEntry 0 0 8 (.del (ascii "a"))]]

theorem plainCalls_accurate :
    Trace.EachStep MemCall.step MemCall.Succeeds .new plainCalls ∧
      Trace.Always MemCall.step MetaAccurate .new plainCalls := by
  have hcalls : Trace.EachStep MemCall.step MemCall.Succeeds .new plainCalls := by
    refine Trace.eachStep_cons.mpr ⟨rfl, Trace.eachStep_cons.mpr ⟨rfl, ?_⟩⟩
    exact Trace.eachStep_cons.mpr ⟨rfl, Trace.eachStep_nil⟩
  refine ⟨hcalls, (metaAccurate_always_iff plainCalls hcalls).mpr fun c hc => ?_⟩
  simp only [plainCalls, List.mem_cons, List.not_mem_nil, or_false] at hc
  rcases hc with rfl | rfl | rfl
  · exact ⟨rfl, by simp [normalIds, Entry.isNormal]⟩
  · intro image himage
    have hdecoded : (Bincode.deserialize plainSnapshot : Except Bytes StateMachineImage) =
        .ok ⟨[(ascii "a", ascii "1")], 7, some (0, 0)⟩ := by decide
    cases hdecoded.symm.trans himage
    rfl
  · exact ⟨rfl, by simp [normalIds, Entry.isNormal, operationEntry]⟩

end Witness

end Seshat
