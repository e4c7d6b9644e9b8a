/-
What the in-memory state machine makes of a log.  A batch is applied in two passes and
guarded entry by entry, yet the outcome is that of the entries one after the other,
however they are split into calls.  Its position only follows the normal entries.
-/
import Seshat.Storage.Machine
import Seshat.Storage.ReadBack

namespace Seshat

open Decimal Keyed

namespace Entry

/-- The membership an entry sets. -/
def membership? (entry : Entry) : Option StoredMembership :=
  match entry.payload with
  | .membership membership => some ⟨some entry.logId, membership⟩
  | _ => none

def isNormal (entry : Entry) : Bool :=
  match entry.payload with
  | .normal _ => true
  | _ => false

variable [Bincode Operation]

/-- The operation of a normal entry, if it decodes. -/
def operation? (entry : Entry) : Option Operation :=
  match entry.payload with
  | .normal request => (Operation.deserialize request.operationBytes).toOption
  | _ => none

theorem operation?_normal (id : LogId) {request : Request} {op : Operation}
    (hop : Operation.deserialize request.operationBytes = .ok op) :
    operation? ⟨id, .normal request⟩ = some op := by
  simp [operation?, hop, Except.toOption]

/-- The response to an entry on the given data. -/
def response (entry : Entry) (data : Data) : Response :=
  match entry.operation? with
  | some op => ⟨(op.apply data).1⟩
  | none => ⟨[]⟩

/-- The state machine behind an entry. -/
def advance (sm : StateMachine) (entry : Entry) : StateMachine :=
  match entry.operation? with
  | some op =>
      ⟨(op.apply sm.data).2, entry.logId.index,
        some (entry.logId.leaderId.term, entry.logId.leaderId.nodeId)⟩
  | none => sm

/-- The guard of the state machine: an operation that decodes, at a new index. -/
def Accepted (entry : Entry) (sm : StateMachine) : Prop :=
  ∀ request, entry.payload = .normal request →
    sm.lastApplied < entry.logId.index ∧
      ∃ op, Operation.deserialize request.operationBytes = .ok op

end Entry

/-- A computation that succeeded did so step by step. -/
theorem bind_run_ok {ε σ α β : Type} {x : EStateM ε σ α} {f : α → EStateM ε σ β} {s u : σ}
    {b : β} (h : (x >>= f).run s = .ok b u) :
    ∃ a t, x.run s = .ok a t ∧ (f a).run t = .ok b u := by
  rw [EStateM.run_bind] at h
  cases hx : x.run s with
  | error e t =>
      rw [hx] at h
      contradiction
  | ok a t =>
      rw [hx] at h
      exact ⟨a, t, rfl, h⟩

section Entries

variable [Bincode Operation]

/-- The responses to entries, one after the other. -/
def responses : StateMachine → List Entry → List Response
  | _, [] => []
  | sm, entry :: entries => entry.response sm.data :: responses (entry.advance sm) entries

/-- The operations of the normal entries, in order. -/
def operations (entries : List Entry) : List Operation :=
  entries.filterMap Entry.operation?

/-- The memberships of the entries, in order. -/
def memberships (entries : List Entry) : List StoredMembership :=
  entries.filterMap Entry.membership?

/-- The normal entries' log ids, in order. -/
def normalIds (entries : List Entry) : List LogId :=
  (entries.filter Entry.isNormal).map Entry.logId

/-- The entries pass the guard one after the other. -/
def AllAccepted : StateMachine → List Entry → Prop
  | _, [] => True
  | sm, entry :: entries => entry.Accepted sm ∧ AllAccepted (entry.advance sm) entries

theorem applyWithLogId_run {sm : StateMachine} (term leaderId : UInt64) {index : UInt64}
    {data : Bytes} (hindex : sm.lastApplied < index) {op : Operation}
    (hop : Operation.deserialize data = .ok op) :
    (StateMachine.applyWithLogId term leaderId index data).run sm =
      .ok (op.apply sm.data).1 ⟨(op.apply sm.data).2, index, some (term, leaderId)⟩ := by
  have hguard : ¬ index ≤ sm.lastApplied := UInt64.not_le.mpr hindex
  simp [StateMachine.applyWithLogId, StateMachine.apply, hguard, hop]

/-- An entry that is refused changes nothing. -/
theorem applyWithLogId_run_error {sm : StateMachine} (term leaderId : UInt64)
    {index : UInt64} {data : Bytes} (h : ¬ (sm.lastApplied < index ∧
      ∃ op, Operation.deserialize data = .ok op)) :
    ∃ e, (StateMachine.applyWithLogId term leaderId index data).run sm = .error e sm := by
  by_cases hguard : index ≤ sm.lastApplied
  · exact ⟨_, by simp [StateMachine.applyWithLogId, StateMachine.apply, hguard]; rfl⟩
  · cases hop : Operation.deserialize data with
    | ok op => exact absurd ⟨UInt64.not_le.mp hguard, op, hop⟩ h
    | error e =>
        exact ⟨e.display, by
          simp [StateMachine.applyWithLogId, StateMachine.apply, hguard, hop]; rfl⟩

theorem applyEntry_run_accepted {entry : Entry} {m : OpenRaftMemStateMachine}
    (h : entry.Accepted m.sm) :
    (OpenRaftMemStateMachine.applyEntry entry).run m =
      .ok (entry.response m.sm.data) { m with sm := entry.advance m.sm } := by
  obtain ⟨id, payload⟩ := entry
  cases payload with
  | blank => rfl
  | membership membership => rfl
  | normal request =>
      obtain ⟨hindex, op, hop⟩ := h request rfl
      have hrun := applyWithLogId_run id.leaderId.term id.leaderId.nodeId hindex hop
      simp [OpenRaftMemStateMachine.applyEntry, hrun, Entry.response, Entry.advance,
        Entry.operation?_normal id hop]

theorem accepted_of_applyEntry_run {entry : Entry} {m m' : OpenRaftMemStateMachine}
    {r : Response} (hrun : (OpenRaftMemStateMachine.applyEntry entry).run m = .ok r m') :
    entry.Accepted m.sm := by
  intro request hrequest
  by_contra hrefused
  obtain ⟨e, herror⟩ := applyWithLogId_run_error entry.logId.leaderId.term
    entry.logId.leaderId.nodeId hrefused
  simp [OpenRaftMemStateMachine.applyEntry, hrequest, herror] at hrun

theorem applyEntries_run_accepted {entries : List Entry} {m : OpenRaftMemStateMachine}
    (h : AllAccepted m.sm entries) :
    (OpenRaftMemStateMachine.applyEntries entries).run m =
      .ok (responses m.sm entries) { m with sm := entries.foldl Entry.advance m.sm } := by
  induction entries generalizing m with
  | nil => rfl
  | cons entry entries ih =>
      obtain ⟨hentry, hrest⟩ := h
      have hnext := ih (m := { m with sm := entry.advance m.sm }) hrest
      simp [OpenRaftMemStateMachine.applyEntries, applyEntry_run_accepted hentry, hnext,
        responses]

theorem allAccepted_of_applyEntries_run {entries : List Entry} {m m' : OpenRaftMemStateMachine}
    {rs : List Response}
    (hrun : (OpenRaftMemStateMachine.applyEntries entries).run m = .ok rs m') :
    AllAccepted m.sm entries := by
  induction entries generalizing m m' rs with
  | nil => trivial
  | cons entry entries ih =>
      obtain ⟨r, t, hentry, hrun⟩ := bind_run_ok hrun
      have haccepted := accepted_of_applyEntry_run hentry
      rw [applyEntry_run_accepted haccepted] at hentry
      obtain ⟨rs', u, hrest, -⟩ := bind_run_ok hrun
      cases hentry
      exact ⟨haccepted, ih (m := { m with sm := entry.advance m.sm }) hrest⟩

omit [Bincode Operation] in
theorem foldl_updateMembership (entries : List Entry) (m : OpenRaftMemStateMachine) :
    entries.foldl OpenRaftMemStateMachine.updateMembership m =
      { m with membership := (memberships entries).getLast?.getD m.membership } := by
  induction entries using List.reverseRecOn with
  | nil => rfl
  | append_singleton entries entry ih =>
      obtain ⟨id, payload⟩ := entry
      rw [List.foldl_append, ih]
      cases payload <;>
        simp [OpenRaftMemStateMachine.updateMembership, memberships, Entry.membership?]

/-- The machine behind a batch. -/
def afterBatch (m : OpenRaftMemStateMachine) (entries : List Entry) : OpenRaftMemStateMachine :=
  ⟨entries.foldl Entry.advance m.sm, m.snapshot,
    (memberships entries).getLast?.getD m.membership⟩

theorem apply_run_accepted {entries : List Entry} {m : OpenRaftMemStateMachine}
    (h : AllAccepted m.sm entries) :
    (OpenRaftMemStateMachine.apply entries).run m =
      .ok (responses m.sm entries) (afterBatch m entries) := by
  simp [OpenRaftMemStateMachine.apply, applyEntries_run_accepted h, foldl_updateMembership,
    afterBatch]

/-- A batch is applied as a whole exactly if its entries pass the guard in order. -/
theorem apply_run_ok {entries : List Entry} {m m' : OpenRaftMemStateMachine}
    {rs : List Response} (hrun : (OpenRaftMemStateMachine.apply entries).run m = .ok rs m') :
    AllAccepted m.sm entries ∧ rs = responses m.sm entries ∧ m' = afterBatch m entries := by
  obtain ⟨rs', t, hentries, -⟩ := bind_run_ok hrun
  have haccepted := allAccepted_of_applyEntries_run hentries
  rw [apply_run_accepted haccepted] at hrun
  cases hrun
  exact ⟨haccepted, rfl, rfl⟩

theorem responses_append (sm : StateMachine) (entries entries' : List Entry) :
    responses sm (entries ++ entries') =
      responses sm entries ++ responses (entries.foldl Entry.advance sm) entries' := by
  induction entries generalizing sm with
  | nil => rfl
  | cons entry entries ih => rw [List.cons_append, responses, ih, responses]; rfl

@[simp]
theorem length_responses (sm : StateMachine) (entries : List Entry) :
    (responses sm entries).length = entries.length := by
  induction entries generalizing sm with
  | nil => rfl
  | cons entry entries ih => rw [responses, List.length_cons, ih, List.length_cons]

theorem allAccepted_append {sm : StateMachine} {entries entries' : List Entry} :
    AllAccepted sm (entries ++ entries') ↔
      AllAccepted sm entries ∧ AllAccepted (entries.foldl Entry.advance sm) entries' := by
  induction entries generalizing sm with
  | nil => simp [AllAccepted]
  | cons entry entries ih =>
      rw [List.cons_append, AllAccepted, ih, AllAccepted, and_assoc]
      rfl

theorem afterBatch_append (m : OpenRaftMemStateMachine) (entries entries' : List Entry) :
    afterBatch m (entries ++ entries') = afterBatch (afterBatch m entries) entries' := by
  simp only [afterBatch, List.foldl_append, memberships, List.filterMap_append,
    List.getLast?_append]
  cases (entries'.filterMap Entry.membership?).getLast? <;> rfl

theorem data_foldl_advance (sm : StateMachine) (entries : List Entry) :
    (entries.foldl Entry.advance sm).data =
      (operations entries).foldl (fun data op => (op.apply data).2) sm.data := by
  induction entries generalizing sm with
  | nil => rfl
  | cons entry entries ih =>
      rw [List.foldl_cons, ih, Entry.advance]
      simp only [operations, List.filterMap_cons]
      cases entry.operation? <;> rfl

/-- The position is that of the last normal entry, its index apart from its leader. -/
theorem position_foldl_advance {entries : List Entry}
    (hentries : ∀ entry ∈ entries, entry.Decodable) (sm : StateMachine) :
    (entries.foldl Entry.advance sm).lastApplied =
        ((normalIds entries).getLast?.map LogId.index).getD sm.lastApplied ∧
      (entries.foldl Entry.advance sm).lastAppliedLog =
        ((normalIds entries).getLast?.map fun id => (id.leaderId.term, id.leaderId.nodeId)).or
          sm.lastAppliedLog := by
  induction entries using List.reverseRecOn with
  | nil => exact ⟨rfl, rfl⟩
  | append_singleton entries entry ih =>
      have hbefore := ih fun e he => hentries e (List.mem_append_left [entry] he)
      obtain ⟨id, payload⟩ := entry
      rw [List.foldl_append, List.foldl_cons, List.foldl_nil]
      cases payload with
      | blank => simpa [Entry.advance, Entry.operation?, normalIds, Entry.isNormal] using hbefore
      | membership membership =>
          simpa [Entry.advance, Entry.operation?, normalIds, Entry.isNormal] using hbefore
      | normal request =>
          obtain ⟨op, hop⟩ := hentries ⟨id, .normal request⟩ (by simp) request rfl
          simp [Entry.advance, Entry.operation?_normal id hop, normalIds, Entry.isNormal]

theorem lastAppliedLogId_foldl_advance {entries : List Entry}
    (hentries : ∀ entry ∈ entries, entry.Decodable) (sm : StateMachine) :
    (entries.foldl Entry.advance sm).lastAppliedLogId =
      (normalIds entries).getLast?.or sm.lastAppliedLogId := by
  obtain ⟨hindex, hleader⟩ := position_foldl_advance hentries sm
  rw [StateMachine.lastAppliedLogId, hindex, hleader]
  cases (normalIds entries).getLast? <;> rfl

theorem decodable_of_allAccepted {entries : List Entry} {sm : StateMachine}
    (h : AllAccepted sm entries) : ∀ entry ∈ entries, entry.Decodable := by
  induction entries generalizing sm with
  | nil => simp
  | cons entry entries ih =>
      obtain ⟨hentry, hrest⟩ := h
      refine List.forall_mem_cons.mpr ⟨fun request hrequest => ?_, ih hrest⟩
      exact (hentry request hrequest).2

/-- An operation is only accepted at a positive index. -/
theorem index_pos_of_allAccepted {entries : List Entry} {sm : StateMachine}
    (h : AllAccepted sm entries) : ∀ id ∈ normalIds entries, 0 < id.index := by
  induction entries generalizing sm with
  | nil => simp [normalIds]
  | cons entry entries ih =>
      obtain ⟨hentry, hrest⟩ := h
      obtain ⟨id, payload⟩ := entry
      cases payload with
      | blank => exact ih hrest
      | membership membership => exact ih hrest
      | normal request =>
          have hpos : 0 < id.index := by
            have hguard := (hentry request rfl).1
            rw [UInt64.lt_iff_toNat_lt] at hguard ⊢
            exact Nat.zero_lt_of_lt hguard
          exact List.forall_mem_cons.mpr ⟨hpos, ih hrest⟩

/-- Entries at growing indices pass the guard of a machine behind them. -/
theorem allAccepted_of_ascending {entries : List Entry} (hascending : Ascending entries)
    (hentries : ∀ entry ∈ entries, entry.Decodable) {sm : StateMachine}
    (hbehind : ∀ entry ∈ entries, sm.lastApplied < entry.logId.index) :
    AllAccepted sm entries := by
  induction entries generalizing sm with
  | nil => trivial
  | cons entry entries ih =>
      obtain ⟨hhead, htail⟩ := List.pairwise_cons.mp hascending
      refine ⟨fun request hrequest => ⟨hbehind entry List.mem_cons_self,
        hentries entry List.mem_cons_self request hrequest⟩, ?_⟩
      refine ih htail (fun e he => hentries e (List.mem_cons_of_mem entry he)) fun e he => ?_
      rw [Entry.advance]
      split
      · exact UInt64.lt_iff_toNat_lt.mpr (hhead e he)
      · exact hbehind e (List.mem_cons_of_mem entry he)

/-- A log from index 1 on passes the guard of a new machine. -/
theorem allAccepted_new {entries : List Entry} (hascending : Ascending entries)
    (hindex : ∀ entry ∈ entries, 1 ≤ entry.logId.index)
    (hentries : ∀ entry ∈ entries, entry.Decodable) : AllAccepted .new entries := by
  refine allAccepted_of_ascending hascending hentries fun entry hentry => ?_
  exact UInt64.lt_iff_toNat_lt.mpr (UInt64.le_iff_toNat_le.mp (hindex entry hentry))

end Entries

/-- Batches applied one after the other, by either machine. -/
def applyBatches {σ : Type} (apply : List Entry → EStateM Failure σ (List Response)) :
    List (List Entry) → EStateM Failure σ (List (List Response))
  | [] => return []
  | batch :: batches => do
      let rs ← apply batch
      let rest ← applyBatches apply batches
      return rs :: rest

section Batches

variable [Bincode Operation]

theorem applyBatches_run_accepted {batches : List (List Entry)} {m : OpenRaftMemStateMachine}
    (h : AllAccepted m.sm batches.flatten) :
    ∃ rss, (applyBatches OpenRaftMemStateMachine.apply batches).run m =
        .ok rss (afterBatch m batches.flatten) ∧
      rss.map List.length = batches.map List.length ∧
      rss.flatten = responses m.sm batches.flatten := by
  induction batches generalizing m with
  | nil => exact ⟨[], rfl, rfl, rfl⟩
  | cons batch batches ih =>
      rw [List.flatten_cons] at h ⊢
      obtain ⟨hbatch, hrest⟩ := allAccepted_append.mp h
      obtain ⟨rss, hrun, hlength, hflatten⟩ := ih (m := afterBatch m batch) hrest
      refine ⟨responses m.sm batch :: rss, ?_, ?_, ?_⟩
      · simp [applyBatches, apply_run_accepted hbatch, hrun, afterBatch_append]
      · rw [List.map_cons, hlength, length_responses, List.map_cons]
      · rw [List.flatten_cons, hflatten, responses_append]
        rfl

/-- However a log is split into calls, the in-memory machine replays it: one response
per entry, the operations on the data in order, the last membership under its own log
id, and the position of the last normal entry. -/
theorem memory_replays_any_batching (entries : List Entry) (hascending : Ascending entries)
    (hindex : ∀ entry ∈ entries, 1 ≤ entry.logId.index)
    (hentries : ∀ entry ∈ entries, entry.Decodable) (batches : List (List Entry))
    (hsplit : batches.flatten = entries) :
    ∃ rss m, (applyBatches OpenRaftMemStateMachine.apply batches).run .new = .ok rss m ∧
      rss.map List.length = batches.map List.length ∧
      rss.flatten = responses .new entries ∧
      m.sm.data = (operations entries).foldl (fun data op => (op.apply data).2) ∅ ∧
      m.membership = (memberships entries).getLast?.getD .default ∧
      m.sm.lastAppliedLogId = (normalIds entries).getLast? := by
  have haccepted := allAccepted_new hascending hindex hentries
  subst hsplit
  obtain ⟨rss, hrun, hlength, hflatten⟩ :=
    applyBatches_run_accepted (m := .new) haccepted
  refine ⟨rss, _, hrun, hlength, hflatten, ?_, rfl, ?_⟩
  · exact data_foldl_advance .new batches.flatten
  · refine (lastAppliedLogId_foldl_advance hentries .new).trans ?_
    exact Option.or_none

end Batches

namespace Witness

theorem applyBatch_ascending : Ascending applyBatch := by
  simp [Ascending, Increasing, applyBatch, operationEntry]

/-- The same log in three calls, one of them without entries. -/
theorem applyBatch_in_three_calls :
    Ascending applyBatch ∧ (∀ entry ∈ applyBatch, 1 ≤ entry.logId.index) ∧
      (∀ entry ∈ applyBatch, entry.Decodable) ∧
      ∃ rss m, (applyBatches OpenRaftMemStateMachine.apply
          [applyBatch.take 2, [], applyBatch.drop 2]).run .new = .ok rss m ∧
        rss.map List.length = [2, 0, 3] ∧
        rss.flatten = [⟨ascii "OK"⟩, ⟨[]⟩, ⟨ascii "1"⟩, ⟨[]⟩, ⟨ascii "OK"⟩] ∧
        m.membership = ⟨some ⟨⟨1, 1⟩, 2⟩, .default⟩ ∧
        m.sm.lastAppliedLogId = some ⟨⟨1, 1⟩, 5⟩ := by
  have hindex : ∀ entry ∈ applyBatch, 1 ≤ entry.logId.index := by decide
  obtain ⟨rss, m, hrun, hlength, hflatten, -, hmembership, hposition⟩ :=
    memory_replays_any_batching applyBatch applyBatch_ascending hindex applyBatch_decodable
      [applyBatch.take 2, [], applyBatch.drop 2] rfl
  refine ⟨applyBatch_ascending, hindex, applyBatch_decodable, rss, m, hrun, hlength, ?_,
    hmembership, hposition⟩
  rw [hflatten]
  decide

end Witness

end Seshat
