/-
What a node can rely on when the power may fail at any time.  The records of a Raft state
follow the calls as if nothing ever failed.  An append that returned is another matter: it
can be undone until a Raft state of either group has been written.
-/
import Seshat.Storage.Durability

namespace Seshat

open WriteAhead

theorem RaftGroup.stateCf_injective {g g' : RaftGroup} (h : g'.stateCf = g.stateCf) : g' = g := by
  revert h
  cases g <;> cases g' <;> decide

theorem RaftGroup.kvCf_ne_stateCf (g g' : RaftGroup) : g'.kvCf ≠ some g.stateCf := by
  cases g <;> cases g' <;> decide

theorem written_eq_write (s : Storage) (ws : List WriteBatch) :
    written s ws = s.write ws.flatten := by
  induction ws generalizing s with
  | nil => rfl
  | cons w ws ih =>
      rw [List.flatten_cons, Storage.write_append]
      exact ih (s.write w)

/-- A key that no write touches keeps its value. -/
theorem get_written_of_ne {ws : List WriteBatch} {cf : ColumnFamily} {key : Bytes}
    (h : ∀ batch ∈ ws, ∀ o ∈ batch, o.update.1 ≠ (cf, key)) (s : Storage) :
    (written s ws).get cf key = s.get cf key := by
  have hlookup := congrFun (Storage.lookup_write s ws.flatten) (cf, key)
  rw [← written_eq_write, Overlay.foldl_apply_of_ne] at hlookup
  · exact hlookup
  · intro u hu heq
    obtain ⟨o, ho, rfl⟩ := List.mem_map.mp hu
    obtain ⟨batch, hbatch, ho⟩ := List.mem_flatten.mp ho
    exact h batch hbatch o ho heq.symm

/-- A key that is put and not touched afterwards. -/
theorem get_written_put {ws : List WriteBatch} {cf : ColumnFamily} {key : Bytes}
    (h : ∀ batch ∈ ws, ∀ o ∈ batch, o.update.1 ≠ (cf, key)) (s : Storage) (value : Bytes) :
    (written s ([.put cf key value] :: ws)).get cf key = some value := by
  refine (get_written_of_ne h (s.apply (.put cf key value))).trans ?_
  rw [Storage.get_apply_put, if_pos ⟨rfl, rfl⟩]

section Writes

variable [MembershipApi] [Prost LogIdMessage] [Prost MembershipMessage]

/-- The log is written to its own column family. -/
theorem cf_logOp_writes {g : RaftGroup} {s : Storage} {op : LogOp} {batch : WriteBatch}
    (hbatch : batch ∈ op.writes g s) {o : BatchOperation} (ho : o ∈ batch) : o.cf = g.logCf := by
  have hdeletes : ∀ last index, batch = truncateBatch g.logCf last index → o.cf = g.logCf := by
    rintro last index rfl
    obtain ⟨_, -, rfl⟩ := List.mem_map.mp ho
    rfl
  have hrecord : ∀ key value, batch = [.put g.logCf key value] → o.cf = g.logCf := by
    rintro key value rfl
    obtain rfl := List.mem_singleton.mp ho
    rfl
  cases op with
  | append entries =>
      rcases Nat.lt_or_ge maxBatchOperations entries.length with hlarge | hsmall
      · simp [writes_append_tooLarge hlarge] at hbatch
      · cases hlast : entries.getLast? with
        | none =>
            obtain rfl := List.getLast?_eq_none_iff.mp hlast
            simp [writes_append_nil] at hbatch
        | some last =>
            rw [writes_append hsmall hlast] at hbatch
            rcases List.mem_cons.mp hbatch with rfl | hbatch
            · obtain ⟨_, -, rfl⟩ := List.mem_map.mp ho
              rfl
            · exact hrecord _ _ (List.mem_singleton.mp hbatch)
  | truncate id =>
      rw [writes_truncate] at hbatch
      split at hbatch
      · exact hdeletes _ _ (List.mem_singleton.mp hbatch)
      · simp at hbatch
  | purge id =>
      by_cases hid : id.index.toNat + 1 < 2 ^ 64
      · rw [writes_purge hid] at hbatch
        split at hbatch
        · rcases List.mem_cons.mp hbatch with hbatch | hbatch
          · exact hdeletes _ _ hbatch
          · exact hrecord _ _ (List.mem_singleton.mp hbatch)
        · exact hrecord _ _ (List.mem_singleton.mp hbatch)
        · simp at hbatch
      · simp [writes_purge_overflow hid] at hbatch

variable [Prost VoteMessage] [Bincode Operation]

/-- A write of a call is one to the log or does not depend on the database. -/
theorem mem_writes_cases {g : RaftGroup} {node : Node} {call : GroupCall} {batch : WriteBatch}
    (hbatch : batch ∈ call.writes g node) :
    (∀ o ∈ batch, o.cf = g.logCf) ∨ batch ∈ call.recordWrites g := by
  have hlog : ∀ op : LogOp, batch ∈ op.writes g node.storage → ∀ o ∈ batch, o.cf = g.logCf :=
    fun op hop o ho => cf_logOp_writes hop ho
  rw [GroupCall.writes_eq] at hbatch
  cases call with
  | append entries => exact .inl (hlog (.append entries) hbatch)
  | truncate id => exact .inl (hlog (.truncate id) hbatch)
  | purge id => exact .inl (hlog (.purge id) hbatch)
  | _ => exact .inr hbatch

/-- Where an application or an installation writes to. -/
theorem key_recordWrites {g : RaftGroup} {call : GroupCall} {batch : WriteBatch}
    (hbatch : batch ∈ call.recordWrites g) {o : BatchOperation} (ho : o ∈ batch) :
    (∃ vote, call = .saveVote vote ∧ o.update.1 = (g.stateCf, voteKey)) ∨
      o.update.1 = (g.stateCf, appliedKey) ∨ o.update.1 = (g.stateCf, membershipKey) ∨
      g.kvCf = some o.cf := by
  have hsingle : ∀ ops : WriteBatch, batch ∈ ops.map ([·]) → o ∈ ops := by
    intro ops hops
    obtain ⟨o', ho', rfl⟩ := List.mem_map.mp hops
    rwa [List.mem_singleton.mp ho]
  cases call with
  | saveVote vote =>
      obtain rfl := List.mem_singleton.mp hbatch
      obtain rfl := List.mem_singleton.mp ho
      exact .inl ⟨vote, rfl, rfl⟩
  | apply entries =>
      rcases List.mem_append.mp (hsingle _ hbatch) with ho | ho
      · obtain ⟨entry, -, ho⟩ := List.mem_flatMap.mp ho
        rw [← o.update_cf]
        exact .inr (.inr (entryWrites_key ho))
      · split at ho
        · obtain ⟨entry, -, rfl⟩ := Option.map_eq_some_iff.mp (Option.mem_toList.mp ho)
          exact .inr (.inl rfl)
        · simp at ho
  | installSnapshot pathExists snapshotMeta snapshotData =>
      simp only [GroupCall.recordWrites] at hbatch
      split at hbatch
      · simp at hbatch
      · rcases List.mem_append.mp (hsingle _ hbatch) with ho | ho
        · obtain ⟨id, -, rfl⟩ := Option.map_eq_some_iff.mp (Option.mem_toList.mp ho)
          exact .inr (.inl rfl)
        · obtain rfl := List.mem_singleton.mp ho
          exact .inr (.inr (.inl rfl))
  | _ => simp [GroupCall.recordWrites] at hbatch

end Writes

section Records

variable [MembershipApi] [Prost LogIdMessage] [Prost MembershipMessage] [Prost VoteMessage]
  [Bincode Operation]

/-- What a vote is after a restart. -/
def Vote.uncommitted (vote : Vote) : Vote :=
  (VoteMessage.fromVote vote).toVote

/-- The vote that is written by an incident. -/
def votedBy (g : RaftGroup) (incident : NodeIncident) : Option Vote :=
  match incident.of with
  | (g', .saveVote vote) => if g' = g ∧ incident.reaches 1 then some vote else none
  | _ => none

/-- The position that is written by an incident: the last entry of an application that
issued all its writes, or the one of a snapshot. -/
def appliedBy (g : RaftGroup) (incident : NodeIncident) : Option LogId :=
  match incident.of with
  | (g', .apply entries) =>
      if g' = g ∧ entries.all (Entry.applies g) ∧
          incident.reaches ((GroupCall.apply entries).recordWrites g).length then
        entries.getLast?.map Entry.logId
      else none
  | (g', .installSnapshot pathExists snapshotMeta snapshotData) =>
      if g' = g ∧ !(snapshotMeta.snapshotId.isEmpty || !pathExists snapshotMeta.snapshotId ||
          snapshotData.isEmpty) ∧ incident.reaches 1 then
        snapshotMeta.lastLogId
      else none
  | _ => none

/-- The last of the values some incidents wrote. -/
def lastBy {α : Type} (value : NodeIncident → Option α) (incidents : List NodeIncident) :
    Option α :=
  (incidents.filterMap value).getLast?

omit [MembershipApi] [Prost LogIdMessage] [Prost MembershipMessage] [Prost VoteMessage]
  [Bincode Operation] in
theorem lastBy_concat {α : Type} (value : NodeIncident → Option α)
    (incidents : List NodeIncident) (incident : NodeIncident) :
    lastBy value (incidents ++ [incident]) = (value incident).or (lastBy value incidents) := by
  cases hvalue : value incident <;> simp [lastBy, hvalue]

/-- The records of a Raft state follow the writes that are issued. -/
theorem get_stateCf_step {incidents : List NodeIncident}
    {node node' : Running Node Files WriteBatch} (hrun : runIncidents incidents = some node)
    {incident : NodeIncident} (hstep : nodeProcess.step node incident = some node')
    (g : RaftGroup) (key : Bytes) :
    node'.state.storage.get g.stateCf key =
      (written node.state.storage
        (incident.cut (incident.of.2.writes incident.of.1 node.state))).get g.stateCf key := by
  have hpart := Process.part_step hrun hstep (fun files => files g.stateCf)
    fun files batch hbatch => db_write_unsynced hbatch g (.closed files)
  have hdb : node'.state.storage.db g.stateCf = (written _ _).db g.stateCf :=
    hpart.trans (congrFun (db_written node.state.storage _).symm g.stateCf)
  rw [Storage.get, hdb]
  rfl

/-- Each group writes to its own Raft state. -/
theorem ne_of_other {g g' : RaftGroup} (hg : g' ≠ g) {node : Node} {call : GroupCall}
    {batch : WriteBatch} (hbatch : batch ∈ call.writes g' node) {o : BatchOperation}
    (ho : o ∈ batch) (key : Bytes) : o.update.1 ≠ (g.stateCf, key) := by
  intro heq
  have hcf : o.cf = g.stateCf := (o.update_cf).symm.trans (congrArg Prod.fst heq)
  have hstate : ∀ key', o.update.1 ≠ (g'.stateCf, key') := fun key' hkey =>
    hg (RaftGroup.stateCf_injective (congrArg Prod.fst (hkey.symm.trans heq)))
  rcases mem_writes_cases hbatch with hlog | hrecord
  · exact logCf_ne_stateCf g' g ((hlog o ho).symm.trans hcf)
  · rcases key_recordWrites hrecord ho with ⟨vote, -, hkey⟩ | hkey | hkey | hkv
    · exact hstate _ hkey
    · exact hstate _ hkey
    · exact hstate _ hkey
    · rw [hcf] at hkv
      exact RaftGroup.kvCf_ne_stateCf g g' hkv

omit [MembershipApi] [Prost LogIdMessage] [Prost MembershipMessage] [Prost VoteMessage]
  [Bincode Operation] in
/-- A record that the first write of a call puts. -/
theorem get_cut_put {incident : NodeIncident} {cf : ColumnFamily} {key : Bytes} (value : Bytes)
    {rest : List WriteBatch} (hrest : ∀ batch ∈ rest, ∀ o ∈ batch, o.update.1 ≠ (cf, key))
    (s : Storage) :
    (written s (incident.cut ([.put cf key value] :: rest))).get cf key =
      if incident.reaches 1 then some value else s.get cf key := by
  cases hreaches : incident.reaches 1 with
  | false =>
      rw [Incident.cut_eq_nil hreaches]
      rfl
  | true =>
      obtain ⟨rest', hsubset, hcut⟩ := Incident.exists_cut_cons hreaches
        [BatchOperation.put cf key value] rest
      rw [hcut]
      exact get_written_put (fun batch hbatch => hrest batch (hsubset hbatch)) s value

theorem get_voteKey_step {incidents : List NodeIncident}
    {node node' : Running Node Files WriteBatch} (hrun : runIncidents incidents = some node)
    {incident : NodeIncident} (hstep : nodeProcess.step node incident = some node')
    (g : RaftGroup) :
    node'.state.storage.get g.stateCf voteKey =
      ((votedBy g incident).map fun vote => Prost.encodeToVec (VoteMessage.fromVote vote)).or
        (node.state.storage.get g.stateCf voteKey) := by
  have hkeys : appliedKey ≠ voteKey ∧ membershipKey ≠ voteKey := by decide
  rw [get_stateCf_step hrun hstep, votedBy]
  obtain ⟨g', call⟩ := incident.of
  by_cases hg : g' = g
  · subst hg
    by_cases hcall : ∃ vote, call = .saveVote vote
    · obtain ⟨vote, rfl⟩ := hcall
      rw [GroupCall.writes_eq]
      refine (get_cut_put _ (by simp) node.state.storage).trans ?_
      cases incident.reaches 1 <;> simp
    · rw [get_written_of_ne]
      · cases call with
        | saveVote vote => exact absurd ⟨vote, rfl⟩ hcall
        | _ => rfl
      · intro batch hbatch o ho heq
        have hcf : o.cf = g'.stateCf := (o.update_cf).symm.trans (congrArg Prod.fst heq)
        rcases mem_writes_cases (incident.cut_subset _ hbatch) with hlog | hrecord
        · exact logCf_ne_stateCf g' g' ((hlog o ho).symm.trans hcf)
        · rcases key_recordWrites hrecord ho with ⟨vote, hvote, -⟩ | hkey | hkey | hkv
          · exact hcall ⟨vote, hvote⟩
          · exact hkeys.1 (congrArg Prod.snd (hkey.symm.trans heq))
          · exact hkeys.2 (congrArg Prod.snd (hkey.symm.trans heq))
          · rw [hcf] at hkv
            exact RaftGroup.kvCf_ne_stateCf g' g' hkv
  · rw [get_written_of_ne fun batch hbatch o ho =>
      ne_of_other hg (incident.cut_subset _ hbatch) ho _]
    cases call <;> simp [hg]

/-- The record of the position under an application that may be cut off. -/
theorem get_cut_apply (incident : NodeIncident) (g : RaftGroup) (entries : List Entry)
    (s : Storage) :
    (written s (incident.cut ((GroupCall.apply entries).recordWrites g))).get g.stateCf appliedKey =
      ((if entries.all (Entry.applies g) ∧
            incident.reaches ((GroupCall.apply entries).recordWrites g).length then
          entries.getLast?.map Entry.logId
        else none).map fun id => Prost.encodeToVec (LogIdMessage.fromLogId id)).or
        (s.get g.stateCf appliedKey) := by
  have hkey : membershipKey ≠ appliedKey := by decide
  have hentries : ∀ ws ⊆ (((entries.takeWhile (Entry.applies g)).flatMap (entryWrites g)).map
      ([·]) : List WriteBatch), (written s ws).get g.stateCf appliedKey =
        s.get g.stateCf appliedKey := by
    intro ws hws
    refine get_written_of_ne (fun batch hbatch o ho heq => ?_) s
    obtain ⟨o', ho', rfl⟩ := List.mem_map.mp (hws hbatch)
    obtain rfl := List.mem_singleton.mp ho
    obtain ⟨entry, -, ho⟩ := List.mem_flatMap.mp ho'
    rcases entryWrites_key ho with hmembership | hkv
    · exact hkey (congrArg Prod.snd (hmembership.symm.trans heq))
    · rw [heq] at hkv
      exact RaftGroup.kvCf_ne_stateCf g g hkv
  have hwrites : (GroupCall.apply entries).recordWrites g =
      ((entries.takeWhile (Entry.applies g)).flatMap (entryWrites g)).map ([·]) ++
        (if entries.all (Entry.applies g) then positionWrite g entries else []).map ([·]) :=
    List.map_append
  cases hlast : entries.getLast? with
  | none =>
      have hnone : positionWrite g entries = [] := by rw [positionWrite, hlast]; rfl
      rw [hwrites, hnone, ite_self, List.map_nil, List.append_nil,
        hentries _ (incident.cut_subset _)]
      simp
  | some last =>
      cases hall : entries.all (Entry.applies g) with
      | false =>
          rw [hwrites, hall]
          simp [hentries _ (incident.cut_subset _)]
      | true =>
          have hposition : positionWrite g entries = [.put g.stateCf appliedKey
              (Prost.encodeToVec (LogIdMessage.fromLogId last.logId))] := by
            rw [positionWrite, hlast]
            rfl
          rw [hwrites, hall, if_pos rfl, hposition, List.map_singleton]
          -- the position is the last write
          cases hreaches : incident.reaches _ with
          | true =>
              rw [Incident.cut_eq_self hreaches, written, List.foldl_concat, ← written]
              simp [Storage.write_singleton, Storage.get_apply_put]
          | false =>
              rw [List.length_append, List.length_singleton] at hreaches
              rw [Incident.cut_concat_of_not_reaches hreaches, hentries _ (incident.cut_subset _)]
              simp

theorem get_appliedKey_step {incidents : List NodeIncident}
    {node node' : Running Node Files WriteBatch} (hrun : runIncidents incidents = some node)
    {incident : NodeIncident} (hstep : nodeProcess.step node incident = some node')
    (g : RaftGroup) :
    node'.state.storage.get g.stateCf appliedKey =
      ((appliedBy g incident).map fun id => Prost.encodeToVec (LogIdMessage.fromLogId id)).or
        (node.state.storage.get g.stateCf appliedKey) := by
  have hkeys : voteKey ≠ appliedKey ∧ membershipKey ≠ appliedKey := by decide
  rw [get_stateCf_step hrun hstep, appliedBy]
  obtain ⟨g', call⟩ := incident.of
  by_cases hg : g' = g
  · subst hg
    have hlog : ∀ op : LogOp, (written node.state.storage
        (incident.cut (op.writes g' node.state.storage))).get g'.stateCf appliedKey =
          node.state.storage.get g'.stateCf appliedKey := by
      intro op
      refine get_written_of_ne (fun batch hbatch o ho heq => ?_) _
      have hcf := cf_logOp_writes (incident.cut_subset _ hbatch) ho
      rw [← o.update_cf, heq] at hcf
      exact logCf_ne_stateCf g' g' hcf.symm
    rw [GroupCall.writes_eq]
    cases call with
    | append entries => exact hlog (.append entries)
    | truncate id => exact hlog (.truncate id)
    | purge id => exact hlog (.purge id)
    | saveVote vote =>
        refine (get_written_of_ne (fun batch hbatch o ho heq => ?_) _).trans rfl
        obtain rfl := List.mem_singleton.mp (incident.cut_subset _ hbatch)
        obtain rfl := List.mem_singleton.mp ho
        exact hkeys.1 (congrArg Prod.snd heq)
    | apply entries =>
        refine (get_cut_apply incident g' entries node.state.storage).trans ?_
        simp
    | installSnapshot pathExists snapshotMeta snapshotData =>
        simp only [GroupCall.recordWrites]
        cases hchecks : (snapshotMeta.snapshotId.isEmpty || !pathExists snapshotMeta.snapshotId ||
          snapshotData.isEmpty) with
        | true => simp [written]
        | false =>
            have hmembership : ∀ batch ∈ ([[.put g'.stateCf membershipKey (Prost.encodeToVec
                (MembershipMessage.fromMembership snapshotMeta.lastMembership))]] :
                  List WriteBatch), ∀ o ∈ batch, o.update.1 ≠ (g'.stateCf, appliedKey) := by
              intro batch hbatch o ho heq
              obtain rfl := List.mem_singleton.mp hbatch
              obtain rfl := List.mem_singleton.mp ho
              exact hkeys.2 (congrArg Prod.snd heq)
            rw [installWrites]
            cases snapshotMeta.lastLogId with
            | none =>
                refine (get_written_of_ne (fun batch hbatch =>
                  hmembership batch (incident.cut_subset _ hbatch)) _).trans ?_
                simp
            | some id =>
                refine (get_cut_put _ hmembership node.state.storage).trans ?_
                cases incident.reaches 1 <;> simp
    | _ =>
        simp only [GroupCall.recordWrites, Incident.cut_nil]
        rfl
  · rw [get_written_of_ne fun batch hbatch o ho =>
      ne_of_other hg (incident.cut_subset _ hbatch) ho _]
    cases call <;> simp [hg]

end Records

section Votes

variable [Prost VoteMessage]

/-- The last vote is on record, and in the cache if there is one. -/
structure VoteKept (g : RaftGroup) (store : RocksDBLogStorage) (last : Option Vote) : Prop where
  persisted : store.storage.get g.stateCf voteKey =
    last.map fun vote => Prost.encodeToVec (VoteMessage.fromVote vote)
  cached : ∀ vote, store.cachedVote = some vote →
    last.map Vote.uncommitted = some vote.uncommitted

omit [Prost VoteMessage] in
@[simp]
theorem Vote.uncommitted_uncommitted (vote : Vote) :
    vote.uncommitted.uncommitted = vote.uncommitted := rfl

/-- The last vote is read, and stays. -/
theorem VoteKept.readVote {g : RaftGroup} {store : RocksDBLogStorage} {last : Option Vote}
    (h : VoteKept g store last) :
    ∃ vote store', (RocksDBLogStorage.readVote g).run store = .ok vote store' ∧
      vote.map Vote.uncommitted = last.map Vote.uncommitted ∧ VoteKept g store' last := by
  cases hcache : store.cachedVote with
  | some vote =>
      exact ⟨some vote, store, readVote_run_hit hcache, (h.cached vote hcache).symm, h⟩
  | none =>
      cases last with
      | none => exact ⟨none, store, readVote_run_none hcache h.persisted, rfl, h⟩
      | some vote =>
          refine ⟨_, _, readVote_run_decode hcache h.persisted, rfl, h.persisted, ?_⟩
          rintro cached ⟨⟩
          rfl

end Votes

section Memory

variable [MembershipApi] [Prost LogIdMessage] [Prost MembershipMessage] [Prost VoteMessage]
  [Bincode Operation]

omit [MembershipApi] [Prost LogIdMessage] [Prost MembershipMessage] [Prost VoteMessage]
  [Bincode Operation] in
/-- What a call on a component leaves of the whole. -/
theorem leaves_zoom {ε σ ρ α : Type} {view : σ → ρ} {set : σ → ρ → σ} (op : EStateM ε ρ α)
    (s : σ) :
    leaves ((Footprint.zoom view set op).run s) = set s (leaves (op.run (view s))) := by
  rw [Footprint.run_zoom]
  cases op.run (view s) <;> rfl

omit [MembershipApi] [Prost LogIdMessage] [Prost MembershipMessage] [Prost VoteMessage]
  [Bincode Operation] in
/-- What a call leaves does not depend on the answer made of it. -/
theorem leaves_bind_pure {ε σ α β : Type} (op : EStateM ε σ α) (f : α → β) (s : σ) :
    leaves ((op >>= fun a => pure (f a)).run s) = leaves (op.run s) := by
  rw [EStateM.run_bind]
  cases op.run s <;> rfl

omit [MembershipApi] [Prost LogIdMessage] [Prost MembershipMessage] [Prost VoteMessage]
  [Bincode Operation] in
theorem leaves_reading {α : Type} (read : Storage → Except Failure α) (node : Node) :
    leaves ((reading read).run node) = node := by
  have hrun : (reading read).run node =
      (MonadExcept.ofExcept (read node.storage) : NodeM α).run node := rfl
  rw [hrun]
  cases read node.storage <;> rfl

/-- Only calls on the vote change its cache. -/
theorem cachedVote_call (g : RaftGroup) {call : GroupCall}
    (hsave : ∀ vote, call ≠ .saveVote vote) (hread : call ≠ .readVote) (node : Node) :
    ((leaves ((call.call g).run node)).logStorage g).cachedVote =
      (node.logStorage g).cachedVote := by
  have hlog : ∀ op : RaftM Unit, ((leaves ((onLogStorage g (onStorage op) >>=
      fun _ => pure GroupAnswer.unit).run node)).logStorage g).cachedVote =
        (node.logStorage g).cachedVote := by
    intro op
    rw [leaves_bind_pure, onLogStorage, leaves_zoom, onStorage_eq_zoom, leaves_zoom]
    simp [Node.logStorage, Node.withLogStorage]
  have hmachine : ∀ {α : Type} (op : MachineM α) (answer : α → GroupAnswer),
      ((leaves ((onStateMachine g op >>= fun a => pure (answer a)).run node)).logStorage
        g).cachedVote = (node.logStorage g).cachedVote := by
    intro α op answer
    rw [leaves_bind_pure, onStateMachine, leaves_zoom]
    simp [Node.logStorage, Node.withStateMachine]
  have hreading : ∀ {α : Type} (read : Storage → Except Failure α) (answer : α → GroupAnswer),
      ((leaves ((reading read >>= fun a => pure (answer a)).run node)).logStorage g).cachedVote =
        (node.logStorage g).cachedVote := by
    intro α read answer
    rw [leaves_bind_pure, leaves_reading]
  cases call with
  | append entries => exact hlog _
  | truncate id => exact hlog _
  | purge id => exact hlog _
  | getLogState => exact hreading _ _
  | tryGetLogEntries range => exact hreading _ _
  | readerTryGetLogEntries range => exact hreading _ _
  | saveVote vote => exact absurd rfl (hsave vote)
  | readVote => exact absurd rfl hread
  | apply entries => exact hmachine _ _
  | appliedState =>
      exact hmachine (RocksDBStateMachine.appliedState g) fun answer =>
        GroupAnswer.applied answer.1 answer.2
  | buildSnapshot snapshotId => exact hreading _ fun snapshot => .snapshot (some snapshot)
  | installSnapshot pathExists snapshotMeta snapshotData => exact hmachine _ fun _ => .unit
  | getCurrentSnapshot => rfl

/-- The cache of the vote after a call. -/
theorem cached_after (g g' : RaftGroup) (call : GroupCall) {node : Node} {last : Option Vote}
    (h : VoteKept g (node.logStorage g) last) {vote : Vote}
    (hvote : ((leaves ((call.call g').run node)).logStorage g).cachedVote = some vote) :
    ((votedBy g (.call (g', call))).or last).map Vote.uncommitted = some vote.uncommitted := by
  have hstore : ∀ {α : Type} (op : LogStorageM α) (answer : α → GroupAnswer),
      (leaves ((onLogStorage g op >>= fun a => pure (answer a)).run node)).logStorage g =
        leaves (op.run (node.logStorage g)) := by
    intro α op answer
    rw [leaves_bind_pure, onLogStorage, leaves_zoom]
    simp [Node.logStorage, Node.withLogStorage]
  by_cases hg : g' = g
  · subst hg
    by_cases hsave : ∃ saved, call = .saveVote saved
    · obtain ⟨saved, rfl⟩ := hsave
      rw [GroupCall.call, hstore] at hvote
      obtain rfl : saved = vote := Option.some.inj hvote
      simp [votedBy, Incident.of, Incident.reaches]
    · have hnone : votedBy g' (.call (g', call)) = none := by
        cases call with
        | saveVote saved => exact absurd ⟨saved, rfl⟩ hsave
        | _ => rfl
      rw [hnone, Option.none_or]
      by_cases hread : call = .readVote
      · subst hread
        obtain ⟨answer, store, hrun, -, hkept⟩ := h.readVote
        rw [GroupCall.call, hstore, hrun] at hvote
        exact hkept.cached vote hvote
      · rw [cachedVote_call g' (fun saved heq => hsave ⟨saved, heq⟩) hread] at hvote
        exact h.cached vote hvote
  · have hnone : votedBy g (.call (g', call)) = none := by
      cases call <;> simp [votedBy, Incident.of, hg]
    have hsame := congrArg Prod.snd (leaves_of_avoids (avoids_call (Ne.symm hg) call) node)
    rw [hnone, Option.none_or]
    rw [Node.logStorage, show (leaves ((call.call g').run node)).memory g = _ from hsame] at hvote
    exact h.cached vote hvote

theorem voteKept_step {incidents : List NodeIncident}
    {node node' : Running Node Files WriteBatch} (hrun : runIncidents incidents = some node)
    {incident : NodeIncident} (hstep : nodeProcess.step node incident = some node')
    (g : RaftGroup) {last : Option Vote} (h : VoteKept g (node.state.logStorage g) last) :
    VoteKept g (node'.state.logStorage g) ((votedBy g incident).or last) where
  persisted := by
    refine (get_voteKey_step hrun hstep g).trans ?_
    rw [show node.state.storage.get g.stateCf voteKey = _ from h.persisted]
    cases votedBy g incident <;> rfl
  cached := by
    intro vote hvote
    have hrestarted : ∀ (files : Files) (s : Node), node' = nodeProcess.started s →
        nodeProcess.start files = some s →
        ((votedBy g incident).or last).map Vote.uncommitted = some vote.uncommitted := by
      rintro files s rfl hs
      obtain ⟨t, -, rfl⟩ := Node.restart_eq_some hs
      contradiction
    cases incident with
    | call c =>
        obtain rfl := Option.some.inj hstep
        exact cached_after g c.1 c.2 h hvote
    | crash c issued =>
        obtain ⟨s, hs, rfl⟩ := Option.map_eq_some_iff.mp hstep
        exact hrestarted _ s rfl hs
    | outage c issued kept =>
        obtain ⟨s, hs, rfl⟩ := Option.map_eq_some_iff.mp hstep
        exact hrestarted _ s rfl hs

/-- Whatever crashes and power outages there are, the vote that is read is the last one
that was written and the position on record is that of the last application that issued
all its writes: neither is ever lost or undone. -/
theorem votes_and_positions_survive (incidents : List NodeIncident)
    (node : Running Node Files WriteBatch) (hrun : runIncidents incidents = some node)
    (g : RaftGroup) :
    (∃ vote store, (RocksDBLogStorage.readVote g).run (node.state.logStorage g) = .ok vote store ∧
        vote.map Vote.uncommitted = (lastBy (votedBy g) incidents).map Vote.uncommitted) ∧
      readApplied g node.state.storage = .ok (lastBy (appliedBy g) incidents) := by
  have hkept : VoteKept g (node.state.logStorage g) (lastBy (votedBy g) incidents) ∧
      node.state.storage.get g.stateCf appliedKey = (lastBy (appliedBy g) incidents).map
        fun id => Prost.encodeToVec (LogIdMessage.fromLogId id) := by
    induction incidents using List.reverseRecOn generalizing node with
    | nil =>
        obtain rfl := Option.some.inj hrun
        exact ⟨⟨Storage.get_new _ _, by rintro vote ⟨⟩⟩, Storage.get_new _ _⟩
    | append_singleton incidents incident ih =>
        obtain ⟨earlier, hearlier, hstep⟩ := Process.run_concat_eq_some.mp hrun
        obtain ⟨hvote, hposition⟩ := ih earlier hearlier
        rw [lastBy_concat, lastBy_concat]
        refine ⟨voteKept_step hearlier hstep g hvote, ?_⟩
        rw [get_appliedKey_step hearlier hstep g, hposition]
        cases appliedBy g incident <;> rfl
  obtain ⟨vote, store, hread, hsame, -⟩ := hkept.1.readVote
  refine ⟨⟨vote, store, hread, hsame⟩, ?_⟩
  rw [readApplied, hkept.2]
  cases lastBy (appliedBy g) incidents <;> simp

end Memory

namespace Witness

/-- The power fails after the write of an entry and before the one of its position. -/
def outageInApply : List NodeIncident :=
  voteThenAppend ++ [.outage (.dataRaft, .apply [firstEntry]) 1 0]

/-- The vote is read after the outage, and no entry counts as applied. -/
theorem outageInApply_survived :
    ∃ node, runIncidents outageInApply = some node ∧
      (∃ vote store, (RocksDBLogStorage.readVote .dataRaft).run
          (node.state.logStorage .dataRaft) = .ok vote store ∧
        vote.map Vote.uncommitted = some ⟨⟨3, 1⟩, false⟩) ∧
      readApplied .dataRaft node.state.storage = .ok none := by
  refine ⟨_, rfl, ?_⟩
  exact votes_and_positions_survive outageInApply _ rfl .dataRaft

end Witness

section Appends

variable [MembershipApi] [Prost LogIdMessage] [Prost MembershipMessage] [Prost VoteMessage]
  [Bincode Operation]

/-- A call after which everything before it is on disk. -/
def GroupCall.syncs (g : RaftGroup) (call : GroupCall) : Bool :=
  (call.recordWrites g).any WriteBatch.requiresFsync

theorem syncs_iff {g : RaftGroup} {node : Node} {call : GroupCall} :
    (∃ batch ∈ call.writes g node, batch.requiresFsync = true) ↔ call.syncs g = true := by
  rw [GroupCall.syncs, List.any_eq_true]
  constructor
  · rintro ⟨batch, hbatch, hsync⟩
    rcases mem_writes_cases hbatch with hlog | hrecord
    · obtain ⟨o, ho, hcf⟩ := List.any_eq_true.mp hsync
      rw [hlog o ho, g.requiresFsync_logCf] at hcf
      contradiction
    · exact ⟨batch, hrecord, hsync⟩
  · rintro ⟨batch, hbatch, hsync⟩
    cases call with
    | append entries => simp [GroupCall.recordWrites] at hbatch
    | truncate id => simp [GroupCall.recordWrites] at hbatch
    | purge id => simp [GroupCall.recordWrites] at hbatch
    | _ => exact ⟨batch, (GroupCall.writes_eq g node _).symm ▸ hbatch, hsync⟩

theorem callWrites_sync_iff {node : Node} {calls : List (RaftGroup × GroupCall)} :
    (∃ batch ∈ nodeProcess.callWrites node calls, nodeProcess.sync batch = true) ↔
      ∃ call ∈ calls, call.2.syncs call.1 = true := by
  induction calls generalizing node with
  | nil => simp [Process.callWrites]
  | cons call calls ih =>
      rw [Process.callWrites, List.exists_mem_cons_iff, ← ih, ← syncs_iff]
      simp only [List.mem_append, or_and_right, exists_or]
      exact Iff.rfl

/-- An append that returned is safe from power outages once either group has written a Raft
state: an outage then goes back no further than to the calls since the append.  Until then
an outage can undo the append and leave the files as they were before it. -/
theorem append_survives_outages (incidents : List NodeIncident)
    (node later : Running Node Files WriteBatch) (g : RaftGroup) (entries : List Entry)
    (calls : List (RaftGroup × GroupCall)) (call : RaftGroup × GroupCall)
    (hrun : runIncidents incidents = some node)
    (hlater : nodeProcess.run node (((g, .append entries) :: calls).map .call) = some later) :
    ((∃ c ∈ calls, c.2.syncs c.1 = true) → ∀ issued kept node',
        nodeProcess.step later (.outage call issued kept) = some node' →
        ∃ before call' issued' behind, calls ++ [call] = before ++ call' :: behind ∧
          node'.state.storage.db = nodeProcess.crashed (nodeProcess.afterCalls
            (nodeProcess.after (g, .append entries) node.state) before) call' issued') ∧
      ((∀ c ∈ calls, c.2.syncs c.1 = false) → ∃ kept,
        nodeProcess.step later (.outage call 0 kept) =
          (nodeProcess.start node.state.storage.db).map nodeProcess.started) := by
  constructor
  · intro hsyncs issued kept node' hstep
    have happended : runIncidents (incidents ++ [.call (g, .append entries)]) =
        nodeProcess.step node (.call (g, .append entries)) := by
      rw [runIncidents, Process.run_append, show nodeProcess.run _ incidents = _ from hrun]
      rfl
    exact Process.outage_behind happended (callWrites_sync_iff.mpr hsyncs) hlater hstep
  · intro hunsynced
    refine ⟨_, Process.outage_undoes hrun (fun batch hbatch => ?_) hlater call⟩
    cases hsync : nodeProcess.sync batch with
    | false => rfl
    | true =>
        obtain ⟨c, hc, hsyncs⟩ := callWrites_sync_iff.mp ⟨batch, hbatch, hsync⟩
        rcases List.mem_cons.mp hc with rfl | hc
        · simp [GroupCall.syncs, GroupCall.recordWrites] at hsyncs
        · rw [hunsynced c hc] at hsyncs
          contradiction

end Appends

namespace Witness

/-- After the vote, before the entry. -/
def afterVote : List NodeIncident :=
  [.call (.dataRaft, .saveVote ⟨⟨3, 1⟩, false⟩)]

/-- An entry is appended and the other group saves a vote: no outage goes back behind the
entry.  Without that vote some outage does. -/
theorem firstEntry_survives :
    ∃ node later later', runIncidents afterVote = some node ∧
      nodeProcess.run node [.call (.dataRaft, .append [firstEntry]),
        .call (.systemRaft, .saveVote ⟨⟨1, 1⟩, false⟩)] = some later ∧
      nodeProcess.run node [.call (.dataRaft, .append [firstEntry])] = some later' ∧
      (∀ issued kept node',
        nodeProcess.step later (.outage (.dataRaft, .getLogState) issued kept) = some node' →
        ∃ before call' issued' behind,
          [(.systemRaft, .saveVote ⟨⟨1, 1⟩, false⟩), (.dataRaft, .getLogState)] =
            before ++ call' :: behind ∧
          node'.state.storage.db = nodeProcess.crashed (nodeProcess.afterCalls
            (nodeProcess.after (.dataRaft, .append [firstEntry]) node.state) before)
              call' issued') ∧
      ∃ kept, nodeProcess.step later' (.outage (.dataRaft, .getLogState) 0 kept) =
        (nodeProcess.start node.state.storage.db).map nodeProcess.started := by
  refine ⟨_, _, _, rfl, rfl, rfl, ?_, ?_⟩
  · exact (append_survives_outages afterVote _ _ .dataRaft [firstEntry]
      [(.systemRaft, .saveVote ⟨⟨1, 1⟩, false⟩)] (.dataRaft, .getLogState) rfl rfl).1
        ⟨_, List.mem_singleton_self _, rfl⟩
  · exact (append_survives_outages afterVote _ _ .dataRaft [firstEntry] []
      (.dataRaft, .getLogState) rfl rfl).2 (by simp)

end Witness

end Seshat
