/-
The codec of log payloads.  Blank and normal payloads come back as they were.  A
membership is flattened into one list of voters and one of learners, and rebuilt as a
single configuration whose nodes have the default address; it comes back only where
that is what it was.
-/
import Seshat.Storage.ReadBack
import Seshat.Storage.Wire

namespace Seshat

open Decimal

/-- Some configuration contains the node. -/
def Membership.Voter (m : Membership) (id : UInt64) : Prop :=
  ∃ config ∈ m.configs, id ∈ config

/-- What openraft documents of its membership type: voters are the nodes of any
configuration, learners the other nodes, and a new membership gives every voter and
learner the default node. -/
class LawfulMembershipApi [MembershipApi] : Prop where
  mem_voterIds : ∀ (m : Membership) (id : UInt64), id ∈ MembershipApi.voterIds m ↔ m.Voter id
  mem_learnerIds : ∀ (m : Membership) (id : UInt64),
    id ∈ MembershipApi.learnerIds m ↔ id ∈ m.nodes ∧ ¬ m.Voter id
  configs_new : ∀ configs learners, (MembershipApi.new configs learners).configs = configs
  nodes_new : ∀ (configs : List (Std.ExtTreeSet UInt64)) learners (id : UInt64) (node : BasicNode),
    (MembershipApi.new configs learners).nodes[id]? = some node ↔
      node = ⟨[]⟩ ∧ ((∃ config ∈ configs, id ∈ config) ∨ ∃ ids, learners = some ids ∧ id ∈ ids)

/-- One configuration, a node for each of its voters, and no address that is set. -/
structure Membership.Plain (m : Membership) : Prop where
  single : ∃ config, m.configs = [config]
  nodes : ∀ id, m.Voter id → id ∈ m.nodes
  addresses : ∀ (id : UInt64) (node : BasicNode), m.nodes[id]? = some node → node.addr = []

theorem Membership.eq_of_fields {m m' : Membership} (hconfigs : m.configs = m'.configs)
    (hnodes : m.nodes = m'.nodes) : m = m' := by
  obtain ⟨configs, nodes⟩ := m
  obtain ⟨configs', nodes'⟩ := m'
  rw [show configs = configs' from hconfigs, show nodes = nodes' from hnodes]

theorem mem_foldl_insertMany (voters : List VotersMessage) (ids : Std.ExtTreeSet UInt64)
    (id : UInt64) :
    id ∈ voters.foldl (fun ids voters => ids.insertMany voters.nodes) ids ↔
      id ∈ ids ∨ ∃ v ∈ voters, id ∈ v.nodes := by
  induction voters generalizing ids with
  | nil => simp
  | cons v voters ih =>
      rw [List.foldl_cons, ih, Std.ExtTreeSet.mem_insertMany_list]
      simp [or_assoc]

/-- An empty set of learners is passed as none. -/
theorem exists_mem_ite_iff (ids : Std.ExtTreeSet UInt64) (id : UInt64) :
    (∃ found, (if ids.isEmpty then none else some ids) = some found ∧ id ∈ found) ↔
      id ∈ ids := by
  by_cases hempty : ids.isEmpty = true
  · rw [if_pos hempty, Std.ExtTreeSet.isEmpty_iff.mp hempty]
    simp
  · rw [if_neg hempty]
    simp

section Rebuilt

variable [MembershipApi] [LawfulMembershipApi]

theorem mem_voters_reread (stored : StoredMembership) (id : UInt64) :
    id ∈ (MembershipMessage.fromMembership stored).voters.foldl
        (fun ids voters => ids.insertMany voters.nodes) (∅ : Std.ExtTreeSet UInt64) ↔
      stored.membership.Voter id := by
  rw [mem_foldl_insertMany, ← LawfulMembershipApi.mem_voterIds]
  simp [MembershipMessage.fromMembership, MembershipMessage.fromStoredMembership]

theorem mem_learners_reread (stored : StoredMembership) (id : UInt64) :
    id ∈ Std.ExtTreeSet.ofList (MembershipMessage.fromMembership stored).learners ↔
      id ∈ stored.membership.nodes ∧ ¬ stored.membership.Voter id := by
  rw [Std.ExtTreeSet.mem_ofList, List.contains_iff_mem, ← LawfulMembershipApi.mem_learnerIds]
  rfl

/-- The configurations of a decoded membership: all voters together. -/
theorem configs_reread (stored : StoredMembership) :
    ∃ config, (MembershipMessage.fromMembership stored).toMembership.membership.configs =
        [config] ∧
      ∀ id, id ∈ config ↔ stored.membership.Voter id :=
  ⟨_, LawfulMembershipApi.configs_new _ _, mem_voters_reread stored⟩

/-- The nodes of a decoded membership: voters and learners, with the default node. -/
theorem nodes_reread (stored : StoredMembership) (id : UInt64) (node : BasicNode) :
    (MembershipMessage.fromMembership stored).toMembership.membership.nodes[id]? = some node ↔
      node = ⟨[]⟩ ∧ (stored.membership.Voter id ∨ id ∈ stored.membership.nodes) := by
  have hnew := LawfulMembershipApi.nodes_new
    [(MembershipMessage.fromMembership stored).voters.foldl
      (fun ids voters => ids.insertMany voters.nodes) ∅]
    (if (Std.ExtTreeSet.ofList (MembershipMessage.fromMembership stored).learners).isEmpty then
      none
    else some (Std.ExtTreeSet.ofList (MembershipMessage.fromMembership stored).learners))
    id node
  rw [exists_mem_ite_iff, mem_learners_reread] at hnew
  simp only [List.mem_singleton, exists_eq_left, mem_voters_reread] at hnew
  refine hnew.trans (and_congr_right fun _ => ⟨?_, ?_⟩)
  · rintro (hvoter | ⟨hnode, -⟩)
    · exact Or.inl hvoter
    · exact Or.inr hnode
  · intro h
    by_cases hvoter : stored.membership.Voter id
    · exact Or.inl hvoter
    · exact Or.inr ⟨h.resolve_left hvoter, hvoter⟩

/-- A membership is rebuilt as it was exactly if it is plain. -/
theorem membership_reread_eq_iff (stored : StoredMembership) :
    (MembershipMessage.fromMembership stored).toMembership.membership = stored.membership ↔
      stored.membership.Plain := by
  obtain ⟨config, hconfigs, hmem⟩ := configs_reread stored
  have hnodes := nodes_reread stored
  constructor
  · intro heq
    rw [heq] at hconfigs hnodes
    refine ⟨⟨config, hconfigs⟩, fun id hvoter => ?_, fun id node hnode => ?_⟩
    · exact Std.ExtTreeMap.mem_iff_isSome_getElem?.mpr
        (Option.isSome_iff_exists.mpr ⟨_, (hnodes id ⟨[]⟩).mpr ⟨rfl, Or.inl hvoter⟩⟩)
    · rw [((hnodes id node).mp hnode).1]
  · rintro ⟨⟨single, hsingle⟩, hvoters, haddresses⟩
    have hvoter : ∀ id, stored.membership.Voter id ↔ id ∈ single := by
      intro id
      rw [Membership.Voter, hsingle]
      simp
    obtain rfl : config = single := Std.ExtTreeSet.ext_mem fun id =>
      (hmem id).trans (hvoter id)
    have hmap : (MembershipMessage.fromMembership stored).toMembership.membership.nodes =
        stored.membership.nodes := by
      refine Std.ExtTreeMap.ext_getElem? fun id => Option.ext fun node => ?_
      rw [hnodes]
      constructor
      · rintro ⟨rfl, hin⟩
        have hnode : id ∈ stored.membership.nodes := hin.elim (hvoters id) fun h => h
        obtain ⟨⟨addr⟩, hget⟩ := Option.isSome_iff_exists.mp
          (Std.ExtTreeMap.mem_iff_isSome_getElem?.mp hnode)
        rw [hget, show addr = [] from haddresses id ⟨addr⟩ hget]
      · intro hget
        refine ⟨?_, Or.inr (Std.ExtTreeMap.mem_iff_isSome_getElem?.mpr
          (Option.isSome_iff_exists.mpr ⟨node, hget⟩))⟩
        obtain ⟨addr⟩ := node
        rw [show addr = [] from haddresses id ⟨addr⟩ hget]
    exact Membership.eq_of_fields (hconfigs.trans hsingle.symm) hmap

/-- What `Membership::new` builds from one configuration is plain. -/
theorem plain_new (config : Std.ExtTreeSet UInt64) (learners : Option (Std.ExtTreeSet UInt64)) :
    (MembershipApi.new [config] learners).Plain where
  single := ⟨config, LawfulMembershipApi.configs_new _ _⟩
  nodes id hvoter := by
    rw [Membership.Voter, LawfulMembershipApi.configs_new] at hvoter
    exact Std.ExtTreeMap.mem_iff_isSome_getElem?.mpr (Option.isSome_iff_exists.mpr
      ⟨_, (LawfulMembershipApi.nodes_new _ _ id ⟨[]⟩).mpr ⟨rfl, Or.inl hvoter⟩⟩)
  addresses id node hnode := by
    rw [((LawfulMembershipApi.nodes_new _ _ id node).mp hnode).1]

theorem storedMembership_reread_eq_iff (stored : StoredMembership) :
    (MembershipMessage.fromMembership stored).toMembership = stored ↔
      stored.membership.Plain := by
  rw [← membership_reread_eq_iff]
  have hid : (MembershipMessage.fromMembership stored).toMembership.logId = stored.logId := by
    obtain ⟨logId, membership⟩ := stored
    cases logId <;> rfl
  constructor
  · exact fun heq => congrArg StoredMembership.membership heq
  · intro heq
    generalize (MembershipMessage.fromMembership stored).toMembership = rebuilt at hid heq ⊢
    obtain ⟨logId, membership⟩ := stored
    obtain ⟨logId', membership'⟩ := rebuilt
    obtain rfl : logId' = logId := hid
    obtain rfl : membership' = membership := heq
    rfl

/-- A payload is read back as it was exactly if it is no membership or a plain one. -/
theorem rereadPayload_eq_iff (entry : Entry) :
    rereadPayload entry = entry.payload ↔ ∀ m, entry.payload = .membership m → m.Plain := by
  obtain ⟨id, payload⟩ := entry
  cases payload with
  | blank => exact iff_of_true rfl (by rintro m ⟨⟩)
  | normal request => exact iff_of_true rfl (by rintro m ⟨⟩)
  | membership m =>
      have hiff := membership_reread_eq_iff ⟨some id, m⟩
      simp only [rereadPayload, EntryPayload.membership.injEq, forall_eq']
      exact hiff

variable [Prost MembershipMessage]

/-- Every payload that is no membership comes back from the log, and a membership, alone
or with its log id, exactly if it is plain. -/
theorem payload_roundTrip_iff (payload : EntryPayload) (id : LogId)
    (stored : StoredMembership) :
    (deserializeEntryPayload (serializeEntryPayload payload id) = .ok payload ↔
        ∀ m, payload = .membership m → m.Plain) ∧
      ((MembershipMessage.fromMembership stored).toMembership = stored ↔
        stored.membership.Plain) := by
  refine ⟨?_, storedMembership_reread_eq_iff stored⟩
  have hread := deserializeEntryPayload_entryBytes ⟨id, payload⟩
  rw [entryBytes] at hread
  rw [hread, Except.ok.injEq]
  exact rereadPayload_eq_iff ⟨id, payload⟩

end Rebuilt

namespace Witness

theorem getElem?_foldl_insert (ids : List UInt64) (nodes : Std.ExtTreeMap UInt64 BasicNode)
    (id : UInt64) :
    (ids.foldl (fun nodes id => nodes.insert id ⟨[]⟩) nodes)[id]? =
      if id ∈ ids then some (BasicNode.mk []) else nodes[id]? := by
  induction ids generalizing nodes with
  | nil => simp
  | cons first ids ih =>
      rw [List.foldl_cons, ih, Std.ExtTreeMap.getElem?_insert]
      by_cases hmem : id ∈ ids
      · simp [hmem]
      · simp [hmem, eq_comm (a := id)]

/-- The sorted sets of node ids obey the documented laws. -/
scoped instance : LawfulMembershipApi where
  mem_voterIds m id := by
    simp [MembershipApi.voterIds, Membership.Voter, Std.ExtTreeSet.mem_ofList]
  mem_learnerIds m id := by
    simp [MembershipApi.learnerIds, Membership.Voter]
  configs_new configs learners := rfl
  nodes_new configs learners id node := by
    simp only [MembershipApi.new, getElem?_foldl_insert]
    have hmem : id ∈ (configs ++ learners.toList).flatMap (fun ids => ids.toList) ↔
        (∃ config ∈ configs, id ∈ config) ∨ ∃ ids, learners = some ids ∧ id ∈ ids := by
      cases learners with
      | none => simp
      | some ids => simp
    rw [← hmem]
    split
    · rename_i hin
      rw [Option.some.injEq, and_iff_left hin, eq_comm]
    · rename_i hout
      exact iff_of_false (by simp) fun h => hout h.2

def nodeIds (ids : List UInt64) : Std.ExtTreeSet UInt64 :=
  .ofList ids

def nodeMap (nodes : List (UInt64 × BasicNode)) : Std.ExtTreeMap UInt64 BasicNode :=
  .ofList nodes

/-- Three voters and a learner, as `Membership::new` gives them. -/
def plainMembership : Membership :=
  MembershipApi.new [nodeIds [1, 2, 3]] (some (nodeIds [4]))

/-- Two configurations of a joint change, with addresses. -/
def jointMembership : Membership where
  configs := [nodeIds [1, 2], nodeIds [2, 3]]
  nodes := nodeMap [(1, ⟨ascii "a:1"⟩), (2, ⟨ascii "b:1"⟩), (3, ⟨ascii "c:1"⟩)]

/-- The plain membership comes back from the log. -/
theorem payload_plain_roundTrip :
    plainMembership.Plain ∧
      deserializeEntryPayload (serializeEntryPayload (.membership plainMembership) ⟨⟨1, 1⟩, 7⟩) =
        .ok (.membership plainMembership) := by
  have hplain : plainMembership.Plain := plain_new _ _
  refine ⟨hplain, (payload_roundTrip_iff _ _ ⟨none, plainMembership⟩).1.mpr ?_⟩
  rintro m ⟨⟩
  exact hplain

/-- The joint membership comes back as one configuration of nodes without addresses. -/
theorem payload_joint_merged :
    deserializeEntryPayload (serializeEntryPayload (.membership jointMembership)
        ⟨⟨1, 1⟩, 7⟩) ≠ .ok (.membership jointMembership) ∧
      (MembershipMessage.fromMembership ⟨none, jointMembership⟩).toMembership ≠
        ⟨none, jointMembership⟩ ∧
      deserializeEntryPayload (serializeEntryPayload (.membership jointMembership)
        ⟨⟨1, 1⟩, 7⟩) = .ok (.membership (MembershipApi.new [nodeIds [1, 2, 3]] none)) := by
  decide

end Witness

end Seshat
