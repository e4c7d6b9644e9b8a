/-
Isolation of the two Raft groups over whole runs.  Restarts are the one thing the groups
have in common: the database opens only if the last index of both logs can be read.
-/
import Seshat.Storage.Groups

namespace Seshat

open Footprint

section Restart

/-- The last index on file, as a start reads it for the cache. -/
def lastIndexOnFile (cf : ColumnFamily) (map : Std.ExtTreeMap Bytes Bytes) :
    Except StorageError (Option UInt64) :=
  returned ((getLastLogIndexFromDb cf).run ⟨fun _ => map, fun _ => none⟩)

theorem getLastLogIndexFromDb_run_onFile (s : Storage) (cf : ColumnFamily) :
    (getLastLogIndexFromDb cf).run s =
      match lastIndexOnFile cf (s.db cf) with
      | .ok last => .ok last s
      | .error e => .error e s := by
  rcases getLastLogIndexFromDb_run_cases (s := s)
      (t := ⟨fun _ => s.db cf, fun _ => none⟩) cf rfl with ⟨last, hs, ht⟩ | ⟨e, hs, ht⟩
  · simp [lastIndexOnFile, hs, ht, returned]
  · simp [lastIndexOnFile, hs, ht, returned]

/-- The files and caches of a group. -/
abbrev GroupFiles := ColumnFamily → Option (Std.ExtTreeMap Bytes Bytes × Option UInt64)

/-- The last index of the group's log can be read. -/
def Starts (g : RaftGroup) (part : GroupFiles × GroupMemory) : Prop :=
  ∃ map index last, part.1 g.logCf = some (map, index) ∧ lastIndexOnFile g.logCf map = .ok last

/-- A group after a restart: the files stay, the cache is read from them. -/
def restarted (g : RaftGroup) (part : GroupFiles × GroupMemory) : GroupFiles × GroupMemory :=
  (fun cf => (part.1 cf).map fun (map, _) =>
    (map, if cf = g.logCf then ((lastIndexOnFile cf map).toOption).join else none), .new)

theorem starts_nodePart {g : RaftGroup} {node : Node} :
    Starts g (nodePart g node) ↔
      ∃ last, lastIndexOnFile g.logCf (node.storage.db g.logCf) = .ok last := by
  simp [Starts, nodePart, ownFiles, g.owns_logCf, logPart]

/-- Only the two log column families have a cached index after a start. -/
theorem cache_of_reopen {s t : Storage} (hopen : s.reopen = .ok t) {cf : ColumnFamily}
    (hcf : cf.isLogCf = false) : t.lastLogIndexCache cf = none := by
  have hwarm : ∀ g : RaftGroup,
      Avoids (fun s : Storage => s.lastLogIndexCache cf) (warmUpCf g.logCf) := by
    intro g
    rw [warmUpCf]
    refine (avoids_getLastLogIndexFromDb _ _).bind fun index => ?_
    cases index with
    | none => exact avoids_pure _
    | some last =>
        refine avoids_modify fun s => Function.update_of_ne ?_ _ _
        rintro rfl
        rw [g.logCf_isLogCf] at hcf
        contradiction
  have hloop : Avoids (fun s : Storage => s.lastLogIndexCache cf) warmUpIndexCache := by
    rw [warmUpIndexCache_eq]
    exact (hwarm .systemRaft).bind fun _ => hwarm .dataRaft
  rw [Storage.reopen] at hopen
  split at hopen
  · rename_i u hrun
    cases hopen
    exact hloop.ok hrun
  · contradiction

theorem restart_restarts : Restarts nodePart Node.restart Starts restarted where
  isSome_iff := by
    intro node
    rw [Node.restart]
    rcases reopen_cases node.storage with ⟨t, hopen, -, hread⟩ | ⟨⟨e, herror⟩, g, e', hread⟩
    · rw [hopen]
      refine ⟨fun _ g => starts_nodePart.mpr ?_, fun _ => rfl⟩
      have hfile := getLastLogIndexFromDb_run_onFile node.storage g.logCf
      rw [hread g] at hfile
      cases hlast : lastIndexOnFile g.logCf (node.storage.db g.logCf) with
      | ok last => exact ⟨last, rfl⟩
      | error e =>
          rw [hlast] at hfile
          contradiction
    · rw [herror]
      refine ⟨fun h => by contradiction, fun h => ?_⟩
      obtain ⟨last, hlast⟩ := starts_nodePart.mp (h g)
      rw [getLastLogIndexFromDb_run_onFile, hlast] at hread
      contradiction
  part_eq := by
    intro node node' g hrestart
    rw [Node.restart] at hrestart
    rcases reopen_cases node.storage with ⟨t, hopen, hdb, hread⟩ | ⟨⟨e, herror⟩, -⟩
    · rw [hopen] at hrestart
      cases hrestart
      refine Prod.ext (funext fun cf => ?_) rfl
      simp only [nodePart, ownFiles, restarted]
      by_cases hcf : g.owns cf = true
      · rw [if_pos hcf, if_pos hcf, Option.map_some, logPart, logPart, hdb]
        by_cases hlog : cf = g.logCf
        · subst hlog
          have hfile := getLastLogIndexFromDb_run_onFile node.storage g.logCf
          rw [hread g] at hfile
          cases hlast : lastIndexOnFile g.logCf (node.storage.db g.logCf) with
          | error e =>
              rw [hlast] at hfile
              contradiction
          | ok last =>
              rw [hlast] at hfile
              cases hfile
              simp [Except.toOption]
        · have hnot : cf.isLogCf = false := by
            revert hcf hlog
            cases g <;> cases cf <;> decide
          simp [hlog, cache_of_reopen hopen hnot]
      · rw [if_neg hcf, if_neg hcf, Option.map_none]
    · rw [herror] at hrestart
      contradiction
  starts_restarted := by
    rintro g part ⟨map, index, last, hfile, hlast⟩
    refine ⟨map, ((lastIndexOnFile g.logCf map).toOption).join, last, ?_, hlast⟩
    simp [restarted, hfile]

theorem starts_new (g : RaftGroup) : Starts g (nodePart g .new) := by
  refine starts_nodePart.mpr ⟨none, ?_⟩
  have hempty : (getLastLogIndexFromDb g.logCf).run Node.new.storage = .ok none _ :=
    getLastLogIndexFromDb_run_empty g.logCf_isLogCf fun key => Storage.get_new _ key
  rw [getLastLogIndexFromDb_run_onFile] at hempty
  cases hlast : lastIndexOnFile g.logCf (Node.new.storage.db g.logCf) with
  | ok last =>
      rw [hlast] at hempty
      cases hempty
      rfl
  | error e =>
      rw [hlast] at hempty
      contradiction

end Restart

section Isolation

variable [MembershipApi] [Prost LogIdMessage] [Prost MembershipMessage] [Prost VoteMessage]
  [Bincode Operation]

theorem calls_isolated : Isolated nodePart fun g (call : GroupCall) => call.call g where
  reads := fun _ call => local_call call
  frames := fun call hne => avoids_call hne call

/-- A run of a node: calls of both groups in any order, and restarts. -/
def runNode (events : List (Event RaftGroup GroupCall)) (node : Node) :
    Option (List (RaftGroup × Except Failure GroupAnswer) × Node) :=
  runEvents (fun g call => call.call g) Node.restart events node

/-- However the calls of the two groups are interleaved, each group gets the answers of
its own calls alone and finds its column families and caches as these leave them.  The
node gets through its restarts exactly if each group alone does. -/
theorem runNode_isolates_groups (events : List (Event RaftGroup GroupCall)) :
    ((runNode events .new).isSome ↔ ∀ g, (runNode (own g events) .new).isSome) ∧
      ∀ answers node, runNode events .new = some (answers, node) →
        ∀ g, ∃ node', runNode (own g events) .new = some (answersTo g answers, node') ∧
          nodePart g node' = nodePart g node := by
  have hothers : ∀ g, OthersStart nodePart Starts g .new := fun g j _ => starts_new j
  constructor
  · constructor
    · intro hrun g
      obtain ⟨⟨answers, node⟩, hnode⟩ := Option.isSome_iff_exists.mp hrun
      obtain ⟨node', hown, -⟩ :=
        runEvents_own calls_isolated restart_restarts rfl (hothers g) hnode
      exact Option.isSome_of_mem hown
    · intro hruns
      exact runEvents_isSome calls_isolated restart_restarts (fun _ => .new) (fun _ => rfl) hruns
  · intro answers node hnode g
    exact runEvents_own calls_isolated restart_restarts rfl (hothers g) hnode

end Isolation

end Seshat
