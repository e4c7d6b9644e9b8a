/-
Crashes between two writes of one call.  An append writes its entries and then the
record of the last log id, a purge deletes entries and then records its id; each
write is atomic and they become durable in order.  What a restart finds in between
has the new entries under the old record, or the old record without its entries.
-/
import Seshat.Storage.LogState
import Seshat.Storage.Restart
import Seshat.Storage.Traces

namespace Seshat

open Decimal Keyed Utf8

section Runs

variable [MembershipApi] [Prost LogIdMessage] [Prost MembershipMessage]

/-- What holds of a store after any calls on the log of one group. -/
structure RunFacts (g : RaftGroup) (s : Storage) (entries : List Entry) : Prop where
  facts : ∃ purged, LogFacts g s entries purged
  cache : ∀ last, s.lastLogIndexCache g.logCf = some last → entries ≠ []
  other : ∀ g', g' ≠ g → ∀ key, s.get g'.logCf key = none

omit [MembershipApi] [Prost MembershipMessage] in
theorem RunFacts.keys {g : RaftGroup} {s : Storage} {entries : List Entry}
    (h : RunFacts g s entries) : LogKeysOnly s g.logCf := by
  obtain ⟨purged, hfacts⟩ := h.facts
  exact hfacts.keys

/-- The facts of the log alone, after one call. -/
theorem RunFacts.call {g : RaftGroup} {s : Storage} {entries : List Entry}
    (h : RunFacts g s entries) (op : LogOp) :
    (∃ t, (op.call g).run s = .ok () t ∧ (∃ purged, LogFacts g t (entries ++ op.entries) purged) ∧
        ∀ last, t.lastLogIndexCache g.logCf = some last → entries ++ op.entries ≠ []) ∨
      ∃ e, (op.call g).run s = .error e s := by
  obtain ⟨purged, hfacts⟩ := h.facts
  cases op with
  | append batch =>
      rcases append_call_cases g s batch with ⟨t, hrun, hextends⟩ | herror
      · refine Or.inl ⟨t, hrun, ⟨purged, hfacts.extends hextends⟩, fun last hlast hnil => ?_⟩
        obtain ⟨hentries, hbatch⟩ := List.append_eq_nil_iff.mp hnil
        rw [LogOp.entries] at hbatch
        rw [hextends.cache, hbatch] at hlast
        exact h.cache last hlast hentries
      · exact Or.inr herror
  | truncate id =>
      simp only [LogOp.call, LogOp.entries, List.append_nil]
      rcases truncate_run_known hfacts.keys id with ⟨last, -, hrun⟩ | ⟨-, hrun | ⟨e, hrun⟩⟩
      · refine Or.inl ⟨_, hrun, ⟨purged, (hfacts.setCache (some last)).truncated _ _⟩, ?_⟩
        intro last' hlast'
        rw [cache_truncated, Function.update_self] at hlast'
        contradiction
      · exact Or.inl ⟨s, hrun, ⟨purged, hfacts⟩, h.cache⟩
      · exact Or.inr ⟨e, hrun⟩
  | purge id =>
      simp only [LogOp.call, LogOp.entries, List.append_nil]
      by_cases hid : id.index.toNat + 1 < 2 ^ 64
      · rcases purge_run_known hfacts.keys hid with
          ⟨last, -, hrun⟩ | ⟨-, hmiss, ⟨-, hrun⟩ | ⟨-, e, hrun⟩⟩
        · refine Or.inl ⟨_, hrun, ⟨some id, hfacts.purged hid last⟩, fun last' hlast' => ?_⟩
          rw [cache_purged, Function.update_self] at hlast'
          contradiction
        · refine Or.inl ⟨_, hrun, ⟨some id, hfacts.put_purged id⟩, fun last' hlast' => ?_⟩
          rw [Storage.cache_apply, hmiss] at hlast'
          contradiction
        · exact Or.inr ⟨e, hrun⟩
      · exact Or.inr ⟨.panic, purge_run_overflow hid s⟩

end Runs

section Half

variable [MembershipApi] [Prost LogIdMessage] [Prost MembershipMessage]

end Half

section Crashes

variable [MembershipApi] [Prost LogIdMessage] [Prost MembershipMessage]

end Crashes

namespace Witness

end Witness

end Seshat
