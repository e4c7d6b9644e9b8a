/-
Votes.  A saved vote is written through a cache.  The persisted message has no
field for the committed flag, so that only the cache knows it; what is read after
a restart is an uncommitted vote of the same leader.
-/
import Seshat.Storage.Reopen
import Seshat.Storage.Traces
import Seshat.Storage.Wire

namespace Seshat

open Tracing Traced

def voteKey : Bytes := Decimal.ascii "vote"

/-- The log storage of a Raft group: the shared database and its own cached vote. -/
structure RocksDBLogStorage where
  storage : Storage
  cachedVote : Option Vote

abbrev LogStorageM := EStateM Failure RocksDBLogStorage

/-- A call that only works on the database. -/
def onStorage {α : Type} (op : RaftM α) : LogStorageM α := fun store =>
  match op.run store.storage with
  | .ok a t => .ok a { store with storage := t }
  | .error e t => .error e { store with storage := t }

namespace RocksDBLogStorage

/-- `RocksDBLogStorage::new` over a database. -/
def new (s : Storage) : RocksDBLogStorage := ⟨s, none⟩

variable [Prost VoteMessage]

def saveVote (g : RaftGroup) (vote : Vote) : LogStorageM Unit := do
  onStorage (mapErr .vote .write
    (put g.stateCf voteKey (Prost.encodeToVec (VoteMessage.fromVote vote))))
  modify fun store => { store with cachedVote := some vote }

/-- The cache answers first; what is decoded on a miss is cached. -/
def readVote (g : RaftGroup) : LogStorageM (Option Vote) := do
  match (← get).cachedVote with
  | some vote => return some vote
  | none =>
      match (← get).storage.get g.stateCf voteKey with
      | none => return none
      | some bytes =>
          match Prost.decode bytes with
          | .error e => throw (ioError .vote .read e)
          | .ok (msg : VoteMessage) =>
              let vote := msg.toVote
              modify fun store => { store with cachedVote := some vote }
              return some vote

end RocksDBLogStorage

/-- A call that only works on the database, with its writes. -/
def tracedOnStorage {α : Type} (op : TracedM Failure Storage α) :
    TracedM Failure RocksDBLogStorage α :=
  op.zoom RocksDBLogStorage.storage fun store s => { store with storage := s }

theorem onStorage_eq_zoom {α : Type} (op : RaftM α) :
    onStorage op = Footprint.zoom RocksDBLogStorage.storage
      (fun store s => { store with storage := s }) op := by
  funext store
  rw [onStorage, Footprint.zoom]
  cases op.run store.storage <;> rfl

@[simp]
theorem forget_tracedOnStorage {α : Type} (op : TracedM Failure Storage α) :
    (tracedOnStorage op).forget = onStorage op.forget :=
  (onStorage_eq_zoom op.forget).symm

section Trace

variable [Prost VoteMessage]

def RocksDBLogStorage.tracedSaveVote (g : RaftGroup) (vote : Vote) :
    TracedM Failure RocksDBLogStorage Unit := do
  tracedOnStorage (tracedMapErr .vote .write
    (tracedPut g.stateCf voteKey (Prost.encodeToVec (VoteMessage.fromVote vote))))
  quiet (modify fun store => { store with cachedVote := some vote })

@[simp]
theorem forget_tracedSaveVote (g : RaftGroup) (vote : Vote) :
    (RocksDBLogStorage.tracedSaveVote g vote).forget = RocksDBLogStorage.saveVote g vote := by
  simp [RocksDBLogStorage.tracedSaveVote, RocksDBLogStorage.saveVote]

theorem accounts_tracedSaveVote (g : RaftGroup) (vote : Vote) :
    Accounts RocksDBLogStorage.storage Storage.write
      (RocksDBLogStorage.tracedSaveVote g vote) := by
  refine Accounts.bind ?_ fun _ => accounts_modify fun _ => rfl
  exact ((accounts_tracedPut _ _ _).adaptExcept _).zoom (fun _ => rfl) fun _ _ => rfl

end Trace

/-- Decoding forgets that a vote was committed. -/
theorem toVote_fromVote_eq_iff (vote : Vote) :
    (VoteMessage.fromVote vote).toVote = vote ↔ vote.committed = false := by
  obtain ⟨leader, committed⟩ := vote
  simp [VoteMessage.fromVote, VoteMessage.toVote, Vote.new, eq_comm]

/-- What happens to the votes of a group. -/
inductive VoteOp where
  | save (vote : Vote)
  | read
  | reopen

def VoteOp.saved : VoteOp → Option Vote
  | save vote => some vote
  | _ => none

def lastSaved (ops : List VoteOp) : Option Vote :=
  (ops.filterMap VoteOp.saved).getLast?

theorem lastSaved_concat (ops : List VoteOp) (op : VoteOp) :
    lastSaved (ops ++ [op]) = op.saved.or (lastSaved ops) := by
  cases op <;> simp [lastSaved, VoteOp.saved]

section Histories

variable [Prost VoteMessage]

/-- The store after a vote was saved. -/
theorem saveVote_run (g : RaftGroup) (vote : Vote) (store : RocksDBLogStorage) :
    (RocksDBLogStorage.saveVote g vote).run store =
      .ok () ⟨store.storage.apply (.put g.stateCf voteKey
        (Prost.encodeToVec (VoteMessage.fromVote vote))), some vote⟩ := by
  rfl

theorem readVote_run_hit {g : RaftGroup} {store : RocksDBLogStorage} {vote : Vote}
    (hcache : store.cachedVote = some vote) :
    (RocksDBLogStorage.readVote g).run store = .ok (some vote) store := by
  simp [RocksDBLogStorage.readVote, hcache]

theorem readVote_run_none {g : RaftGroup} {store : RocksDBLogStorage}
    (hcache : store.cachedVote = none) (hget : store.storage.get g.stateCf voteKey = none) :
    (RocksDBLogStorage.readVote g).run store = .ok none store := by
  simp [RocksDBLogStorage.readVote, hcache, hget]

theorem readVote_run_decode {g : RaftGroup} {store : RocksDBLogStorage} {vote : Vote}
    (hcache : store.cachedVote = none) (hget : store.storage.get g.stateCf voteKey =
      some (Prost.encodeToVec (VoteMessage.fromVote vote))) :
    (RocksDBLogStorage.readVote g).run store =
      .ok (some (VoteMessage.fromVote vote).toVote)
        { store with cachedVote := some (VoteMessage.fromVote vote).toVote } := by
  simp [RocksDBLogStorage.readVote, hcache, hget]

/-- The store after a call that succeeded.  Reopening starts with an empty cache. -/
def VoteOp.step (g : RaftGroup) (store : RocksDBLogStorage) : VoteOp → Option RocksDBLogStorage
  | save vote =>
      match (RocksDBLogStorage.saveVote g vote).run store with
      | .ok _ t => some t
      | .error _ _ => none
  | read =>
      match (RocksDBLogStorage.readVote g).run store with
      | .ok _ t => some t
      | .error _ _ => none
  | reopen =>
      match store.storage.reopen with
      | .ok s => some (.new s)
      | .error _ => none

/-- The store after a history of votes, if every call of it succeeded. -/
def runVotes (g : RaftGroup) (ops : List VoteOp) : Option RocksDBLogStorage :=
  ops.foldlM (VoteOp.step g) (.new .new)

/-- What a history of votes leaves: no log, the last vote on disk, and in the cache
that vote or what its message decodes to. -/
structure VoteInvariant (g : RaftGroup) (store : RocksDBLogStorage) (last : Option Vote) :
    Prop where
  logs : ∀ (g' : RaftGroup) (key : Bytes), store.storage.get g'.logCf key = none
  persisted : store.storage.get g.stateCf voteKey =
    last.map fun vote => Prost.encodeToVec (VoteMessage.fromVote vote)
  cached : ∀ cached, store.cachedVote = some cached →
    ∃ vote, last = some vote ∧ (cached = vote ∨ cached = (VoteMessage.fromVote vote).toVote)

/-- A miss answers with what the persisted message decodes to. -/
theorem VoteInvariant.readVote_run {g : RaftGroup} {store : RocksDBLogStorage}
    {last : Option Vote} (h : VoteInvariant g store last) (hcache : store.cachedVote = none) :
    ∃ t, (RocksDBLogStorage.readVote g).run store =
        .ok (last.map fun vote => (VoteMessage.fromVote vote).toVote) t ∧
      VoteInvariant g t last := by
  cases last with
  | none => exact ⟨store, readVote_run_none hcache h.persisted, h⟩
  | some vote =>
      refine ⟨_, readVote_run_decode hcache h.persisted, h.logs, h.persisted, ?_⟩
      intro cached hcached
      exact ⟨vote, rfl, Or.inr (Option.some.inj hcached).symm⟩

theorem VoteInvariant.step {g : RaftGroup} {store : RocksDBLogStorage} {last : Option Vote}
    (h : VoteInvariant g store last) (op : VoteOp) :
    ∃ t, op.step g store = some t ∧ VoteInvariant g t (op.saved.or last) := by
  cases op with
  | save vote =>
      refine ⟨_, by rw [VoteOp.step, saveVote_run], ?_, ?_, ?_⟩
      · intro g' key
        have hcf : g'.logCf ≠ g.stateCf := by cases g' <;> cases g <;> decide
        rw [Storage.get_apply_put, if_neg fun heq => hcf heq.1]
        exact h.logs g' key
      · simp [VoteOp.saved]
      · intro cached hcached
        exact ⟨vote, rfl, Or.inl (Option.some.inj hcached).symm⟩
  | read =>
      cases hcache : store.cachedVote with
      | some vote =>
          exact ⟨store, by rw [VoteOp.step, readVote_run_hit hcache], h⟩
      | none =>
          obtain ⟨t, hrun, ht⟩ := h.readVote_run hcache
          exact ⟨t, by rw [VoteOp.step, hrun], ht⟩
  | reopen =>
      have hkeys : ∀ g' : RaftGroup, LogKeysOnly store.storage g'.logCf := by
        intro g' key value hget
        rw [h.logs] at hget
        contradiction
      obtain ⟨s, hs, hdb, -⟩ := reopen_of_openable hkeys fun g' => Or.inr (h.logs g')
      have hget : s.get = store.storage.get := Storage.get_eq_of_db_eq hdb
      refine ⟨.new s, by rw [VoteOp.step, hs], ?_, ?_, ?_⟩
      · intro g' key
        exact (congrFun (congrFun hget _) _).trans (h.logs g' key)
      · exact (congrFun (congrFun hget _) _).trans h.persisted
      · intro cached hcached
        contradiction

theorem runVotes_invariant (g : RaftGroup) (ops : List VoteOp) :
    ∃ store, runVotes g ops = some store ∧ VoteInvariant g store (lastSaved ops) := by
  induction ops using List.reverseRecOn with
  | nil =>
      refine ⟨_, rfl, fun g' key => Storage.get_new _ _, Storage.get_new _ _, ?_⟩
      intro cached hcached
      contradiction
  | append_singleton ops op ih =>
      obtain ⟨store, hrun, hinv⟩ := ih
      obtain ⟨t, hstep, ht⟩ := hinv.step op
      refine ⟨t, ?_, lastSaved_concat ops op ▸ ht⟩
      rw [runVotes] at hrun ⊢
      simp [List.foldlM_append, hrun, hstep]

/-- After the history the last saved vote is answered, from the cache as it is and
from the persisted message alone. -/
def VoteDurable (g : RaftGroup) (ops : List VoteOp) : Prop :=
  ∃ store, runVotes g ops = some store ∧
    returned ((RocksDBLogStorage.readVote g).run store) = .ok (lastSaved ops) ∧
    returned ((RocksDBLogStorage.readVote g).run { store with cachedVote := none }) =
      .ok (lastSaved ops)

/-- The last saved vote is durable exactly if it was not committed. -/
theorem voteDurable_iff (g : RaftGroup) (ops : List VoteOp) :
    VoteDurable g ops ↔ ∀ vote, lastSaved ops = some vote → vote.committed = false := by
  obtain ⟨store, hrun, hinv⟩ := runVotes_invariant g ops
  have hcold : VoteInvariant g { store with cachedVote := none } (lastSaved ops) :=
    ⟨hinv.logs, hinv.persisted, by rintro cached ⟨⟩⟩
  obtain ⟨t, hdecode, -⟩ := hcold.readVote_run rfl
  constructor
  · rintro ⟨store', hrun', -, hpersisted⟩ vote hvote
    rw [hrun] at hrun'
    cases hrun'
    rw [hdecode, hvote] at hpersisted
    have hsame : (VoteMessage.fromVote vote).toVote = vote :=
      Option.some.inj (Except.ok.inj hpersisted)
    exact (toVote_fromVote_eq_iff vote).mp hsame
  · intro huncommitted
    have hsame : (lastSaved ops).map (fun vote => (VoteMessage.fromVote vote).toVote) =
        lastSaved ops := by
      cases hlast : lastSaved ops with
      | none => rfl
      | some vote =>
          rw [Option.map_some, (toVote_fromVote_eq_iff vote).mpr (huncommitted vote hlast)]
    refine ⟨store, hrun, ?_, by rw [hdecode, hsame]; rfl⟩
    cases hcache : store.cachedVote with
    | none =>
        obtain ⟨u, hread, -⟩ := hinv.readVote_run hcache
        rw [hread, hsame]
        rfl
    | some cached =>
        obtain ⟨vote, hlast, hvote⟩ := hinv.cached cached hcache
        have hcached : cached = vote := by
          rcases hvote with rfl | rfl
          · rfl
          · exact (toVote_fromVote_eq_iff vote).mpr (huncommitted vote hlast)
        rw [readVote_run_hit hcache, hcached, hlast]
        rfl

end Histories

namespace Witness

/-- A committed vote of node 99 in term 10, and a restart. -/
def committedVote : List VoteOp :=
  [.save ⟨⟨10, 99⟩, true⟩, .reopen]

/-- After the restart the vote is read as one that is not committed. -/
theorem vote_loses_committed :
    ¬ VoteDurable .dataRaft committedVote ∧
      (runVotes .dataRaft committedVote).map
        (fun store => returned ((RocksDBLogStorage.readVote .dataRaft).run store)) =
          some (.ok (some ⟨⟨10, 99⟩, false⟩)) := by
  have hread : (runVotes .dataRaft committedVote).map
      (fun store => returned ((RocksDBLogStorage.readVote .dataRaft).run store)) =
        some (.ok (some ⟨⟨10, 99⟩, false⟩)) := by decide
  refine ⟨?_, hread⟩
  rintro ⟨store, hrun, hanswer, -⟩
  rw [hrun, Option.map_some, hanswer] at hread
  exact absurd hread (by decide)

end Witness

end Seshat
