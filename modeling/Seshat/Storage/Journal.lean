/-
A node of the data group on its own disk.  It appends entries to its log, reads those behind
its position back from there and has the state machine apply them; it may go down within a
batch and starts again from the position the machine reports.  The readers give entries back
under the wrong leader, and the position is recorded under it; the data is that of the
operations appended all the same.
-/
import Seshat.Storage.Recovery
import Seshat.Storage.Restart
import Seshat.Storage.Truncation

namespace Seshat

open Decimal Keyed Redo

/-- The database of a node, the position it is at, and on the side what was appended to the
log and handed to the state machine. -/
structure JournalNode where
  machine : RocksDBStateMachine
  position : Option LogId
  log : List Entry
  handed : List Entry

namespace JournalNode

def new : JournalNode := ⟨.new .new, none, [], []⟩

def storage (node : JournalNode) : Storage := node.machine.storage

end JournalNode

/-- Entries are appended; those up to an index are applied; or the node goes down after `k`
writes of such a batch. -/
inductive JournalStep where
  | append (entries : List Entry)
  | applyTo (stop : UInt64)
  | crash (stop : UInt64) (k : Nat)

namespace JournalStep

/-- The batches the steps append. -/
def batches (steps : List JournalStep) : List (List Entry) :=
  steps.filterMap fun
    | append entries => some entries
    | _ => none

end JournalStep

section Steps

variable [MembershipApi] [Prost LogIdMessage] [Prost MembershipMessage] [Bincode Operation]

/-- The entries behind the position up to `stop`, as the log storage returns them. -/
def nextEntries (s : Storage) (position : Option LogId) (stop : UInt64) :
    Except Failure (List Entry) :=
  match position with
  | none => RocksDBLogStorage.tryGetLogEntries .dataRaft s (.inclusive 0 stop)
  | some id =>
      if id.index < stop then
        RocksDBLogStorage.tryGetLogEntries .dataRaft s (.inclusive (id.index + 1) stop)
      else
        .ok []

def JournalNode.step (node : JournalNode) : JournalStep → Option JournalNode
  | .append entries =>
      match (RocksDBLogStorage.append .dataRaft entries).run node.storage with
      | .ok _ s =>
          some { node with machine := { node.machine with storage := s }
                           log := node.log ++ entries }
      | .error _ s => some { node with machine := { node.machine with storage := s } }
  | .applyTo stop =>
      match nextEntries node.storage node.position stop with
      | .error _ => none
      | .ok batch =>
          match (RocksDBStateMachine.apply .dataRaft batch).run node.machine with
          | .error _ _ => none
          | .ok _ machine =>
              some { node with machine
                               position := (batch.getLast?.map Entry.logId).or node.position
                               handed := node.handed ++ batch }
  | .crash stop k =>
      match nextEntries node.storage node.position stop with
      | .error _ => none
      | .ok batch =>
          match (RocksDBStateMachine.crashedIn .dataRaft batch k node.machine).reopen with
          | .error _ => none
          | .ok s =>
              match (RocksDBStateMachine.appliedState .dataRaft).run (.new s) with
              | .error _ _ => none
              | .ok (applied, _) machine =>
                  some { node with machine, position := applied
                                   handed := node.handed ++ batch }

def runJournal : List JournalStep → JournalNode → Option JournalNode
  | [], node => some node
  | step :: steps, node => (node.step step).bind (runJournal steps)

end Steps

/-! ## The data -/

/-- An operation as an update of the data. -/
def Operation.update : Operation → Overlay.Update Bytes Bytes
  | set key value => (key, some value)
  | del key => (key, none)

theorem Operation.getElem?_apply (op : Operation) (data : Data) :
    (fun key => (op.apply data).2[key]?) = Overlay.apply (fun key => data[key]?) op.update := by
  funext key
  cases op with
  | set key' value =>
      simp only [apply, update, Overlay.apply, Std.ExtTreeMap.getElem?_insert]
      by_cases hkey : key = key'
      · simp [hkey]
      · simp [hkey, Ne.symm hkey]
  | del key' =>
      simp only [apply, update, Overlay.apply, Std.ExtTreeMap.getElem?_erase]
      by_cases hkey : key = key'
      · simp [hkey]
      · simp [hkey, Ne.symm hkey]

theorem getElem?_foldl_apply (ops : List Operation) (data : Data) :
    (fun key => (ops.foldl (fun data op => (op.apply data).2) data)[key]?) =
      (ops.map Operation.update).foldl Overlay.apply fun key => data[key]? := by
  induction ops generalizing data with
  | nil => rfl
  | cons op ops ih =>
      rw [List.foldl_cons, ih, List.map_cons, List.foldl_cons, op.getElem?_apply]

/-- A write as an update of the data, if it is one. -/
def BatchOperation.dataUpdate? (op : BatchOperation) : Option (Overlay.Update Bytes Bytes) :=
  if op.update.1.1 = .dataKv then some (op.update.1.2, op.update.2) else none

theorem get_write_data (s : Storage) (batch : WriteBatch) :
    (s.write batch).get .dataKv =
      (batch.filterMap BatchOperation.dataUpdate?).foldl Overlay.apply (s.get .dataKv) := by
  induction batch generalizing s with
  | nil => rfl
  | cons op batch ih =>
      have hone : (s.apply op).get .dataKv =
          op.dataUpdate?.toList.foldl Overlay.apply (s.get .dataKv) := by
        funext key
        have hlookup := congrFun (Storage.lookup_apply s op) (.dataKv, key)
        rw [show (s.apply op).lookup (.dataKv, key) = (s.apply op).get .dataKv key from rfl]
          at hlookup
        rw [hlookup, BatchOperation.dataUpdate?]
        by_cases hcf : op.update.1.1 = .dataKv
        · rw [if_pos hcf]
          simp only [Option.toList_some, List.foldl_cons, List.foldl_nil, Overlay.apply]
          by_cases hkey : key = op.update.1.2
          · rw [if_pos hkey, if_pos (Prod.ext hcf.symm hkey)]
          · rw [if_neg hkey, if_neg fun heq => hkey (congrArg Prod.snd heq)]
            rfl
        · rw [if_neg hcf]
          simp only [Option.toList_none, List.foldl_nil, Overlay.apply]
          rw [if_neg fun heq => hcf (congrArg Prod.fst heq).symm]
          rfl
      rw [Storage.write, List.foldl_cons, ← Storage.write, ih, hone, List.filterMap_cons]
      cases op.dataUpdate? <;> rfl

section Updates

variable [MembershipApi] [Prost LogIdMessage] [Prost MembershipMessage] [Bincode Operation]

/-- The update of the data by an entry. -/
def dataUpdates (entry : Entry) : List (Overlay.Update Bytes Bytes) :=
  (entry.operation?.map Operation.update).toList

omit [MembershipApi] [Prost LogIdMessage] [Prost MembershipMessage] in
theorem flatMap_dataUpdates (entries : List Entry) :
    entries.flatMap dataUpdates = (operations entries).map Operation.update := by
  induction entries with
  | nil => rfl
  | cons entry entries ih =>
      rw [List.flatMap_cons, ih, operations, operations, List.filterMap_cons, dataUpdates]
      cases entry.operation? <;> rfl

omit [Prost LogIdMessage] in
theorem filterMap_entryWrites (entry : Entry) :
    (entryWrites .dataRaft entry).filterMap BatchOperation.dataUpdate? = dataUpdates entry := by
  obtain ⟨id, payload⟩ := entry
  cases payload with
  | blank => rfl
  | membership membership => rfl
  | normal request =>
      simp only [entryWrites, RaftGroup.kvCf, dataUpdates, Entry.operation?]
      cases hop : Operation.deserialize request.operationBytes with
      | error e => rfl
      | ok op => cases op <;> rfl

/-- The position is recorded elsewhere. -/
theorem filterMap_applyWrites (entries : List Entry) :
    (applyWrites .dataRaft entries).filterMap BatchOperation.dataUpdate? =
      entries.flatMap dataUpdates := by
  have hrecord : (positionWrite .dataRaft entries).filterMap BatchOperation.dataUpdate? = [] := by
    rw [positionWrite]
    cases entries.getLast? <;> rfl
  rw [applyWrites, List.filterMap_append, hrecord, List.append_nil, List.filterMap_flatMap]
  simp only [filterMap_entryWrites]

omit [Prost LogIdMessage] [Prost MembershipMessage] in
/-- An entry that is read back carries the operation it was stored with. -/
theorem dataUpdates_reread (lastLogId : Option LogId) (entry : Entry) :
    dataUpdates (rereadEntry lastLogId entry) = dataUpdates entry := by
  obtain ⟨id, payload⟩ := entry
  cases payload <;> rfl

omit [Prost LogIdMessage] [Prost MembershipMessage] in
theorem decodable_reread {lastLogId : Option LogId} {entry : Entry} (h : entry.Decodable) :
    (rereadEntry lastLogId entry).Decodable := by
  obtain ⟨id, payload⟩ := entry
  cases payload with
  | blank => simp [rereadEntry, rereadPayload, Entry.Decodable]
  | membership membership => simp [rereadEntry, rereadPayload, Entry.Decodable]
  | normal request => exact h

end Updates

/-! ## Reading on from the position -/

section Reading

variable [MembershipApi] [Prost LogIdMessage] [Prost MembershipMessage]

omit [MembershipApi] [Prost LogIdMessage] [Prost MembershipMessage] in
/-- Of a log cut where the range begins, the range is a beginning of the second part. -/
theorem filter_inRange_append {done rest : List Entry} (hascending : Ascending rest)
    {lo : UInt64} (hdone : ∀ entry ∈ done, entry.logId.index < lo)
    (hrest : ∀ entry ∈ rest, lo ≤ entry.logId.index) (stop : UInt64) :
    ∃ batch later, rest = batch ++ later ∧
      ((∀ entry ∈ rest, entry.logId.index ≤ stop) → later = []) ∧
      (done ++ rest).filter (inRange lo stop) = batch := by
  have hcut : rest.Pairwise fun a b =>
      inRange lo stop b = true → inRange lo stop a = true := by
    refine hascending.imp_of_mem ?_
    intro a b ha _ hab hb
    simp only [inRange, decide_eq_true_eq, UInt64.le_iff_toNat_le] at hb ⊢
    have hlo := UInt64.le_iff_toNat_le.mp (hrest a ha)
    have hlt : a.logId.index.toNat < b.logId.index.toNat := hab
    exact ⟨hlo, by omega⟩
  have hnone : done.filter (inRange lo stop) = [] := by
    rw [List.filter_eq_nil_iff]
    intro entry hentry hrange
    simp only [inRange, decide_eq_true_eq] at hrange
    exact absurd (hdone entry hentry) (UInt64.not_lt.mpr hrange.1)
  refine ⟨rest.takeWhile (inRange lo stop), rest.dropWhile (inRange lo stop),
    List.takeWhile_append_dropWhile.symm, fun hstop => ?_, ?_⟩
  · rw [List.dropWhile_eq_nil_iff]
    intro entry hentry
    simpa [inRange] using ⟨hrest entry hentry, hstop entry hentry⟩
  · rw [List.filter_append, hnone, List.nil_append, takeWhile_eq_filter hcut]

/-- The storage returns the entries of the range, under whatever leader. -/
theorem tryGetLogEntries_reread {s : Storage} {log : List Entry}
    (hextends : Extends .dataRaft .new log s) (hascending : Ascending log) (lo hi : UInt64) :
    ∃ lastLogId, RocksDBLogStorage.tryGetLogEntries .dataRaft s (.inclusive lo hi) =
      .ok ((log.filter (inRange lo hi)).map (rereadEntry lastLogId)) := by
  refine ⟨okFlatten (getLastLogId s RaftGroup.dataRaft.logCf), ?_⟩
  rw [RocksDBLogStorage.tryGetLogEntries_inclusive, logView_appends hextends hascending,
    rebuild_map]

/-- What is read next is a beginning of what is due, and all of it where no index is
behind `stop`. -/
theorem nextEntries_reread {s : Storage} {done rest : List Entry}
    (hextends : Extends .dataRaft .new (done ++ rest) s)
    (hascending : Ascending (done ++ rest)) {position : Option LogId}
    (hposition : position.map LogId.index = done.getLast?.map fun entry => entry.logId.index)
    (stop : UInt64) :
    ∃ batch later lastLogId, rest = batch ++ later ∧
      ((∀ entry ∈ rest, entry.logId.index ≤ stop) → later = []) ∧
      nextEntries s position stop = .ok (batch.map (rereadEntry lastLogId)) := by
  obtain ⟨hdone, hrest, hcross⟩ := List.pairwise_append.mp hascending
  cases position with
  | none =>
      have hnil : done = [] := by
        cases hlast : done.getLast? with
        | none => exact List.getLast?_eq_none_iff.mp hlast
        | some last =>
            rw [hlast] at hposition
            contradiction
      subst hnil
      obtain ⟨lastLogId, hread⟩ := tryGetLogEntries_reread hextends hascending 0 stop
      have hbefore : ∀ entry ∈ ([] : List Entry), entry.logId.index < 0 := by simp
      obtain ⟨batch, later, hsplit, hall, hfilter⟩ :=
        filter_inRange_append hrest hbefore (fun _ _ => UInt64.zero_le) stop
      exact ⟨batch, later, lastLogId, hsplit, hall, by rw [nextEntries, hread, hfilter]⟩
  | some id =>
      obtain ⟨last, hlast, hindex⟩ : ∃ last, done.getLast? = some last ∧
          last.logId.index = id.index := by
        cases hlast : done.getLast? with
        | none =>
            rw [hlast] at hposition
            contradiction
        | some last =>
            rw [hlast] at hposition
            exact ⟨last, rfl, (Option.some.inj hposition).symm⟩
      have hlater : ∀ entry ∈ rest, id.index < entry.logId.index := by
        intro entry hentry
        rw [← hindex, UInt64.lt_iff_toNat_lt]
        exact hcross last (List.mem_of_getLast? hlast) entry hentry
      by_cases hstop : id.index < stop
      · have hbound : id.index.toNat + 1 < 2 ^ 64 := by
          have hlt := UInt64.lt_iff_toNat_lt.mp hstop
          have hmax := stop.toNat_lt
          omega
        obtain ⟨lastLogId, hread⟩ :=
          tryGetLogEntries_reread hextends hascending (id.index + 1) stop
        have hbefore : ∀ entry ∈ done, entry.logId.index < id.index + 1 := by
          intro entry hentry
          rw [lt_add_one_iff hbound, ← hindex]
          exact index_le_of_getLast hdone hlast hentry
        have hbehind : ∀ entry ∈ rest, id.index + 1 ≤ entry.logId.index := by
          intro entry hentry
          rw [add_one_le_iff hbound]
          exact hlater entry hentry
        obtain ⟨batch, later, hsplit, hall, hfilter⟩ :=
          filter_inRange_append hrest hbefore hbehind stop
        refine ⟨batch, later, lastLogId, hsplit, hall, ?_⟩
        rw [nextEntries, if_pos hstop, hread, hfilter]
      · refine ⟨[], rest, none, rfl, fun hall => ?_, ?_⟩
        · refine List.eq_nil_iff_forall_not_mem.mpr fun entry hentry => hstop ?_
          exact UInt64.lt_of_lt_of_le (hlater entry hentry) (hall entry hentry)
        · rw [nextEntries, if_neg hstop, List.map_nil]

end Reading

/-! ## Runs -/

/-- An entry that was handed over before and is due again. -/
def DueAgain (handed rest : List Entry) (entry : Entry) : Prop :=
  entry ∈ rest ∧ ∃ other ∈ handed, other.logId.index = entry.logId.index

section Runs

variable [MembershipApi] [Prost LogIdMessage] [Prost MembershipMessage] [Bincode Operation]

/-- A database with the log appended so far, of which the entries `done` took effect. -/
structure JournalKept (log handed done rest : List Entry) (position : Option LogId)
    (s : Storage) : Prop where
  log_eq : log = done ++ rest
  stored : Extends .dataRaft .new log s
  system : ∀ key, s.get .systemRaftLog key = none
  position_eq : position.map LogId.index = done.getLast?.map fun entry => entry.logId.index
  record : readApplied .dataRaft s = .ok position
  membership : ∃ membership, readMembership .dataRaft s = .ok membership
  settled : Redone dataUpdates (fun _ => none) done (DueAgain handed rest) (s.get .dataKv)

omit [Bincode Operation] in
/-- A log only depends on its column family and the cache. -/
theorem Extends.congr {g : RaftGroup} {log : List Entry} {s t : Storage}
    (h : Extends g .new log s) (hget : ∀ key, t.get g.logCf key = s.get g.logCf key)
    (hcache : t.lastLogIndexCache g.logCf = s.lastLogIndexCache g.logCf) :
    Extends g .new log t where
  stored index := (hget _).trans (h.stored index)
  lastLogId := (hget _).trans h.lastLogId
  lastPurged := (hget _).trans h.lastPurged
  cache := hcache.trans h.cache
  keys hkeys key value hvalue := h.keys hkeys key value ((hget key).symm.trans hvalue)

namespace JournalKept

variable {log handed done rest batch later : List Entry} {position : Option LogId} {s : Storage}

theorem new : JournalKept [] [] [] [] none .new where
  log_eq := rfl
  stored := Extends.refl _ _
  system := Storage.get_new _
  position_eq := rfl
  record := by rw [readApplied, Storage.get_new]
  membership := ⟨.default, by rw [readMembership, Storage.get_new]⟩
  settled := by
    intro key _
    exact Storage.get_new _ key

/-- A node can go up on what it wrote. -/
theorem opens (h : JournalKept log handed done rest position s) :
    ∃ t, s.reopen = .ok t ∧ t.db = s.db ∧
      Highest s RaftGroup.dataRaft.logCf (t.lastLogIndexCache RaftGroup.dataRaft.logCf) := by
  have hkeys : ∀ g : RaftGroup, LogKeysOnly s g.logCf := by
    intro g
    cases g with
    | systemRaft =>
        intro key value hget
        rw [show s.get RaftGroup.systemRaft.logCf key = none from h.system key] at hget
        contradiction
    | dataRaft => exact h.stored.keys (logKeysOnly_new _)
  have hopen : ∀ g : RaftGroup, Openable s g.logCf := by
    intro g
    cases g with
    | systemRaft => exact Or.inr h.system
    | dataRaft =>
        cases hlog : log with
        | nil =>
            refine Or.inr fun key => Option.eq_none_iff_forall_ne_some.mpr fun value hget => ?_
            have hstored := h.stored
            rw [hlog] at hstored
            -- without entries there is neither a log key nor a record
            rcases hkeys .dataRaft key value hget with hmeta | ⟨index, rfl⟩
            · simp only [metadataKeys, List.mem_cons, List.not_mem_nil, or_false] at hmeta
              rcases hmeta with rfl | rfl
              · rw [hstored.lastLogId, Storage.get_new] at hget
                contradiction
              · rw [hstored.lastPurged, Storage.get_new] at hget
                contradiction
            · have hnone := hstored.stored index
              rw [storedAt, hget, storedAt, Storage.get_new] at hnone
              contradiction
        | cons entry entries =>
            refine Or.inl ⟨entry.logId.index, ?_⟩
            exact h.stored.stored_iff.mpr (Or.inl ⟨entry, by simp [hlog], rfl⟩)
  obtain ⟨t, ht, hdb, hhighest⟩ := reopen_of_openable hkeys hopen
  exact ⟨t, ht, hdb, hhighest .dataRaft⟩

/-- A restart keeps what is written; the cache is found again. -/
theorem reopened (h : JournalKept log handed done rest position s)
    (hascending : Ascending log) {t : Storage} (ht : s.reopen = .ok t) :
    JournalKept log handed done rest position t := by
  obtain ⟨t', ht', hdb, hhighest⟩ := h.opens
  obtain rfl : t = t' := Except.ok.inj (ht.symm.trans ht')
  have hget : t.get = s.get := Storage.get_eq_of_db_eq hdb
  have hlast : Highest s RaftGroup.dataRaft.logCf
      (log.getLast?.map fun entry => entry.logId.index) := by
    cases hlast : log.getLast? with
    | none =>
        obtain rfl := List.getLast?_eq_none_iff.mp hlast
        intro index
        rw [h.stored.stored, storedAt, Storage.get_new]
        rfl
    | some last =>
        refine (h.stored.isLast_iff hlast).mpr fun last' hlast' => ?_
        obtain rfl : last = last' := Option.some.inj (hlast.symm.trans hlast')
        refine ⟨fun entry => index_le_of_getLast hascending hlast, fun index value hvalue => ?_⟩
        rw [storedAt, Storage.get_new] at hvalue
        contradiction
  refine ⟨h.log_eq, h.stored.congr (fun key => by rw [hget]) ?_, ?_, h.position_eq, ?_, ?_, ?_⟩
  · rw [hhighest.unique hlast, h.stored.cache]
    exact (Option.or_none).symm
  · rw [hget]
    exact h.system
  · rw [readApplied, hget]
    exact h.record
  · obtain ⟨membership, hmembership⟩ := h.membership
    exact ⟨membership, by rw [readMembership, hget]; exact hmembership⟩
  · rw [hget]
    exact h.settled

/-- Writes of a batch leave the logs alone and the membership readable. -/
theorem frame (h : JournalKept log handed done rest position s) {entries : List Entry}
    {ops : WriteBatch} (hops : ops ⊆ applyWrites .dataRaft entries) :
    Extends .dataRaft .new log (s.write ops) ∧
      (∀ key, (s.write ops).get .systemRaftLog key = none) ∧
      ∃ membership, readMembership .dataRaft (s.write ops) = .ok membership := by
  have hlogs : ∀ (g : RaftGroup) key, (s.write ops).get g.logCf key = s.get g.logCf key :=
    fun g key => Storage.get_write_of_ne
      (fun op hop => applyWrites_ne_logCf .dataRaft g (hops hop)) s key
  refine ⟨h.stored.congr (hlogs .dataRaft) ?_, fun key => ?_, readable_writes hops h.membership⟩
  · rw [Storage.cache_write]
  · exact (hlogs .systemRaft key).trans (h.system key)

/-- A batch that was written in part: the position stays, its entries are due again. -/
theorem partly (h : JournalKept log handed done (batch ++ later) position s)
    (lastLogId : Option LogId) {ops : WriteBatch}
    (hops : ops ⊆ (batch.map (rereadEntry lastLogId)).flatMap (entryWrites .dataRaft)) :
    JournalKept log (handed ++ batch.map (rereadEntry lastLogId)) done (batch ++ later)
      position (s.write ops) := by
  have hsub : ops ⊆ applyWrites .dataRaft (batch.map (rereadEntry lastLogId)) :=
    fun op hop => List.mem_append_left _ (hops hop)
  obtain ⟨hstored, hsystem, hmembership⟩ := h.frame hsub
  refine ⟨h.log_eq, hstored, hsystem, h.position_eq, ?_, hmembership, ?_⟩
  · rw [readApplied, get_applied_entryWrites hops]
    exact h.record
  · rw [get_write_data]
    refine h.settled.part ?_ ?_
    · rintro entry ⟨hrest, other, hother, hindex⟩
      exact ⟨hrest, other, List.mem_append_left _ hother, hindex⟩
    · intro u hu
      obtain ⟨op, hop, hu⟩ := List.mem_filterMap.mp hu
      obtain ⟨other, hother, hop⟩ := List.mem_flatMap.mp (hops hop)
      obtain ⟨entry, hentry, rfl⟩ := List.mem_map.mp hother
      have hupdate : u ∈ dataUpdates entry := by
        rw [← dataUpdates_reread lastLogId, ← filterMap_entryWrites]
        exact List.mem_filterMap.mpr ⟨op, hop, hu⟩
      refine ⟨entry, ⟨List.mem_append_left later hentry, rereadEntry lastLogId entry,
        List.mem_append_right handed hother, ?_⟩, u, hupdate, rfl⟩
      exact entryLogId_index _ _

/-- A batch that was written as a whole. -/
theorem wholly (h : JournalKept log handed done (batch ++ later) position s)
    (lastLogId : Option LogId) :
    JournalKept log (handed ++ batch.map (rereadEntry lastLogId)) (done ++ batch) later
      (((batch.map (rereadEntry lastLogId)).getLast?.map Entry.logId).or position)
      (s.write (applyWrites .dataRaft (batch.map (rereadEntry lastLogId)))) := by
  obtain ⟨hstored, hsystem, hmembership⟩ := h.frame
    (List.Subset.refl (applyWrites .dataRaft (batch.map (rereadEntry lastLogId))))
  refine ⟨by rw [h.log_eq, List.append_assoc], hstored, hsystem, ?_, ?_, hmembership, ?_⟩
  · rw [Option.map_or, h.position_eq, List.getLast?_append, Option.map_or, List.getLast?_map]
    cases batch.getLast? with
    | none => rfl
    | some last => simp [rereadEntry, entryLogId_index]
  · have hrecord := h.record
    rw [readApplied] at hrecord ⊢
    rw [get_applied_applyWrites, positionRecord]
    cases (batch.map (rereadEntry lastLogId)).getLast? with
    | none => exact hrecord
    | some last => simp
  · have hupdates : (batch.map (rereadEntry lastLogId)).flatMap dataUpdates =
        batch.flatMap dataUpdates := by
      simp only [List.flatMap_map, dataUpdates_reread]
    rw [get_write_data, filterMap_applyWrites, hupdates]
    refine h.settled.whole ?_
    rintro entry ⟨hrest, other, hother, hindex⟩
    rcases List.mem_append.mp hrest with hbatch | hlater
    · exact Or.inl hbatch
    · exact Or.inr ⟨hlater, other, List.mem_append_left _ hother, hindex⟩

/-- Entries that are appended are due. -/
theorem append (h : JournalKept log handed done rest position s) (entries : List Entry) :
    JournalKept (log ++ entries) handed done (rest ++ entries) position
      (appended .dataRaft s entries) := by
  have hothers : ∀ cf ≠ RaftGroup.dataRaft.logCf, ∀ key,
      (appended .dataRaft s entries).get cf key = s.get cf key :=
    fun cf hcf => (sameLog_appended hcf s entries).get
  have hdata : (appended .dataRaft s entries).get .dataKv = s.get .dataKv :=
    funext (hothers .dataKv (by decide))
  have hstate : ∀ key, (appended .dataRaft s entries).get RaftGroup.dataRaft.stateCf key =
      s.get RaftGroup.dataRaft.stateCf key := hothers _ (by decide)
  refine ⟨by rw [h.log_eq, List.append_assoc], h.stored.trans (appended_extends _ _ _), ?_,
    h.position_eq, ?_, ?_, ?_⟩
  · intro key
    rw [hothers .systemRaftLog (by decide)]
    exact h.system key
  · rw [readApplied, hstate]
    exact h.record
  · obtain ⟨membership, hmembership⟩ := h.membership
    exact ⟨membership, by rw [readMembership, hstate]; exact hmembership⟩
  · rw [hdata]
    refine h.settled.mono ?_
    rintro entry ⟨hrest, hhanded⟩
    exact ⟨List.mem_append_left entries hrest, hhanded⟩

end JournalKept

/-- The node has the entries `done` behind it and the entries `rest` before it. -/
def JournalNode.Between (node : JournalNode) (done rest : List Entry) : Prop :=
  JournalKept node.log node.handed done rest node.position node.storage

/-- The node reads on from where it is. -/
theorem JournalNode.Between.next {node : JournalNode} {done rest : List Entry}
    (h : node.Between done rest) (hascending : Ascending node.log) (stop : UInt64) :
    ∃ batch later lastLogId, rest = batch ++ later ∧
      ((∀ entry ∈ rest, entry.logId.index ≤ stop) → later = []) ∧
      nextEntries node.storage node.position stop =
        .ok (batch.map (rereadEntry lastLogId)) := by
  refine nextEntries_reread ?_ ?_ h.position_eq stop
  · rw [← h.log_eq]
    exact h.stored
  · rw [← h.log_eq]
    exact hascending

/-- What the node reads on can be applied. -/
theorem JournalNode.Between.decodable {node : JournalNode} {done batch later : List Entry}
    (h : node.Between done (batch ++ later)) (hentries : ∀ entry ∈ node.log, entry.Decodable)
    (lastLogId : Option LogId) :
    ∀ entry ∈ batch.map (rereadEntry lastLogId), entry.Decodable := by
  intro other hother
  obtain ⟨entry, hentry, rfl⟩ := List.mem_map.mp hother
  refine decodable_reread (hentries entry ?_)
  rw [h.log_eq]
  exact List.mem_append_right done (List.mem_append_left later hentry)

/-- Nothing is due where the node applied up to the last index. -/
theorem JournalNode.Between.applyTo {node : JournalNode} {done rest : List Entry}
    (h : node.Between done rest) (hascending : Ascending node.log)
    (hentries : ∀ entry ∈ node.log, entry.Decodable) (stop : UInt64) :
    ∃ node' done' rest', node.step (.applyTo stop) = some node' ∧ node'.Between done' rest' ∧
      node'.log = node.log ∧ ((∀ entry ∈ node.log, entry.logId.index ≤ stop) → rest' = []) := by
  obtain ⟨batch, later, lastLogId, rfl, hall, hnext⟩ := h.next hascending stop
  have hbatch := h.decodable hentries lastLogId
  obtain ⟨machine, hrun, hmachine⟩ := apply_run .dataRaft hbatch node.machine
  have hkept := JournalKept.wholly h lastLogId
  rw [show node.storage = node.machine.storage from rfl, ← hmachine] at hkept
  refine ⟨⟨machine,
    ((batch.map (rereadEntry lastLogId)).getLast?.map Entry.logId).or node.position,
    node.log, node.handed ++ batch.map (rereadEntry lastLogId)⟩, done ++ batch, later,
    by simp only [JournalNode.step, hnext, hrun], hkept, rfl, fun hstop => hall ?_⟩
  intro entry hentry
  refine hstop entry ?_
  rw [h.log_eq]
  exact List.mem_append_right done hentry

/-- No step fails, and each leaves the node between what is done and what is due. -/
theorem JournalNode.Between.step {node : JournalNode} {done rest : List Entry}
    (h : node.Between done rest) (hascending : Ascending node.log)
    (hentries : ∀ entry ∈ node.log, entry.Decodable) (step : JournalStep) :
    ∃ node' done' rest', node.step step = some node' ∧ node'.Between done' rest' ∧
      node'.log = node.log ++ accepted (JournalStep.batches [step]) := by
  have hnone : ∀ log : List Entry, log = log ++ accepted [] := fun log =>
    (List.append_nil log).symm
  cases step with
  | append entries =>
      rcases Nat.lt_or_ge maxBatchOperations entries.length with hlarge | hsmall
      · have hrun := append_run_tooLarge (g := .dataRaft) hlarge node.storage
        refine ⟨node, done, rest, by simp only [JournalNode.step, hrun]; rfl, h, ?_⟩
        simp [JournalStep.batches, accepted, Nat.not_le.mpr hlarge]
      · have hrun := append_run (g := .dataRaft) hsmall node.storage
        refine ⟨⟨{ node.machine with storage := appended .dataRaft node.storage entries },
          node.position, node.log ++ entries, node.handed⟩, done, rest ++ entries,
          by simp only [JournalNode.step, hrun], h.append entries, ?_⟩
        simp [JournalStep.batches, accepted, hsmall]
  | applyTo stop =>
      obtain ⟨node', done', rest', hstep, hnode', hlog, -⟩ := h.applyTo hascending hentries stop
      exact ⟨node', done', rest', hstep, hnode', hlog.trans (hnone node.log)⟩
  | crash stop k =>
      obtain ⟨batch, later, lastLogId, rfl, -, hnext⟩ := h.next hascending stop
      obtain ⟨done', rest', position, hcrashed⟩ : ∃ done' rest' position,
          JournalKept node.log (node.handed ++ batch.map (rereadEntry lastLogId)) done' rest'
            position (node.storage.write
              ((applyWrites .dataRaft (batch.map (rereadEntry lastLogId))).take k)) := by
        rcases take_applyWrites .dataRaft (batch.map (rereadEntry lastLogId)) k with
          hpart | hwhole
        · rw [hpart]
          exact ⟨_, _, _, JournalKept.partly h lastLogId (List.take_subset k _)⟩
        · rw [hwhole]
          exact ⟨_, _, _, JournalKept.wholly h lastLogId⟩
      obtain ⟨s, hopen, -⟩ := hcrashed.opens
      have hreopened := hcrashed.reopened hascending hopen
      obtain ⟨membership, hmembership⟩ := hreopened.membership
      have hstate := appliedState_run (m := .new s) hreopened.record hmembership
      refine ⟨⟨⟨s, position, membership, none⟩, position, node.log,
        node.handed ++ batch.map (rereadEntry lastLogId)⟩, done', rest', ?_,
        hreopened, hnone node.log⟩
      rw [JournalNode.storage,
        ← crashedIn_eq .dataRaft (h.decodable hentries lastLogId) k node.machine] at hopen
      simp only [JournalNode.step, hnext, hopen, hstate]
      rfl

omit [MembershipApi] [Prost LogIdMessage] [Prost MembershipMessage] [Bincode Operation] in
theorem accepted_batches_cons (step : JournalStep) (steps : List JournalStep) :
    accepted (JournalStep.batches (step :: steps)) =
      accepted (JournalStep.batches [step]) ++ accepted (JournalStep.batches steps) := by
  have hbatches : JournalStep.batches (step :: steps) =
      JournalStep.batches [step] ++ JournalStep.batches steps := by
    rw [JournalStep.batches, JournalStep.batches, JournalStep.batches, ← List.filterMap_append]
    rfl
  rw [hbatches, accepted, accepted, accepted, List.filter_append, List.flatten_append]

theorem JournalNode.Between.run {node : JournalNode} {done rest : List Entry}
    (h : node.Between done rest) {steps : List JournalStep}
    (hascending : Ascending (node.log ++ accepted (JournalStep.batches steps)))
    (hentries : ∀ entry ∈ node.log ++ accepted (JournalStep.batches steps), entry.Decodable) :
    ∃ node' done' rest', runJournal steps node = some node' ∧ node'.Between done' rest' ∧
      node'.log = node.log ++ accepted (JournalStep.batches steps) := by
  induction steps generalizing node done rest with
  | nil => exact ⟨node, done, rest, rfl, h, (List.append_nil node.log).symm⟩
  | cons step steps ih =>
      rw [accepted_batches_cons, ← List.append_assoc] at hascending hentries ⊢
      have hbefore : Ascending node.log :=
        (List.pairwise_append.mp (List.pairwise_append.mp hascending).1).1
      obtain ⟨node', done', rest', hstep, hnode', hlog⟩ := h.step hbefore
        (fun entry hentry => hentries entry
          (List.mem_append_left _ (List.mem_append_left _ hentry))) step
      rw [← hlog] at hascending hentries ⊢
      obtain ⟨last, done'', rest'', hrun, hlast, hend⟩ := ih hnode' hascending hentries
      exact ⟨last, done'', rest'', by rw [runJournal, hstep]; exact hrun, hlast, hend⟩

/-- Outside the entries due, the node has the data of the operations done. -/
theorem JournalNode.Between.data {node : JournalNode} {done rest : List Entry}
    (h : node.Between done rest) {key : Bytes}
    (hkey : Untouched dataUpdates (DueAgain node.handed rest) key) :
    node.storage.get .dataKv key =
      ((operations done).foldl (fun data op => (op.apply data).2) ∅)[key]? := by
  have hdata := congrFun (getElem?_foldl_apply (operations done) ∅) key
  have hempty : (fun key : Bytes => (∅ : Data)[key]?) = fun _ => none := by
    funext key
    exact Std.ExtTreeMap.getElem?_empty
  rw [hempty, ← flatMap_dataUpdates] at hdata
  exact (h.settled key hkey).trans hdata.symm

/-- For every run of a node from an empty disk, through batches appended, applied and torn
in any of their writes: where the indices appended grow and the operations decode, no step
fails; a beginning of the log has been applied, to its last index as the node knows; every
key that no entry due again writes to has the value the operations of that beginning leave;
and once more applied to the last index, every key has the value the operations of the whole
log leave. -/
theorem node_keeps_its_log (steps : List JournalStep)
    (hascending : Ascending (accepted (JournalStep.batches steps)))
    (hentries : ∀ entry ∈ accepted (JournalStep.batches steps), entry.Decodable) :
    ∃ node done rest, runJournal steps .new = some node ∧
      accepted (JournalStep.batches steps) = done ++ rest ∧
      node.position.map LogId.index = done.getLast?.map (fun entry => entry.logId.index) ∧
      (∀ key, Untouched dataUpdates (DueAgain node.handed rest) key →
        node.storage.get .dataKv key =
          ((operations done).foldl (fun data op => (op.apply data).2) ∅)[key]?) ∧
      ∀ stop, (∀ entry ∈ done ++ rest, entry.logId.index ≤ stop) →
        ∃ node', node.step (.applyTo stop) = some node' ∧ ∀ key,
          node'.storage.get .dataKv key =
            ((operations (done ++ rest)).foldl (fun data op => (op.apply data).2) ∅)[key]? := by
  have hnew : JournalNode.Between .new [] [] := JournalKept.new
  obtain ⟨node, done, rest, hrun, hnode, hlog⟩ := hnew.run hascending hentries
  have hlog : node.log = accepted (JournalStep.batches steps) := hlog
  rw [← hlog] at hascending hentries ⊢
  refine ⟨node, done, rest, hrun, hnode.log_eq, hnode.position_eq, fun key => hnode.data, ?_⟩
  intro stop hstop
  rw [← hnode.log_eq] at hstop ⊢
  obtain ⟨node', done', rest', hstep, hnode', hlog', hall⟩ :=
    hnode.applyTo hascending hentries stop
  refine ⟨node', hstep, fun key => ?_⟩
  obtain rfl := hall hstop
  have hdone : node.log = done' := by rw [← hlog', hnode'.log_eq, List.append_nil]
  rw [hdone]
  refine hnode'.data fun entry hdue => ?_
  exact absurd hdue.1 (by simp)

end Runs

namespace Witness

/-- Two terms, a batch torn after its first write, then all of it. -/
def journalSteps : List JournalStep :=
  [.append [operationEntry 1 1 0 (.set (ascii "a") (ascii "1")),
      operationEntry 1 1 1 (.set (ascii "b") (ascii "2"))],
    .applyTo 0, .append [operationEntry 2 1 2 (.del (ascii "a"))], .crash 2 1, .applyTo 2]

theorem journalSteps_keep_log :
    ∃ node, runJournal journalSteps .new = some node ∧
      ∃ node', node.step (.applyTo 2) = some node' ∧ ∀ key, node'.storage.get .dataKv key =
        ((operations (accepted (JournalStep.batches journalSteps))).foldl
          (fun data op => (op.apply data).2) ∅)[key]? := by
  obtain ⟨node, done, rest, hrun, hlog, -, -, hall⟩ :=
    node_keeps_its_log journalSteps
      (by simp [Ascending, Increasing, journalSteps, JournalStep.batches, accepted,
        maxBatchOperations, operationEntry])
      (by decide)
  rw [hlog]
  refine ⟨node, hrun, hall 2 ?_⟩
  rw [← hlog]
  decide

end Witness

end Seshat
