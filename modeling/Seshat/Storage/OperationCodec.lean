/-
The bytes of an operation.  What bincode writes it reads back; the size limit of
`deserialize`, which `serialize` does not have, decides which operations can be applied
once they are committed.
-/
import Seshat.Storage.Machine

namespace Seshat

open Decimal FixedInt

/-- The fixed-width layout of bincode 1.3: the variant in four bytes, then its fields
behind their lengths in eight. -/
class OperationLayout [Bincode Operation] : Prop where
  serialize_set : ∀ key value, Bincode.serialize (Operation.set key value) =
    write 4 0 ++ (writeBytes key ++ writeBytes value)
  serialize_del : ∀ key, Bincode.serialize (Operation.del key) = write 4 1 ++ writeBytes key
  deserialize_set : ∀ {data fields values rest key value : Bytes},
    read 4 data = some (0, fields) → readBytes fields = some (key, values) →
    readBytes values = some (value, rest) →
    Bincode.deserialize data = .ok (Operation.set key value)
  deserialize_del : ∀ {data fields rest key : Bytes},
    read 4 data = some (1, fields) → readBytes fields = some (key, rest) →
    Bincode.deserialize data = .ok (Operation.del key)

/-- The number of bytes an operation takes. -/
def Operation.size : Operation → Nat
  | set key value => 20 + key.length + value.length
  | del key => 12 + key.length

section Layout

variable [Bincode Operation] [OperationLayout]

theorem Operation.length_serialize (op : Operation) : op.serialize.length = op.size := by
  cases op with
  | set key value =>
      rw [serialize, OperationLayout.serialize_set, List.length_append, List.length_append,
        length_write, length_writeBytes, length_writeBytes, size]
      omega
  | del key =>
      rw [serialize, OperationLayout.serialize_del, List.length_append, length_write,
        length_writeBytes, size]
      omega

/-- Bincode reads back what it wrote, as far as the lengths can be written. -/
theorem Operation.decode_serialize {op : Operation} (hsize : op.size < 2 ^ 64) :
    Bincode.deserialize op.serialize = .ok op := by
  cases op with
  | set key value =>
      rw [size] at hsize
      have hvalue := readBytes_writeBytes value (by omega) []
      rw [List.append_nil] at hvalue
      rw [serialize, OperationLayout.serialize_set]
      exact OperationLayout.deserialize_set (read_write (by norm_num) _)
        (readBytes_writeBytes key (by omega) _) hvalue
  | del key =>
      rw [size] at hsize
      have hkey := readBytes_writeBytes key (by omega) []
      rw [List.append_nil] at hkey
      rw [serialize, OperationLayout.serialize_del]
      exact OperationLayout.deserialize_del (read_write (by norm_num) _) hkey

/-- An operation is read back up to the limit, and refused beyond it. -/
theorem Operation.deserialize_serialize (op : Operation) :
    Operation.deserialize op.serialize =
      if op.size ≤ maxOperationSize then .ok op
      else .error (.serializationError (ascii "Operation exceeds maximum size limit")) := by
  rw [deserialize, length_serialize]
  by_cases hsize : op.size ≤ maxOperationSize
  · have hlt : op.size < 2 ^ 64 := lt_of_le_of_lt hsize (by norm_num [maxOperationSize])
    rw [if_neg (Nat.not_lt.mpr hsize), if_pos hsize, decode_serialize hlt]
    rfl
  · rw [if_pos (Nat.lt_of_not_le hsize), if_neg hsize]

theorem Operation.exists_deserialize_serialize (op : Operation) :
    (∃ op', Operation.deserialize op.serialize = .ok op') ↔ op.size ≤ maxOperationSize := by
  rw [deserialize_serialize]
  split <;> simp [*]

omit [OperationLayout] in
/-- At a fresh index the in-memory machine takes whatever decodes. -/
theorem StateMachine.exists_apply_iff {sm : StateMachine} {index : UInt64}
    (hfresh : sm.lastApplied < index) (data : Bytes) :
    (∃ result sm', (StateMachine.apply index data).run sm = .ok result sm') ↔
      ∃ op, Operation.deserialize data = .ok op := by
  have hnot : ¬ index ≤ sm.lastApplied := UInt64.not_le.mpr hfresh
  cases hop : Operation.deserialize data with
  | error e =>
      have hrun : (StateMachine.apply index data).run sm = .error e.display sm := by
        simp only [StateMachine.apply, EStateM.run_bind, EStateM.run_get, hnot, ↓reduceIte, hop]
        rfl
      simp [hrun]
  | ok op => simp [StateMachine.apply, hnot, hop]

omit [OperationLayout] in
/-- The database machine of the data group takes whatever decodes. -/
theorem RocksDBStateMachine.exists_apply_iff [MembershipApi] [Prost LogIdMessage]
    [Prost MembershipMessage] (m : RocksDBStateMachine) (id : LogId) (data : Bytes) :
    (∃ responses m', (RocksDBStateMachine.apply .dataRaft [⟨id, .normal ⟨data⟩⟩]).run m =
        .ok responses m') ↔ ∃ op, Operation.deserialize data = .ok op := by
  cases hop : Operation.deserialize data with
  | error e =>
      have hentry : (RocksDBStateMachine.applyEntry .dataRaft ⟨id, .normal ⟨data⟩⟩).run m =
          .error (ioError .stateMachine .read e.display) m := by
        simp only [RocksDBStateMachine.applyEntry, hop]
        rfl
      simp [RocksDBStateMachine.apply, RocksDBStateMachine.applyEntries, hentry]
  | ok op =>
      have hdecodable : ∀ entry ∈ [(⟨id, .normal ⟨data⟩⟩ : Entry)], entry.Decodable := by
        intro entry hmem request hrequest
        obtain rfl := List.mem_singleton.mp hmem
        cases hrequest
        exact ⟨op, hop⟩
      obtain ⟨m', hrun, -⟩ := apply_run .dataRaft hdecodable m
      simp [hrun]

/-- A serialized operation is read back, and taken by both state machines, exactly up to
the size limit; beyond it every replica refuses it. -/
theorem operation_accepted_iff [MembershipApi] [Prost LogIdMessage] [Prost MembershipMessage]
    (op : Operation) :
    (Operation.deserialize op.serialize =
      if op.size ≤ maxOperationSize then .ok op
      else .error (.serializationError (ascii "Operation exceeds maximum size limit"))) ∧
      (∀ (sm : StateMachine) (index : UInt64), sm.lastApplied < index →
        ((∃ result sm', (StateMachine.apply index op.serialize).run sm = .ok result sm') ↔
          op.size ≤ maxOperationSize)) ∧
      ∀ (m : RocksDBStateMachine) (id : LogId),
        (∃ responses m', (RocksDBStateMachine.apply .dataRaft
            [⟨id, .normal ⟨op.serialize⟩⟩]).run m = .ok responses m') ↔
          op.size ≤ maxOperationSize := by
  refine ⟨op.deserialize_serialize, fun sm index hfresh => ?_, fun m id => ?_⟩
  · rw [StateMachine.exists_apply_iff hfresh, op.exists_deserialize_serialize]
  · rw [RocksDBStateMachine.exists_apply_iff, op.exists_deserialize_serialize]

end Layout

namespace Witness

scoped instance : OperationLayout where
  serialize_set _ _ := rfl
  serialize_del _ := rfl
  deserialize_set := by
    intro data fields values rest key value htag hkey hvalue
    have hpair : readPair fields = some ((key, value), rest) := by
      simp [readPair, hkey, hvalue]
    simp only [Bincode.deserialize, htag]
    change (do
      let (key, value) ← fromReader (readPair fields)
      return Operation.set key value) = _
    rw [hpair]
    rfl
  deserialize_del := by
    intro data fields rest key htag hkey
    simp only [Bincode.deserialize, htag]
    change (do return Operation.del (← fromReader (readBytes fields))) = _
    rw [hkey]
    rfl

/-- A small operation is read back and applied by both. -/
theorem smallOperation_accepted :
    Operation.deserialize (Operation.set (ascii "a") (ascii "1")).serialize =
        .ok (.set (ascii "a") (ascii "1")) ∧
      (∃ result sm, (StateMachine.apply 1
        (Operation.set (ascii "a") (ascii "1")).serialize).run .new = .ok result sm) ∧
      ∃ responses m, (RocksDBStateMachine.apply .dataRaft
        [operationEntry 1 1 1 (.set (ascii "a") (ascii "1"))]).run (.new .new) =
          .ok responses m := by
  obtain ⟨hread, hmemory, hrocks⟩ := operation_accepted_iff (.set (ascii "a") (ascii "1"))
  have hsize : (Operation.set (ascii "a") (ascii "1")).size ≤ maxOperationSize := by decide
  rw [if_pos hsize] at hread
  exact ⟨hread, (hmemory .new 1 (by decide)).mpr hsize, (hrocks _ _).mpr hsize⟩

/-- A deletion one byte too large, the twelve bytes in front of the key included. -/
def largeDel : Operation := .del (List.replicate (maxOperationSize - 11) 120)

/-- It can be serialized and not be applied. -/
theorem largeDel_refused :
    Operation.deserialize largeDel.serialize ≠ .ok largeDel ∧
      ¬ (∃ result sm, (StateMachine.apply 1 largeDel.serialize).run .new = .ok result sm) ∧
      ¬ ∃ responses m, (RocksDBStateMachine.apply .dataRaft
        [operationEntry 1 1 1 largeDel]).run (.new .new) = .ok responses m := by
  have hsize : ¬ largeDel.size ≤ maxOperationSize := by
    rw [largeDel, Operation.size, List.length_replicate]
    decide
  have hread : ¬ ∃ op, Operation.deserialize largeDel.serialize = .ok op :=
    fun h => hsize (largeDel.exists_deserialize_serialize.mp h)
  refine ⟨fun h => hread ⟨_, h⟩, fun h => hread ?_, fun h => hread ?_⟩
  · exact (StateMachine.exists_apply_iff (by decide) _).mp h
  · exact (RocksDBStateMachine.exists_apply_iff _ _ _).mp h

end Witness

end Seshat
