/-
Going on from a snapshot.  The bytes of a snapshot list the data in whatever order the
map is iterated over; bincode reads every such list back to the same map, so that a
machine that takes the snapshot goes on as the one it was taken from.
-/
import Seshat.Storage.OperationCodec

namespace Seshat

open Decimal FixedInt

def writeKeyValue (pair : Bytes × Bytes) : Bytes :=
  writeBytes pair.1 ++ writeBytes pair.2

def readKeyValue : Reader (Bytes × Bytes) := fun data => do
  let (key, rest) ← readBytes data
  let (value, rest) ← readBytes rest
  return ((key, value), rest)

/-- An `Option<(u64, u64)>` behind a tag of one byte. -/
def writeLog : Option (UInt64 × UInt64) → Bytes
  | none => write 1 0
  | some (term, leaderId) => write 1 1 ++ (write 8 term.toNat ++ write 8 leaderId.toNat)

def readLog : Reader (Option (UInt64 × UInt64)) := fun data => do
  let (tag, rest) ← read 1 data
  if tag = 0 then
    return (none, rest)
  else if tag = 1 then
    let (term, rest) ← read 8 rest
    let (leaderId, rest) ← read 8 rest
    return (some (UInt64.ofNat term, UInt64.ofNat leaderId), rest)
  else
    none

/-- The number of pairs and the pairs, then the other fields in their order. -/
def writeImage (image : StateMachineImage) : Bytes :=
  write 8 image.data.length ++ (image.data.flatMap writeKeyValue ++
    (write 8 image.lastApplied.toNat ++ writeLog image.lastAppliedLog))

def readImage : Reader StateMachineImage := fun data => do
  let (count, rest) ← read 8 data
  let (pairs, rest) ← readMany readKeyValue count rest
  let (lastApplied, rest) ← read 8 rest
  let (lastAppliedLog, rest) ← readLog rest
  return (⟨pairs, UInt64.ofNat lastApplied, lastAppliedLog⟩, rest)

/-- The layout of bincode 1.3 for a state machine; bytes behind it are allowed. -/
class ImageLayout [Bincode StateMachineImage] : Prop where
  serialize_image : ∀ image : StateMachineImage, Bincode.serialize image = writeImage image
  deserialize_image : ∀ {data rest : Bytes} {image : StateMachineImage},
    readImage data = some (image, rest) → Bincode.deserialize data = .ok image

theorem readKeyValue_writeKeyValue {pair : Bytes × Bytes} (hkey : pair.1.length < 2 ^ 64)
    (hvalue : pair.2.length < 2 ^ 64) (rest : Bytes) :
    readKeyValue (writeKeyValue pair ++ rest) = some (pair, rest) := by
  rw [readKeyValue, writeKeyValue, List.append_assoc, readBytes_writeBytes _ hkey]
  simp [readBytes_writeBytes _ hvalue]

theorem read_u64 (n : UInt64) (rest : Bytes) :
    read 8 (write 8 n.toNat ++ rest) = some (n.toNat, rest) :=
  read_write n.toNat_lt rest

theorem readLog_writeLog (log : Option (UInt64 × UInt64)) (rest : Bytes) :
    readLog (writeLog log ++ rest) = some (log, rest) := by
  cases log with
  | none =>
      rw [readLog, writeLog, read_write (by norm_num)]
      rfl
  | some log =>
      obtain ⟨term, leaderId⟩ := log
      rw [readLog, writeLog, List.append_assoc, read_write (by norm_num)]
      simp [List.append_assoc, read_u64]

/-- The lengths of a snapshot can be written. -/
def StateMachineImage.Writable (image : StateMachineImage) : Prop :=
  image.data.length < 2 ^ 64 ∧
    ∀ pair ∈ image.data, pair.1.length < 2 ^ 64 ∧ pair.2.length < 2 ^ 64

theorem readImage_writeImage {image : StateMachineImage} (h : image.Writable) (rest : Bytes) :
    readImage (writeImage image ++ rest) = some (image, rest) := by
  have hcount : image.data.length < 256 ^ 8 := h.1
  have hpairs : ∀ rest, readMany readKeyValue image.data.length
      (image.data.flatMap writeKeyValue ++ rest) = some (image.data, rest) :=
    readMany_flatMap fun pair hpair =>
      readKeyValue_writeKeyValue (h.2 pair hpair).1 (h.2 pair hpair).2
  rw [readImage, writeImage]
  simp only [List.append_assoc, read_write hcount, Option.bind_eq_bind, Option.bind_some, hpairs,
    read_u64, readLog_writeLog, UInt64.ofNat_toNat]
  rfl

/-- Whatever order a map is listed in, the list makes the same map. -/
theorem Data.ofList_perm {data : Data} {order : List (Bytes × Bytes)}
    (h : order.Perm data.toList) : Std.ExtTreeMap.ofList order = data := by
  have hdistinct : order.Pairwise fun a b => ¬ compare a.1 b.1 = .eq := by
    refine (h.pairwise_iff ?_).mpr Std.ExtTreeMap.distinct_keys_toList
    intro a b hab hba
    exact hab (Std.OrientedCmp.eq_symm hba)
  refine Std.ExtTreeMap.ext_getElem? fun key => ?_
  cases hget : data[key]? with
  | some value =>
      have hmem : (key, value) ∈ order :=
        h.mem_iff.mpr (Std.ExtTreeMap.mem_toList_iff_getElem?_eq_some.mpr hget)
      exact Std.ExtTreeMap.getElem?_ofList_of_mem Std.ReflCmp.compare_self hdistinct hmem
  | none =>
      refine Std.ExtTreeMap.getElem?_ofList_of_contains_eq_false ?_
      rw [Bool.eq_false_iff, ne_eq, List.contains_iff_mem, List.mem_map]
      rintro ⟨⟨_, value⟩, hmem, rfl⟩
      have hvalue := Std.ExtTreeMap.mem_toList_iff_getElem?_eq_some.mp (h.mem_iff.mp hmem)
      rw [hget] at hvalue
      cases hvalue

/-- No more keys than entries were applied, each of a length that can be written.  An
entry is applied at an index above all before it, so the count fits as well. -/
structure StateMachine.Sized (sm : StateMachine) : Prop where
  count : sm.data.size ≤ sm.lastApplied.toNat
  lengths : ∀ {key value : Bytes}, sm.data[key]? = some value →
    key.length < 2 ^ 64 ∧ value.length < 2 ^ 64

theorem StateMachine.sized_new : StateMachine.new.Sized where
  count := by simp [new]
  lengths h := by simp [new] at h

theorem StateMachine.Sized.writable {sm : StateMachine} (h : sm.Sized)
    {order : List (Bytes × Bytes)} (horder : order.Perm sm.data.toList) :
    (StateMachineImage.mk order sm.lastApplied sm.lastAppliedLog).Writable := by
  constructor
  · rw [horder.length_eq, Std.ExtTreeMap.length_toList]
    exact lt_of_le_of_lt h.count sm.lastApplied.toNat_lt
  · intro pair hpair
    exact h.lengths (Std.ExtTreeMap.mem_toList_iff_getElem?_eq_some.mp (horder.mem_iff.mp hpair))

/-- A deletion leaves a part of the data, a write adds one pair. -/
theorem StateMachine.Sized.apply {sm : StateMachine} (h : sm.Sized) {index : UInt64}
    (hindex : sm.lastApplied < index) {op : Operation} (hsize : op.size ≤ maxOperationSize) :
    StateMachine.Sized { sm with data := (op.apply sm.data).2, lastApplied := index } := by
  have hcount : sm.data.size + 1 ≤ index.toNat := by
    have := h.count
    rw [UInt64.lt_iff_toNat_lt] at hindex
    omega
  have hmax : maxOperationSize < 2 ^ 64 := by norm_num [maxOperationSize]
  cases op with
  | set key value =>
      rw [Operation.size] at hsize
      refine ⟨Std.ExtTreeMap.size_insert_le.trans hcount, ?_⟩
      intro key' value' hget
      rw [Operation.apply, Std.ExtTreeMap.getElem?_insert] at hget
      split at hget
      · rename_i heq
        obtain rfl := Std.LawfulEqCmp.eq_of_compare heq
        cases hget
        omega
      · exact h.lengths hget
  | del key =>
      refine ⟨Std.ExtTreeMap.size_erase_le.trans (Nat.le_of_succ_le hcount), ?_⟩
      intro key' value' hget
      rw [Operation.apply, Std.ExtTreeMap.getElem?_erase] at hget
      split at hget
      · cases hget
      · exact h.lengths hget

section Runs

variable [Bincode Operation] [OperationLayout]

/-- An entry is refused, or applied at an index above the last one. -/
theorem StateMachine.apply_cases (sm : StateMachine) (index : UInt64) (op : Operation) :
    leaves ((StateMachine.apply index op.serialize).run sm) = sm ∨
      sm.lastApplied < index ∧ op.size ≤ maxOperationSize ∧
        leaves ((StateMachine.apply index op.serialize).run sm) =
          { sm with data := (op.apply sm.data).2, lastApplied := index } := by
  by_cases hle : index ≤ sm.lastApplied
  · left
    simp [StateMachine.apply, hle, leaves]
  · have hread := op.deserialize_serialize
    by_cases hsize : op.size ≤ maxOperationSize
    · right
      rw [if_pos hsize] at hread
      refine ⟨UInt64.not_le.mp hle, hsize, ?_⟩
      simp [StateMachine.apply, hle, hread, leaves]
    · left
      rw [if_neg hsize] at hread
      simp only [StateMachine.apply, EStateM.run_bind, EStateM.run_get, hle, ↓reduceIte, hread]
      rfl

/-- Operations one after the other, each at its index: the responses, refusals included,
and the machine they leave. -/
def applyOps (sm : StateMachine) :
    List (UInt64 × Operation) → List (Except Bytes Bytes) × StateMachine
  | [] => ([], sm)
  | (index, op) :: ops =>
      let result := (StateMachine.apply index op.serialize).run sm
      let rest := applyOps (leaves result) ops
      (returned result :: rest.1, rest.2)

omit [OperationLayout] in
theorem applyOps_append (sm : StateMachine) (l₁ l₂ : List (UInt64 × Operation)) :
    applyOps sm (l₁ ++ l₂) =
      ((applyOps sm l₁).1 ++ (applyOps (applyOps sm l₁).2 l₂).1,
        (applyOps (applyOps sm l₁).2 l₂).2) := by
  induction l₁ generalizing sm with
  | nil => rfl
  | cons head l₁ ih =>
      obtain ⟨index, op⟩ := head
      simp only [List.cons_append, applyOps, ih]

theorem StateMachine.Sized.applyOps {sm : StateMachine} (h : sm.Sized)
    (ops : List (UInt64 × Operation)) : (Seshat.applyOps sm ops).2.Sized := by
  induction ops generalizing sm with
  | nil => exact h
  | cons head ops ih =>
      obtain ⟨index, op⟩ := head
      rw [Seshat.applyOps]
      refine ih ?_
      rcases StateMachine.apply_cases sm index op with hsame | ⟨hindex, hsize, happlied⟩
      · rwa [hsame]
      · rw [happlied]
        exact h.apply hindex hsize

variable [Bincode StateMachineImage] [ImageLayout]

omit [Bincode Operation] [OperationLayout] in
/-- A snapshot is the machine it was taken of, in whatever order it lists the data. -/
theorem StateMachine.Sized.restore_run {sm : StateMachine} (h : sm.Sized)
    {order : List (Bytes × Bytes)} (horder : order.Perm sm.data.toList)
    (target : StateMachine) :
    (StateMachine.restore (sm.snapshot order)).run target = .ok () sm := by
  have hread := readImage_writeImage (h.writable horder) []
  rw [List.append_nil] at hread
  have hdecode := ImageLayout.deserialize_image hread
  rw [← ImageLayout.serialize_image] at hdecode
  rw [StateMachine.restore, StateMachine.snapshot, hdecode]
  change EStateM.Result.ok () _ = _
  rw [Data.ofList_perm horder]

/-- Restoring a snapshot and going on is the same as not stopping, whatever order the
data is listed in and whatever the target held before; a snapshot that cannot be read
changes nothing.  Indices need not increase: an entry that is refused is refused by both. -/
theorem restore_then_continue (l₁ l₂ : List (UInt64 × Operation))
    (order : List (Bytes × Bytes)) (horder : order.Perm (applyOps .new l₁).2.data.toList)
    (target : StateMachine) :
    (∃ restored,
        (StateMachine.restore ((applyOps .new l₁).2.snapshot order)).run target =
          .ok () restored ∧
        (applyOps .new l₁).1 ++ (applyOps restored l₂).1 = (applyOps .new (l₁ ++ l₂)).1 ∧
        (∀ key, (applyOps restored l₂).2.get key = (applyOps .new (l₁ ++ l₂)).2.get key) ∧
        (applyOps restored l₂).2.lastApplied = (applyOps .new (l₁ ++ l₂)).2.lastApplied) ∧
      ∀ (bytes e : Bytes),
        (Bincode.deserialize bytes : Except Bytes StateMachineImage) = .error e →
        (StateMachine.restore bytes).run target = .error e target := by
  constructor
  · have hsized := StateMachine.sized_new.applyOps l₁
    refine ⟨_, hsized.restore_run horder target, ?_⟩
    rw [applyOps_append]
    exact ⟨rfl, fun key => rfl, rfl⟩
  · intro bytes e hbytes
    rw [StateMachine.restore, hbytes]
    rfl

end Runs

namespace Witness

scoped instance : ImageLayout where
  serialize_image image := by
    have hpair : writeKeyValue = fun pair => writeBytes pair.1 ++ writeBytes pair.2 := rfl
    obtain ⟨data, lastApplied, log⟩ := image
    cases log with
    | none => simp [Bincode.serialize, writeImage, writeLog, hpair]
    | some log => simp [Bincode.serialize, writeImage, writeLog, hpair]
  deserialize_image := by
    intro data rest image h
    have hpair : readKeyValue = readPair := rfl
    simp only [Seshat.readImage, Option.bind_eq_bind, Option.bind_eq_some_iff, Option.pure_def,
      Option.some.injEq, Prod.mk.injEq, Prod.exists] at h
    obtain ⟨count, rest₁, hcount, pairs, rest₂, hpairs, applied, rest₃, happlied, log, rest₄,
      hlog, rfl, -⟩ := h
    rw [hpair] at hpairs
    simp only [readLog, Option.bind_eq_bind, Option.bind_eq_some_iff, Option.pure_def,
      Prod.exists] at hlog
    obtain ⟨tag, rest₅, htag, hlog⟩ := hlog
    change readImage data = _
    by_cases hzero : tag = 0
    · subst hzero
      cases hlog
      simp only [readImage, orEof, bind, Except.bind, hcount, hpairs, happlied, htag, ↓reduceIte]
      rfl
    · rw [if_neg hzero] at hlog
      by_cases hone : tag = 1
      · subst hone
        simp only [↓reduceIte, Option.bind_eq_some_iff, Prod.exists] at hlog
        obtain ⟨term, rest₆, hterm, leaderId, rest₇, hleader, hlog⟩ := hlog
        cases hlog
        simp only [readImage, orEof, bind, Except.bind, hcount, hpairs, happlied, htag, hterm,
          hleader, hzero, ↓reduceIte]
        rfl
      · rw [if_neg hone] at hlog
        cases hlog

/-- Two keys, listed with the later one first. -/
theorem twoKeys_continued :
    ∃ restored,
      (StateMachine.restore ((applyOps .new [(1, .set (ascii "a") (ascii "1")),
        (2, .set (ascii "b") (ascii "2"))]).2.snapshot
          [(ascii "b", ascii "2"), (ascii "a", ascii "1")])).run
        ⟨∅, 7, some (1, 1)⟩ = .ok () restored ∧
      (applyOps restored [(3, .del (ascii "a"))]).1 = [.ok (ascii "1")] := by
  obtain ⟨⟨restored, hrestore, hresponses, -⟩, -⟩ := restore_then_continue
    [(1, .set (ascii "a") (ascii "1")), (2, .set (ascii "b") (ascii "2"))]
    [(3, .del (ascii "a"))] [(ascii "b", ascii "2"), (ascii "a", ascii "1")] (by decide)
    ⟨∅, 7, some (1, 1)⟩
  exact ⟨restored, hrestore, List.append_cancel_left hresponses⟩

end Witness

end Seshat
