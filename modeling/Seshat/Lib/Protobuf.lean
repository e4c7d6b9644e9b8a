/-
The protobuf wire format, as far as varints and length-delimited fields go.  A
message is written as its fields and read by merging fields into an empty
message; a message type that merges its own fields back round-trips.  Bytes that
are no message are refused with the reason and the fields it was met in.
-/
import Mathlib.Tactic.Common
import Seshat.Lib.Bytes

namespace Protobuf

/-- What can be wrong with the bytes of a message. -/
inductive Reason where
  | invalidVarint
  | bufferUnderflow
  | invalidWireTypeValue (value : Nat)
  | invalidWireType (found expected : String)
deriving DecidableEq, Repr

/-- A reason, and the fields it was met in, the innermost first. -/
structure DecodeError where
  stack : List String
  reason : Reason
deriving DecidableEq, Repr

namespace DecodeError

def new (reason : Reason) : DecodeError :=
  ⟨[], reason⟩

def push (error : DecodeError) (field : String) : DecodeError :=
  { error with stack := error.stack ++ [field] }

end DecodeError

abbrev Result := Except DecodeError

@[simp]
theorem ok_bind {α β : Type} (a : α) (f : α → Result β) : (Except.ok a >>= f) = f a :=
  rfl

@[simp]
theorem pure_eq_ok {α : Type} (a : α) : (pure a : Result α) = .ok a :=
  rfl

/-- Seven bits a byte, lowest first, with the continuation bit on all but the
last; `fuel` bounds the number of bytes. -/
def writeVarint : Nat → Nat → Bytes
  | 0, _ => []
  | fuel + 1, n =>
      if n < 128 then [UInt8.ofNat n]
      else UInt8.ofNat (n % 128 + 128) :: writeVarint fuel (n / 128)

def varint (n : Nat) : Bytes :=
  writeVarint (n + 1) n

def readVarint : Bytes → Result (Nat × Bytes)
  | [] => .error (.new .invalidVarint)
  | b :: rest =>
      if b.toNat < 128 then .ok (b.toNat, rest)
      else do
        let (n, rest) ← readVarint rest
        return (b.toNat - 128 + 128 * n, rest)

theorem readVarint_writeVarint {fuel n : Nat} (hfuel : n < fuel) (rest : Bytes) :
    readVarint (writeVarint fuel n ++ rest) = .ok (n, rest) := by
  induction fuel generalizing n with
  | zero => omega
  | succ fuel ih =>
      by_cases hn : n < 128
      · have hbyte : (UInt8.ofNat n).toNat = n := by
          rw [UInt8.toNat_ofNat']
          omega
        rw [writeVarint, if_pos hn, List.singleton_append, readVarint, hbyte, if_pos hn]
      · have hbyte : (UInt8.ofNat (n % 128 + 128)).toNat = n % 128 + 128 := by
          rw [UInt8.toNat_ofNat']
          omega
        rw [writeVarint, if_neg hn, List.cons_append, readVarint, hbyte,
          if_neg (by omega), ih (by omega)]
        have hvalue : n % 128 + 128 - 128 + 128 * (n / 128) = n := by omega
        exact congrArg (fun m => Except.ok (m, rest)) hvalue

@[simp]
theorem readVarint_varint (n : Nat) (rest : Bytes) :
    readVarint (varint n ++ rest) = .ok (n, rest) :=
  readVarint_writeVarint (Nat.lt_succ_self n) rest

theorem varint_ne_nil (n : Nat) : varint n ≠ [] := by
  rw [varint, writeVarint]
  split <;> simp

/-- A list of varints without separators, as a packed field holds it. -/
def readVarints : Nat → Bytes → Result (List Nat)
  | _, [] => .ok []
  | 0, _ => .error (.new .bufferUnderflow)
  | fuel + 1, bytes => do
      let (n, rest) ← readVarint bytes
      let ns ← readVarints fuel rest
      return n :: ns

theorem readVarints_flatMap {fuel : Nat} {ns : List Nat} (hfuel : ns.length ≤ fuel) :
    readVarints fuel (ns.flatMap varint) = .ok ns := by
  induction ns generalizing fuel with
  | nil => cases fuel <;> rfl
  | cons n ns ih =>
      cases fuel with
      | zero => simp at hfuel
      | succ fuel =>
          have hne : varint n ++ ns.flatMap varint ≠ [] := by simp [varint_ne_nil]
          rw [List.flatMap_cons, readVarints.eq_3 _ _ hne, readVarint_varint]
          exact congrArg (Except.map (n :: ·)) (ih (Nat.le_of_succ_le_succ hfuel))

/-- A packed list of integers. -/
def packed (ns : List Nat) : Bytes :=
  ns.flatMap varint

def readPacked (input : Bytes) : Result (List Nat) :=
  readVarints input.length input

@[simp]
theorem readPacked_packed (ns : List Nat) : readPacked (packed ns) = .ok ns := by
  have hlength : ns.length ≤ (packed ns).length := by
    induction ns with
    | nil => simp
    | cons n ns ih =>
        have hpos := List.length_pos_iff.mpr (varint_ne_nil n)
        rw [packed, List.flatMap_cons, List.length_append, List.length_cons]
        rw [packed] at ih
        omega
  exact readVarints_flatMap hlength

/-- A field with its number: a varint, or a counted byte string. -/
inductive Field where
  | varint (tag value : Nat)
  | bytes (tag : Nat) (data : Bytes)

namespace Field

/-- The key holds the field number and the wire type, 0 or 2. -/
def write : Field → Bytes
  | varint tag value => Protobuf.varint (tag * 8) ++ Protobuf.varint value
  | bytes tag data =>
      Protobuf.varint (tag * 8 + 2) ++ (Protobuf.varint data.length ++ data)

theorem length_write_pos (field : Field) : 0 < field.write.length := by
  cases field with
  | varint tag value =>
      have hkey := List.length_pos_iff.mpr (varint_ne_nil (tag * 8))
      rw [write, List.length_append]
      omega
  | bytes tag data =>
      have hkey := List.length_pos_iff.mpr (varint_ne_nil (tag * 8 + 2))
      rw [write, List.length_append]
      omega

end Field

namespace Field

def tag : Field → Nat
  | varint tag _ => tag
  | bytes tag _ => tag

/-- The value of a field that holds an integer. -/
def uint : Field → Result Nat
  | varint _ value => .ok value
  | bytes _ _ => .error (.new (.invalidWireType "LengthDelimited" "Varint"))

/-- The bytes of a field that holds a message. -/
def message : Field → Result Bytes
  | varint _ _ => .error (.new (.invalidWireType "Varint" "LengthDelimited"))
  | bytes _ data => .ok data

/-- The integers of a repeated field, which are packed or stand alone. -/
def uints : Field → Result (List Nat)
  | varint _ value => .ok [value]
  | bytes _ data => readPacked data

end Field

theorem length_le_length_flatMap (fields : List Field) :
    fields.length ≤ (fields.flatMap Field.write).length := by
  induction fields with
  | nil => simp
  | cons field fields ih =>
      have hpos := field.length_write_pos
      rw [List.flatMap_cons, List.length_append, List.length_cons]
      omega

/-- A field number and a wire type, of which there are two. -/
def readKey (input : Bytes) : Result ((Nat × Nat) × Bytes) := do
  let (key, rest) ← readVarint input
  if key % 8 = 0 ∨ key % 8 = 2 then
    return ((key / 8, key % 8), rest)
  else
    .error (.new (.invalidWireTypeValue (key % 8)))

/-- The field behind its key. -/
def readValue (tag wireType : Nat) (input : Bytes) : Result (Field × Bytes) :=
  if wireType = 0 then do
    let (value, rest) ← readVarint input
    return (.varint tag value, rest)
  else do
    let (length, rest) ← readVarint input
    if rest.length < length then
      .error (.new .bufferUnderflow)
    else
      return (.bytes tag (rest.take length), rest.drop length)

/-- A message type: its fields and their names, and how one read field changes a
message. -/
class Message (M : Type) where
  fields : M → List Field
  name : Nat → Option String
  empty : M
  merge : M → Field → Result M
  merge_fields : ∀ msg, (fields msg).foldlM merge empty = .ok msg

namespace Message

variable {M : Type} [Message M]

def encode (msg : M) : Bytes :=
  (fields msg).flatMap Field.write

/-- An error in a field that the message knows is reported with its name. -/
def inField {α : Type} (M : Type) [Message M] (tag : Nat) (result : Result α) : Result α :=
  match name M tag with
  | some field => result.mapError (·.push field)
  | none => result

/-- Read one field and merge it. -/
def mergeField (msg : M) (input : Bytes) : Result (M × Bytes) := do
  let ((tag, wireType), rest) ← readKey input
  inField M tag do
    let (field, rest) ← readValue tag wireType rest
    let msg ← merge msg field
    return (msg, rest)

def mergeFields : Nat → M → Bytes → Result M
  | _, msg, [] => .ok msg
  | 0, _, _ => .error (.new .bufferUnderflow)
  | fuel + 1, msg, bytes => do
      let (msg, rest) ← mergeField msg bytes
      mergeFields fuel msg rest

def decode (input : Bytes) : Result M :=
  mergeFields input.length empty input

@[simp]
theorem inField_ok {α : Type} (tag : Nat) (a : α) : inField M tag (.ok a) = .ok a := by
  rw [inField]
  split <;> rfl

theorem mergeField_write {msg msg' : M} {field : Field} (hmerge : merge msg field = .ok msg')
    (rest : Bytes) : mergeField msg (field.write ++ rest) = .ok (msg', rest) := by
  cases field with
  | varint tag value =>
      have hkey : readKey (varint (tag * 8) ++ (varint value ++ rest)) =
          .ok ((tag, 0), varint value ++ rest) := by
        rw [readKey, readVarint_varint, ok_bind]
        simp
      simp [mergeField, Field.write, hkey, readValue, hmerge]
  | bytes tag data =>
      have hkey : readKey (varint (tag * 8 + 2) ++ (varint data.length ++ (data ++ rest))) =
          .ok ((tag, 2), varint data.length ++ (data ++ rest)) := by
        have htag : (tag * 8 + 2) / 8 = tag := by omega
        have htype : (tag * 8 + 2) % 8 = 2 := by omega
        rw [readKey, readVarint_varint, ok_bind]
        simp [htag, htype]
      have hlength : ¬ data.length + rest.length < data.length := by omega
      simp [mergeField, Field.write, hkey, readValue, hlength, hmerge]

/-- Fields that merge one by one are merged from their bytes. -/
theorem mergeFields_flatMap {fuel : Nat} {fields : List Field} (hfuel : fields.length ≤ fuel)
    {msg msg' : M} (hmerge : fields.foldlM merge msg = .ok msg') :
    mergeFields fuel msg (fields.flatMap Field.write) = .ok msg' := by
  induction fields generalizing fuel msg with
  | nil => cases fuel <;> exact hmerge
  | cons field fields ih =>
      cases fuel with
      | zero => simp at hfuel
      | succ fuel =>
          have hpos := field.length_write_pos
          have hne : field.write ++ fields.flatMap Field.write ≠ [] := by
            intro hnil
            rw [(List.append_eq_nil_iff.mp hnil).1] at hpos
            exact absurd hpos (by simp)
          rw [List.foldlM_cons] at hmerge
          cases hfirst : merge msg field with
          | error e =>
              rw [hfirst] at hmerge
              cases hmerge
          | ok next =>
              rw [hfirst, ok_bind] at hmerge
              rw [List.flatMap_cons, mergeFields.eq_3 _ _ _ hne, mergeField_write hfirst, ok_bind]
              exact ih (Nat.le_of_succ_le_succ hfuel) hmerge

@[simp]
theorem decode_encode (msg : M) : decode (encode msg) = .ok msg :=
  mergeFields_flatMap (length_le_length_flatMap _) (merge_fields msg)

end Message

/-- An integer field; zero is not written. -/
def uint (tag : Nat) (value : UInt64) : List Field :=
  if value = 0 then [] else [.varint tag value.toNat]

end Protobuf
