/-
Fixed-width binary records: integers with the low byte first, byte strings and lists
behind their length.  A reader takes its value from the front and leaves the rest.
-/
import Mathlib
import Seshat.Lib.Bytes

namespace FixedInt

/-- A reader of a value at the front of the bytes. -/
abbrev Reader (α : Type) := Bytes → Option (α × Bytes)

/-- The low `width` bytes of a number, lowest first. -/
def write : Nat → Nat → Bytes
  | 0, _ => []
  | width + 1, n => UInt8.ofNat (n % 256) :: write width (n / 256)

def read : Nat → Reader Nat
  | 0, data => some (0, data)
  | _ + 1, [] => none
  | width + 1, b :: rest => do
      let (n, rest) ← read width rest
      return (b.toNat + 256 * n, rest)

/-- A byte string behind its length in eight bytes. -/
def writeBytes (bytes : Bytes) : Bytes :=
  write 8 bytes.length ++ bytes

def readBytes : Reader Bytes := fun data => do
  let (n, rest) ← read 8 data
  if n ≤ rest.length then
    return (rest.take n, rest.drop n)
  else
    none

/-- That many values, one behind the other. -/
def readMany {α : Type} (reader : Reader α) : Nat → Reader (List α)
  | 0, data => some ([], data)
  | n + 1, data => do
      let (a, rest) ← reader data
      let (as, rest) ← readMany reader n rest
      return (a :: as, rest)

@[simp]
theorem length_write (width n : Nat) : (write width n).length = width := by
  induction width generalizing n with
  | zero => rfl
  | succ width ih => rw [write, List.length_cons, ih]

/-- A number that fits is read back, whatever follows. -/
theorem read_write {width n : Nat} (hn : n < 256 ^ width) (rest : Bytes) :
    read width (write width n ++ rest) = some (n, rest) := by
  induction width generalizing n with
  | zero =>
      rw [Nat.pow_zero] at hn
      obtain rfl : n = 0 := by omega
      rfl
  | succ width ih =>
      have hhigh : n / 256 < 256 ^ width := by
        rw [Nat.div_lt_iff_lt_mul (by decide), ← Nat.pow_succ]
        exact hn
      have hlow : (UInt8.ofNat (n % 256)).toNat = n % 256 :=
        UInt8.toNat_ofNat_of_lt' (Nat.mod_lt n (by decide))
      rw [write, List.cons_append, read, ih hhigh]
      simp only [Option.bind_eq_bind, Option.bind_some, hlow]
      rw [Nat.mod_add_div]
      rfl

theorem length_writeBytes (bytes : Bytes) : (writeBytes bytes).length = 8 + bytes.length := by
  rw [writeBytes, List.length_append, length_write]

theorem readBytes_writeBytes (bytes : Bytes) (hlength : bytes.length < 2 ^ 64) (rest : Bytes) :
    readBytes (writeBytes bytes ++ rest) = some (bytes, rest) := by
  have hn : bytes.length < 256 ^ 8 := hlength
  rw [readBytes, writeBytes, List.append_assoc, read_write hn]
  simp

/-- Values written one behind the other are read back as many, whatever follows. -/
theorem readMany_flatMap {α : Type} {reader : Reader α} {writer : α → Bytes} {as : List α}
    (h : ∀ a ∈ as, ∀ rest, reader (writer a ++ rest) = some (a, rest)) (rest : Bytes) :
    readMany reader as.length (as.flatMap writer ++ rest) = some (as, rest) := by
  induction as with
  | nil => rfl
  | cons a as ih =>
      have hfirst := h a List.mem_cons_self (as.flatMap writer ++ rest)
      have hrest := ih fun b hb => h b (List.mem_cons_of_mem a hb)
      rw [List.length_cons, readMany, List.flatMap_cons, List.append_assoc, hfirst]
      simp only [Option.bind_eq_bind, Option.bind_some, hrest]
      rfl

end FixedInt
