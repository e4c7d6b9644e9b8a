/-
The fourteen RESP3 values, the errors their readers raise, and the measures the
limits speak about.  A double is its bit pattern; its decimal text is the
standard library's and enters as a parameter.
-/
import Mathlib
import Seshat.Lib.Bytes
import Seshat.Lib.Decimal
import Seshat.Lib.Utf8

namespace Seshat

/-- An `f64`, as its bit pattern. -/
structure F64 where
  bits : UInt64
deriving DecidableEq, Repr

namespace F64

def infinity : F64 := ⟨0x7FF0000000000000⟩
def negInfinity : F64 := ⟨0xFFF0000000000000⟩
def nan : F64 := ⟨0x7FF8000000000000⟩

/-- Exponent and mantissa, without the sign. -/
def magnitude (d : F64) : UInt64 :=
  d.bits &&& 0x7FFFFFFFFFFFFFFF

def isInfinite (d : F64) : Bool :=
  d.magnitude == 0x7FF0000000000000

def isNan (d : F64) : Bool :=
  0x7FF0000000000000 < d.magnitude

/-- The comparison `d > 0.0`. -/
def gtZero (d : F64) : Bool :=
  !d.isNan && d.bits < 0x8000000000000000 && d.bits != 0

end F64

/-- `f64::to_string` and `str::parse::<f64>`.  Their bodies live in the
standard library; of the accepted grammar (digits, sign, point, exponent and
the words for infinity and nan) only the absence of CR is used. -/
class F64Text where
  toString : F64 → Bytes
  fromStr : Bytes → Option F64
  cr_not_mem : ∀ {text : Bytes} {d : F64}, fromStr text = some d → 13 ∉ text

namespace Witness

def oneAndAHalf : F64 := ⟨0x3FF8000000000000⟩

/-- The standard library's text of one double, enough to run the parser on. -/
scoped instance : F64Text where
  toString d := if d = oneAndAHalf then Decimal.ascii "1.5" else []
  fromStr s := if s = Decimal.ascii "1.5" then some oneAndAHalf else none
  cr_not_mem := by
    intro s d h
    split at h
    · rename_i heq
      rw [heq]
      decide
    · cases h

end Witness

/-- `ProtocolError`, restricted to what the parsers and the command reader
raise.  Where the bytes stop being UTF-8 is not kept. -/
inductive ProtocolError where
  | invalidTypeMarker (byte : UInt8)
  | invalidLength
  | bulkStringTooLarge (size max : Nat)
  | arrayTooLarge (size max : Nat)
  | nestingTooDeep
  | expectedArray
  | emptyCommand
  | invalidCommandName
  | invalidKey
  | invalidValue
  | wrongArity (command : String) (expected got : Nat)
  | unknownCommand (command : List Char)
  | utf8
deriving DecidableEq, Repr

/-- RESP3 value type.  Aggregates keep insertion order; the format of a
verbatim string is exactly three bytes. -/
inductive RespValue where
  | simpleString (s : Bytes)
  | error (e : Bytes)
  | integer (i : Int64)
  | bulkString (s : Option Bytes)
  | array (arr : Option (List RespValue))
  | null
  | boolean (b : Bool)
  | double (d : F64)
  | bigNumber (n : Bytes)
  | bulkError (e : Bytes)
  | verbatimString (format : UInt8 × UInt8 × UInt8) (data : Bytes)
  | map (pairs : List (RespValue × RespValue))
  | set (elements : List RespValue)
  | push (elements : List RespValue)

namespace RespValue

/-- The bytes of the string-like values. -/
def asBytes : RespValue → Option Bytes
  | .simpleString b => some b
  | .bulkString (some b) => some b
  | .error b => some b
  | .bigNumber b => some b
  | .bulkError b => some b
  | .verbatimString _ data => some data
  | _ => none

/-- The elements of an Array that is not null. -/
def intoArray : RespValue → Option (List RespValue)
  | .array (some arr) => some arr
  | _ => none

theorem intoArray_eq_some {value : RespValue} {arr : List RespValue} :
    value.intoArray = some arr ↔ value = .array (some arr) := by
  cases value with
  | array elements => cases elements <;> simp [intoArray]
  | _ => simp [intoArray]

/-- Arrays, maps, sets and pushes, the null array among them. -/
def isAggregate : RespValue → Bool
  | .array _ => true
  | .map _ => true
  | .set _ => true
  | .push _ => true
  | _ => false

/-- The items of a map in the order they are written: key, value, key, value. -/
def pairItems (pairs : List (RespValue × RespValue)) : List RespValue :=
  pairs.flatMap fun pair => [pair.1, pair.2]

/-- The top-level elements of an aggregate, a map's keys and values in turn. -/
def items : RespValue → List RespValue
  | .array (some elements) => elements
  | .map pairs => pairItems pairs
  | .set elements => elements
  | .push elements => elements
  | _ => []

theorem isAggregate_of_items {value : RespValue} (hitems : value.items ≠ []) :
    value.isAggregate = true := by
  cases value with
  | array arr => rfl
  | map pairs => rfl
  | set elements => rfl
  | push elements => rfl
  | _ => exact absurd rfl hitems

theorem mem_pairItems {pairs : List (RespValue × RespValue)} {item : RespValue} :
    item ∈ pairItems pairs ↔ ∃ pair ∈ pairs, item = pair.1 ∨ item = pair.2 := by
  simp [pairItems]

theorem pairItems_injective {pairs pairs' : List (RespValue × RespValue)}
    (h : pairItems pairs = pairItems pairs') : pairs = pairs' := by
  induction pairs generalizing pairs' with
  | nil =>
      cases pairs' with
      | nil => rfl
      | cons pair' pairs' => simp [pairItems] at h
  | cons pair pairs ih =>
      cases pairs' with
      | nil => simp [pairItems] at h
      | cons pair' pairs' =>
          simp only [pairItems, List.flatMap_cons, List.cons_append, List.nil_append,
            List.cons.injEq] at h
          obtain ⟨hkey, hvalue, hrest⟩ := h
          rw [Prod.ext hkey hvalue, ih hrest]

theorem length_pairItems (pairs : List (RespValue × RespValue)) :
    (pairItems pairs).length = 2 * pairs.length := by
  induction pairs with
  | nil => rfl
  | cons pair pairs ih =>
      simp only [pairItems, List.flatMap_cons, List.length_append, List.length_cons,
        List.length_nil] at ih ⊢
      omega

/-- Induction where an aggregate may use the statement at each of its items. -/
@[elab_as_elim]
theorem itemInduction {P : RespValue → Prop}
    (scalar : ∀ value : RespValue, value.isAggregate = false → P value)
    (aggregate : ∀ value : RespValue, value.isAggregate = true →
      (∀ item ∈ value.items, P item) → P value)
    (value : RespValue) : P value := by
  refine @RespValue.rec P
    (fun arr => ∀ elements, arr = some elements → ∀ v ∈ elements, P v)
    (fun pairs => ∀ pair ∈ pairs, P pair.1 ∧ P pair.2)
    (fun elements => ∀ v ∈ elements, P v)
    (fun pair => P pair.1 ∧ P pair.2)
    (fun _ => scalar _ rfl) (fun _ => scalar _ rfl) (fun _ => scalar _ rfl)
    (fun _ => scalar _ rfl) ?_ (scalar _ rfl) (fun _ => scalar _ rfl)
    (fun _ => scalar _ rfl) (fun _ => scalar _ rfl) (fun _ => scalar _ rfl)
    (fun _ _ => scalar _ rfl) ?_ (fun elements => aggregate (.set elements) rfl)
    (fun elements => aggregate (.push elements) rfl)
    ?_ ?_ ?_ ?_ ?_ ?_ ?_ value
  · intro arr ih
    cases arr with
    | none => exact aggregate _ rfl (by simp [items])
    | some elements => exact aggregate _ rfl (ih elements rfl)
  · intro pairs ih
    refine aggregate _ rfl ?_
    intro item hitem
    obtain ⟨pair, hpair, rfl | rfl⟩ := mem_pairItems.mp hitem
    · exact (ih pair hpair).1
    · exact (ih pair hpair).2
  all_goals simp_all

mutual

/-- Levels of non-empty aggregates, the measure `max_depth` limits. -/
def nesting : RespValue → Nat
  | .array (some elements) => nestingIn elements
  | .map pairs => nestingInPairs pairs
  | .set elements => nestingIn elements
  | .push elements => nestingIn elements
  | _ => 0

/-- One level more than the deepest element; none for an empty aggregate. -/
def nestingIn : List RespValue → Nat
  | [] => 0
  | v :: rest => max (nesting v + 1) (nestingIn rest)

def nestingInPairs : List (RespValue × RespValue) → Nat
  | [] => 0
  | (key, value) :: rest =>
      max (max (nesting key + 1) (nesting value + 1)) (nestingInPairs rest)

end

mutual

/-- A property of a value and of everything nested in it. -/
def Everywhere (P : RespValue → Prop) : RespValue → Prop
  | .array (some elements) =>
      P (.array (some elements)) ∧ EverywhereIn P elements
  | .map pairs => P (.map pairs) ∧ EverywhereInPairs P pairs
  | .set elements => P (.set elements) ∧ EverywhereIn P elements
  | .push elements => P (.push elements) ∧ EverywhereIn P elements
  | .simpleString s => P (.simpleString s)
  | .error e => P (.error e)
  | .integer i => P (.integer i)
  | .bulkString s => P (.bulkString s)
  | .array none => P (.array none)
  | .null => P .null
  | .boolean b => P (.boolean b)
  | .double d => P (.double d)
  | .bigNumber n => P (.bigNumber n)
  | .bulkError e => P (.bulkError e)
  | .verbatimString format data => P (.verbatimString format data)

def EverywhereIn (P : RespValue → Prop) : List RespValue → Prop
  | [] => True
  | v :: rest => Everywhere P v ∧ EverywhereIn P rest

def EverywhereInPairs (P : RespValue → Prop) :
    List (RespValue × RespValue) → Prop
  | [] => True
  | (key, value) :: rest =>
      Everywhere P key ∧ Everywhere P value ∧ EverywhereInPairs P rest

end

theorem nestingIn_le_iff {elements : List RespValue} {depth : Nat} :
    nestingIn elements ≤ depth ↔ ∀ v ∈ elements, v.nesting + 1 ≤ depth := by
  induction elements with
  | nil => simp [nestingIn]
  | cons v rest ih => simp [nestingIn, ih]

theorem nestingInPairs_le_iff {pairs : List (RespValue × RespValue)} {depth : Nat} :
    nestingInPairs pairs ≤ depth ↔
      ∀ pair ∈ pairs, pair.1.nesting + 1 ≤ depth ∧ pair.2.nesting + 1 ≤ depth := by
  induction pairs with
  | nil => simp [nestingInPairs]
  | cons pair rest ih =>
      obtain ⟨key, value⟩ := pair
      simp [nestingInPairs, ih]

theorem everywhereIn_iff {P : RespValue → Prop} {elements : List RespValue} :
    EverywhereIn P elements ↔ ∀ v ∈ elements, v.Everywhere P := by
  induction elements with
  | nil => simp [EverywhereIn]
  | cons v rest ih => simp [EverywhereIn, ih]

theorem everywhereInPairs_iff {P : RespValue → Prop}
    {pairs : List (RespValue × RespValue)} :
    EverywhereInPairs P pairs ↔
      ∀ pair ∈ pairs, pair.1.Everywhere P ∧ pair.2.Everywhere P := by
  induction pairs with
  | nil => simp [EverywhereInPairs]
  | cons pair rest ih =>
      obtain ⟨key, value⟩ := pair
      simp [EverywhereInPairs, ih, and_assoc]

theorem nesting_item_lt {value item : RespValue} (hitem : item ∈ value.items) :
    item.nesting < value.nesting := by
  cases value with
  | array arr =>
      cases arr with
      | none => simp [items] at hitem
      | some elements => exact nestingIn_le_iff.mp le_rfl item hitem
  | set elements => exact nestingIn_le_iff.mp le_rfl item hitem
  | push elements => exact nestingIn_le_iff.mp le_rfl item hitem
  | map pairs =>
      obtain ⟨pair, hpair, rfl | rfl⟩ := mem_pairItems.mp hitem
      · exact (nestingInPairs_le_iff.mp le_rfl pair hpair).1
      · exact (nestingInPairs_le_iff.mp le_rfl pair hpair).2
  | _ => simp [items] at hitem

theorem nesting_pos {value : RespValue} (hitems : value.items ≠ []) : 0 < value.nesting := by
  obtain ⟨item, hitem⟩ := List.exists_mem_of_ne_nil _ hitems
  exact Nat.zero_lt_of_lt (nesting_item_lt hitem)

theorem Everywhere.item {P : RespValue → Prop} {value item : RespValue}
    (h : value.Everywhere P) (hitem : item ∈ value.items) : item.Everywhere P := by
  cases value with
  | array arr =>
      cases arr with
      | none => simp [items] at hitem
      | some elements => exact everywhereIn_iff.mp h.2 item hitem
  | set elements => exact everywhereIn_iff.mp h.2 item hitem
  | push elements => exact everywhereIn_iff.mp h.2 item hitem
  | map pairs =>
      obtain ⟨pair, hpair, rfl | rfl⟩ := mem_pairItems.mp hitem
      · exact (everywhereInPairs_iff.mp h.2 pair hpair).1
      · exact (everywhereInPairs_iff.mp h.2 pair hpair).2
  | _ => simp [items] at hitem

theorem everywhere_of_items {P : RespValue → Prop} {value : RespValue} (hself : P value)
    (hitems : ∀ item ∈ value.items, item.Everywhere P) : value.Everywhere P := by
  cases value with
  | array arr =>
      cases arr with
      | none => exact hself
      | some elements => exact ⟨hself, everywhereIn_iff.mpr hitems⟩
  | set elements => exact ⟨hself, everywhereIn_iff.mpr hitems⟩
  | push elements => exact ⟨hself, everywhereIn_iff.mpr hitems⟩
  | map pairs =>
      refine ⟨hself, everywhereInPairs_iff.mpr ?_⟩
      intro pair hpair
      exact ⟨hitems _ (mem_pairItems.mpr ⟨pair, hpair, Or.inl rfl⟩),
        hitems _ (mem_pairItems.mpr ⟨pair, hpair, Or.inr rfl⟩)⟩
  | _ => exact hself

end RespValue

end Seshat
