/-
The storage iterator over a raw iterator of RocksDB, which is given by its contract.
Whatever its user calls, in whatever order, it answers like a cursor on the map: a key that
stands, and the next or previous key the map has.  So any two raw iterators give the same
answers, and a walker on the sorted pairs is one.  The scan of the log reader and the last
key of a log are loops of it.
-/
import Seshat.Lib.Walk
import Seshat.Storage.Readers

namespace Seshat

open Walk

abbrev KeyValuePair := Bytes × Bytes

inductive Direction where
  | forward
  | reverse
deriving DecidableEq, Repr

inductive IteratorMode where
  | start
  | «end»
  | «from» (key : Bytes) (direction : Direction)
deriving DecidableEq, Repr

/-! ## RocksDB's raw iterator -/

/-- The calls of RocksDB's raw iterator over the pairs that a column family had when it was
made. -/
class RawIterator (ι : Std.ExtTreeMap Bytes Bytes → Type) where
  rawIterator (pairs : Std.ExtTreeMap Bytes Bytes) : ι pairs
  seekToFirst {pairs : Std.ExtTreeMap Bytes Bytes} : ι pairs → ι pairs
  seekToLast {pairs : Std.ExtTreeMap Bytes Bytes} : ι pairs → ι pairs
  seek {pairs : Std.ExtTreeMap Bytes Bytes} (key : Bytes) : ι pairs → ι pairs
  seekForPrev {pairs : Std.ExtTreeMap Bytes Bytes} (key : Bytes) : ι pairs → ι pairs
  next {pairs : Std.ExtTreeMap Bytes Bytes} : ι pairs → ι pairs
  prev {pairs : Std.ExtTreeMap Bytes Bytes} : ι pairs → ι pairs
  valid {pairs : Std.ExtTreeMap Bytes Bytes} : ι pairs → Bool
  key {pairs : Std.ExtTreeMap Bytes Bytes} : ι pairs → Option Bytes
  value {pairs : Std.ExtTreeMap Bytes Bytes} : ι pairs → Option Bytes

variable {ι κ : Std.ExtTreeMap Bytes Bytes → Type} [RawIterator ι] [RawIterator κ]

structure StorageIterator (ι : Std.ExtTreeMap Bytes Bytes → Type) where
  pairs : Std.ExtTreeMap Bytes Bytes
  inner : ι pairs
  cf : ColumnFamily

namespace StorageIterator

def seek (it : StorageIterator ι) (key : Bytes) : StorageIterator ι :=
  { it with inner := RawIterator.seek key it.inner }

def seekToFirst (it : StorageIterator ι) : StorageIterator ι :=
  { it with inner := RawIterator.seekToFirst it.inner }

def seekToLast (it : StorageIterator ι) : StorageIterator ι :=
  { it with inner := RawIterator.seekToLast it.inner }

def valid (it : StorageIterator ι) : Bool := RawIterator.valid it.inner

def key (it : StorageIterator ι) : Option Bytes := RawIterator.key it.inner

def value (it : StorageIterator ι) : Option Bytes := RawIterator.value it.inner

/-- The pair the iterator stands at, read before it moves on. -/
def step (it : StorageIterator ι) (move : ι it.pairs → ι it.pairs) :
    Option KeyValuePair × StorageIterator ι :=
  if !it.valid then
    (none, it)
  else
    match it.key with
    | none => (none, it)
    | some key =>
        match it.value with
        | none => (none, it)
        | some value => (some (key, value), { it with inner := move it.inner })

def stepForward (it : StorageIterator ι) : Option KeyValuePair × StorageIterator ι :=
  it.step RawIterator.next

def stepBackward (it : StorageIterator ι) : Option KeyValuePair × StorageIterator ι :=
  it.step RawIterator.prev

/-- `while let Some(pair) = step()`, at most `n` times. -/
def loop (step : StorageIterator ι → Option KeyValuePair × StorageIterator ι) :
    Nat → StorageIterator ι → List KeyValuePair
  | 0, _ => []
  | n + 1, it =>
      match step it with
      | (none, _) => []
      | (some pair, it') => pair :: loop step n it'

/-- All that `step_forward` still hands out. -/
def forwards (it : StorageIterator ι) : List KeyValuePair :=
  loop stepForward (it.pairs.toList.length + 1) it

/-- All that `step_backward` still hands out. -/
def backwards (it : StorageIterator ι) : List KeyValuePair :=
  loop stepBackward (it.pairs.toList.length + 1) it

end StorageIterator

def Storage.iterator (ι : Std.ExtTreeMap Bytes Bytes → Type) [RawIterator ι] (s : Storage)
    (cf : ColumnFamily) (mode : IteratorMode) : StorageIterator ι where
  pairs := s.db cf
  inner :=
    let iter := RawIterator.rawIterator (s.db cf)
    match mode with
    | .start => RawIterator.seekToFirst iter
    | .end => RawIterator.seekToLast iter
    | .from key .forward => RawIterator.seek key iter
    | .from key .reverse => RawIterator.seekForPrev key iter
  cf := cf

/-- What the user of an iterator calls. -/
inductive IteratorCall where
  | seek (key : Bytes)
  | seekToFirst
  | seekToLast
  | stepForward
  | stepBackward
deriving DecidableEq, Repr

/-- A seek answers nothing. -/
def IteratorCall.call :
    IteratorCall → StorageIterator ι → Option KeyValuePair × StorageIterator ι
  | .seek key, it => (none, it.seek key)
  | .seekToFirst, it => (none, it.seekToFirst)
  | .seekToLast, it => (none, it.seekToLast)
  | .stepForward, it => it.stepForward
  | .stepBackward, it => it.stepBackward

/-- The answers of the calls, each with the key the iterator then stands at. -/
def runIterator : List IteratorCall → StorageIterator ι →
    List (Option KeyValuePair × Option Bytes) × StorageIterator ι
  | [], it => ([], it)
  | call :: calls, it =>
      let (answer, it') := call.call it
      let (answers, last) := runIterator calls it'
      ((answer, it'.key) :: answers, last)

/-! ## The cursor on the map -/

namespace MapCursor

variable (stored : Bytes → Option Bytes)

/-- The least key the map has within the bound. -/
noncomputable def least (bound : Bytes → Prop) : Option Bytes :=
  nearest (fun a b => a < b) stored bound

/-- The greatest key the map has within the bound. -/
noncomputable def greatest (bound : Bytes → Prop) : Option Bytes :=
  nearest (fun a b => b < a) stored bound

noncomputable def opened : IteratorMode → Option Bytes
  | .start => least stored fun _ => True
  | .end => greatest stored fun _ => True
  | .from key .forward => least stored (key ≤ ·)
  | .from key .reverse => greatest stored (· ≤ key)

/-- The pair at the position of the cursor. -/
def pairAt (position : Option Bytes) : Option KeyValuePair :=
  position.bind fun key => (stored key).map (key, ·)

noncomputable def call : IteratorCall → Option Bytes → Option KeyValuePair × Option Bytes
  | .seek key, _ => (none, least stored (key ≤ ·))
  | .seekToFirst, _ => (none, least stored fun _ => True)
  | .seekToLast, _ => (none, greatest stored fun _ => True)
  | .stepForward, position =>
      (pairAt stored position, position.bind fun key => least stored (key < ·))
  | .stepBackward, position =>
      (pairAt stored position, position.bind fun key => greatest stored (· < key))

noncomputable def run : List IteratorCall → Option Bytes →
    List (Option KeyValuePair × Option Bytes) × Option Bytes
  | [], position => ([], position)
  | c :: calls, position =>
      let (answer, position') := call stored c position
      let (answers, last) := run calls position'
      ((answer, position') :: answers, last)

end MapCursor

/-- What RocksDB documents of its raw iterator: seeks and moves go to the nearest key in the
order of all keys, past the last one it is not valid, and what is read is stored.  For
`DataKv`, which has a prefix extractor, this is the contract of a total order seek. -/
class LawfulRawIterator (ι : Std.ExtTreeMap Bytes Bytes → Type) [RawIterator ι] : Prop where
  key_seekToFirst : ∀ {pairs} (iter : ι pairs), RawIterator.key (RawIterator.seekToFirst iter) =
    MapCursor.least (pairs[·]?) fun _ => True
  key_seekToLast : ∀ {pairs} (iter : ι pairs), RawIterator.key (RawIterator.seekToLast iter) =
    MapCursor.greatest (pairs[·]?) fun _ => True
  key_seek : ∀ {pairs} (key : Bytes) (iter : ι pairs),
    RawIterator.key (RawIterator.seek key iter) = MapCursor.least (pairs[·]?) (key ≤ ·)
  key_seekForPrev : ∀ {pairs} (key : Bytes) (iter : ι pairs),
    RawIterator.key (RawIterator.seekForPrev key iter) = MapCursor.greatest (pairs[·]?) (· ≤ key)
  key_next : ∀ {pairs} (iter : ι pairs), RawIterator.key (RawIterator.next iter) =
    (RawIterator.key iter).bind fun key => MapCursor.least (pairs[·]?) (key < ·)
  key_prev : ∀ {pairs} (iter : ι pairs), RawIterator.key (RawIterator.prev iter) =
    (RawIterator.key iter).bind fun key => MapCursor.greatest (pairs[·]?) (· < key)
  valid_eq : ∀ {pairs} (iter : ι pairs), RawIterator.valid iter = (RawIterator.key iter).isSome
  stored_key : ∀ {pairs} (iter : ι pairs) {key : Bytes}, RawIterator.key iter = some key →
    ∃ value, pairs[key]? = some value ∧ RawIterator.value iter = some value

/-! ## Both answer alike -/

namespace StorageIterator

variable [LawfulRawIterator ι] [LawfulRawIterator κ]

/-- What the iterator walks. -/
def stored (it : StorageIterator ι) (key : Bytes) : Option Bytes := it.pairs[key]?

/-- A step in one direction, by the keys that lie there. -/
theorem step_eq (it : StorageIterator ι) {move : ι it.pairs → ι it.pairs}
    {after : Bytes → Option Bytes}
    (hmove : RawIterator.key (move it.inner) = (RawIterator.key it.inner).bind after) :
    (it.step move).1 = MapCursor.pairAt it.stored it.key ∧
      (it.step move).2.key = it.key.bind after ∧ (it.step move).2.stored = it.stored := by
  have hvalid : it.valid = it.key.isSome := LawfulRawIterator.valid_eq it.inner
  cases hkey : it.key with
  | none =>
      have hstep : it.step move = (none, it) := by simp [step, hvalid, hkey]
      rw [hstep, hkey]
      exact ⟨rfl, rfl, rfl⟩
  | some key =>
      obtain ⟨value, hstored, hvalue⟩ := LawfulRawIterator.stored_key it.inner hkey
      have hstep : it.step move = (some (key, value), { it with inner := move it.inner }) := by
        simp [step, hvalid, hkey, show it.value = some value from hvalue]
      rw [hstep]
      refine ⟨?_, ?_, rfl⟩
      · simp [MapCursor.pairAt, show it.stored key = some value from hstored]
      · rw [← hkey]
        exact hmove

/-- One call: the answer, the position it leaves and the pairs it walks. -/
theorem call_eq (it : StorageIterator ι) (c : IteratorCall) :
    (c.call it).1 = (MapCursor.call it.stored c it.key).1 ∧
      (c.call it).2.key = (MapCursor.call it.stored c it.key).2 ∧
      (c.call it).2.stored = it.stored := by
  cases c with
  | seek key => exact ⟨rfl, LawfulRawIterator.key_seek key it.inner, rfl⟩
  | seekToFirst => exact ⟨rfl, LawfulRawIterator.key_seekToFirst it.inner, rfl⟩
  | seekToLast => exact ⟨rfl, LawfulRawIterator.key_seekToLast it.inner, rfl⟩
  | stepForward => exact it.step_eq (LawfulRawIterator.key_next it.inner)
  | stepBackward => exact it.step_eq (LawfulRawIterator.key_prev it.inner)

/-- A run of calls. -/
theorem run_eq (it : StorageIterator ι) (calls : List IteratorCall) :
    (runIterator calls it).1 = (MapCursor.run it.stored calls it.key).1 ∧
      (runIterator calls it).2.key = (MapCursor.run it.stored calls it.key).2 ∧
      (runIterator calls it).2.stored = it.stored := by
  induction calls generalizing it with
  | nil => exact ⟨rfl, rfl, rfl⟩
  | cons c calls ih =>
      obtain ⟨hanswer, hkey, hstored⟩ := it.call_eq c
      obtain ⟨hanswers, hlast, hrest⟩ := ih (c.call it).2
      rw [hkey, hstored] at hanswers hlast
      exact ⟨by simp only [runIterator, MapCursor.run, hanswer, hkey, hanswers],
        hlast, hrest.trans hstored⟩

/-- Iterators at the same key of the same pairs hand out the same. -/
theorem loop_congr (c : IteratorCall) {it : StorageIterator ι} {it' : StorageIterator κ}
    (hstored : it.stored = it'.stored) (hkey : it.key = it'.key) (n : Nat) :
    loop c.call n it = loop c.call n it' := by
  induction n generalizing it it' with
  | zero => rfl
  | succ n ih =>
      obtain ⟨hanswer, hnext, hsame⟩ := it.call_eq c
      obtain ⟨hanswer', hnext', hsame'⟩ := it'.call_eq c
      rw [hstored, hkey] at hanswer hnext
      have hrest := ih (hsame.trans (hstored.trans hsame'.symm)) (hnext.trans hnext'.symm)
      rw [loop, loop]
      revert hanswer hanswer' hrest
      rcases c.call it with ⟨answer, next⟩
      rcases c.call it' with ⟨answer', next'⟩
      rintro rfl rfl hrest
      cases (MapCursor.call it'.stored c it'.key).1 with
      | none => rfl
      | some pair => exact congrArg (pair :: ·) hrest

end StorageIterator

/-! ## A walker is such an iterator -/

/-- A walker on the sorted pairs. -/
abbrev MapWalker (pairs : Std.ExtTreeMap Bytes Bytes) : Type := Walker pairs.toList

instance : RawIterator MapWalker where
  rawIterator _ := ⟨.nowhere, trivial⟩
  seekToFirst _ := .toFirst (fun _ => true) _
  seekToLast _ := .toLast (fun _ => true) _
  seek key _ := .toFirst (fun pair => compare pair.1 key != .lt) _
  seekForPrev key _ := .toLast (fun pair => compare key pair.1 != .lt) _
  next := Walker.next
  prev := Walker.prev
  valid := Walker.valid
  key w := w.item?.map Prod.fst
  value w := w.item?.map Prod.snd

theorem lists_toList (pairs : Std.ExtTreeMap Bytes Bytes) :
    Lists (fun a b => a < b) (pairs[·]?) pairs.toList where
  ordered := Std.ExtTreeMap.ordered_keys_toList.imp Bytes.compare_eq_lt.mp
  mem_iff _ _ := Std.ExtTreeMap.mem_toList_iff_getElem?_eq_some

section Positions

variable {stored : Bytes → Option Bytes} {l : List KeyValuePair}

theorem item?_toFirst (h : Lists (fun a b => a < b) stored l) {bound : Bytes → Prop}
    {p : KeyValuePair → Bool} (hp : ∀ pair, p pair = true ↔ bound pair.1) :
    (Walker.toFirst p l).item?.map Prod.fst = MapCursor.least stored bound :=
  h.nearest_find hp

theorem item?_toLast (h : Lists (fun a b => a < b) stored l) {bound : Bytes → Prop}
    {p : KeyValuePair → Bool} (hp : ∀ pair, p pair = true ↔ bound pair.1) :
    (Walker.toLast p l).item?.map Prod.fst = MapCursor.greatest stored bound := by
  rw [Walker.item?, Walker.toLast, Place.item?_flip]
  exact h.reverse.nearest_find hp

theorem not_compare_lt_iff (a b : Bytes) : (compare a b != .lt) = true ↔ b ≤ a := by
  rw [bne_iff_ne, Ne, Bytes.compare_eq_lt, List.not_lt]

/-- The next item has the next key of the map. -/
theorem item?_next (h : Lists (fun a b => a < b) stored l) (w : Walker l) :
    w.next.item?.map Prod.fst =
      (w.item?.map Prod.fst).bind fun key => MapCursor.least stored (key < ·) := by
  obtain ⟨place, hplace⟩ := w
  cases place with
  | nowhere => rfl
  | «at» behind item ahead => exact h.nearest_next hplace

/-- The previous item has the previous key of the map. -/
theorem item?_prev (h : Lists (fun a b => a < b) stored l) (w : Walker l) :
    w.prev.item?.map Prod.fst =
      (w.item?.map Prod.fst).bind fun key => MapCursor.greatest stored (· < key) := by
  obtain ⟨place, hplace⟩ := w
  cases place with
  | nowhere => rfl
  | «at» behind item ahead =>
      have hitem : Walker.item? (Walker.prev ⟨_, hplace⟩) =
          (Place.at behind item ahead).flip.next.item? := Place.item?_flip _
      rw [hitem]
      exact h.reverse.nearest_next hplace.flip

end Positions

instance : LawfulRawIterator MapWalker where
  key_seekToFirst _ := item?_toFirst (lists_toList _) (by simp)
  key_seekToLast _ := item?_toLast (lists_toList _) (by simp)
  key_seek key _ := item?_toFirst (lists_toList _) fun pair => not_compare_lt_iff pair.1 key
  key_seekForPrev key _ := item?_toLast (lists_toList _) fun pair => not_compare_lt_iff key pair.1
  key_next := item?_next (lists_toList _)
  key_prev := item?_prev (lists_toList _)
  valid_eq w := by
    change w.item?.isSome = (w.item?.map Prod.fst).isSome
    rw [Option.isSome_map]
  stored_key := by
    intro pairs w key hkey
    obtain ⟨item, hitem, rfl⟩ := Option.map_eq_some_iff.mp hkey
    exact ⟨item.2, (lists_toList pairs).stored_item w.within hitem,
      Option.map_eq_some_iff.mpr ⟨item, hitem, rfl⟩⟩

namespace StorageIterator

theorem step_none {it : StorageIterator MapWalker} (hitem : it.inner.item? = none)
    (move : MapWalker it.pairs → MapWalker it.pairs) : it.step move = (none, it) := by
  simp [step, valid, RawIterator.valid, Walker.valid,
    show it.inner.place.item? = none from hitem]

theorem step_some {it : StorageIterator MapWalker} {pair : KeyValuePair}
    (hitem : it.inner.item? = some pair) (move : MapWalker it.pairs → MapWalker it.pairs) :
    it.step move = (some pair, { it with inner := move it.inner }) := by
  simp [step, valid, key, value, RawIterator.valid, RawIterator.key, RawIterator.value,
    Walker.valid, hitem, show it.inner.place.item? = some pair from hitem]

/-- A loop of a walker hands out the item and all that lies in the direction of its moves. -/
theorem loop_walker
    (move : (it : StorageIterator MapWalker) → MapWalker it.pairs → MapWalker it.pairs)
    (look : Place KeyValuePair → List KeyValuePair)
    (hhead : ∀ place, place.item? = (look place).head?)
    (htail : ∀ it, look (move it it.inner).place = (look it.inner.place).tail)
    {n : Nat} {it : StorageIterator MapWalker} (hn : (look it.inner.place).length < n) :
    loop (fun it => it.step (move it)) n it = look it.inner.place := by
  induction n generalizing it with
  | zero => exact absurd hn (Nat.not_lt_zero _)
  | succ n ih =>
      have hitem : it.inner.item? = (look it.inner.place).head? := hhead it.inner.place
      rw [loop]
      cases hlook : look it.inner.place with
      | nil =>
          rw [hlook, List.head?_nil] at hitem
          rw [step_none hitem]
      | cons pair others =>
          rw [hlook, List.head?_cons] at hitem
          have hothers : look (move it it.inner).place = others := by
            rw [htail, hlook, List.tail_cons]
          rw [hlook, List.length_cons] at hn
          rw [step_some hitem]
          simp only
          rw [ih (by simp only [hothers]; omega), hothers]

theorem forwards_walker (it : StorageIterator MapWalker) :
    it.forwards = it.inner.place.onwards :=
  loop_walker (fun _ => Walker.next) Place.onwards Place.item?_eq_head?
    (fun it => Place.onwards_next it.inner.place)
    (Nat.lt_succ_of_le (Place.length_onwards_le it.inner.within))

theorem backwards_walker (it : StorageIterator MapWalker) :
    it.backwards = it.inner.place.flip.onwards := by
  have hlength := Place.length_onwards_le it.inner.within.flip
  rw [List.length_reverse] at hlength
  refine loop_walker (fun _ => Walker.prev) (fun place => place.flip.onwards) ?_ ?_
    (Nat.lt_succ_of_le hlength)
  · intro place
    rw [← Place.item?_flip, Place.item?_eq_head?]
  · intro it
    simp only [Walker.prev, Place.prev, Place.flip_flip]
    exact Place.onwards_next it.inner.place.flip

variable [LawfulRawIterator ι]

/-- A walker that stands where an iterator stands. -/
theorem exists_walker (it : StorageIterator ι) :
    ∃ w : MapWalker it.pairs, w.item?.map Prod.fst = it.key := by
  cases hkey : it.key with
  | none => exact ⟨RawIterator.rawIterator it.pairs, rfl⟩
  | some key =>
      obtain ⟨value, hstored, -⟩ := LawfulRawIterator.stored_key it.inner hkey
      refine ⟨RawIterator.seek key (RawIterator.rawIterator it.pairs), ?_⟩
      refine (LawfulRawIterator.key_seek (ι := MapWalker) key _).trans (nearest_eq_some ?_)
      exact ⟨by rw [hstored]; rfl, List.le_refl key, fun other _ hle => List.not_lt.mpr hle⟩

/-- The loops of an iterator are those of a walker. -/
theorem loops_walker (it : StorageIterator ι) :
    ∃ w : MapWalker it.pairs, w.item?.map Prod.fst = it.key ∧
      it.forwards = w.place.onwards ∧ it.backwards = w.place.flip.onwards := by
  obtain ⟨w, hw⟩ := it.exists_walker
  let walker : StorageIterator MapWalker := ⟨it.pairs, w, it.cf⟩
  have hstored : it.stored = walker.stored := rfl
  have hkey : it.key = walker.key := hw.symm
  refine ⟨w, hw, ?_, ?_⟩
  · rw [← forwards_walker walker]
    exact loop_congr .stepForward hstored hkey _
  · rw [← backwards_walker walker]
    exact loop_congr .stepBackward hstored hkey _

/-- What lies ahead, by the map. -/
theorem forwards_eq (it : StorageIterator ι) :
    it.forwards.Pairwise (fun a b => a.1 < b.1) ∧
      ∀ key value, (key, value) ∈ it.forwards ↔
        it.stored key = some value ∧ ∃ position, it.key = some position ∧ position ≤ key := by
  obtain ⟨w, hkey, hforwards, -⟩ := it.loops_walker
  have h := lists_toList it.pairs
  rw [hforwards, ← hkey]
  refine ⟨h.pairwise_onwards w.within, fun key value => ?_⟩
  rw [h.mem_onwards w.within, Walker.item?, stored]
  cases w.place.item? <;> simp [List.not_lt]

/-- What lies behind, by the map. -/
theorem backwards_eq (it : StorageIterator ι) :
    it.backwards.Pairwise (fun a b => b.1 < a.1) ∧
      ∀ key value, (key, value) ∈ it.backwards ↔
        it.stored key = some value ∧ ∃ position, it.key = some position ∧ key ≤ position := by
  obtain ⟨w, hkey, -, hbackwards⟩ := it.loops_walker
  have h := (lists_toList it.pairs).reverse
  rw [hbackwards, ← hkey]
  refine ⟨h.pairwise_onwards w.within.flip, fun key value => ?_⟩
  rw [h.mem_onwards w.within.flip, Walker.item?, Place.item?_flip, stored]
  cases w.place.item? <;> simp [List.not_lt]

end StorageIterator

theorem key_iterator [LawfulRawIterator ι] (s : Storage) (cf : ColumnFamily)
    (mode : IteratorMode) :
    (s.iterator ι cf mode).key = MapCursor.opened (s.get cf) mode := by
  cases mode with
  | start => exact LawfulRawIterator.key_seekToFirst _
  | «end» => exact LawfulRawIterator.key_seekToLast _
  | «from» key direction =>
      cases direction with
      | forward => exact LawfulRawIterator.key_seek key _
      | reverse => exact LawfulRawIterator.key_seekForPrev key _

/-- However an iterator was opened and whatever was called on it since, its answers and the
keys it stood at are those of the cursor on the map; a loop from where it then stands hands
out the pairs of the map from that key on, upwards or downwards, and no others. -/
theorem iterator_walks_map (ι : Std.ExtTreeMap Bytes Bytes → Type) [RawIterator ι]
    [LawfulRawIterator ι] (s : Storage) (cf : ColumnFamily) (mode : IteratorMode)
    (calls : List IteratorCall) :
    let it := (runIterator calls (s.iterator ι cf mode)).2
    (runIterator calls (s.iterator ι cf mode)).1 =
        (MapCursor.run (s.get cf) calls (MapCursor.opened (s.get cf) mode)).1 ∧
      it.key = (MapCursor.run (s.get cf) calls (MapCursor.opened (s.get cf) mode)).2 ∧
      it.forwards.Pairwise (fun a b => a.1 < b.1) ∧
      it.backwards.Pairwise (fun a b => b.1 < a.1) ∧
      ∀ key value,
        ((key, value) ∈ it.forwards ↔ s.get cf key = some value ∧
          ∃ position, it.key = some position ∧ position ≤ key) ∧
        ((key, value) ∈ it.backwards ↔ s.get cf key = some value ∧
          ∃ position, it.key = some position ∧ key ≤ position) := by
  intro it
  obtain ⟨hanswers, hkey, hstored⟩ := (s.iterator ι cf mode).run_eq calls
  rw [key_iterator] at hanswers hkey
  have hget : it.stored = s.get cf := hstored
  obtain ⟨hup, hforwards⟩ := it.forwards_eq
  obtain ⟨hdown, hbackwards⟩ := it.backwards_eq
  rw [hget] at hforwards hbackwards
  exact ⟨hanswers, hkey, hup, hdown, fun key value => ⟨hforwards key value, hbackwards key value⟩⟩

namespace Witness

/-- Three keys of the data. -/
def threeKeys : Storage :=
  Storage.new.write [.put .dataKv [2] [20], .put .dataKv [1] [10], .put .dataKv [3] [30]]

/-- From the last key a step down and a look up. -/
theorem threeKeys_walked :
    (runIterator [.stepBackward] (threeKeys.iterator MapWalker .dataKv .end)).1 =
        [(some ([3], [30]), some [2])] ∧
      ∀ key value, (key, value) ∈
          (runIterator [.stepBackward] (threeKeys.iterator MapWalker .dataKv .end)).2.forwards ↔
        threeKeys.get .dataKv key = some value ∧ [2] ≤ key := by
  have hwalk := iterator_walks_map MapWalker threeKeys .dataKv .end [.stepBackward]
  have hkey : (runIterator [.stepBackward] (threeKeys.iterator MapWalker .dataKv .end)).2.key =
      some [2] := by decide
  refine ⟨by decide, fun key value => ?_⟩
  rw [(hwalk.2.2.2.2 key value).1, hkey]
  simp

end Witness

/-! ## The loops of the log -/

/-- The scan of the log reader is a loop from a seek. -/
theorem iteratorFrom_eq_forwards [LawfulRawIterator ι] (s : Storage) (cf : ColumnFamily)
    (start : Bytes) :
    s.iteratorFrom cf start = (s.iterator ι cf (.from start .forward)).forwards := by
  have hstored : (s.iterator ι cf (.from start .forward)).stored =
      (s.iterator MapWalker cf (.from start .forward)).stored := rfl
  have hkey : (s.iterator ι cf (.from start .forward)).key =
      (s.iterator MapWalker cf (.from start .forward)).key := by
    rw [key_iterator, key_iterator]
  have hsame : (s.iterator ι cf (.from start .forward)).forwards =
      (s.iterator MapWalker cf (.from start .forward)).forwards :=
    StorageIterator.loop_congr .stepForward hstored hkey _
  rw [hsame, StorageIterator.forwards_walker, Storage.iteratorFrom]
  simp only [Storage.iterator, RawIterator.seek, Walker.toFirst, Place.onwards_find,
    bne, Bool.not_not]

/-- The last key of a column family is where an iterator opened at its end stands. -/
theorem lastKey_eq_key [LawfulRawIterator ι] (s : Storage) (cf : ColumnFamily) :
    s.lastKey cf = (s.iterator ι cf .end).key := by
  rw [key_iterator, ← key_iterator (ι := MapWalker)]
  simp only [Storage.lastKey, StorageIterator.key, Storage.iterator, RawIterator.seekToLast,
    RawIterator.key, Walker.toLast, Walker.item?, Place.item?_flip]
  rw [Place.item?_eq_head?, Place.onwards_find, ← List.head?_reverse]
  cases (s.db cf).toList.reverse <;> rfl

end Seshat
