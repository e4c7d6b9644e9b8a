/-
The raft-rs log store.  Entries are those of raft-rs, of which the reads below look at the
index and the encoded length.  A read with a size limit returns the longest beginning of
the range that fits, and nothing where not even its first entry does.
-/
import Seshat.Lib.Prefixes
import Seshat.Lib.Protobuf
import Seshat.Storage.Types

namespace Seshat

open Prefixes

/-- `eraftpb::Entry`, as far as it is read here. -/
class EraftEntry (E : Type) where
  index : E → UInt64
  /-- `encoded_len`, cast to `u64`. -/
  encodedLen : E → UInt64

/-- How a call of `raft::Storage` can fail: with a store error, or in checked arithmetic
and slicing. -/
inductive RaftError where
  | compacted
  | unavailable
  | panic
deriving DecidableEq, Repr

/-- The log and the index of the snapshot.  Hard state and configuration are not read by
the functions below. -/
structure MemStorage (E : Type) where
  entries : List E
  snapshotIndex : UInt64

namespace MemStorage

variable {E : Type} [EraftEntry E]

def new : MemStorage E := ⟨[], 0⟩

def append (ents : List E) (m : MemStorage E) : MemStorage E :=
  { m with entries := m.entries ++ ents }

def setSnapshot (index : UInt64) (m : MemStorage E) : MemStorage E :=
  { m with snapshotIndex := index }

end MemStorage

namespace RaftStorage

variable {E : Type} [EraftEntry E]

/-- `u64` addition. -/
def checkedAdd (a b : UInt64) : Except RaftError UInt64 :=
  if a.toNat + b.toNat < 2 ^ 64 then .ok (a + b) else .error .panic

/-- `u64` subtraction, and the cast to `usize`. -/
def checkedSub (a b : UInt64) : Except RaftError Nat :=
  if b ≤ a then .ok (a - b).toNat else .error .panic

/-- `entries[lo..hi].to_vec()` -/
def slice (entries : List E) (lo hi : Nat) : Except RaftError (List E) :=
  if lo ≤ hi ∧ hi ≤ entries.length then .ok ((entries.take hi).drop lo) else .error .panic

/-- `result.retain` with its running sum: every entry is added, kept or not. -/
def retain (max : UInt64) : UInt64 → List E → Except RaftError (List E)
  | _, [] => .ok []
  | size, e :: result => do
      let size ← checkedAdd size (EraftEntry.encodedLen e)
      let kept ← retain max size result
      return if size ≤ max then e :: kept else kept

def entries (m : MemStorage E) (low high : UInt64) (maxSize : Option UInt64) :
    Except RaftError (List E) :=
  match m.entries.head?, m.entries.getLast? with
  | some first, some last => do
      let offset := EraftEntry.index first
      if low < offset then
        throw .compacted
      let behind ← checkedAdd (EraftEntry.index last) 1
      if high > behind then
        throw .unavailable
      let lo ← checkedSub low offset
      let hi ← checkedSub high offset
      let result ← slice m.entries lo hi
      match maxSize with
      | some max => retain max 0 result
      | none => return result
  | _, _ => .error .unavailable

def firstIndex (m : MemStorage E) : Except RaftError UInt64 :=
  match m.entries.head? with
  | some first => .ok (EraftEntry.index first)
  | none => checkedAdd m.snapshotIndex 1

def lastIndex (m : MemStorage E) : Except RaftError UInt64 :=
  match m.entries.getLast? with
  | some last => .ok (EraftEntry.index last)
  | none => .ok m.snapshotIndex

/-- The encoded length of an entry. -/
def size (e : E) : Nat :=
  (EraftEntry.encodedLen e).toNat

/-- The indices of the log follow each other. -/
def Consecutive (m : MemStorage E) : Prop :=
  m.entries.IsChain fun a b =>
    (EraftEntry.index a).toNat + 1 = (EraftEntry.index b).toNat

/-- The entries of the half-open interval of indices. -/
def between (m : MemStorage E) (low high : UInt64) : List E :=
  m.entries.filter fun e =>
    low.toNat ≤ (EraftEntry.index e).toNat ∧ (EraftEntry.index e).toNat < high.toNat

/-- What a read may return under a limit: a beginning of the range that stays within it,
or one entry whatever its size. -/
def Admitted (maxSize : Option UInt64) (range result : List E) : Prop :=
  result <+: range ∧
    ((∀ max, maxSize = some max → total size result ≤ max.toNat) ∨ result.length = 1)

/-- What a read has to return: the longest of these, hence something of a range that is
not empty. -/
structure Limited (maxSize : Option UInt64) (range result : List E) : Prop where
  admitted : Admitted maxSize range result
  nonempty : range ≠ [] → result ≠ []
  longest : ∀ other, Admitted maxSize range other → other.length ≤ result.length

omit [EraftEntry E] in
theorem checkedAdd_eq_ok {a b : UInt64} (h : a.toNat + b.toNat < 2 ^ 64) :
    checkedAdd a b = .ok (a + b) :=
  if_pos h

theorem retain_eq {max used : UInt64} {result : List E}
    (h : used.toNat + total size result < 2 ^ 64) :
    retain max used result = .ok (Prefixes.retain size max.toNat used.toNat result) := by
  induction result generalizing used with
  | nil => rfl
  | cons e result ih =>
      rw [total_cons] at h
      have hfits : used.toNat + (EraftEntry.encodedLen e).toNat < 2 ^ 64 := by
        rw [size] at h
        omega
      have hadd : (used + EraftEntry.encodedLen e).toNat = used.toNat + size e := by
        rw [UInt64.toNat_add, Nat.mod_eq_of_lt hfits, size]
      have hrest := @ih (used + EraftEntry.encodedLen e) (by rw [hadd]; omega)
      rw [retain, checkedAdd_eq_ok hfits]
      change (do
        let kept ← retain max (used + EraftEntry.encodedLen e) result
        return if used + EraftEntry.encodedLen e ≤ max then e :: kept else kept) = _
      rw [hrest, Prefixes.retain, ← hadd]
      change Except.ok _ = _
      rw [apply_ite Except.ok, apply_ite Except.ok]
      rfl

theorem Consecutive.numbered {m : MemStorage E} (h : Consecutive m) {first : E}
    (hfirst : m.entries.head? = some first) :
    Numbered (fun e => (EraftEntry.index e).toNat) (EraftEntry.index first).toNat m.entries := by
  obtain ⟨rest, hentries⟩ := List.head?_eq_some_iff.mp hfirst
  rw [Consecutive, hentries] at h
  rw [hentries]
  exact numbered_of_isChain h

/-- The slice of a range holds the entries of its indices. -/
theorem slice_eq {m : MemStorage E} (hconsecutive : Consecutive m) {first last : E}
    (hfirst : m.entries.head? = some first) (hlast : m.entries.getLast? = some last)
    {low high : UInt64} (hlow : EraftEntry.index first ≤ low) (hle : low ≤ high)
    (hhigh : high.toNat ≤ (EraftEntry.index last).toNat + 1) :
    slice m.entries (low - EraftEntry.index first).toNat (high - EraftEntry.index first).toNat =
      .ok (between m low high) := by
  have hnumbered := hconsecutive.numbered hfirst
  have hlength := hnumbered.getLast hlast
  have hbounds : (low - EraftEntry.index first).toNat ≤ (high - EraftEntry.index first).toNat ∧
      (high - EraftEntry.index first).toNat ≤ m.entries.length := by
    rw [UInt64.le_iff_toNat_le] at hlow hle
    rw [UInt64.toNat_sub_of_le _ _ (UInt64.le_iff_toNat_le.mpr hlow),
      UInt64.toNat_sub_of_le _ _ (UInt64.le_iff_toNat_le.mpr (hlow.trans hle))]
    omega
  rw [slice, if_pos hbounds, between, hnumbered.filter_interval,
    UInt64.toNat_sub_of_le _ _ hlow, UInt64.toNat_sub_of_le _ _ (UInt64.le_trans hlow hle)]

/-- What a read within the bounds of the log returns. -/
def limitedTo (maxSize : Option UInt64) (range : List E) : List E :=
  match maxSize with
  | some max => Prefixes.retain size max.toNat 0 range
  | none => range

section Reads

variable {m : MemStorage E} {first last : E} {low high : UInt64}

theorem entries_run (hconsecutive : Consecutive m) (htotal : total size m.entries < 2 ^ 64)
    (hfirst : m.entries.head? = some first) (hlast : m.entries.getLast? = some last)
    (hlow : EraftEntry.index first ≤ low) (hle : low ≤ high)
    (hhigh : high.toNat ≤ (EraftEntry.index last).toNat + 1)
    (hbehind : (EraftEntry.index last).toNat + 1 < 2 ^ 64) (maxSize : Option UInt64) :
    entries m low high maxSize = .ok (limitedTo maxSize (between m low high)) := by
  have hadd : checkedAdd (EraftEntry.index last) 1 = .ok (EraftEntry.index last + 1) :=
    checkedAdd_eq_ok hbehind
  have hnot : ¬ high > EraftEntry.index last + 1 := by
    rw [gt_iff_lt, UInt64.not_lt, UInt64.le_iff_toNat_le, UInt64.toNat_add]
    exact hhigh.trans (le_of_eq (Nat.mod_eq_of_lt hbehind).symm)
  have hlo : checkedSub low (EraftEntry.index first) =
      .ok (low - EraftEntry.index first).toNat := if_pos hlow
  have hhi : checkedSub high (EraftEntry.index first) =
      .ok (high - EraftEntry.index first).toNat := if_pos (UInt64.le_trans hlow hle)
  have hslice := slice_eq hconsecutive hfirst hlast hlow hle hhigh
  have hnarrow : total size (between m low high) < 2 ^ 64 :=
    lt_of_le_of_lt (total_le_of_sublist List.filter_sublist) htotal
  rw [entries, hfirst, hlast]
  simp only [UInt64.not_lt.mpr hlow, ↓reduceIte, hadd, bind, Except.bind, pure, Except.pure, hnot,
    hlo, hhi, hslice]
  cases maxSize with
  | none => rfl
  | some max =>
      have hzero : (0 : UInt64).toNat + total size (between m low high) < 2 ^ 64 := by
        simpa using hnarrow
      exact retain_eq hzero

/-- The index behind the last possible one cannot be computed. -/
theorem entries_run_overflow (hfirst : m.entries.head? = some first)
    (hlast : m.entries.getLast? = some last) (hlow : EraftEntry.index first ≤ low)
    (hbehind : ¬ (EraftEntry.index last).toNat + 1 < 2 ^ 64) (maxSize : Option UInt64) :
    entries m low high maxSize = .error .panic := by
  have hadd : checkedAdd (EraftEntry.index last) 1 = .error .panic := if_neg hbehind
  rw [entries, hfirst, hlast]
  simp only [UInt64.not_lt.mpr hlow, ↓reduceIte, hadd, bind, Except.bind]

end Reads

/-- Nothing is returned of a range whose first entry is too large. -/
theorem limitedTo_limited_iff (maxSize : Option UInt64) (range : List E) :
    Limited maxSize range (limitedTo maxSize range) ↔
      ∀ max, maxSize = some max → ∀ e, range.head? = some e → size e ≤ max.toNat := by
  cases maxSize with
  | none =>
      refine iff_of_true ⟨⟨List.prefix_refl _, Or.inl (by simp)⟩, id, ?_⟩ (by simp)
      intro other hother
      exact hother.1.length_le
  | some max =>
      have hfits : total size (Prefixes.retain size max.toNat 0 range) ≤ max.toNat := by
        simpa using total_retain_le (Nat.zero_le max.toNat) range
      have hlongest : ∀ other, other <+: range → total size other ≤ max.toNat →
          other <+: Prefixes.retain size max.toNat 0 range := by
        intro other hbegins hother
        exact prefix_retain hbegins (by simpa using hother)
      constructor
      · rintro h _ ⟨⟩ e hhead
        obtain ⟨rest, rfl⟩ := List.head?_eq_some_iff.mp hhead
        by_contra hlarge
        refine h.nonempty (by simp) ?_
        rw [limitedTo, Prefixes.retain, if_neg (by omega), retain_eq_nil (by omega)]
      · intro h
        have hnonempty : range ≠ [] → Prefixes.retain size max.toNat 0 range ≠ [] := by
          intro hne
          obtain ⟨e, rest, rfl⟩ := List.exists_cons_of_ne_nil hne
          have hone := hlongest [e] (by simp) (by simpa using h max rfl e rfl)
          intro hnil
          rw [hnil] at hone
          simp at hone
        refine ⟨⟨retain_begins 0 range, Or.inl ?_⟩, hnonempty, ?_⟩
        · rintro _ ⟨⟩
          exact hfits
        · rintro other ⟨hbegins, hother | hother⟩
          · exact (hlongest other hbegins (hother max rfl)).length_le
          · have hne : range ≠ [] := by
              rintro rfl
              rw [List.prefix_nil.mp hbegins] at hother
              cases hother
            rw [hother]
            exact List.length_pos_iff.mpr (hnonempty hne)

/-- A read within the bounds of the log does what raft asks of it exactly when the index
behind the last one can be computed and, under a limit, the first entry of the range
fits. -/
theorem entries_limited_iff {m : MemStorage E} (hne : m.entries ≠ [])
    (hconsecutive : Consecutive m) (htotal : total size m.entries < 2 ^ 64)
    {first last low high : UInt64} (hfirst : firstIndex m = .ok first)
    (hlast : lastIndex m = .ok last) (hlow : first ≤ low) (hle : low ≤ high)
    (hhigh : high.toNat ≤ last.toNat + 1) (maxSize : Option UInt64) :
    (∃ result, entries m low high maxSize = .ok result ∧
        Limited maxSize (between m low high) result) ↔
      last.toNat + 1 < 2 ^ 64 ∧ ∀ max, maxSize = some max →
        ∀ e, (between m low high).head? = some e → size e ≤ max.toNat := by
  obtain ⟨e, hhead⟩ : ∃ e, m.entries.head? = some e :=
    ⟨m.entries.head hne, List.head?_eq_some_head hne⟩
  obtain ⟨e', hgetLast⟩ : ∃ e', m.entries.getLast? = some e' :=
    ⟨m.entries.getLast hne, List.getLast?_eq_some_getLast hne⟩
  obtain rfl : EraftEntry.index e = first := by
    simpa [firstIndex, hhead] using hfirst
  obtain rfl : EraftEntry.index e' = last := by
    simpa [lastIndex, hgetLast] using hlast
  by_cases hbehind : (EraftEntry.index e').toNat + 1 < 2 ^ 64
  · rw [entries_run hconsecutive htotal hhead hgetLast hlow hle hhigh hbehind maxSize,
      and_iff_right hbehind, ← limitedTo_limited_iff]
    simp
  · rw [entries_run_overflow hhead hgetLast hlow hbehind maxSize]
    exact iff_of_false (by simp) fun h => hbehind h.1

end RaftStorage

namespace Witness

open Decimal Protobuf RaftStorage

/-- An entry of raft-rs whose other fields have their defaults, which are not written. -/
structure PlainEntry where
  index : UInt64
  term : UInt64
  data : Bytes
deriving DecidableEq, Repr

def PlainEntry.fields (e : PlainEntry) : List Field :=
  uint 2 e.term ++ (uint 3 e.index ++ if e.data = [] then [] else [.bytes 4 e.data])

scoped instance : EraftEntry PlainEntry where
  index := PlainEntry.index
  encodedLen e := UInt64.ofNat (e.fields.flatMap Field.write).length

/-- Entries of ten and of fourteen bytes. -/
def twoPlain : MemStorage PlainEntry :=
  MemStorage.new.append [⟨1, 1, ascii "aaaa"⟩, ⟨2, 1, ascii "bbbbbbbb"⟩]

theorem twoPlain_consecutive : Consecutive twoPlain := by
  simp [Consecutive, twoPlain, MemStorage.new, MemStorage.append, EraftEntry.index]

theorem twoPlain_bounds : firstIndex twoPlain = .ok 1 ∧ lastIndex twoPlain = .ok 2 :=
  ⟨rfl, rfl⟩

/-- Twelve bytes hold the first of them. -/
theorem twoPlain_limited :
    ∃ result, entries twoPlain 1 3 (some 12) = .ok result ∧
      Limited (some 12) (between twoPlain 1 3) result := by
  refine (entries_limited_iff (by decide) twoPlain_consecutive (by decide) twoPlain_bounds.1
    twoPlain_bounds.2 (by decide) (by decide) (by decide) (some 12)).mpr ⟨by decide, ?_⟩
  rintro _ ⟨⟩ e hhead
  have hfirst : (between twoPlain 1 3).head? = some ⟨1, 1, ascii "aaaa"⟩ := rfl
  rw [hfirst] at hhead
  cases hhead
  decide

/-- Four bytes hold none of them, and nothing is returned of a range of two entries. -/
theorem twoPlain_starved :
    (twoPlain.entries ≠ [] ∧ Consecutive twoPlain ∧ total size twoPlain.entries < 2 ^ 64 ∧
      firstIndex twoPlain = .ok 1 ∧ lastIndex twoPlain = .ok 2) ∧
      ¬ ∃ result, entries twoPlain 1 3 (some 4) = .ok result ∧
        Limited (some 4) (between twoPlain 1 3) result := by
  refine ⟨⟨by decide, twoPlain_consecutive, by decide, twoPlain_bounds⟩, ?_⟩
  rintro ⟨result, hread, hlimited⟩
  have hnil : entries twoPlain 1 3 (some 4) = .ok [] := rfl
  rw [hnil] at hread
  cases hread
  exact hlimited.nonempty (by decide) rfl

end Witness

end Seshat
