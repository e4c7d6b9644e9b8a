/-
A log read in pages.  Raft sends the entries of a range in messages of limited size, each
read from behind the last entry of the one before.  All of them arrive exactly if none is
too large on its own; the reads stop for good in front of the first that is.
-/
import Seshat.Storage.MemStorage

namespace Seshat

open Prefixes

namespace RaftStorage

variable {E : Type} [EraftEntry E]

/-- Up to `n` reads of what is left of a range.  A read that returns nothing is the last. -/
def readPages (m : MemStorage E) (high : UInt64) (maxSize : Option UInt64) :
    Nat → UInt64 → Except RaftError (List (List E))
  | 0, _ => .ok []
  | n + 1, low => do
      let page ← entries m low high maxSize
      match page.getLast? with
      | none => return []
      | some last =>
          let next ← checkedAdd (EraftEntry.index last) 1
          return page :: (← readPages m high maxSize n next)

/-- The entry fits into a message of its own. -/
def fits (maxSize : Option UInt64) (e : E) : Bool :=
  maxSize.all fun max => size e ≤ max.toNat

theorem limitedTo_begins (maxSize : Option UInt64) (range : List E) :
    limitedTo maxSize range <+: range := by
  cases maxSize with
  | none => exact List.prefix_refl range
  | some max => exact retain_begins 0 range

/-- A page stays within the limit. -/
theorem total_limitedTo_le (max : UInt64) (range : List E) :
    total size (limitedTo (some max) range) ≤ max.toNat := by
  have hle : 0 + total size (Prefixes.retain size max.toNat 0 range) ≤ max.toNat :=
    total_retain_le (Nat.zero_le max.toNat) range
  rwa [Nat.zero_add] at hle

theorem fits_of_mem_limitedTo {maxSize : Option UInt64} {range : List E} {e : E}
    (he : e ∈ limitedTo maxSize range) : fits maxSize e = true := by
  cases maxSize with
  | none => rfl
  | some max =>
      have hle : total size [e] ≤ total size (limitedTo (some max) range) :=
        total_le_of_sublist (List.singleton_sublist.mpr he)
      rw [total_cons, total_nil, Nat.add_zero] at hle
      simpa [fits] using hle.trans (total_limitedTo_le max range)

/-- A page is empty only where the next entry does not fit. -/
theorem takeWhile_fits_eq_nil {maxSize : Option UInt64} {range : List E}
    (hnil : limitedTo maxSize range = []) : range.takeWhile (fits maxSize) = [] := by
  cases range with
  | nil => rfl
  | cons e range =>
      refine List.takeWhile_cons_of_neg fun hfits => ?_
      cases maxSize with
      | none => exact absurd hnil (by simp [limitedTo])
      | some max =>
          have hsize : size e ≤ max.toNat := by simpa [fits] using hfits
          have hone : [e] <+: limitedTo (some max) (e :: range) :=
            prefix_retain (by simp) (by simpa using hsize)
          rw [hnil] at hone
          simp at hone

section Pages

variable {m : MemStorage E} {low high : UInt64}

theorem between_increasing (hconsecutive : Consecutive m) (low high : UInt64) :
    (between m low high).Pairwise fun a b =>
      (EraftEntry.index a).toNat < (EraftEntry.index b).toNat := by
  have hchain : m.entries.IsChain fun a b =>
      (EraftEntry.index a).toNat < (EraftEntry.index b).toNat :=
    hconsecutive.imp fun a b hab => by omega
  exact hchain.pairwise.filter _

/-- Behind a page lies the rest of the range. -/
theorem between_behind (hconsecutive : Consecutive m) {page rest : List E}
    (hrange : between m low high = page ++ rest) {e : E} (hlast : page.getLast? = some e)
    {next : UInt64} (hnext : next.toNat = (EraftEntry.index e).toNat + 1) :
    between m next high = rest := by
  have hincreasing := between_increasing hconsecutive low high
  rw [hrange] at hincreasing
  obtain ⟨hpage, -, hcross⟩ := List.pairwise_append.mp hincreasing
  have hmem : e ∈ page := List.mem_of_getLast? hlast
  have hlow : low.toNat ≤ (EraftEntry.index e).toNat := by
    have he : e ∈ between m low high := hrange ▸ List.mem_append_left rest hmem
    rw [between, List.mem_filter, decide_eq_true_eq] at he
    exact he.2.1
  have hnarrow : between m next high =
      (between m low high).filter fun e => next.toNat ≤ (EraftEntry.index e).toNat := by
    rw [between, between, List.filter_filter]
    refine List.filter_congr fun e _ => ?_
    rw [← Bool.decide_and, decide_eq_decide]
    omega
  have hbefore : page.filter (fun e => next.toNat ≤ (EraftEntry.index e).toNat) = [] := by
    rw [List.filter_eq_nil_iff]
    intro other hother
    obtain ⟨before, hsplit⟩ := List.getLast?_eq_some_iff.mp hlast
    have hle : (EraftEntry.index other).toNat ≤ (EraftEntry.index e).toNat := by
      rw [hsplit] at hpage hother
      rcases List.mem_append.mp hother with hother | hother
      · exact le_of_lt ((List.pairwise_append.mp hpage).2.2 other hother e (by simp))
      · rw [List.mem_singleton.mp hother]
    rw [decide_eq_true_eq]
    omega
  have hbehind : rest.filter (fun e => next.toNat ≤ (EraftEntry.index e).toNat) = rest := by
    rw [List.filter_eq_self]
    intro other hother
    have hlt := hcross e hmem other hother
    rw [decide_eq_true_eq]
    omega
  rw [hnarrow, hrange, List.filter_append, hbefore, hbehind, List.nil_append]

theorem readPages_run (hconsecutive : Consecutive m)
    (htotal : total size m.entries < 2 ^ 64) {first last : E}
    (hfirst : m.entries.head? = some first) (hlast : m.entries.getLast? = some last)
    (hbehind : (EraftEntry.index last).toNat + 1 < 2 ^ 64)
    (hhigh : high.toNat ≤ (EraftEntry.index last).toNat + 1) (maxSize : Option UInt64)
    {n : Nat} (hlow : EraftEntry.index first ≤ low) (hle : low ≤ high)
    (hn : high.toNat - low.toNat < n) :
    ∃ pages, readPages m high maxSize n low = .ok pages ∧
      pages.flatten = (between m low high).takeWhile (fits maxSize) ∧
      ∀ page ∈ pages, page ≠ [] ∧ ∀ max, maxSize = some max → total size page ≤ max.toNat := by
  induction n generalizing low with
  | zero => omega
  | succ n ih =>
      have hread := entries_run hconsecutive htotal hfirst hlast hlow hle hhigh hbehind maxSize
      rw [readPages, hread]
      obtain ⟨rest, hrest⟩ := limitedTo_begins maxSize (between m low high)
      cases hpage : (limitedTo maxSize (between m low high)).getLast? with
      | none =>
          have hnil := List.getLast?_eq_none_iff.mp hpage
          refine ⟨[], ?_, (takeWhile_fits_eq_nil hnil).symm, by simp⟩
          simp only [bind, Except.bind, hpage, pure, Except.pure]
      | some e =>
          have hmem : e ∈ limitedTo maxSize (between m low high) := List.mem_of_getLast? hpage
          have hrange : e ∈ between m low high := hrest ▸ List.mem_append_left rest hmem
          rw [between, List.mem_filter, decide_eq_true_eq] at hrange
          obtain ⟨-, hfrom, hto⟩ := hrange
          have hsmall : (EraftEntry.index e).toNat + (1 : UInt64).toNat < 2 ^ 64 := by
            have hmax := high.toNat_lt
            rw [UInt64.toNat_one]
            omega
          have hnext : (EraftEntry.index e + 1).toNat = (EraftEntry.index e).toNat + 1 := by
            rw [UInt64.toNat_add, UInt64.toNat_one]
            exact Nat.mod_eq_of_lt hsmall
          have hnextLow : EraftEntry.index first ≤ EraftEntry.index e + 1 := by
            rw [UInt64.le_iff_toNat_le] at hlow ⊢
            omega
          have hnextHigh : EraftEntry.index e + 1 ≤ high := by
            rw [UInt64.le_iff_toNat_le]
            omega
          obtain ⟨pages, hpages, hflatten, hall⟩ := ih hnextLow hnextHigh (by omega)
          rw [between_behind hconsecutive hrest.symm hpage hnext] at hflatten
          refine ⟨limitedTo maxSize (between m low high) :: pages, ?_, ?_, ?_⟩
          · simp only [bind, Except.bind, hpage, checkedAdd_eq_ok hsmall, hpages, pure,
              Except.pure]
          · rw [List.flatten_cons, hflatten,
              ← List.takeWhile_append_of_pos fun e he => fits_of_mem_limitedTo he, hrest]
          · rw [List.forall_mem_cons]
            refine ⟨⟨List.ne_nil_of_mem hmem, ?_⟩, hall⟩
            rintro max rfl
            exact total_limitedTo_le max _

/-- For every log of consecutive entries and every limit, reads of a range in pages deliver
the entries in front of the first that is too large on its own, in order, in pages that are
not empty and within the limit; all of them arrive exactly if each one fits. -/
theorem readPages_deliver (m : MemStorage E) (hconsecutive : Consecutive m)
    (htotal : total size m.entries < 2 ^ 64) (hne : m.entries ≠ []) {first last : UInt64}
    (hfirst : firstIndex m = .ok first) (hlast : lastIndex m = .ok last)
    (hbehind : last.toNat + 1 < 2 ^ 64) (low high : UInt64) (hlow : first ≤ low)
    (hle : low ≤ high) (hhigh : high.toNat ≤ last.toNat + 1) (maxSize : Option UInt64)
    (n : Nat) (hn : high.toNat - low.toNat < n) :
    ∃ pages, readPages m high maxSize n low = .ok pages ∧
      pages.flatten = (between m low high).takeWhile (fits maxSize) ∧
      (∀ page ∈ pages, page ≠ [] ∧ ∀ max, maxSize = some max → total size page ≤ max.toNat) ∧
      (pages.flatten = between m low high ↔
        ∀ e ∈ between m low high, fits maxSize e = true) := by
  have hhead := List.head?_eq_some_head hne
  have hgetLast := List.getLast?_eq_some_getLast hne
  obtain rfl : EraftEntry.index (m.entries.head hne) = first := by
    simpa [firstIndex, hhead] using hfirst
  obtain rfl : EraftEntry.index (m.entries.getLast hne) = last := by
    simpa [lastIndex, hgetLast] using hlast
  obtain ⟨pages, hread, hflatten, hall⟩ := readPages_run hconsecutive htotal hhead hgetLast
    hbehind hhigh maxSize hlow hle hn
  refine ⟨pages, hread, hflatten, hall, ?_⟩
  rw [hflatten, List.takeWhile_eq_self_iff]

end Pages

end RaftStorage

namespace Witness

open RaftStorage

/-- Twenty bytes hold either entry, and both come in pages of their own. -/
theorem twoPlain_delivered : ∃ pages, readPages twoPlain 3 (some 20) 3 1 = .ok pages ∧
    pages.flatten = twoPlain.entries := by
  obtain ⟨pages, hread, -, -, hall⟩ := readPages_deliver twoPlain twoPlain_consecutive
    (by decide) (by decide) twoPlain_bounds.1 twoPlain_bounds.2 (by decide) 1 3 (by decide)
    (by decide) (by decide) (some 20) 3 (by decide)
  exact ⟨pages, hread, hall.mpr (by decide)⟩

end Witness

end Seshat
