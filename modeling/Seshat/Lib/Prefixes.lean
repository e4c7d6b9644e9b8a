/-
Two ways to cut a list.  When its elements are numbered without a gap, selecting
numbers is taking and dropping; and an element is kept as long as the weights up to
it stay within a limit, which keeps the longest beginning that does.
-/
import Mathlib

namespace Prefixes

variable {α : Type*}

/-- The numbers run upwards from a start without a gap. -/
def Numbered (number : α → Nat) : Nat → List α → Prop
  | _, [] => True
  | start, a :: l => number a = start ∧ Numbered number (start + 1) l

theorem numbered_of_isChain {number : α → Nat} {a : α} {l : List α}
    (h : (a :: l).IsChain fun a b => number a + 1 = number b) :
    Numbered number (number a) (a :: l) := by
  induction l generalizing a with
  | nil => exact ⟨rfl, trivial⟩
  | cons b l ih =>
      obtain ⟨hab, hl⟩ := List.isChain_cons_cons.mp h
      rw [Numbered, hab]
      exact ⟨rfl, ih hl⟩

theorem Numbered.filter_lt {number : α → Nat} {start : Nat} {l : List α}
    (h : Numbered number start l) (stop : Nat) :
    l.filter (fun a => number a < stop) = l.take (stop - start) := by
  induction l generalizing start with
  | nil => simp
  | cons a l ih =>
      obtain ⟨ha, hl⟩ := h
      have hrest := ih hl
      by_cases hlt : start < stop
      · have hsub : stop - start = stop - (start + 1) + 1 := by omega
        rw [List.filter_cons_of_pos (by simpa [ha] using hlt), hrest, hsub, List.take_succ_cons]
      · have hsub : stop - (start + 1) = 0 := by omega
        have hzero : stop - start = 0 := by omega
        rw [List.filter_cons_of_neg (by simpa [ha] using hlt), hrest, hsub, hzero]
        simp

theorem Numbered.filter_le {number : α → Nat} {start : Nat} {l : List α}
    (h : Numbered number start l) (first : Nat) :
    l.filter (fun a => first ≤ number a) = l.drop (first - start) := by
  induction l generalizing start with
  | nil => simp
  | cons a l ih =>
      obtain ⟨ha, hl⟩ := h
      have hrest := ih hl
      by_cases hle : first ≤ start
      · have hsub : first - (start + 1) = 0 := by omega
        have hzero : first - start = 0 := by omega
        rw [List.filter_cons_of_pos (by simpa [ha] using hle), hrest, hsub, hzero]
        simp
      · have hsub : first - start = first - (start + 1) + 1 := by omega
        rw [List.filter_cons_of_neg (by simpa [ha] using hle), hrest, hsub, List.drop_succ_cons]

theorem Numbered.take {number : α → Nat} {start : Nat} {l : List α}
    (h : Numbered number start l) (n : Nat) : Numbered number start (l.take n) := by
  induction l generalizing start n with
  | nil => simp [Numbered]
  | cons a l ih =>
      cases n with
      | zero => trivial
      | succ n => exact ⟨h.1, ih h.2 n⟩

/-- The elements of an interval of numbers are a slice. -/
theorem Numbered.filter_interval {number : α → Nat} {start : Nat} {l : List α}
    (h : Numbered number start l) (first stop : Nat) :
    l.filter (fun a => first ≤ number a ∧ number a < stop) =
      (l.take (stop - start)).drop (first - start) := by
  rw [← h.filter_lt stop, ← Numbered.filter_le (h.filter_lt stop ▸ h.take _) first,
    List.filter_filter]
  simp

theorem Numbered.getLast {number : α → Nat} {start : Nat} {l : List α}
    (h : Numbered number start l) {a : α} (ha : l.getLast? = some a) :
    number a + 1 = start + l.length := by
  induction l generalizing start with
  | nil => simp at ha
  | cons b l ih =>
      cases l with
      | nil =>
          obtain rfl : b = a := by simpa using ha
          rw [h.1]
          rfl
      | cons c l =>
          rw [List.getLast?_cons_cons] at ha
          rw [ih h.2 ha, List.length_cons, List.length_cons, List.length_cons]
          omega

/-- The weight of a list. -/
def total (weight : α → Nat) (l : List α) : Nat :=
  (l.map weight).sum

@[simp]
theorem total_nil (weight : α → Nat) : total weight [] = 0 := rfl

@[simp]
theorem total_cons (weight : α → Nat) (a : α) (l : List α) :
    total weight (a :: l) = weight a + total weight l := by
  simp [total]

theorem total_le_of_sublist {weight : α → Nat} {l l' : List α} (h : l'.Sublist l) :
    total weight l' ≤ total weight l := by
  induction h with
  | slnil => exact le_rfl
  | cons a _ ih =>
      rw [total_cons]
      omega
  | cons_cons a _ ih =>
      rw [total_cons, total_cons]
      omega

/-- The elements up to which the weights, added to those used already, stay within the
limit. -/
def retain (weight : α → Nat) (limit : Nat) : Nat → List α → List α
  | _, [] => []
  | used, a :: l =>
      let used := used + weight a
      if used ≤ limit then a :: retain weight limit used l else retain weight limit used l

section

variable {weight : α → Nat} {limit : Nat}

theorem retain_eq_nil {used : Nat} (hused : limit < used) (l : List α) :
    retain weight limit used l = [] := by
  induction l generalizing used with
  | nil => rfl
  | cons a l ih =>
      have hmore : limit < used + weight a := by omega
      rw [retain, if_neg (by omega), ih hmore]

theorem retain_begins (used : Nat) (l : List α) : retain weight limit used l <+: l := by
  induction l generalizing used with
  | nil => exact List.prefix_refl _
  | cons a l ih =>
      rw [retain]
      split
      · exact (List.prefix_cons_inj a).mpr (ih _)
      · rename_i hused
        rw [retain_eq_nil (Nat.lt_of_not_le hused)]
        exact List.nil_prefix

theorem total_retain_le {used : Nat} (hused : used ≤ limit) (l : List α) :
    used + total weight (retain weight limit used l) ≤ limit := by
  induction l generalizing used with
  | nil => simpa [retain] using hused
  | cons a l ih =>
      rw [retain]
      split
      · rename_i hfits
        have := ih hfits
        rw [total_cons]
        omega
      · rename_i hfits
        rw [retain_eq_nil (Nat.lt_of_not_le hfits)]
        simpa using hused

/-- No longer beginning stays within the limit. -/
theorem prefix_retain {used : Nat} {l l' : List α} (h : l' <+: l)
    (hfits : used + total weight l' ≤ limit) : l' <+: retain weight limit used l := by
  induction l generalizing used l' with
  | nil =>
      rw [List.prefix_nil.mp h]
      exact List.nil_prefix
  | cons a l ih =>
      cases l' with
      | nil => exact List.nil_prefix
      | cons b l' =>
          obtain ⟨rfl, hl⟩ := List.cons_prefix_cons.mp h
          rw [total_cons] at hfits
          rw [retain, if_pos (by omega), List.prefix_cons_inj]
          exact ih hl (by omega)

end

end Prefixes
