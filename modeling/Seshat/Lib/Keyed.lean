/-
Lists in strictly increasing key order.  Such a list is determined by its
members, and cutting it at a key is filtering it.
-/
import Mathlib.Data.List.Forall2
import Mathlib.Data.List.Sort

namespace Keyed

variable {α κ : Type*} [LinearOrder κ]

/-- The keys increase along the list. -/
def Increasing (key : α → κ) (l : List α) : Prop :=
  l.Pairwise fun a b => key a < key b

theorem Increasing.eq_of_mem_iff {key : α → κ} {l₁ l₂ : List α}
    (h₁ : Increasing key l₁) (h₂ : Increasing key l₂) (hmem : ∀ a, a ∈ l₁ ↔ a ∈ l₂) :
    l₁ = l₂ := by
  have hantisymm : Std.Antisymm fun a b : α => key a < key b :=
    ⟨fun a b hab hba => absurd hab (lt_asymm hba)⟩
  have hirrefl : Std.Irrefl fun a b : α => key a < key b := ⟨fun a => lt_irrefl (key a)⟩
  exact List.Pairwise.eq_of_mem_iff h₁ h₂ hmem

theorem Increasing.filter {key : α → κ} {l : List α} (h : Increasing key l)
    (p : α → Bool) : Increasing key (l.filter p) :=
  List.Pairwise.filter p h

/-- When a predicate, once it fails, fails for the rest, taking while it holds
keeps exactly the elements it holds of. -/
theorem takeWhile_eq_filter {p : α → Bool} {l : List α}
    (h : l.Pairwise fun a b => p b = true → p a = true) :
    l.takeWhile p = l.filter p := by
  induction l with
  | nil => rfl
  | cons a l ih =>
      obtain ⟨hhead, htail⟩ := List.pairwise_cons.mp h
      cases hp : p a with
      | true => simp only [List.takeWhile_cons, List.filter_cons, hp, ↓reduceIte, ih htail]
      | false =>
          have hnone : l.filter p = [] := by
            rw [List.filter_eq_nil_iff]
            intro b hb hpb
            rw [hhead b hb hpb] at hp
            contradiction
          simp [hp, hnone]

/-- Dropping while a predicate holds, when it fails for the rest once it fails. -/
theorem dropWhile_eq_filter {p : α → Bool} {l : List α}
    (h : l.Pairwise fun a b => p b = true → p a = true) :
    l.dropWhile p = l.filter fun a => !p a := by
  induction l with
  | nil => rfl
  | cons a l ih =>
      obtain ⟨hhead, htail⟩ := List.pairwise_cons.mp h
      cases hp : p a with
      | true => simp only [List.dropWhile_cons, List.filter_cons, hp, ↓reduceIte, ih htail,
          Bool.not_true, Bool.false_eq_true]
      | false =>
          have hall : l.filter (fun a => !p a) = l := by
            rw [List.filter_eq_self]
            intro b hb
            cases hpb : p b with
            | true =>
                rw [hhead b hb hpb] at hp
                contradiction
            | false => rfl
          simp [hp, hall]

/-- What related lists have in common elementwise they have as lists. -/
theorem map_eq_of_forall₂ {α β γ : Type*} {R : α → β → Prop} {f : α → γ} {f' : β → γ}
    (hR : ∀ a b, R a b → f a = f' b) {l : List α} {l' : List β}
    (h : List.Forall₂ R l l') : l.map f = l'.map f' := by
  rw [← List.forall₂_eq_eq_eq, List.forall₂_map_left_iff, List.forall₂_map_right_iff]
  exact h.imp hR

end Keyed
