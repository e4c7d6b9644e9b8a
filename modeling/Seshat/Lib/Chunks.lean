/-
A sequence cut into chunks, and the chunks that cover its first elements.  The
last covering chunk is cut where those elements end; what is left of it starts
the remaining sequence.
-/
import Mathlib.Tactic.Common

namespace Chunks

variable {α : Type*}

/-- The pieces of the chunks that hold the first `n` elements. -/
def take : Nat → List (List α) → List (List α)
  | _, [] => []
  | n, chunk :: chunks =>
      if n ≤ chunk.length then [chunk.take n]
      else chunk :: take (n - chunk.length) chunks

/-- The chunks behind the first `n` elements, beginning with the rest of the
chunk that holds the last of them. -/
def drop : Nat → List (List α) → List (List α)
  | _, [] => []
  | n, chunk :: chunks =>
      if n ≤ chunk.length then chunk.drop n :: chunks
      else drop (n - chunk.length) chunks

theorem drop_add (m n : Nat) (chunks : List (List α)) :
    drop (m + n) chunks = drop n (drop m chunks) := by
  induction chunks generalizing m with
  | nil => simp [drop]
  | cons chunk chunks ih =>
      simp only [drop]
      by_cases hm : m ≤ chunk.length
      · simp only [hm, ↓reduceIte, drop, List.length_drop, List.drop_drop]
        by_cases hn : m + n ≤ chunk.length
        · rw [if_pos hn, if_pos (by omega)]
        · rw [if_neg hn, if_neg (by omega)]
          congr 1
          omega
      · rw [if_neg hm, if_neg (by omega), ← ih]
        congr 1
        omega

/-- The chunks that cover a non-empty beginning: whole ones and then a non-empty
piece of the next. -/
theorem cover {whole rest : List α} (hwhole : whole ≠ []) {chunks : List (List α)}
    (heq : chunks.flatten = whole ++ rest) :
    ∃ pre last left behind, chunks = pre ++ (last ++ left) :: behind ∧
      pre.flatten ++ last = whole ∧ last ≠ [] ∧ take whole.length chunks = pre ++ [last] ∧
      drop whole.length chunks = left :: behind ∧ (left :: behind).flatten = rest := by
  induction chunks generalizing whole with
  | nil =>
      simp only [List.flatten_nil] at heq
      exact absurd (List.append_eq_nil_iff.mp heq.symm).1 hwhole
  | cons chunk chunks ih =>
      rw [List.flatten_cons] at heq
      rcases List.append_eq_append_iff.mp heq with ⟨next, rfl, hnext⟩ | ⟨left, rfl, hrest⟩
      · cases next with
        | nil =>
            -- the chunk ends exactly where the beginning does
            rw [List.append_nil] at hwhole ⊢
            refine ⟨[], chunk, [], chunks, by simp, by simp, hwhole, ?_, ?_, by simpa using hnext⟩
            · simp [take]
            · simp [drop]
        | cons a next =>
            obtain ⟨pre, last, left, behind, rfl, hpre, hlast, htake, hdrop, hflat⟩ :=
              ih (List.cons_ne_nil a next) hnext
            refine ⟨chunk :: pre, last, left, behind, rfl, ?_, hlast, ?_, ?_, hflat⟩
            · rw [List.flatten_cons, List.append_assoc, hpre]
            · rw [take, if_neg (by simp), List.length_append, Nat.add_sub_cancel_left, htake]
              rfl
            · rw [drop, if_neg (by simp), List.length_append, Nat.add_sub_cancel_left, hdrop]
      · refine ⟨[], whole, left, chunks, rfl, rfl, hwhole, ?_, ?_, hrest.symm⟩
        · simp [take]
        · simp [drop]

end Chunks
