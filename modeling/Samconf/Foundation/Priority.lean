/-
# Folding by rank

A fold that keeps what it has until something of higher rank comes ends with the
first of the highest ranked values. A value that has its rank for itself is
therefore the result exactly when it occurs and nothing outranks it, wherever it
stood.
-/

import Mathlib.Data.List.MinMax

namespace Foundation

universe u

variable {α : Type u} (rank : α → ℕ)

/-- The one of higher rank, the first when they are equal. -/
def higher (a b : α) : α := if rank a < rank b then b else a

variable {rank}

theorem rank_le_higher (a b : α) : rank a ≤ rank (higher rank a b) := by
  rw [higher]
  split
  · exact Nat.le_of_lt ‹_›
  · exact Nat.le_refl _

/-- The fold finds what `List.argmax` finds. -/
theorem argmax_cons_eq (a : α) (l : List α) :
    (a :: l).argmax rank = some (l.foldl (higher rank) a) := by
  rw [List.argmax, List.foldl_cons]
  change l.foldl (List.argAux fun b c => rank c < rank b) (some a) = _
  induction l generalizing a with
  | nil => rfl
  | cons b l ih =>
      rw [List.foldl_cons, List.foldl_cons, ← ih]
      congr 1
      simp only [List.argAux, higher]
      split <;> rfl

/-- **The result of the fold** is a value that occurs and that nothing outranks. -/
theorem foldl_higher_mem (a : α) (l : List α) : l.foldl (higher rank) a ∈ a :: l :=
  List.argmax_mem (argmax_cons_eq a l)

theorem rank_le_foldl_higher (a : α) (l : List α) {b : α} (hb : b ∈ a :: l) :
    rank b ≤ rank (l.foldl (higher rank) a) :=
  List.le_of_mem_argmax hb (argmax_cons_eq a l)

/-- A start that nothing outranks stays. -/
theorem foldl_higher_of_le {a : α} {l : List α} (h : ∀ b ∈ l, rank b ≤ rank a) :
    l.foldl (higher rank) a = a := by
  induction l with
  | nil => rfl
  | cons b l ih =>
      have hkept : higher rank a b = a := if_neg (not_lt.mpr (h b List.mem_cons_self))
      rw [List.foldl_cons, hkept]
      exact ih fun c hc => h c (List.mem_cons_of_mem b hc)

/-- A value that has its rank for itself is the result exactly when it occurs and
nothing outranks it. -/
theorem foldl_higher_eq_iff {a x : α} {l : List α} (hx : ∀ y, rank y = rank x → y = x) :
    l.foldl (higher rank) a = x ↔ x ∈ a :: l ∧ ∀ y ∈ a :: l, rank y ≤ rank x := by
  constructor
  · rintro rfl
    exact ⟨foldl_higher_mem a l, fun y hy => rank_le_foldl_higher a l hy⟩
  · rintro ⟨hmem, hmax⟩
    exact hx _ (le_antisymm (hmax _ (foldl_higher_mem a l)) (rank_le_foldl_higher a l hmem))

end Foundation
