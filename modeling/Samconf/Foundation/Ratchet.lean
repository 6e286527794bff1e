/-
# Systems with a flag that only goes up

States and inputs carry a flag. An input without it does not move a state that
has it, and in every other case the flag of the next state is the disjunction of
the two. So a flagged input shields the state it leads to from all unflagged
inputs behind it: two input lists that differ only in such inputs cannot be told
apart by the state they end in.
-/

import Mathlib.Data.List.Basic
import Mathlib.Data.List.TakeDrop

namespace Foundation

universe u v

/-- A step function with its two flags. -/
structure Ratchet (σ : Type u) (ι : Type v) where
  step : σ → ι → σ
  /-- The flag of a state. -/
  high : σ → Bool
  /-- The flag of an input. -/
  marked : ι → Bool
  step_of_high : ∀ s x, high s = true → marked x = false → step s x = s
  high_step : ∀ s x, high (step s x) = (high s || marked x)

namespace Ratchet

variable {σ : Type u} {ι : Type v} (R : Ratchet σ ι)

/-- The state after a list of inputs. -/
def run (s : σ) (xs : List ι) : σ := xs.foldl R.step s

/-- The input at an index comes after the flag was raised. -/
def Shielded (s : σ) (xs : List ι) (i : ℕ) : Prop :=
  R.high s = true ∨ ∃ j x, j < i ∧ xs[j]? = some x ∧ R.marked x = true

/-- The lists have the same length, and where they differ both inputs are
unflagged and come after the flag was raised. -/
def AgreeUnlessShielded (s : σ) (xs ys : List ι) : Prop :=
  xs.length = ys.length ∧ ∀ i x y, xs[i]? = some x → ys[i]? = some y →
    x = y ∨ R.marked x = false ∧ R.marked y = false ∧ R.Shielded s xs i

variable {R} {s : σ}

@[simp]
theorem run_nil : R.run s [] = s := rfl

@[simp]
theorem run_cons (x : ι) (xs : List ι) : R.run s (x :: xs) = R.run (R.step s x) xs := rfl

/-- The flag of the last state. -/
theorem high_run (xs : List ι) : R.high (R.run s xs) = (R.high s || xs.any R.marked) := by
  induction xs generalizing s with
  | nil => simp
  | cons x xs ih => rw [run_cons, ih, R.high_step, List.any_cons, Bool.or_assoc]

/-- What is shielded behind the first input is shielded in the whole list. -/
theorem shielded_tail {x : ι} {xs : List ι} {i : ℕ} (h : R.Shielded s (x :: xs) (i + 1)) :
    R.Shielded (R.step s x) xs i := by
  rcases h with hs | ⟨j, y, hj, hy, hmarked⟩
  · left
    rw [R.high_step, hs, Bool.true_or]
  · cases j with
    | zero =>
        left
        obtain rfl : x = y := by simpa using hy
        rw [R.high_step, hmarked, Bool.or_true]
    | succ j => exact .inr ⟨j, y, Nat.lt_of_succ_lt_succ hj, by simpa using hy, hmarked⟩

/-- At a shielded index the state is flagged. -/
theorem high_take_of_shielded {xs : List ι} {i : ℕ} (h : R.Shielded s xs i) :
    R.high (R.run s (xs.take i)) = true := by
  rw [high_run, Bool.or_eq_true]
  refine h.imp_right ?_
  rintro ⟨j, x, hj, hx, hmarked⟩
  refine List.any_eq_true.mpr ⟨x, ?_, hmarked⟩
  apply List.mem_of_getElem? (i := j)
  rw [List.getElem?_take_of_lt hj, hx]

/-- The flag never goes back. -/
theorem high_take_mono {xs : List ι} {i j : ℕ} (hij : i ≤ j)
    (h : R.high (R.run s (xs.take i)) = true) : R.high (R.run s (xs.take j)) = true := by
  rw [high_run, Bool.or_eq_true] at h ⊢
  refine h.imp_right fun hany => ?_
  rcases List.any_eq_true.mp hany with ⟨x, hx, hmarked⟩
  refine List.any_eq_true.mpr ⟨x, ?_, hmarked⟩
  exact (List.take_sublist_take_left hij).mem hx

/-- **Shielding.** Lists that agree up to shielded unflagged inputs lead to the
same state. -/
theorem run_eq_of_agree {xs ys : List ι} (h : R.AgreeUnlessShielded s xs ys) :
    R.run s xs = R.run s ys := by
  induction xs generalizing s ys with
  | nil =>
      obtain rfl : ys = [] := List.length_eq_zero_iff.mp h.1.symm
      rfl
  | cons x xs ih =>
      cases ys with
      | nil => cases h.1
      | cons y ys =>
          have hhead : R.step s x = R.step s y := by
            rcases h.2 0 x y rfl rfl with rfl | ⟨hx, hy, hshielded⟩
            · rfl
            · have hhigh : R.high s = true := by simpa using high_take_of_shielded hshielded
              rw [R.step_of_high s x hhigh hx, R.step_of_high s y hhigh hy]
          rw [run_cons, run_cons, ← hhead]
          refine ih ⟨by simpa using h.1, fun i x' y' hx' hy' => ?_⟩
          refine (h.2 (i + 1) x' y' hx' hy').imp_right ?_
          rintro ⟨hx, hy, hshielded⟩
          exact ⟨hx, hy, shielded_tail hshielded⟩

end Ratchet

end Foundation
