/-
# Regular expressions with capture groups

The fragment of POSIX extended regular expressions that repeats single characters
only: a character of a class, a run of a class, concatenation, `?` and groups. A
text can often be cut up in several ways, and the standard says which one counts:
the longest match from the front, and in it each subexpression from the left takes
as much as the others leave it. Under this rule the spans of the groups are
determined by the expression and the text.

A `?` whose expression could match the empty text takes part, since the standard
counts an empty match as longer than none.
-/

import Mathlib.Data.List.Basic

namespace Foundation

universe u

/-- The spans of the groups that took part, as start and end. -/
abbrev Captures := ℕ → Option (ℕ × ℕ)

namespace Captures

/-- No group. -/
def empty : Captures := fun _ => none

/-- The groups of a part that begins at `k`. -/
def shift (k : ℕ) (c : Captures) : Captures :=
  fun n => (c n).map fun span => (k + span.1, k + span.2)

/-- The groups of two parts. -/
def union (c d : Captures) : Captures := fun n => (c n).or (d n)

/-- One group more, around the first `k` characters. -/
def around (n k : ℕ) (c : Captures) : Captures := fun m => if m = n then some (0, k) else c m

@[simp]
theorem empty_apply (n : ℕ) : empty n = none := rfl

@[simp]
theorem shift_apply (k : ℕ) (c : Captures) (n : ℕ) :
    c.shift k n = (c n).map fun span => (k + span.1, k + span.2) := rfl

@[simp]
theorem union_apply (c d : Captures) (n : ℕ) : c.union d n = (c n).or (d n) := rfl

@[simp]
theorem around_apply (n k : ℕ) (c : Captures) (m : ℕ) :
    c.around n k m = if m = n then some (0, k) else c m := rfl

end Captures

/-- Expressions over characters in `α`. -/
inductive Regex (α : Type u) where
  /-- A character of the class. -/
  | one (p : α → Bool)
  /-- Any number of characters of the class. -/
  | many (p : α → Bool)
  | seq (r t : Regex α)
  | opt (r : Regex α)
  /-- A parenthesised expression with its number. -/
  | group (n : ℕ) (r : Regex α)

namespace Regex

variable {α : Type u}

/-- The texts that an expression matches as a whole. -/
def Matches : Regex α → List α → Prop
  | one p, s => ∃ x, s = [x] ∧ p x = true
  | many p, s => ∀ x ∈ s, p x = true
  | seq r t, s => ∃ a b, s = a ++ b ∧ r.Matches a ∧ t.Matches b
  | opt r, s => s = [] ∨ r.Matches s
  | group _ r, s => r.Matches s

/-- An expression matches a text as a whole, cut up by the rule of the standard, and
these are the spans of its groups. -/
inductive Posix : Regex α → List α → Captures → Prop
  | one {p : α → Bool} {x : α} (h : p x = true) : Posix (one p) [x] .empty
  | many {p : α → Bool} {s : List α} (h : ∀ x ∈ s, p x = true) : Posix (many p) s .empty
  /-- The left part takes as much as the right one can spare. -/
  | seq {r t : Regex α} {a b : List α} {c d : Captures} (hr : Posix r a c) (ht : Posix t b d)
      (hlongest : ∀ a' b', a' ++ b' = a ++ b → r.Matches a' → t.Matches b' →
        a'.length ≤ a.length) :
      Posix (seq r t) (a ++ b) (c.union (d.shift a.length))
  | present {r : Regex α} {s : List α} {c : Captures} (h : Posix r s c) : Posix (opt r) s c
  | absent {r : Regex α} (h : ¬ r.Matches []) : Posix (opt r) [] .empty
  | group {n : ℕ} {r : Regex α} {s : List α} {c : Captures} (h : Posix r s c) :
      Posix (group n r) s (c.around n s.length)

variable {r t : Regex α} {s : List α} {c d : Captures}

theorem Posix.matches (h : Posix r s c) : r.Matches s := by
  induction h with
  | one h => exact ⟨_, rfl, h⟩
  | many h => exact h
  | seq _ _ _ ihr iht => exact ⟨_, _, rfl, ihr, iht⟩
  | present _ ih => exact .inr ih
  | absent _ => exact .inl rfl
  | group _ ih => exact ih

/-- **The rule leaves no choice**: the spans are determined. -/
theorem Posix.unique (h : Posix r s c) (h' : Posix r s d) : c = d := by
  induction h generalizing d with
  | one _ =>
      cases h'
      rfl
  | many _ =>
      cases h'
      rfl
  | @seq r t a b c₁ c₂ hr ht hlongest ihr iht =>
      generalize hs : a ++ b = s at h'
      cases h' with
      | @seq _ _ a' b' _ _ hr' ht' hlongest' =>
          -- each of the two cuts is at least as long as the other
          have hle := hlongest a' b' hs.symm hr'.matches ht'.matches
          have hge := hlongest' a b hs hr.matches ht.matches
          obtain ⟨rfl, rfl⟩ := List.append_inj hs (Nat.le_antisymm hge hle)
          rw [ihr hr', iht ht']
  | present h ih =>
      cases h' with
      | present h' => exact ih h'
      | absent hnone => exact absurd h.matches hnone
  | absent hnone =>
      cases h' with
      | present h' => exact absurd h'.matches hnone
      | absent _ => rfl
  | group _ ih =>
      cases h' with
      | group h' => rw [ih h']

/-- A first character of a class leaves no choice. -/
theorem Posix.cons {p : α → Bool} {x : α} (hx : p x = true) (h : Posix t s d) :
    Posix (.seq (.one p) t) (x :: s) (d.shift 1) := by
  have hseq : Posix (.seq (.one p) t) ([x] ++ s) (Captures.empty.union (d.shift 1)) := by
    refine .seq (.one hx) h fun a' b' _ hone _ => ?_
    obtain ⟨y, rfl, -⟩ := hone
    exact Nat.le_refl _
  exact hseq

/-- A last character of a class neither. -/
theorem Posix.concat {p : α → Bool} {x : α} (h : Posix r s c) (hx : p x = true) :
    Posix (.seq r (.one p)) (s ++ [x]) (c.union (Captures.empty.shift s.length)) := by
  refine .seq h (.one hx) fun a' b' heq _ hone => ?_
  obtain ⟨y, rfl, -⟩ := hone
  have hlength := congrArg List.length heq
  simp only [List.length_append, List.length_singleton] at hlength
  omega

/-- A run that ends before a character of another class takes no less than any other
run from the same place. -/
theorem length_le_of_run {p : α → Bool} {a a' b b' : List α} (heq : a' ++ b' = a ++ b)
    (hrun : ∀ x ∈ a', p x = true) (hstop : ∀ x, b.head? = some x → p x = false) :
    a'.length ≤ a.length := by
  by_contra hlong
  obtain ⟨rest, rfl⟩ : a <+: a' :=
    List.prefix_of_prefix_length_le ⟨b, rfl⟩ ⟨b', heq⟩ (by omega)
  rw [List.append_assoc] at heq
  have hb := List.append_cancel_left heq
  cases rest with
  | nil => simp at hlong
  | cons x rest =>
      rw [List.cons_append] at hb
      have hstop' := hstop x (by rw [← hb]; rfl)
      rw [hrun x (by simp)] at hstop'
      cases hstop'

/-! ## Searching from the front -/

/-- The longest match from the front of a text. -/
def Finds (r : Regex α) (s : List α) (c : Captures) : Prop :=
  ∃ a b, s = a ++ b ∧ Posix r a c ∧
    ∀ a' b', s = a' ++ b' → r.Matches a' → a'.length ≤ a.length

theorem Posix.finds (h : Posix r s c) : r.Finds s c := by
  refine ⟨s, [], by simp, h, fun a' b' heq _ => ?_⟩
  rw [heq, List.length_append]
  exact Nat.le_add_right _ _

theorem Finds.unique (h : r.Finds s c) (h' : r.Finds s d) : c = d := by
  obtain ⟨a, b, rfl, hposix, hlongest⟩ := h
  obtain ⟨a', b', heq, hposix', hlongest'⟩ := h'
  have hle := hlongest a' b' heq hposix'.matches
  have hge := hlongest' a b rfl hposix.matches
  obtain ⟨rfl, rfl⟩ := List.append_inj heq (Nat.le_antisymm hge hle)
  exact hposix.unique hposix'

/-- A search function for the expression at the front of a text, which reports the
groups below `nmatch`. -/
structure SearchedBy (r : Regex α) (nmatch : ℕ) (search : List α → Option Captures) : Prop where
  /-- What it reports is the longest match. -/
  found : ∀ s spans, search s = some spans → ∃ c, r.Finds s c ∧ ∀ n < nmatch, spans n = c n
  /-- It reports a match if there is one. -/
  missed : ∀ s, search s = none → ∀ a b, s = a ++ b → ¬ r.Matches a

theorem SearchedBy.spans {nmatch : ℕ} {search : List α → Option Captures}
    (h : r.SearchedBy nmatch search) (hfinds : r.Finds s c) :
    ∃ spans, search s = some spans ∧ ∀ n < nmatch, spans n = c n := by
  cases hsearch : search s with
  | none =>
      obtain ⟨a, b, heq, hposix, -⟩ := hfinds
      exact absurd hposix.matches (h.missed s hsearch a b heq)
  | some spans =>
      obtain ⟨d, hd, hspans⟩ := h.found s spans hsearch
      rw [hfinds.unique hd]
      exact ⟨spans, rfl, hspans⟩

end Regex

end Foundation
