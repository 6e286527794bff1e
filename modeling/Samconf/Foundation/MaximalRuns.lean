/-
# Maximal runs by their positions

A run of a list is maximal when it holds no separator and neither of its ends can be moved
outwards: it begins at the front or behind a separator, and it ends at the back or before
one. `runs` lists the maximal runs from the front to the back as pairs of positions, and
what they hold are the segments.
-/

import Samconf.Foundation.Segments
import Mathlib.Data.Nat.Notation

namespace Foundation

universe u

variable {α : Type u}

/-- The positions from `i` on and before `j` are a maximal non-empty run. -/
structure IsMaximalRun (sep : α) (s : List α) (i j : ℕ) : Prop where
  nonempty : i < j
  inside : j ≤ s.length
  free : ∀ k, i ≤ k → k < j → s[k]? ≠ some sep
  /-- It cannot begin earlier. -/
  left : i = 0 ∨ s[i - 1]? = some sep
  /-- It cannot end later. -/
  right : j = s.length ∨ s[j]? = some sep

/-- What a list holds from position `i` on and before position `j`. -/
def slice (s : List α) (i j : ℕ) : List α := (s.take j).drop i

/-- The maximal runs, as pairs of positions from the front to the back. -/
def runs [DecidableEq α] (sep : α) : List α → List (ℕ × ℕ)
  | [] => []
  | x :: s =>
      let behind := (runs sep s).map fun r => (r.1 + 1, r.2 + 1)
      if x = sep then behind
      else
        match runs sep s with
        | (0, j) :: _ => (0, j + 1) :: behind.tail
        | _ => (0, 1) :: behind

variable {sep x : α} {s : List α} {i j : ℕ}

@[simp]
theorem slice_cons_succ (x : α) (s : List α) (i j : ℕ) :
    slice (x :: s) (i + 1) (j + 1) = slice s i j := rfl

@[simp]
theorem slice_cons_zero (x : α) (s : List α) (j : ℕ) :
    slice (x :: s) 0 (j + 1) = x :: slice s 0 j := rfl

namespace IsMaximalRun

/-- Behind the front a run is a run of the rest, unless it would begin there. -/
theorem cons_succ_iff (x : α) (s : List α) :
    IsMaximalRun sep (x :: s) (i + 1) (j + 1) ↔
      IsMaximalRun sep s i j ∧ (i = 0 → x = sep) := by
  constructor
  · intro h
    refine ⟨⟨by simpa using h.nonempty, by simpa using h.inside, fun k hik hkj => ?_, ?_, ?_⟩, ?_⟩
    · simpa using h.free (k + 1) (by omega) (by omega)
    · rcases i with _ | i
      · exact .inl rfl
      · exact .inr (by simpa using h.left)
    · simpa using h.right
    · rintro rfl
      simpa using h.left
  · rintro ⟨h, hx⟩
    refine ⟨by simpa using h.nonempty, by simpa using h.inside, fun k hik hkj => ?_, ?_, ?_⟩
    · obtain ⟨k, rfl⟩ := Nat.exists_eq_succ_of_ne_zero (by omega : k ≠ 0)
      simpa using h.free k (by omega) (by omega)
    · right
      rcases i with _ | i
      · simpa using hx rfl
      · simpa using h.left
    · simpa using h.right

/-- At the front a run goes on with the run that the rest begins with, or ends. -/
theorem cons_zero_iff (hx : x ≠ sep) :
    IsMaximalRun sep (x :: s) 0 (j + 1) ↔
      IsMaximalRun sep s 0 j ∨ j = 0 ∧ (s = [] ∨ s[0]? = some sep) := by
  constructor
  · intro h
    rcases j with _ | j
    · right
      refine ⟨rfl, ?_⟩
      simpa using h.right
    · left
      refine ⟨by omega, by simpa using h.inside, fun k _ hkj => ?_, .inl rfl, ?_⟩
      · simpa using h.free (k + 1) (by omega) (by omega)
      · simpa using h.right
  · rintro (h | ⟨rfl, hs⟩)
    · refine ⟨by omega, by simpa using h.inside, fun k _ hkj => ?_, .inl rfl, ?_⟩
      · rcases k with _ | k
        · simpa using hx
        · simpa using h.free k (by omega) (by omega)
      · simpa using h.right
    · refine ⟨by omega, by simp, fun k _ hkj => ?_, .inl rfl, ?_⟩
      · obtain rfl : k = 0 := by omega
        simpa using hx
      · simpa using hs

theorem ne_sep_of_zero (h : IsMaximalRun sep (x :: s) 0 j) : x ≠ sep := by
  simpa using h.free 0 (Nat.zero_le 0) h.nonempty

end IsMaximalRun

/-! ## The list of runs -/

variable [DecidableEq α]

/-- One position further back. -/
def shift (r : ℕ × ℕ) : ℕ × ℕ := (r.1 + 1, r.2 + 1)

@[simp]
theorem runs_nil : runs sep ([] : List α) = [] := rfl

@[simp]
theorem runs_cons_sep (s : List α) : runs sep (sep :: s) = (runs sep s).map shift :=
  if_pos rfl

/-- The first run grows at its front. -/
theorem runs_cons_grow (hx : x ≠ sep) {rs : List (ℕ × ℕ)} (h : runs sep s = (0, j) :: rs) :
    runs sep (x :: s) = (0, j + 1) :: rs.map shift := by
  rw [runs, if_neg hx, h]
  rfl

/-- A new run begins in front of a separator or the end. -/
theorem runs_cons_new (hx : x ≠ sep) (h : ∀ r ∈ (runs sep s).head?, r.1 ≠ 0) :
    runs sep (x :: s) = (0, 1) :: (runs sep s).map shift := by
  rw [runs, if_neg hx]
  rcases hruns : runs sep s with _ | ⟨⟨_ | i, j⟩, rs⟩
  · rfl
  · exact absurd rfl (h (0, j) (by rw [hruns]; rfl))
  · rfl

/-- The first run begins at the front, or it does not. -/
theorem runs_head_cases (sep : α) (s : List α) :
    (∃ j rs, runs sep s = (0, j) :: rs) ∨ ∀ r ∈ (runs sep s).head?, r.1 ≠ 0 := by
  rcases hruns : runs sep s with _ | ⟨⟨_ | i, j⟩, rs⟩
  · exact .inr (by simp)
  · exact .inl ⟨j, rs, rfl⟩
  · exact .inr (by simp)

/-- What begins with no separator begins with a run. -/
theorem head?_runs_cons (hx : x ≠ sep) (s : List α) :
    ∃ j, (runs sep (x :: s)).head? = some (0, j) := by
  rcases runs_head_cases sep s with ⟨j, rs, h⟩ | h
  · exact ⟨j + 1, by rw [runs_cons_grow hx h]; rfl⟩
  · exact ⟨1, by rw [runs_cons_new hx h]; rfl⟩

/-- The runs come in order, with a separator between one and the next. -/
def Ordered (rs : List (ℕ × ℕ)) : Prop := rs.Pairwise fun r r' => r.2 < r'.1

namespace Ordered

variable {rs : List (ℕ × ℕ)}

theorem shift (h : Ordered rs) : Ordered (rs.map shift) :=
  List.pairwise_map.mpr (h.imp Nat.succ_lt_succ)

/-- Only the first run can begin at the front. -/
theorem pos_of_head (h : Ordered rs) (hhead : ∀ r ∈ rs.head?, r.1 ≠ 0) : ∀ r ∈ rs, 0 < r.1 := by
  cases rs with
  | nil => simp
  | cons r rs =>
      intro r' hr'
      rcases List.mem_cons.mp hr' with rfl | hr'
      · exact Nat.pos_of_ne_zero (hhead r' rfl)
      · exact Nat.zero_lt_of_lt ((List.pairwise_cons.mp h).1 r' hr')

end Ordered

theorem ordered_runs (sep : α) (s : List α) : Ordered (runs sep s) := by
  induction s with
  | nil => exact List.Pairwise.nil
  | cons x s ih =>
      by_cases hx : x = sep
      · subst hx
        rw [runs_cons_sep]
        exact ih.shift
      rcases runs_head_cases sep s with ⟨j, rs, h⟩ | h
      · rw [h] at ih
        obtain ⟨hfirst, hrest⟩ := List.pairwise_cons.mp ih
        rw [runs_cons_grow hx h]
        refine List.pairwise_cons.mpr ⟨?_, Ordered.shift hrest⟩
        intro r hr
        obtain ⟨r', hr', rfl⟩ := List.mem_map.mp hr
        exact Nat.succ_lt_succ (hfirst r' hr')
      · rw [runs_cons_new hx h]
        refine List.pairwise_cons.mpr ⟨?_, ih.shift⟩
        intro r hr
        obtain ⟨r', hr', rfl⟩ := List.mem_map.mp hr
        exact Nat.succ_lt_succ (ih.pos_of_head h r' hr')

theorem mem_map_shift_iff {rs : List (ℕ × ℕ)} :
    (i, j) ∈ rs.map shift ↔ ∃ i' j', i = i' + 1 ∧ j = j' + 1 ∧ (i', j') ∈ rs := by
  constructor
  · intro h
    obtain ⟨r, hr, heq⟩ := List.mem_map.mp h
    cases heq
    exact ⟨r.1, r.2, rfl, rfl, hr⟩
  · rintro ⟨i', j', rfl, rfl, h⟩
    exact List.mem_map.mpr ⟨_, h, rfl⟩

@[simp]
theorem succ_mem_map_shift_iff {rs : List (ℕ × ℕ)} :
    (i + 1, j + 1) ∈ rs.map shift ↔ (i, j) ∈ rs := by
  simp [mem_map_shift_iff]

@[simp]
theorem zero_not_mem_map_shift {rs : List (ℕ × ℕ)} : (0, j) ∉ rs.map shift := by
  simp [mem_map_shift_iff]

theorem pos_of_mem_runs {s : List α} (h : (i, j) ∈ runs sep s) : 0 < j := by
  cases s with
  | nil => simp at h
  | cons x s =>
      have hshift : ∀ rs : List (ℕ × ℕ), (i, j) ∈ rs.map shift → 0 < j := by
        intro rs hmem
        obtain ⟨i', j', -, rfl, -⟩ := mem_map_shift_iff.mp hmem
        exact Nat.succ_pos j'
      by_cases hx : x = sep
      · subst hx
        rw [runs_cons_sep] at h
        exact hshift _ h
      rcases runs_head_cases sep s with ⟨j₀, rs, hhead⟩ | hhead
      · rw [runs_cons_grow hx hhead] at h
        rcases List.mem_cons.mp h with heq | hmem
        · cases heq
          exact Nat.succ_pos j₀
        · exact hshift _ hmem
      · rw [runs_cons_new hx hhead] at h
        rcases List.mem_cons.mp h with heq | hmem
        · cases heq
          exact Nat.one_pos
        · exact hshift _ hmem

/-- Behind the front the list goes on with that of the rest. -/
theorem mem_runs_cons_succ_iff (x : α) (s : List α) :
    (i + 1, j + 1) ∈ runs sep (x :: s) ↔ (i, j) ∈ runs sep s ∧ (i = 0 → x = sep) := by
  by_cases hx : x = sep
  · subst hx
    simp
  have hordered := ordered_runs sep s
  rcases runs_head_cases sep s with ⟨j₀, rs, hhead⟩ | hhead
  · rw [hhead] at hordered
    have hpos : ∀ r ∈ rs, r.1 ≠ 0 := fun r hr =>
      Nat.ne_of_gt (Nat.zero_lt_of_lt ((List.pairwise_cons.mp hordered).1 r hr))
    rw [runs_cons_grow hx hhead, hhead]
    simp only [List.mem_cons, Prod.mk.injEq, Nat.succ_ne_zero, false_and, false_or,
      succ_mem_map_shift_iff, hx, imp_false]
    constructor
    · exact fun hmem => ⟨.inr hmem, hpos _ hmem⟩
    · rintro ⟨⟨hzero, -⟩ | hmem, hne⟩
      · exact absurd hzero hne
      · exact hmem
  · rw [runs_cons_new hx hhead]
    simp only [List.mem_cons, Prod.mk.injEq, Nat.succ_ne_zero, false_and, false_or,
      succ_mem_map_shift_iff, hx, imp_false]
    exact ⟨fun hmem => ⟨hmem, Nat.ne_of_gt (hordered.pos_of_head hhead _ hmem)⟩, And.left⟩

/-- A list with a run at its front begins with no separator. -/
theorem not_ended_of_runs {rs : List (ℕ × ℕ)} (h : runs sep s = (0, j) :: rs) :
    ¬ (s = [] ∨ s[0]? = some sep) := by
  rintro (rfl | hsep)
  · simp at h
  · obtain ⟨s, rfl⟩ := List.head?_eq_some_iff.mp (by rwa [List.head?_eq_getElem?])
    have hzero : (0, j) ∈ (runs sep s).map shift := by simp [← runs_cons_sep, h]
    simp at hzero

/-- A list without a run at its front begins with a separator, if with anything. -/
theorem ended_of_runs (h : ∀ r ∈ (runs sep s).head?, r.1 ≠ 0) : s = [] ∨ s[0]? = some sep := by
  cases s with
  | nil => exact .inl rfl
  | cons y s =>
      by_cases hy : y = sep
      · exact .inr (by simp [hy])
      · obtain ⟨j, hj⟩ := head?_runs_cons hy s
        exact absurd rfl (h (0, j) hj)

/-- At the front the first run of the rest grows, or a run begins and ends. -/
theorem mem_runs_cons_zero_iff (hx : x ≠ sep) :
    (0, j + 1) ∈ runs sep (x :: s) ↔
      (0, j) ∈ runs sep s ∨ j = 0 ∧ (s = [] ∨ s[0]? = some sep) := by
  rcases runs_head_cases sep s with ⟨j₀, rs, hhead⟩ | hhead
  · have hordered := ordered_runs sep s
    rw [hhead] at hordered
    have hpos : (0, j) ∉ rs := fun hmem =>
      absurd ((List.pairwise_cons.mp hordered).1 _ hmem) (Nat.not_lt_zero _)
    rw [runs_cons_grow hx hhead, hhead]
    simp [hpos, not_ended_of_runs hhead]
  · have hpos : (0, j) ∉ runs sep s := fun hmem =>
      absurd ((ordered_runs sep s).pos_of_head hhead _ hmem) (Nat.lt_irrefl 0)
    rw [runs_cons_new hx hhead]
    simp [hpos, ended_of_runs hhead]

/-- **The list holds the maximal runs**, and nothing else. -/
theorem mem_runs_iff (sep : α) (s : List α) (i j : ℕ) :
    (i, j) ∈ runs sep s ↔ IsMaximalRun sep s i j := by
  induction s generalizing i j with
  | nil =>
      refine iff_of_false (by simp) fun h => ?_
      have hle : j ≤ 0 := h.inside
      exact absurd h.nonempty (by omega)
  | cons x s ih =>
      rcases j with _ | j
      · exact iff_of_false (fun h => absurd (pos_of_mem_runs h) (Nat.lt_irrefl 0))
          fun h => absurd h.nonempty (Nat.not_lt_zero i)
      rcases i with _ | i
      · by_cases hx : x = sep
        · subst hx
          exact iff_of_false (by simp) fun h => h.ne_sep_of_zero rfl
        · rw [mem_runs_cons_zero_iff hx, IsMaximalRun.cons_zero_iff hx, ih]
      · rw [mem_runs_cons_succ_iff, IsMaximalRun.cons_succ_iff, ih]

/-! ## What the runs hold -/

/-- **The segments** are what the maximal runs hold, in order. -/
theorem segments_eq_map_runs (sep : α) (s : List α) :
    segments sep s = (runs sep s).map fun r => slice s r.1 r.2 := by
  have hbehind : ∀ (x : α) (s : List α) (rs : List (ℕ × ℕ)),
      (rs.map shift).map (fun r => slice (x :: s) r.1 r.2) =
        rs.map fun r => slice s r.1 r.2 := by
    intro x s rs
    simp [shift]
  induction s with
  | nil => simp
  | cons x s ih =>
      by_cases hx : x = sep
      · subst hx
        rw [segments_sep_cons, runs_cons_sep, hbehind, ih]
      rcases runs_head_cases sep s with ⟨j, rs, hhead⟩ | hhead
      · rw [hhead, List.map_cons] at ih
        rw [runs_cons_grow hx hhead, List.map_cons, hbehind, slice_cons_zero]
        exact segments_cons_grow hx (not_ended_of_runs hhead) ih
      · rw [runs_cons_new hx hhead, List.map_cons, hbehind, ← ih, slice_cons_zero]
        exact segments_cons_new hx (ended_of_runs hhead)

end Foundation
