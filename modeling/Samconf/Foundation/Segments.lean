/-
# Maximal runs between separators

`segments sep s` lists the maximal runs of `s` that contain no separator, the
empty ones dropped. The module relates this to joining, which it undoes, and to
a tokeniser that skips separators and then takes a run.
-/

import Mathlib.Data.List.TakeWhile

namespace Foundation

universe u

variable {α : Type u} [DecidableEq α]

/-- The non-empty maximal runs without the separator. -/
def segments (sep : α) (s : List α) : List (List α) :=
  (s.splitOn sep).filter fun r => decide (r ≠ [])

/-- A run that can stand as one segment. -/
def IsSegment (sep : α) (s : List α) : Prop := s ≠ [] ∧ sep ∉ s

instance (sep : α) (s : List α) : Decidable (IsSegment sep s) :=
  inferInstanceAs (Decidable (_ ∧ _))

variable {sep : α}

@[simp]
theorem segments_nil : segments sep [] = [] := by
  simp [segments]

/-- Separators in front are skipped. -/
@[simp]
theorem segments_sep_cons (s : List α) : segments sep (sep :: s) = segments sep s := by
  simp [segments, List.splitOn_cons_eq_if_modifyHead]

/-- A run followed by a separator is the first segment. -/
theorem segments_append_sep {r : List α} (hr : IsSegment sep r) (s : List α) :
    segments sep (r ++ sep :: s) = r :: segments sep s := by
  simp [segments, List.splitOn_append_cons_self_of_not_mem hr.2, hr.1]

theorem segments_of_isSegment {r : List α} (hr : IsSegment sep r) : segments sep r = [r] := by
  simp [segments, List.splitOn_eq_singleton hr.2, hr.1]

/-- A character in front of a run joins the first segment. -/
theorem segments_cons_cons {x y : α} (hx : x ≠ sep) (hy : y ≠ sep) (s : List α) :
    ∃ r rs, segments sep (y :: s) = r :: rs ∧ segments sep (x :: y :: s) = (x :: r) :: rs := by
  obtain ⟨first, others, hsplit⟩ := List.exists_cons_of_ne_nil (List.splitOn_ne_nil sep s)
  refine ⟨y :: first, others.filter fun r => decide (r ≠ []), ?_, ?_⟩ <;>
    simp [segments, List.splitOn_cons_eq_if_modifyHead, hx, hy, hsplit]

/-- One more character in front of a run does not make another segment. -/
theorem length_segments_cons_cons {x y : α} (hx : x ≠ sep) (hy : y ≠ sep) (s : List α) :
    (segments sep (x :: y :: s)).length = (segments sep (y :: s)).length := by
  obtain ⟨r, rs, hshort, hlong⟩ := segments_cons_cons hx hy s
  rw [hshort, hlong, List.length_cons, List.length_cons]

/-- One more character in front of a run makes the first segment longer. -/
theorem segments_cons_grow {x : α} {s r : List α} {rs : List (List α)} (hx : x ≠ sep)
    (hs : ¬ (s = [] ∨ s[0]? = some sep)) (h : segments sep s = r :: rs) :
    segments sep (x :: s) = (x :: r) :: rs := by
  cases s with
  | nil => exact absurd (.inl rfl) hs
  | cons y s =>
      have hy : y ≠ sep := fun heq => hs (.inr (by simp [heq]))
      obtain ⟨r', rs', hshort, hlong⟩ := segments_cons_cons hx hy s
      rw [hshort] at h
      cases h
      exact hlong

/-- One more character in front of a separator or the end is a segment. -/
theorem segments_cons_new {x : α} {s : List α} (hx : x ≠ sep)
    (hs : s = [] ∨ s[0]? = some sep) : segments sep (x :: s) = [x] :: segments sep s := by
  have hself : IsSegment sep [x] := ⟨by simp, by simpa using Ne.symm hx⟩
  rcases hs with rfl | hsep
  · rw [segments_of_isSegment hself, segments_nil]
  · obtain ⟨s, rfl⟩ := List.head?_eq_some_iff.mp (by rwa [List.head?_eq_getElem?])
    rw [segments_sep_cons]
    exact segments_append_sep hself s

/-- **Splitting undoes joining** for a list of segments. -/
theorem segments_intercalate {rs : List (List α)} (h : ∀ r ∈ rs, IsSegment sep r) :
    segments sep ([sep].intercalate rs) = rs := by
  cases rs with
  | nil => simp
  | cons r rs =>
      rw [segments, List.splitOn_intercalate sep (fun r hr => (h r hr).2) (by simp)]
      simpa using fun r hr => (h r hr).1

/-- A separator splits the segments. -/
theorem segments_append_cons (s t : List α) :
    segments sep (s ++ sep :: t) = segments sep s ++ segments sep t := by
  simp [segments, List.splitOn_append_cons_self]

/-- Separators behind are skipped. -/
theorem segments_append_of_forall_eq (s : List α) {t : List α} (h : ∀ x ∈ t, x = sep) :
    segments sep (s ++ t) = segments sep s := by
  cases t with
  | nil => simp
  | cons x t =>
      obtain rfl : x = sep := h x List.mem_cons_self
      have hnone : ∀ t : List α, (∀ y ∈ t, y = x) → segments x t = [] := by
        intro t
        induction t with
        | nil => exact fun _ => segments_nil
        | cons y t ih =>
            intro ht
            obtain rfl : y = x := ht y List.mem_cons_self
            rw [segments_sep_cons, ih fun z hz => ht z (List.mem_cons_of_mem y hz)]
      rw [segments_append_cons, hnone t fun y hy => h y (List.mem_cons_of_mem x hy),
        List.append_nil]

/-- **The last segment**, read from behind: skip separators, then take a run. -/
theorem getLast?_segments {s : List α} (h : segments sep s ≠ []) :
    (segments sep s).getLast? =
      some ((s.reverse.dropWhile fun x => decide (x = sep)).takeWhile
        fun x => decide (x ≠ sep)).reverse := by
  generalize hrest : s.reverse.dropWhile (fun x => decide (x = sep)) = rest
  have hsplit : s = rest.reverse ++ (s.reverse.takeWhile fun x => decide (x = sep)).reverse := by
    rw [← List.reverse_append, ← hrest, List.takeWhile_append_dropWhile, List.reverse_reverse]
  have hskip : segments sep s = segments sep rest.reverse := by
    rw [hsplit]
    apply segments_append_of_forall_eq
    intro x hx
    simpa using List.mem_takeWhile_imp (List.mem_reverse.mp hx)
  rw [hskip] at h ⊢
  generalize hrun : rest.takeWhile (fun x => decide (x ≠ sep)) = run
  generalize hbefore : rest.dropWhile (fun x => decide (x ≠ sep)) = before
  have hrest' : rest.reverse = before.reverse ++ run.reverse := by
    rw [← List.reverse_append, ← hrun, ← hbefore, List.takeWhile_append_dropWhile]
  have hsegment : IsSegment sep run.reverse := by
    constructor
    · intro hempty
      rw [List.reverse_eq_nil_iff] at hempty
      subst hempty
      cases rest with
      | nil => simp at h
      | cons x rest =>
          -- what is left begins with no separator
          have hhead := List.head?_dropWhile_not (fun x => decide (x = sep)) s.reverse
          rw [hrest] at hhead
          have hx : x ≠ sep := by simpa using hhead
          simp [hx] at hrun
    · intro hmem
      rw [List.mem_reverse, ← hrun] at hmem
      simpa using List.mem_takeWhile_imp hmem
  rw [hrest']
  cases before with
  | nil => simp [segments_of_isSegment hsegment]
  | cons y before =>
      obtain rfl : y = sep := by
        have hhead := List.head?_dropWhile_not (fun x => decide (x ≠ sep)) rest
        rw [hbefore] at hhead
        simpa using hhead
      rw [List.reverse_cons, List.append_assoc, List.singleton_append, segments_append_cons,
        segments_of_isSegment hsegment, List.getLast?_concat]

/-- Take the next run: skip separators, then read up to the next one and over
it. There is none when only separators are left. -/
def nextToken (sep : α) (s : List α) : Option (List α × List α) :=
  match s.dropWhile fun x => decide (x = sep) with
  | [] => none
  | x :: xs =>
      some (x :: xs.takeWhile fun y => decide (y ≠ sep),
        (xs.dropWhile fun y => decide (y ≠ sep)).tail)

theorem segments_dropWhile (s : List α) :
    segments sep (s.dropWhile fun x => decide (x = sep)) = segments sep s := by
  induction s with
  | nil => rfl
  | cons x s ih =>
      by_cases hx : x = sep
      · subst hx
        simpa using ih
      · simp [hx]

/-- **The tokeniser reads off the segments** one by one. -/
theorem segments_eq_nextToken (s : List α) :
    segments sep s =
      match nextToken sep s with
      | none => []
      | some (r, rest) => r :: segments sep rest := by
  rw [← segments_dropWhile]
  cases hs : s.dropWhile fun x => decide (x = sep) with
  | nil => simp [nextToken, hs]
  | cons x xs =>
      have hx : x ≠ sep := by
        have hhead := List.head?_dropWhile_not (fun x => decide (x = sep)) s
        simpa [hs] using hhead
      simp only [nextToken, hs]
      -- split the text behind `x` where its run ends
      generalize hrun : xs.takeWhile (fun y => decide (y ≠ sep)) = run
      generalize hrest : xs.dropWhile (fun y => decide (y ≠ sep)) = rest
      have hsplit : run ++ rest = xs := by
        rw [← hrun, ← hrest]
        exact List.takeWhile_append_dropWhile
      have hsegment : IsSegment sep (x :: run) := by
        refine ⟨by simp, fun hmem => ?_⟩
        rcases List.mem_cons.mp hmem with heq | hmem
        · exact hx heq.symm
        · rw [← hrun] at hmem
          simpa using List.mem_takeWhile_imp hmem
      rw [← hsplit]
      cases rest with
      | nil => simpa using segments_of_isSegment hsegment
      | cons y ys =>
          have hy : y = sep := by
            have hhead := List.head?_dropWhile_not (fun y => decide (y ≠ sep)) xs
            rw [hrest] at hhead
            simpa using hhead
          subst hy
          exact segments_append_sep hsegment ys

/-- A token uses up part of the input. -/
theorem length_lt_of_nextToken {s r rest : List α} (h : nextToken sep s = some (r, rest)) :
    rest.length < s.length := by
  cases hs : s.dropWhile fun x => decide (x = sep) with
  | nil => simp [nextToken, hs] at h
  | cons x xs =>
      simp only [nextToken, hs, Option.some.injEq, Prod.mk.injEq] at h
      have hdrop := (List.dropWhile_suffix (p := fun x => decide (x = sep)) (l := s)).length_le
      have hrest := (List.dropWhile_suffix (p := fun y => decide (y ≠ sep)) (l := xs)).length_le
      rw [hs, List.length_cons] at hdrop
      rw [← h.2, List.length_tail]
      omega

/-- Every segment is a non-empty run without the separator. -/
theorem isSegment_of_mem_segments {s r : List α} (h : r ∈ segments sep s) : IsSegment sep r := by
  rw [segments, List.mem_filter] at h
  refine ⟨by simpa using h.2, fun hsep => ?_⟩
  have hfree : ∀ t : List α, ∀ r ∈ t.splitOn sep, sep ∉ r := by
    intro t
    induction t with
    | nil => simp
    | cons x t ih =>
        intro r hr
        rw [List.splitOn_cons_eq_if_modifyHead] at hr
        by_cases hx : x = sep
        · rcases List.mem_cons.mp (by simpa [hx] using hr) with rfl | hr
          · simp
          · exact ih r hr
        · simp only [beq_iff_eq, hx, if_false] at hr
          cases hsplit : t.splitOn sep with
          | nil => simp [hsplit] at hr
          | cons r' rs =>
              rw [hsplit, List.modifyHead_cons, List.mem_cons] at hr
              rcases hr with rfl | hr
              · have := ih r' (by simp [hsplit])
                simp [this, Ne.symm hx]
              · exact ih r (by simp [hsplit, hr])
  exact hfree s r h.1 hsep

end Foundation
