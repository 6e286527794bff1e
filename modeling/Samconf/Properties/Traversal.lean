/-
# The successor in preorder

`samconfConfigNext` stores the node that follows in preorder, so feeding each answer
back visits every node below the root once and comes to an end, and the loop of
`samconfConfigMergeConfig` does just that until a node stops it. The status that comes
with the answer is a different matter: it is that of the last call of the search, and
tells the truth only when at most one subtree is ahead.
-/

import Samconf.Properties.Completeness
import Samconf.Spec.Json
import Samconf.Spec.Traversal

namespace Samconf

open Foundation
open Exec (Rounds)

variable {root : Config}

/-! ## The stored node -/

/-- A node comes directly after another in preorder. -/
def FollowsInPreorder (root : Config) (p q : List ℕ) : Prop :=
  ∃ before after, root.positions = before ++ p :: q :: after

/-- Feeding each answer of `samconfConfigNext` back, from a node on, visits these nodes
and then stops. -/
inductive Traverses (root : Config) : List ℕ → List (List ℕ) → Prop
  | last {p : List ℕ} {status : ConfigStatus}
      (h : samconfConfigNext root p = .ok (status, none)) : Traverses root p []
  | next {p q : List ℕ} {visited : List (List ℕ)} {status : ConfigStatus}
      (h : samconfConfigNext root p = .ok (status, some q))
      (hrest : Traverses root q visited) : Traverses root p (q :: visited)

/-- The preorder splits at a node in one place only. -/
theorem followsInPreorder_iff {p q : List ℕ} {before rest : List (List ℕ)}
    (hsplit : root.positions = before ++ p :: rest) :
    FollowsInPreorder root p q ↔ rest.head? = some q := by
  have hnodup := RoseTree.nodup_positions root
  rw [hsplit, List.nodup_append, List.nodup_cons] at hnodup
  obtain ⟨-, ⟨hrest, -⟩, hbefore⟩ := hnodup
  constructor
  · rintro ⟨before', after, hsplit'⟩
    rw [hsplit] at hsplit'
    have hsame := (List.append_cons_inj_of_notMem
      (fun hmem => hbefore p hmem p List.mem_cons_self rfl) hrest).mp hsplit'
    rw [hsame.2.2]
    rfl
  · intro hhead
    obtain ⟨after, rfl⟩ := List.head?_eq_some_iff.mp hhead
    exact ⟨before, after, hsplit⟩

/-- What is stored follows in preorder, and nothing is stored where nothing follows. -/
theorem samconfConfigNext_follows (hreadable : root.Readable) (configToFind : List ℕ) :
    ∃ status next, samconfConfigNext root configToFind = .ok (status, next) ∧
      ∀ q, next = some q ↔ FollowsInPreorder root configToFind q := by
  by_cases hmem : configToFind ∈ root.positions
  · obtain ⟨before, rest, hsplit⟩ := List.append_of_mem hmem
    rcases samconfConfigNext_eq hreadable hsplit with ⟨status, hnext⟩
    exact ⟨status, rest.head?, hnext, fun q => (followsInPreorder_iff hsplit).symm⟩
  · refine ⟨.notFound, none, samconfConfigNext_of_absent hreadable hmem, fun q => ?_⟩
    refine iff_of_false (by simp) ?_
    rintro ⟨before, after, hsplit⟩
    exact hmem (by simp [hsplit])

/-! ## The loop -/

/-- From a node the loop visits the nodes behind it in preorder. -/
theorem traverses_iff (hreadable : root.Readable) {p : List ℕ}
    {before rest visited : List (List ℕ)} (hsplit : root.positions = before ++ p :: rest) :
    Traverses root p visited ↔ visited = rest := by
  constructor
  · intro h
    induction h generalizing before rest with
    | last hnext =>
        rcases samconfConfigNext_eq hreadable hsplit with ⟨status, hnext'⟩
        rw [hnext] at hnext'
        cases rest with
        | nil => rfl
        | cons q rest => cases hnext'
    | @next p q visited status hnext hrest ih =>
        rcases samconfConfigNext_eq hreadable hsplit with ⟨status, hnext'⟩
        rw [hnext] at hnext'
        cases rest with
        | nil => cases hnext'
        | cons q' rest =>
            cases hnext'
            rw [@ih (before ++ [p]) rest (by simp [hsplit])]
  · rintro rfl
    induction visited generalizing before p with
    | nil =>
        rcases samconfConfigNext_eq hreadable hsplit with ⟨status, hnext⟩
        exact .last hnext
    | cons q rest ih =>
        rcases samconfConfigNext_eq hreadable hsplit with ⟨status, hnext⟩
        exact .next hnext (@ih q (before ++ [p]) (by simp [hsplit]))

/-- Every state that the loop of a merge comes to is on track. -/
theorem onTrack_of_rounds (hreadable : root.Readable) {state state' : MergeState}
    {rest : List (List ℕ)} {o o' : Supply} (htrack : OnTrack root state rest)
    (hrounds : Rounds (mergeStep root) state o state' o') :
    ∃ rest', OnTrack root state' rest' := by
  induction hrounds generalizing rest with
  | here state o => exact ⟨rest, htrack⟩
  | round hround hrest ih =>
      rcases htrack.round hreadable hround with ⟨p, rest', -, htrack'⟩
      exact ih htrack'

/-- More rounds than there are nodes ahead change nothing: the loop ends by itself. -/
theorem loop_ends (hreadable : root.Readable) {state : MergeState} {rest : List (List ℕ)}
    {n : ℕ} (extra : ℕ) (o : Supply) (htrack : OnTrack root state rest) (hn : rest.length < n) :
    Exec.loop .endless (mergeStep root) (n + extra) state o =
      Exec.loop .endless (mergeStep root) n state o := by
  induction n generalizing state rest o with
  | zero => cases hn
  | succ n ih =>
      rw [Nat.add_right_comm]
      cases hround : mergeStep root state o with
      | error e => rw [Exec.loop, Exec.loop, Exec.bind_of_error hround, Exec.bind_of_error hround]
      | ok r =>
          rcases r with ⟨outcome, o'⟩
          cases outcome with
          | inr outcome => rw [Exec.loop_of_inr hround, Exec.loop_of_inr hround]
          | inl state' =>
              rcases htrack.round hreadable hround with ⟨p, rest', rfl, htrack'⟩
              rw [Exec.loop_of_inl hround, Exec.loop_of_inl hround]
              exact ih o' htrack' (Nat.lt_of_succ_lt_succ hn)

/-- What the loop of a merge does with the nodes of `configToMerge`: it has passed the
first ones below the root, the next one is ahead, and it ends by itself. -/
def LoopFollowsPreorder (configToMerge mergedConfig : Config) (o : Supply) : Prop :=
  (∀ state o', Rounds (mergeStep configToMerge) ⟨mergedConfig, [], []⟩ o state o' →
    ∃ ahead status, configToMerge.descendants = state.handled ++ ahead ∧
      samconfConfigNext configToMerge state.configToFind = .ok (status, ahead.head?)) ∧
    ∀ extra, Exec.loop .endless (mergeStep configToMerge)
        (configToMerge.positions.length + extra) ⟨mergedConfig, [], []⟩ o =
      Exec.loop .endless (mergeStep configToMerge) configToMerge.positions.length
        ⟨mergedConfig, [], []⟩ o

theorem loopFollowsPreorder (hreadable : root.Readable) (mergedConfig : Config) (o : Supply) :
    LoopFollowsPreorder root mergedConfig o := by
  have htrack := onTrack_start mergedConfig root
  constructor
  · intro state o' hrounds
    rcases onTrack_of_rounds hreadable htrack hrounds with ⟨rest, hstate⟩
    rcases hstate.split with ⟨before, hsplit⟩
    rcases samconfConfigNext_eq hreadable hsplit with ⟨status, hnext⟩
    exact ⟨rest, status, hstate.descendants_eq, hnext⟩
  · intro extra
    apply loop_ends hreadable extra o htrack
    rw [RoseTree.positions_eq]
    exact Nat.lt_succ_self _

/-- **The successor in preorder.** The stored node is the one that follows, whichever
pointer is handed in. Fed back from the root on, the answers are the nodes below the
root, each once, and the loop of a merge goes along them. -/
theorem samconfConfigNext_preorder (hreadable : root.Readable) :
    (∀ configToFind, ∃ status next,
      samconfConfigNextOfPointers (some root) configToFind = .ok (status, next) ∧
        ∀ q, next = some q ↔ ∃ p, configToFind = some p ∧ FollowsInPreorder root p q) ∧
    (∀ visited, Traverses root [] visited ↔ visited = root.descendants) ∧
    root.descendants.Nodup ∧
    (∀ p, p ∈ root.descendants ↔ p ≠ [] ∧ ∃ node, root.sub? p = some node) ∧
    ∀ mergedConfig o, LoopFollowsPreorder root mergedConfig o := by
  refine ⟨?_, ?_, ?_, fun p => RoseTree.mem_descendants, loopFollowsPreorder hreadable⟩
  · rintro (- | configToFind)
    · exact ⟨.error, none, rfl, by simp⟩
    · rcases samconfConfigNext_follows hreadable configToFind with ⟨status, next, hnext, hiff⟩
      exact ⟨status, next, hnext, by simpa using hiff⟩
  · intro visited
    exact @traverses_iff root hreadable [] [] _ visited (RoseTree.positions_eq root)
  · have hnodup := RoseTree.nodup_positions root
    rw [RoseTree.positions_eq, List.nodup_cons] at hnodup
    exact hnodup.2

/-- The tree of a document with two options below `root`. -/
def twoOptions : Config :=
  (Json.object [(rootKey, .object [(['a'], .int 1), (['b'], .int 2)])]).loaded false

/-- In the tree of a document, the first option follows `root`. -/
theorem first_option_follows_root :
    ∃ status, samconfConfigNextOfPointers (some twoOptions) (some [0]) =
      .ok (status, some [0, 0]) := by
  rcases (samconfConfigNext_preorder (show twoOptions.Readable by decide)).1 (some [0]) with
    ⟨status, next, hnext, hiff⟩
  obtain rfl := (hiff [0, 0]).mpr ⟨[0], rfl, [[]], [[0, 1]], by decide⟩
  exact ⟨status, hnext⟩

/-! ## The status -/

/-- OK comes exactly with a node, and NOT_FOUND exactly without one. -/
def StatusTellsTruth (root : Config) (configToFind : List ℕ) : Prop :=
  ∃ status next, samconfConfigNext root configToFind = .ok (status, next) ∧
    (status = .ok ↔ next ≠ none) ∧ (status = .notFound ↔ next = none)

/-- **The status tells the truth** exactly when the node is not in the tree, or when its
children and the siblings to the right of it and of the nodes above it are at most one. -/
theorem statusTellsTruth_iff (hreadable : root.Readable) (configToFind : List ℕ) :
    StatusTellsTruth root configToFind ↔
      configToFind ∉ root.positions ∨ root.subtreesAhead configToFind ≤ 1 := by
  by_cases hmem : configToFind ∈ root.positions
  · rcases samconfConfigNext_of_mem hreadable hmem with ⟨next, hnext, hnone⟩
    constructor
    · rintro ⟨status, next', hnext', hok, hmissing⟩
      rw [hnext] at hnext'
      cases hnext'
      right
      rw [statusAhead_eq_ok, ne_eq, hnone] at hok
      omega
    · rintro (habsent | hfew)
      · exact absurd hmem habsent
      · refine ⟨_, next, hnext, ?_, ?_⟩
        · rw [statusAhead_eq_ok, ne_eq, hnone]
          omega
        · rw [statusAhead_eq_notFound, hnone]
  · refine iff_of_true ⟨_, _, samconfConfigNext_of_absent hreadable hmem, ?_, ?_⟩ (.inl hmem)
    · simp
    · simp

/-- The status for the last option but one, beside which only one is ahead. -/
theorem status_of_last_but_one : StatusTellsTruth twoOptions [0, 0] :=
  (statusTellsTruth_iff (by decide) _).mpr (.inr (by decide))

/-- After `root` the first option is stored, and the second one spoils the status. -/
theorem status_of_root_is_error :
    samconfConfigNext twoOptions [0] = .ok (.error, some [0, 0]) ∧
      ¬ StatusTellsTruth twoOptions [0] := by
  have hnext : samconfConfigNext twoOptions [0] = .ok (.error, some [0, 0]) := rfl
  refine ⟨hnext, ?_⟩
  rintro ⟨status, next, hnext', hok, -⟩
  rw [hnext] at hnext'
  cases hnext'
  exact absurd (hok.mpr (by simp)) (by simp)

end Samconf
