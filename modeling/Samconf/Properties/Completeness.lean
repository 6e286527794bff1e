/-
# Merges that are reported as complete

A merge says OK at its end, when every node of `configToMerge` has been handled
and the flag of the root is raised. It also says OK when it gives up on a node
after allocating the copy: the exits release the copy and take over the status of
the release.

Without failing allocations the only node it gives up on is a STRING without a string,
if the loop comes to one. Whichever allocations fail, every merge with a node to merge
may give up on the first one, and says OK over the tree as it was.
-/

import Samconf.Foundation.Mirroring
import Samconf.Spec.Held
import Samconf.Spec.Load
import Samconf.Spec.Presence

namespace Samconf

open Foundation
open Exec (Yields Ensures Avoids Mirrors Rounds)
open RoseTree (relabel)

/-! ## The inner steps of a round -/

/-- The steps of a round that can fail. -/
inductive InnerStep
  | allocation
  | copy
  | path
  | lookup
  | insertion
  | overwrite
  deriving DecidableEq

/-- The first step that fails in the round for the node at position `next`. -/
def failingStep (configToMerge : Config) (next : List ℕ) (mergedConfig : Config) :
    Run (Option InnerStep) := do
  let (_, node) ← samconfConfigNew
  match node with
  | none => pure (some .allocation)
  | some node =>
      let nextConfig ← deref .nullConfig (configToMerge.sub? next)
      let (status, node) ← samconfConfigCopyConfig nextConfig node
      if status ≠ .ok then pure (some .copy)
      else
        let (status, path) ← samconfPathGetPath configToMerge next
        if status ≠ .ok then pure (some .path)
        else
          let (status, nodeInMerge) ← samconfConfigGet mergedConfig path
          if status = .notFound then
            let (status, _) ← samconfInsertAt mergedConfig (path.getD []) node
            if status ≠ .ok then pure (some .insertion) else pure none
          else if status = .ok then
            match nodeInMerge with
            | none => pure (some .overwrite)
            | some position =>
                let target ← deref .nullConfig (mergedConfig.sub? position)
                let (status, _) ← samconfCopyConfigValue node target
                if status ≠ .ok then pure (some .overwrite) else pure none
          else pure (some .lookup)

/-- What becomes of the loop, by the step that fails: only a failing allocation
is reported. -/
def RoundEnds : Option InnerStep → NodeOutcome → Prop
  | none, outcome => ∃ mergedConfig, outcome = .handled mergedConfig
  | some .allocation, outcome => ∃ mergedConfig, outcome = .stopped .error mergedConfig
  | some _, outcome => ∃ mergedConfig, outcome = .stopped .ok mergedConfig

/-- A copy can be released whatever became of it. -/
def Releasable (config : Config) : Prop := samconfConfigDelete config = .ok .ok

theorem samconfConfigCopyConfig_releasable (source : Config) :
    (samconfConfigCopyConfig source samconfConfigInit).Ensures fun r => Releasable r.2 :=
  (samconfConfigCopyConfig_held source).mono fun _ h => h.samconfConfigDelete_eq

/-- **A round** ends as its first failing step says. -/
theorem mergeNode_mirrors (configToMerge : Config) (next : List ℕ) (mergedConfig : Config) :
    Mirrors RoundEnds (failingStep configToMerge next mergedConfig)
      (mergeNode configToMerge next mergedConfig) := by
  rw [failingStep, mergeNode]
  apply Exec.mirrors_bind samconfConfigNew_ensures
  rintro created (rfl | rfl)
  · exact Exec.mirrors_pure ⟨mergedConfig, rfl⟩
  apply Exec.mirrors_bind (Exec.ensures_true _)
  intro nextConfig _
  apply Exec.mirrors_bind (samconfConfigCopyConfig_releasable nextConfig)
  rintro ⟨status, node⟩ hnode
  simp only [abandon_eq hnode, show samconfConfigDelete node = .ok .ok from hnode,
    Exec.lift_ok_bind, if_true]
  by_cases hcopy : status = .ok
  · simp only [hcopy, ne_eq, not_true_eq_false, if_false]
    apply Exec.mirrors_bind (Exec.ensures_true _)
    rintro ⟨status, path⟩ -
    by_cases hpath : status = .ok
    · simp only [hpath, not_true_eq_false, if_false]
      apply Exec.mirrors_bind (Exec.ensures_true _)
      rintro ⟨status, nodeInMerge⟩ -
      by_cases hmissing : status = .notFound
      · simp only [hmissing, if_true]
        apply Exec.mirrors_bind (Exec.ensures_true _)
        rintro ⟨status, merged⟩ -
        by_cases hinsert : status = .ok
        · simp only [hinsert, not_true_eq_false, if_false]
          exact Exec.mirrors_pure ⟨merged, rfl⟩
        · simp only [hinsert, not_false_eq_true, if_true]
          exact Exec.mirrors_pure ⟨merged, rfl⟩
      · by_cases hfound : status = .ok
        · simp only [hfound, reduceCtorEq, if_false, if_true]
          cases nodeInMerge with
          | none => exact Exec.mirrors_pure ⟨mergedConfig, rfl⟩
          | some position =>
              apply Exec.mirrors_bind (Exec.ensures_true _)
              intro target _
              apply Exec.mirrors_bind (Exec.ensures_true _)
              rintro ⟨status, target⟩ -
              by_cases hwrite : status = .ok
              · simp only [hwrite, not_true_eq_false, if_false]
                exact Exec.mirrors_pure ⟨_, rfl⟩
              · simp only [hwrite, not_false_eq_true, if_true]
                exact Exec.mirrors_pure ⟨_, rfl⟩
        · simp only [hmissing, hfound, if_false]
          exact Exec.mirrors_pure ⟨mergedConfig, rfl⟩
    · simp only [hpath, not_false_eq_true, if_true]
      exact Exec.mirrors_pure ⟨mergedConfig, rfl⟩
  · simp only [hcopy, ne_eq, not_false_eq_true, if_true]
    exact Exec.mirrors_pure ⟨mergedConfig, rfl⟩

/-! ## The rounds of a merge -/

variable {mergedConfig configToMerge : Config}

/-- The loop is between two rounds: the nodes it has handled, and those ahead,
make up the preorder. -/
def OnTrack (configToMerge : Config) (state : MergeState) (rest : List (List ℕ)) : Prop :=
  ∃ before, configToMerge.positions = before ++ state.configToFind :: rest ∧
    before ++ [state.configToFind] = [] :: state.handled

theorem onTrack_start (mergedConfig configToMerge : Config) :
    OnTrack configToMerge ⟨mergedConfig, [], []⟩ configToMerge.descendants :=
  ⟨[], RoseTree.positions_eq configToMerge, rfl⟩

theorem OnTrack.split {state : MergeState} {rest : List (List ℕ)}
    (h : OnTrack configToMerge state rest) :
    ∃ before, configToMerge.positions = before ++ state.configToFind :: rest :=
  h.imp fun _ hboth => hboth.1

theorem OnTrack.descendants_eq {state : MergeState} {rest : List (List ℕ)}
    (h : OnTrack configToMerge state rest) :
    configToMerge.descendants = state.handled ++ rest := by
  rcases h with ⟨before, hsplit, hhandled⟩
  have hpositions : [] :: configToMerge.descendants = [] :: (state.handled ++ rest) := by
    rw [← RoseTree.positions_eq, hsplit, ← List.cons_append, ← hhandled, List.append_assoc]
    rfl
  exact (List.cons.inj hpositions).2

theorem OnTrack.next {state : MergeState} {p : List ℕ} {rest : List (List ℕ)}
    (h : OnTrack configToMerge state (p :: rest)) (config : Config) :
    OnTrack configToMerge ⟨config, p, state.handled ++ [p]⟩ rest := by
  rcases h with ⟨before, hsplit, hhandled⟩
  refine ⟨before ++ [state.configToFind], by rw [hsplit, List.append_assoc]; rfl, ?_⟩
  rw [hhandled]
  rfl

/-- A round that goes on has passed the next node ahead. -/
theorem OnTrack.round {state state' : MergeState} {rest : List (List ℕ)} {o o' : Supply}
    (hreadable : configToMerge.Readable) (htrack : OnTrack configToMerge state rest)
    (hround : mergeStep configToMerge state o = .ok (.inl state', o')) :
    ∃ p rest', rest = p :: rest' ∧ OnTrack configToMerge state' rest' := by
  rcases htrack.split with ⟨before, hsplit⟩
  cases rest with
  | nil =>
      rw [mergeStep_of_last hreadable hsplit] at hround
      cases hround
  | cons p rest =>
      refine ⟨p, rest, rfl, ?_⟩
      rw [mergeStep_of_next hreadable hsplit] at hround
      rcases Exec.bind_eq_ok.mp hround with ⟨outcome, o₁, -, hafter⟩
      cases outcome with
      | handled config =>
          cases hafter
          exact htrack.next config
      | stopped result config => cases hafter

/-- An admitted merge runs its loop. -/
theorem mergeConfig_of_rule (hrule : followsMergeRule mergedConfig configToMerge = true) :
    mergeConfig mergedConfig (some configToMerge) =
      Exec.loop .endless (mergeStep configToMerge) configToMerge.positions.length
        ⟨mergedConfig, [], []⟩ :=
  if_pos hrule

/-- The supply that refuses the second request only. -/
def refuseSecond : Supply := fun n => decide (n ≠ 1)

/-- When the key of the first node cannot be copied, the merge says OK and leaves
the merged tree as it was. -/
theorem mergeConfig_refuseSecond (hmerge : configToMerge.Sound)
    (hrule : followsMergeRule mergedConfig configToMerge = true)
    (hnodes : configToMerge.descendants ≠ []) :
    ∃ o', mergeConfig mergedConfig (some configToMerge) refuseSecond =
      .ok (⟨.ok, mergedConfig, []⟩, o') := by
  obtain ⟨p, rest, hrest⟩ := List.exists_cons_of_ne_nil hnodes
  have hp : p ∈ configToMerge.descendants := by simp [hrest]
  rcases RoseTree.mem_descendants.mp hp with ⟨hne, s, hs⟩
  obtain ⟨key, hkey⟩ := hmerge.keyed.exists_key hne hs
  have hsplit : configToMerge.positions = [] ++ [] :: p :: rest := by
    rw [RoseTree.positions_eq, hrest]
    rfl
  have hnode : ∃ o', mergeNode configToMerge p mergedConfig refuseSecond =
      .ok (.stopped .ok mergedConfig, o') := by
    rw [mergeNode]
    simp only [hs, deref_some, Exec.pure_bind, samconfConfigCopyConfig, hkey]
    exact ⟨_, rfl⟩
  rcases hnode with ⟨o', hnode⟩
  refine ⟨o', ?_⟩
  rw [mergeConfig_of_rule hrule, RoseTree.positions_eq, List.length_cons]
  apply Exec.loop_of_inr
  rw [mergeStep_of_next hmerge.counted.readable hsplit, Exec.bind_of_ok hnode]
  rfl

/-- A tree with a STRING that points to no string. -/
def nullString : Config :=
  .node ⟨some rootKey, false, .object, .zero, 1⟩
    [.node ⟨some ['a'], false, .string, .string none, 0⟩ []]

end Samconf
