/-
# Who follows parent links

Only the climb of `samconfPathGetPath` does. No other function of a merge can run
into a missing parent, whatever the trees look like and whichever allocations
fail, so a merge is safe from it when every climb is.
-/

import Samconf.Spec.Merge
import Samconf.Spec.NodeFaults

namespace Samconf

open Foundation
open Exec (Yields Ensures Avoids)
open RoseTree (relabel)

/-! ## Single nodes -/

theorem samconfConfigDelete_ne (config : Config) :
    samconfConfigDelete config ≠ .error .nullParent := by
  induction config using RoseTree.induct with
  | node d cs ih =>
      have hchildren : ∀ (n : ℕ) (ds : List Config), (∀ c ∈ ds, c ∈ cs) →
          deleteChildren n ds ≠ .error .nullParent := by
        intro n ds
        induction ds generalizing n with
        | nil => cases n <;> simp [deleteChildren]
        | cons c ds ihds =>
            intro hds
            cases n with
            | zero => simp [deleteChildren]
            | succ n =>
                have hc := ih c (hds c List.mem_cons_self)
                have hrest := ihds n fun e he => hds e (List.mem_cons_of_mem c he)
                rw [deleteChildren]
                cases hcase : samconfConfigDelete c with
                | error e => simpa [hcase, bind, Except.bind] using hc
                | ok status =>
                    cases hrests : deleteChildren n ds with
                    | error e => simpa [hrests, bind, Except.bind] using hrest
                    | ok rest => simp [bind, Except.bind]
      rw [samconfConfigDelete]
      cases hfree : freeString d with
      | error e => simpa [hfree, bind, Except.bind] using freeString_ne (by simp) d
      | ok _ => exact hchildren d.childCount cs fun c hc => hc

theorem abandon_avoids (node mergedConfig : Config) :
    Avoids .nullParent (abandon node mergedConfig) :=
  (Exec.avoids_lift (samconfConfigDelete_ne node)).bind fun _ => Exec.avoids_pure _ _

/-! ## Insertion -/

theorem insertSegments_avoids (config : Config) (passed rest : List CString) (root : Config)
    (parent : List ℕ) (result : ConfigStatus) :
    Avoids .nullParent (insertSegments config passed rest root parent result) := by
  induction rest generalizing passed root parent result with
  | nil => exact Exec.avoids_pure _ _
  | cons segment rest ih =>
      rw [insertSegments, samconfPathGetPathUntil_eq]
      refine (Exec.avoids_allocFor _ _).bind fun pathToToken => ?_
      cases pathToToken with
      | none => exact ih _ _ _ _
      | some pathToToken =>
          refine (samconfConfigGet_avoids (by simp) (by simp) (some pathToToken)).bind
            fun looked => ?_
          simp only
          split
          · split
            · exact Exec.avoids_pure _ _
            · exact (deref_avoids (by simp) looked.2).bind fun existing => ih _ _ _ _
          · split
            · exact Exec.avoids_pure _ _
            · refine (makeSegment_avoids _ config segment _).bind fun made => ?_
              rcases made with ⟨result, node⟩
              cases node with
              | none => exact Exec.avoids_pure _ _
              | some node =>
                  refine (deref_avoids (by simp) (root.sub? parent)).bind fun parentNode => ?_
                  refine (samconfConfigAdd_avoids (by simp) parentNode node).bind fun added => ?_
                  split
                  · exact ih _ _ _ _
                  · exact Exec.avoids_pure _ _

theorem samconfInsertAt_avoids (root : Config) (path : CString) (config : Config) :
    Avoids .nullParent (samconfInsertAt root path config) := by
  refine (samconfPathCreateArray_avoids _ path).bind fun array => ?_
  simp only
  split
  · exact Exec.avoids_pure _ _
  · split
    · exact insertSegments_avoids _ _ _ _ _ _
    · exact Exec.avoids_pure _ _

/-! ## Merging -/

variable {configToMerge : Config}

theorem mergeNode_avoids {next : List ℕ} (mergedConfig : Config)
    (hpath : Avoids .nullParent (samconfPathGetPath configToMerge next)) :
    Avoids .nullParent (mergeNode configToMerge next mergedConfig) := by
  refine (samconfConfigNew_avoids _).bind fun made => ?_
  rcases made with ⟨result, node⟩
  cases node with
  | none => exact Exec.avoids_pure _ _
  | some node =>
      refine (deref_avoids (by simp) (configToMerge.sub? next)).bind fun nextConfig => ?_
      refine (samconfConfigCopyConfig_avoids (by simp) (by simp) nextConfig node).bind
        fun copied => ?_
      simp only
      split
      · exact abandon_avoids _ _
      · refine hpath.bind fun found => ?_
        split
        · exact abandon_avoids _ _
        · refine (samconfConfigGet_avoids (by simp) (by simp) found.2).bind
            fun looked => ?_
          split
          · refine (samconfInsertAt_avoids mergedConfig _ _).bind fun inserted => ?_
            split
            · exact abandon_avoids _ _
            · exact Exec.avoids_pure _ _
          · split
            · cases looked.2 with
              | none => exact abandon_avoids _ _
              | some position =>
                  refine (deref_avoids (by simp) (mergedConfig.sub? position)).bind fun target => ?_
                  refine (samconfCopyConfigValue_avoids (by simp) _ target).bind fun written => ?_
                  split
                  · exact abandon_avoids _ _
                  · refine (Exec.avoids_lift (samconfConfigDelete_ne _)).bind fun status => ?_
                    split
                    · exact Exec.avoids_pure _ _
                    · exact Exec.avoids_pure _ _
            · exact abandon_avoids _ _

/-- The node after another one in preorder is below the top. -/
theorem mem_descendants_of_after {config : Config} {p q : List ℕ} {before rest : List (List ℕ)}
    (hsplit : config.positions = before ++ p :: q :: rest) : q ∈ config.descendants := by
  have hpairwise := RoseTree.positions_pairwise config
  rw [hsplit, List.pairwise_append, List.pairwise_cons] at hpairwise
  have hmem : q ∈ config.positions := by simp [hsplit]
  refine RoseTree.mem_descendants.mpr ⟨?_, RoseTree.mem_positions.mp hmem⟩
  rintro rfl
  exact hpairwise.2.1.1 [] List.mem_cons_self (List.nil_prefix)

/-- **Merging** follows no missing parent link when no path of a node does. -/
theorem samconfConfigMergeConfig_avoids (mergedConfig : Config) (hcounted : configToMerge.Counted)
    (hpaths : ∀ p ∈ configToMerge.descendants,
      Avoids .nullParent (samconfPathGetPath configToMerge p)) :
    Avoids .nullParent (samconfConfigMergeConfig mergedConfig (some configToMerge)) := by
  rw [samconfConfigMergeConfig]
  refine Avoids.bind ?_ fun outcome => Exec.avoids_pure _ _
  rw [mergeConfig]
  split
  · -- the loop stays on nodes of the tree
    let Inv (state : MergeState) : Prop := ∃ before rest,
      configToMerge.positions = before ++ state.configToFind :: rest
    have hstart : Inv ⟨mergedConfig, [], []⟩ :=
      ⟨[], configToMerge.descendants, RoseTree.positions_eq configToMerge⟩
    refine Exec.loop_avoids Inv (by simp) ?_ ?_ hstart
    · rintro state o state' o' ⟨before, rest, hsplit⟩ hrun
      cases rest with
      | nil =>
          rw [mergeStep_of_last hcounted.readable hsplit] at hrun
          cases hrun
      | cons next rest =>
          rw [mergeStep_of_next hcounted.readable hsplit] at hrun
          rcases Exec.bind_eq_ok.mp hrun with ⟨outcome, o₁, -, hafter⟩
          cases outcome with
          | stopped result config => cases hafter
          | handled config =>
              cases hafter
              exact ⟨before ++ [state.configToFind], rest, by simpa using hsplit⟩
    · rintro state ⟨before, rest, hsplit⟩
      cases rest with
      | nil =>
          rw [mergeStep_of_last hcounted.readable hsplit]
          exact Exec.avoids_pure _ _
      | cons next rest =>
          rw [mergeStep_of_next hcounted.readable hsplit]
          refine (mergeNode_avoids state.mergedConfig
            (hpaths next (mem_descendants_of_after hsplit))).bind fun outcome => ?_
          cases outcome with
          | handled config => exact Exec.avoids_pure _ _
          | stopped result config => exact Exec.avoids_pure _ _
  · exact Exec.avoids_pure _ _

end Samconf
