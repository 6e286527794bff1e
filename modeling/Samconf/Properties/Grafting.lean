/-
# Merging as an operation on trees

What the merge makes of two trees is a recursion on both, so it has laws that do not
mention paths. Of a list of configurations it takes those that the rule lets through,
whatever the order of the others, and taking the same list again changes nothing. And
a configuration can be merged before or after the one it is merged into: grouping
makes no difference, but for the rule, which sees one flag for a group where it would
have seen two.
-/

import Samconf.Spec.Graft
import Samconf.Spec.Shape

namespace Samconf

open Foundation
open Exec (Yields)

section Merges

variable {mergedConfig configToMerge : Config} {configs : List Config}

/-- **The merge is a recursion on the two trees.** Without failing allocations an
admitted merge returns OK and leaves the tree that grafting leaves, with the flag
raised when the configuration is signed. -/
theorem samconfConfigMergeConfig_grafts (hsound : mergedConfig.Sound)
    (htagged : mergedConfig.Tagged) (hmerge : configToMerge.Mergeable)
    (hrule : followsMergeRule mergedConfig configToMerge = true) :
    (samconfConfigMergeConfig mergedConfig (some configToMerge)).Yields
      (.ok, (mergedConfig.grafted configToMerge).signedBy configToMerge.label.isSigned) := by
  rw [← Config.merged_eq mergedConfig hmerge.pathKeyed.keyed]
  exact samconfConfigMergeConfig_yields hmerge hsound htagged hrule

/-- A signed option goes onto a tree with an unsigned one. -/
theorem signed_option_grafts :
    (samconfConfigMergeConfig ((Json.oneOption ['a'] (.int 1)).loaded false)
      (some ((Json.oneOption ['b'] (.boolean true)).loaded true))).Yields
      (.ok, (((Json.oneOption ['a'] (.int 1)).loaded false).grafted
        ((Json.oneOption ['b'] (.boolean true)).loaded true)).signedBy true) :=
  samconfConfigMergeConfig_grafts (Json.sound_tree false (Json.oneOption ['a'] (.int 1)) _)
    (by decide) (by decide) (by decide)

/-- **What a list of configurations leaves.** `samconfConfigMergeConfigs` grafts the
unsigned configurations before the first signed one, unless the tree is signed, then
all signed ones, each in its place, and nothing else. -/
theorem samconfConfigMergeConfigs_grafts (hsound : mergedConfig.Sound)
    (htagged : mergedConfig.Tagged) (hmerge : ∀ c ∈ configs, c.Mergeable) :
    ∃ status, (samconfConfigMergeConfigs (some mergedConfig) configs).Yields
      (status, some (((letThrough (fun c => c.label.isSigned) mergedConfig.label.isSigned
        configs).foldl Config.grafted mergedConfig).signedBy
          (configs.any fun c => c.label.isSigned))) := by
  rw [← Config.foldl_stepByPath mergedConfig hmerge]
  exact samconfConfigMergeConfigs_yields_of_placeable hsound htagged
    fun c hc => (hmerge c hc).placeable

/-- One configuration of three is refused. -/
theorem one_refused_of_three :
    let unsigned := (Json.oneOption ['a'] (.int 1)).loaded false
    let signed := (Json.oneOption ['b'] (.int 2)).loaded true
    ∃ status, (samconfConfigMergeConfigs (some freshRoot) [unsigned, signed, unsigned]).Yields
      (status, some (([unsigned, signed].foldl Config.grafted freshRoot).signedBy true)) :=
  samconfConfigMergeConfigs_grafts intact_freshRoot.toSound (by decide) (by decide)

/-- **Merging again changes nothing.** When a list of configurations was merged without
failing allocations, merging the same list once more leaves the same tree, node by
node and in the same order. -/
theorem samconfConfigMergeConfigs_again (hsound : mergedConfig.Sound)
    (htagged : mergedConfig.Tagged) (hmerge : ∀ c ∈ configs, c.Mergeable) :
    ∃ status status' result,
      (samconfConfigMergeConfigs (some mergedConfig) configs).Yields (status, some result) ∧
      (samconfConfigMergeConfigs (some result) configs).Yields (status', some result) := by
  have hplaceable : ∀ c ∈ configs, c.Placeable := fun c hc => (hmerge c hc).placeable
  have hsound' : Config.Sound (configs.foldl Config.stepByPath mergedConfig) :=
    List.foldlRecOn configs Config.stepByPath hsound fun _ hconfig c hc =>
      hconfig.stepByPath (hplaceable c hc)
  have htagged' : Config.Tagged (configs.foldl Config.stepByPath mergedConfig) :=
    List.foldlRecOn configs Config.stepByPath htagged fun _ hconfig c hc =>
      Config.Tagged.stepByPath hconfig (hplaceable c hc)
  rcases samconfConfigMergeConfigs_yields_of_placeable hsound htagged hplaceable with
    ⟨status, hfirst⟩
  rcases samconfConfigMergeConfigs_yields_of_placeable hsound' htagged' hplaceable with
    ⟨status', hagain⟩
  rw [Config.foldl_stepByPath_again mergedConfig hmerge] at hagain
  exact ⟨status, status', _, hfirst, hagain⟩

theorem three_again :
    let unsigned := (Json.oneOption ['a'] (.int 1)).loaded false
    let signed := (Json.oneOption ['b'] (.int 2)).loaded true
    ∃ status status' result,
      (samconfConfigMergeConfigs (some freshRoot) [unsigned, signed, unsigned]).Yields
        (status, some result) ∧
      (samconfConfigMergeConfigs (some result) [unsigned, signed, unsigned]).Yields
        (status', some result) :=
  samconfConfigMergeConfigs_again intact_freshRoot.toSound (by decide) (by decide)

end Merges

/-! ## Grouping -/

section Grouped

variable {mergedConfig first second : Config}

/-- **Grouping.** Two configurations can be merged with each other first and the result
into the tree, instead of one after the other. The tree is the same, unless it is
signed, the first configuration is not and the second is. Then the rule refuses the
first one on its own, but lets it through in the group. -/
theorem samconfConfigMergeConfig_grouped (hsound : mergedConfig.Sound)
    (htagged : mergedConfig.Tagged) (hfirst : first.Mergeable) (hsecond : second.Mergeable) :
    ∃ group grouped between sequential : Config,
      (samconfConfigMergeConfig first (some second)).Yields (mergeStatus first second, group) ∧
      (samconfConfigMergeConfig mergedConfig (some group)).Yields
        (mergeStatus mergedConfig group, grouped) ∧
      (samconfConfigMergeConfig mergedConfig (some first)).Yields
        (mergeStatus mergedConfig first, between) ∧
      (samconfConfigMergeConfig between (some second)).Yields
        (mergeStatus between second, sequential) ∧
      (¬ (mergedConfig.label.isSigned = true ∧ first.label.isSigned = false ∧
          second.label.isSigned = true) → grouped = sequential) ∧
      (mergedConfig.label.isSigned = true → first.label.isSigned = false →
        second.label.isSigned = true →
          mergeStatus mergedConfig first = .overwriteNotAllowed ∧ between = mergedConfig ∧
          sequential = mergedConfig.grafted second ∧
          mergeStatus mergedConfig group = .ok ∧
          grouped = (mergedConfig.grafted first).grafted second) := by
  have hgroup := hfirst.placeable_stepByPath hsecond
  have hbetween := hsound.stepByPath hfirst.placeable
  have hbetweenTagged := htagged.stepByPath hfirst.placeable
  refine ⟨first.stepByPath second, mergedConfig.stepByPath (first.stepByPath second),
    mergedConfig.stepByPath first, (mergedConfig.stepByPath first).stepByPath second,
    samconfConfigMergeConfig_stepByPath hfirst.sound hfirst.tagged hsecond.placeable,
    samconfConfigMergeConfig_stepByPath hsound htagged hgroup,
    samconfConfigMergeConfig_stepByPath hsound htagged hfirst.placeable,
    samconfConfigMergeConfig_stepByPath hbetween hbetweenTagged hsecond.placeable,
    Config.stepByPath_stepByPath hfirst hsecond mergedConfig, ?_⟩
  intro hmerged hunsigned hsigned
  rcases Config.stepByPath_of_group hfirst hsecond hmerged hunsigned hsigned with
    ⟨hrefused, hlast, hwhole⟩
  refine ⟨by simp [mergeStatus, followsMergeRule, hmerged, hunsigned], hrefused, ?_, ?_, hwhole⟩
  · rw [hrefused, hlast]
  · have hflag := Config.isSigned_stepByPath first second
    simp [mergeStatus, followsMergeRule, hmerged, hflag, hsigned]

/-- An unsigned option under a top that is keyed `root`, as the environment is loaded, that
a signed one lets in. -/
theorem unsigned_option_let_in :
    let tree := (Json.oneOption ['c'] (.int 0)).loaded true
    let first : Config := .node ⟨some rootKey, false, .object, .zero, 1⟩
      [.node ⟨some ['a'], false, .int, .integer 1, 0⟩ []]
    let second := (Json.oneOption ['b'] (.int 2)).loaded true
    ∃ group grouped : Config,
      (samconfConfigMergeConfig first (some second)).Yields (.ok, group) ∧
      (samconfConfigMergeConfig tree (some group)).Yields (.ok, grouped) ∧
      grouped = (tree.grafted first).grafted second := by
  intro tree first second
  rcases @samconfConfigMergeConfig_grouped tree first second
      (Json.sound_tree true (Json.oneOption ['c'] (.int 0)) _) (by decide) (by decide)
      (by decide) with
    ⟨group, grouped, _, _, hgroup, hgrouped, -, -, -, hlet⟩
  rcases hlet rfl rfl rfl with ⟨-, -, -, hstatus, heq⟩
  rw [hstatus] at hgrouped
  exact ⟨group, grouped, hgroup, hgrouped, heq⟩

end Grouped

end Samconf
