/-
# Merging configurations one after the other

A merge is admitted or refused, and refusing it changes nothing. Without failing
allocations nothing else can happen to a configuration that can be merged at all, so
`samconfConfigMergeConfigs` and `samconfLoadAndMerge` both fold this one step over a
list of configurations, whatever they make of the statuses.
-/

import Samconf.Model.Load
import Samconf.Spec.Json
import Samconf.Spec.Merge

namespace Samconf

open Foundation
open Exec (Yields)

/-- The status of merging one configuration. -/
def mergeStatus (config configToMerge : Config) : ConfigStatus :=
  if followsMergeRule config configToMerge then .ok else .overwriteNotAllowed

namespace Config

/-- What merging one configuration does to the tree, whatever its keys are. -/
def stepByPath (config configToMerge : Config) : Config :=
  if followsMergeRule config configToMerge then config.mergedByPath configToMerge else config

variable {config configToMerge : Config}

theorem Sound.stepByPath (h : config.Sound) (hmerge : configToMerge.Placeable) :
    Sound (config.stepByPath configToMerge) := by
  rw [Config.stepByPath]
  split
  · exact h.mergedByPath hmerge.nodes
  · exact h

theorem Tagged.stepByPath (h : config.Tagged) (hmerge : configToMerge.Placeable) :
    Tagged (config.stepByPath configToMerge) := by
  rw [Config.stepByPath]
  split
  · exact Tagged.mergedByPath h hmerge.nodes
  · exact h

/-! ### The flag of the top -/

theorem isSigned_grow (leaf config : Config) (segments : List CString) :
    (leaf.grow config segments).label.isSigned = config.label.isSigned := by
  cases segments with
  | nil => rw [grow, RoseTree.grow_nil]
  | cons k ks =>
      rw [grow]
      cases h : RoseTree.childIdx? NodeData.key k config.children with
      | none =>
          rw [RoseTree.grow_cons_of_none h, RoseTree.label_addChild]
          rfl
      | some i => rw [RoseTree.grow_cons_of_some h, RoseTree.label_node]

/-- Writing an entry does not touch the flag of the top, not even over the top. -/
theorem isSigned_put (config : Config) (e : Entry) :
    (config.put e).label.isSigned = config.label.isSigned := by
  rw [put]
  cases config.resolve e.1 with
  | none => exact isSigned_grow _ config e.1
  | some p =>
      cases p with
      | nil => simp
      | cons i p => simp

/-- The flag is set when one of the two trees is signed. -/
theorem isSigned_mergedByPath (config configToMerge : Config) :
    (config.mergedByPath configToMerge).label.isSigned =
      (config.label.isSigned || configToMerge.label.isSigned) := by
  have hentries (es : List Entry) :
      (es.foldl put config).label.isSigned = config.label.isSigned := by
    induction es generalizing config with
    | nil => rfl
    | cons e es ih => rw [List.foldl_cons, ih, isSigned_put]
  rw [mergedByPath, markSigned, hentries]
  cases hconfig : config.label.isSigned <;>
    cases hmerged : configToMerge.label.isSigned <;> simp [hentries, hconfig]

/-- The rule refuses nothing that would raise the flag. -/
theorem isSigned_stepByPath (config configToMerge : Config) :
    (config.stepByPath configToMerge).label.isSigned =
      (config.label.isSigned || configToMerge.label.isSigned) := by
  rw [Config.stepByPath]
  cases h : followsMergeRule config configToMerge with
  | true => simp [isSigned_mergedByPath]
  | false =>
      rw [followsMergeRule_eq_false_iff] at h
      simp [h]

end Config

variable {config configToMerge : Config}

/-- One merge, admitted or refused. -/
theorem samconfConfigMergeConfig_stepByPath (hsound : config.Sound) (htagged : config.Tagged)
    (hmerge : configToMerge.Placeable) :
    (samconfConfigMergeConfig config (some configToMerge)).Yields
      (mergeStatus config configToMerge, config.stepByPath configToMerge) := by
  rw [mergeStatus, Config.stepByPath]
  cases hrule : followsMergeRule config configToMerge with
  | true => exact samconfConfigMergeConfig_yields_of_placeable hmerge hsound htagged hrule
  | false =>
      rw [samconfConfigMergeConfig, mergeConfig_of_not_rule hrule]
      exact Exec.yields_pure _

/-- What the rule refuses, it refuses afterwards as well, so the loop of
`samconfConfigMergeConfigs` goes on. -/
theorem mergeStatus_eq_ok_of_rule
    (h : followsMergeRule (config.stepByPath configToMerge) configToMerge = true) :
    mergeStatus config configToMerge = .ok := by
  cases hrule : followsMergeRule config configToMerge with
  | true => simp [mergeStatus, hrule]
  | false =>
      have hkept : config.stepByPath configToMerge = config := by simp [Config.stepByPath, hrule]
      rw [hkept, hrule] at h
      cases h

theorem mergeConfigsFrom_yields_of_placeable (hsound : config.Sound) (htagged : config.Tagged)
    (result : ConfigStatus) {configs : List Config} (hmerge : ∀ c ∈ configs, c.Placeable) :
    ∃ status, (mergeConfigsFrom result config configs).Yields
      (status, configs.foldl Config.stepByPath config) := by
  induction configs generalizing config result with
  | nil => exact ⟨result, Exec.yields_pure _⟩
  | cons configToMerge configs ih =>
      have hfirst := hmerge configToMerge List.mem_cons_self
      rcases ih (hsound.stepByPath hfirst) (htagged.stepByPath hfirst)
        (mergeStatus config configToMerge) (fun c hc => hmerge c (List.mem_cons_of_mem _ hc)) with
        ⟨status, hrest⟩
      refine ⟨status, ?_⟩
      rw [mergeConfigsFrom]
      apply (samconfConfigMergeConfig_stepByPath hsound htagged hfirst).bind
      have hgoes : ¬ (followsMergeRule (config.stepByPath configToMerge) configToMerge = true ∧
          mergeStatus config configToMerge ≠ .ok) :=
        fun h => h.2 (mergeStatus_eq_ok_of_rule h.1)
      simp only [hgoes, if_false]
      exact hrest

/-- `samconfConfigMergeConfigs` folds the step over its configurations. -/
theorem samconfConfigMergeConfigs_yields_of_placeable (hsound : config.Sound)
    (htagged : config.Tagged) {configs : List Config} (hmerge : ∀ c ∈ configs, c.Placeable) :
    ∃ status, (samconfConfigMergeConfigs (some config) configs).Yields
      (status, some (configs.foldl Config.stepByPath config)) := by
  rcases mergeConfigsFrom_yields_of_placeable hsound htagged .error hmerge with ⟨status, hyields⟩
  refine ⟨status, ?_⟩
  rw [samconfConfigMergeConfigs]
  apply hyields.bind
  exact Exec.yields_pure _

theorem mergeLocations_yields_of_placeable (hsound : config.Sound) (htagged : config.Tagged)
    (world : World) (status : ConfigStatus) {configs : List Config}
    (hmerge : ∀ c ∈ configs, c.Placeable) :
    ∃ status', (mergeLocations world (configs.map fun c => .config (some c)) status
      config).Yields (status', configs.foldl Config.stepByPath config) := by
  induction configs generalizing config status with
  | nil => exact ⟨status, Exec.yields_pure _⟩
  | cons configToMerge configs ih =>
      have hfirst := hmerge configToMerge List.mem_cons_self
      rcases ih (hsound.stepByPath hfirst) (htagged.stepByPath hfirst)
        (locationStatus status (mergeStatus config configToMerge))
        (fun c hc => hmerge c (List.mem_cons_of_mem _ hc)) with ⟨status', hrest⟩
      refine ⟨status', ?_⟩
      rw [List.map_cons, mergeLocations]
      apply (samconfConfigMergeConfig_stepByPath hsound htagged hfirst).bind
      exact hrest

/-- `samconfLoadAndMerge` does so when the configurations are its locations. -/
theorem samconfLoadAndMerge_yields_of_placeable (hsound : config.Sound) (htagged : config.Tagged)
    (world : World) {configs : List Config} (hmerge : ∀ c ∈ configs, c.Placeable) :
    ∃ status, (samconfLoadAndMerge world (configs.map fun c => .config (some c))
      (some config)).Yields (status, some (configs.foldl Config.stepByPath config)) := by
  rcases mergeLocations_yields_of_placeable hsound htagged world .notFound hmerge with
    ⟨status, hyields⟩
  refine ⟨status, ?_⟩
  rw [samconfLoadAndMerge]
  apply hyields.bind
  exact Exec.yields_pure _

/-- Whatever the document, the nodes of its tree can be copied. -/
theorem Json.copyable_loaded (json : Json) (isSigned : Bool) :
    (json.loaded isSigned).Copyable where
  toSound := sound_tree isSigned json (some configKey)
  tagged := tagged_tree isSigned json (some configKey)
  stringsSet := everywhere_tree_of_within fun sub key _ => stringSet_label isSigned sub key

/-- A document whose top level has no other key than `root` can be merged, however the
keys below are spelled. -/
theorem Json.placeable_loaded {json : Json} (h : ∀ m ∈ json.members, m.1 = rootKey)
    (isSigned : Bool) : (json.loaded isSigned).Placeable := by
  refine (copyable_loaded json isSigned).placeable (.inr fun c hc => ?_)
  rw [Json.loaded, Json.tree_eq, RoseTree.children_node] at hc
  obtain ⟨m, hm, rfl⟩ := List.mem_map.mp hc
  simp [h m hm]

end Samconf
