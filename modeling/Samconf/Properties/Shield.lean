/-
# Signed configurations shield what they are merged into

Merging a list of configurations one after the other is a ratchet on the flag of
the root: a merge that the rule refuses is that of an unsigned configuration into
a signed tree, and it changes nothing. So two lists that differ only in unsigned
configurations behind a signed one end in the same tree, and an attacker who
controls the unsigned files cannot change what a signed one has settled.
-/

import Samconf.Foundation.Ratchet
import Samconf.Properties.Overlay
import Samconf.Spec.Json
import Samconf.Spec.MergeList

namespace Samconf

open Foundation
open Exec (Yields Ensures Avoids)

/-- A configuration that can be merged. -/
abbrev MergeableConfig := { config : Config // config.Mergeable }

/-- Merge a list of configurations in order, recording for each merge the status
and the tree. -/
def mergeAll (mergedConfig : Config) : List Config → Run (List (ConfigStatus × Config))
  | [] => pure []
  | config :: configs => do
      let step ← samconfConfigMergeConfig mergedConfig (some config)
      let steps ← mergeAll step.2 configs
      pure (step :: steps)

/-- The tree that the first `i` merges leave, which the next one finds. -/
def treeAfter : Config → List (ConfigStatus × Config) → ℕ → Config
  | mergedConfig, _, 0 => mergedConfig
  | mergedConfig, [], _ + 1 => mergedConfig
  | _, step :: steps, i + 1 => treeAfter step.2 steps i

/-- What merging one configuration does to the tree. -/
def Config.step (config configToMerge : Config) : Config :=
  if followsMergeRule config configToMerge then config.merged configToMerge else config

/-- The flag of the root under merging. -/
def mergeRatchet : Ratchet Config MergeableConfig where
  step config configToMerge := config.step configToMerge.1
  high config := config.label.isSigned
  marked configToMerge := configToMerge.1.label.isSigned
  step_of_high config configToMerge hsigned hunsigned := by
    rw [Config.step, followsMergeRule_eq_false_iff.mpr ⟨hsigned, hunsigned⟩]
    rfl
  high_step config configToMerge := by
    rw [Config.step]
    cases hrule : followsMergeRule config configToMerge.1 with
    | true => exact Config.isSigned_merged configToMerge.2
    | false =>
        rcases followsMergeRule_eq_false_iff.mp hrule with ⟨hsigned, hunsigned⟩
        simp [hsigned]

variable {config : Config}

theorem Config.WellFormed.step (h : config.WellFormed) (configToMerge : MergeableConfig) :
    Config.WellFormed (config.step configToMerge.1) := by
  rw [Config.step]
  split
  · exact h.merged configToMerge.2
  · exact h

/-- Where no key holds a slash, the two readings of a merge are one. -/
theorem Config.stepByPath_eq (config : Config) (configToMerge : MergeableConfig) :
    config.stepByPath configToMerge.1 = config.step configToMerge.1 := by
  rw [Config.stepByPath, Config.step, configToMerge.2.mergedByPath_eq]

/-- One merge, admitted or refused. -/
theorem samconfConfigMergeConfig_step (h : config.WellFormed) (configToMerge : MergeableConfig) :
    (samconfConfigMergeConfig config (some configToMerge.1)).Yields
      (mergeStatus config configToMerge.1, config.step configToMerge.1) := by
  rw [← Config.stepByPath_eq]
  exact samconfConfigMergeConfig_stepByPath h.sound h.tagged configToMerge.2.placeable

/-! ## The three ways to merge a list -/

/-- The statuses and trees of merging a list. -/
def mergeSteps : Config → List MergeableConfig → List (ConfigStatus × Config)
  | _, [] => []
  | config, configToMerge :: configs =>
      (mergeStatus config configToMerge.1, config.step configToMerge.1) ::
        mergeSteps (config.step configToMerge.1) configs

theorem mergeAll_yields (h : config.WellFormed) (configs : List MergeableConfig) :
    (mergeAll config (configs.map Subtype.val)).Yields (mergeSteps config configs) := by
  induction configs generalizing config with
  | nil => exact Exec.yields_pure _
  | cons configToMerge configs ih =>
      apply (samconfConfigMergeConfig_step h configToMerge).bind
      apply (ih (h.step configToMerge)).bind
      exact Exec.yields_pure _

/-- The ratchet runs through the steps. -/
theorem run_mergeRatchet_eq (config : Config) (configs : List MergeableConfig) :
    mergeRatchet.run config configs =
      (configs.map Subtype.val).foldl Config.stepByPath config := by
  induction configs generalizing config with
  | nil => rfl
  | cons configToMerge configs ih =>
      rw [Ratchet.run_cons, ih, List.map_cons, List.foldl_cons, Config.stepByPath_eq]
      rfl

theorem placeable_of_mem {configs : List MergeableConfig} {c : Config}
    (hc : c ∈ configs.map Subtype.val) : c.Placeable := by
  obtain ⟨configToMerge, -, rfl⟩ := List.mem_map.mp hc
  exact configToMerge.2.placeable

theorem samconfConfigMergeConfigs_yields (h : config.WellFormed)
    (configs : List MergeableConfig) :
    ∃ status, (samconfConfigMergeConfigs (some config) (configs.map Subtype.val)).Yields
      (status, some (mergeRatchet.run config configs)) := by
  rw [run_mergeRatchet_eq]
  exact samconfConfigMergeConfigs_yields_of_placeable h.sound h.tagged fun c hc =>
    placeable_of_mem hc

theorem samconfLoadAndMerge_yields (h : config.WellFormed) (world : World)
    (configs : List MergeableConfig) :
    ∃ status, (samconfLoadAndMerge world (configs.map fun c => .config (some c.1))
      (some config)).Yields (status, some (mergeRatchet.run config configs)) := by
  have hyields := samconfLoadAndMerge_yields_of_placeable h.sound h.tagged world
    fun c (hc : c ∈ configs.map Subtype.val) => placeable_of_mem hc
  rwa [← run_mergeRatchet_eq, List.map_map] at hyields

/-! ## Two runs -/

/-- The tree after some merges is the state of the ratchet. -/
theorem treeAfter_mergeSteps (configs : List MergeableConfig) (i : ℕ) :
    treeAfter config (mergeSteps config configs) i =
      mergeRatchet.run config (configs.take i) := by
  induction configs generalizing config i with
  | nil => cases i <;> simp [mergeSteps, treeAfter]
  | cons configToMerge configs ih =>
      cases i with
      | zero => rfl
      | succ i =>
          rw [List.take_succ_cons, Ratchet.run_cons, mergeSteps, treeAfter, ih]
          rfl

/-- What a list of merges records at an index. -/
theorem getElem?_mergeSteps {configs : List MergeableConfig} {i : ℕ}
    {configToMerge : MergeableConfig} (hi : configs[i]? = some configToMerge) :
    (mergeSteps config configs)[i]? =
      some (mergeStatus (mergeRatchet.run config (configs.take i)) configToMerge.1,
        (mergeRatchet.run config (configs.take i)).step configToMerge.1) := by
  induction configs generalizing config i with
  | nil => cases hi
  | cons first configs ih =>
      cases i with
      | zero =>
          obtain rfl : first = configToMerge := by simpa using hi
          rfl
      | succ i =>
          rw [mergeSteps, List.getElem?_cons_succ, ih (by simpa using hi)]
          rfl

/-- What shielding means for one run: unsigned configurations behind a signed one
are refused and change nothing, and the flag of the root never goes back. -/
structure ShieldedRun (mergedConfig : Config) (configs : List MergeableConfig)
    (steps : List (ConfigStatus × Config)) : Prop where
  refused : ∀ i configToMerge, configs[i]? = some configToMerge →
    configToMerge.1.label.isSigned = false → mergeRatchet.Shielded mergedConfig configs i →
    steps[i]? = some (.overwriteNotAllowed, treeAfter mergedConfig steps i)
  monotone : ∀ i j, i ≤ j → (treeAfter mergedConfig steps i).label.isSigned = true →
    (treeAfter mergedConfig steps j).label.isSigned = true

theorem shieldedRun_mergeSteps (config : Config) (configs : List MergeableConfig) :
    ShieldedRun config configs (mergeSteps config configs) where
  refused i configToMerge hi hunsigned hshielded := by
    have hsigned := Ratchet.high_take_of_shielded hshielded
    have hrule := followsMergeRule_eq_false_iff.mpr ⟨hsigned, hunsigned⟩
    rw [getElem?_mergeSteps hi, treeAfter_mergeSteps, mergeStatus, Config.step, hrule]
    rfl
  monotone i j hij hsigned := by
    rw [treeAfter_mergeSteps] at hsigned ⊢
    have hhigh : mergeRatchet.high (mergeRatchet.run config (configs.take i)) = true := hsigned
    exact Ratchet.high_take_mono hij hhigh

/-- The tree at the end of a list of merges. -/
theorem treeAfter_all (configs : List MergeableConfig) :
    treeAfter config (mergeSteps config configs) configs.length =
      mergeRatchet.run config configs := by
  rw [treeAfter_mergeSteps, List.take_length]

/-- **Signed configurations shield everything merged before them.** Two lists of
configurations that agree, except for unsigned ones that come after the root was
signed, are merged into the same tree, by folding as by `samconfConfigMergeConfigs`
and by `samconfLoadAndMerge`. In both runs every such configuration is refused
without a change, and the flag of the root never goes back. -/
theorem signed_configurations_shield {mergedConfig : Config}
    {configs configs' : List MergeableConfig} (hwell : mergedConfig.WellFormed)
    (hagree : mergeRatchet.AgreeUnlessShielded mergedConfig configs configs') :
    ∃ result steps steps',
      (mergeAll mergedConfig (configs.map Subtype.val)).Yields steps ∧
      (mergeAll mergedConfig (configs'.map Subtype.val)).Yields steps' ∧
      treeAfter mergedConfig steps configs.length = result ∧
      treeAfter mergedConfig steps' configs'.length = result ∧
      ShieldedRun mergedConfig configs steps ∧ ShieldedRun mergedConfig configs' steps' ∧
      (∀ merged ∈ [configs, configs'], ∃ status,
        (samconfConfigMergeConfigs (some mergedConfig) (merged.map Subtype.val)).Yields
          (status, some result)) ∧
      ∀ world : World, ∀ merged ∈ [configs, configs'], ∃ status,
        (samconfLoadAndMerge world (merged.map fun c => .config (some c.1))
          (some mergedConfig)).Yields (status, some result) := by
  have hsame := Ratchet.run_eq_of_agree hagree
  refine ⟨mergeRatchet.run mergedConfig configs, mergeSteps mergedConfig configs,
    mergeSteps mergedConfig configs', mergeAll_yields hwell configs,
    mergeAll_yields hwell configs', treeAfter_all configs, ?_,
    shieldedRun_mergeSteps mergedConfig configs, shieldedRun_mergeSteps mergedConfig configs',
    ?_, ?_⟩
  · rw [treeAfter_all, hsame]
  · intro merged hmerged
    rcases List.mem_pair.mp hmerged with rfl | rfl
    · exact samconfConfigMergeConfigs_yields hwell merged
    · rw [hsame]
      exact samconfConfigMergeConfigs_yields hwell merged
  · intro world merged hmerged
    rcases List.mem_pair.mp hmerged with rfl | rfl
    · exact samconfLoadAndMerge_yields hwell world merged
    · rw [hsame]
      exact samconfLoadAndMerge_yields hwell world merged

/-- A signed option shields the tree from either of two unsigned ones. -/
theorem signed_option_shields :
    let unsigned (key : CString) (n : ℤ) := (Json.oneOption key (.int n)).loaded false
    let signed := (Json.oneOption ['a'] (.int 2)).loaded true
    ∃ result, ∀ other ∈ [unsigned ['a'] 3, unsigned ['b'] 4], ∃ status,
      (samconfConfigMergeConfigs (some (unsigned ['a'] 1)) [signed, other]).Yields
        (status, some result) := by
  let merged (isSigned : Bool) (key : CString) (n : ℤ) :=
    (Json.oneOption key (.int n)).loaded isSigned
  have hagree : mergeRatchet.AgreeUnlessShielded (merged false ['a'] 1)
      [⟨merged true ['a'] 2, by decide⟩, ⟨merged false ['a'] 3, by decide⟩]
      [⟨merged true ['a'] 2, by decide⟩, ⟨merged false ['b'] 4, by decide⟩] := by
    refine ⟨rfl, fun i x y hx hy => ?_⟩
    match i with
    | 0 =>
        cases hx
        cases hy
        exact .inl rfl
    | 1 =>
        cases hx
        cases hy
        exact .inr ⟨rfl, rfl, .inr ⟨0, _, Nat.zero_lt_one, rfl, rfl⟩⟩
  rcases signed_configurations_shield (by decide) hagree with
    ⟨result, -, -, -, -, -, -, -, -, hmerges, -⟩
  refine ⟨result, fun other hother => ?_⟩
  rcases List.mem_pair.mp hother with rfl | rfl
  · exact hmerges _ List.mem_cons_self
  · exact hmerges _ (List.mem_cons_of_mem _ List.mem_cons_self)

end Samconf
