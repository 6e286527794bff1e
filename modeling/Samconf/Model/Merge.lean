/-
# Merging

`samconfConfigMergeConfig` and `samconfConfigMergeConfigs`. Besides the status and the
merged tree, a merge carries a ghost list: the positions of those nodes of
`configToMerge` whose copy `samconfInsertAt` accepted or whose value
`samconfCopyConfigValue` wrote. Nothing in the code reads it.
-/

import Samconf.Model.Lookup

namespace Samconf

open Foundation
open RoseTree (relabel)

/-- `_followsMergeRule`. -/
def followsMergeRule (mergedConfig configToMerge : Config) : Bool :=
  (mergedConfig.label.isSigned && configToMerge.label.isSigned) ||
    (!mergedConfig.label.isSigned && !configToMerge.label.isSigned) ||
    (!mergedConfig.label.isSigned && configToMerge.label.isSigned)

/-- The loop variables of `samconfConfigMergeConfig`, with the ghost list. -/
structure MergeState where
  mergedConfig : Config
  configToFind : List ℕ
  handled : List (List ℕ)

/-- What a merge leaves behind. -/
structure MergeOutcome where
  result : ConfigStatus
  mergedConfig : Config
  handled : List (List ℕ)

/-- What became of one node of `configToMerge`: it is in the merged tree, or the
loop is left with a value of `result`. -/
inductive NodeOutcome
  | handled (mergedConfig : Config)
  | stopped (result : ConfigStatus) (mergedConfig : Config)

/-- The exits of the loop that follow the allocation of the node: `result` is what
`samconfConfigDelete` returns for the copy. -/
def abandon (node mergedConfig : Config) : Run NodeOutcome := do
  let result ← Exec.lift (samconfConfigDelete node)
  pure (.stopped result mergedConfig)

/-- One round of the loop for the node at position `next` of `configToMerge`. -/
def mergeNode (configToMerge : Config) (next : List ℕ) (mergedConfig : Config) :
    Run NodeOutcome := do
  let (_, node) ← samconfConfigNew
  match node with
  | none => pure (.stopped .error mergedConfig)
  | some node =>
      let nextConfig ← deref .nullConfig (configToMerge.sub? next)
      let (status, node) ← samconfConfigCopyConfig nextConfig node
      if status ≠ .ok then abandon node mergedConfig
      else
        let (status, path) ← samconfPathGetPath configToMerge next
        if status ≠ .ok then abandon node mergedConfig
        else
          let (status, nodeInMerge) ← samconfConfigGet mergedConfig path
          if status = .notFound then
            let (status, mergedConfig) ← samconfInsertAt mergedConfig (path.getD []) node
            if status ≠ .ok then abandon node mergedConfig
            else pure (.handled mergedConfig)
          else if status = .ok then
            match nodeInMerge with
            -- samconfCopyConfigValue refuses a NULL target
            | none => abandon node mergedConfig
            | some position =>
                let target ← deref .nullConfig (mergedConfig.sub? position)
                let (status, target) ← samconfCopyConfigValue node target
                let mergedConfig := mergedConfig.modify (fun _ => target) position
                if status ≠ .ok then abandon node mergedConfig
                else
                  let status ← Exec.lift (samconfConfigDelete node)
                  if status = .ok then pure (.handled mergedConfig)
                  else pure (.stopped .error mergedConfig)
          else abandon node mergedConfig

/-- One round of the `do` loop: find the next node and merge it, or finish. -/
def mergeStep (configToMerge : Config) (state : MergeState) :
    Run (MergeState ⊕ MergeOutcome) := do
  let (_, nextConfig) ← Exec.lift (samconfConfigNext configToMerge state.configToFind)
  match nextConfig with
  | some next => do
      match ← mergeNode configToMerge next state.mergedConfig with
      | .handled mergedConfig => pure (.inl ⟨mergedConfig, next, state.handled ++ [next]⟩)
      | .stopped result mergedConfig => pure (.inr ⟨result, mergedConfig, state.handled⟩)
  | none =>
      let mergedConfig :=
        if !state.mergedConfig.label.isSigned && configToMerge.label.isSigned then
          relabel (fun d => { d with isSigned := configToMerge.label.isSigned })
            state.mergedConfig
        else state.mergedConfig
      pure (.inr ⟨.ok, mergedConfig, state.handled⟩)

/-- `samconfConfigMergeConfig` with its ghost list. The loop gets one round for each
node of `configToMerge`. -/
def mergeConfig (mergedConfig : Config) (configToMerge : Option Config) : Run MergeOutcome :=
  match configToMerge with
  | none => pure ⟨.error, mergedConfig, []⟩
  | some configToMerge =>
      if followsMergeRule mergedConfig configToMerge then
        Exec.loop .endless (mergeStep configToMerge) configToMerge.positions.length
          ⟨mergedConfig, [], []⟩
      else pure ⟨.overwriteNotAllowed, mergedConfig, []⟩

/-- `samconfConfigMergeConfig`: the status and the tree at `*mergedConfig`. -/
def samconfConfigMergeConfig (mergedConfig : Config) (configToMerge : Option Config) :
    Run (ConfigStatus × Config) := do
  let outcome ← mergeConfig mergedConfig configToMerge
  pure (outcome.result, outcome.mergedConfig)

/-- The loop of `samconfConfigMergeConfigs`: `result` is that of the last merge, and
a merge that failed although the rule still admits it ends the loop. -/
def mergeConfigsFrom : ConfigStatus → Config → List Config → Run (ConfigStatus × Config)
  | result, mergedConfig, [] => pure (result, mergedConfig)
  | _, mergedConfig, config :: configs => do
      let (result, mergedConfig) ← samconfConfigMergeConfig mergedConfig (some config)
      if followsMergeRule mergedConfig config ∧ result ≠ .ok then pure (result, mergedConfig)
      else mergeConfigsFrom result mergedConfig configs

/-- `samconfConfigMergeConfigs` for the pointer value `*mergedConfig`. The address
itself is not NULL, so no root is made, and a first merge reads through the
pointer. -/
def samconfConfigMergeConfigs (mergedConfig : Option Config) (configsToMerge : List Config) :
    Run (ConfigStatus × Option Config) :=
  match mergedConfig, configsToMerge with
  | none, [] => pure (.error, none)
  | none, _ :: _ => Exec.fault .nullConfig
  | some mergedConfig, configsToMerge => do
      let (result, mergedConfig) ← mergeConfigsFrom .error mergedConfig configsToMerge
      pure (result, some mergedConfig)

end Samconf
