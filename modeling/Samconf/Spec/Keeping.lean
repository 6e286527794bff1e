/-
# The functions that add children, with a stop

`samconfConfigAdd` overwrites the array of the parent with what the reallocation returns,
before it looks at it. Where the reallocation is refused to a node that has children, these
are lost, while their count stays. Here the functions that add children are taken once more
with a stop there; nothing else of their runs changes.
-/

import Samconf.Foundation.Stopping
import Samconf.Model.Json
import Samconf.Model.Merge
import Samconf.Spec.Growth

namespace Samconf

open Foundation
open RoseTree (relabel)

namespace Keeping

/-- `samconfConfigAdd`. -/
def samconfConfigAdd (parent child : Config) : OptionT Run (ConfigStatus × Config) := do
  let (status, parent') ← Samconf.samconfConfigAdd parent child
  if status ≠ .ok ∧ parent.children ≠ [] then failure else pure (status, parent')

/-- The loop of `samconfInsertAt`. -/
def insertSegments (config : Config) :
    List CString → List CString → Config → List ℕ → ConfigStatus →
      OptionT Run (ConfigStatus × Config)
  | _, [], root, _, result => pure (result, root)
  | passed, segment :: rest, root, parent, _ => do
      match ← liftM (samconfPathGetPathUntil (passed ++ segment :: rest) passed.length) with
      | none => insertSegments config (passed ++ [segment]) rest root parent .error
      | some pathToToken =>
          let (result, existingNode) ← samconfConfigGet root (some pathToToken)
          if result = .ok then
            if rest = [] then pure (result, root)
            else
              let existingNode ← liftM (deref .unset existingNode)
              insertSegments config (passed ++ [segment]) rest root existingNode result
          else if result = .error then pure (result, root)
          else
            let (result, node) ← makeSegment config segment (decide (rest = []))
            match node with
            | none => pure (result, root)
            | some node =>
                let parentNode ← liftM (deref .nullConfig (root.sub? parent))
                let (result, parentNode') ← samconfConfigAdd parentNode node
                let root := root.modify (fun _ => parentNode') parent
                if result = .ok then
                  insertSegments config (passed ++ [segment]) rest root
                    (parent ++ [parentNode.children.length]) result
                else pure (result, root)

/-- `samconfInsertAt`. -/
def samconfInsertAt (root : Config) (path : CString) (config : Config) :
    OptionT Run (ConfigStatus × Config) := do
  let (result, patharray) ← samconfPathCreateArray path
  if patharray = [] then pure (.error, root)
  else if result = .ok then insertSegments config [] patharray root [] result
  else pure (result, root)

/-- The common body of the `samconfCreate*At` functions. -/
def createAt (set : Config → Run (ConfigStatus × Config)) (root : Config) (path : CString) :
    OptionT Run (ConfigStatus × Config) := do
  let (result, config) ← samconfConfigNew
  match config with
  | none => pure (result, root)
  | some config =>
      match ← liftM (strdup path) with
      | none => pure (result, root)
      | some copyPath =>
          match ← liftM (strdup (basename copyPath)) with
          | none => pure (result, root)
          | some key =>
              let (result, config) ← set (relabel (fun d => { d with key := some key }) config)
              if result = .ok then samconfInsertAt root path config else pure (result, root)

/-- A call of one of them. -/
def create (strtod : CString → Double × CString) (root : Config) :
    Creation → OptionT Run (ConfigStatus × Config)
  | .int path value => createAt (fun config => samconfConfigSetInt config value) root path
  | .real path value => createAt (fun config => samconfConfigSetReal config value) root path
  | .boolean path value => createAt (fun config => samconfConfigSetBool config value) root path
  | .string path value =>
      match value with
      | none => pure (.error, root)
      | some value =>
          createAt (fun config => samconfConfigSetString config (some value)) root path
  | .fromString path value =>
      match value with
      | none => pure (.error, root)
      | some value =>
          createAt (fun config => samconfConfigSetValueFromString strtod config (some value)) root
            path

/-- One round of the loop of `samconfConfigMergeConfig` for a node. -/
def mergeNode (configToMerge : Config) (next : List ℕ) (mergedConfig : Config) :
    OptionT Run NodeOutcome := do
  let (_, node) ← samconfConfigNew
  match node with
  | none => pure (.stopped .error mergedConfig)
  | some node =>
      let nextConfig ← liftM (deref .nullConfig (configToMerge.sub? next))
      let (status, node) ← samconfConfigCopyConfig nextConfig node
      if status ≠ .ok then abandon node mergedConfig
      else
        let (status, path) ← samconfPathGetPath configToMerge next
        if status ≠ .ok then abandon node mergedConfig
        else
          let (status, nodeInMerge) ← samconfConfigGet mergedConfig path
          if status = .notFound then
            let (status, mergedConfig) ← samconfInsertAt mergedConfig (path.getD []) node
            if status ≠ .ok then abandon node mergedConfig
            else pure (.handled mergedConfig)
          else if status = .ok then
            match nodeInMerge with
            | none => abandon node mergedConfig
            | some position =>
                let target ← liftM (deref .nullConfig (mergedConfig.sub? position))
                let (status, target) ← samconfCopyConfigValue node target
                let mergedConfig := mergedConfig.modify (fun _ => target) position
                if status ≠ .ok then abandon node mergedConfig
                else
                  let status ← liftM (Exec.lift (samconfConfigDelete node))
                  if status = .ok then pure (.handled mergedConfig)
                  else pure (.stopped .error mergedConfig)
          else abandon node mergedConfig

/-- One round of that loop. -/
def mergeStep (configToMerge : Config) (state : MergeState) :
    OptionT Run (MergeState ⊕ MergeOutcome) := do
  let (_, nextConfig) ←
    liftM (Exec.lift (samconfConfigNext configToMerge state.configToFind))
  match nextConfig with
  | some next => do
      match ← mergeNode configToMerge next state.mergedConfig with
      | .handled mergedConfig => pure (.inl ⟨mergedConfig, next, state.handled ++ [next]⟩)
      | .stopped result mergedConfig => pure (.inr ⟨result, mergedConfig, state.handled⟩)
  | none =>
      let mergedConfig :=
        if !state.mergedConfig.label.isSigned && configToMerge.label.isSigned then
          relabel (fun d => { d with isSigned := configToMerge.label.isSigned })
            state.mergedConfig
        else state.mergedConfig
      pure (.inr ⟨.ok, mergedConfig, state.handled⟩)

/-- `samconfConfigMergeConfig`. -/
def samconfConfigMergeConfig (mergedConfig : Config) (configToMerge : Option Config) :
    OptionT Run (ConfigStatus × Config) :=
  match configToMerge with
  | none => pure (.error, mergedConfig)
  | some configToMerge => do
      if followsMergeRule mergedConfig configToMerge then
        let outcome ← Exec.stoppingLoop .endless (mergeStep configToMerge)
          configToMerge.positions.length ⟨mergedConfig, [], []⟩
        pure (outcome.result, outcome.mergedConfig)
      else pure (.overwriteNotAllowed, mergedConfig)

mutual

/-- `_transform_json_to_config`. -/
def transformJsonToConfig (isSigned : Bool) :
    Json → Config → OptionT Run (ConfigStatus × Config)
  | .object entries, config =>
      transformEntries isSigned entries
        (relabel (fun d => { d with isSigned := isSigned, type := .object }) config)
  | .array elements, config =>
      transformElements isSigned 0 elements
        (relabel (fun d => { d with isSigned := isSigned, type := .array }) config)
  | .string value, config =>
      samconfConfigSetString (relabel (fun d => { d with isSigned := isSigned }) config)
        (some (cutAtNul value))
  | .int value, config =>
      samconfConfigSetInt (relabel (fun d => { d with isSigned := isSigned }) config)
        (jsonGetInt value)
  | .boolean value, config =>
      samconfConfigSetBool (relabel (fun d => { d with isSigned := isSigned }) config) value
  | .double value, config =>
      samconfConfigSetReal (relabel (fun d => { d with isSigned := isSigned }) config) value
  | .null, config => pure (.ok, relabel (fun d => { d with isSigned := isSigned }) config)

/-- The loop over the members of an object. -/
def transformEntries (isSigned : Bool) :
    List (CString × Json) → Config → OptionT Run (ConfigStatus × Config)
  | [], config => pure (.ok, config)
  | (key, newJobj) :: entries, config =>
      if newJobj.isNull then pure (.parseError, config)
      else do
        let (result, subconfig) ← samconfConfigNew
        match subconfig with
        | none => pure (result, config)
        | some subconfig =>
            let key ← liftM (strdup key)
            let (result, subconfig) ← transformJsonToConfig isSigned newJobj
              (relabel (fun d => { d with key := key }) subconfig)
            if result ≠ .ok then dropChild subconfig result config
            else
              let (result, config) ← samconfConfigAdd config subconfig
              if result ≠ .ok then dropChild subconfig result config
              else transformEntries isSigned entries config

/-- The loop over the elements of an array from an index on. -/
def transformElements (isSigned : Bool) :
    ℕ → List Json → Config → OptionT Run (ConfigStatus × Config)
  | _, [], config => pure (.ok, config)
  | idx, newJobj :: elements, config =>
      if newJobj.isNull then pure (.parseError, config)
      else do
        let (result, subconfig) ← samconfConfigNew
        match subconfig with
        | none => pure (result, config)
        | some subconfig =>
            let (result, subconfig) ← transformJsonToConfig isSigned newJobj subconfig
            if result ≠ .ok then dropChild subconfig result config
            else
              let position := config.children.length
              let (result, config) ← samconfConfigAdd config subconfig
              if result ≠ .ok then dropChild subconfig result config
              else
                let key ← liftM (Exec.allocFor (indexKey idx) : Run _)
                let key ← liftM (deref .nullString key)
                transformElements isSigned (idx + 1) elements
                  (config.modify (relabel fun d => { d with key := some key }) [position])

end

/-- `samconfJsonBackendLoad`. -/
def samconfJsonBackendLoad (backendHandle : Json) (isSigned : Bool) :
    OptionT Run (ConfigStatus × Option Config) := do
  let (result, config) ← samconfConfigNew
  match config with
  | none => pure (result, none)
  | some config =>
      let key ← liftM (strdup "config".toList)
      let (result, config) ← transformJsonToConfig isSigned backendHandle
        (relabel (fun d => { d with type := .object, key := key }) config)
      pure (result, some config)

end Keeping

end Samconf
