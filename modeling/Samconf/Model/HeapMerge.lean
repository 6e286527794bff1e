/-
# Merging in memory

`samconfConfigNext`, `samconfPathGetPath`, the copy functions, `samconfConfigDelete` and
`samconfConfigMergeConfig` once more, on nodes with their links. The traversal follows
the arrays of children, the path of a node is climbed along parent links, and a copy is
a cell of its own until it is linked or released.

A released cell stays in the list of cells. The addresses that `samconfConfigDelete`
frees are its second result, and a merge collects them in a ghost list. Nothing in the
code reads it.
-/

import Samconf.Model.HeapInsert
import Samconf.Model.Merge

namespace Samconf

open Foundation

namespace Heap

/-- Read a cell. -/
def read (heap : Heap) (config : Addr) : Except Fault Cell :=
  heap[config]?.elim (.error .nullConfig) .ok

/-! ## Traversal -/

/-- What `_findNextConfigAtLevel` returns and leaves behind its two pointers. -/
structure NextState where
  result : ConfigStatus
  found : Bool
  nextConfig : Option Addr

/-- The loop over the children: those that are left, the rounds left, and the call for
one of them. -/
def findNextInChildren (call : Addr → NextState → Except Fault NextState) :
    List Addr → ℕ → NextState → Except Fault NextState
  | _, 0, state => .ok state
  | [], _ + 1, _ => .error .outOfBounds
  | child :: children, n + 1, state => do
      let state ← call child state
      findNextInChildren call children n state

/-- `_findNextConfigAtLevel`. The number bounds the depth of the calls. -/
def findNextConfigAtLevel (heap : Heap) (configToFind : Addr) :
    ℕ → Addr → Bool → Option Addr → Except Fault NextState
  | 0, _, _, _ => .error .endless
  | n + 1, root, found, nextConfig =>
      if nextConfig.isSome then .ok ⟨.error, found, nextConfig⟩
      else if found then .ok ⟨.ok, found, some root⟩
      else do
        let found := decide (root = configToFind)
        let rootCell ← heap.read root
        if rootCell.children ≠ [] ∧ rootCell.data.childCount ≠ 0 then
          findNextInChildren (fun child state =>
              findNextConfigAtLevel heap configToFind n child state.found state.nextConfig)
            rootCell.children rootCell.data.childCount ⟨.notFound, found, nextConfig⟩
        else .ok ⟨.notFound, found, nextConfig⟩

/-- `samconfConfigNext` with `*nextConfig` NULL on entry. -/
def samconfConfigNext (root configToFind : Addr) (heap : Heap) :
    Except Fault (ConfigStatus × Option Addr) := do
  let state ← findNextConfigAtLevel heap configToFind heap.length root false none
  .ok (state.result, state.nextConfig)

/-! ## Paths -/

/-- The part of `samconfPathGetPath` from `parent = config->parent` on. The number bounds
the rounds. -/
def climbToRoot (heap : Heap) : ℕ → CString → Option Addr → Run (ConfigStatus × Option CString)
  | 0, _, _ => Exec.fault .endless
  | n + 1, newPath, parent => do
      let parent ← deref .nullParent parent
      let parentCell ← deref .nullConfig heap[parent]?
      let key ← deref .nullKey parentCell.data.key
      match ← strdup newPath with
      | none => pure (.error, none)
      | some existingPath =>
          if key = rootKey then
            match ← addToNewPath existingPath rootKey with
            | none => pure (.error, none)
            | some newPath => pure (.ok, some newPath)
          else
            match ← addToNewPath existingPath key with
            | none => pure (.error, none)
            | some newPath => climbToRoot heap n newPath parentCell.parent

/-- `samconfPathGetPath`. -/
def samconfPathGetPath (config : Addr) (heap : Heap) : Run (ConfigStatus × Option CString) := do
  let cell ← deref .nullConfig heap[config]?
  let key ← deref .nullKey cell.data.key
  if key = rootKey then
    let path ← strdup rootKey
    pure (.ok, path)
  else
    match ← addToNewPath [] key with
    | none => pure (.error, none)
    | some newPath => climbToRoot heap (heap.length + 1) newPath cell.parent

/-! ## Copying and releasing -/

/-- A function that reads one node and writes members of another one, in memory. -/
def copyWith (copy : Config → Config → Run (ConfigStatus × Config)) (source target : Addr)
    (heap : Heap) : Run (ConfigStatus × Heap) := do
  let sourceCell ← deref .nullConfig heap[source]?
  let targetCell ← deref .nullConfig heap[target]?
  let (status, node) ← copy (.node sourceCell.data []) (.node targetCell.data [])
  pure (status, heap.update target fun _ => node.label)

/-- `samconfCopyConfigValue`. -/
def samconfCopyConfigValue (source target : Addr) (heap : Heap) : Run (ConfigStatus × Heap) :=
  copyWith Samconf.samconfCopyConfigValue source target heap

/-- `samconfConfigCopyConfig`. -/
def samconfConfigCopyConfig (source target : Addr) (heap : Heap) : Run (ConfigStatus × Heap) :=
  copyWith Samconf.samconfConfigCopyConfig source target heap

/-- The loop over `childCount` entries of the array, with the call for one of them: the
status and the cells that were freed. -/
def deleteChildren (call : Addr → Except Fault (ConfigStatus × List Addr)) :
    ℕ → List Addr → Except Fault (ConfigStatus × List Addr)
  | 0, _ => .ok (.ok, [])
  | _ + 1, [] => .error .outOfBounds
  | n + 1, child :: children => do
      let (status, freed) ← call child
      let (rest, others) ← deleteChildren call n children
      .ok (if status = .error then .error else rest, freed ++ others)

/-- `samconfConfigDelete`: the status and the cells that were freed. The number bounds the
depth of the calls. -/
def deleteBelow (heap : Heap) : ℕ → Addr → Except Fault (ConfigStatus × List Addr)
  | 0, _ => .error .endless
  | n + 1, config => do
      let configCell ← heap.read config
      freeString configCell.data
      let (status, freed) ← deleteChildren (deleteBelow heap n) configCell.data.childCount
        configCell.children
      .ok (status, freed ++ [config])

/-- `samconfConfigDelete`. -/
def samconfConfigDelete (config : Addr) (heap : Heap) :
    Except Fault (ConfigStatus × List Addr) :=
  deleteBelow heap heap.length config

/-! ## Merging -/

/-- `samconfConfigGet` for a path that may be NULL. -/
def samconfConfigGetOfPointer (root : Addr) (path : Option CString) (heap : Heap) :
    Run (ConfigStatus × Option Addr) :=
  path.elim (pure (.error, none)) fun path => samconfConfigGet root path heap

/-- What became of one node of `configToMerge`, the memory, and the cells released. -/
inductive NodeOutcome
  | handled (heap : Heap) (released : List Addr)
  | stopped (result : ConfigStatus) (heap : Heap) (released : List Addr)

/-- The exits of the loop that follow the allocation of the node. -/
def abandon (node : Addr) (heap : Heap) : Run NodeOutcome := do
  let (result, released) ← Exec.lift (samconfConfigDelete node heap)
  pure (.stopped result heap released)

/-- One round of the loop for the node `nextConfig`. -/
def mergeNode (mergedConfig nextConfig : Addr) (heap : Heap) : Run NodeOutcome := do
  let (_, node, heap) ← samconfConfigNew heap
  match node with
  | none => pure (.stopped .error heap [])
  | some node =>
      let (status, heap) ← samconfConfigCopyConfig nextConfig node heap
      if status ≠ .ok then abandon node heap
      else
        let (status, path) ← samconfPathGetPath nextConfig heap
        if status ≠ .ok then abandon node heap
        else
          let (status, nodeInMerge) ← samconfConfigGetOfPointer mergedConfig path heap
          if status = .notFound then
            let (status, heap) ← samconfInsertAt mergedConfig (path.getD []) node heap
            if status ≠ .ok then abandon node heap
            else pure (.handled heap [])
          else if status = .ok then
            match nodeInMerge with
            -- samconfCopyConfigValue refuses a NULL target
            | none => abandon node heap
            | some nodeInMerge =>
                let (status, heap) ← samconfCopyConfigValue node nodeInMerge heap
                if status ≠ .ok then abandon node heap
                else
                  let (status, released) ← Exec.lift (samconfConfigDelete node heap)
                  if status = .ok then pure (.handled heap released)
                  else pure (.stopped .error heap released)
          else abandon node heap

/-- The loop variables of `samconfConfigMergeConfig`, with the memory and the cells
released. -/
structure MergeState where
  heap : Heap
  configToFind : Addr
  released : List Addr

/-- What a merge leaves behind. -/
structure MergeOutcome where
  result : ConfigStatus
  heap : Heap
  released : List Addr

/-- `_followsMergeRule`. -/
def followsMergeRule (mergedConfig configToMerge : Addr) (heap : Heap) : Except Fault Bool := do
  let mergedCell ← heap.read mergedConfig
  let mergeCell ← heap.read configToMerge
  .ok (Samconf.followsMergeRule (.node mergedCell.data []) (.node mergeCell.data []))

/-- `(*mergedConfig)->isSigned`, raised when the other one is signed. -/
def markSigned (mergedConfig configToMerge : Addr) (heap : Heap) : Except Fault Heap := do
  let mergedCell ← heap.read mergedConfig
  let mergeCell ← heap.read configToMerge
  .ok (if !mergedCell.data.isSigned && mergeCell.data.isSigned then
      heap.update mergedConfig fun d => { d with isSigned := mergeCell.data.isSigned }
    else heap)

/-- One round of the `do` loop: find the next node and merge it, or finish. -/
def mergeStep (mergedConfig configToMerge : Addr) (state : MergeState) :
    Run (MergeState ⊕ MergeOutcome) := do
  let (_, nextConfig) ← Exec.lift (samconfConfigNext configToMerge state.configToFind state.heap)
  match nextConfig with
  | some next => do
      match ← mergeNode mergedConfig next state.heap with
      | .handled heap released => pure (.inl ⟨heap, next, state.released ++ released⟩)
      | .stopped result heap released =>
          pure (.inr ⟨result, heap, state.released ++ released⟩)
  | none =>
      let heap ← Exec.lift (markSigned mergedConfig configToMerge state.heap)
      pure (.inr ⟨.ok, heap, state.released⟩)

/-- `samconfConfigMergeConfig` for a configuration that is not NULL. The loop gets one
round for each cell that there is at its beginning. -/
def samconfConfigMergeConfig (mergedConfig configToMerge : Addr) (heap : Heap) :
    Run MergeOutcome := do
  if ← Exec.lift (followsMergeRule mergedConfig configToMerge heap) then
    Exec.loop .endless (mergeStep mergedConfig configToMerge) heap.length
      ⟨heap, configToMerge, []⟩
  else pure ⟨.overwriteNotAllowed, heap, []⟩

/-- The loop of `samconfConfigMergeConfigs`. -/
def mergeConfigsFrom (mergedConfig : Addr) :
    ConfigStatus → List Addr → Heap → Run MergeOutcome
  | result, [], heap => pure ⟨result, heap, []⟩
  | _, config :: configs, heap => do
      let merged ← samconfConfigMergeConfig mergedConfig config heap
      if (← Exec.lift (followsMergeRule mergedConfig config merged.heap)) ∧ merged.result ≠ .ok
      then pure merged
      else
        let rest ← mergeConfigsFrom mergedConfig merged.result configs merged.heap
        pure ⟨rest.result, rest.heap, merged.released ++ rest.released⟩

/-- `samconfConfigMergeConfigs` into a tree that is there. -/
def samconfConfigMergeConfigs (mergedConfig : Addr) (configsToMerge : List Addr) (heap : Heap) :
    Run MergeOutcome :=
  mergeConfigsFrom mergedConfig .error configsToMerge heap

end Heap

end Samconf
