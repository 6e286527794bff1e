/-
# Nodes in memory

The load of a document once more, now with the links between the nodes. A node is
a cell at an address: the members of `samconfConfig_t`, the parent link, and the
array of children as the addresses in it. Elsewhere a pointer to a node is the
node's position in its tree, which leaves no room for a parent link to be wrong;
here `samconfConfigAdd` has to set it.

Setters touch no links, so they are those of single nodes. The release of a child
that was not linked touches no other node and its answer is not used, so it does
not show here.
-/

import Samconf.Model.Json

namespace Samconf

open Foundation

/-- The address of a node. -/
abbrev Addr := ℕ

/-- A `samconfConfig_t` with its links. -/
structure Cell where
  data : NodeData
  parent : Option Addr
  children : List Addr

/-- The nodes allocated so far, by address. -/
abbrev Heap := List Cell

namespace Heap

/-- Write members of a node. -/
def update (heap : Heap) (config : Addr) (f : NodeData → NodeData) : Heap :=
  heap.modify config fun cell => { cell with data := f cell.data }

/-- `samconfConfigNew`. -/
def samconfConfigNew (heap : Heap) : Run (ConfigStatus × Option Addr × Heap) := do
  if ← Exec.alloc then pure (.ok, some heap.length, heap ++ [⟨NodeData.init, none, []⟩])
  else pure (.error, none, heap)

/-- `samconfConfigAdd`: the array and the count of the parent, then the link of the
child. -/
def samconfConfigAdd (parent child : Addr) (heap : Heap) : Run (ConfigStatus × Heap) := do
  if ← Exec.alloc then
    let cell ← deref .nullConfig heap[parent]?
    if cell.data.childCount = cell.children.length then
      let heap := heap.modify parent fun cell =>
        { cell with data := cell.data.bump, children := cell.children ++ [child] }
      pure (.ok, heap.modify child fun cell => { cell with parent := some parent })
    else Exec.fault .unset
  else pure (.error, heap.modify parent fun cell => { cell with children := [] })

/-- One of the setters, at a node in memory. -/
def setWith (set : Config → Run (ConfigStatus × Config)) (config : Addr) (heap : Heap) :
    Run (ConfigStatus × Heap) := do
  let cell ← deref .nullConfig heap[config]?
  let (status, node) ← set (.node cell.data [])
  pure (status, heap.update config fun _ => node.label)

mutual

/-- `_transform_json_to_config`. -/
def transformJsonToConfig (isSigned : Bool) : Json → Addr → Heap → Run (ConfigStatus × Heap)
  | .object entries, config, heap =>
      transformEntries isSigned entries config
        (heap.update config fun d => { d with isSigned := isSigned, type := .object })
  | .array elements, config, heap =>
      transformElements isSigned 0 elements config
        (heap.update config fun d => { d with isSigned := isSigned, type := .array })
  | .string value, config, heap =>
      setWith (fun node => samconfConfigSetString node (some (cutAtNul value))) config
        (heap.update config fun d => { d with isSigned := isSigned })
  | .int value, config, heap =>
      setWith (fun node => samconfConfigSetInt node (jsonGetInt value)) config
        (heap.update config fun d => { d with isSigned := isSigned })
  | .boolean value, config, heap =>
      setWith (fun node => samconfConfigSetBool node value) config
        (heap.update config fun d => { d with isSigned := isSigned })
  | .double value, config, heap =>
      setWith (fun node => samconfConfigSetReal node value) config
        (heap.update config fun d => { d with isSigned := isSigned })
  | .null, config, heap =>
      pure (.ok, heap.update config fun d => { d with isSigned := isSigned })

/-- The loop over the members of an object. -/
def transformEntries (isSigned : Bool) :
    List (CString × Json) → Addr → Heap → Run (ConfigStatus × Heap)
  | [], _, heap => pure (.ok, heap)
  | (key, newJobj) :: entries, config, heap =>
      if newJobj.isNull then pure (.parseError, heap)
      else do
        let (result, subconfig, heap) ← samconfConfigNew heap
        match subconfig with
        | none => pure (result, heap)
        | some subconfig =>
            let key ← strdup key
            let (result, heap) ← transformJsonToConfig isSigned newJobj subconfig
              (heap.update subconfig fun d => { d with key := key })
            if result ≠ .ok then pure (result, heap)
            else
              let (result, heap) ← samconfConfigAdd config subconfig heap
              if result ≠ .ok then pure (result, heap)
              else transformEntries isSigned entries config heap

/-- The loop over the elements of an array from index `idx` on. -/
def transformElements (isSigned : Bool) :
    ℕ → List Json → Addr → Heap → Run (ConfigStatus × Heap)
  | _, [], _, heap => pure (.ok, heap)
  | idx, newJobj :: elements, config, heap =>
      if newJobj.isNull then pure (.parseError, heap)
      else do
        let (result, subconfig, heap) ← samconfConfigNew heap
        match subconfig with
        | none => pure (result, heap)
        | some subconfig =>
            let (result, heap) ← transformJsonToConfig isSigned newJobj subconfig heap
            if result ≠ .ok then pure (result, heap)
            else
              let (result, heap) ← samconfConfigAdd config subconfig heap
              if result ≠ .ok then pure (result, heap)
              else
                let key ← deref .nullString (← Exec.allocFor (indexKey idx))
                transformElements isSigned (idx + 1) elements config
                  (heap.update subconfig fun d => { d with key := some key })

end

/-- `samconfJsonBackendLoad`. -/
def samconfJsonBackendLoad (backendHandle : Json) (isSigned : Bool) (heap : Heap) :
    Run (ConfigStatus × Option Addr × Heap) := do
  let (result, config, heap) ← samconfConfigNew heap
  match config with
  | none => pure (result, none, heap)
  | some config =>
      let key ← strdup "config".toList
      let (result, heap) ← transformJsonToConfig isSigned backendHandle config
        (heap.update config fun d => { d with type := .object, key := key })
      pure (result, some config, heap)

end Heap

end Samconf
