/-
# Insertion in memory

`samconfConfigGet` and `samconfInsertAt` once more, on nodes with their links. A node
is found or made at an address, the lookup follows the arrays of children, and the
links are those that `samconfConfigAdd` sets.
-/

import Samconf.Model.Heap
import Samconf.Model.Lookup

namespace Samconf

open Foundation

namespace Heap

/-! ## Lookup -/

/-- Where the inner loop of `samconfConfigGet` stops. -/
inductive Scan
  /-- At a child with the segment's key. -/
  | found (node : Addr)
  /-- At a parent whose `children` is NULL. -/
  | childless
  /-- With `childItr == childCount`. -/
  | exhausted

/-- The inner loop of `samconfConfigGet`, `childCount - childItr` rounds before its
end. -/
def scanChildren (heap : Heap) (parent : Addr) (segment : CString) : ℕ → ℕ → Run Scan
  | 0, _ => pure .exhausted
  | n + 1, childItr => do
      let parentCell ← deref .nullConfig heap[parent]?
      if parentCell.children = [] then pure .childless
      else
        let node ← deref .outOfBounds parentCell.children[childItr]?
        let cell ← deref .nullConfig heap[node]?
        let key ← deref .nullKey cell.data.key
        if key = segment then pure (.found node)
        else scanChildren heap parent segment n (childItr + 1)

/-- The outer loop of `samconfConfigGet`. -/
def getSegments (heap : Heap) :
    Addr → ℕ → ConfigStatus → List CString → Run (ConfigStatus × Option Addr)
  | _, _, status, [] => pure (status, none)
  | parent, childCount, status, segment :: rest => do
      match ← scanChildren heap parent segment childCount 0 with
      | .found node =>
          if rest = [] then pure (.ok, some node)
          else
            let cell ← deref .nullConfig heap[node]?
            if cell.children ≠ [] then getSegments heap node cell.data.childCount status rest
            else getSegments heap node childCount status rest
      | .childless => getSegments heap parent childCount .notFound rest
      | .exhausted =>
          if childCount ≠ 0 then pure (.notFound, none)
          else getSegments heap parent childCount status rest

/-- `samconfConfigGet` for a path that is not NULL. -/
def samconfConfigGet (root : Addr) (path : CString) (heap : Heap) :
    Run (ConfigStatus × Option Addr) := do
  let cell ← deref .nullConfig heap[root]?
  if cell.children = [] ∨ cell.data.childCount = 0 then pure (.notFound, none)
  else
    let (status, patharray) ← samconfPathCreateArray path
    if status = .ok then getSegments heap root cell.data.childCount .ok patharray
    else pure (status, none)

/-! ## Insertion -/

/-- The node that `samconfInsertAt` adds for one segment. -/
def makeSegment (config : Addr) (segment : CString) (isLast : Bool) (heap : Heap) :
    Run (ConfigStatus × Option Addr × Heap) := do
  if isLast then pure (.ok, some config, heap)
  else
    let (result, node, heap) ← samconfConfigNew heap
    match node with
    | none => pure (result, none, heap)
    | some node =>
        let key ← strdup segment
        pure (result, some node, heap.update node fun d => { d with key := key, type := .object })

/-- The loop of `samconfInsertAt`: the segments it has passed, those ahead, the nodes,
`parent`, and `result`. -/
def insertSegments (config root : Addr) :
    List CString → List CString → Heap → Addr → ConfigStatus → Run (ConfigStatus × Heap)
  | _, [], heap, _, result => pure (result, heap)
  | passed, segment :: rest, heap, parent, _ => do
      match ← samconfPathGetPathUntil (passed ++ segment :: rest) passed.length with
      | none => insertSegments config root (passed ++ [segment]) rest heap parent .error
      | some pathToToken =>
          let (result, existingNode) ← samconfConfigGet root pathToToken heap
          if result = .ok then
            if rest = [] then pure (result, heap)
            else
              let existingNode ← deref .unset existingNode
              insertSegments config root (passed ++ [segment]) rest heap existingNode result
          else if result = .error then pure (result, heap)
          else
            let (result, node, heap) ← makeSegment config segment (decide (rest = [])) heap
            match node with
            | none => pure (result, heap)
            | some node =>
                let (result, heap) ← samconfConfigAdd parent node heap
                if result = .ok then
                  insertSegments config root (passed ++ [segment]) rest heap node result
                else pure (result, heap)

/-- `samconfInsertAt`: the status and the nodes. -/
def samconfInsertAt (root : Addr) (path : CString) (config : Addr) (heap : Heap) :
    Run (ConfigStatus × Heap) := do
  let (result, patharray) ← samconfPathCreateArray path
  if patharray = [] then pure (.error, heap)
  else if result = .ok then insertSegments config root [] patharray heap root result
  else pure (result, heap)

end Heap

end Samconf
