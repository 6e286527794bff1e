/-
# Lookup, traversal and insertion

`samconfConfigGet`, `samconfConfigNext`, `samconfInsertAt` and the functions that
create a node at a path. Output parameters that a call may leave unwritten are
options.
-/

import Samconf.Model.Node
import Samconf.Model.Path

namespace Samconf

open Foundation
open RoseTree (relabel addChild)

/-! ## Lookup -/

/-- Where the inner loop of `samconfConfigGet` stops. -/
inductive Scan
  /-- At a child with the segment's key. -/
  | found (childItr : ℕ) (node : Config)
  /-- At a parent whose `children` is NULL. -/
  | childless
  /-- With `childItr == childCount`. -/
  | exhausted

/-- The inner loop of `samconfConfigGet`, `childCount - childItr` rounds before its
end. -/
def scanChildren (parent : Config) (segment : CString) : ℕ → ℕ → Run Scan
  | 0, _ => pure .exhausted
  | n + 1, childItr =>
      if parent.children = [] then pure .childless
      else do
        let node ← deref .outOfBounds parent.children[childItr]?
        let key ← deref .nullKey node.label.key
        if key = segment then pure (.found childItr node)
        else scanChildren parent segment n (childItr + 1)

/-- The outer loop of `samconfConfigGet`. `childCount` is the loop's own variable:
below a childless match it keeps the count of the level above. -/
def getSegments : Config → List ℕ → ℕ → ConfigStatus → List CString →
    Run (ConfigStatus × Option (List ℕ))
  | _, _, _, status, [] => pure (status, none)
  | parent, here, childCount, status, segment :: rest => do
      match ← scanChildren parent segment childCount 0 with
      | .found childItr node =>
          if rest = [] then pure (.ok, some (here ++ [childItr]))
          else if node.children ≠ [] then
            getSegments node (here ++ [childItr]) node.label.childCount status rest
          else getSegments node (here ++ [childItr]) childCount status rest
      | .childless => getSegments parent here childCount .notFound rest
      | .exhausted =>
          if childCount ≠ 0 then pure (.notFound, none)
          else getSegments parent here childCount status rest

/-- `samconfConfigGet`: the status, and `*result` where it was written. -/
def samconfConfigGet (root : Config) (path : Option CString) :
    Run (ConfigStatus × Option (List ℕ)) :=
  match path with
  | none => pure (.error, none)
  | some path =>
      if root.children = [] ∨ root.label.childCount = 0 then pure (.notFound, none)
      else do
        let (status, patharray) ← samconfPathCreateArray path
        if status = .ok then getSegments root [] root.label.childCount .ok patharray
        else pure (status, none)

/-! ## Traversal -/

/-- What `_findNextConfigAtLevel` returns and leaves behind its two pointers. -/
structure NextState where
  result : ConfigStatus
  found : Bool
  nextConfig : Option (List ℕ)

mutual

/-- `_findNextConfigAtLevel` at the node at position `here`. -/
def findNextConfigAtLevel (configToFind : List ℕ) :
    Config → List ℕ → Bool → Option (List ℕ) → Except Fault NextState
  | .node d children, here, found, nextConfig =>
      if nextConfig.isSome then .ok ⟨.error, found, nextConfig⟩
      else if found then .ok ⟨.ok, found, some here⟩
      else
        let found := decide (here = configToFind)
        if children ≠ [] ∧ d.childCount ≠ 0 then
          findNextInChildren configToFind children 0 d.childCount here
            ⟨.notFound, found, nextConfig⟩
        else .ok ⟨.notFound, found, nextConfig⟩

/-- The loop over the children: those from index `i` on, and the rounds left. -/
def findNextInChildren (configToFind : List ℕ) :
    List Config → ℕ → ℕ → List ℕ → NextState → Except Fault NextState
  | _, _, 0, _, state => .ok state
  | [], _, _ + 1, _, _ => .error .outOfBounds
  | child :: children, i, n + 1, here, state => do
      let state ← findNextConfigAtLevel configToFind child (here ++ [i]) state.found
        state.nextConfig
      findNextInChildren configToFind children (i + 1) n here state

end

/-- `samconfConfigNext` with `*nextConfig` NULL on entry. -/
def samconfConfigNext (root : Config) (configToFind : List ℕ) :
    Except Fault (ConfigStatus × Option (List ℕ)) := do
  let state ← findNextConfigAtLevel configToFind root [] false none
  .ok (state.result, state.nextConfig)

/-- `samconfConfigNext` for pointers that may be NULL. A position outside the tree is a
pointer to a node elsewhere. -/
def samconfConfigNextOfPointers (root : Option Config) (configToFind : Option (List ℕ)) :
    Except Fault (ConfigStatus × Option (List ℕ)) :=
  match root, configToFind with
  | some root, some configToFind => samconfConfigNext root configToFind
  | _, _ => .ok (.error, none)

/-! ## Insertion -/

/-- The node that `samconfInsertAt` adds for one segment: the given node for the
last one, a fresh OBJECT otherwise. Its key is an unchecked copy. -/
def makeSegment (config : Config) (segment : CString) (isLast : Bool) :
    Run (ConfigStatus × Option Config) := do
  if isLast then pure (.ok, some config)
  else
    let (result, node) ← samconfConfigNew
    match node with
    | none => pure (result, none)
    | some node =>
        let key ← strdup segment
        pure (result, some (relabel (fun d => { d with key := key, type := .object }) node))

/-- The loop of `samconfInsertAt`: the segments it has passed, those ahead, the
tree, the position of `parent`, and `result`. A prefix that could not be built
is passed over. -/
def insertSegments (config : Config) :
    List CString → List CString → Config → List ℕ → ConfigStatus → Run (ConfigStatus × Config)
  | _, [], root, _, result => pure (result, root)
  | passed, segment :: rest, root, parent, _ => do
      match ← samconfPathGetPathUntil (passed ++ segment :: rest) passed.length with
      | none => insertSegments config (passed ++ [segment]) rest root parent .error
      | some pathToToken =>
          let (result, existingNode) ← samconfConfigGet root (some pathToToken)
          if result = .ok then
            if rest = [] then pure (result, root)
            else
              let existingNode ← deref .unset existingNode
              insertSegments config (passed ++ [segment]) rest root existingNode result
          else if result = .error then pure (result, root)
          else
            let (result, node) ← makeSegment config segment (decide (rest = []))
            match node with
            | none => pure (result, root)
            | some node =>
                let parentNode ← deref .nullConfig (root.sub? parent)
                let (result, parentNode') ← samconfConfigAdd parentNode node
                let root := root.modify (fun _ => parentNode') parent
                if result = .ok then
                  insertSegments config (passed ++ [segment]) rest root
                    (parent ++ [parentNode.children.length]) result
                else pure (result, root)

/-- `samconfInsertAt`: the status and the tree. -/
def samconfInsertAt (root : Config) (path : CString) (config : Config) :
    Run (ConfigStatus × Config) := do
  let (result, patharray) ← samconfPathCreateArray path
  if patharray = [] then pure (.error, root)
  else if result = .ok then insertSegments config [] patharray root [] result
  else pure (result, root)

/-! ## Creation at a path -/

/-- POSIX `basename`. -/
def basename (path : CString) : CString :=
  let stripped := path.reverse.dropWhile fun c => decide (c = '/')
  if path = [] then ['.']
  else if stripped = [] then ['/']
  else (stripped.takeWhile fun c => decide (c ≠ '/')).reverse

/-- The common body of the `samconfCreate*At` functions: make a node, key it by
the path's basename, give it its value, insert it. When one of the two `strdup`
calls fails, the status is still that of `samconfConfigNew`. -/
def createAt (set : Config → Run (ConfigStatus × Config)) (root : Config) (path : CString) :
    Run (ConfigStatus × Config) := do
  let (result, config) ← samconfConfigNew
  match config with
  | none => pure (result, root)
  | some config =>
      match ← strdup path with
      | none => pure (result, root)
      | some copyPath =>
          match ← strdup (basename copyPath) with
          | none => pure (result, root)
          | some key =>
              let (result, config) ← set (relabel (fun d => { d with key := some key }) config)
              if result = .ok then samconfInsertAt root path config else pure (result, root)

/-- `samconfCreateIntAt`. -/
def samconfCreateIntAt (root : Config) (path : CString) (value : Int64) :
    Run (ConfigStatus × Config) :=
  createAt (fun config => samconfConfigSetInt config value) root path

/-- `samconfCreateRealAt`. -/
def samconfCreateRealAt (root : Config) (path : CString) (value : Double) :
    Run (ConfigStatus × Config) :=
  createAt (fun config => samconfConfigSetReal config value) root path

/-- `samconfCreateBoolAt`. -/
def samconfCreateBoolAt (root : Config) (path : CString) (value : Bool) :
    Run (ConfigStatus × Config) :=
  createAt (fun config => samconfConfigSetBool config value) root path

/-- `samconfCreateStringAt`. -/
def samconfCreateStringAt (root : Config) (path : CString) (value : Option CString) :
    Run (ConfigStatus × Config) :=
  match value with
  | none => pure (.error, root)
  | some value => createAt (fun config => samconfConfigSetString config (some value)) root path

end Samconf
