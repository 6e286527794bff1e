/-
# Paths

The functions of `path_helper.c`. A path array is the list of its entries; the
count that `_pathGetSegmentCount` reports sizes the array, so a tokeniser that
stored more entries would write past it and one that stored fewer would leave
an entry unset. Both are faults here.
-/

import Samconf.Model.Types
import Samconf.Foundation.Segments
import Mathlib.Algebra.GroupWithZero.Nat

namespace Samconf

open Foundation

/-- The loop of `_pathGetSegmentCount` from its second character on: the
character before the current one and the rest of the string. -/
def countSegmentEnds : Char → CString → ℕ
  | previous, [] => if previous ≠ '/' then 1 else 0
  | previous, c :: rest =>
      (if c = '/' ∧ previous ≠ '/' then 1 else 0) + countSegmentEnds c rest

/-- `_pathGetSegmentCount`. -/
def pathGetSegmentCount : CString → ℕ
  | [] => 0
  | c :: rest => countSegmentEnds c rest

/-- The `strtok_r` loop of `samconfPathCreateArray`, `none` when a `strdup` fails.
The number bounds the rounds. -/
def collectTokens : ℕ → CString → Run (Option (List CString))
  | 0, _ => Exec.fault .endless
  | n + 1, pathCopy =>
      match nextToken '/' pathCopy with
      | none => pure (some [])
      | some (token, pathCopy) => do
          match ← strdup token with
          | none => pure none
          | some entry =>
              match ← collectTokens n pathCopy with
              | none => pure none
              | some entries => pure (some (entry :: entries))

/-- `samconfPathCreateArray`: the status and the array with its counted entries. -/
def samconfPathCreateArray (path : CString) : Run (ConfigStatus × List CString) := do
  match ← strdup path with
  | none => pure (.error, [])
  | some pathCopy =>
      let segmentCount := pathGetSegmentCount pathCopy
      if ← Exec.alloc then
        match ← collectTokens (pathCopy.length + 1) pathCopy with
        | none => pure (.error, [])
        | some entries =>
            if entries.length = segmentCount then pure (.ok, entries)
            else Exec.fault .outOfBounds
      else pure (.error, [])

/-- `samconfPathGetPathUntil` for the segments up to and including `index`. The
two `strcat` calls must stay inside the buffer, whose size counts one character
for every separator and the terminator. -/
def samconfPathGetPathUntil (patharray : List CString) (index : ℕ) : Run (Option CString) := do
  let used := patharray.take (index + 1)
  let pathLen := (used.map List.length).sum + (index + 1)
  if ← Exec.alloc then
    let newPath := ['/'].intercalate used
    if newPath.length + 1 ≤ pathLen then pure (some newPath) else Exec.fault .outOfBounds
  else pure none

/-- `_add_to_new_path`, with `snprintf` cutting at the buffer's size. -/
def addToNewPath (existingPath segment : CString) : Run (Option CString) := do
  let strLen := segment.length + existingPath.length
  if ← Exec.alloc then
    if existingPath = [] then pure (some (segment.take (strLen + 1)))
    else pure (some ((segment ++ '/' :: existingPath).take (strLen + 1)))
  else pure none

/-- The part of `samconfPathGetPath` from `parent = config->parent` on. The list
holds the labels of the remaining ancestors, the nearest first; when it is empty,
`parent` is NULL. -/
def climbToRoot : CString → List NodeData → Run (ConfigStatus × Option CString)
  | _, [] => Exec.fault .nullParent
  | newPath, parent :: ancestors => do
      let key ← deref .nullKey parent.key
      match ← strdup newPath with
      | none => pure (.error, none)
      | some existingPath =>
          if key = rootKey then
            match ← addToNewPath existingPath rootKey with
            | none => pure (.error, none)
            | some newPath => pure (.ok, some newPath)
          else
            match ← addToNewPath existingPath key with
            | none => pure (.error, none)
            | some newPath => climbToRoot newPath ancestors

/-- `samconfPathGetPath` for the node at a position of a tree. A node keyed
`root` is its own path, and the copy of that path is not checked. -/
def samconfPathGetPath (top : Config) (config : List ℕ) :
    Run (ConfigStatus × Option CString) := do
  let node ← deref .nullConfig (top.sub? config)
  let key ← deref .nullKey node.label.key
  if key = rootKey then
    let path ← strdup rootKey
    pure (.ok, path)
  else
    match ← addToNewPath [] key with
    | none => pure (.error, none)
    | some newPath => climbToRoot newPath (top.ancestors config)

end Samconf
