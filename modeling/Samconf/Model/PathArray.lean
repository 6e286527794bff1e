/-
# Paths in memory

`samconfPathCreateArray` and `samconfPathGetPathUntil` once more, with the array and the
buffer that they write into. A place of the array is unset until it is stored to, an
entry that is stored or read outside the array is a fault, and so is a character behind
the end of the buffer. The counters are natural numbers: an `int` holds the segments of
any path below four gigabytes.
-/

import Samconf.Model.Path

namespace Samconf

open Foundation

/-- A place of an array of `char *`. -/
inductive Slot
  | unset
  | null
  | string (string : CString)
  deriving DecidableEq

/-- What `strdup` returned. -/
def Slot.ofCopy : Option CString → Slot
  | none => .null
  | some copy => .string copy

/-- An allocated string: the size of the memory, and what is in front of the NUL. -/
structure Buffer where
  size : ℕ
  string : CString
  fits : string.length + 1 ≤ size

namespace Memory

/-- `patharray[index] = entry` -/
def store (patharray : List Slot) (index : ℕ) (entry : Slot) : Run (List Slot) :=
  if index < patharray.length then pure (patharray.set index entry) else Exec.fault .outOfBounds

/-- The string at `patharray[i]`. -/
def entry (patharray : List Slot) (i : ℕ) : Run CString := do
  match ← deref .outOfBounds patharray[i]? with
  | .unset => Exec.fault .unset
  | .null => Exec.fault .nullString
  | .string string => pure string

/-- `samconfPathDeleteArray`, with `count - i` rounds of its loop left. -/
def samconfPathDeleteArray (patharray : List Slot) : ℕ → ℕ → Run Unit
  | 0, _ => pure ()
  | n + 1, i => do
      let slot ← deref .outOfBounds patharray[i]?
      if slot = .unset then Exec.fault .unset else samconfPathDeleteArray patharray n (i + 1)

/-- The `strtok_r` loop of `samconfPathCreateArray`: `arrayCreated`, `index` and the array.
A copy is stored before it is looked at. The number bounds the rounds. -/
def storeTokens : ℕ → List Slot → ℕ → CString → Run (Bool × ℕ × List Slot)
  | 0, _, _, _ => Exec.fault .endless
  | n + 1, patharray, index, pathCopy =>
      match nextToken '/' pathCopy with
      | none => pure (true, index, patharray)
      | some (token, pathCopy) => do
          let copy ← strdup token
          let patharray ← store patharray index (.ofCopy copy)
          match copy with
          | none => do
              samconfPathDeleteArray patharray index 0
              pure (false, index, patharray)
          | some _ => storeTokens n patharray (index + 1) pathCopy

/-- `samconfPathCreateArray`: the status, `*patharray` unless it was not allocated or is
deleted, and `*count`. -/
def samconfPathCreateArray (path : Option CString) :
    Run (ConfigStatus × Option (List Slot) × ℕ) :=
  match path with
  | none => pure (.error, none, 0)
  | some path => do
      match ← strdup path with
      | none => pure (.error, none, 0)
      | some pathCopy =>
          let segmentCount := pathGetSegmentCount pathCopy
          if ← Exec.alloc then
            let (arrayCreated, _, patharray) ←
              storeTokens (pathCopy.length + 1) (.replicate segmentCount .unset) 0 pathCopy
            if arrayCreated then pure (.ok, some patharray, segmentCount)
            else pure (.error, none, 0)
          else pure (.error, none, 0)

/-- `strcat`. -/
def strcat (dest : Buffer) (src : CString) : Run Buffer :=
  if h : (dest.string ++ src).length + 1 ≤ dest.size then
    pure ⟨dest.size, dest.string ++ src, h⟩
  else Exec.fault .outOfBounds

/-- `*newPath[0] = '\0'` for a buffer of the given size. -/
def terminate (size : ℕ) : Run Buffer :=
  if h : 1 ≤ size then pure ⟨size, [], h⟩ else Exec.fault .outOfBounds

/-- The first loop of `samconfPathGetPathUntil`, with so many rounds left. -/
def addLengths (patharray : List Slot) : ℕ → ℕ → ℕ → Run ℕ
  | 0, _, pathLen => pure pathLen
  | n + 1, i, pathLen => do
      let segment ← entry patharray i
      addLengths patharray n (i + 1) (pathLen + segment.length)

/-- Its second loop. -/
def catSegments (patharray : List Slot) (index : ℕ) : ℕ → ℕ → Buffer → Run Buffer
  | 0, _, newPath => pure newPath
  | n + 1, i, newPath => do
      let newPath ← strcat newPath (← entry patharray i)
      let newPath ← if i ≠ index then strcat newPath ['/'] else pure newPath
      catSegments patharray index n (i + 1) newPath

/-- `samconfPathGetPathUntil`: the status and `*newPath`. -/
def samconfPathGetPathUntil (patharray : List Slot) (index : ℕ) :
    Run (ConfigStatus × Option Buffer) := do
  let pathLen ← addLengths patharray (index + 1) 0 0
  let pathLen := pathLen + (index + 1)
  if ← Exec.alloc then
    let newPath ← terminate pathLen
    let newPath ← catSegments patharray index (index + 1) 0 newPath
    pure (.ok, some newPath)
  else pure (.error, none)

end Memory

end Samconf
