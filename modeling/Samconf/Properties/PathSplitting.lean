/-
# Splitting and joining paths

The array of a path is sized by a scan that compares neighbouring characters and filled by
a tokeniser, and a joined path is measured apart from its writing. The scan and the
tokeniser find the same runs, so every place of the array is stored to and none behind it;
the buffer of a joined path is written up to its end, and what it holds splits again into
the segments that were joined.
-/

import Samconf.Foundation.MaximalRuns
import Samconf.Spec.PathArray

namespace Samconf

open Foundation
open Exec (Yields Avoids)

namespace Memory

/-- The array holds what is between the slashes of a path, from the front to the back. -/
def HoldsRuns (path : CString) (patharray : List Slot) : Prop :=
  ∃ positions : List (ℕ × ℕ),
    (∀ i j, (i, j) ∈ positions ↔ IsMaximalRun '/' path i j) ∧
    Ordered positions ∧
    patharray = positions.map fun r => .string (slice path r.1 r.2)

/-- The path functions agree on a path: what is counted, what is stored, and what can be
joined and split again. -/
structure PathAgrees (path : CString) (patharray : List Slot) : Prop where
  created : (samconfPathCreateArray (some path)).Yields
    (.ok, some patharray, pathGetSegmentCount path)
  runs : HoldsRuns path patharray
  /-- The loop stores as many tokens as were counted. -/
  stored : (storeTokens (path.length + 1) (.replicate (pathGetSegmentCount path) .unset) 0
    path).Yields (true, pathGetSegmentCount path, patharray)
  /-- Every counted place is in the array and holds a string. -/
  counted : ∀ i < pathGetSegmentCount path, ∃ segment, patharray[i]? = some (.string segment)
  length : patharray.length = pathGetSegmentCount path
  /-- A joined path fills its buffer, and splits into what was joined. -/
  joined : ∀ i < pathGetSegmentCount path, ∃ newPath,
    (samconfPathGetPathUntil patharray i).Yields (.ok, some newPath) ∧
    newPath.string.length + 1 = newPath.size ∧
    (samconfPathCreateArray (some newPath.string)).Yields
      (.ok, some (patharray.take (i + 1)), i + 1)
  /-- Whatever allocations fail, nothing is accessed out of bounds or unset. -/
  safe : ∀ fault, Avoids fault (samconfPathCreateArray (some path)) ∧
    ∀ i < pathGetSegmentCount path, Avoids fault (samconfPathGetPathUntil patharray i)

theorem holdsRuns_segments (path : CString) :
    HoldsRuns path ((pathSegments path).map .string) := by
  refine ⟨runs '/' path, mem_runs_iff '/' path, ordered_runs '/' path, ?_⟩
  rw [pathSegments, segments_eq_map_runs, List.map_map]
  rfl

/-- Without failing allocations the array holds the segments and is counted. -/
theorem samconfPathCreateArray_segments (path : CString) :
    (samconfPathCreateArray (some path)).Yields
      (.ok, some ((pathSegments path).map .string), (pathSegments path).length) := by
  rw [samconfPathCreateArray_eq]
  exact (samconfPathCreateArray_yields path).bind (Exec.yields_pure _)

/-- Joined segments split again. -/
theorem pathSegments_joined (path : CString) (n : ℕ) :
    pathSegments (['/'].intercalate ((pathSegments path).take n)) =
      (pathSegments path).take n :=
  segments_intercalate fun _ hr => isSegment_of_mem_segments (List.mem_of_mem_take hr)

/-- **The path functions agree** on every path. -/
theorem path_agrees (path : CString) : ∃ patharray, PathAgrees path patharray := by
  refine ⟨(pathSegments path).map .string, ?_⟩
  have hcount := pathGetSegmentCount_eq path
  refine {
    created := by
      rw [hcount]
      exact samconfPathCreateArray_segments path
    runs := holdsRuns_segments path
    stored := storeTokens_yields path
    counted := fun i hi => ?_
    length := by rw [List.length_map, hcount]
    joined := fun i hi => ?_
    safe := fun fault => ⟨?_, fun i hi => ?_⟩ }
  · rw [hcount] at hi
    exact ⟨_, by rw [List.getElem?_map, List.getElem?_eq_getElem hi]; rfl⟩
  · rw [hcount] at hi
    refine ⟨full (['/'].intercalate ((pathSegments path).take (i + 1))), ?_, rfl, ?_⟩
    · rw [samconfPathGetPathUntil_eq hi, Samconf.samconfPathGetPathUntil_eq]
      exact (Exec.yields_allocFor _).bind (Exec.yields_pure _)
    · have hsplit := samconfPathCreateArray_segments
        (['/'].intercalate ((pathSegments path).take (i + 1)))
      rw [pathSegments_joined, List.length_take_of_le hi, List.map_take] at hsplit
      exact hsplit
  · rw [samconfPathCreateArray_eq]
    exact (samconfPathCreateArray_avoids fault path).bind fun _ => Exec.avoids_pure _ _
  · rw [hcount] at hi
    rw [samconfPathGetPathUntil_eq hi, Samconf.samconfPathGetPathUntil_eq]
    exact (Exec.avoids_allocFor fault _).bind fun _ => Exec.avoids_pure _ _

end Memory

end Samconf
