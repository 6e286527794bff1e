/-
# Lookup is path resolution

`samconfConfigGet` shares its two indices and its child count between two nested
loops, and below a childless match it goes on with the count of the level above.
None of this shows in its answer: it stores the node that the segments of the path
lead to, and without such a node it answers NOT_FOUND and stores nothing.
-/

import Samconf.Spec.Json
import Samconf.Spec.Lookup

namespace Samconf

open Foundation
open Exec (Yields)

/-- The node at position `p` is reached from the root by taking, for each segment
of the path, the first child with that key. -/
def LeadsTo (root : Config) (path : CString) (p : List ℕ) : Prop :=
  RoseTree.Reaches NodeData.key root (pathSegments path) p

/-- A tree whose arrays are NULL exactly at the count zero and otherwise as long
as their count has the right counts. -/
theorem counted_of_null_iff {config : Config}
    (hnull : config.Everywhere fun d keys => keys = [] ↔ d.childCount = 0)
    (harrays : config.Readable) : config.Counted := by
  intro p s hs
  by_cases hkeys : s.children.map (fun c => c.label.key) = []
  · rw [(hnull p s hs).mp hkeys, hkeys, List.length_nil]
  · exact harrays p s hs hkeys

/-- **Lookup is path resolution.** Where the arrays of children are NULL exactly at
the count zero and every node below the top has a key, `samconfConfigGet` stores the
node that a path with at least one segment leads to; when there is none, it
answers NOT_FOUND and leaves `*result` alone. -/
theorem samconfConfigGet_resolves {root : Config} {path : CString}
    (hnull : root.Everywhere fun d keys => keys = [] ↔ d.childCount = 0)
    (harrays : root.Readable) (hkeyed : root.Keyed) (hpath : pathSegments path ≠ []) :
    (∀ p, LeadsTo root path p → (samconfConfigGet root (some path)).Yields (.ok, some p)) ∧
      ((∀ p, ¬ LeadsTo root path p) →
        (samconfConfigGet root (some path)).Yields (.notFound, none)) := by
  have hanswer := samconfConfigGet_yields path ⟨counted_of_null_iff hnull harrays, hkeyed⟩ hpath
  constructor
  · intro p hp
    rw [Config.resolve, RoseTree.resolve_eq_some_iff.mpr hp] at hanswer
    exact hanswer
  · intro hnowhere
    cases hresolve : root.resolve (pathSegments path) with
    | none =>
        rw [hresolve] at hanswer
        exact hanswer
    | some p => exact absurd (RoseTree.resolve_eq_some_iff.mp hresolve) (hnowhere p)

/-- Repeated and trailing slashes in the path of an option change nothing. -/
theorem option_behind_slashes :
    (samconfConfigGet ((Json.oneOption ['a'] (.int 1)).loaded false)
      (some "root//a/".toList)).Yields (.ok, some [0, 0]) :=
  (@samconfConfigGet_resolves _ "root//a/".toList
    (by decide) (by decide) (by decide) (by decide)).1 [0, 0]
      (RoseTree.resolve_eq_some_iff.mp (by decide))

end Samconf
