/-
# Nodes found by path

The two questions that results about whole trees are stated with: which path
`samconfPathGetPath` reports for a node, and which node `samconfConfigGet` finds
under a path. On sound trees the second is the setting under the path's
segments, so what is known about settings can be read back as what the code
finds.
-/

import Samconf.Spec.Merge

namespace Samconf

open Foundation
open Exec (Yields Ensures Avoids)

/-- `samconfPathGetPath` reports the path for the node at a position. -/
def HasPath (config : Config) (p : List ℕ) (path : CString) : Prop :=
  (samconfPathGetPath config p).Yields (.ok, some path)

/-- `samconfConfigGet` finds a node with the label under the path. -/
def Finds (root : Config) (path : CString) (d : NodeData) : Prop :=
  ∃ p s, (samconfConfigGet root (some path)).Yields (.ok, some p) ∧
    root.sub? p = some s ∧ s.label = d

/-- `samconfConfigGet` finds nothing under the path. -/
def Misses (root : Config) (path : CString) : Prop :=
  (samconfConfigGet root (some path)).Yields (.notFound, none)

variable {root config : Config} {path : CString} {d : NodeData}

theorem finds_iff (hsound : root.Sound) (hne : pathSegments path ≠ []) :
    Finds root path d ↔
      ∃ p s, root.resolve (pathSegments path) = some p ∧ root.sub? p = some s ∧ s.label = d := by
  have hget := samconfConfigGet_yields path hsound hne
  constructor
  · rintro ⟨p, s, hp, hs, hd⟩
    refine ⟨p, s, ?_, hs, hd⟩
    have hanswer := hget.unique hp
    cases hresolve : root.resolve (pathSegments path) with
    | none => simp [hresolve, lookupResult] at hanswer
    | some q => simpa [hresolve, lookupResult] using hanswer
  · rintro ⟨p, s, hp, hs, hd⟩
    rw [hp] at hget
    exact ⟨p, s, hget, hs, hd⟩

/-- What is found has the setting of its path. -/
theorem Finds.setting (h : Finds root path d) (hsound : root.Sound)
    (hne : pathSegments path ≠ []) : root.setting (pathSegments path) = some d.setting := by
  rcases (finds_iff hsound hne).mp h with ⟨p, s, hp, hs, rfl⟩
  exact Config.setting_of_resolve hp hs

/-- A path with a setting leads to a node that has it. -/
theorem exists_finds {b : Setting} (hsound : root.Sound) (hne : pathSegments path ≠ [])
    (h : root.setting (pathSegments path) = some b) : ∃ d, Finds root path d ∧ d.setting = b := by
  rw [Config.setting, RoseTree.view] at h
  rcases Option.map_eq_some_iff.mp h with ⟨s, hlookup, hsetting⟩
  rcases RoseTree.lookup_eq_some_iff.mp hlookup with ⟨p, hp, hs⟩
  exact ⟨s.label, (finds_iff hsound hne).mpr ⟨p, s, hp, hs, rfl⟩, hsetting⟩

theorem misses_iff (hsound : root.Sound) (hne : pathSegments path ≠ []) :
    Misses root path ↔ root.setting (pathSegments path) = none := by
  have hget := samconfConfigGet_yields path hsound hne
  rw [Config.setting, RoseTree.view_eq_none_iff]
  constructor
  · intro h
    have hanswer := hget.unique h
    cases hresolve : root.resolve (pathSegments path) with
    | none => exact hresolve
    | some q => simp [hresolve, lookupResult] at hanswer
  · intro h
    have hresolve : root.resolve (pathSegments path) = none := h
    rw [hresolve] at hget
    exact hget

/-- Every node below the top of a tree that can be merged has a path, and its segments
are those of the entry under it. -/
theorem Config.Placeable.exists_hasPath (h : config.Placeable) {p : List ℕ}
    (hp : p ∈ config.descendants) :
    ∃ path, HasPath config p path ∧ pathSegments path = (config.pathEntry p).1 := by
  rcases h.exists_pathEntry hp with ⟨path, s, hpath, -, heq⟩
  exact ⟨path, samconfPathGetPath_yields hpath, by rw [heq]⟩

theorem Config.Mergeable.exists_hasPath (h : config.Mergeable) {p : List ℕ}
    (hp : p ∈ config.descendants) :
    ∃ path, HasPath config p path ∧ pathSegments path = (config.entry p).1 := by
  rw [← h.pathEntry_eq hp]
  exact h.placeable.exists_hasPath hp

/-- A node has no other path. -/
theorem HasPath.pathSegments_eq_pathEntry {p : List ℕ} (h : HasPath config p path)
    (hmerge : config.Placeable) (hp : p ∈ config.descendants) :
    pathSegments path = (config.pathEntry p).1 := by
  rcases hmerge.exists_hasPath hp with ⟨path', hpath', hsegments⟩
  have hsame := Yields.unique h hpath'
  cases hsame
  exact hsegments

theorem HasPath.pathSegments_eq {p : List ℕ} (h : HasPath config p path)
    (hmerge : config.Mergeable) (hp : p ∈ config.descendants) :
    pathSegments path = (config.entry p).1 := by
  rw [← hmerge.pathEntry_eq hp]
  exact h.pathSegments_eq_pathEntry hmerge.placeable hp

theorem HasPath.pathSegments_ne_nil {p : List ℕ} (h : HasPath config p path)
    (hmerge : config.Mergeable) (hp : p ∈ config.descendants) : pathSegments path ≠ [] := by
  rw [h.pathSegments_eq hmerge hp]
  exact (hmerge.writable hp).nonempty

/-- What is found under the path of a node has the setting at its entry. -/
theorem HasPath.setting_entry {p : List ℕ} (h : HasPath config p path)
    (hmerge : config.Mergeable) (hp : p ∈ config.descendants) (hsound : root.Sound)
    (hd : Finds root path d) :
    root.setting (config.entry p).1 = some d.setting := by
  rw [← h.pathSegments_eq hmerge hp]
  exact hd.setting hsound (h.pathSegments_ne_nil hmerge hp)

/-- The label of an entry is that of its node. -/
theorem Config.entry_snd {p : List ℕ} {s : Config} (hs : config.sub? p = some s) :
    (config.entry p).2 = s.label := by
  simp [Config.entry, hs]

end Samconf
