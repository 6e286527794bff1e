/-
# Climbing to the root

The climb of `samconfPathGetPath` ends at a node keyed `root` and does not look for
the top of the tree. In a tree that was loaded from a document the top is keyed
`config`, so every climb is safe exactly when every child of the top is keyed
`root`. For any other document the first node under another key takes a merge
past the top, through the parent link that is NULL.
-/

import Samconf.Spec.ParentLinks
import Samconf.Spec.Json

namespace Samconf

open Foundation
open Exec (Yields Ensures Avoids)

/-- No path of a node below the top, and no merge that the rule admits, follows
the parent link of the top. -/
def SafeToMerge (configToMerge : Config) : Prop :=
  (∀ p ∈ configToMerge.descendants, Avoids .nullParent (samconfPathGetPath configToMerge p)) ∧
    ∀ mergedConfig, followsMergeRule mergedConfig configToMerge = true →
      Avoids .nullParent (samconfConfigMergeConfig mergedConfig (some configToMerge))

/-- A climb that passes a node keyed `root` does not go past the top. -/
theorem climbPath_ne_of_mem {ancestors : List NodeData} (newPath : CString)
    (h : ∃ d ∈ ancestors, d.key = some rootKey) :
    climbPath newPath ancestors ≠ .error .nullParent := by
  induction ancestors generalizing newPath with
  | nil => simp at h
  | cons parent ancestors ih =>
      rw [climbPath]
      cases hkey : parent.key with
      | none => simp
      | some key =>
          by_cases hroot : key = rootKey
          · simp [hroot]
          · simp only [hroot, if_false]
            apply ih
            rcases h with ⟨d, hd, hdkey⟩
            rcases List.mem_cons.mp hd with rfl | hd
            · rw [hkey] at hdkey
              exact absurd (Option.some.inj hdkey) hroot
            · exact ⟨d, hd, hdkey⟩

/-- The child of the top that a node lies below is one of its ancestors. -/
theorem mem_ancestors_of_child {config child : Config} {i j : ℕ} {p : List ℕ}
    (hchild : config.children[i]? = some child) :
    child.label ∈ config.ancestors (i :: j :: p) := by
  simp [hchild]

/-- When every child of the top is keyed `root`, every climb is safe. -/
theorem nodePath_ne_of_children {config : Config}
    (h : ∀ c ∈ config.children, c.label.key = some rootKey) {p : List ℕ}
    (hp : p ∈ config.descendants) : nodePath config p ≠ .error .nullParent := by
  rcases RoseTree.mem_descendants.mp hp with ⟨hne, s, hs⟩
  obtain ⟨i, p, rfl⟩ := List.exists_cons_of_ne_nil hne
  have hsub := hs
  rw [RoseTree.sub?_cons] at hsub
  rcases Option.bind_eq_some_iff.mp hsub with ⟨child, hchild, hbelow⟩
  have hroot := h child (List.mem_of_getElem? hchild)
  rw [nodePath, hs]
  cases hkey : s.label.key with
  | none => simp [hkey]
  | some key =>
      by_cases hself : key = rootKey
      · simp [hkey, hself]
      · simp only [hkey, hself, if_false]
        cases p with
        | nil =>
            obtain rfl : child = s := by simpa using hbelow
            rw [hroot] at hkey
            exact absurd (Option.some.inj hkey).symm hself
        | cons j p =>
            exact climbPath_ne_of_mem key ⟨child.label, mem_ancestors_of_child hchild, hroot⟩

/-- A child of the top under another key leads the climb past the top. -/
theorem nodePath_of_child {config child : Config} {i : ℕ} {key top : CString}
    (hchild : config.children[i]? = some child) (hkey : child.label.key = some key)
    (hother : key ≠ rootKey) (htop : config.label.key = some top) (htopOther : top ≠ rootKey) :
    nodePath config [i] = .error .nullParent := by
  simp [nodePath, hchild, hkey, hother, climbPath, htop, htopOther]

/-- The children of a loaded top, by the members of the document. -/
theorem getElem?_children_loaded (isSigned : Bool) (json : Json) (i : ℕ) :
    (json.loaded isSigned).children[i]? =
      json.members[i]?.map fun m => m.2.tree isSigned (some m.1) := by
  rw [Json.loaded, Json.tree_eq, RoseTree.children_node, List.getElem?_map]

/-- **Merging a loaded configuration is safe** exactly when every member of the
document is named `root`. -/
theorem safeToMerge_iff {json : Json} {isSigned : Bool} {configToMerge : Config}
    (hload : (samconfJsonBackendLoad json isSigned).Yields (.ok, some configToMerge)) :
    SafeToMerge configToMerge ↔ ∀ m ∈ json.members, m.1 = rootKey := by
  rcases samconfJsonBackendLoad_yields_iff.mp hload with ⟨-, rfl⟩
  constructor
  · rintro ⟨hpaths, -⟩ m hm
    by_contra hother
    rcases List.getElem?_of_mem hm with ⟨i, hi⟩
    have hchild := getElem?_children_loaded isSigned json i
    rw [hi, Option.map_some] at hchild
    have hpath := nodePath_of_child hchild (by simp) hother
      (show (json.loaded isSigned).label.key = some configKey by simp [Json.loaded])
      configKey_ne_rootKey
    have hmem : [i] ∈ (json.loaded isSigned).descendants :=
      RoseTree.mem_descendants.mpr ⟨by simp, m.2.tree isSigned (some m.1), by simp [hchild]⟩
    exact (samconfPathGetPath_faults hpath).not_avoids (hpaths [i] hmem)
  · intro hroots
    have hchildren : ∀ c ∈ (json.loaded isSigned).children, c.label.key = some rootKey := by
      intro c hc
      rcases List.getElem?_of_mem hc with ⟨i, hi⟩
      rw [getElem?_children_loaded] at hi
      rcases Option.map_eq_some_iff.mp hi with ⟨m, hm, rfl⟩
      simp [hroots m (List.mem_of_getElem? hm)]
    have hpaths : ∀ p ∈ (json.loaded isSigned).descendants,
        Avoids .nullParent (samconfPathGetPath (json.loaded isSigned) p) := fun p hp =>
      samconfPathGetPath_avoids (nodePath_ne_of_children hchildren hp)
    exact ⟨hpaths, fun mergedConfig _ =>
      samconfConfigMergeConfig_avoids mergedConfig (Json.counted_tree _ _ _) hpaths⟩

/-- An option below `root` is safe to merge. -/
theorem oneOption_safeToMerge : SafeToMerge ((Json.oneOption ['a'] (.int 1)).loaded false) := by
  have hload : (samconfJsonBackendLoad (Json.oneOption ['a'] (.int 1)) false).Yields
      (.ok, some ((Json.oneOption ['a'] (.int 1)).loaded false)) :=
    samconfJsonBackendLoad_yields_iff.mpr ⟨rfl, rfl⟩
  apply (safeToMerge_iff hload).mpr
  simp [Json.oneOption, Json.members]

/-- An option without `root` above it is loaded, and is not safe to merge. -/
theorem option_without_root_not_safeToMerge :
    (samconfJsonBackendLoad (.object [(['a'], .int 1)]) false).Yields
        (.ok, some (Json.loaded false (.object [(['a'], .int 1)]))) ∧
      ¬ SafeToMerge (Json.loaded false (.object [(['a'], .int 1)])) := by
  refine ⟨samconfJsonBackendLoad_yields_iff.mpr ⟨rfl, rfl⟩, fun hsafe => ?_⟩
  have hpath : nodePath (Json.loaded false (.object [(['a'], .int 1)])) [0] =
      .error .nullParent := rfl
  exact (samconfPathGetPath_faults hpath).not_avoids (hsafe.1 [0] (by decide))

end Samconf
