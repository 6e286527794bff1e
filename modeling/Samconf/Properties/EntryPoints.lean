/-
# The two ways to merge a list

`samconfConfigMergeConfigs` and `samconfLoadAndMerge` merge the same configurations
into the same tree when there is a tree to begin with. Only the second makes one when
there is none: the first tests the address of the caller's pointer, which is never
NULL, instead of the pointer, and then reads through it.
-/

import Samconf.Properties.LoadStatus
import Samconf.Spec.MergeList

namespace Samconf

open Foundation
open Exec (Yields Faults)

/-- Without failing allocations both functions complete, and they leave the same tree
below the top and the same flag on it. -/
def EntryPointsAgree (world : World) (mergedConfig : Option Config) (configs : List Config) :
    Prop :=
  ∃ status status' result result',
    (samconfConfigMergeConfigs mergedConfig configs).Yields (status, some result) ∧
    (samconfLoadAndMerge world (configs.map fun c => .config (some c)) mergedConfig).Yields
      (status', some result') ∧
    result.children = result'.children ∧ result.label.isSigned = result'.label.isSigned

/-- Where there is no tree to begin with, `samconfConfigMergeConfigs` leaves none. -/
theorem samconfConfigMergeConfigs_none_not_yields {configs : List Config}
    {status : ConfigStatus} {result : Config} :
    ¬ (samconfConfigMergeConfigs none configs).Yields (status, some result) := by
  cases configs with
  | nil =>
      intro h
      have hsame := h.unique (Exec.yields_pure _)
      cases hsame
  | cons config configs => exact (Exec.faults_fault Fault.nullConfig).not_yields

/-- **The entry points agree** exactly when there is a tree to begin with. -/
theorem entryPointsAgree_iff (world : World) {mergedConfig : Option Config}
    {configs : List Config} (hbegin : ∀ config ∈ mergedConfig, config.Sound ∧ config.Tagged)
    (hmerge : ∀ c ∈ configs, c.Placeable) :
    EntryPointsAgree world mergedConfig configs ↔ mergedConfig ≠ none := by
  cases mergedConfig with
  | none =>
      refine iff_of_false ?_ fun h => h rfl
      rintro ⟨status, -, result, -, hmerged, -⟩
      exact samconfConfigMergeConfigs_none_not_yields hmerged
  | some config =>
      refine iff_of_true ?_ (by simp)
      obtain ⟨hsound, htagged⟩ := hbegin config rfl
      rcases samconfConfigMergeConfigs_yields_of_placeable hsound htagged hmerge with
        ⟨status, hmerged⟩
      rcases samconfLoadAndMerge_yields_of_placeable hsound htagged world hmerge with
        ⟨status', hloaded⟩
      exact ⟨status, status', _, _, hmerged, hloaded, rfl, rfl⟩

/-- A key with a slash, a signed configuration and one that is refused behind it. -/
theorem three_configurations_agree :
    EntryPointsAgree twoFiles (some freshRoot)
      [(Json.oneOption "a/b".toList (.int 1)).loaded false,
        (Json.oneOption ['a'] (.object [(['b'], .int 2)])).loaded true,
        (Json.oneOption ['c'] (.int 3)).loaded false] := by
  have hloaded (key : CString) (value : Json) (isSigned : Bool) :
      ((Json.oneOption key value).loaded isSigned).Placeable :=
    Json.placeable_loaded (by simp [Json.oneOption, Json.members]) isSigned
  refine (entryPointsAgree_iff twoFiles ?_ ?_).mpr (by simp)
  · intro config hconfig
    obtain rfl : freshRoot = config := Option.some.inj hconfig
    exact ⟨⟨by decide, by decide⟩, by decide⟩
  · simp only [List.forall_mem_cons, List.not_mem_nil, false_imp_iff, implies_true, and_true]
    exact ⟨hloaded _ _ _, hloaded _ _ _, hloaded _ _ _⟩

/-- From a NULL pointer one of them makes a tree and the other reads through it. -/
theorem null_pointer_disagrees :
    (samconfConfigMergeConfigs none [(Json.oneOption ['a'] (.int 1)).loaded false]).Faults
        .nullConfig ∧
      ¬ EntryPointsAgree twoFiles none [(Json.oneOption ['a'] (.int 1)).loaded false] := by
  refine ⟨Exec.faults_fault _, ?_⟩
  rintro ⟨status, -, result, -, hmerged, -⟩
  exact samconfConfigMergeConfigs_none_not_yields hmerged

end Samconf
