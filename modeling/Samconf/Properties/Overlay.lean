/-
# Merging as an overlay

A merge that the rule admits lays the entries of `configToMerge` over the merged
tree. The abstract overlay says what every path holds afterwards; this module
reads that back as statements about the paths that `samconfPathGetPath` reports
and the nodes that `samconfConfigGet` finds.
-/

import Samconf.Spec.Find
import Samconf.Spec.Json

namespace Samconf

open Foundation
open Exec (Yields Ensures Avoids)
open Config (settingWriter)

section Overlay

variable {mergedConfig configToMerge : Config} {path : CString}

/-- What the path of a node of `configToMerge` holds after the merge. -/
theorem setting_merged_of_hasPath (hmerge : configToMerge.Mergeable) {p : List ℕ} {s : Config}
    (hp : p ∈ configToMerge.descendants) (hs : configToMerge.sub? p = some s)
    (hpath : HasPath configToMerge p path) :
    (mergedConfig.merged configToMerge).setting (pathSegments path) =
      some (settingWriter.result s.label (mergedConfig.setting (pathSegments path))) := by
  have hsegments := hpath.pathSegments_eq hmerge hp
  have hmem : configToMerge.entry p ∈ configToMerge.entries := List.mem_map_of_mem hp
  have hne := (hmerge.writable hp).nonempty
  rw [hsegments, hmerge.setting_merged mergedConfig hne, Writer.overlay_of_mem hmerge.ordered hmem,
    Config.entry_snd hs]

/-- What a write of a scalar leaves has its type and its value. -/
theorem result_of_isScalar {d : NodeData} (h : d.type.IsScalar) (b : Option Setting) :
    (settingWriter.result d b).type = d.type ∧ (settingWriter.result d b).value = d.content := by
  cases b with
  | none =>
      refine ⟨rfl, ?_⟩
      simp [Writer.result, settingWriter, NodeData.copied, NodeData.setting, h]
  | some b => simp [Writer.result, settingWriter, h]

/-- A path that no node of `configToMerge` has keeps what it holds. -/
theorem setting_merged_of_forall_ne (hmerge : configToMerge.Mergeable) {b : Setting}
    (hne : pathSegments path ≠ []) (hb : mergedConfig.setting (pathSegments path) = some b)
    (hother : ∀ p nodePath, p ∈ configToMerge.descendants → HasPath configToMerge p nodePath →
      pathSegments nodePath ≠ pathSegments path) :
    (mergedConfig.merged configToMerge).setting (pathSegments path) = some b := by
  rw [hmerge.setting_merged mergedConfig hne]
  refine Writer.overlay_of_forall_ne (fun e he heq => ?_) hb
  obtain ⟨p, hp, rfl⟩ := List.mem_map.mp he
  rcases hmerge.exists_hasPath hp with ⟨nodePath, hnodePath, hsegments⟩
  exact hother p nodePath hp hnodePath (hsegments.trans heq.symm)

/-- A path that holds something after the merge held something before, or leads
on to a node of `configToMerge`. -/
theorem resolved_before_or_on_the_way (hmerge : configToMerge.Mergeable)
    (hne : pathSegments path ≠ [])
    (h : (mergedConfig.merged configToMerge).setting (pathSegments path) ≠ none) :
    mergedConfig.setting (pathSegments path) ≠ none ∨
      ∃ p nodePath, p ∈ configToMerge.descendants ∧ HasPath configToMerge p nodePath ∧
        pathSegments path <+: pathSegments nodePath := by
  by_cases hpre : ∃ e ∈ configToMerge.entries, pathSegments path <+: e.1
  · obtain ⟨e, he, hpre⟩ := hpre
    obtain ⟨p, hp, rfl⟩ := List.mem_map.mp he
    rcases hmerge.exists_hasPath hp with ⟨nodePath, hnodePath, hsegments⟩
    exact .inr ⟨p, nodePath, hp, hnodePath, by rwa [hsegments]⟩
  · left
    intro hnone
    apply h
    rw [hmerge.setting_merged mergedConfig hne]
    exact Writer.overlay_eq_none hnone fun e he hpre' => hpre ⟨e, he, hpre'⟩

end Overlay

/-- **Merge is the reference overlay on scalar options.** Without failing
allocations an admitted merge returns OK. Afterwards every scalar of
`configToMerge` is found under its path with its type and value; its other
nodes, where nothing was found before, are found with their type; other paths
keep what they held; nothing else has appeared; and siblings still have
different keys. -/
theorem merge_is_overlay {mergedConfig configToMerge : Config}
    (hwell : mergedConfig.WellFormed) (hmerge : configToMerge.Mergeable)
    (hrule : followsMergeRule mergedConfig configToMerge = true) :
    ∃ result : Config,
      (samconfConfigMergeConfig mergedConfig (some configToMerge)).Yields (.ok, result) ∧
      (∀ p s, p ∈ configToMerge.descendants → configToMerge.sub? p = some s →
        s.label.type.IsScalar → ∃ path d, HasPath configToMerge p path ∧ Finds result path d ∧
          d.type = s.label.type ∧ d.value = s.label.content) ∧
      (∀ p s, p ∈ configToMerge.descendants → configToMerge.sub? p = some s →
        ∃ path, HasPath configToMerge p path ∧
          (Misses mergedConfig path → ∃ d, Finds result path d ∧ d.type = s.label.type)) ∧
      (∀ path d, pathSegments path ≠ [] → Finds mergedConfig path d →
        (∀ p nodePath, p ∈ configToMerge.descendants → HasPath configToMerge p nodePath →
          pathSegments nodePath ≠ pathSegments path) →
        ∃ d', Finds result path d' ∧ d'.type = d.type ∧ d'.value = d.value) ∧
      (∀ path d, pathSegments path ≠ [] → Finds result path d →
        (∃ d', Finds mergedConfig path d') ∨
          ∃ p nodePath, p ∈ configToMerge.descendants ∧ HasPath configToMerge p nodePath ∧
            pathSegments path <+: pathSegments nodePath) ∧
      result.Distinct := by
  have hresult := hwell.merged hmerge
  refine ⟨mergedConfig.merged configToMerge,
    samconfConfigMergeConfig_yields hmerge hwell.sound hwell.tagged hrule, ?_, ?_, ?_, ?_,
    hresult.distinct⟩
  · intro p s hp hs hscalar
    rcases hmerge.exists_hasPath hp with ⟨path, hpath, hsegments⟩
    have hne := hpath.pathSegments_ne_nil hmerge hp
    have hsetting := @setting_merged_of_hasPath mergedConfig _ _ hmerge _ _ hp hs hpath
    rcases exists_finds hresult.sound hne hsetting with ⟨d, hd, hdata⟩
    have hwritten := result_of_isScalar hscalar (mergedConfig.setting (pathSegments path))
    rw [← hdata] at hwritten
    exact ⟨path, d, hpath, hd, hwritten⟩
  · intro p s hp hs
    rcases hmerge.exists_hasPath hp with ⟨path, hpath, hsegments⟩
    have hne := hpath.pathSegments_ne_nil hmerge hp
    refine ⟨path, hpath, fun hmiss => ?_⟩
    have hsetting := @setting_merged_of_hasPath mergedConfig _ _ hmerge _ _ hp hs hpath
    rw [(misses_iff hwell.sound hne).mp hmiss] at hsetting
    rcases exists_finds hresult.sound hne hsetting with ⟨d, hd, hdata⟩
    exact ⟨d, hd, congrArg Setting.type hdata⟩
  · intro path d hne hd hother
    have hsetting := setting_merged_of_forall_ne hmerge hne (hd.setting hwell.sound hne) hother
    rcases exists_finds hresult.sound hne hsetting with ⟨d', hd', hdata⟩
    exact ⟨d', hd', congrArg Setting.type hdata, congrArg Setting.value hdata⟩
  · intro path d hne hd
    have hsome : (mergedConfig.merged configToMerge).setting (pathSegments path) ≠ none := by
      rw [hd.setting hresult.sound hne]
      exact Option.some_ne_none _
    refine (resolved_before_or_on_the_way hmerge hne hsome).imp_left fun hbefore => ?_
    obtain ⟨b, hb⟩ := Option.ne_none_iff_exists'.mp hbefore
    rcases exists_finds hwell.sound hne hb with ⟨d', hd', -⟩
    exact ⟨d', hd'⟩

/-- A signed option is laid over an unsigned one. -/
theorem signed_option_overlays :
    let merged := (Json.oneOption ['a'] (.int 1)).loaded false
    let added := (Json.oneOption ['a'] (.string ['x'])).loaded true
    ∃ result path d, (samconfConfigMergeConfig merged (some added)).Yields (.ok, result) ∧
      HasPath added [0, 0] path ∧ Finds result path d ∧ d.value = .string (some ['x']) := by
  rcases @merge_is_overlay ((Json.oneOption ['a'] (.int 1)).loaded false)
      ((Json.oneOption ['a'] (.string ['x'])).loaded true) (by decide) (by decide) (by decide) with
    ⟨result, hyields, hscalars, -⟩
  rcases hscalars [0, 0] _ (by decide) rfl (by decide) with ⟨path, d, hpath, hfinds, -, hvalue⟩
  exact ⟨result, path, d, hyields, hpath, hfinds, hvalue⟩

end Samconf
