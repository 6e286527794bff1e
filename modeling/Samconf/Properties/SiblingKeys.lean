/-
# Siblings with one key

A merge looks for the path of a node and inserts a copy where it finds none. The copy
keeps the key of the node, while the place it is hung at comes from the path. Where the
key holds a slash, or is empty, the two do not agree: the copy is not found under its
path, and the next merge of the same configuration hangs a second one beside it. The
module runs merges one after the other from a fresh root, beside a record of the
configurations that were merged, and says on which runs siblings stay distinct.
-/

import Samconf.Properties.Provenance
import Samconf.Spec.MergeList

namespace Samconf

open Foundation
open Exec (Yields)
open RoseTree (relabel)

/-! ## Runs of merges -/

/-- A merged tree and the configurations that were merged into it. -/
structure MergeRecord where
  config : Config
  mergedConfigs : List Config

/-- Successful merges of loaded documents whose only top-level key is `root`, from a
fresh root on. The keys below are spelled in any way. -/
def mergeRecords : System MergeRecord MergeEvent where
  initial r := r = ⟨freshRoot, []⟩
  step r event r' :=
    (∀ m ∈ event.json.members, m.1 = rootKey) ∧ event.json.UniqueKeys ∧
    (samconfJsonBackendLoad event.json event.isSigned).Yields (.ok, some event.configToMerge) ∧
    (∃ o, samconfConfigMergeConfig r.config (some event.configToMerge) event.supply =
      .ok ((.ok, r'.config), o)) ∧
    r'.mergedConfigs = r.mergedConfigs ++ [event.configToMerge]

/-- The same nodes with the same keys. -/
def SameNodes (config result : Config) : Prop :=
  RoseTree.Pointwise (fun d d' => d.key = d'.key) config result

/-- No two children of one node have the same key, and merging a configuration again
adds no node. -/
def SiblingsStayDistinct (r : MergeRecord) : Prop :=
  r.config.Distinct ∧ ∀ c ∈ r.mergedConfigs, ∃ status result,
    (samconfConfigMergeConfig r.config (some c)).Yields (status, result) ∧
      SameNodes r.config result

/-- No allocation fails, and where the key of a node is no path segment, its path leads
to a node before the merge, or an earlier node of the configuration lies below it. -/
def SlashesLeadSomewhere (r : MergeRecord) (event : MergeEvent) : Prop :=
  event.supply = plenty ∧
    ∀ before p after s key path, event.configToMerge.descendants = before ++ p :: after →
      event.configToMerge.sub? p = some s → s.label.key = some key → ¬ IsPathKey key →
      HasPath event.configToMerge p path →
      (∃ d, Finds r.config path d) ∨ ∃ q ∈ before, ∃ path',
        HasPath event.configToMerge q path' ∧ pathSegments path <+: pathSegments path'

/-! ## Puts under paths that lead somewhere -/

section Puts

variable {config : Config} {es : List Entry}

/-- Siblings stay distinct when each entry is found, ends with its key, or has an
earlier one below it, and then all entries are found in the end. -/
theorem Config.Distinct.foldl_put (h : config.Distinct)
    (hes : ∀ before e after, es = before ++ e :: after → config.setting e.1 ≠ none ∨
      e.2.key = e.1.getLast? ∨ ∃ d ∈ before, e.1 <+: d.1) :
    Config.Distinct (es.foldl Config.put config) ∧
      ∀ e ∈ es, Config.setting (es.foldl Config.put config) e.1 ≠ none := by
  induction es using List.reverseRecOn with
  | nil => exact ⟨h, by simp⟩
  | append_singleton es e ih =>
      obtain ⟨hdistinct, hfound⟩ := ih fun before d after hsplit =>
        hes before d (after ++ [e]) (by simp [hsplit])
      have hplace : Config.resolve (es.foldl Config.put config) e.1 ≠ none ∨
          e.2.key = e.1.getLast? := by
        rcases hes es e [] rfl with hbefore | hlast | ⟨d, hd, hpre⟩
        · exact .inl fun hnone => setting_foldl_put_ne_none hbefore es
            (RoseTree.view_eq_none_iff.mpr hnone)
        · exact .inr hlast
        · exact .inl fun hnone => setting_ne_none_of_prefix (hfound d hd) hpre
            (RoseTree.view_eq_none_iff.mpr hnone)
      rw [List.foldl_append, List.foldl_cons, List.foldl_nil]
      refine ⟨hdistinct.put hplace, fun d hd => ?_⟩
      rcases List.mem_append.mp hd with hd | hd
      · exact setting_put_ne_none (hfound d hd) e
      · obtain rfl := List.mem_singleton.mp hd
        rw [setting_put_self hplace]
        exact Option.some_ne_none _

theorem SameNodes.refl (config : Config) : SameNodes config config :=
  RoseTree.Pointwise.refl (fun d => (rfl : d.key = d.key)) config

theorem SameNodes.trans {config result result' : Config} (h : SameNodes config result)
    (h' : SameNodes result result') : SameNodes config result' := by
  refine RoseTree.Pointwise.trans ?_ h h'
  intro d d' d'' hkey hkey'
  exact hkey.trans hkey'

theorem sameNodes_relabel {g : NodeData → NodeData} (hkey : ∀ d, (g d).key = d.key)
    (config : Config) : SameNodes config (relabel g config) := by
  cases config with
  | node l cs =>
      refine RoseTree.pointwise_node.mpr ⟨(hkey l).symm, ?_⟩
      exact List.forall₂_same.mpr fun c _ => SameNodes.refl c

theorem sameNodes_put {e : Entry} (h : config.setting e.1 ≠ none) :
    SameNodes config (config.put e) := by
  rw [Config.put]
  cases hp : config.resolve e.1 with
  | none => exact absurd (RoseTree.view_eq_none_iff.mpr hp) h
  | some p =>
      rcases RoseTree.exists_sub?_of_resolve hp with ⟨s, hs⟩
      have hwritten : SameNodes s (relabel e.2.overwrite s) :=
        sameNodes_relabel (fun d => NodeData.key_overwrite) s
      exact RoseTree.Pointwise.modify (fun d => (rfl : d.key = d.key)) hs hwritten

/-- Entries that are found are written over, and no node comes with them. -/
theorem sameNodes_foldl_put (h : ∀ e ∈ es, config.setting e.1 ≠ none) :
    SameNodes config (es.foldl Config.put config) := by
  induction es generalizing config with
  | nil => exact SameNodes.refl config
  | cons e es ih =>
      have hput : SameNodes config (config.put e) := sameNodes_put (h e List.mem_cons_self)
      exact hput.trans (ih fun d hd =>
        Config.setting_put_ne_none (h d (List.mem_cons_of_mem e hd)) e)

theorem sameNodes_markSigned (configToMerge config : Config) :
    SameNodes config (Config.markSigned configToMerge config) := by
  rw [Config.markSigned]
  split
  · apply sameNodes_relabel
    exact fun d => rfl
  · exact SameNodes.refl config

end Puts

/-! ## One merge -/

/-- What holds of every record. -/
structure MergeRecord.Consistent (r : MergeRecord) : Prop where
  sound : r.config.Sound
  tagged : r.config.Tagged
  distinct : r.config.Distinct
  found : ∀ c ∈ r.mergedConfigs, c.Placeable ∧ ∀ e ∈ c.pathEntries, r.config.setting e.1 ≠ none

/-- A guarded configuration has entries that siblings stay distinct under. -/
theorem SlashesLeadSomewhere.entries {r : MergeRecord} {event : MergeEvent}
    (h : SlashesLeadSomewhere r event) (hsound : r.config.Sound)
    (hmerge : event.configToMerge.Placeable) :
    ∀ before e after, event.configToMerge.pathEntries = before ++ e :: after →
      r.config.setting e.1 ≠ none ∨ e.2.key = e.1.getLast? ∨ ∃ d ∈ before, e.1 <+: d.1 := by
  intro before e after hsplit
  obtain ⟨nodes, rest, hnodes, rfl, hrest⟩ := List.map_eq_append_iff.mp hsplit
  obtain ⟨p, later, rfl, rfl, -⟩ := List.map_eq_cons_iff.mp hrest
  have hp : p ∈ event.configToMerge.descendants := by simp [hnodes]
  rcases hmerge.exists_pathEntry hp with ⟨path, s, hnode, hs, heq⟩
  have hpath : HasPath event.configToMerge p path := samconfPathGetPath_yields hnode
  obtain ⟨hne, hlast⟩ := nodePath_segments hs hnode
  obtain ⟨key, hkey⟩ : ∃ key, s.label.key = some key := by
    have hkeyed := (hmerge.entry hp).keyed
    rw [heq] at hkeyed
    exact Option.ne_none_iff_exists'.mp hkeyed
  rw [heq]
  by_cases hplain : IsPathKey key
  · exact .inr (.inl (hkey.trans (hlast key hkey hplain).symm))
  · rcases h.2 nodes p later s key path hnodes hs hkey hplain hpath with
      ⟨d, hd⟩ | ⟨q, hq, path', hpath', hpre⟩
    · rw [hd.setting hsound hne]
      exact .inl (Option.some_ne_none _)
    · have hqmem : q ∈ event.configToMerge.descendants := by simp [hnodes, hq]
      refine .inr (.inr ⟨event.configToMerge.pathEntry q, List.mem_map_of_mem hq, ?_⟩)
      rwa [← hpath'.pathSegments_eq_pathEntry hmerge hqmem]

/-- One guarded merge keeps siblings distinct and leaves all its nodes found. -/
theorem MergeRecord.Consistent.step {r r' : MergeRecord} {event : MergeEvent}
    (hcons : r.Consistent) (hguard : SlashesLeadSomewhere r event)
    (hstep : mergeRecords.step r event r') : r'.Consistent := by
  rcases hstep with ⟨hroot, -, hload, ⟨o, hrun⟩, hrecord⟩
  have hmerge : event.configToMerge.Placeable := by
    rw [(samconfJsonBackendLoad_yields_iff.mp hload).2]
    exact Json.placeable_loaded hroot event.isSigned
  have hplaces := hguard.entries hcons.sound hmerge
  rw [hguard.1] at hrun
  obtain ⟨-, hmerged⟩ := eq_mergedByPath_of_run hcons.sound hcons.tagged hmerge hrun
  obtain ⟨hdistinct, hfound⟩ := hcons.distinct.foldl_put hplaces
  refine ⟨hmerged ▸ hcons.sound.mergedByPath hmerge.nodes,
    hmerged ▸ hcons.tagged.mergedByPath hmerge.nodes, ?_, ?_⟩
  · rw [hmerged]
    exact hdistinct.markSigned event.configToMerge fun _ _ _ hd => hd
  · intro c hc
    rw [hmerged]
    rw [hrecord] at hc
    rcases List.mem_append.mp hc with hc | hc
    · obtain ⟨hplaceable, hbefore⟩ := hcons.found c hc
      exact ⟨hplaceable, fun e he =>
        Config.setting_mergedByPath_ne_none (hplaceable.nodes.entries e he).nonempty
          (Config.setting_foldl_put_ne_none (hbefore e he) _)⟩
    · obtain rfl := List.mem_singleton.mp hc
      exact ⟨hmerge, fun e he => Config.setting_mergedByPath_ne_none
        (hmerge.nodes.entries e he).nonempty (hfound e he)⟩

/-! ## All merges -/

theorem consistent_fresh : MergeRecord.Consistent ⟨freshRoot, []⟩ where
  sound := ⟨by decide, by decide⟩
  tagged := by decide
  distinct := by decide
  found := by simp

/-- A configuration all of whose nodes are found adds none, admitted or refused. -/
theorem MergeRecord.Consistent.siblingsStayDistinct {r : MergeRecord} (hcons : r.Consistent) :
    SiblingsStayDistinct r := by
  refine ⟨hcons.distinct, fun c hc => ?_⟩
  obtain ⟨hplaceable, hfound⟩ := hcons.found c hc
  refine ⟨_, _, samconfConfigMergeConfig_stepByPath hcons.sound hcons.tagged hplaceable, ?_⟩
  rw [Config.stepByPath]
  split
  · exact (sameNodes_foldl_put hfound).trans (sameNodes_markSigned c _)
  · exact SameNodes.refl r.config

/-- **Sibling keys stay distinct** in every run of merges in which no allocation fails
and the nodes whose keys are no path segments lead somewhere. -/
theorem siblingsStayDistinct_of_reachable {r : MergeRecord}
    (hreachable : mergeRecords.Reachable SlashesLeadSomewhere r) : SiblingsStayDistinct r := by
  apply MergeRecord.Consistent.siblingsStayDistinct
  refine hreachable.invariant ?_ ?_
  · rintro r rfl
    exact consistent_fresh
  · intro r event r' hcons hguard hstep
    exact hcons.step hguard hstep

/-! ## A slash in a key -/

/-- Without slashes in keys nothing is asked of the tree. -/
theorem slashesLeadSomewhere_of_mergeable {r : MergeRecord} {event : MergeEvent}
    (hplenty : event.supply = plenty) (h : event.configToMerge.Mergeable) :
    SlashesLeadSomewhere r event := by
  refine ⟨hplenty, fun before p after s key path hsplit hs hkey hslash _ => ?_⟩
  have hp : p ∈ event.configToMerge.descendants := by simp [hsplit]
  have hwritable := h.writable hp
  have hlast : (event.configToMerge.entry p).1.getLast? = some key := by
    rw [← hwritable.lastKey, Config.entry_snd hs, hkey]
  exact absurd (hwritable.pathKeys key (List.mem_of_getLast? hlast)) hslash

/-- Where all paths of a configuration are found, nothing is asked of its keys. -/
theorem slashesLeadSomewhere_of_found {r : MergeRecord} {event : MergeEvent}
    (hplenty : event.supply = plenty) (hsound : r.config.Sound)
    (hmerge : event.configToMerge.Placeable)
    (hfound : ∀ e ∈ event.configToMerge.pathEntries, r.config.setting e.1 ≠ none) :
    SlashesLeadSomewhere r event := by
  refine ⟨hplenty, fun before p after s key path hsplit _ _ _ hpath => .inl ?_⟩
  have hp : p ∈ event.configToMerge.descendants := by simp [hsplit]
  have hsegments := hpath.pathSegments_eq_pathEntry hmerge hp
  have hne : pathSegments path ≠ [] := hsegments ▸ (hmerge.entry hp).nonempty
  obtain ⟨b, hb⟩ := Option.ne_none_iff_exists'.mp
    (hfound (event.configToMerge.pathEntry p) (List.mem_map_of_mem hp))
  rw [← hsegments] at hb
  obtain ⟨d, hd, -⟩ := exists_finds hsound hne hb
  exact ⟨d, hd⟩

/-- The merge of an unsigned document. -/
def unsignedMerge (json : Json) : MergeEvent where
  json := json
  isSigned := false
  configToMerge := json.loaded false
  supply := plenty

/-- The record after the merge of an unsigned document. -/
def MergeRecord.afterUnsigned (r : MergeRecord) (json : Json) : MergeRecord where
  config := r.config.mergedByPath (json.loaded false)
  mergedConfigs := r.mergedConfigs ++ [json.loaded false]

/-- A document with one option is merged whenever the rule admits it. -/
theorem step_unsignedMerge {r : MergeRecord} {key : CString} {value : Json}
    (hunique : value.UniqueKeys) (hcomplete : (Json.oneOption key value).complete = true)
    (hsound : r.config.Sound) (htagged : r.config.Tagged)
    (hrule : followsMergeRule r.config ((Json.oneOption key value).loaded false) = true) :
    mergeRecords.step r (unsignedMerge (Json.oneOption key value))
      (r.afterUnsigned (Json.oneOption key value)) := by
  have hroot : ∀ m ∈ (Json.oneOption key value).members, m.1 = rootKey := by
    simp [Json.oneOption, Json.members]
  refine ⟨hroot, Json.uniqueKeys_oneOption hunique,
    samconfJsonBackendLoad_yields_iff.mpr ⟨hcomplete, rfl⟩, ⟨plenty, ?_⟩, rfl⟩
  exact Exec.yields_iff.mp (samconfConfigMergeConfig_yields_of_placeable
    (Json.placeable_loaded hroot false) hsound htagged hrule)

/-- The option `b` of the option `a`. -/
def nestedOption : Json := Json.oneOption ['a'] (.object [(['b'], .int 1)])

/-- The option that has both names in its key. -/
def slashedOption : Json := Json.oneOption "a/b".toList (.int 2)

/-- An option found under `a/b` takes the value of an option keyed so. -/
theorem slash_over_nested :
    SiblingsStayDistinct
      ((MergeRecord.afterUnsigned ⟨freshRoot, []⟩ nestedOption).afterUnsigned slashedOption) := by
  have hint (value : ℤ) : (Json.int value).UniqueKeys := Json.uniqueKeys_of_members_eq_nil rfl
  have hfirst : SlashesLeadSomewhere ⟨freshRoot, []⟩ (unsignedMerge nestedOption) :=
    slashesLeadSomewhere_of_mergeable rfl (by decide)
  have hnested : mergeRecords.step ⟨freshRoot, []⟩ (unsignedMerge nestedOption)
      (MergeRecord.afterUnsigned ⟨freshRoot, []⟩ nestedOption) :=
    step_unsignedMerge (Json.uniqueKeys_object_singleton ['b'] (hint 1)) rfl
      consistent_fresh.sound consistent_fresh.tagged (by decide)
  have hcons := consistent_fresh.step hfirst hnested
  refine siblingsStayDistinct_of_reachable (.extend (.extend (.start rfl) hfirst hnested)
    (i := unsignedMerge slashedOption) ?_
    (step_unsignedMerge (hint 2) rfl hcons.sound hcons.tagged (by decide)))
  refine slashesLeadSomewhere_of_found rfl hcons.sound
    (Json.placeable_loaded (by simp [slashedOption, Json.oneOption, Json.members]) false) ?_
  decide

/-- The same option merged twice into a fresh root is there twice. -/
theorem slash_twice :
    ¬ ∀ r, mergeRecords.Reachable System.anyStep r → SiblingsStayDistinct r := by
  intro hdistinct
  let first := MergeRecord.afterUnsigned ⟨freshRoot, []⟩ slashedOption
  let second := first.afterUnsigned slashedOption
  have hint : (Json.int 2).UniqueKeys := Json.uniqueKeys_of_members_eq_nil rfl
  have hfirst : mergeRecords.step ⟨freshRoot, []⟩ (unsignedMerge slashedOption) first :=
    step_unsignedMerge hint rfl consistent_fresh.sound consistent_fresh.tagged (by decide)
  have hsecond : mergeRecords.step first (unsignedMerge slashedOption) second :=
    step_unsignedMerge hint rfl ⟨by decide, by decide⟩ (by decide) (by decide)
  have hsiblings := hdistinct second
    (.extend (.extend (.start rfl) trivial hfirst) trivial hsecond)
  have htwice : ¬ second.config.Distinct := by decide
  exact htwice hsiblings.1

end Samconf
