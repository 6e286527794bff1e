/-
# Types after a merge

Writing a scalar gives a node the scalar's type. Writing a container over an
existing node writes nothing, so the node keeps the type it had, even when that
is a scalar type and the container's children are then inserted below it. A
merge makes the types agree exactly when no container of `configToMerge` meets a
node of another type.

That is for runs without failing allocations. A merge that stops early says OK as
well, so over all supplies the types agree exactly when they did before.
-/

import Samconf.Properties.Completeness
import Samconf.Properties.Overlay

namespace Samconf

open Foundation
open Exec (Yields Ensures Avoids)
open Config (settingWriter)
open RoseTree (relabel)

/-- Every node of `configToMerge` below the top is found under its path with its
own type. -/
def TypesAgree (configToMerge config : Config) : Prop :=
  ∀ p s, p ∈ configToMerge.descendants → configToMerge.sub? p = some s →
    ∃ path d, HasPath configToMerge p path ∧ Finds config path d ∧ d.type = s.label.type

/-- Where a tree has a node at the path of a container, the two have one type. -/
def ContainersAgree (configToMerge config : Config) : Prop :=
  ∀ p s path d, p ∈ configToMerge.descendants → configToMerge.sub? p = some s →
    ¬ s.label.type.IsScalar → HasPath configToMerge p path → Finds config path d →
    d.type = s.label.type

variable {mergedConfig configToMerge : Config}

/-- The type that a write leaves: a container keeps the type of an existing
node. -/
theorem type_result (d : NodeData) (b : Option Setting) :
    (settingWriter.result d b).type =
      if d.type.IsScalar then d.type else b.elim d.type Setting.type := by
  by_cases hscalar : d.type.IsScalar
  · rw [if_pos hscalar]
    exact (result_of_isScalar hscalar b).1
  · rw [if_neg hscalar]
    cases b with
    | none => rfl
    | some b => simp [Writer.result, settingWriter, hscalar]

/-- The node that is found under the path of a node of `configToMerge`. -/
theorem type_of_finds_merged (hwell : mergedConfig.WellFormed) (hmerge : configToMerge.Mergeable)
    {p : List ℕ} {s : Config} {path : CString} {d : NodeData}
    (hp : p ∈ configToMerge.descendants) (hs : configToMerge.sub? p = some s)
    (hpath : HasPath configToMerge p path)
    (hd : Finds (mergedConfig.merged configToMerge) path d) :
    d.type = (settingWriter.result s.label (mergedConfig.setting (pathSegments path))).type := by
  have hne := hpath.pathSegments_ne_nil hmerge hp
  have hsetting := hd.setting (hwell.merged hmerge).sound hne
  rw [setting_merged_of_hasPath hmerge hp hs hpath] at hsetting
  exact (congrArg Setting.type (Option.some.inj hsetting)).symm

/-! ## When allocations fail -/

/-- The tree that a round leaves. -/
def NodeOutcome.config : NodeOutcome → Config
  | .handled mergedConfig => mergedConfig
  | .stopped _ mergedConfig => mergedConfig

/-- Under every path the second tree holds a node of the type that the first has
there, and it is as sound as the first. -/
structure SameTypes (config config' : Config) : Prop where
  sound : config.Sound → config'.Sound
  type_eq : ∀ segments,
    (config'.setting segments).map Setting.type = (config.setting segments).map Setting.type

theorem SameTypes.refl (config : Config) : SameTypes config config := ⟨id, fun _ => rfl⟩

theorem SameTypes.trans {a b c : Config} (hab : SameTypes a b) (hbc : SameTypes b c) :
    SameTypes a c :=
  ⟨fun h => hbc.sound (hab.sound h),
    fun segments => (hbc.type_eq segments).trans (hab.type_eq segments)⟩

/-- Changing the value of a node changes no type. -/
theorem sameTypes_modify {config t : Config} {segments : List CString} {q : List ℕ}
    (hq : config.resolve segments = some q) (ht : config.sub? q = some t) (value : Value) :
    SameTypes config
      (config.modify (relabel fun d => { d with value := value }) q) where
  sound h := ⟨h.counted.modify_relabel ht rfl fun _ hd => hd,
    h.keyed.modify_relabel ht rfl fun _ hd => hd⟩
  type_eq ks := by
    rw [Config.setting, RoseTree.view_modify_relabel (by rfl) hq ht]
    by_cases heq : ks = segments
    · subst heq
      simp [Config.setting_of_resolve hq ht, NodeData.setting]
    · rw [if_neg heq]
      rfl

theorem abandon_ensures (node mergedConfig : Config) :
    (abandon node mergedConfig).Ensures fun outcome => outcome.config = mergedConfig := by
  rw [abandon]
  apply (Exec.ensures_true _).bind
  intro result _
  exact Exec.ensures_pure rfl

/-- A round for a node that meets one of its own type changes no type, whichever
of its allocations fail. -/
theorem mergeNode_sameTypes (hmerge : configToMerge.Mergeable) {p : List ℕ} {s : Config}
    (hp : p ∈ configToMerge.descendants) (hs : configToMerge.sub? p = some s)
    (hsound : mergedConfig.Sound)
    (htype : (mergedConfig.setting (configToMerge.entry p).1).map Setting.type =
      some s.label.type) :
    (mergeNode configToMerge p mergedConfig).Ensures fun outcome =>
      SameTypes mergedConfig outcome.config := by
  have habandon (node : Config) : (abandon node mergedConfig).Ensures fun outcome =>
      SameTypes mergedConfig outcome.config := by
    refine (abandon_ensures node mergedConfig).mono fun outcome houtcome => ?_
    rw [houtcome]
    exact SameTypes.refl mergedConfig
  rcases RoseTree.mem_descendants.mp hp with ⟨hne, -⟩
  rcases Config.exists_segmentsOf hmerge.pathKeyed.keyed hs with ⟨segments, hsegments⟩
  have hwritable := hmerge.writable hp
  rw [Config.entry_eq hsegments hs] at hwritable htype
  have hnode := nodePath_eq hmerge.pathKeyed hmerge.rootPlaced hne hsegments
  have hsplit : pathSegments (['/'].intercalate segments) = segments :=
    segments_intercalate hwritable.pathKeys
  have hget := samconfConfigGet_ensures (['/'].intercalate segments) hsound
    (by rw [hsplit]; exact hwritable.nonempty)
  rw [hsplit] at hget
  rw [mergeNode]
  apply samconfConfigNew_ensures.bind
  rintro created (rfl | rfl)
  · exact Exec.ensures_pure (SameTypes.refl mergedConfig)
  simp only [hs, deref_some, Exec.pure_bind]
  apply (samconfConfigCopyConfig_ensures s).bind
  rintro ⟨status, node⟩ hnodeType
  by_cases hcopy : status = .ok
  swap
  · simpa only [hcopy, ne_eq, not_false_eq_true, if_true] using habandon node
  simp only [hcopy, ne_eq, not_true_eq_false, if_false]
  apply (samconfPathGetPath_ensures configToMerge p).bind
  rintro r (rfl | rfl | ⟨path, hpath, rfl⟩)
  · exact habandon node
  · exact habandon node
  obtain rfl : ['/'].intercalate segments = path := by
    rw [hnode] at hpath
    cases hpath
    rfl
  apply hget.bind
  rintro r (rfl | rfl)
  · exact habandon node
  cases hresolve : mergedConfig.resolve segments with
  | none =>
      rw [Config.setting, RoseTree.view_eq_none_iff.mpr hresolve] at htype
      cases htype
  | some q =>
      rcases RoseTree.exists_sub?_of_resolve hresolve with ⟨t, ht⟩
      have hsetting := Config.setting_of_resolve hresolve ht
      have hsame : t.label.type = node.label.type := by
        rw [hsetting] at htype
        exact (Option.some.inj htype).trans (hnodeType hcopy).symm
      simp only [lookupResult, reduceCtorEq, if_false, if_true, ht, deref_some,
        Exec.pure_bind]
      apply (samconfCopyConfigValue_ensures node hsame).bind
      rintro ⟨written, target⟩ ⟨value, rfl⟩
      have htree : mergedConfig.modify
            (fun _ => relabel (fun d => { d with value := value }) t) q =
          mergedConfig.modify (relabel fun d => { d with value := value }) q :=
        RoseTree.modify_congr ht rfl
      have hwritten := sameTypes_modify hresolve ht value
      simp only [htree]
      by_cases hok : written = .ok
      · simp only [hok, not_true_eq_false, if_false]
        apply (Exec.ensures_true _).bind
        intro status _
        split
        · exact Exec.ensures_pure hwritten
        · exact Exec.ensures_pure hwritten
      · simp only [hok, not_false_eq_true, if_true]
        refine (abandon_ensures node _).mono fun outcome houtcome => ?_
        rw [houtcome]
        exact hwritten

theorem sameTypes_markSigned (configToMerge config : Config) :
    SameTypes config (Config.markSigned configToMerge config) where
  sound h := ⟨h.counted.markSigned configToMerge fun _ _ _ hd => hd,
    h.keyed.markSigned configToMerge fun _ _ _ hd => hd⟩
  type_eq segments := by
    by_cases hne : segments = []
    · subst hne
      rw [Config.markSigned]
      split
      · simp [Config.setting, NodeData.setting]
      · rfl
    · rw [Config.setting_markSigned configToMerge hne]

/-- The types of `configToMerge` in terms of settings. -/
theorem typesAgree_iff_setting {config : Config} (hsound : config.Sound)
    (hmerge : configToMerge.Mergeable) :
    TypesAgree configToMerge config ↔
      ∀ p s, p ∈ configToMerge.descendants → configToMerge.sub? p = some s →
        (config.setting (configToMerge.entry p).1).map Setting.type = some s.label.type := by
  constructor
  · intro hagree p s hp hs
    rcases hagree p s hp hs with ⟨path, d, hpath, hd, htype⟩
    rw [hpath.setting_entry hmerge hp hsound hd]
    exact congrArg some htype
  · intro hsettings p s hp hs
    rcases hmerge.exists_hasPath hp with ⟨path, hpath, hsegments⟩
    rcases Option.map_eq_some_iff.mp (hsettings p s hp hs) with ⟨b, hb, htype⟩
    rw [← hsegments] at hb
    rcases exists_finds hsound (hpath.pathSegments_ne_nil hmerge hp) hb with
      ⟨d, hd, rfl⟩
    exact ⟨path, d, hpath, hd, htype⟩

/-- Where all types agree already, a merge changes none of them, whichever
allocations fail. -/
theorem mergeConfig_sameTypes (hwell : mergedConfig.WellFormed)
    (hmerge : configToMerge.Mergeable) (hagree : TypesAgree configToMerge mergedConfig) :
    (mergeConfig mergedConfig (some configToMerge)).Ensures fun outcome =>
      SameTypes mergedConfig outcome.mergedConfig := by
  have hsettings := (typesAgree_iff_setting hwell.sound hmerge).mp hagree
  rw [mergeConfig]
  split
  · let Inv (state : MergeState) : Prop :=
      SameTypes mergedConfig state.mergedConfig ∧ ∃ rest, OnTrack configToMerge state rest
    refine Exec.loop_ensures Inv ?_
      ⟨SameTypes.refl mergedConfig, _, onTrack_start mergedConfig configToMerge⟩
    rintro state ⟨hsame, rest, htrack⟩
    rcases htrack.split with ⟨before, hsplit⟩
    cases rest with
    | nil =>
        rw [mergeStep_of_last hmerge.counted.readable hsplit]
        exact Exec.ensures_pure
          (hsame.trans (sameTypes_markSigned configToMerge state.mergedConfig))
    | cons p rest =>
        have hp : p ∈ configToMerge.descendants := by simp [htrack.descendants_eq]
        rcases RoseTree.mem_descendants.mp hp with ⟨-, s, hs⟩
        have htype := (hsame.type_eq _).trans (hsettings p s hp hs)
        rw [mergeStep_of_next hmerge.counted.readable hsplit]
        apply (mergeNode_sameTypes hmerge hp hs (hsame.sound hwell.sound) htype).bind
        intro outcome hround
        cases outcome with
        | handled config =>
            exact Exec.ensures_pure ⟨hsame.trans hround, rest, htrack.next config⟩
        | stopped result config => exact Exec.ensures_pure (hsame.trans hround)
  · exact Exec.ensures_pure (SameTypes.refl mergedConfig)

/-! ## The types after a merge -/

/-- Without failing allocations the types agree exactly when no container of
`configToMerge` meets a node of another type. -/
theorem typesAgree_of_yields_iff (hwell : mergedConfig.WellFormed)
    (hmerge : configToMerge.Mergeable) :
    (∀ result, (samconfConfigMergeConfig mergedConfig (some configToMerge)).Yields (.ok, result) →
        TypesAgree configToMerge result) ↔
      (followsMergeRule mergedConfig configToMerge = true →
        ContainersAgree configToMerge mergedConfig) := by
  constructor
  · intro hagree hrule p s path d hp hs hcontainer hpath hd
    have hmerged := hagree _ (samconfConfigMergeConfig_yields hmerge hwell.sound hwell.tagged hrule)
    rcases hmerged p s hp hs with ⟨path', d', hpath', hd', htype⟩
    have hsame := hpath.unique hpath'
    cases hsame
    have hne := hpath.pathSegments_ne_nil hmerge hp
    rw [type_of_finds_merged hwell hmerge hp hs hpath hd', type_result, if_neg hcontainer,
      hd.setting hwell.sound hne] at htype
    exact htype
  · intro hcontainers result hresult p s hp hs
    rcases eq_merged_of_run hwell.sound hwell.tagged hmerge (Exec.yields_iff.mp hresult) with
      ⟨hrule, rfl⟩
    rcases hmerge.exists_hasPath hp with ⟨path, hpath, hsegments⟩
    have hne := hpath.pathSegments_ne_nil hmerge hp
    rcases exists_finds (hwell.merged hmerge).sound hne
      (setting_merged_of_hasPath hmerge hp hs hpath) with ⟨d, hd, -⟩
    refine ⟨path, d, hpath, hd, ?_⟩
    rw [type_of_finds_merged hwell hmerge hp hs hpath hd, type_result]
    by_cases hscalar : s.label.type.IsScalar
    · rw [if_pos hscalar]
    · rw [if_neg hscalar]
      cases hbefore : mergedConfig.setting (pathSegments path) with
      | none => rfl
      | some b =>
          rcases exists_finds hwell.sound hne hbefore with ⟨d', hd', rfl⟩
          exact hcontainers hrule p s path d' hp hs hscalar hpath hd'

/-- Whichever allocations fail, the types agree exactly when they did before. -/
theorem typesAgree_of_ensures_iff (hwell : mergedConfig.WellFormed)
    (hmerge : configToMerge.Mergeable) :
    ((samconfConfigMergeConfig mergedConfig (some configToMerge)).Ensures fun r =>
        r.1 = .ok → TypesAgree configToMerge r.2) ↔
      (followsMergeRule mergedConfig configToMerge = true →
        TypesAgree configToMerge mergedConfig) := by
  constructor
  · intro hensures hrule p s hp hs
    rcases mergeConfig_refuseSecond hmerge.sound hrule (List.ne_nil_of_mem hp) with ⟨o', hrun⟩
    have hmerged : samconfConfigMergeConfig mergedConfig (some configToMerge) refuseSecond =
        .ok ((.ok, mergedConfig), o') := by
      rw [samconfConfigMergeConfig, Exec.bind_of_ok hrun]
      rfl
    exact Exec.ensures_iff.mp hensures _ _ _ hmerged rfl p s hp hs
  · intro hbefore
    rw [samconfConfigMergeConfig]
    cases hrule : followsMergeRule mergedConfig configToMerge with
    | false =>
        rw [mergeConfig_of_not_rule hrule]
        exact Exec.ensures_pure fun hok => by cases hok
    | true =>
        have hagree := hbefore hrule
        apply (mergeConfig_sameTypes hwell hmerge hagree).bind
        intro outcome hsame
        refine Exec.ensures_pure fun _ => ?_
        rw [typesAgree_iff_setting (hsame.sound hwell.sound) hmerge]
        intro p s hp hs
        rw [hsame.type_eq]
        exact (typesAgree_iff_setting hwell.sound hmerge).mp hagree p s hp hs

/-- **A successful merge makes types agree** exactly when the rule refuses it, or
no container of `configToMerge` meets a node of another type. That is for runs
without failing allocations. To make the types agree whichever allocations fail,
the merged tree must have had them before: a merge that stops early says OK. -/
theorem typesAgree_iff (hwell : mergedConfig.WellFormed) (hmerge : configToMerge.Mergeable) :
    ((∀ result,
        (samconfConfigMergeConfig mergedConfig (some configToMerge)).Yields (.ok, result) →
          TypesAgree configToMerge result) ↔
      (followsMergeRule mergedConfig configToMerge = true →
        ContainersAgree configToMerge mergedConfig)) ∧
    (((samconfConfigMergeConfig mergedConfig (some configToMerge)).Ensures fun r =>
        r.1 = .ok → TypesAgree configToMerge r.2) ↔
      (followsMergeRule mergedConfig configToMerge = true →
        TypesAgree configToMerge mergedConfig)) :=
  ⟨typesAgree_of_yields_iff hwell hmerge, typesAgree_of_ensures_iff hwell hmerge⟩

/-- Objects meet objects, an integer is written over by a boolean, and a node is new. -/
theorem objects_over_objects :
    ∃ result, (samconfConfigMergeConfig
        ((Json.oneOption ['a'] (.object [(['b'], .int 1)])).loaded false)
        (some ((Json.oneOption ['a']
          (.object [(['b'], .boolean true), (['c'], .int 2)])).loaded true))).Yields (.ok, result) ∧
      TypesAgree ((Json.oneOption ['a']
        (.object [(['b'], .boolean true), (['c'], .int 2)])).loaded true) result := by
  let merged := (Json.oneOption ['a'] (.object [(['b'], .int 1)])).loaded false
  let added := (Json.oneOption ['a']
    (.object [(['b'], .boolean true), (['c'], .int 2)])).loaded true
  have hwell : merged.WellFormed := by decide
  have hmerge : added.Mergeable := by decide
  have hyields := samconfConfigMergeConfig_yields hmerge hwell.sound hwell.tagged (by decide)
  have hcontainers : ∀ p ∈ added.descendants, ∀ s ∈ added.sub? p, ¬ s.label.type.IsScalar →
      ∀ b ∈ merged.setting (added.entry p).1, b.type = s.label.type := by decide
  refine ⟨_, hyields, (typesAgree_iff hwell hmerge).1.mpr
    (fun _ p s path d hp hs hcontainer hpath hd => ?_) _ hyields⟩
  exact hcontainers p hp s hs hcontainer d.setting (hpath.setting_entry hmerge hp hwell.sound hd)

/-- An object that is merged over an integer leaves the integer. -/
theorem object_over_integer :
    ¬ ∀ result, (samconfConfigMergeConfig ((Json.oneOption ['a'] (.int 1)).loaded false)
        (some ((Json.oneOption ['a'] (.object [(['b'], .int 2)])).loaded false))).Yields
          (.ok, result) →
      TypesAgree ((Json.oneOption ['a'] (.object [(['b'], .int 2)])).loaded false) result := by
  intro hagree
  let merged := (Json.oneOption ['a'] (.int 1)).loaded false
  let added := (Json.oneOption ['a'] (.object [(['b'], .int 2)])).loaded false
  have hwell : merged.WellFormed := by decide
  have hmerge : added.Mergeable := by decide
  have hyields := samconfConfigMergeConfig_yields hmerge hwell.sound hwell.tagged (by decide)
  have htypes := hagree _ hyields
  rcases htypes [0, 0] _ (by decide) rfl with ⟨path, d, hpath, hd, htype⟩
  have hfound := type_of_finds_merged hwell hmerge (by decide) rfl hpath hd
  have hsegments : pathSegments path = [rootKey, ['a']] :=
    hpath.pathSegments_eq hmerge (by decide)
  rw [hsegments, htype] at hfound
  revert hfound
  decide

end Samconf
