/-
# Whose value, whose flag

A merge gives an option a value in one of two ways. An option that is new is a copy
and carries the flag of the configuration it comes from. An option that is there
gets the type and the value, and keeps its flag. The module runs merges one after the
other from a fresh root, beside a record of which configuration gave each option its
value last, and says on which runs every flag agrees with the record.
-/

import Samconf.Foundation.Runs
import Samconf.Spec.Find
import Samconf.Spec.Json

namespace Samconf

open Foundation
open Exec (Yields)
open Config (settingWriter)

/-! ## Histories of merges -/

/-- A merged tree, and for the options in it whether the configuration that gave
the value last is signed. -/
structure History where
  config : Config
  lastWriter : List CString → Option Bool

/-- A document, how it is loaded, and the supply that its merge runs on. -/
structure MergeEvent where
  json : Json
  isSigned : Bool
  configToMerge : Config
  supply : Supply

/-- Record the scalars of a configuration as written by it. -/
def recordWriter (configToMerge : Config) (isSigned : Bool)
    (lastWriter : List CString → Option Bool) : List CString → Option Bool := fun segments =>
  if ∃ e ∈ configToMerge.entries, e.1 = segments ∧ e.2.type.IsScalar then some isSigned
  else lastWriter segments

/-- Successful merges of loaded documents, from a fresh root on. -/
def mergeHistory : System History MergeEvent where
  initial h := h = ⟨freshRoot, fun _ => none⟩
  step h event h' :=
    event.json.Named ∧ event.json.UniqueKeys ∧
    (samconfJsonBackendLoad event.json event.isSigned).Yields (.ok, some event.configToMerge) ∧
    (∃ o, samconfConfigMergeConfig h.config (some event.configToMerge) event.supply =
      .ok ((.ok, h'.config), o)) ∧
    h'.lastWriter = recordWriter event.configToMerge event.isSigned h.lastWriter

/-- Every scalar below the root has the flag of the configuration that gave it its
value last. -/
def FlagsTrue (h : History) : Prop :=
  ∀ p s, p ∈ h.config.descendants → h.config.sub? p = some s → s.label.type.IsScalar →
    ∃ keys, h.config.keysAt p = some keys ∧ h.lastWriter keys = some s.label.isSigned

/-- No allocation fails, and no scalar of a signed configuration meets an unsigned
node. -/
def MeetsSigned (h : History) (event : MergeEvent) : Prop :=
  event.supply = plenty ∧
    (event.isSigned = true → ∀ p s path d, p ∈ event.configToMerge.descendants →
      event.configToMerge.sub? p = some s → s.label.type.IsScalar →
      HasPath event.configToMerge p path → Finds h.config path d → d.isSigned = true)

/-! ## One merge -/

/-- All nodes have one flag. -/
abbrev Config.Uniform (config : Config) (isSigned : Bool) : Prop :=
  config.Everywhere fun d _ => d.isSigned = isSigned

theorem Json.uniform_tree (isSigned : Bool) (json : Json) (key : Option CString) :
    Config.Uniform (json.tree isSigned key) isSigned :=
  everywhere_tree_of_within fun sub key _ => isSigned_label isSigned sub key

/-- What the record says of every setting. -/
def Recorded (setting : List CString → Option Setting) (lastWriter : List CString → Option Bool) :
    Prop :=
  ∀ segments b, segments ≠ [] → setting segments = some b → b.type.IsScalar →
    lastWriter segments = some b.isSigned

/-- Below an unsigned root nothing is signed. -/
def UnsignedBelow (config : Config) : Prop :=
  config.label.isSigned = false →
    ∀ segments b, config.setting segments = some b → b.isSigned = false

/-- What holds of every history. -/
structure History.Consistent (h : History) : Prop where
  wellFormed : h.config.WellFormed
  unsignedBelow : UnsignedBelow h.config
  recorded : Recorded h.config.setting h.lastWriter

section Merge

variable {mergedConfig configToMerge : Config} {isSigned : Bool}

theorem Config.Uniform.entry (h : configToMerge.Uniform isSigned) {e : Entry}
    (he : e ∈ configToMerge.entries) : e.2.isSigned = isSigned := by
  obtain ⟨p, hp, rfl⟩ := List.mem_map.mp he
  rcases RoseTree.mem_descendants.mp hp with ⟨-, s, hs⟩
  rw [Config.entry_snd hs]
  exact h p s hs

/-- The flag that a write leaves is that of the node that is there, or else that
of the entry. -/
theorem isSigned_result (d : NodeData) (b : Option Setting) :
    (settingWriter.result d b).isSigned = b.elim d.isSigned Setting.isSigned := by
  cases b with
  | none => rfl
  | some b =>
      simp only [Writer.result, settingWriter]
      split <;> rfl

/-- A scalar of an admitted configuration leaves the configuration's flag when a
signed one meets only signed nodes. -/
theorem isSigned_result_of_rule (hrule : followsMergeRule mergedConfig configToMerge = true)
    (hunsigned : UnsignedBelow mergedConfig) (huniform : configToMerge.Uniform isSigned)
    {e : Entry} (he : e ∈ configToMerge.entries)
    (hmeets : isSigned = true → ∀ b, mergedConfig.setting e.1 = some b → b.isSigned = true) :
    (settingWriter.result e.2 (mergedConfig.setting e.1)).isSigned = isSigned := by
  rw [isSigned_result]
  cases hb : mergedConfig.setting e.1 with
  | none => exact huniform.entry he
  | some b =>
      cases isSigned with
      | true => exact hmeets rfl b hb
      | false =>
          -- an unsigned configuration is admitted under an unsigned root only
          have htop : configToMerge.label.isSigned = false := huniform.self
          have hroot : mergedConfig.label.isSigned = false := by
            by_contra hsigned
            have hrefused := followsMergeRule_eq_false_iff.mpr ⟨by simpa using hsigned, htop⟩
            rw [hrule] at hrefused
            cases hrefused
          exact hunsigned hroot _ b hb

theorem UnsignedBelow.merged (h : UnsignedBelow mergedConfig) (hmerge : configToMerge.Mergeable)
    (huniform : configToMerge.Uniform isSigned) :
    UnsignedBelow (mergedConfig.merged configToMerge) := by
  intro hroot segments b hb
  by_cases hne : segments = []
  · subst hne
    have hlabel := (RoseTree.view_nil (mergedConfig.merged configToMerge)).symm.trans hb
    have hsetting : b = (mergedConfig.merged configToMerge).label.setting :=
      (Option.some.inj hlabel).symm
    rw [hsetting]
    exact hroot
  · rw [Config.isSigned_merged hmerge, Bool.or_eq_false_iff] at hroot
    rw [hmerge.setting_merged mergedConfig hne] at hb
    rcases Writer.overlay_eq_some hmerge.ordered hb with ⟨e, he, -, rfl⟩ | ⟨-, hkept | hblank⟩
    · rw [isSigned_result]
      cases hbefore : mergedConfig.setting segments with
      | none =>
          have htop : configToMerge.label.isSigned = isSigned := huniform.self
          rw [Option.elim_none, huniform.entry he, ← htop]
          exact hroot.2
      | some b => exact h hroot.1 segments b hbefore
    · exact h hroot.1 segments b hkept
    · obtain ⟨-, -, k, -, rfl⟩ := hblank
      rfl

theorem Recorded.merged {lastWriter : List CString → Option Bool}
    (h : Recorded mergedConfig.setting lastWriter) (hmerge : configToMerge.Mergeable)
    (hflags : ∀ e ∈ configToMerge.entries, e.2.type.IsScalar →
      (settingWriter.result e.2 (mergedConfig.setting e.1)).isSigned = isSigned) :
    Recorded (mergedConfig.merged configToMerge).setting
      (recordWriter configToMerge isSigned lastWriter) := by
  intro segments b hne hb hscalar
  rw [hmerge.setting_merged mergedConfig hne] at hb
  by_cases hwritten : ∃ e ∈ configToMerge.entries, e.1 = segments ∧ e.2.type.IsScalar
  · rw [recordWriter, if_pos hwritten]
    obtain ⟨e, he, rfl, hescalar⟩ := hwritten
    rw [Writer.overlay_of_mem hmerge.ordered he] at hb
    obtain rfl := Option.some.inj hb
    rw [hflags e he hescalar]
  · rw [recordWriter, if_neg hwritten]
    rcases Writer.overlay_eq_some hmerge.ordered hb with ⟨e, he, rfl, rfl⟩ | ⟨-, hkept | hblank⟩
    · -- what is no scalar leaves a scalar only where one is
      have hcontainer : ¬ e.2.type.IsScalar := fun hescalar => hwritten ⟨e, he, rfl, hescalar⟩
      cases hbefore : mergedConfig.setting e.1 with
      | none =>
          rw [hbefore] at hscalar
          exact absurd hscalar hcontainer
      | some b =>
          have hover : settingWriter.result e.2 (some b) = b := by
            simp [Writer.result, settingWriter, hcontainer]
          rw [hbefore, hover] at hscalar
          rw [hover]
          exact h e.1 b hne hbefore hscalar
    · exact h segments b hne hkept hscalar
    · obtain ⟨-, -, k, -, rfl⟩ := hblank
      simp [settingWriter, NodeData.blank, NodeData.setting, ConfigValueType.IsScalar] at hscalar

/-- What meets signed nodes only, read off the paths that the two functions give. -/
theorem forall_entries_of_finds (hwell : mergedConfig.WellFormed)
    (hmerge : configToMerge.Mergeable)
    (h : ∀ p s path d, p ∈ configToMerge.descendants → configToMerge.sub? p = some s →
      s.label.type.IsScalar → HasPath configToMerge p path → Finds mergedConfig path d →
      d.isSigned = true) :
    ∀ e ∈ configToMerge.entries, e.2.type.IsScalar →
      ∀ b, mergedConfig.setting e.1 = some b → b.isSigned = true := by
  intro e he hscalar b hb
  obtain ⟨p, hp, rfl⟩ := List.mem_map.mp he
  rcases RoseTree.mem_descendants.mp hp with ⟨-, s, hs⟩
  rcases hmerge.exists_hasPath hp with ⟨path, hpath, hsegments⟩
  have hne := hpath.pathSegments_ne_nil hmerge hp
  rw [← hsegments] at hb
  rcases exists_finds hwell.sound hne hb with ⟨d, hd, rfl⟩
  rw [Config.entry_snd hs] at hscalar
  exact h p s path d hp hs hscalar hpath hd

end Merge

/-! ## All merges -/

theorem consistent_initial : History.Consistent ⟨freshRoot, fun _ => none⟩ where
  wellFormed := by decide
  unsignedBelow := by
    intro _ segments b hb
    cases segments with
    | nil =>
        obtain rfl := Option.some.inj hb
        rfl
    | cons segment rest => cases hb
  recorded := by
    intro segments b hne hb
    cases segments with
    | nil => exact absurd rfl hne
    | cons segment rest => cases hb

/-- One guarded merge keeps the flags and the record together. -/
theorem History.Consistent.step {h h' : History} {event : MergeEvent} (hcons : h.Consistent)
    (hguard : MeetsSigned h event) (hstep : mergeHistory.step h event h') : h'.Consistent := by
  rcases hstep with ⟨hnamed, hunique, hload, ⟨o, hrun⟩, hrecord⟩
  rcases hguard with ⟨hplenty, hmeets⟩
  have hloaded := (samconfJsonBackendLoad_yields_iff.mp hload).2
  have hmerge : event.configToMerge.Mergeable := by
    rw [hloaded]
    exact hnamed.mergeable hunique event.isSigned configKey_ne_rootKey
  have huniform : event.configToMerge.Uniform event.isSigned := by
    rw [hloaded]
    exact Json.uniform_tree event.isSigned event.json (some configKey)
  rw [hplenty] at hrun
  rcases eq_merged_of_run hcons.wellFormed.sound hcons.wellFormed.tagged hmerge
    hrun with ⟨hrule, hmerged⟩
  have hflags : ∀ e ∈ event.configToMerge.entries, e.2.type.IsScalar →
      (settingWriter.result e.2 (h.config.setting e.1)).isSigned = event.isSigned :=
    fun e he hscalar => isSigned_result_of_rule hrule hcons.unsignedBelow huniform he
      fun hsigned => forall_entries_of_finds hcons.wellFormed hmerge (hmeets hsigned) e he hscalar
  exact {
    wellFormed := hmerged ▸ hcons.wellFormed.merged hmerge
    unsignedBelow := hmerged ▸ hcons.unsignedBelow.merged hmerge huniform
    recorded := by
      rw [hmerged, hrecord]
      exact hcons.recorded.merged hmerge hflags }

/-- Where flags and record agree, every scalar node has the recorded flag. -/
theorem History.Consistent.flagsTrue {h : History} (hcons : h.Consistent) : FlagsTrue h := by
  intro p s hp hs hscalar
  rcases RoseTree.mem_descendants.mp hp with ⟨hne, -, -⟩
  rcases RoseTree.exists_keysAt hcons.wellFormed.pathKeyed.keyed hs with ⟨keys, hkeys⟩
  have hresolve := RoseTree.resolve_keysAt hcons.wellFormed.distinct hkeys
  have hsetting := Config.setting_of_resolve hresolve hs
  have hkeysNe : keys ≠ [] := by
    rintro rfl
    exact hne (List.length_eq_zero_iff.mp (RoseTree.length_keysAt hkeys).symm)
  exact ⟨keys, hkeys, hcons.recorded keys _ hkeysNe hsetting hscalar⟩

/-- **Flags tell who wrote** in every history in which no allocation fails and no
scalar of a signed configuration meets an unsigned node. -/
theorem flagsTrue_of_reachable {h : History} (hreachable : mergeHistory.Reachable MeetsSigned h) :
    FlagsTrue h := by
  apply History.Consistent.flagsTrue
  refine hreachable.invariant ?_ ?_
  · rintro h rfl
    exact consistent_initial
  · intro h event h' hcons hguard hstep
    exact hcons.step hguard hstep

/-! ## Two merges -/

/-- The merge of a document with one option. -/
def optionMerge (value : ℤ) (isSigned : Bool) : MergeEvent where
  json := Json.oneOption ['a'] (.int value)
  isSigned := isSigned
  configToMerge := (Json.oneOption ['a'] (.int value)).loaded isSigned
  supply := plenty

/-- The history after the merge of a document with one option. -/
def History.afterOption (h : History) (value : ℤ) (isSigned : Bool) : History where
  config := h.config.merged (optionMerge value isSigned).configToMerge
  lastWriter := recordWriter (optionMerge value isSigned).configToMerge isSigned h.lastWriter

/-- A document with one option is merged whenever the rule admits it. -/
theorem step_optionMerge {h : History} {value : ℤ} {isSigned : Bool}
    (hwell : h.config.WellFormed)
    (hrule : followsMergeRule h.config (optionMerge value isSigned).configToMerge = true) :
    mergeHistory.step h (optionMerge value isSigned) (h.afterOption value isSigned) := by
  have hunique : (Json.oneOption ['a'] (.int value)).UniqueKeys :=
    Json.uniqueKeys_oneOption (Json.uniqueKeys_of_members_eq_nil rfl)
  have hnamed : (Json.oneOption ['a'] (.int value)).Named :=
    Json.named_oneOption (by decide) (by decide) rfl
  have hmerge := hnamed.mergeable hunique isSigned configKey_ne_rootKey
  refine ⟨hnamed, hunique, samconfJsonBackendLoad_yields_iff.mpr ⟨rfl, rfl⟩,
    ⟨plenty, ?_⟩, rfl⟩
  exact Exec.yields_iff.mp (samconfConfigMergeConfig_yields hmerge hwell.sound hwell.tagged hrule)

/-- A signed option meets signed nodes when the settings under its paths are signed. -/
theorem meetsSigned_optionMerge {h : History} {value : ℤ} (hsound : h.config.Sound)
    (hmerge : (optionMerge value true).configToMerge.Mergeable)
    (hsigned : ∀ p ∈ (optionMerge value true).configToMerge.descendants,
      ∀ s ∈ (optionMerge value true).configToMerge.sub? p, s.label.type.IsScalar →
      ∀ b ∈ h.config.setting ((optionMerge value true).configToMerge.entry p).1,
        b.isSigned = true) : MeetsSigned h (optionMerge value true) := by
  refine ⟨rfl, fun _ p s path d hp hs hscalar hpath hd => ?_⟩
  exact hsigned p hp s hs hscalar d.setting (hpath.setting_entry hmerge hp hsound hd)

/-- Two signed configurations write one option, and it is signed after the second. -/
theorem signed_over_signed :
    FlagsTrue ((History.afterOption ⟨freshRoot, fun _ => none⟩ 1 true).afterOption 2 true) := by
  let first := History.afterOption ⟨freshRoot, fun _ => none⟩ 1 true
  have hwell : first.config.WellFormed := by decide
  have hmeets : MeetsSigned ⟨freshRoot, fun _ => none⟩ (optionMerge 1 true) :=
    meetsSigned_optionMerge consistent_initial.wellFormed.sound (by decide) (by decide)
  have hmeets' : MeetsSigned first (optionMerge 2 true) :=
    meetsSigned_optionMerge hwell.sound (by decide) (by decide)
  exact flagsTrue_of_reachable
    (.extend (.extend (.start rfl) hmeets (step_optionMerge (by decide) (by decide))) hmeets'
      (step_optionMerge hwell (by decide)))

/-- A signed value over an unsigned option leaves it unsigned. -/
theorem signed_over_unsigned :
    ¬ ∀ h, mergeHistory.Reachable System.anyStep h → FlagsTrue h := by
  intro hflags
  let first := History.afterOption ⟨freshRoot, fun _ => none⟩ 1 false
  let second := first.afterOption 2 true
  have hfirst : mergeHistory.step ⟨freshRoot, fun _ => none⟩ (optionMerge 1 false) first :=
    step_optionMerge (by decide) (by decide)
  have hsecond : mergeHistory.step first (optionMerge 2 true) second :=
    step_optionMerge (by decide) (by decide)
  have htrue := hflags second (.extend (.extend (.start rfl) trivial hfirst) trivial hsecond)
  rcases htrue [0, 0] (.node ⟨some ['a'], false, .int, .integer 2, 0⟩ []) (by decide) rfl
    (by decide) with ⟨keys, hkeys, hwriter⟩
  obtain rfl : [rootKey, ['a']] = keys := Option.some.inj hkeys
  revert hwriter
  decide

end Samconf
