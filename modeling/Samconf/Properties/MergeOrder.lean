/-
# When the order of two configurations matters

Two configurations with one flag can be merged in either order. The two trees then
have the same settings unless the configurations disagree about an option: both give
it a value and the values differ, or, where the tree has nothing yet, they would make
different nodes. The exact condition is about single paths, and where the tree has
the node already it is about scalars alone.
-/

import Samconf.Spec.GraftView
import Samconf.Spec.Shape

namespace Samconf

open Foundation
open Exec (Yields)
open NodeData (grafting lawful_grafting)
open RoseTree (relabel)
open Config (settingWriter)

/-! ## Agreement -/

/-- Two nodes give an option the same type and value, if both give it one. -/
def NodeData.SameValue (l m : NodeData) : Prop :=
  l.type.IsScalar → m.type.IsScalar → l.type = m.type ∧ l.content = m.content

/-- Two nodes agree about what the tree has in their place: where there is something
they give it the same value, and where there is nothing they make the same of it. -/
def NodeData.Agree (l m : NodeData) : Option Setting → Prop
  | some _ => l.SameValue m
  | none => l.SameValue m ∧ l.isSigned = m.isSigned ∧
      (¬ l.type.IsScalar → ¬ m.type.IsScalar → l.type = m.type)

/-- Nodes without values agree when they have one type and one flag. -/
theorem NodeData.agree_of_containers {l m : NodeData} (hl : ¬ l.type.IsScalar)
    (htype : l.type = m.type) (hsigned : l.isSigned = m.isSigned) (b : Option Setting) :
    l.Agree m b := by
  cases b with
  | none => exact ⟨fun h => absurd h hl, hsigned, fun _ _ => htype⟩
  | some b => exact fun h => absurd h hl

/-- Two configurations agree about a tree. -/
def Config.AgreeOn (first second config : Config) : Prop :=
  ∀ k ks l m, first.nodeAt (k :: ks) = some l → second.nodeAt (k :: ks) = some m →
    l.Agree m (config.setting (k :: ks))

/-! ## Entry by entry -/

/-- **Two writes to one entry** come out the same in either order exactly when the nodes
agree. -/
theorem result_comm_iff {l m : NodeData} {b : Option Setting} :
    settingWriter.update m (settingWriter.result l b) =
      settingWriter.update l (settingWriter.result m b) ↔ l.Agree m b := by
  have hswap : (m.type = l.type ∧ m.content = l.content) ↔
      (l.type = m.type ∧ l.content = m.content) :=
    and_congr eq_comm eq_comm
  cases b with
  | some b =>
      -- the flag is that of the entry, so the values decide
      by_cases hl : l.type.IsScalar <;> by_cases hm : m.type.IsScalar <;>
        simp [Writer.result, settingWriter, NodeData.Agree, NodeData.SameValue, hl, hm, hswap]
  | none =>
      -- the flag is that of the node which is there first
      by_cases hl : l.type.IsScalar <;> by_cases hm : m.type.IsScalar <;>
        simp [Writer.result, settingWriter, NodeData.Agree, NodeData.SameValue, NodeData.copied,
          NodeData.setting, hl, hm, hswap, and_comm]

/-! ## Two orders -/

section Orders

variable {mergedConfig first second : Config}

/-- An admitted merge of a configuration that has the flag of an earlier one. -/
theorem followsMergeRule_stepByPath (hflags : first.label.isSigned = second.label.isSigned)
    (hrule : followsMergeRule mergedConfig first = true) :
    followsMergeRule (mergedConfig.stepByPath first) second = true := by
  rw [followsMergeRule, Config.isSigned_stepByPath, ← hflags]
  rw [followsMergeRule] at hrule
  cases hmerged : mergedConfig.label.isSigned <;> cases hfirst : first.label.isSigned <;>
    simp_all

/-- The settings that two merges leave, one after the other. -/
theorem setting_stepByPath_stepByPath (hfirst : first.Mergeable) (hsecond : second.Mergeable)
    (hflags : first.label.isSigned = second.label.isSigned)
    (hrule : followsMergeRule mergedConfig first = true) (k : CString) (ks : List CString) :
    Config.setting ((mergedConfig.stepByPath first).stepByPath second) (k :: ks) =
      Config.setting ((mergedConfig.grafted first).grafted second) (k :: ks) := by
  rw [hsecond.setting_stepByPath (followsMergeRule_stepByPath hflags hrule),
    hsecond.setting_grafted, hfirst.setting_stepByPath hrule, ← hsecond.setting_grafted]

/-- **When the order matters.** Let two configurations have one flag, and let the rule
admit them. Without failing allocations they can be merged in either order, and the
two trees have the same settings exactly when the configurations agree about the tree
they are merged into. -/
theorem samconfConfigMergeConfig_order_iff (hsound : mergedConfig.Sound)
    (htagged : mergedConfig.Tagged) (hfirst : first.Mergeable) (hsecond : second.Mergeable)
    (hflags : first.label.isSigned = second.label.isSigned)
    (hrule : followsMergeRule mergedConfig first = true) :
    ∃ firstOnly firstThenSecond secondOnly secondThenFirst : Config,
      (samconfConfigMergeConfig mergedConfig (some first)).Yields (.ok, firstOnly) ∧
      (samconfConfigMergeConfig firstOnly (some second)).Yields (.ok, firstThenSecond) ∧
      (samconfConfigMergeConfig mergedConfig (some second)).Yields (.ok, secondOnly) ∧
      (samconfConfigMergeConfig secondOnly (some first)).Yields (.ok, secondThenFirst) ∧
      ((∀ segments, segments ≠ [] →
          firstThenSecond.setting segments = secondThenFirst.setting segments) ↔
        first.AgreeOn second mergedConfig) := by
  have hrule' : followsMergeRule mergedConfig second = true := by
    rwa [followsMergeRule, ← hflags]
  have hstep {config c : Config} (hsound : config.Sound) (htagged : config.Tagged)
      (hc : c.Mergeable) (hrule : followsMergeRule config c = true) :
      (samconfConfigMergeConfig config (some c)).Yields (.ok, config.stepByPath c) := by
    have hyields := samconfConfigMergeConfig_stepByPath hsound htagged hc.placeable
    rwa [mergeStatus, if_pos hrule] at hyields
  refine ⟨mergedConfig.stepByPath first, (mergedConfig.stepByPath first).stepByPath second,
    mergedConfig.stepByPath second, (mergedConfig.stepByPath second).stepByPath first,
    hstep hsound htagged hfirst hrule,
    hstep (hsound.stepByPath hfirst.placeable) (htagged.stepByPath hfirst.placeable) hsecond
      (followsMergeRule_stepByPath hflags hrule),
    hstep hsound htagged hsecond hrule',
    hstep (hsound.stepByPath hsecond.placeable) (htagged.stepByPath hsecond.placeable) hfirst
      (followsMergeRule_stepByPath hflags.symm hrule'), ?_⟩
  have hcomm := lawful_grafting.toKeepsKeys.view_graft_comm_iff shows_setting
    hfirst.distinct_body hsecond.distinct_body mergedConfig
  simp only [entryAfter_eq, result_comm_iff] at hcomm
  refine Iff.trans ⟨fun h k ks => ?_, fun h segments hne => ?_⟩ hcomm
  · have hsame := h (k :: ks) (List.cons_ne_nil k ks)
    rw [setting_stepByPath_stepByPath hfirst hsecond hflags hrule,
      setting_stepByPath_stepByPath hsecond hfirst hflags.symm hrule'] at hsame
    exact hsame
  · obtain ⟨k, ks, rfl⟩ := List.exists_cons_of_ne_nil hne
    rw [setting_stepByPath_stepByPath hfirst hsecond hflags hrule,
      setting_stepByPath_stepByPath hsecond hfirst hflags.symm hrule']
    exact h k ks

/-- The nodes of a document of one integer. -/
theorem nodeAt_oneOption {key : CString} {value : ℤ} {isSigned : Bool} {k : CString}
    {ks : List CString} {l : NodeData}
    (h : Config.nodeAt ((Json.oneOption key (.int value)).loaded isSigned) (k :: ks) = some l) :
    (ks = [] ∧ l.type = .object ∨ ks = [key] ∧ l.type = .int) ∧ l.isSigned = isSigned := by
  have hbody : Config.body ((Json.oneOption key (.int value)).loaded isSigned) =
      .node (Json.label isSigned (some configKey) (Json.oneOption key (.int value)))
        [.node (Json.label isSigned (some rootKey) (.object [(key, .int value)]))
          [.node (Json.label isSigned (some key) (.int value)) []]] := rfl
  rw [Config.nodeAt, hbody, RoseTree.view_node_cons, RoseTree.view_leaf] at h
  split at h
  · cases ks with
    | nil =>
        cases h
        exact ⟨.inl ⟨rfl, rfl⟩, rfl⟩
    | cons k' ks =>
        rw [RoseTree.view_node_cons, RoseTree.view_leaf] at h
        split at h
        · rename_i hkey
          cases ks with
          | nil =>
              cases h
              exact ⟨.inr ⟨by rw [← Option.some.inj hkey], rfl⟩, rfl⟩
          | cons k'' ks => cases h
        · cases h
  · cases h

/-- Options of two files, in either order. -/
theorem options_in_either_order :
    let first := (Json.oneOption ['a'] (.int 1)).loaded false
    let second := (Json.oneOption ['b'] (.int 2)).loaded false
    ∃ status status' one other, (samconfConfigMergeConfigs (some freshRoot) [first, second]).Yields
        (status, some one) ∧
      (samconfConfigMergeConfigs (some freshRoot) [second, first]).Yields (status', some other) ∧
      ∀ segments, segments ≠ [] → one.setting segments = other.setting segments := by
  intro first second
  rcases @samconfConfigMergeConfig_order_iff freshRoot first second intact_freshRoot.toSound
      (by decide) (by decide) (by decide) rfl rfl with
    ⟨firstOnly, one, secondOnly, other, hfirst, hone, hsecond, hother, hiff⟩
  have hboth {first second between result : Config}
      (hfirst : (samconfConfigMergeConfig freshRoot (some first)).Yields (.ok, between))
      (hsecond : (samconfConfigMergeConfig between (some second)).Yields (.ok, result)) :
      (samconfConfigMergeConfigs (some freshRoot) [first, second]).Yields (.ok, some result) := by
    rw [samconfConfigMergeConfigs, mergeConfigsFrom]
    simp only [Exec.bind_assoc]
    apply hfirst.bind
    simp only [ne_eq, not_true_eq_false, and_false, if_false, mergeConfigsFrom, Exec.bind_assoc]
    apply hsecond.bind
    simp only [not_true_eq_false, and_false, if_false]
    exact Exec.yields_pure _
  refine ⟨.ok, .ok, one, other, hboth hfirst hone, hboth hsecond hother, hiff.mpr ?_⟩
  intro k ks l m hl hm
  obtain ⟨hl, hsigned⟩ := nodeAt_oneOption hl
  obtain ⟨hm, hsigned'⟩ := nodeAt_oneOption hm
  rcases hl with ⟨rfl, htype⟩ | ⟨rfl, htype⟩ <;> rcases hm with ⟨hks, htype'⟩ | ⟨hks, htype'⟩
  · refine NodeData.agree_of_containers (by rw [htype]; decide) (htype.trans htype'.symm)
      (hsigned.trans hsigned'.symm) _
  · cases hks
  · cases hks
  · cases hks

end Orders

end Samconf
