/-
# What the copy functions write

Writing over a node gives it the type and the value of the source when the
source is a scalar, and changes nothing otherwise. A fresh copy has the key, the
flag and the type of its source, and the value when the source is a scalar.
-/

import Samconf.Spec.Deletion

namespace Samconf

open Foundation
open Exec (Yields Ensures Avoids)
open RoseTree (relabel)

namespace NodeData

/-- The label that writing `source` over `target` leaves. -/
def overwrite (source target : NodeData) : NodeData :=
  if source.type.IsScalar then { target with type := source.type, value := source.content }
  else target

/-- The label of a copy of `source`. -/
def copied (source : NodeData) : NodeData where
  key := source.key
  isSigned := source.isSigned
  type := source.type
  value := if source.type.IsScalar then source.content else .zero
  childCount := 0

end NodeData

/-- Reading through the named member twice is reading once. -/
@[simp]
theorem Value.read_read (type : ConfigValueType) (value : Value) :
    Value.read type (Value.read type value) = Value.read type value := by
  cases type <;> cases value <;> rfl

/-- What is read fits. -/
theorem Value.fits_read {type : ConfigValueType} {value : Value} (h : value.Fits type) :
    (value.read type).Fits type := by
  cases type <;> cases value <;> trivial

theorem Value.fits_zero (type : ConfigValueType) : Value.zero.Fits type := by
  cases type <;> trivial

namespace NodeData

variable {source target : NodeData}

@[simp]
theorem key_overwrite : (source.overwrite target).key = target.key := by
  rw [overwrite]
  split <;> rfl

@[simp]
theorem isSigned_overwrite : (source.overwrite target).isSigned = target.isSigned := by
  rw [overwrite]
  split <;> rfl

@[simp]
theorem childCount_overwrite : (source.overwrite target).childCount = target.childCount := by
  rw [overwrite]
  split <;> rfl

theorem Tagged.overwrite (hsource : source.Tagged) (htarget : target.Tagged) :
    (source.overwrite target).Tagged := by
  rw [NodeData.overwrite]
  split
  · exact Value.fits_read hsource
  · exact htarget

theorem Tagged.copied (h : source.Tagged) : source.copied.Tagged := by
  rw [NodeData.Tagged, NodeData.copied]
  split
  · exact Value.fits_read h
  · exact Value.fits_zero _

theorem content_copied (h : source.type.IsScalar) : source.copied.content = source.content := by
  simp [copied, content, h]

/-- A copy writes what its source would. -/
theorem overwrite_copied (source : NodeData) : source.copied.overwrite = source.overwrite := by
  funext target
  by_cases h : source.type.IsScalar
  · have hcopied : source.copied.type.IsScalar := h
    rw [overwrite, overwrite, if_pos h, if_pos hcopied, content_copied h]
    rfl
  · have hcopied : ¬ source.copied.type.IsScalar := h
    rw [overwrite, overwrite, if_neg h, if_neg hcopied]

theorem StringSet.copied (h : source.StringSet) : source.copied.StringSet := by
  intro htype
  have hscalar : source.type.IsScalar := .inl htype
  rw [content_copied hscalar]
  exact h htype

theorem StringSet.overwrite (hsource : source.StringSet) (htarget : target.StringSet) :
    (source.overwrite target).StringSet := by
  rw [NodeData.overwrite]
  split
  · intro htype
    have hset := hsource htype
    simpa [content] using hset
  · exact htarget

end NodeData

/-! ## Releasing and setting -/

/-- A fitting union can be released. -/
theorem freeString_of_tagged {d : NodeData} (h : d.Tagged) : freeString d = .ok () :=
  freeString_of_lawful fun htype => htype ▸ h

/-- A tree with right counts and fitting unions is released without an error. -/
theorem samconfConfigDelete_eq {config : Config} (hcounted : config.Counted)
    (htagged : config.Tagged) : samconfConfigDelete config = .ok .ok := by
  have hheld : config.Held := fun p s hs =>
    ⟨by simpa using hcounted p s hs, fun htype => htype ▸ htagged p s hs⟩
  exact hheld.samconfConfigDelete_eq

/-- A childless node is released without an error. -/
theorem samconfConfigDelete_of_childless {d : NodeData} (h : d.Tagged) (hcount : d.childCount = 0) :
    samconfConfigDelete (.node d []) = .ok .ok :=
  samconfConfigDelete_eq (RoseTree.everywhere_node.mpr ⟨hcount, by simp⟩)
    (RoseTree.everywhere_node.mpr ⟨h, by simp⟩)

theorem setValue_eq {type : ConfigValueType} {value : Value} {config : Config}
    (h : config.label.Tagged) :
    setValue type value config =
      pure (.ok, relabel (fun d => { d with value := value, type := type }) config) := by
  rw [setValue, freeString_of_tagged h, Exec.lift_ok_bind]

theorem setValue_yields {type : ConfigValueType} {value : Value} {config : Config}
    (h : config.label.Tagged) :
    (setValue type value config).Yields
      (.ok, relabel (fun d => { d with value := value, type := type }) config) := by
  rw [setValue_eq h]
  exact Exec.yields_pure _

theorem samconfConfigSetString_yields {config : Config} (s : CString) (h : config.label.Tagged) :
    (samconfConfigSetString config (some s)).Yields
      (.ok, relabel (fun d => { d with value := .string (some s), type := .string }) config) := by
  cases config
  rw [samconfConfigSetString, freeString_of_tagged h, Exec.lift_ok_bind]
  apply (Exec.yields_allocFor s).bind
  exact Exec.yields_pure _

/-! ## Copying -/

/-- Without failing allocations a copy of the value writes the label over. -/
theorem samconfCopyConfigValue_yields (source target : Config) (hsource : source.label.Tagged)
    (hset : source.label.StringSet) (htarget : target.label.Tagged) :
    (samconfCopyConfigValue source target).Yields
      (.ok, relabel source.label.overwrite target) := by
  rcases source with ⟨⟨key, isSigned, type, value, childCount⟩, children⟩
  rcases target with ⟨d, _⟩
  cases type with
  | none => exact Exec.yields_pure _
  | array => exact Exec.yields_pure _
  | object => exact Exec.yields_pure _
  | int =>
      cases value <;> first
        | exact hsource.elim
        | simpa [samconfCopyConfigValue, readInteger, samconfConfigSetInt, setValue_eq htarget,
            relabel, NodeData.overwrite, ConfigValueType.IsScalar, NodeData.content, Value.read]
            using Exec.yields_pure _
  | boolean =>
      cases value <;> first
        | exact hsource.elim
        | simpa [samconfCopyConfigValue, readBoolean, samconfConfigSetBool, setValue_eq htarget,
            relabel, NodeData.overwrite, ConfigValueType.IsScalar, NodeData.content, Value.read]
            using Exec.yields_pure _
  | real =>
      cases value <;> first
        | exact hsource.elim
        | simpa [samconfCopyConfigValue, readReal, samconfConfigSetReal, setValue_eq htarget,
            relabel, NodeData.overwrite, ConfigValueType.IsScalar, NodeData.content, Value.read]
            using Exec.yields_pure _
  | string =>
      obtain ⟨s, rfl⟩ : ∃ s, value = .string (some s) := by
        cases value with
        | string string =>
            cases string with
            | none => exact absurd rfl (hset rfl)
            | some s => exact ⟨s, rfl⟩
        | zero => exact absurd rfl (hset rfl)
        | integer _ => exact hsource.elim
        | boolean _ => exact hsource.elim
        | real _ => exact hsource.elim
      exact samconfConfigSetString_yields s htarget

/-- Without failing allocations a copy into a new node has the copied label. -/
theorem samconfConfigCopyConfig_yields {source : Config} (hkey : source.label.key ≠ none)
    (htagged : source.label.Tagged) (hset : source.label.StringSet) :
    (samconfConfigCopyConfig source samconfConfigInit).Yields
      (.ok, .node source.label.copied []) := by
  obtain ⟨key, hkey⟩ := Option.ne_none_iff_exists'.mp hkey
  rw [samconfConfigCopyConfig, hkey]
  apply (Exec.yields_allocFor key).bind
  have hcopy := samconfCopyConfigValue_yields source
    (.node { NodeData.init with
      key := some key, isSigned := source.label.isSigned, type := source.label.type } [])
    htagged hset (Value.fits_zero _)
  have hlabel : source.label.overwrite { NodeData.init with
      key := some key, isSigned := source.label.isSigned, type := source.label.type } =
        source.label.copied := by
    rw [NodeData.overwrite, NodeData.copied, hkey]
    split <;> rfl
  rw [relabel, hlabel] at hcopy
  exact hcopy

theorem samconfConfigNew_ensures :
    samconfConfigNew.Ensures fun r => r = (.error, none) ∨ r = (.ok, some samconfConfigInit) := by
  rw [samconfConfigNew]
  apply (Exec.ensures_true _).bind
  intro granted _
  cases granted with
  | false => exact Exec.ensures_pure (.inl rfl)
  | true => exact Exec.ensures_pure (.inr rfl)

/-- Writing over a node of the source's type, whether it succeeds or not, changes
at most the value. -/
theorem samconfCopyConfigValue_ensures (source : Config) {target : Config}
    (htype : target.label.type = source.label.type) :
    (samconfCopyConfigValue source target).Ensures fun r =>
      ∃ value, r.2 = relabel (fun d => { d with value := value }) target := by
  have hset (type : ConfigValueType) (value : Value) (h : target.label.type = type) :
      (setValue type value target).Ensures fun r =>
        ∃ value, r.2 = relabel (fun d => { d with value := value }) target := by
    rw [setValue]
    apply (Exec.ensures_true _).bind
    intro _ _
    refine Exec.ensures_pure ⟨value, ?_⟩
    cases target
    subst h
    rfl
  have hkeep (status : ConfigStatus) : (pure (status, target) : Run _).Ensures fun r =>
      ∃ value, r.2 = relabel (fun d => { d with value := value }) target := by
    refine Exec.ensures_pure ⟨target.label.value, ?_⟩
    cases target
    rfl
  rw [samconfCopyConfigValue]
  cases hsource : source.label.type with
  | none => exact hkeep .ok
  | array => exact hkeep .ok
  | object => exact hkeep .ok
  | int => exact (Exec.ensures_true _).bind fun i _ => hset .int _ (htype.trans hsource)
  | boolean => exact (Exec.ensures_true _).bind fun b _ => hset .boolean _ (htype.trans hsource)
  | real => exact (Exec.ensures_true _).bind fun r _ => hset .real _ (htype.trans hsource)
  | string =>
      apply (Exec.ensures_true _).bind
      intro s _
      cases s with
      | none => exact hkeep .error
      | some s =>
          apply (Exec.ensures_true _).bind
          intro _ _
          apply (Exec.ensures_true _).bind
          intro copy _
          cases copy with
          | none => exact Exec.ensures_pure ⟨_, rfl⟩
          | some copy =>
              refine Exec.ensures_pure ⟨.string (some copy), ?_⟩
              cases target with
              | node d cs =>
                  have htarget : d.type = .string := htype.trans hsource
                  simp [relabel, ← htarget]

/-- A copy that succeeds has the type of its source. -/
theorem samconfConfigCopyConfig_ensures (source : Config) :
    (samconfConfigCopyConfig source samconfConfigInit).Ensures fun r =>
      r.1 = .ok → r.2.label.type = source.label.type := by
  rw [samconfConfigCopyConfig]
  apply (Exec.ensures_true _).bind
  intro sourceKey _
  apply (Exec.ensures_true _).bind
  intro key _
  cases key with
  | none => exact Exec.ensures_pure fun hok => by cases hok
  | some key =>
      have hcopy := @samconfCopyConfigValue_ensures source
        (relabel (fun d => { d with isSigned := source.label.isSigned, type := source.label.type })
          (relabel (fun d => { d with key := some key }) samconfConfigInit)) rfl
      refine hcopy.mono ?_
      rintro r ⟨value, hr⟩ -
      rw [hr]
      rfl

end Samconf
