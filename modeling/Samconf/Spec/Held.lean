/-
# What is counted stays held

None of the operations on a single node touches its count or its array, and none leaves a
STRING node without a string, whichever allocations fail.
-/

import Samconf.Model.FromString
import Samconf.Spec.Copy

namespace Samconf

open Foundation
open Exec (Ensures)
open RoseTree (relabel)

variable {config source target : Config}

theorem setValue_held {type : ConfigValueType} (htype : type ≠ .string) (value : Value)
    (h : config.Held) : (setValue type value config).Ensures fun r => r.2.Held :=
  (Exec.ensures_true _).bind fun _ _ =>
    Exec.ensures_pure (h.relabel rfl fun hstring => absurd hstring htype)

theorem samconfConfigSetString_held (stringValue : Option CString) (h : config.Held) :
    (samconfConfigSetString config stringValue).Ensures fun r => r.2.Held := by
  cases stringValue with
  | none => exact Exec.ensures_pure h
  | some s =>
      refine (Exec.ensures_true _).bind fun _ _ => (Exec.ensures_true _).bind fun copy _ => ?_
      have hwritten : Config.Held (relabel (fun d => { d with value := .string copy }) config) :=
        h.relabel rfl fun _ => trivial
      cases copy with
      | none => exact Exec.ensures_pure hwritten
      | some copy =>
          refine Exec.ensures_pure (hwritten.relabel rfl fun _ => ?_)
          cases config
          trivial

theorem samconfConfigSetValueFromString_held (strtod : CString → Double × CString)
    (value : Option CString) (h : config.Held) :
    (samconfConfigSetValueFromString strtod config value).Ensures fun r => r.2.Held := by
  cases value with
  | none => exact Exec.ensures_pure h
  | some value =>
      have hother {type : ConfigValueType} (htype : type ≠ .string) (v : Value) :
          Config.Held (relabel (fun d => { d with type := type, value := v }) config) :=
        h.relabel rfl fun hstring => absurd hstring htype
      simp only [samconfConfigSetValueFromString]
      split
      · exact Exec.ensures_pure (hother (by simp) _)
      · split
        · exact Exec.ensures_pure (hother (by simp) _)
        · split
          · exact Exec.ensures_pure (hother (by simp) _)
          · split
            · exact Exec.ensures_pure (hother (by simp) _)
            · exact (Exec.ensures_true _).bind fun copy _ =>
                Exec.ensures_pure (h.relabel rfl fun _ => trivial)

theorem samconfCopyConfigValue_held (source : Config) (h : target.Held) :
    (samconfCopyConfigValue source target).Ensures fun r => r.2.Held := by
  rw [samconfCopyConfigValue]
  cases source.label.type with
  | none => exact Exec.ensures_pure h
  | array => exact Exec.ensures_pure h
  | object => exact Exec.ensures_pure h
  | int => exact (Exec.ensures_true _).bind fun i _ => setValue_held (by simp) _ h
  | boolean => exact (Exec.ensures_true _).bind fun b _ => setValue_held (by simp) _ h
  | real => exact (Exec.ensures_true _).bind fun r _ => setValue_held (by simp) _ h
  | string => exact (Exec.ensures_true _).bind fun s _ => samconfConfigSetString_held s h

/-- A copy into a fresh node. -/
theorem samconfConfigCopyConfig_held (source : Config) :
    (samconfConfigCopyConfig source samconfConfigInit).Ensures fun r => r.2.Held := by
  refine (Exec.ensures_true _).bind fun sourceKey _ => (Exec.ensures_true _).bind fun key _ => ?_
  cases key with
  | none => exact Exec.ensures_pure (Config.Held.leaf rfl fun _ => trivial)
  | some key => exact samconfCopyConfigValue_held source (Config.Held.leaf rfl fun _ => trivial)

theorem makeSegment_held (segment : CString) (isLast : Bool) (h : config.Held) :
    (makeSegment config segment isLast).Ensures fun r => ∀ node ∈ r.2, node.Held := by
  rw [makeSegment]
  split
  · refine Exec.ensures_pure ?_
    rintro node ⟨⟩
    exact h
  · refine samconfConfigNew_ensures.bind ?_
    rintro made (rfl | rfl)
    · exact Exec.ensures_pure (by simp)
    · refine (Exec.ensures_true _).bind fun key _ => Exec.ensures_pure ?_
      rintro node ⟨⟩
      exact Config.Held.init.relabel rfl fun hstring => by cases hstring

end Samconf
