/-
# The faults of single nodes

What is done to a single node reads its union and, in copying, the key of its source;
linking it to a parent reads the parent's array. Other faults than those of these reads do
not occur in any of it, whatever the nodes look like and whichever allocations fail.
-/

import Samconf.Model.FromString
import Samconf.Spec.Lookup

namespace Samconf

open Foundation
open Exec (Avoids)

variable {e : Fault}

theorem samconfConfigNew_avoids (e : Fault) : Avoids e samconfConfigNew := by
  refine (Exec.avoids_alloc e).bind fun granted => ?_
  cases granted with
  | false => exact Exec.avoids_pure _ _
  | true => exact Exec.avoids_pure _ _

theorem samconfConfigAdd_avoids (hunset : .unset ≠ e) (parent child : Config) :
    Avoids e (samconfConfigAdd parent child) := by
  refine (Exec.avoids_alloc e).bind fun granted => ?_
  cases granted with
  | false => exact Exec.avoids_pure _ _
  | true =>
      simp only [if_true]
      split
      · exact Exec.avoids_pure _ _
      · exact Exec.avoids_fault hunset

theorem makeSegment_avoids (e : Fault) (config : Config) (segment : CString) (isLast : Bool) :
    Avoids e (makeSegment config segment isLast) := by
  rw [makeSegment]
  split
  · exact Exec.avoids_pure _ _
  · refine (samconfConfigNew_avoids e).bind fun made => ?_
    rcases made with ⟨result, node⟩
    cases node with
    | none => exact Exec.avoids_pure _ _
    | some node => exact (Exec.avoids_allocFor e segment).bind fun key => Exec.avoids_pure _ _

theorem samconfConfigSetValueFromString_avoids (e : Fault)
    (strtod : CString → Double × CString) (config : Config) (value : Option CString) :
    Avoids e (samconfConfigSetValueFromString strtod config value) := by
  cases value with
  | none => exact Exec.avoids_pure _ _
  | some value =>
      simp only [samconfConfigSetValueFromString]
      repeat' split
      all_goals try exact Exec.avoids_pure _ _
      exact (Exec.avoids_allocFor e value).bind fun copy => Exec.avoids_pure _ _

section Union

variable (hmember : .wrongMember ≠ e)
include hmember

theorem freeString_ne (d : NodeData) : freeString d ≠ .error e := by
  rw [freeString]
  split
  · split <;> simp [hmember]
  · simp

theorem setValue_avoids (type : ConfigValueType) (value : Value) (config : Config) :
    Avoids e (setValue type value config) :=
  (Exec.avoids_lift (freeString_ne hmember config.label)).bind fun _ => Exec.avoids_pure _ _

theorem samconfConfigSetString_avoids (config : Config) (stringValue : Option CString) :
    Avoids e (samconfConfigSetString config stringValue) := by
  cases stringValue with
  | none => exact Exec.avoids_pure _ _
  | some s =>
      refine (Exec.avoids_lift (freeString_ne hmember config.label)).bind fun _ => ?_
      refine (Exec.avoids_allocFor e s).bind fun copy => ?_
      cases copy with
      | none => exact Exec.avoids_pure _ _
      | some _ => exact Exec.avoids_pure _ _

theorem samconfCopyConfigValue_avoids (source target : Config) :
    Avoids e (samconfCopyConfigValue source target) := by
  rw [samconfCopyConfigValue]
  cases source.label.type with
  | none => exact Exec.avoids_pure _ _
  | array => exact Exec.avoids_pure _ _
  | object => exact Exec.avoids_pure _ _
  | int =>
      refine Avoids.bind ?_ fun i => setValue_avoids hmember .int (.integer i) target
      cases source.label.value <;>
        first | exact Exec.avoids_pure _ _ | exact Exec.avoids_fault hmember
  | boolean =>
      refine Avoids.bind ?_ fun b => setValue_avoids hmember .boolean (.boolean b) target
      cases source.label.value <;>
        first | exact Exec.avoids_pure _ _ | exact Exec.avoids_fault hmember
  | real =>
      refine Avoids.bind ?_ fun r => setValue_avoids hmember .real (.real r) target
      cases source.label.value <;>
        first | exact Exec.avoids_pure _ _ | exact Exec.avoids_fault hmember
  | string =>
      refine Avoids.bind ?_ fun s => samconfConfigSetString_avoids hmember target s
      cases source.label.value <;>
        first | exact Exec.avoids_pure _ _ | exact Exec.avoids_fault hmember

theorem samconfConfigCopyConfig_avoids (hkey : .nullKey ≠ e) (source target : Config) :
    Avoids e (samconfConfigCopyConfig source target) := by
  refine (deref_avoids hkey source.label.key).bind fun sourceKey => ?_
  refine (Exec.avoids_allocFor e sourceKey).bind fun key => ?_
  cases key with
  | none => exact Exec.avoids_pure _ _
  | some key => exact samconfCopyConfigValue_avoids hmember source _

end Union

end Samconf
