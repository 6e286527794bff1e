/-
# Reading back what was created

A creation that says OK leaves a node with the given type and value under its path,
unless there was a node already: `samconfInsertAt` reports that with OK as well and
drops the new node. So without failing allocations the value is read back exactly
when the path named no node before, or one that carries the same type and value.

A creation whose copy of the path fails says OK too. Over all supplies the value is
therefore read back exactly when it was there before the call.
-/

import Samconf.Properties.TypeAgreement
import Samconf.Spec.Find
import Samconf.Spec.Growth

namespace Samconf

open Foundation
open Exec (Yields Ensures)
open Config (createWriter)

/-- A node has the type and the value. -/
def Carries (d : NodeData) (given : ConfigValueType × Value) : Prop :=
  d.type = given.1 ∧ d.content = given.2

/-- `samconfConfigGet` finds a node under the path of the creation, and it carries
what the creation gave. -/
def ReadsBack (strtod : CString → Double × CString) (creation : Creation) (root : Config) :
    Prop :=
  ∃ given d, creation.given strtod = some given ∧ Finds root creation.path d ∧ Carries d given

variable {strtod : CString → Double × CString} {root : Config} {creation : Creation}
  {given : ConfigValueType × Value} {path : CString}

/-- The given values are read as they are. -/
theorem read_given (h : creation.given strtod = some given) :
    given.2.read given.1 = given.2 := by
  cases creation with
  | string path value =>
      rcases Option.map_eq_some_iff.mp h with ⟨s, -, rfl⟩
      rfl
  | fromString path value =>
      rcases Option.map_eq_some_iff.mp h with ⟨s, -, rfl⟩
      rw [typedValue]
      repeat' split
      all_goals rfl
  | _ =>
      cases h
      rfl

/-- What is found has a path with segments. -/
theorem Finds.pathSegments_ne_nil {d : NodeData} (h : Finds root path d) (hsound : root.Sound) :
    pathSegments path ≠ [] := by
  intro hempty
  rcases h with ⟨p, s, hget, -, -⟩
  by_cases hchildren : root.children = []
  · rw [samconfConfigGet_of_childless path hchildren] at hget
    have hsame := hget.unique (Exec.yields_pure _)
    cases hsame
  · have hsame := hget.unique
      (samconfConfigGet_yields_of_segmentless hsound.counted.readable hchildren hempty)
    cases hsame

/-- The tree after a creation is sound. -/
theorem Config.Sound.created (h : root.Sound) (path : CString) (type : ConfigValueType)
    (value : Value) : Config.Sound (root.created path type value).2 := by
  rw [Config.created]
  split
  · exact h
  · exact h.grow (getLast?_pathSegments ‹_›).symm rfl

/-- What is found under the path of a creation afterwards: what was there, or else
the new option. -/
theorem setting_created (hne : pathSegments path ≠ []) (type : ConfigValueType) (value : Value) :
    Config.setting (root.created path type value).2 (pathSegments path) =
      some ((root.setting (pathSegments path)).getD ⟨false, type, value⟩) := by
  rw [Config.created, if_neg hne,
    Config.setting_grow (d := optionData path type value) (getLast?_pathSegments hne).symm,
    Writer.put, if_pos rfl]
  cases root.setting (pathSegments path) <;> rfl

/-- Whether a node carries something can be told from its setting. -/
theorem carries_iff (d : NodeData) :
    Carries d given ↔ d.setting.type = given.1 ∧ d.setting.value.read d.setting.type = given.2 :=
  Iff.rfl

/-- Without failing allocations the given value is read back exactly when a node that
was there carries it. -/
theorem readsBack_of_yields_iff (hsound : root.Sound) :
    (∀ root', (creation.run strtod root).Yields (.ok, root') →
        ReadsBack strtod creation root') ↔
      ∀ given d, creation.given strtod = some given → Finds root creation.path d →
        Carries d given := by
  constructor
  · intro hback given d hgiven hfinds
    have hne := hfinds.pathSegments_ne_nil hsound
    have hrun := Creation.run_of_given hsound hgiven
    have hstatus : (root.created creation.path given.1 given.2).1 = .ok := by
      rw [Config.created, if_neg hne]
    rw [← Prod.eta (root.created creation.path given.1 given.2), hstatus] at hrun
    rcases hback _ hrun with ⟨given', d', hgiven', hfinds', hcarries⟩
    obtain rfl : given = given' := by simpa [hgiven] using hgiven'
    have hsetting := hfinds'.setting (hsound.created _ _ _) hne
    rw [setting_created hne, hfinds.setting hsound hne, Option.getD_some] at hsetting
    rw [carries_iff] at hcarries ⊢
    rw [Option.some.inj hsetting]
    exact hcarries
  · intro hcarries root' hrun
    cases hgiven : creation.given strtod with
    | none =>
        rw [Creation.run_of_not_given hgiven] at hrun
        have hsame := hrun.unique (Exec.yields_pure _)
        cases hsame
    | some given =>
        have hcreated := Creation.run_of_given hsound hgiven
        have hsame := hcreated.unique hrun
        have hne : pathSegments creation.path ≠ [] := by
          intro hempty
          rw [Config.created, if_pos hempty] at hsame
          cases hsame
        obtain rfl : (root.created creation.path given.1 given.2).2 = root' :=
          congrArg Prod.snd hsame
        rcases exists_finds (hsound.created _ _ _) hne (setting_created hne given.1 given.2) with
          ⟨d, hd, hsetting⟩
        refine ⟨given, d, hgiven, hd, (carries_iff d).mpr ?_⟩
        rw [hsetting]
        cases hbefore : root.setting (pathSegments creation.path) with
        | none => exact ⟨rfl, read_given hgiven⟩
        | some b =>
            rcases exists_finds hsound hne hbefore with ⟨d', hd', rfl⟩
            exact (carries_iff d').mp (hcarries given d' hgiven hd')

/-- When the copy of the path fails, the creation says OK and changes nothing. -/
theorem run_refuseSecond (root : Config) (h : creation.given strtod ≠ none) :
    ∃ o', creation.run strtod root refuseSecond = .ok ((.ok, root), o') := by
  rcases Creation.run_eq_createAt root h with ⟨set, hset⟩
  rw [hset]
  exact ⟨_, rfl⟩

/-- Whichever allocations fail, the given value is read back exactly when it was there
before. -/
theorem readsBack_of_ensures_iff (hsound : root.Sound) :
    ((creation.run strtod root).Ensures fun r => r.1 = .ok → ReadsBack strtod creation r.2) ↔
      creation.given strtod = none ∨ ReadsBack strtod creation root := by
  constructor
  · intro hensures
    by_cases hgiven : creation.given strtod = none
    · exact .inl hgiven
    · rcases run_refuseSecond root hgiven with ⟨o', hrun⟩
      exact .inr (Exec.ensures_iff.mp hensures _ _ _ hrun rfl)
  · rintro (hnone | hback)
    · rw [Creation.run_of_not_given hnone]
      exact Exec.ensures_pure fun hok => by cases hok
    · rcases hback with ⟨given, d, hgiven, hfinds, hcarries⟩
      have hne := hfinds.pathSegments_ne_nil hsound
      rcases (finds_iff hsound hne).mp hfinds with ⟨p, s, hp, -, -⟩
      rcases Creation.run_eq_createAt root (by rw [hgiven]; simp) with ⟨set, hset⟩
      rw [hset]
      refine (createAt_ensures_of_resolves hsound hp).mono fun r hr _ => ?_
      rw [hr]
      exact ⟨given, d, hgiven, hfinds, hcarries⟩

/-- **A created option is read back.** Without failing allocations it is exactly when
a node that was under the path carries the given type and value already. To be read
back whichever allocations fail, it must have been there before. -/
theorem readsBack_iff (hsound : root.Sound) :
    ((∀ root', (creation.run strtod root).Yields (.ok, root') →
        ReadsBack strtod creation root') ↔
      ∀ given d, creation.given strtod = some given → Finds root creation.path d →
        Carries d given) ∧
    (((creation.run strtod root).Ensures fun r => r.1 = .ok → ReadsBack strtod creation r.2) ↔
      creation.given strtod = none ∨ ReadsBack strtod creation root) :=
  ⟨readsBack_of_yields_iff hsound, readsBack_of_ensures_iff hsound⟩

/-- An option is read back from the empty tree it was created in. -/
theorem option_read_back :
    ∃ root', ((Creation.int "root/a".toList 1).run noNumber freshRoot).Yields (.ok, root') ∧
      ReadsBack noNumber (.int "root/a".toList 1) root' := by
  have hsound : freshRoot.Sound := ⟨by decide, by decide⟩
  have hyields : ((Creation.int "root/a".toList 1).run noNumber freshRoot).Yields
      (freshRoot.created "root/a".toList .int (.integer 1)) :=
    Creation.run_of_given hsound rfl
  refine ⟨_, hyields, (readsBack_iff hsound).1.mpr (fun given d _ hd => ?_) _ hyields⟩
  have hne : pathSegments "root/a".toList ≠ [] := by decide
  rcases (finds_iff hsound hne).mp hd with ⟨p, -, hp, -, -⟩
  rw [resolve_of_childless rfl hne] at hp
  cases hp

/-- Where an integer is already, another one is created with OK and not stored. -/
theorem existing_option_keeps_value :
    ¬ ∀ root', ((Creation.int "root/a".toList 2).run noNumber
        ((Json.oneOption ['a'] (.int 1)).loaded false)).Yields (.ok, root') →
      ReadsBack noNumber (.int "root/a".toList 2) root' := by
  intro hback
  have hsound : ((Json.oneOption ['a'] (.int 1)).loaded false).Sound := ⟨by decide, by decide⟩
  have hfinds : Finds ((Json.oneOption ['a'] (.int 1)).loaded false) "root/a".toList
      ((Json.int 1).label false (some ['a'])) :=
    (finds_iff hsound (by decide)).mpr ⟨[0, 0], _, by decide, rfl, rfl⟩
  have hcarries := (readsBack_of_yields_iff hsound).mp hback (.int, .integer 2) _ rfl hfinds
  exact absurd hcarries.2 (by decide)

end Samconf
