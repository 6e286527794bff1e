/-
# Integers that come back changed

The integer of a node has 64 bits, and `samconfConfigGetInt32` stores it in 32 without
a test. So an integer that was created comes back as itself exactly when it fits, and
as another number, with OK, when it does not. Nothing else can alter it: whichever
allocations fail, a creation that says OK leaves no other INT where it was asked to
write, and the getter reads on every supply what the path leads to.
-/

import Samconf.Properties.Getters
import Samconf.Properties.ReadBack
import Samconf.Spec.Document
import Samconf.Spec.Extension
import Samconf.Spec.Numeral

namespace Samconf

open Foundation
open Exec (Yields Ensures)
open Json (FitsInt32)

/-- The two getters of integers give this integer for the path, or none: an error from
the one, the default from the other. -/
structure Unaltered (root : Config) (path : CString) (v : Int64) : Prop where
  get : ∀ o status n o', samconfConfigGetInt32 (some root) (some path) o = .ok ((status, n), o') →
    status = .ok → ∃ m, n = some m ∧ m.toInt = v.toInt
  getOr : ∀ defaultValue o n o',
    samconfConfigGetInt32Or (some root) (some path) defaultValue o = .ok (n, o') →
    n.toInt = v.toInt ∨ n = defaultValue

/-- The call gives the integer, as a number or as a numeral of that value. -/
inductive Creation.GivesInteger (v : Int64) : Creation → Prop
  | int (path : CString) : GivesInteger v (.int path v)
  | fromString (path : CString) {s : CString} (hnumeral : DecimalNumeral s v.toInt) :
      GivesInteger v (.fromString path (some s))

/-- The lookup of the path stores no node, in no run. -/
def NeverFound (root : Config) (path : CString) : Prop :=
  ∀ o p o', samconfConfigGet root (some path) o ≠ .ok ((.ok, some p), o')

/-- An INT has this integer. -/
def OnlyInteger (v : Int64) (d : NodeData) : Prop := d.type = .int → d.value = .integer v

variable {strtod : CString → Double × CString} {root root' : Config} {path : CString}
  {creation : Creation} {v : Int64}

theorem allowsNew_onlyInteger (v : Int64) : AllowsNew (OnlyInteger v) where
  congr d d' h hsame htype := by
    obtain ⟨-, hsetting⟩ := hsame
    have htype' : d'.type = d.type := congrArg Setting.type hsetting
    have hvalue : d'.value = d.value := congrArg Setting.value hsetting
    rw [hvalue]
    exact h (htype'.symm.trans htype)
  object key htype := by cases htype

theorem saturate_toInt (v : Int64) : saturate v.toInt = v :=
  Int64.toInt_inj.mp (toInt_saturate (fitsInt64_toInt v))

theorem Creation.GivesInteger.given (h : creation.GivesInteger v) :
    creation.given strtod = some (.int, .integer v) := by
  cases h with
  | int path => rfl
  | fromString path hnumeral =>
      rw [Creation.given, Option.map_some, typedValue_of_numeral hnumeral, saturate_toInt]

/-- Whichever allocations fail, a creation that says OK adds OBJECTs and the integer. -/
theorem Creation.GivesInteger.extends (h : creation.GivesInteger v) (root : Config) :
    (creation.run strtod root).Ensures fun r =>
      r.1 = .ok → Config.ExtendedBy (OnlyInteger v) root r.2 := by
  cases h with
  | int path =>
      refine createAt_extends (allowsNew_onlyInteger v) (fun key => ?_) root path
      refine (Exec.ensures_true _).bind fun _ _ => Exec.ensures_pure ⟨rfl, fun _ => rfl⟩
  | @fromString path s hnumeral =>
      have hrun : (Creation.fromString path (some s)).run strtod root =
          createAt (fun config => samconfConfigSetValueFromString strtod config (some s))
            root path := rfl
      rw [hrun]
      refine createAt_extends (allowsNew_onlyInteger v) (fun key => ?_) root path
      refine Exec.ensures_iff.mpr fun o r o' hrun => ?_
      obtain ⟨o'', hset⟩ := samconfConfigSetValueFromString_run strtod
        (.node { NodeData.init with key := some key } []) s o
      rw [hset, storedValue, typedValue_of_numeral hnumeral, saturate_toInt,
        if_neg (by simp)] at hrun
      cases hrun
      exact ⟨rfl, fun _ => rfl⟩

/-! ## An integer that fits -/

/-- Under a path that led nowhere, a run of the getter reads a new node. -/
theorem samconfConfigGetInt32_of_extended {o o' : Supply} {n : Option Int32}
    (hextended : Config.ExtendedBy (OnlyInteger v) root root')
    (hmissing : root.resolve (pathSegments path) = none ∨ pathSegments path = [])
    (hget : samconfConfigGetInt32 (some root') (some path) o = .ok ((.ok, n), o')) :
    pathSegments path ≠ [] ∧ n = some v.toInt32 := by
  rw [samconfConfigGetInt32, getValue] at hget
  obtain ⟨⟨status, found⟩, o₁, hlookup, hget⟩ := Exec.bind_eq_ok.mp hget
  simp only at hget
  split at hget
  · rename_i hstatus
    cases hget
    exact absurd rfl hstatus
  rename_i hstatus
  obtain rfl : status = .ok := not_not.mp hstatus
  cases found with
  | none => cases hget
  | some p =>
      obtain ⟨hresolve, hne⟩ := samconfConfigGet_found hlookup
      have hmissing := hmissing.resolve_right hne
      obtain ⟨node, hnode⟩ := RoseTree.exists_sub?_of_resolve hresolve
      simp only [Option.bind_some, hnode, deref_some, Exec.pure_bind] at hget
      split at hget
      · rename_i htype
        cases hold : root.sub? p with
        | some s =>
            rw [hextended.resolve_of_old hresolve hold] at hmissing
            cases hmissing
        | none =>
            have hvalue := hextended.fresh p node hold hnode htype
            rw [hvalue] at hget
            cases hget
            exact ⟨hne, rfl⟩
      · cases hget

theorem unaltered_of_extended (hfits : FitsInt32 v.toInt ∨ pathSegments path = [])
    (hextended : Config.ExtendedBy (OnlyInteger v) root root')
    (hmissing : root.resolve (pathSegments path) = none ∨ pathSegments path = []) :
    Unaltered root' path v := by
  have hget : ∀ o status n o',
      samconfConfigGetInt32 (some root') (some path) o = .ok ((status, n), o') →
      status = .ok → ∃ m, n = some m ∧ m.toInt = v.toInt := by
    rintro o status n o' hrun rfl
    obtain ⟨hne, rfl⟩ := samconfConfigGetInt32_of_extended hextended hmissing hrun
    exact ⟨v.toInt32, rfl, (toInt_toInt32_iff v).mpr (hfits.resolve_right hne)⟩
  refine ⟨hget, fun defaultValue o n o' hrun => ?_⟩
  obtain ⟨⟨status, m⟩, o₁, hrun', hrest⟩ := Exec.bind_eq_ok.mp hrun
  simp only at hrest
  split at hrest
  · cases hrest
    exact .inr rfl
  · rename_i hstatus
    obtain ⟨k, rfl, hk⟩ := hget _ _ _ _ hrun' (not_not.mp hstatus)
    cases hrest
    exact .inl hk

/-- A path under which no node is found leads to none, or has no segment. -/
theorem NeverFound.missing (h : NeverFound root path) (hsound : root.Sound) :
    root.resolve (pathSegments path) = none ∨ pathSegments path = [] := by
  by_cases hempty : pathSegments path = []
  · exact .inr hempty
  · refine .inl ?_
    cases hresolve : root.resolve (pathSegments path) with
    | none => rfl
    | some p =>
        have hfound := samconfConfigGet_yields path hsound hempty
        rw [hresolve] at hfound
        exact absurd (Exec.yields_iff.mp hfound) (h plenty p plenty)

/-! ## An integer that does not -/

/-- Without failing allocations what was created is read, cut to 32 bits. -/
theorem samconfConfigGetInt32_of_created (hsound : root.Sound) (hne : pathSegments path ≠ [])
    (hmissing : root.resolve (pathSegments path) = none) (v : Int64) :
    (samconfConfigGetInt32 (some (root.created path .int (.integer v)).2) (some path)).Yields
      (.ok, some v.toInt32) := by
  have hsetting := @setting_created root path hne .int (.integer v)
  have hnone : root.setting (pathSegments path) = none := RoseTree.view_eq_none_iff.mpr hmissing
  rw [hnone, Option.getD_none] at hsetting
  obtain ⟨d, ⟨p, node, hlookup, hsub, rfl⟩, hd⟩ :=
    exists_finds (hsound.created path .int (.integer v)) hne hsetting
  have hnames : NamesNode (root.created path .int (.integer v)).2 .int (.ok, some p) node :=
    ⟨rfl, ⟨p, rfl, hsub⟩, congrArg Setting.type hd⟩
  have hvalue : node.label.value = .integer v := congrArg Setting.value hd
  rw [samconfConfigGetInt32, Exec.yields_iff,
    getValue_of_names (Exec.yields_iff.mp hlookup) hnames, hvalue]
  rfl

/-- **No integer comes back altered** exactly when it fits 32 bits, or when the path has
no segment and so nothing is created. -/
theorem int32_unaltered_iff (hsound : root.Sound) (hgives : creation.GivesInteger v)
    (hnever : NeverFound root creation.path) :
    (∀ o root' o', creation.run strtod root o = .ok ((.ok, root'), o') →
        Unaltered root' creation.path v) ↔
      FitsInt32 v.toInt ∨ pathSegments creation.path = [] := by
  have hmissing := hnever.missing hsound
  constructor
  · intro h
    by_cases hempty : pathSegments creation.path = []
    · exact .inr hempty
    · have hrun := Creation.run_of_given hsound (@Creation.GivesInteger.given strtod _ _ hgives)
      have hstatus : (root.created creation.path .int (.integer v)).1 = .ok := by
        rw [Config.created, if_neg hempty]
      rw [← Prod.eta (root.created creation.path .int (.integer v)), hstatus] at hrun
      have hread := samconfConfigGetInt32_of_created hsound hempty
        (hmissing.resolve_right hempty) v
      obtain ⟨m, hm, hsame⟩ := (h _ _ _ (Exec.yields_iff.mp hrun)).get _ _ _ _
        (Exec.yields_iff.mp hread) rfl
      cases hm
      exact .inl ((toInt_toInt32_iff v).mp hsame)
  · intro hfits o root' o' hrun
    exact unaltered_of_extended hfits
      (Exec.ensures_iff.mp (hgives.extends root) _ _ _ hrun rfl) hmissing

/-- A fresh tree has nothing to find. -/
theorem neverFound_freshRoot (path : CString) : NeverFound freshRoot path := by
  intro o p o' h
  rw [samconfConfigGet_of_childless path rfl] at h
  cases h

/-- The smallest integer of 32 bits is read back, and the largest from its spelling. -/
theorem largest_int32_unaltered :
    (∀ o root' o', (Creation.int "root/a".toList (-2147483648)).run noNumber freshRoot o =
        .ok ((.ok, root'), o') → Unaltered root' "root/a".toList (-2147483648)) ∧
    ∀ o root' o', (Creation.fromString "root/a".toList (some (decimalSpelling 2147483647))).run
        noNumber freshRoot o = .ok ((.ok, root'), o') →
      Unaltered root' "root/a".toList 2147483647 := by
  have hsound : freshRoot.Sound := ⟨by decide, by decide⟩
  constructor
  · exact (int32_unaltered_iff hsound (.int "root/a".toList)
      (neverFound_freshRoot _)).mpr (.inl ⟨by decide, by decide⟩)
  · exact (int32_unaltered_iff hsound
      (.fromString "root/a".toList (decimalNumeral_spelling 2147483647))
      (neverFound_freshRoot _)).mpr (.inl ⟨by decide, by decide⟩)

/-- The next one is read as the smallest. -/
theorem next_int32_altered :
    ¬ ∀ o root' o', (Creation.int "root/a".toList 2147483648).run noNumber freshRoot o =
        .ok ((.ok, root'), o') → Unaltered root' "root/a".toList 2147483648 := by
  have hsound : freshRoot.Sound := ⟨by decide, by decide⟩
  intro h
  rcases (int32_unaltered_iff hsound (.int "root/a".toList)
    (neverFound_freshRoot _)).mp h with hfits | hempty
  · exact absurd hfits.2 (by decide)
  · exact absurd hempty (by decide)

end Samconf
