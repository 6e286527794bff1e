/-
# Integers through the JSON backend

A node holds 64 bits, but the load reads an integer with `json_object_get_int` and
the dump writes it with `json_object_new_int`, which both have 32. The load clamps,
so a document keeps its integers exactly when all of them fit 32 bits. What was
loaded fits, and is dumped unchanged.
-/

import Samconf.Spec.JsonFailure

namespace Samconf

open Foundation
open Exec (Yields Ensures)

/-- The integers of a document survive the load into a tree, and the dump of that. -/
structure IntegersSurvive (isSigned : Bool) (json : Json) : Prop where
  /-- After a load that says OK, whichever allocations failed, the INT nodes stand at
  the places of the integers and hold them, and a dump writes them there again. -/
  loaded : (samconfJsonBackendLoad json isSigned).Ensures fun r => r.1 = .ok →
    ∃ config, r.2 = some config ∧
      (∀ p n, json.sub? p = some (.int n) → ∃ s, config.sub? p = some s ∧ s.label.type = .int) ∧
      (∀ p s, config.sub? p = some s → s.label.type = .int →
        ∃ n i, json.sub? p = some (.int n) ∧ s.label.value = .integer i ∧ i.toInt = n) ∧
      (samconfDumpJsonConfig config).Ensures fun dumped =>
        ∀ p n, json.sub? p = some (.int n) → dumped.sub? p = some (.int n)
  /-- Without failing allocations the tree can be dumped. -/
  dumped : ∀ config, (samconfJsonBackendLoad json isSigned).Yields (.ok, some config) →
    ∃ dumped, (samconfDumpJsonConfig config).Yields dumped

variable {isSigned : Bool} {json : Json}

/-- Where keys may be missing, the label at a place is still that of the value that
stands there, under some key. -/
theorem MayLackKeys.label_at {config : Config} {key : Option CString}
    (h : MayLackKeys (json.tree isSigned key) config) (p : List ℕ) :
    Option.Rel (fun sub s => ∃ key, s.label = sub.label isSigned key) (json.sub? p)
      (config.sub? p) := by
  have htree := Json.sub?_tree isSigned json key p
  have hlacks := h p
  generalize json.sub? p = sub at htree ⊢
  generalize (json.tree isSigned key).sub? p = s at htree hlacks
  generalize config.sub? p = s' at hlacks ⊢
  cases htree with
  | none =>
      cases hlacks
      exact .none
  | some hsub =>
      rcases hsub with ⟨key, rfl⟩
      cases hlacks with
      | some hlabel =>
          rw [Json.label_tree] at hlabel
          refine .some ?_
          rcases hlabel with hlabel | hlabel
          · exact ⟨key, hlabel⟩
          · refine ⟨none, hlabel.trans ?_⟩
            cases ‹Json› <;> rfl

/-- The label of an INT node tells which integer was loaded. -/
theorem label_of_int {sub : Json} {key : Option CString}
    (h : (sub.label isSigned key).type = .int) :
    ∃ n, sub = .int n ∧ (sub.label isSigned key).value = .integer (jsonGetInt n) := by
  cases sub with
  | int n => exact ⟨n, rfl, rfl⟩
  | _ => cases h

theorem exists_of_rel_some {α β : Type} {R : α → β → Prop} {a : α} {o : Option β}
    (h : Option.Rel R (some a) o) : ∃ b, o = some b ∧ R a b := by
  cases h with
  | some h => exact ⟨_, rfl, h⟩

theorem exists_of_rel_some' {α β : Type} {R : α → β → Prop} {b : β} {o : Option α}
    (h : Option.Rel R o (some b)) : ∃ a, o = some a ∧ R a b := by
  cases h with
  | some h => exact ⟨_, rfl, h⟩

/-- Integers that fit survive. -/
theorem integersSurvive_of_intsFit (isSigned : Bool) (hnull : json.NullFree)
    (hunique : json.UniqueKeys) (hfit : json.IntsFit) : IntegersSurvive isSigned json where
  loaded := by
    refine (samconfJsonBackendLoad_ensures (hnull json (.self json)) isSigned).mono ?_
    intro r hr hok
    rcases hr hok with ⟨config, hconfig, hlacks⟩
    refine ⟨config, hconfig, fun p n hp => ?_, fun p s hs htype => ?_, ?_⟩
    · have hlabel := hlacks.label_at p
      rw [hp] at hlabel
      rcases exists_of_rel_some hlabel with ⟨s, hs, key, hkey⟩
      exact ⟨s, hs, by rw [hkey]; rfl⟩
    · have hlabel := hlacks.label_at p
      rw [hs] at hlabel
      rcases exists_of_rel_some' hlabel with ⟨sub, hsub, key, hkey⟩
      rw [hkey] at htype ⊢
      rcases label_of_int htype with ⟨n, rfl, hvalue⟩
      exact ⟨n, _, hsub, hvalue, (Json.toInt_jsonGetInt_iff n).mpr
        (hfit n (Json.within_iff.mpr ⟨p, hsub⟩))⟩
    · have hintact : (json.loaded isSigned).Intact := Json.intact_tree isSigned hunique _
      refine Ensures.mono (dumpsAs_of_mayLackKeys hintact hlacks) fun dumped hdumped p n hp => ?_
      have hkept : Json.kept (.int n) = .int n := by
        rw [Json.kept, Json.toInt_toInt32_jsonGetInt, (Json.toInt_jsonGetInt_iff n).mpr
          (hfit n (Json.within_iff.mpr ⟨p, hp⟩))]
      rw [hdumped, Json.loaded, Json.toJson_tree isSigned hnull, Json.sub?_kept, hp,
        Option.map_some, hkept]
  dumped config hload := by
    obtain ⟨-, rfl⟩ := samconfJsonBackendLoad_yields_iff.mp hload
    exact ⟨_, samconfDumpJsonConfig_yields (Json.intact_tree isSigned hunique _)⟩

/-- Integers that survive fit. -/
theorem intsFit_of_integersSurvive (hnull : json.NullFree) (h : IntegersSurvive isSigned json) :
    json.IntsFit := by
  intro n hn
  rcases Json.within_iff.mp hn with ⟨p, hp⟩
  have hload := samconfJsonBackendLoad_of_complete isSigned (Json.nullFree_iff.mp hnull).2
  rcases Exec.ensures_iff.mp h.loaded _ _ _ (Exec.yields_iff.mp hload) rfl with
    ⟨config, hconfig, hints, hvalues, -⟩
  cases hconfig
  rcases hints p n hp with ⟨s, hs, htype⟩
  rcases hvalues p s hs htype with ⟨n', i, hp', hvalue, hi⟩
  obtain rfl : n = n' := by simpa [hp] using hp'
  have htree := Json.sub?_tree isSigned json (some configKey) p
  rw [hp] at htree
  rcases exists_of_rel_some htree with ⟨s', hs', key, rfl⟩
  obtain rfl := Option.some.inj (hs'.symm.trans hs)
  obtain rfl : jsonGetInt n = i := by simpa [Json.label] using hvalue
  exact (Json.toInt_jsonGetInt_iff n).mp hi

/-- **Integers survive the JSON backend** exactly when all of them fit 32 bits. -/
theorem integersSurvive_iff (hnull : json.NullFree) (hunique : json.UniqueKeys) :
    IntegersSurvive isSigned json ↔ json.IntsFit :=
  ⟨intsFit_of_integersSurvive hnull, integersSurvive_of_intsFit isSigned hnull hunique⟩

/-- The largest `int32_t` survives. -/
theorem largest_int_survives :
    IntegersSurvive false (Json.oneOption ['a'] (.int 2147483647)) := by
  have hnull : (Json.oneOption ['a'] (.int 2147483647)).NullFree :=
    Json.nullFree_iff.mpr ⟨by simp [Json.oneOption], rfl⟩
  have hunique : (Json.oneOption ['a'] (.int 2147483647)).UniqueKeys :=
    Json.uniqueKeys_oneOption (Json.uniqueKeys_of_members_eq_nil rfl)
  refine (integersSurvive_iff hnull hunique).mpr fun n hn => ?_
  rcases Json.within_oneOption hn with h | h | h
  · cases h
  · cases h
  · cases h with
    | self => decide
    | member hm _ => cases hm

/-- One more does not. -/
theorem larger_int_is_clamped :
    ¬ IntegersSurvive false (Json.oneOption ['a'] (.int 2147483648)) := by
  intro h
  have hnull : (Json.oneOption ['a'] (.int 2147483648)).NullFree :=
    Json.nullFree_iff.mpr ⟨by simp [Json.oneOption], rfl⟩
  have hfit := intsFit_of_integersSurvive hnull h 2147483648
    (Json.within_iff.mpr ⟨[0, 0], by simp [Json.oneOption, Json.members]⟩)
  exact absurd hfit (by decide)

end Samconf
