/-
# Choosing a backend and opening it

`samconfLookupBackend` asks the backends one after the other, JSON before the
environment, and each reads the location its own way: the first for the ending `.json`,
the second for three characters. What `samconfEnvBackendOpen` then goes by is the scheme
of the location as a URI. The readings part where the three characters do not end at a
colon, and where a location of that scheme ends in `.json`.
-/

import Samconf.Properties.Signature
import Samconf.Spec.UriInit

namespace Samconf

open Foundation
open Exec (Yields)

/-! ## Case -/

theorem sameIgnoringCase_iff {s t : CString} :
    sameIgnoringCase s t = true ↔ s.map Char.toLower = t.map Char.toLower := by
  rw [sameIgnoringCase, decide_eq_true_eq]

theorem length_eq_of_sameIgnoringCase {s t : CString} (h : sameIgnoringCase s t = true) :
    s.length = t.length := by
  simpa using congrArg List.length (sameIgnoringCase_iff.mp h)

/-- Only a letter is in lower case another character. -/
theorem eq_of_toLower_eq {c d : Char} (h : c.toLower = d) (hd : d.val.toNat < 97) : c = d := by
  by_cases hupper : 'A'.val ≤ c.val ∧ c.val ≤ 'Z'.val
  · have hlower : c.toLower = ⟨c.val + 32, _⟩ := dif_pos hupper
    have hlow : 65 ≤ c.val.toNat := hupper.1
    have hhigh : c.val.toNat ≤ 90 := hupper.2
    have hval : d.val.toNat = c.val.toNat + 32 := by
      rw [← h, hlower]
      exact Nat.mod_eq_of_lt (a := c.val.toNat + 32) (by omega)
    omega
  · have hlower : c.toLower = c := dif_neg hupper
    exact hlower.symm.trans h

/-- A spelling of a word holds nothing but its letters. -/
theorem not_mem_of_sameIgnoringCase {s t : CString} {c : Char} (h : sameIgnoringCase s t = true)
    (hc : c.toLower ∉ t.map Char.toLower) : c ∉ s := by
  intro hmem
  rw [← sameIgnoringCase_iff.mp h] at hc
  exact hc (List.mem_map_of_mem hmem)

/-! ## The ending -/

/-- The last five characters are `.json`, in any case. -/
def EndsInJson (location : CString) : Prop :=
  sameIgnoringCase (location.drop (location.length - 5)) ".json".toList = true

instance : DecidablePred EndsInJson := fun _ => inferInstanceAs (Decidable (_ = true))

theorem endsInJson_iff {location : CString} :
    EndsInJson location ↔
      ∃ before ext, location = before ++ '.' :: ext ∧
        sameIgnoringCase ext "json".toList = true := by
  constructor
  · intro h
    have hsplit := List.take_append_drop (location.length - 5) location
    have hmap := sameIgnoringCase_iff.mp h
    cases hdrop : location.drop (location.length - 5) with
    | nil =>
        rw [hdrop] at hmap
        cases hmap
    | cons d ext =>
        rw [hdrop] at hmap hsplit
        obtain ⟨hdot, hext⟩ := List.cons.inj hmap
        obtain rfl : d = '.' := eq_of_toLower_eq hdot (by decide)
        exact ⟨_, ext, hsplit.symm, sameIgnoringCase_iff.mpr hext⟩
  · rintro ⟨before, ext, rfl, hext⟩
    have hlength : ext.length = 4 := length_eq_of_sameIgnoringCase hext
    have hdrop : (before ++ '.' :: ext).length - 5 = before.length := by
      simp [hlength]
    rw [EndsInJson, hdrop, List.drop_left, sameIgnoringCase_iff]
    exact congrArg ('.' :: ·) (sameIgnoringCase_iff.mp hext)

/-- What follows the last occurrence of a character, as a split of the text. -/
theorem afterLast_eq_some_iff {c : Char} {s ext : CString} :
    afterLast c s = some ext ↔ ∃ before, s = before ++ c :: ext ∧ c ∉ ext := by
  have hsplit : ∀ before rest : CString, c ∉ rest →
      ((before ++ c :: rest).splitOn c).getLast? = some rest := by
    intro before rest hrest
    rw [List.splitOn_append_cons_self, List.splitOn_eq_singleton hrest, List.getLast?_concat]
  constructor
  · intro h
    rw [afterLast] at h
    split at h
    · rename_i hmem
      obtain ⟨rest, before, hreverse, hrest⟩ :=
        List.eq_append_cons_of_mem (List.mem_reverse.mpr hmem)
      obtain rfl : s = before.reverse ++ c :: rest.reverse := by
        rw [← List.reverse_reverse s, hreverse]
        simp
      rw [hsplit _ _ (by simpa using hrest)] at h
      cases h
      exact ⟨before.reverse, rfl, by simpa using hrest⟩
    · cases h
  · rintro ⟨before, rfl, hext⟩
    rw [afterLast, if_pos (by simp), hsplit before ext hext]

theorem dot_not_mem_json {ext : CString} (h : sameIgnoringCase ext "json".toList = true) :
    '.' ∉ ext :=
  not_mem_of_sameIgnoringCase h (by decide)

theorem samconfJsonBackendSupports_eq (location : CString) :
    samconfJsonBackendSupports location =
      if EndsInJson location then (.ok, some true) else (.error, none) := by
  rw [samconfJsonBackendSupports]
  cases hext : afterLast '.' location with
  | none =>
      rw [if_neg]
      intro hends
      obtain ⟨before, ext, hlocation, hjson⟩ := endsInJson_iff.mp hends
      rw [afterLast_eq_some_iff.mpr ⟨before, hlocation, dot_not_mem_json hjson⟩] at hext
      cases hext
  | some ext =>
      obtain ⟨before, hlocation, -⟩ := afterLast_eq_some_iff.mp hext
      by_cases hjson : sameIgnoringCase ext "json".toList = true
      · simp only [if_pos hjson, if_pos (endsInJson_iff.mpr ⟨before, ext, hlocation, hjson⟩)]
      · rw [if_neg]
        · simp only [if_neg hjson]
        · intro hends
          obtain ⟨before', ext', hlocation', hjson'⟩ := endsInJson_iff.mp hends
          rw [afterLast_eq_some_iff.mpr ⟨before', hlocation', dot_not_mem_json hjson'⟩] at hext
          cases hext
          exact hjson hjson'

/-! ## The scheme -/

namespace UriParts

variable (parts : UriParts)

/-- The scheme of a text is a word of three letters exactly when its first three characters
are and a colon comes next. -/
theorem scheme_eq_iff {word : CString} (hlength : word.length = 3)
    (hword : ∀ c ∈ [':', '/', '?', '#'], c.toLower ∉ word.map Char.toLower) :
    sameIgnoringCase (parts.scheme.getD []) word = true ↔
      sameIgnoringCase (parts.text.take 3) word = true ∧ parts.text[3]? = some ':' := by
  constructor
  · intro h
    have hthree := length_eq_of_sameIgnoringCase h
    rw [hlength] at hthree
    cases hscheme : parts.scheme with
    | none =>
        rw [hscheme] at hthree
        cases hthree
    | some s =>
        rw [hscheme, Option.getD_some] at h hthree
        rw [parts.text_of_scheme hscheme, ← hthree]
        simp [h]
  · rintro ⟨h, hcolon⟩
    have hthree := length_eq_of_sameIgnoringCase h
    rw [hlength] at hthree
    obtain ⟨hlt, hchar⟩ := List.getElem?_eq_some_iff.mp hcolon
    have hdrop : parts.text.drop 0 = parts.text.take 3 ++ ':' :: parts.text.drop 4 := by
      rw [List.drop_zero, ← hchar, ← List.drop_eq_getElem_cons hlt, List.take_append_drop]
    -- the letters run up to the colon
    have hrun : runEnd parts.text 0 [':', '/', '?', '#'] = 3 := by
      rw [runEnd_of_drop hdrop, hthree]
      · exact fun c hc hstop => not_mem_of_sameIgnoringCase h (hword c hstop) hc
      · rintro c hc
        obtain rfl : ':' = c := by simpa using hc
        simp
    have hsome : parts.scheme.isSome = true := by
      rw [← parts.hasScheme_eq, hrun, hcolon]
      rfl
    obtain ⟨s, hscheme⟩ := Option.isSome_iff_exists.mp hsome
    have hsame : s.length = 3 := (parts.runEnd_scheme hscheme).symm.trans hrun
    rw [parts.text_of_scheme hscheme, ← hsame, List.take_left] at h
    rw [hscheme, Option.getD_some]
    exact h

end UriParts

/-! ## The choice -/

variable {world : World} {location : CString}

theorem samconfEnvBackendSupports_yields (location : CString) :
    (samconfEnvBackendSupports location).Yields
      (if sameIgnoringCase (location.take 3) "env".toList then (.ok, some true)
        else (.error, none)) := by
  rw [samconfEnvBackendSupports, strdup]
  apply (Exec.yields_allocFor (location.take 3)).bind
  simp only
  split <;> exact Exec.yields_pure _

/-- Without failing allocations the ending decides first, then the first three characters. -/
theorem samconfLookupBackend_yields (hjson : world.enabled .json = true)
    (henv : world.enabled .env = true) (location : CString) :
    (samconfLookupBackend world location).Yields
      (if EndsInJson location then (.ok, some (samconfJsonOps world))
        else if sameIgnoringCase (location.take 3) "env".toList then
          (.ok, some (samconfEnvOps world))
        else (.error, none)) := by
  have hfirst : samconfGetBackendOps world .json = samconfJsonOps world := by
    rw [samconfGetBackendOps, if_pos hjson]
  have hsecond : samconfGetBackendOps world .env = samconfEnvOps world := by
    rw [samconfGetBackendOps, if_pos henv]
  have hsupports : ((samconfJsonOps world).supports location).Yields
      (if EndsInJson location then (.ok, some true) else (.error, none)) := by
    rw [← samconfJsonBackendSupports_eq]
    exact Exec.yields_pure _
  rw [samconfLookupBackend, lookupBackend, hfirst]
  apply hsupports.bind
  by_cases hends : EndsInJson location
  · simp only [if_pos hends]
    exact Exec.yields_alloc.bind (Exec.yields_pure _)
  · simp only [if_neg hends, reduceCtorEq, decide_false, Bool.false_and, Bool.false_eq_true,
      if_false]
    rw [lookupBackend, hsecond]
    refine (samconfEnvBackendSupports_yields location).bind ?_
    by_cases hprefix : sameIgnoringCase (location.take 3) "env".toList = true
    · simp only [if_pos hprefix]
      exact Exec.yields_alloc.bind (Exec.yields_pure _)
    · simp only [if_neg hprefix]
      exact Exec.yields_pure _

/-- The environment backend is chosen. -/
def SelectsEnv (world : World) (location : CString) : Prop :=
  (samconfLookupBackend world location).Yields (.ok, some (samconfEnvOps world))

/-- The scheme that is parsed from the location is `env`, in any case. -/
def ParsesAsEnv (world : World) (location : CString) : Prop :=
  ∃ uri scheme, (samconfUriInit world.regexec location).Yields (.ok, some uri) ∧
    uri.scheme = some scheme ∧ sameIgnoringCase scheme "env".toList = true

theorem selectsEnv_iff (hjson : world.enabled .json = true) (henv : world.enabled .env = true) :
    SelectsEnv world location ↔
      ¬ EndsInJson location ∧ sameIgnoringCase (location.take 3) "env".toList = true := by
  have hlookup := samconfLookupBackend_yields hjson henv location
  constructor
  · intro h
    have hsame := h.unique hlookup
    split at hsame
    · have hoption := congrArg (fun r => r.2.map BackendOps.option) hsame
      cases hoption
    · rename_i hends
      split at hsame
      · rename_i hprefix
        exact ⟨hends, hprefix⟩
      · cases hsame
  · rintro ⟨hends, hprefix⟩
    rw [if_neg hends, if_pos hprefix] at hlookup
    exact hlookup

theorem parsesAsEnv_iff (hposix : samconfUriRegex.SearchedBy 9 world.regexec) :
    ParsesAsEnv world location ↔
      sameIgnoringCase (location.take 3) "env".toList = true ∧ location[3]? = some ':' := by
  obtain ⟨parts, rfl⟩ := exists_uriParts location
  rw [← parts.scheme_eq_iff rfl (by simp)]
  constructor
  · rintro ⟨uri, scheme, hinit, hscheme, henv⟩
    have hsame := hinit.unique (samconfUriInit_yields parts hposix)
    cases hsame
    cases hscheme
    exact henv
  · intro henv
    exact ⟨parts.uri, _, samconfUriInit_yields parts hposix, rfl, henv⟩

/-- A location of the scheme can be opened. -/
theorem samconfEnvBackendOpen_yields (hposix : samconfUriRegex.SearchedBy 9 world.regexec)
    (h : ParsesAsEnv world location) :
    ∃ handle, (samconfEnvBackendOpen world location).Yields (.ok, some handle) := by
  obtain ⟨parts, rfl⟩ := exists_uriParts location
  obtain ⟨uri, scheme, hinit, hscheme, henv⟩ := h
  have hsame := hinit.unique (samconfUriInit_yields parts hposix)
  cases hsame
  refine ⟨.uri parts.uri, (samconfUriNew_yields parts hposix).bind ?_⟩
  simp only [hscheme, deref_some, Exec.pure_bind, if_pos henv]
  exact Exec.yields_pure _

/-- What is chosen for a location and what is parsed from it agree. -/
structure ChoiceAgrees (world : World) (location : CString) : Prop where
  selects : SelectsEnv world location ↔ ParsesAsEnv world location
  /-- What is routed to the environment backend can be opened by it. -/
  accepted : SelectsEnv world location →
    ∃ handle, (samconfEnvBackendOpen world location).Yields (.ok, some handle)
  /-- What has the scheme is routed to no other backend. -/
  routed : ParsesAsEnv world location → ∀ status ops,
    (samconfLookupBackend world location).Yields (status, some ops) → ops.option = .env

/-- **Choice and parsing agree** exactly on the locations that do not begin with the three
letters, or where a colon follows them and `.json` is not the ending, or neither. -/
theorem choiceAgrees_iff (hposix : samconfUriRegex.SearchedBy 9 world.regexec)
    (hjson : world.enabled .json = true) (henv : world.enabled .env = true)
    (location : CString) :
    ChoiceAgrees world location ↔
      (sameIgnoringCase (location.take 3) "env".toList = true →
        (location[3]? = some ':' ↔ ¬ EndsInJson location)) := by
  have hselects : SelectsEnv world location ↔ _ := selectsEnv_iff hjson henv
  have hparses : ParsesAsEnv world location ↔ _ := parsesAsEnv_iff hposix
  constructor
  · intro h hstarts
    have hagree := h.selects
    rw [hselects, hparses] at hagree
    constructor
    · intro hcolon
      exact (hagree.mpr ⟨hstarts, hcolon⟩).1
    · intro hends
      exact (hagree.mp ⟨hends, hstarts⟩).2
  · intro h
    have hagree : SelectsEnv world location ↔ ParsesAsEnv world location := by
      rw [hselects, hparses]
      constructor
      · rintro ⟨hends, hstarts⟩
        exact ⟨hstarts, (h hstarts).mpr hends⟩
      · rintro ⟨hstarts, hcolon⟩
        exact ⟨(h hstarts).mp hcolon, hstarts⟩
    refine ⟨hagree, ?_, ?_⟩
    · intro hselected
      exact samconfEnvBackendOpen_yields hposix (hagree.mp hselected)
    · intro hparsed status ops hlookup
      have hchosen : SelectsEnv world location := hagree.mpr hparsed
      have hsame := hlookup.unique hchosen
      cases hsame
      rfl

/-- On the location of the demonstration program they do. -/
theorem environment_agrees : ChoiceAgrees (World.ofSignature [] []) environment :=
  (choiceAgrees_iff searchedBy_samconfUriPattern rfl rfl environment).mpr (by decide)

/-- A file whose name begins with the letters is routed to the environment and refused there,
and a URI of the environment whose query ends in `.json` is routed to the files. -/
theorem readings_part :
    (SelectsEnv (World.ofSignature [] []) "environment.conf".toList ∧
      (samconfEnvBackendOpen (World.ofSignature [] []) "environment.conf".toList).Yields
        (.error, none) ∧
      ¬ ChoiceAgrees (World.ofSignature [] []) "environment.conf".toList) ∧
    (ParsesAsEnv (World.ofSignature [] []) "env://?envPrefix=a.json".toList ∧
      (samconfLookupBackend (World.ofSignature [] []) "env://?envPrefix=a.json".toList).Yields
        (.ok, some (samconfJsonOps (World.ofSignature [] []))) ∧
      ¬ ChoiceAgrees (World.ofSignature [] []) "env://?envPrefix=a.json".toList) := by
  have hfile : SelectsEnv (World.ofSignature [] []) "environment.conf".toList :=
    (selectsEnv_iff rfl rfl).mpr (by decide)
  have huri : ParsesAsEnv (World.ofSignature [] []) "env://?envPrefix=a.json".toList :=
    (parsesAsEnv_iff searchedBy_samconfUriPattern).mpr (by decide)
  refine ⟨⟨hfile, Exec.yields_iff.mpr rfl, fun h => ?_⟩, huri, Exec.yields_iff.mpr rfl,
    fun h => ?_⟩
  · have hparsed := (parsesAsEnv_iff searchedBy_samconfUriPattern).mp (h.selects.mp hfile)
    exact absurd hparsed (by decide)
  · have hselected := (selectsEnv_iff rfl rfl).mp (h.selects.mpr huri)
    exact absurd hselected (by decide)

end Samconf
