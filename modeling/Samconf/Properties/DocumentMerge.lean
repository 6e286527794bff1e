/-
# From files to one document

`samconfLoadAndMerge` and `samconfDumpJsonConfig` together turn locations into one
document. What that document is can be said without trees, paths or merges: take the
documents that the locations hold and that their signatures admit, in order, a
directory's by name; drop the unsigned ones behind the first signed one; and lay what
is left over an empty object, one after the other.
-/

import Samconf.Properties.BackendChoice
import Samconf.Properties.LoadStatus
import Samconf.Spec.DocumentMerge

namespace Samconf

open Foundation
open Exec (Yields)
open Config (grafted)

/-! ## What locations offer -/

/-- What the world has at the path of a file, and what its signature is worth. -/
structure HoldsFile (world : World) (path : CString) (document : Option Json)
    (verdict : ConfigStatus) : Prop where
  enabled : world.enabled .json = true
  extension : EndsInJson path
  /-- The document, if the file is there and can be parsed. -/
  document : (if world.fileExists path then world.jsonFromFile path else none) = document
  verdict : (samconfVerifySignature world.files world.regexec world.crypto path).Yields verdict

/-- The document of a file that is loaded, with the flag of its nodes. -/
def acceptedDocument (enforceSignature : Bool) (document : Option Json)
    (verdict : ConfigStatus) : List (Json × Bool) :=
  match document with
  | none => []
  | some json =>
      if json.complete then
        if verdict = .ok then [(json, true)]
        else if verdict = .signatureNotFound ∧ enforceSignature = false then [(json, false)]
        else []
      else []

/-- The documents that a location adds, in order, each with its flag. -/
inductive Offers (world : World) : ConfigLocation → List (Json × Bool) → Prop
  | invalid : Offers world .invalid []
  | config (json : Json) (isSigned : Bool) :
      Offers world (.config (some (json.loaded isSigned))) [(json, isSigned)]
  | nowhere (enforceSignature : Bool) : Offers world (.path none enforceSignature) []
  | file {path : CString} (enforceSignature : Bool) {document : Option Json}
      {verdict : ConfigStatus} (hfile : world.readDirectory path = none)
      (hholds : HoldsFile world path document verdict) :
      Offers world (.path (some path) enforceSignature)
        (acceptedDocument enforceSignature document verdict)
  | directory {path : CString} (enforceSignature : Bool) {entries : List (CString × Bool)}
      {document : CString → Option Json} {verdict : CString → ConfigStatus}
      (hdirectory : world.readDirectory path = some entries)
      (hholds : ∀ name ∈ sortNames (regularNames entries),
        HoldsFile world (path ++ '/' :: name) (document name) (verdict name)) :
      Offers world (.path (some path) enforceSignature)
        ((sortNames (regularNames entries)).flatMap fun name =>
          acceptedDocument enforceSignature (document name) (verdict name))

/-! ## Loading a file -/

section Load

variable {world : World} {path : CString} {enforceSignature : Bool} {document : Option Json}
  {verdict : ConfigStatus} {conf : Config}

theorem samconfLookupBackend_of_json (hjson : world.enabled .json = true)
    (hends : EndsInJson path) :
    (samconfLookupBackend world path).Yields (.ok, some (samconfJsonOps world)) := by
  have hfirst : samconfGetBackendOps world .json = samconfJsonOps world := by
    rw [samconfGetBackendOps, if_pos hjson]
  have hsupports : ((samconfJsonOps world).supports path).Yields (.ok, some true) := by
    have hyields : ((samconfJsonOps world).supports path).Yields
      (samconfJsonBackendSupports path) := Exec.yields_pure _
    rwa [samconfJsonBackendSupports_eq, if_pos hends] at hyields
  rw [samconfLookupBackend, lookupBackend, hfirst]
  apply hsupports.bind
  exact Exec.yields_alloc.bind (Exec.yields_pure _)

/-- What the JSON backend makes of a file. -/
theorem loadWithBackend_json (hdocument :
      (if world.fileExists path then world.jsonFromFile path else none) = document)
    (isSigned : Bool) :
    (∃ json, document = some json ∧ json.complete = true ∧
      (loadWithBackend (samconfJsonOps world) path isSigned).Yields
        ⟨.ok, some (json.loaded isSigned), [(.json, isSigned)]⟩) ∨
    ∃ outcome, (∀ json, document = some json → json.complete = false) ∧ outcome.status ≠ .ok ∧
      (loadWithBackend (samconfJsonOps world) path isSigned).Yields outcome := by
  have hopen : ((samconfJsonOps world).openBackend path).Yields
      (samconfJsonBackendOpen world path) := Exec.yields_pure _
  have hclose (handle : BackendHandle) : ((samconfJsonOps world).close handle).Yields .ok :=
    Exec.yields_pure _
  have hrefused (status : ConfigStatus) (hstatus : status ≠ .ok)
      (hanswer : samconfJsonBackendOpen world path = (status, none)) :
      (loadWithBackend (samconfJsonOps world) path isSigned).Yields ⟨status, none, []⟩ := by
    rw [hanswer] at hopen
    rw [loadWithBackend]
    apply hopen.bind
    simp only [hstatus, if_false]
    exact Exec.yields_pure _
  cases hexists : world.fileExists path with
  | false =>
      rw [hexists] at hdocument
      subst hdocument
      refine .inr ⟨_, by simp, ?_, hrefused .notFound (by decide) ?_⟩
      · decide
      · simp [samconfJsonBackendOpen, hexists]
  | true =>
      rw [hexists, if_pos rfl] at hdocument
      subst hdocument
      cases hjson : world.jsonFromFile path with
      | none =>
          refine .inr ⟨_, by simp, ?_, hrefused .error (by decide) ?_⟩
          · decide
          · simp [samconfJsonBackendOpen, hexists, hjson]
      | some json =>
          have hanswer : samconfJsonBackendOpen world path = (.ok, some (.document json)) := by
            simp [samconfJsonBackendOpen, hexists, hjson]
          rw [hanswer] at hopen
          rw [loadWithBackend]
          cases hcomplete : json.complete with
          | true =>
              have hload : ((samconfJsonOps world).load (.document json) isSigned).Yields
                (.ok, some (json.loaded isSigned)) :=
                  samconfJsonBackendLoad_of_complete isSigned hcomplete
              refine .inl ⟨json, rfl, hcomplete, ?_⟩
              apply hopen.bind
              simp only [if_true, deref_some, Exec.pure_bind]
              apply hload.bind
              apply (hclose _).bind
              exact Exec.yields_pure _
          | false =>
              rcases refuses_of_not_complete isSigned hcomplete (some configKey) false .object with
                ⟨partly, hpartly, hcounted, htagged⟩
              have hload : ((samconfJsonOps world).load (.document json) isSigned).Yields
                  (.parseError, some partly) := samconfJsonBackendLoad_of_transform hpartly
              refine .inr ⟨⟨.parseError, none, [(.json, isSigned)]⟩, by simp [hcomplete],
                by simp, ?_⟩
              apply hopen.bind
              simp only [if_true, deref_some, Exec.pure_bind]
              apply hload.bind
              apply (hclose _).bind
              simp only [ne_eq, not_true_eq_false, if_false, reduceCtorEq, not_false_eq_true,
                if_true]
              rw [samconfConfigDelete_eq hcounted htagged, Exec.lift_ok_bind]
              exact Exec.yields_pure _

/-- A file is loaded as the document that is accepted, or not at all. -/
theorem HoldsFile.load (h : HoldsFile world path document verdict) (enforceSignature : Bool) :
    (∃ json isSigned loads, acceptedDocument enforceSignature document verdict =
        [(json, isSigned)] ∧
      (samconfLoad world path enforceSignature).Yields
        ⟨.ok, some (json.loaded isSigned), loads⟩) ∨
    ∃ outcome, acceptedDocument enforceSignature document verdict = [] ∧
      outcome.status ≠ .ok ∧ (samconfLoad world path enforceSignature).Yields outcome := by
  have hbackend := loadWithBackend_json h.document (decide (verdict = .ok))
  have hlookup := samconfLookupBackend_of_json h.enabled h.extension
  rw [samconfLoad]
  by_cases hadmitted :
      (decide (verdict = .ok) || (decide (verdict = .signatureNotFound) && !enforceSignature)) =
        true
  · have hload (outcome : LoadOutcome)
        (hyields : (loadWithBackend (samconfJsonOps world) path (decide (verdict = .ok))).Yields
          outcome) : (samconfLoad world path enforceSignature).Yields outcome := by
      rw [samconfLoad]
      apply h.verdict.bind
      simp only [hadmitted, if_true]
      apply hlookup.bind
      simp only [if_true]
      exact hyields
    rw [← samconfLoad]
    rcases hbackend with ⟨json, rfl, hcomplete, hyields⟩ | ⟨outcome, hdocument, hstatus, hyields⟩
    · refine .inl ⟨json, _, _, ?_, hload _ hyields⟩
      simp only [acceptedDocument, hcomplete, if_true]
      by_cases hok : verdict = .ok
      · simp [hok]
      · simpa [hok] using hadmitted
    · refine .inr ⟨outcome, ?_, hstatus, hload _ hyields⟩
      cases document with
      | none => rfl
      | some json => simp [acceptedDocument, hdocument json rfl]
  · refine .inr ⟨⟨verdict, none, []⟩, ?_, ?_, ?_⟩
    · cases document with
      | none => rfl
      | some json =>
          have hnot : ¬ verdict = .ok ∧ ¬ (verdict = .signatureNotFound ∧
              enforceSignature = false) := by simpa using hadmitted
          simp [acceptedDocument, hnot.1, hnot.2]
    · rintro rfl
      exact hadmitted rfl
    · apply h.verdict.bind
      simp only [hadmitted, Bool.false_eq_true, if_false]
      exact Exec.yields_pure _

/-! ## Merging what is offered -/

/-- The trees of documents. -/
def treesOf (docs : List (Json × Bool)) : List Config := docs.map fun d => d.1.loaded d.2

theorem treesOf_append (docs others : List (Json × Bool)) :
    treesOf (docs ++ others) = treesOf docs ++ treesOf others :=
  List.map_append

/-- Documents whose trees can be merged. -/
def AllMergeable (docs : List (Json × Bool)) : Prop :=
  ∀ d ∈ docs, d.1.Named ∧ d.1.UniqueKeys

theorem AllMergeable.mergeable {docs : List (Json × Bool)} (h : AllMergeable docs) :
    ∀ c ∈ treesOf docs, c.Mergeable := by
  intro c hc
  obtain ⟨d, hd, rfl⟩ := List.mem_map.mp hc
  exact (h d hd).1.mergeable (h d hd).2 d.2 configKey_ne_rootKey

theorem AllMergeable.left {docs others : List (Json × Bool)} (h : AllMergeable (docs ++ others)) :
    AllMergeable docs :=
  fun d hd => h d (List.mem_append_left others hd)

theorem AllMergeable.right {docs others : List (Json × Bool)}
    (h : AllMergeable (docs ++ others)) : AllMergeable others :=
  fun d hd => h d (List.mem_append_right docs hd)

theorem AllMergeable.kept {docs : List (Json × Bool)} (h : AllMergeable docs)
    (hsound : conf.Sound) (htagged : conf.Tagged) :
    Config.Sound ((treesOf docs).foldl Config.stepByPath conf) ∧
      Config.Tagged ((treesOf docs).foldl Config.stepByPath conf) := by
  have hplaceable : ∀ c ∈ treesOf docs, c.Placeable := fun c hc => (h.mergeable c hc).placeable
  constructor
  · exact List.foldlRecOn (treesOf docs) Config.stepByPath hsound fun _ hconfig c hc =>
      hconfig.stepByPath (hplaceable c hc)
  · exact List.foldlRecOn (treesOf docs) Config.stepByPath htagged fun _ hconfig c hc =>
      Config.Tagged.stepByPath hconfig (hplaceable c hc)

/-- One file, with its tree merged or refused. -/
theorem HoldsFile.extend (h : HoldsFile world path document verdict) (enforceSignature : Bool)
    (hsound : conf.Sound) (htagged : conf.Tagged)
    (hdocs : AllMergeable (acceptedDocument enforceSignature document verdict)) :
    ∃ status, (extendWithSinglePath world path enforceSignature conf).Yields
      (status, (treesOf (acceptedDocument enforceSignature document verdict)).foldl
        Config.stepByPath conf) := by
  rw [extendWithSinglePath]
  rcases h.load enforceSignature with
    ⟨json, isSigned, loads, haccepted, hload⟩ | ⟨outcome, haccepted, hstatus, hload⟩
  · have hmerge : Config.Mergeable (json.loaded isSigned) :=
      hdocs.mergeable _ (by simp [haccepted, treesOf])
    refine ⟨mergeStatus conf (json.loaded isSigned), ?_⟩
    apply hload.bind
    simp only [ne_eq, not_true_eq_false, if_false]
    apply (samconfConfigMergeConfig_stepByPath hsound htagged hmerge.placeable).bind
    simp only
    rw [samconfConfigDelete_eq hmerge.counted hmerge.tagged, Exec.lift_ok_bind, haccepted]
    exact Exec.yields_pure _
  · refine ⟨outcome.status, ?_⟩
    apply hload.bind
    rw [if_pos hstatus, haccepted]
    exact Exec.yields_pure _

/-- The files of a directory, in order. -/
theorem extendWithFiles_yields {files : List CString} {document : CString → Option Json}
    {verdict : CString → ConfigStatus}
    (hholds : ∀ name ∈ files, HoldsFile world (path ++ '/' :: name) (document name) (verdict name))
    (enforceSignature : Bool) (result : ConfigStatus) (hsound : conf.Sound)
    (htagged : conf.Tagged)
    (hdocs : AllMergeable (files.flatMap fun name =>
      acceptedDocument enforceSignature (document name) (verdict name))) :
    ∃ status, (extendWithFiles world path enforceSignature files result conf).Yields
      (status, (treesOf (files.flatMap fun name =>
        acceptedDocument enforceSignature (document name) (verdict name))).foldl
          Config.stepByPath conf) := by
  induction files generalizing conf result with
  | nil => exact ⟨result, Exec.yields_pure _⟩
  | cons name files ih =>
      rw [List.flatMap_cons] at hdocs
      rcases (hholds name List.mem_cons_self).extend enforceSignature hsound htagged hdocs.left with
        ⟨res, hone⟩
      have hkept := hdocs.left.kept hsound htagged
      rcases ih (fun name' hname' => hholds name' (List.mem_cons_of_mem name hname'))
        (directoryResult result res) hkept.1 hkept.2 hdocs.right with ⟨status, hrest⟩
      refine ⟨status, ?_⟩
      rw [extendWithFiles, List.flatMap_cons, treesOf_append, List.foldl_append]
      apply (Exec.yields_allocFor _).bind
      rw [deref_some, Exec.pure_bind]
      apply hone.bind
      exact hrest

/-- All locations, in order. -/
theorem mergeLocations_yields {locations : List ConfigLocation}
    {offers : List (List (Json × Bool))} (hoffers : List.Forall₂ (Offers world) locations offers)
    (status : ConfigStatus) (hsound : conf.Sound) (htagged : conf.Tagged)
    (hdocs : AllMergeable offers.flatten) :
    ∃ status', (mergeLocations world locations status conf).Yields
      (status', (treesOf offers.flatten).foldl Config.stepByPath conf) := by
  induction hoffers generalizing conf status with
  | nil => exact ⟨status, Exec.yields_pure _⟩
  | @cons location docs locations offers hoffer _ ih =>
      rw [List.flatten_cons] at hdocs ⊢
      rw [treesOf_append, List.foldl_append]
      have hkept := hdocs.left.kept hsound htagged
      have hrest := fun status => ih status hkept.1 hkept.2 hdocs.right
      cases hoffer with
      | invalid => exact hrest status
      | config json isSigned =>
          have hmerge := hdocs.left.mergeable (json.loaded isSigned) (by simp [treesOf])
          rcases hrest (locationStatus status (mergeStatus conf (json.loaded isSigned))) with
            ⟨status', hlater⟩
          refine ⟨status', ?_⟩
          rw [mergeLocations]
          apply (samconfConfigMergeConfig_stepByPath hsound htagged hmerge.placeable).bind
          exact hlater
      | nowhere enforceSignature =>
          rcases hrest (locationStatus status .notFound) with ⟨status', hlater⟩
          exact ⟨status', hlater⟩
      | @file path enforceSignature document verdict hfile hholds =>
          rcases hholds.extend enforceSignature hsound htagged hdocs.left with ⟨res, hone⟩
          rcases hrest (locationStatus status res) with ⟨status', hlater⟩
          refine ⟨status', ?_⟩
          rw [mergeLocations, extendWithLocation]
          simp only [hfile]
          exact hone.bind hlater
      | @directory path enforceSignature entries document verdict hdirectory hholds =>
          rcases extendWithFiles_yields hholds enforceSignature .notFound hsound htagged
            hdocs.left with ⟨res, hall⟩
          rcases hrest (locationStatus status res) with ⟨status', hlater⟩
          have hextend : (extendWithDirectory world entries enforceSignature path conf).Yields
              (res, (treesOf ((sortNames (regularNames entries)).flatMap fun name =>
                acceptedDocument enforceSignature (document name) (verdict name))).foldl
                  Config.stepByPath conf) := by
            rw [extendWithDirectory]
            apply Exec.yields_alloc.bind
            apply (collectNames_yields entries).bind
            exact hall
          refine ⟨status', ?_⟩
          rw [mergeLocations, extendWithLocation]
          simp only [hdirectory]
          exact hextend.bind hlater

end Load

/-! ## The document -/

/-- The documents that end up in the dump: those that the locations offer and the rule
lets through. -/
def dumpedDocuments (offers : List (List (Json × Bool))) : List Json :=
  (letThrough Prod.snd false offers.flatten).map fun d => d.1.kept

/-- **Locations make one document.** Let each location offer documents: itself one, or
the file at its path, or the files of its directory in the order of their names, as far
as they can be parsed and their signatures are accepted. Then `samconfLoadAndMerge`
leaves, without failing allocations, a tree whose dump is what these documents make of
an empty object when they are laid over it one after the other, without the unsigned
ones behind the first signed one. -/
theorem samconfLoadAndMerge_document {world : World} {locations : List ConfigLocation}
    {offers : List (List (Json × Bool))} (hoffers : List.Forall₂ (Offers world) locations offers)
    (hdocs : ∀ d ∈ offers.flatten, d.1.Named ∧ d.1.NullFree ∧ d.1.UniqueKeys)
    (hfits : Json.FitTogether (.object []) (dumpedDocuments offers)) :
    ∃ status tree, (samconfLoadAndMerge world locations none).Yields (status, some tree) ∧
      (samconfDumpJsonConfig tree).Yields
        ((dumpedDocuments offers).foldl Json.mergedWith (.object [])) := by
  have hmergeable : AllMergeable offers.flatten := fun d hd => ⟨(hdocs d hd).1, (hdocs d hd).2.2⟩
  rcases mergeLocations_yields hoffers .notFound intact_freshRoot.toSound intact_freshRoot.tagged
    hmergeable with ⟨status, hmerged⟩
  have hletThrough : letThrough (fun c : Config => c.label.isSigned) freshRoot.label.isSigned
      (treesOf offers.flatten) = treesOf (letThrough Prod.snd false offers.flatten) := by
    rw [treesOf, letThrough_map]
    simp only [Json.loaded, Json.label_tree, Json.isSigned_label]
    rfl
  have hgrafted := @Json.toJson_foldl_grafted (letThrough Prod.snd false offers.flatten)
    (fun d hd => hdocs d (mem_of_mem_letThrough hd)) freshRoot Json.legible_freshRoot hfits
  rw [Config.foldl_stepByPath freshRoot hmergeable.mergeable, hletThrough] at hmerged
  have hresult := Json.legible_signedBy hgrafted.1
    ((treesOf offers.flatten).any fun c => c.label.isSigned)
  have hload : (samconfLoadAndMerge world locations none).Yields
      (status, some (Config.signedBy ((treesOf offers.flatten).any fun c => c.label.isSigned)
        ((treesOf (letThrough Prod.snd false offers.flatten)).foldl grafted freshRoot))) := by
    rw [samconfLoadAndMerge]
    apply samconfConfigNew_yields.bind
    apply hmerged.bind
    exact Exec.yields_pure _
  have hdump := hresult.1.dump
  rw [hresult.2, hgrafted.2] at hdump
  exact ⟨status, _, hload, hdump⟩

/-- What the files of `twoFiles` hold. -/
theorem holdsFile_twoFiles {name : CString}
    (h : name ∈ sortNames (regularNames [("a.json".toList, true), ("b.json".toList, true)])) :
    HoldsFile twoFiles ("d".toList ++ '/' :: name)
      (if name = "a.json".toList then some (Json.oneOption ['a'] (.int 1))
        else some (Json.oneOption ['a'] .null)) .signatureNotFound := by
  have hnames : sortNames (regularNames [("a.json".toList, true), ("b.json".toList, true)]) =
      ["a.json".toList, "b.json".toList] := rfl
  rw [hnames] at h
  rcases List.mem_cons.mp h with rfl | h
  · exact ⟨rfl, by decide, rfl, Exec.yields_iff.mpr rfl⟩
  · obtain rfl := List.mem_singleton.mp h
    exact ⟨rfl, by decide, rfl, Exec.yields_iff.mpr rfl⟩

/-- A document of one scalar can be merged and fits. -/
theorem oneOption_in_order {key : CString} {value : Json} (hpath : IsPathKey key)
    (hroot : key ≠ rootKey) (hvalue : value.members = []) (hnull : value ≠ .null) :
    (Json.oneOption key value).Named ∧ (Json.oneOption key value).NullFree ∧
      (Json.oneOption key value).UniqueKeys := by
  refine ⟨Json.named_oneOption hpath hroot hvalue, fun sub hsub => ?_,
    Json.uniqueKeys_oneOption (Json.uniqueKeys_of_members_eq_nil hvalue)⟩
  rcases Json.within_oneOption hsub with rfl | rfl | hsub
  · simp [Json.oneOption]
  · simp
  · cases hsub with
    | self => exact hnull
    | member hm _ => simp [hvalue] at hm

theorem no_arrays_oneOption {key : CString} {value : Json} (hvalue : value.members = [])
    (harray : ∀ elements, value ≠ .array elements) (elements : List Json) :
    ¬ Json.Within (.array elements) (Json.oneOption key value) := by
  intro h
  rcases Json.within_oneOption h with h | h | h
  · cases h
  · cases h
  · cases h with
    | self => exact harray elements rfl
    | member hm _ => simp [hvalue] at hm

/-- A directory with a file that is loaded and one that is not, and an option of another
configuration. -/
theorem two_options_in_one_document :
    let added := Json.oneOption ['b'] (.boolean true)
    ∃ status tree, (samconfLoadAndMerge twoFiles
        [.path (some "d".toList) false, .config (some (added.loaded true))] none).Yields
        (status, some tree) ∧
      (samconfDumpJsonConfig tree).Yields
        (.object [(rootKey, .object [(['a'], .int 1), (['b'], .boolean true)])]) := by
  intro added
  let first := Json.oneOption ['a'] (.int 1)
  have hoffers : List.Forall₂ (Offers twoFiles)
      [.path (some "d".toList) false, .config (some (added.loaded true))]
      [[(first, false)], [(added, true)]] :=
    .cons (@Offers.directory _ _ false _ _ (fun _ => .signatureNotFound) rfl
      fun _ => holdsFile_twoFiles) (.cons (.config added true) .nil)
  refine samconfLoadAndMerge_document hoffers ?_ ?_
  · intro d hd
    rcases List.mem_cons.mp hd with rfl | hd
    · exact oneOption_in_order (by decide) (by decide) rfl (by simp)
    · obtain rfl := List.mem_singleton.mp hd
      exact oneOption_in_order (by decide) (by decide) rfl (by simp)
  · have hempty (elements : List Json) : ¬ Json.Within (.array elements) (.object []) := by
      intro h
      cases h with
      | member hm _ => cases hm
    have hfirst := @no_arrays_oneOption ['a'] (.int 1) rfl (by simp)
    have hadded := @no_arrays_oneOption ['b'] (.boolean true) rfl (by simp)
    exact ⟨fun _ _ => Json.fits_of_no_arrays hfirst hempty,
      fun _ _ => Json.fits_of_no_arrays hadded hfirst, trivial⟩

end Samconf
