/-
# The status of a load from many locations

Of the statuses of its files, a directory keeps the one of highest rank, and of
those of the locations, `samconfLoadAndMerge` does. The two chains rank a rejected
signature highest, so none is masked. They agree on little else: a directory does
not rank ERROR at all, and neither chain ranks PARSE_ERROR. So next to a success
these go unreported, although OK is said to mean that nothing failed.
-/

import Samconf.Properties.Completeness
import Samconf.Properties.Signature
import Samconf.Spec.Attempts
import Samconf.Spec.Json

namespace Samconf

open Foundation
open Exec (Yields Ensures)
open RoseTree (relabel)

/-! ## What can happen to one location -/

/-- The statuses that a merge can have. -/
def IsMergeStatus (status : ConfigStatus) : Prop :=
  status = .ok ∨ status = .error ∨ status = .overwriteNotAllowed

/-- **A merge** has no other status, whatever is merged and whichever allocations
fail. -/
theorem samconfConfigMergeConfig_ensures_status (mergedConfig : Config)
    (configToMerge : Option Config) :
    (samconfConfigMergeConfig mergedConfig configToMerge).Ensures fun r =>
      IsMergeStatus r.1 := by
  rw [samconfConfigMergeConfig]
  suffices h : (mergeConfig mergedConfig configToMerge).Ensures fun outcome =>
      IsMergeStatus outcome.result from h.bind fun outcome h => Exec.ensures_pure h
  cases configToMerge with
  | none => exact Exec.ensures_pure (.inr (.inl rfl))
  | some configToMerge =>
      rw [mergeConfig]
      split
      · refine Exec.loop_ensures (fun _ => True) (fun state _ => ?_) trivial
        rw [mergeStep]
        refine (Exec.ensures_true _).bind fun next _ => ?_
        rcases next with ⟨result, next⟩
        cases next with
        | none => exact Exec.ensures_pure (.inl rfl)
        | some next =>
            apply (mergeNode_mirrors configToMerge next state.mergedConfig).ensures.bind
            rintro outcome ⟨step, hends⟩
            cases step with
            | none =>
                rcases hends with ⟨config, rfl⟩
                exact Exec.ensures_pure trivial
            | some step =>
                cases step with
                | allocation =>
                    rcases hends with ⟨config, rfl⟩
                    exact Exec.ensures_pure (.inr (.inl rfl))
                | _ =>
                    rcases hends with ⟨config, rfl⟩
                    exact Exec.ensures_pure (.inl rfl)
      · exact Exec.ensures_pure (.inr (.inr rfl))

/-- The result of an attempt is that of the load, unless that says OK; then it is
that of the merge. -/
def Attempt.Possible (attempt : Attempt) : Prop :=
  (attempt.loaded ≠ .ok ∧ attempt.res = attempt.loaded) ∨
    (attempt.loaded = .ok ∧ IsMergeStatus attempt.res)

theorem recordSinglePath_ensures (world : World) (configLocation : CString)
    (enforceSignature : Bool) (conf : Config) :
    (recordSinglePath world configLocation enforceSignature conf).Ensures fun r =>
      r.1.configLocation = configLocation ∧ r.1.Possible := by
  rw [recordSinglePath]
  refine (Exec.ensures_true _).bind fun outcome _ => ?_
  by_cases hok : outcome.status = .ok
  · simp only [hok, ne_eq, not_true_eq_false, if_false]
    refine (samconfConfigMergeConfig_ensures_status conf outcome.config).bind fun merge hmerge => ?_
    cases outcome.config with
    | none => exact Exec.ensures_pure ⟨rfl, .inr ⟨rfl, hmerge⟩⟩
    | some addConf =>
        refine (Exec.ensures_true _).bind fun _ _ => ?_
        exact Exec.ensures_pure ⟨rfl, .inr ⟨rfl, hmerge⟩⟩
  · simp only [hok, ne_eq, not_false_eq_true, if_true]
    exact Exec.ensures_pure ⟨rfl, .inl ⟨hok, rfl⟩⟩

/-- An attempt ends as rejected exactly when the load said so. -/
theorem Attempt.Possible.res_eq_invalidSignature_iff {attempt : Attempt}
    (h : attempt.Possible) :
    attempt.res = .invalidSignature ↔ attempt.loaded = .invalidSignature := by
  rcases h with ⟨-, hres⟩ | ⟨hloaded, hres | hres | hres⟩ <;> simp [*]

/-! ## What is visited -/

/-- The type of the location is one of the two. -/
def ConfigLocation.isValid : ConfigLocation → Bool
  | invalid => false
  | _ => true

/-- What `samconfLoadAndMerge` can do for a location. The regular files of a directory
that is listed are all attempted. -/
inductive Visits (world : World) : ConfigLocation → Visit → Prop
  | config {added : Option Config} {res : ConfigStatus} (hres : IsMergeStatus res) :
      Visits world (.config added) (.config res)
  | nowhere {enforceSignature : Bool} : Visits world (.path none enforceSignature) .nowhere
  | file {path : CString} {enforceSignature : Bool} {attempt : Attempt}
      (hfile : world.readDirectory path = none) (hpath : attempt.configLocation = path)
      (hpossible : attempt.Possible) :
      Visits world (.path (some path) enforceSignature) (.file attempt)
  | unlisted {path : CString} {enforceSignature : Bool} {entries : List (CString × Bool)}
      (hdirectory : world.readDirectory path = some entries) :
      Visits world (.path (some path) enforceSignature) .unlisted
  | directory {path : CString} {enforceSignature : Bool} {entries : List (CString × Bool)}
      {attempts : List Attempt} (hdirectory : world.readDirectory path = some entries)
      (hnames : attempts.map Attempt.configLocation =
        (sortNames (regularNames entries)).map fun name => path ++ '/' :: name)
      (hpossible : ∀ attempt ∈ attempts, attempt.Possible) :
      Visits world (.path (some path) enforceSignature) (.directory attempts)

theorem recordFiles_ensures (world : World) (path : CString) (enforceSignature : Bool)
    (files : List CString) (conf : Config) :
    (recordFiles world path enforceSignature files conf).Ensures fun r =>
      r.1.map Attempt.configLocation = files.map (fun name => path ++ '/' :: name) ∧
        ∀ attempt ∈ r.1, attempt.Possible := by
  induction files generalizing conf with
  | nil => exact Exec.ensures_pure ⟨rfl, by simp⟩
  | cons configFile files ih =>
      rw [recordFiles]
      apply (Exec.ensures_allocFor _).bind
      rintro buffer (rfl | rfl)
      · exact Exec.ensures_fault _
      · apply (recordSinglePath_ensures world _ enforceSignature conf).bind
        rintro ⟨attempt, conf⟩ ⟨hlocation, hpossible⟩
        apply (ih conf).bind
        rintro ⟨attempts, conf⟩ ⟨hlocations, hall⟩
        exact Exec.ensures_pure
          ⟨congrArg₂ List.cons hlocation hlocations, List.forall_mem_cons.mpr ⟨hpossible, hall⟩⟩

theorem recordLocation_ensures (world : World) (path : Option CString) (enforceSignature : Bool)
    (conf : Config) :
    (recordLocation world path enforceSignature conf).Ensures fun r =>
      Visits world (.path path enforceSignature) r.1 := by
  cases path with
  | none => exact Exec.ensures_pure .nowhere
  | some path =>
      rw [recordLocation]
      cases hread : world.readDirectory path with
      | none =>
          apply (recordSinglePath_ensures world path enforceSignature conf).bind
          rintro ⟨attempt, conf⟩ ⟨hlocation, hpossible⟩
          exact Exec.ensures_pure (.file hread hlocation hpossible)
      | some entries =>
          refine Ensures.bind (Exec.ensures_true Exec.alloc) fun granted _ => ?_
          cases granted with
          | false => exact Exec.ensures_pure (.unlisted hread)
          | true =>
              apply (collectNames_ensures entries).bind
              rintro names (rfl | rfl)
              · exact Exec.ensures_pure (.unlisted hread)
              · apply (recordFiles_ensures world path enforceSignature _ conf).bind
                rintro ⟨attempts, conf⟩ ⟨hlocations, hpossible⟩
                exact Exec.ensures_pure (.directory hread hlocations hpossible)

theorem recordLocations_ensures (world : World) (locations : List ConfigLocation)
    (config : Config) :
    (recordLocations world locations config).Ensures fun r =>
      List.Forall₂ (Visits world) (locations.filter ConfigLocation.isValid) r.1 := by
  induction locations generalizing config with
  | nil => exact Exec.ensures_pure .nil
  | cons location locations ih =>
      cases location with
      | invalid => exact ih config
      | config added =>
          rw [recordLocations]
          apply (samconfConfigMergeConfig_ensures_status config added).bind
          rintro ⟨res, config⟩ hres
          apply (ih config).bind
          rintro ⟨visits, config⟩ hvisits
          exact Exec.ensures_pure (.cons (.config hres) hvisits)
      | path path enforceSignature =>
          rw [recordLocations]
          apply (recordLocation_ensures world path enforceSignature config).bind
          rintro ⟨visit, config⟩ hvisit
          apply (ih config).bind
          rintro ⟨visits, config⟩ hvisits
          exact Exec.ensures_pure (.cons hvisit hvisits)

/-- **Every location is visited** once there is a root. -/
theorem recordLoadAndMerge_ensures (world : World) (locations : List ConfigLocation)
    (config : Option Config) :
    (recordLoadAndMerge world locations config).Ensures fun r =>
      if r.2.isNone then r.1 = []
      else List.Forall₂ (Visits world) (locations.filter ConfigLocation.isValid) r.1 := by
  cases config with
  | some config =>
      rw [recordLoadAndMerge]
      apply (recordLocations_ensures world locations config).bind
      exact fun r hr => Exec.ensures_pure hr
  | none =>
      rw [recordLoadAndMerge]
      apply samconfConfigNew_ensures.bind
      rintro created (rfl | rfl)
      · exact Exec.ensures_pure rfl
      · apply (recordLocations_ensures world locations _).bind
        exact fun r hr => Exec.ensures_pure hr

/-! ## Rejected signatures -/

/-- A location counts as rejected exactly when one of its files is. -/
theorem Visits.status_eq_invalidSignature_iff {world : World} {location : ConfigLocation}
    {v : Visit} (h : Visits world location v) :
    v.status = .invalidSignature ↔ ∃ a ∈ v.attempts, a.loaded = .invalidSignature := by
  cases h with
  | config hres => rcases hres with rfl | rfl | rfl <;> simp [Visit.status, Visit.attempts]
  | nowhere => simp [Visit.status, Visit.attempts]
  | unlisted _ => simp [Visit.status, Visit.attempts]
  | file _ _ hpossible =>
      simp [Visit.status, Visit.attempts, hpossible.res_eq_invalidSignature_iff]
  | directory _ _ hpossible =>
      rw [Visit.status_directory_eq_invalidSignature_iff]
      exact exists_congr fun a => and_congr_right fun ha =>
        (hpossible a ha).res_eq_invalidSignature_iff

/-- Every visit is that of a location. -/
theorem exists_visits {world : World} {locations : List ConfigLocation} {visits : List Visit}
    (h : List.Forall₂ (Visits world) locations visits) {v : Visit} (hv : v ∈ visits) :
    ∃ location, Visits world location v := by
  induction h with
  | nil => cases hv
  | cons hvisit _ ih =>
      rcases List.mem_cons.mp hv with rfl | hv
      · exact ⟨_, hvisit⟩
      · exact ih hv

/-- **No rejected signature is masked.** Once there is a root, every location with a
valid type is visited, with every regular file of a directory that was listed, and
`samconfLoadAndMerge` says INVALID_SIGNATURE exactly when `samconfLoad` said so for
one of the files. -/
theorem invalidSignature_iff_rejected (world : World) (locations : List ConfigLocation)
    (config : Option Config) :
    samconfLoadAndMerge world locations config =
        (recordLoadAndMerge world locations config >>= fun r => pure (answer r)) ∧
      (recordLoadAndMerge world locations config).Ensures fun r =>
        (r.2 ≠ none →
          List.Forall₂ (Visits world) (locations.filter ConfigLocation.isValid) r.1) ∧
        ((answer r).1 = .invalidSignature ↔
          ∃ v ∈ r.1, ∃ attempt ∈ v.attempts, attempt.loaded = .invalidSignature) := by
  refine ⟨samconfLoadAndMerge_eq world locations config,
    (recordLoadAndMerge_ensures world locations config).mono ?_⟩
  rintro ⟨visits, root⟩ hvisits
  cases root with
  | none =>
      obtain rfl : visits = [] := hvisits
      exact ⟨fun h => absurd rfl h, by simp [answer]⟩
  | some root =>
      replace hvisits : List.Forall₂ (Visits world)
        (locations.filter ConfigLocation.isValid) visits := hvisits
      refine ⟨fun _ => hvisits, visitsStatus_eq_invalidSignature_iff.trans ?_⟩
      refine exists_congr fun v => and_congr_right fun hv => ?_
      rcases exists_visits hvisits hv with ⟨location, hlocation⟩
      exact hlocation.status_eq_invalidSignature_iff

/-! ## Failures next to a success -/

/-- The results of the loads and merges at a location, one by one. -/
def Visit.results : Visit → List ConfigStatus
  | config res => [res]
  | nowhere | unlisted => []
  | file attempt => [attempt.res]
  | directory attempts => attempts.map Attempt.res

/-- No file and no configuration failed. -/
def NothingFailed (visits : List Visit) : Prop :=
  ∀ v ∈ visits, .error ∉ v.results ∧ .parseError ∉ v.results

/-- Something failed where nothing shows it: some file or configuration was
accepted, none was rejected for its signature, and ERROR occurred for files in
directories only. -/
structure FailureHidden (visits : List Visit) : Prop where
  failed : ∃ v ∈ visits, .error ∈ v.results ∨ .parseError ∈ v.results
  accepted : ∃ v ∈ visits, .ok ∈ v.results
  unrejected : ∀ v ∈ visits, .invalidSignature ∉ v.results
  inDirectories : ∀ v ∈ visits, v ≠ .unlisted ∧
    (.error ∈ v.results → ∃ attempts, v = .directory attempts)

/-- A location is OK when something there is accepted and nothing is rejected. -/
theorem Visit.status_eq_ok_iff (v : Visit) :
    v.status = .ok ↔ .ok ∈ v.results ∧ .invalidSignature ∉ v.results := by
  cases v with
  | directory attempts =>
      rw [Visit.status_directory_eq_ok_iff]
      simp [results]
  | config res => cases res <;> simp [status, results]
  | file attempt => cases hres : attempt.res <;> simp [status, results, hres]
  | _ => simp [status, results]

/-- It is rejected when something there is. -/
theorem Visit.status_eq_invalidSignature_iff (v : Visit) :
    v.status = .invalidSignature ↔ .invalidSignature ∈ v.results := by
  cases v with
  | directory attempts =>
      rw [Visit.status_directory_eq_invalidSignature_iff]
      simp [results]
  | _ => simp [status, results, eq_comm]

/-- ERROR shows unless it is that of a file in a directory. -/
theorem Visit.status_ne_error_iff (v : Visit) :
    v.status ≠ .error ↔
      v ≠ .unlisted ∧ (.error ∈ v.results → ∃ attempts, v = .directory attempts) := by
  cases v with
  | directory attempts => simp [Visit.status_directory_ne_error]
  | _ => simp [status, results, eq_comm]

/-- A hidden failure is one that comes with OK. -/
theorem failureHidden_iff {visits : List Visit} :
    FailureHidden visits ↔
      visitsStatus .notFound visits = .ok ∧ ¬ NothingFailed visits := by
  rw [visitsStatus_eq_ok_iff]
  constructor
  · rintro ⟨⟨v, hv, hfailed⟩, ⟨w, hw, haccepted⟩, hunrejected, hinDirectories⟩
    refine ⟨⟨⟨w, hw, (Visit.status_eq_ok_iff w).mpr ⟨haccepted, hunrejected w hw⟩⟩,
      fun u hu => ⟨?_, (Visit.status_ne_error_iff u).mpr (hinDirectories u hu)⟩⟩,
      fun hnothing => ?_⟩
    · rw [Ne, Visit.status_eq_invalidSignature_iff]
      exact hunrejected u hu
    · rcases hfailed with hfailed | hfailed
      · exact (hnothing v hv).1 hfailed
      · exact (hnothing v hv).2 hfailed
  · rintro ⟨⟨⟨w, hw, hok⟩, hshown⟩, hfailed⟩
    refine ⟨?_, ⟨w, hw, ((Visit.status_eq_ok_iff w).mp hok).1⟩, fun u hu => ?_, fun u hu => ?_⟩
    · by_contra hnone
      refine hfailed fun v hv => ⟨fun h => hnone ⟨v, hv, .inl h⟩, fun h => hnone ⟨v, hv, .inr h⟩⟩
    · rw [← Visit.status_eq_invalidSignature_iff]
      exact (hshown u hu).1
    · exact (Visit.status_ne_error_iff u).mp (hshown u hu).2

/-- **OK means that nothing failed** exactly when no failure is hidden. -/
theorem okMeansNothingFailed_iff (world : World) (locations : List ConfigLocation)
    (config : Option Config) :
    samconfLoadAndMerge world locations config =
        (recordLoadAndMerge world locations config >>= fun r => pure (answer r)) ∧
      (recordLoadAndMerge world locations config).Ensures fun r =>
        (r.2 ≠ none →
          List.Forall₂ (Visits world) (locations.filter ConfigLocation.isValid) r.1) ∧
        (((answer r).1 = .ok → NothingFailed r.1) ↔ ¬ FailureHidden r.1) := by
  refine ⟨samconfLoadAndMerge_eq world locations config,
    (recordLoadAndMerge_ensures world locations config).mono ?_⟩
  rintro ⟨visits, root⟩ hvisits
  cases root with
  | none =>
      obtain rfl : visits = [] := hvisits
      refine ⟨fun h => absurd rfl h, iff_of_true (fun h => by cases h) fun h => ?_⟩
      rcases h.accepted with ⟨v, hv, -⟩
      cases hv
  | some root =>
      refine ⟨fun _ => hvisits, ?_⟩
      rw [failureHidden_iff, not_and, not_not]
      rfl

/-- A world without signatures, with some documents in files and one directory. -/
def World.ofDocuments (documents : List (CString × Json)) (directory : CString)
    (entries : List (CString × Bool)) : World :=
  { World.ofSignature [] [] with
    files := ⟨fun _ => false, fun _ => none⟩
    fileExists := fun path => documents.any fun document => document.1 = path
    jsonFromFile := fun path =>
      (documents.find? fun document => document.1 = path).map Prod.snd
    readDirectory := fun path => if path = directory then some entries else none }

/-- A directory with two files, the second of which holds a null. -/
def twoFiles : World :=
  .ofDocuments [("d/a.json".toList, Json.oneOption ['a'] (.int 1)),
    ("d/b.json".toList, Json.oneOption ['a'] .null)]
    "d".toList [("a.json".toList, true), ("b.json".toList, true)]

/-- The file that cannot be parsed is hidden behind the one that is accepted. -/
theorem broken_file_is_hidden : ∃ visits root,
    (samconfLoadAndMerge twoFiles [.path (some "d".toList) false] none).Yields
      (.ok, some root) ∧
    (recordLoadAndMerge twoFiles [.path (some "d".toList) false] none).Yields
      (visits, some root) ∧ ¬ NothingFailed visits :=
  ⟨_, _, Exec.yields_iff.mpr rfl, Exec.yields_iff.mpr rfl,
    fun h => (h _ List.mem_cons_self).2 (by decide)⟩

end Samconf
