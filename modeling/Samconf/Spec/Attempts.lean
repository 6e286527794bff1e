/-
# What a load attempts

`samconfLoadAndMerge` folds the statuses of what it tries, first over the files of
a directory and then over the locations. Here its run is taken once more with a
record of the attempts in place of the statuses, so that each status becomes a
function of the record. Nothing else of the run changes.
-/

import Samconf.Foundation.Priority
import Samconf.Model.Load

namespace Samconf

open Foundation
open Exec (Yields Ensures)
open RoseTree (relabel)

/-! ## Records -/

/-- A call of `_extendWithSinglePath`, with the answer of `samconfLoad` and its own. -/
structure Attempt where
  configLocation : CString
  loaded : ConfigStatus
  res : ConfigStatus

/-- What `samconfLoadAndMerge` does for a location with a valid type. -/
inductive Visit
  /-- A configuration is merged, with the given status. -/
  | config (res : ConfigStatus)
  /-- The location has no path. -/
  | nowhere
  /-- The path is tried as a file. -/
  | file (attempt : Attempt)
  /-- The path is a directory whose names could not be listed. -/
  | unlisted
  /-- The path is a directory with these files. -/
  | directory (attempts : List Attempt)

namespace Visit

/-- The files that were tried. -/
def attempts : Visit → List Attempt
  | config _ | nowhere | unlisted => []
  | file attempt => [attempt]
  | directory attempts => attempts

/-- The status that the location has. -/
def status : Visit → ConfigStatus
  | config res => res
  | nowhere => .notFound
  | file attempt => attempt.res
  | unlisted => .error
  | directory attempts => (attempts.map Attempt.res).foldl directoryResult .notFound

end Visit

/-! ## Runs with a record -/

/-- `_extendWithSinglePath`. -/
def recordSinglePath (world : World) (configLocation : CString) (enforceSignature : Bool)
    (conf : Config) : Run (Attempt × Config) := do
  let outcome ← samconfLoad world configLocation enforceSignature
  if outcome.status ≠ .ok then pure (⟨configLocation, outcome.status, outcome.status⟩, conf)
  else
    let (res, conf) ← samconfConfigMergeConfig conf outcome.config
    match outcome.config with
    | none => pure (⟨configLocation, outcome.status, res⟩, conf)
    | some addConf =>
        let _ ← Exec.lift (samconfConfigDelete addConf)
        pure (⟨configLocation, outcome.status, res⟩, conf)

/-- The loop of `_extendWithDirectory` over the sorted names. -/
def recordFiles (world : World) (path : CString) (enforceSignature : Bool) :
    List CString → Config → Run (List Attempt × Config)
  | [], conf => pure ([], conf)
  | configFile :: files, conf => do
      let configLocation ← deref .nullString (← Exec.allocFor (path ++ '/' :: configFile))
      let (attempt, conf) ← recordSinglePath world configLocation enforceSignature conf
      let (attempts, conf) ← recordFiles world path enforceSignature files conf
      pure (attempt :: attempts, conf)

/-- `_extendWithDirectory`. -/
def recordDirectory (world : World) (entries : List (CString × Bool))
    (enforceSignature : Bool) (path : CString) (conf : Config) : Run (Visit × Config) := do
  if ← Exec.alloc then
    match ← collectNames entries with
    | none => pure (.unlisted, conf)
    | some names =>
        let (attempts, conf) ← recordFiles world path enforceSignature (sortNames names) conf
        pure (.directory attempts, conf)
  else pure (.unlisted, conf)

/-- `_extendWithLocation`. -/
def recordLocation (world : World) (path : Option CString) (enforceSignature : Bool)
    (conf : Config) : Run (Visit × Config) :=
  match path with
  | none => pure (.nowhere, conf)
  | some path =>
      match world.readDirectory path with
      | some entries => recordDirectory world entries enforceSignature path conf
      | none => do
          let (attempt, conf) ← recordSinglePath world path enforceSignature conf
          pure (.file attempt, conf)

/-- The loop of `samconfLoadAndMerge`. -/
def recordLocations (world : World) :
    List ConfigLocation → Config → Run (List Visit × Config)
  | [], config => pure ([], config)
  | .invalid :: locations, config => recordLocations world locations config
  | .config added :: locations, config => do
      let (res, config) ← samconfConfigMergeConfig config added
      let (visits, config) ← recordLocations world locations config
      pure (.config res :: visits, config)
  | .path path enforceSignature :: locations, config => do
      let (visit, config) ← recordLocation world path enforceSignature config
      let (visits, config) ← recordLocations world locations config
      pure (visit :: visits, config)

/-- `samconfLoadAndMerge`. -/
def recordLoadAndMerge (world : World) (locations : List ConfigLocation)
    (config : Option Config) : Run (List Visit × Option Config) := do
  match config with
  | some config =>
      let (visits, config) ← recordLocations world locations config
      pure (visits, some config)
  | none =>
      let (_, config) ← samconfConfigNew
      match config with
      | none => pure ([], none)
      | some config =>
          let (visits, config) ← recordLocations world locations
            (relabel (fun d => { d with type := .object }) config)
          pure (visits, some config)

/-! ## Statuses of records -/

/-- The status that `samconfLoadAndMerge` has after its visits. -/
def visitsStatus (status : ConfigStatus) (visits : List Visit) : ConfigStatus :=
  (visits.map Visit.status).foldl locationStatus status

/-- What `samconfLoadAndMerge` answers for a record. -/
def answer (record : List Visit × Option Config) : ConfigStatus × Option Config :=
  (if record.2.isNone then .error else visitsStatus .notFound record.1, record.2)

theorem extendWithSinglePath_eq (world : World) (configLocation : CString)
    (enforceSignature : Bool) (conf : Config) :
    extendWithSinglePath world configLocation enforceSignature conf =
      recordSinglePath world configLocation enforceSignature conf >>= fun r =>
        pure (r.1.res, r.2) := by
  rw [extendWithSinglePath, recordSinglePath, Exec.bind_assoc]
  congr 1
  funext outcome
  split
  · rfl
  · rw [Exec.bind_assoc]
    congr 1
    funext merge
    rcases merge with ⟨res, conf⟩
    cases outcome.config with
    | none => rfl
    | some addConf =>
        simp only [Exec.bind_assoc]
        rfl

theorem extendWithFiles_eq (world : World) (path : CString) (enforceSignature : Bool)
    (files : List CString) (result : ConfigStatus) (conf : Config) :
    extendWithFiles world path enforceSignature files result conf =
      recordFiles world path enforceSignature files conf >>= fun r =>
        pure ((r.1.map Attempt.res).foldl directoryResult result, r.2) := by
  induction files generalizing result conf with
  | nil => rfl
  | cons configFile files ih =>
      simp only [extendWithFiles, recordFiles, extendWithSinglePath_eq, Exec.bind_assoc, ih]
      rfl

theorem extendWithDirectory_eq (world : World) (entries : List (CString × Bool))
    (enforceSignature : Bool) (path : CString) (conf : Config) :
    extendWithDirectory world entries enforceSignature path conf =
      recordDirectory world entries enforceSignature path conf >>= fun r =>
        pure (r.1.status, r.2) := by
  rw [extendWithDirectory, recordDirectory, Exec.bind_assoc]
  congr 1
  funext granted
  cases granted with
  | false => rfl
  | true =>
      simp only [if_true, Exec.bind_assoc]
      congr 1
      funext names
      cases names with
      | none => rfl
      | some names =>
          simp only [extendWithFiles_eq, Exec.bind_assoc]
          rfl

theorem extendWithLocation_eq (world : World) (path : Option CString) (enforceSignature : Bool)
    (conf : Config) :
    extendWithLocation world path enforceSignature conf =
      recordLocation world path enforceSignature conf >>= fun r => pure (r.1.status, r.2) := by
  cases path with
  | none => rfl
  | some path =>
      rw [extendWithLocation, recordLocation]
      cases world.readDirectory path with
      | some entries => exact extendWithDirectory_eq world entries enforceSignature path conf
      | none =>
          simp only [extendWithSinglePath_eq, Exec.bind_assoc]
          rfl

theorem mergeLocations_eq (world : World) (locations : List ConfigLocation)
    (status : ConfigStatus) (config : Config) :
    mergeLocations world locations status config =
      recordLocations world locations config >>= fun r =>
        pure (visitsStatus status r.1, r.2) := by
  induction locations generalizing status config with
  | nil => rfl
  | cons location locations ih =>
      cases location with
      | invalid => exact ih status config
      | config added =>
          simp only [mergeLocations, recordLocations, Exec.bind_assoc, ih]
          rfl
      | path path enforceSignature =>
          simp only [mergeLocations, recordLocations, extendWithLocation_eq, Exec.bind_assoc, ih]
          rfl

/-- **Recording changes nothing.** The answer of `samconfLoadAndMerge` is a function of
the record. -/
theorem samconfLoadAndMerge_eq (world : World) (locations : List ConfigLocation)
    (config : Option Config) :
    samconfLoadAndMerge world locations config =
      recordLoadAndMerge world locations config >>= fun r => pure (answer r) := by
  cases config with
  | some config =>
      simp only [samconfLoadAndMerge, recordLoadAndMerge, mergeLocations_eq, Exec.bind_assoc]
      rfl
  | none =>
      simp only [samconfLoadAndMerge, recordLoadAndMerge, samconfConfigNew, Exec.bind_assoc]
      congr 1
      funext granted
      cases granted with
      | false => rfl
      | true =>
          simp only [if_true, Exec.pure_bind, mergeLocations_eq, Exec.bind_assoc]
          rfl

/-! ## The names in a directory -/

/-- The names of the regular files, as far as they are copied. -/
def regularNames (entries : List (CString × Bool)) : List CString :=
  (entries.filter Prod.snd).map fun entry => entry.1.take 255

theorem collectNames_yields (entries : List (CString × Bool)) :
    (collectNames entries).Yields (some (regularNames entries)) := by
  induction entries with
  | nil => exact Exec.yields_pure _
  | cons entry entries ih =>
      rcases entry with ⟨name, isRegular⟩
      cases isRegular with
      | false => exact ih
      | true =>
          rw [collectNames, if_pos rfl]
          apply (Exec.yields_allocFor _).bind
          apply Exec.yields_alloc.bind
          apply ih.bind
          exact Exec.yields_pure _

theorem collectNames_ensures (entries : List (CString × Bool)) :
    (collectNames entries).Ensures fun r => r = none ∨ r = some (regularNames entries) := by
  induction entries with
  | nil => exact Exec.ensures_pure (.inr rfl)
  | cons entry entries ih =>
      rcases entry with ⟨name, isRegular⟩
      cases isRegular with
      | false => exact ih
      | true =>
          rw [collectNames, if_pos rfl]
          apply (Exec.ensures_allocFor _).bind
          rintro copy (rfl | rfl)
          · exact Exec.ensures_pure (.inl rfl)
          · refine (Exec.ensures_true _).bind fun pushed _ => ?_
            cases pushed with
            | false => exact Exec.ensures_pure (.inl rfl)
            | true =>
                apply ih.bind
                rintro names (rfl | rfl)
                · exact Exec.ensures_pure (.inl rfl)
                · exact Exec.ensures_pure (.inr rfl)

/-! ## The two chains of priorities -/

/-- The order in which `_extendWithDirectory` prefers the results of files. -/
def directoryRank : ConfigStatus → ℕ
  | .invalidSignature => 4
  | .ok => 3
  | .overwriteNotAllowed => 2
  | .signatureNotFound => 1
  | _ => 0

/-- The order in which `samconfLoadAndMerge` prefers the results of locations. -/
def locationRank : ConfigStatus → ℕ
  | .invalidSignature => 3
  | .error => 2
  | .ok => 1
  | _ => 0

theorem directoryResult_eq : directoryResult = higher directoryRank := by
  funext result res
  cases result <;> cases res <;> rfl

/-- From NOT_FOUND on, the outer chain keeps the higher status as well. -/
theorem foldl_locationStatus {status : ConfigStatus} {results : List ConfigStatus}
    (h : status = .notFound ∨ 0 < locationRank status) :
    results.foldl locationStatus status = results.foldl (higher locationRank) status := by
  induction results generalizing status with
  | nil => rfl
  | cons tmpRes results ih =>
      have hstep : locationStatus status tmpRes = higher locationRank status tmpRes := by
        rcases h with rfl | h
        · cases tmpRes <;> rfl
        · cases status <;> cases tmpRes <;> first | rfl | exact absurd h (by decide)
      rw [List.foldl_cons, List.foldl_cons, hstep]
      apply ih
      rcases h with rfl | h
      · cases tmpRes <;> decide
      · exact .inr (h.trans_le (rank_le_higher status tmpRes))

namespace Visit

variable {attempts : List Attempt}

theorem status_directory (attempts : List Attempt) :
    (directory attempts).status =
      (attempts.map Attempt.res).foldl (higher directoryRank) .notFound := by
  rw [status, directoryResult_eq]

/-- A rejected file decides the status of its directory. -/
theorem status_directory_eq_invalidSignature_iff :
    (directory attempts).status = .invalidSignature ↔
      ∃ a ∈ attempts, a.res = .invalidSignature := by
  have hrank : ∀ s, directoryRank s ≤ directoryRank .invalidSignature := by
    intro s
    cases s <;> decide
  rw [status_directory, foldl_higher_eq_iff fun s => by cases s <;> decide]
  simp [hrank]

/-- A directory is OK when some file is and no file is rejected. -/
theorem status_directory_eq_ok_iff :
    (directory attempts).status = .ok ↔
      (∃ a ∈ attempts, a.res = .ok) ∧ ∀ a ∈ attempts, a.res ≠ .invalidSignature := by
  have hrank : ∀ s, directoryRank s ≤ directoryRank .ok ↔ s ≠ .invalidSignature := by
    intro s
    cases s <;> decide
  rw [status_directory, foldl_higher_eq_iff fun s => by cases s <;> decide]
  simp [hrank]

/-- No file makes its directory an ERROR. -/
theorem status_directory_ne_error : (directory attempts).status ≠ .error := by
  rw [status_directory]
  intro herror
  have hle : ∀ s ∈ attempts.map Attempt.res, directoryRank s ≤ directoryRank .notFound := by
    intro s hs
    have hrank := @rank_le_foldl_higher _ directoryRank .notFound _ s (List.mem_cons_of_mem _ hs)
    rw [herror] at hrank
    exact hrank
  rw [foldl_higher_of_le hle] at herror
  cases herror

end Visit

variable {visits : List Visit}

theorem visitsStatus_eq (visits : List Visit) :
    visitsStatus .notFound visits =
      (visits.map Visit.status).foldl (higher locationRank) .notFound :=
  foldl_locationStatus (.inl rfl)

/-- A rejected location decides the status of the whole. -/
theorem visitsStatus_eq_invalidSignature_iff :
    visitsStatus .notFound visits = .invalidSignature ↔
      ∃ v ∈ visits, v.status = .invalidSignature := by
  have hrank : ∀ s, locationRank s ≤ locationRank .invalidSignature := by
    intro s
    cases s <;> decide
  rw [visitsStatus_eq, foldl_higher_eq_iff fun s => by cases s <;> decide]
  simp [hrank]

/-- The whole is OK when some location is and none is rejected or an ERROR. -/
theorem visitsStatus_eq_ok_iff :
    visitsStatus .notFound visits = .ok ↔
      (∃ v ∈ visits, v.status = .ok) ∧
        ∀ v ∈ visits, v.status ≠ .invalidSignature ∧ v.status ≠ .error := by
  have hrank : ∀ s, locationRank s ≤ locationRank .ok ↔ s ≠ .invalidSignature ∧ s ≠ .error := by
    intro s
    cases s <;> decide
  rw [visitsStatus_eq, foldl_higher_eq_iff fun s => by cases s <;> decide]
  simp [hrank]

end Samconf
