/-
# Soundness of signature checks

A location is accepted when its bytes were read and the public-key check took
them with the signature read from the file beside it. `samconfVerifySignature` says
OK only for accepted locations, with one exception: it reuses its status
variable, so a location that has a readable signature file but no bytes of its
own passes with the OK of the search for the signature. An `env://` location is
of this kind.

The results hold for every supply; they say exactly when the exception is out of
reach.
-/

import Samconf.Model.Load

namespace Samconf

open Foundation
open Exec (Yields Ensures Avoids)

/-- The bytes of the location were read, and the check took them with the
signature read from the file beside it. -/
def Accepted (world : World) (location : CString) : Prop :=
  ∃ data signature o o', world.files.readFile location = some data ∧
    world.files.readFile (signatureFile location) = some signature ∧
    samconfCryptoUtilsVerify world.regexec world.crypto data signature o = .ok (.ok, o')

/-- Whatever is let through as signed was accepted: the check alone, a load that
enforces the signature, and the flag given to a backend. -/
def SignatureSound (world : World) (location : CString) : Prop :=
  (∀ o o', samconfVerifySignature world.files world.regexec world.crypto location o =
    .ok (.ok, o') → Accepted world location) ∧
  (∀ o o' outcome, samconfLoad world location true o = .ok (outcome, o') →
    outcome.status = .ok → Accepted world location) ∧
  (∀ o o' outcome enforceSignature backend,
    samconfLoad world location enforceSignature o = .ok (outcome, o') →
    (backend, true) ∈ outcome.loads → Accepted world location)

/-- The signature file can be read, and the location cannot. -/
def SignatureWithoutData (world : World) (location : CString) : Prop :=
  world.files.readable (signatureFile location) = true ∧
    world.files.readFile (signatureFile location) ≠ none ∧
    world.files.readFile location = none

variable {world : World} {location : CString}

/-- A signature that is found was read from a readable file. -/
theorem samconfSignatureLoaderGetSignatureFor_ensures (files : FileSystem) (file : CString) :
    (samconfSignatureLoaderGetSignatureFor files file).Ensures fun r => r.1 = .ok →
      files.readable (signatureFile file) = true ∧
        ∃ signature, files.readFile (signatureFile file) = some signature ∧
          r = (.ok, some signature) := by
  rw [samconfSignatureLoaderGetSignatureFor]
  apply (Exec.ensures_true Exec.alloc).bind
  intro granted _
  cases granted with
  | false => exact Exec.ensures_pure fun h => by cases h
  | true =>
      cases hreadable : files.readable (signatureFile file) with
      | false => simpa [hreadable] using Exec.ensures_pure (by simp)
      | true =>
          cases hread : files.readFile (signatureFile file) with
          | none => simpa [hreadable, hread] using Exec.ensures_pure (by simp)
          | some signature => simpa [hreadable, hread] using Exec.ensures_pure (by simp)

/-- Unless a signature stands without data, OK means that the location was
accepted. -/
theorem samconfVerifySignature_ensures (h : ¬ SignatureWithoutData world location) :
    (samconfVerifySignature world.files world.regexec world.crypto location).Ensures
      fun status => status = .ok → Accepted world location := by
  rw [samconfVerifySignature]
  apply (samconfSignatureLoaderGetSignatureFor_ensures world.files location).bind
  rintro ⟨status, signature⟩ hfound
  by_cases hstatus : status = .ok
  · rcases hfound hstatus with ⟨hreadable, text, htext, hsame⟩
    cases hsame
    cases hdata : world.files.readFile location with
    | none =>
        refine absurd ⟨hreadable, ?_, hdata⟩ h
        simp [htext]
    | some data =>
        simp only [if_true, Option.getD_some]
        apply Exec.ensures_iff.mpr
        rintro o checked o' hrun rfl
        exact ⟨data, text, o, o', hdata, htext, hrun⟩
  · simp only [hstatus, if_false]
    exact Exec.ensures_pure fun h => absurd h hstatus

/-- A backend that is opened loads once, with the flag handed on. -/
theorem loadWithBackend_ensures (ops : BackendOps) (location : CString) (isSigned : Bool) :
    (loadWithBackend ops location isSigned).Ensures fun outcome =>
      ∀ backend flag, (backend, flag) ∈ outcome.loads → flag = isSigned := by
  have hone (status : ConfigStatus) (config : Option Config) :
      ∀ backend flag, (backend, flag) ∈
        (LoadOutcome.mk status config [(ops.option, isSigned)]).loads → flag = isSigned := by
    intro backend flag hmem
    exact (Prod.mk.inj (List.mem_singleton.mp hmem)).2
  rw [loadWithBackend]
  apply (Exec.ensures_true (ops.openBackend location)).bind
  rintro ⟨status, handle⟩ -
  by_cases hstatus : status = .ok
  · simp only [hstatus, if_true]
    apply (Exec.ensures_true (deref .unset handle)).bind
    intro handle _
    apply (Exec.ensures_true (ops.load handle isSigned)).bind
    rintro ⟨status, newConfig⟩ -
    apply (Exec.ensures_true (ops.close handle)).bind
    intro secStatus _
    cases newConfig with
    | none => exact Exec.ensures_pure (hone _ _)
    | some newConfig =>
        by_cases hfailed : (if secStatus ≠ .ok then secStatus else status) ≠ .ok
        · simp only [if_pos hfailed]
          apply (Exec.ensures_true _).bind
          intro _ _
          exact Exec.ensures_pure (hone _ _)
        · simp only [if_neg hfailed]
          exact Exec.ensures_pure (hone _ _)
  · simp only [hstatus, if_false]
    exact Exec.ensures_pure (by simp)

/-- A load is governed by the check: no backend sees the flag, and a load that
enforces the signature does not succeed, unless the check said OK. -/
theorem samconfLoad_ensures (enforceSignature : Bool) {P : Prop}
    (hverify : (samconfVerifySignature world.files world.regexec world.crypto location).Ensures
      fun status => status = .ok → P) :
    (samconfLoad world location enforceSignature).Ensures fun outcome =>
      (enforceSignature = true → outcome.status = .ok → P) ∧
        ∀ backend, (backend, true) ∈ outcome.loads → P := by
  rw [samconfLoad]
  apply hverify.bind
  intro status hstatus
  by_cases hok : status = .ok
  · have hP := hstatus hok
    exact (Exec.ensures_true _).mono fun _ _ => ⟨fun _ _ => hP, fun _ _ => hP⟩
  · by_cases hload : status = .signatureNotFound ∧ enforceSignature = false
    · obtain ⟨rfl, rfl⟩ := hload
      simp only [reduceCtorEq, decide_false, Bool.false_or, decide_true, Bool.not_false,
        Bool.and_self, if_true]
      apply (Exec.ensures_true (samconfLookupBackend world location)).bind
      rintro ⟨status, backend⟩ -
      cases backend with
      | none => exact Exec.ensures_pure (by simp)
      | some ops =>
          by_cases hfound : status = .ok
          · simp only [hfound, if_true]
            refine (loadWithBackend_ensures ops location false).mono fun outcome hloads => ?_
            exact ⟨by simp, fun backend hmem => by cases hloads backend true hmem⟩
          · simp only [hfound, if_false]
            exact Exec.ensures_pure (by simp)
    · have hrefused : (decide (status = .ok) ||
          decide (status = .signatureNotFound) && !enforceSignature) = false := by
        cases enforceSignature <;> simp_all
      simp only [hrefused, Bool.false_eq_true, if_false]
      exact Exec.ensures_pure ⟨fun _ h => absurd h hok, by simp⟩

/-- A signature without data is let through. -/
theorem samconfVerifySignature_yields (h : SignatureWithoutData world location) :
    (samconfVerifySignature world.files world.regexec world.crypto location).Yields .ok := by
  rcases h with ⟨hreadable, hsignature, hdata⟩
  obtain ⟨signature, hsignature⟩ := Option.ne_none_iff_exists'.mp hsignature
  have hfound : (samconfSignatureLoaderGetSignatureFor world.files location).Yields
      (.ok, some signature) := by
    rw [samconfSignatureLoaderGetSignatureFor]
    apply Exec.yields_alloc.bind
    simpa [hreadable, hsignature] using Exec.yields_pure _
  rw [samconfVerifySignature]
  apply hfound.bind
  simpa [hdata] using Exec.yields_pure _

/-- **Signature soundness** holds exactly where no signature stands without data. -/
theorem signatureSound_iff (world : World) (location : CString) :
    SignatureSound world location ↔ ¬ SignatureWithoutData world location := by
  constructor
  · intro hsound hbad
    have hrun := Exec.yields_iff.mp (samconfVerifySignature_yields hbad)
    rcases hsound.1 _ _ hrun with ⟨data, -, -, -, hdata, -⟩
    rw [hbad.2.2] at hdata
    cases hdata
  · intro h
    have hverify := samconfVerifySignature_ensures h
    refine ⟨?_, ?_, ?_⟩
    · intro o o' hrun
      exact Exec.ensures_iff.mp hverify o .ok o' hrun rfl
    · intro o o' outcome hrun
      exact (Exec.ensures_iff.mp (samconfLoad_ensures true hverify) o outcome o' hrun).1 rfl
    · intro o o' outcome enforceSignature backend hrun
      exact (Exec.ensures_iff.mp (samconfLoad_ensures enforceSignature hverify) o outcome o'
        hrun).2 backend

/-- A world in which the only file is the signature of a location. -/
def World.ofSignature (location : CString) (signature : List Char) : World where
  files :=
    { readable := fun path => path = signatureFile location
      readFile := fun path => if path = signatureFile location then some signature else none }
  crypto :=
    { PublicKey := Unit
      Digest := Unit
      keyPath := none
      readPublicKey := fun _ => none
      decodeBlock := fun _ => none
      digestByName := fun _ => none
      digestVerifyInit := fun _ _ => false
      digestUpdate := fun _ _ _ => false
      digestVerifyFinal := fun _ _ _ _ => false }
  regexec := samconfUriPattern
  strtod := fun s => (⟨0⟩, s)
  environ := []
  fileExists := fun _ => false
  jsonFromFile := fun _ => none
  readDirectory := fun _ => none
  enabled := fun _ => true

/-- A location that the environment backend serves. -/
def environment : CString := "env://?envPrefix=SAMCONF&testVar=Check".toList

/-- The environment passes as signed beside any file with its name and the suffix. -/
theorem environment_passes_as_signed :
    ¬ SignatureSound (World.ofSignature environment ['x']) environment := by
  intro hsound
  have hverified := @samconfVerifySignature_yields
    (World.ofSignature environment ['x']) environment ⟨by decide, by decide, by decide⟩
  rcases hsound.1 _ _ (Exec.yields_iff.mp hverified) with ⟨data, -, -, -, hdata, -⟩
  have hunreadable : (World.ofSignature environment ['x']).files.readFile environment =
      none := by decide
  rw [hunreadable] at hdata
  cases hdata

end Samconf
