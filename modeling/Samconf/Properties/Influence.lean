/-
# What can influence the result

The files that a load visits need not be under the control of whoever configured it.
Which of them matter is a question about two worlds: files may be altered, added to a
directory or taken out of it, and so may the signature files beside them. As long as
that happens to files whose signature is not accepted, where it is enforced or behind
a configuration that is signed, the tree is the same one.

The results are about the tree. The status tells of files that were refused, and a
file that is refused still costs memory.
-/

import Samconf.Properties.DirectoryOrder

namespace Samconf

open Foundation
open Exec (Yields)

/-! ## Sources -/

/-- One thing that `samconfLoadAndMerge` tries to merge. -/
inductive MergeSource
  | config (config : Option Config)
  | file (path : CString) (enforceSignature : Bool)

/-- What a location consists of, in the order in which it is merged. -/
def ConfigLocation.sources (world : World) : ConfigLocation → List MergeSource
  | .invalid => []
  | .config added => [.config added]
  | .path none _ => []
  | .path (some location) enforceSignature =>
      match world.readDirectory location with
      | none => [.file location enforceSignature]
      | some entries => (sortNames (regularNames entries)).map fun name =>
          .file (location ++ '/' :: name) enforceSignature

/-- The configuration that a source comes to when no allocation fails. -/
def MergeSource.configIn (world : World) : MergeSource → Option Config
  | .config added => added
  | .file path enforceSignature => loadedConfig world enforceSignature path

/-- The tree after one more source. -/
def Config.addSource (world : World) (config : Config) (source : MergeSource) : Config :=
  (source.configIn world).elim config config.stepByPath

/-! ## Loads -/

section Load

variable {world : World} {location : CString} {enforceSignature isSigned : Bool}
  {outcome : LoadOutcome} {config : Config}

/-- The trees that a backend loads have the flag that they are loaded with. -/
def BackendOps.Flags (ops : BackendOps) : Prop :=
  ∀ handle isSigned config, (ops.load handle isSigned).Yields (.ok, some config) →
    config.label.isSigned = isSigned

theorem samconfJsonOps_flags (world : World) : (samconfJsonOps world).Flags := by
  intro handle isSigned config h
  cases handle with
  | document root =>
      obtain ⟨-, rfl⟩ := samconfJsonBackendLoad_yields_iff.mp h
      rw [Json.loaded, Json.label_tree, Json.isSigned_label]
  | uri uri => exact absurd h (Exec.faults_fault _).not_yields

theorem isSigned_foldl_addVariable (strtod : CString → Double × CString) (config : Config)
    (entries : List CString) :
    (entries.foldl (Config.addVariable strtod) config).label.isSigned =
      config.label.isSigned := by
  induction entries generalizing config with
  | nil => rfl
  | cons entry entries ih =>
      rw [List.foldl_cons, ih, Config.addVariable, Config.isSigned_grow]

theorem samconfEnvOps_flags (world : World) : (samconfEnvOps world).Flags := by
  intro handle isSigned config h
  cases handle with
  | document root => exact absurd h (Exec.faults_fault _).not_yields
  | uri uri =>
      obtain ⟨filter, hfilter⟩ := exists_filter h
      obtain ⟨-, rfl⟩ := (samconfEnvBackendLoad_yields_iff hfilter).mp h
      exact isSigned_foldl_addVariable world.strtod (envRoot isSigned) _

theorem samconfGetBackendOps_flags (world : World) (idx : BackendOption) :
    (samconfGetBackendOps world idx).Flags := by
  have hdummy : samconfDummyOps.Flags := by
    intro handle isSigned config h
    cases h.unique (Exec.yields_pure _)
  cases idx with
  | json =>
      rw [samconfGetBackendOps]
      split
      · exact samconfJsonOps_flags world
      · exact hdummy
  | env =>
      rw [samconfGetBackendOps]
      split
      · exact samconfEnvOps_flags world
      · exact hdummy
  | dummy => exact hdummy

/-- A configuration is handed out by a backend's load alone, and with OK. -/
theorem loadWithBackend_config {ops : BackendOps} (h : ops.Settled)
    (hload : (loadWithBackend ops location isSigned).Yields outcome)
    (hconfig : outcome.config = some config) :
    outcome.status = .ok ∧ ∃ handle, (ops.load handle isSigned).Yields (.ok, some config) := by
  rw [loadWithBackend, (h.openBackend location).yields_bind_iff] at hload
  obtain ⟨⟨status, handle⟩, -, hload⟩ := hload
  by_cases hopened : status = .ok
  · simp only [hopened, if_true] at hload
    rw [(deref_settles _ _).yields_bind_iff] at hload
    obtain ⟨handle, -, hload⟩ := hload
    rw [(h.load handle isSigned).yields_bind_iff] at hload
    obtain ⟨⟨status, newConfig⟩, hloaded, hload⟩ := hload
    rw [(h.close handle).yields_bind_iff] at hload
    obtain ⟨secStatus, -, hload⟩ := hload
    cases newConfig with
    | none =>
        obtain rfl := hload.unique (Exec.yields_pure _)
        cases hconfig
    | some newConfig =>
        by_cases hfailed : (if secStatus ≠ .ok then secStatus else status) ≠ .ok
        · simp only [if_pos hfailed] at hload
          rw [(Exec.settles_lift _).yields_bind_iff] at hload
          obtain ⟨_, -, hload⟩ := hload
          obtain rfl := hload.unique (Exec.yields_pure _)
          cases hconfig
        · simp only [if_neg hfailed] at hload
          obtain rfl := hload.unique (Exec.yields_pure _)
          rw [not_not] at hfailed
          have hok : status = .ok := by
            by_cases hclosed : secStatus = .ok
            · simpa [hclosed] using hfailed
            · simp [hclosed] at hfailed
          cases hconfig
          exact ⟨hfailed, handle, hok ▸ hloaded⟩
  · simp only [hopened, if_false] at hload
    obtain rfl := hload.unique (Exec.yields_pure _)
    cases hconfig

/-- The signature of a location passes, for a load that enforces it or not. -/
def Admits (world : World) (location : CString) (enforceSignature isSigned : Bool) : Prop :=
  (samconfVerifySignature world.files world.regexec world.crypto location).Yields
      (if isSigned then .ok else .signatureNotFound) ∧
    (enforceSignature = true → isSigned = true)

/-- **A load hands out a configuration** with OK, behind a signature that passes, and
with the flag that says so. -/
theorem samconfLoad_config (hload : (samconfLoad world location enforceSignature).Yields outcome)
    (hconfig : outcome.config = some config) :
    outcome.status = .ok ∧ Admits world location enforceSignature config.label.isSigned := by
  rw [samconfLoad, (samconfVerifySignature_settles _ _ _ _).yields_bind_iff] at hload
  obtain ⟨status, hverify, hload⟩ := hload
  simp only at hload
  split at hload
  · rename_i hadmitted
    rw [samconfLookupBackend, (lookupBackend_settles world location _ _).yields_bind_iff] at hload
    obtain ⟨⟨found, backend⟩, hfound, hload⟩ := hload
    cases backend with
    | none =>
        obtain rfl := hload.unique (Exec.yields_pure _)
        cases hconfig
    | some ops =>
        simp only at hload
        split at hload
        · obtain ⟨hok, handle, hbackend⟩ :=
            loadWithBackend_config (settled_of_lookup hfound) hload hconfig
          obtain ⟨idx, rfl⟩ := Exec.ensures_iff.mp (lookupBackend_ensures world location _ _) _ _ _
            (Exec.yields_iff.mp hfound) ops rfl
          have hflag := samconfGetBackendOps_flags world idx _ _ _ hbackend
          refine ⟨hok, ?_⟩
          rw [Admits, hflag]
          by_cases hstatus : status = .ok
          · subst hstatus
            exact ⟨hverify, fun _ => rfl⟩
          · simp only [hstatus, decide_false, Bool.false_or, Bool.and_eq_true,
              decide_eq_true_eq, Bool.not_eq_true'] at hadmitted
            obtain ⟨rfl, rfl⟩ := hadmitted
            exact ⟨hverify, fun h => by cases h⟩
        · obtain rfl := hload.unique (Exec.yields_pure _)
          cases hconfig
  · obtain rfl := hload.unique (Exec.yields_pure _)
    cases hconfig

/-- A file comes to a configuration behind a signature that passes. -/
theorem admits_of_loadedConfig (h : loadedConfig world enforceSignature location = some config) :
    Admits world location enforceSignature config.label.isSigned := by
  rw [loadedConfig] at h
  rcases samconfLoad_settles world location enforceSignature with ⟨e, he⟩ | ⟨outcome, hload⟩
  · rw [Exec.faults_iff.mp he] at h
    cases h
  · rw [Exec.yields_iff.mp hload] at h
    exact (samconfLoad_config hload h).2

end Load

/-! ## Runs over sources -/

section Run

variable {world : World} {conf result : Config} {status : ConfigStatus}

/-- A tree on which merges are known to work. -/
def Config.Ready (config : Config) : Prop := config.Sound ∧ config.Tagged

/-- A configuration that can be copied is merged, or the merge faults. -/
theorem Config.Ready.merge_cases (h : conf.Ready) {c : Config} (hc : c.Copyable) :
    (∃ e, (samconfConfigMergeConfig conf (some c)).Faults e) ∨
      (samconfConfigMergeConfig conf (some c)).Yields (mergeStatus conf c, conf.stepByPath c) ∧
        (conf.stepByPath c).Ready := by
  rcases samconfConfigMergeConfig_cases h.1 h.2 hc with hfaults | ⟨hmerge, hplaceable⟩
  · exact .inl hfaults
  · refine .inr ⟨hmerge, ?_⟩
    cases hrule : followsMergeRule conf c with
    | false => simpa [Config.stepByPath, hrule] using h
    | true => exact ⟨h.1.stepByPath (hplaceable hrule), h.2.stepByPath (hplaceable hrule)⟩

theorem samconfConfigMergeConfig_none_yields (conf : Config) :
    (samconfConfigMergeConfig conf none).Yields (.error, conf) :=
  Exec.yields_pure _

/-- **One file** is loaded and added. -/
theorem extendWithSinglePath_yields {path : CString} {enforceSignature : Bool} (h : conf.Ready)
    (hrun : (extendWithSinglePath world path enforceSignature conf).Yields (status, result)) :
    result.Ready ∧ result = conf.addSource world (.file path enforceSignature) := by
  rw [extendWithSinglePath, (samconfLoad_settles _ _ _).yields_bind_iff] at hrun
  obtain ⟨outcome, hload, hrun⟩ := hrun
  have hloaded : loadedConfig world enforceSignature path = outcome.config := by
    rw [loadedConfig, Exec.yields_iff.mp hload]
  rw [Config.addSource, MergeSource.configIn, hloaded]
  cases hconfig : outcome.config with
  | none =>
      have hkept : result = conf := by
        split at hrun
        · cases hrun.unique (Exec.yields_pure _)
          rfl
        · rw [hconfig, (samconfConfigMergeConfig_none_yields conf).bind_iff] at hrun
          cases hrun.unique (Exec.yields_pure _)
          rfl
      exact ⟨hkept ▸ h, hkept⟩
  | some c =>
      have hc := samconfLoad_copyable hload c hconfig
      have hok := (samconfLoad_config hload hconfig).1
      simp only [hok, ne_eq, not_true_eq_false, if_false, hconfig] at hrun
      rcases h.merge_cases hc with ⟨e, hfaults⟩ | ⟨hmerge, hready⟩
      · exact absurd hrun (hfaults.bind _).not_yields
      · rw [hmerge.bind_iff] at hrun
        simp only [samconfConfigDelete_eq hc.counted hc.tagged, Exec.lift_ok_bind] at hrun
        cases hrun.unique (Exec.yields_pure _)
        exact ⟨hready, rfl⟩

/-- **A directory's files** are added one after the other. -/
theorem extendWithFiles_adds {path : CString} {enforceSignature : Bool} {files : List CString}
    {before : ConfigStatus} (h : conf.Ready)
    (hrun : (extendWithFiles world path enforceSignature files before conf).Yields
      (status, result)) :
    result.Ready ∧ result = (files.map fun name =>
      .file (path ++ '/' :: name) enforceSignature).foldl (Config.addSource world) conf := by
  induction files generalizing conf before with
  | nil =>
      cases hrun.unique (Exec.yields_pure _)
      exact ⟨h, rfl⟩
  | cons name files ih =>
      have hone : (extendWithSinglePath world (path ++ '/' :: name) enforceSignature
          conf).Settles := by
        rw [extendWithSinglePath_eq]
        exact (recordSinglePath_settles _ h.1 h.2).bind fun _ _ => Exec.settles_pure _
      rw [extendWithFiles, (Exec.yields_allocFor _).bind_iff, deref_some, Exec.pure_bind,
        hone.yields_bind_iff] at hrun
      obtain ⟨⟨res, conf'⟩, hfile, hrun⟩ := hrun
      obtain ⟨hready, rfl⟩ := extendWithSinglePath_yields h hfile
      exact ih hready hrun

/-- **One location.** -/
theorem extendWithLocation_adds {path : Option CString} {enforceSignature : Bool}
    (h : conf.Ready)
    (hrun : (extendWithLocation world path enforceSignature conf).Yields (status, result)) :
    result.Ready ∧ result =
      ((ConfigLocation.path path enforceSignature).sources world).foldl
        (Config.addSource world) conf := by
  cases path with
  | none =>
      cases hrun.unique (Exec.yields_pure _)
      exact ⟨h, rfl⟩
  | some path =>
      rw [extendWithLocation] at hrun
      rw [ConfigLocation.sources]
      cases hdirectory : world.readDirectory path with
      | none =>
          simp only [hdirectory] at hrun
          exact extendWithSinglePath_yields h hrun
      | some entries =>
          simp only [hdirectory] at hrun
          rw [extendWithDirectory, Exec.yields_alloc.bind_iff, if_pos rfl,
            (collectNames_yields entries).bind_iff] at hrun
          exact extendWithFiles_adds h hrun

theorem extendWithLocation_settles (path : Option CString) (enforceSignature : Bool)
    (h : conf.Ready) : (extendWithLocation world path enforceSignature conf).Settles := by
  cases path with
  | none => exact Exec.settles_pure _
  | some path =>
      rw [extendWithLocation]
      cases world.readDirectory path with
      | none =>
          simp only [extendWithSinglePath_eq]
          exact (recordSinglePath_settles _ h.1 h.2).bind fun _ _ => Exec.settles_pure _
      | some entries =>
          apply Exec.yields_alloc.bind_settles
          apply (collectNames_yields entries).bind_settles
          simp only [extendWithFiles_eq]
          exact (recordFiles_settles _ _ h.1 h.2).bind fun _ _ => Exec.settles_pure _

/-- **All locations** add their sources one after the other. -/
theorem mergeLocations_adds {locations : List ConfigLocation} {before : ConfigStatus}
    (h : conf.Ready) (hadded : ∀ c, .config (some c) ∈ locations → c.Copyable)
    (hrun : (mergeLocations world locations before conf).Yields (status, result)) :
    result = (locations.flatMap fun l => l.sources world).foldl (Config.addSource world) conf := by
  induction locations generalizing conf before with
  | nil =>
      cases hrun.unique (Exec.yields_pure _)
      rfl
  | cons location locations ih =>
      have hlater : ∀ c, .config (some c) ∈ locations → c.Copyable :=
        fun c hc => hadded c (List.mem_cons_of_mem _ hc)
      rw [List.flatMap_cons, List.foldl_append]
      cases location with
      | invalid => exact ih h hlater hrun
      | config added =>
          rw [mergeLocations] at hrun
          cases added with
          | none =>
              rw [(samconfConfigMergeConfig_none_yields conf).bind_iff] at hrun
              exact ih h hlater hrun
          | some c =>
              rcases h.merge_cases (hadded c List.mem_cons_self) with
                ⟨e, hfaults⟩ | ⟨hmerge, hready⟩
              · exact absurd hrun (hfaults.bind _).not_yields
              · rw [hmerge.bind_iff] at hrun
                exact ih hready hlater hrun
      | path path enforceSignature =>
          rw [mergeLocations,
            (extendWithLocation_settles path enforceSignature h).yields_bind_iff] at hrun
          obtain ⟨⟨tmpRes, conf'⟩, hlocation, hrun⟩ := hrun
          obtain ⟨hready, rfl⟩ := extendWithLocation_adds h hlocation
          exact ih hready hlater hrun

end Run

/-! ## Two worlds -/

/-- What two worlds have in common when they differ in files and directories only. -/
structure World.SameMachine (world world' : World) : Prop where
  crypto : world.crypto = world'.crypto
  regexec : world.regexec = world'.regexec
  strtod : world.strtod = world'.strtod
  environ : world.environ = world'.environ
  enabled : world.enabled = world'.enabled

/-- A file and its signature file are the same in both worlds. -/
structure World.SameFile (world world' : World) (path : CString) : Prop where
  readable : world.files.readable (signatureFile path) =
    world'.files.readable (signatureFile path)
  signature : world.files.readFile (signatureFile path) =
    world'.files.readFile (signatureFile path)
  bytes : world.files.readFile path = world'.files.readFile path
  present : world.fileExists path = world'.fileExists path
  document : world.jsonFromFile path = world'.jsonFromFile path

section Worlds

variable {world world' : World} {path : CString}

/-- What a backend is asked for when a location is loaded. -/
structure BackendOps.SameAt (ops ops' : BackendOps) (location : CString) : Prop where
  option : ops.option = ops'.option
  supports : ops.supports location = ops'.supports location
  openBackend : ops.openBackend location = ops'.openBackend location
  load : ops.load = ops'.load
  close : ops.close = ops'.close

theorem samconfGetBackendOps_sameAt (hmachine : world.SameMachine world')
    (hfile : world.SameFile world' path) (idx : BackendOption) :
    (samconfGetBackendOps world idx).SameAt (samconfGetBackendOps world' idx) path := by
  have hdummy : samconfDummyOps.SameAt samconfDummyOps path := ⟨rfl, rfl, rfl, rfl, rfl⟩
  cases idx with
  | json =>
      rw [samconfGetBackendOps, samconfGetBackendOps, hmachine.enabled]
      split
      · refine ⟨rfl, rfl, ?_, rfl, rfl⟩
        simp only [samconfJsonOps, samconfJsonBackendOpen, hfile.present, hfile.document]
      · exact hdummy
  | env =>
      rw [samconfGetBackendOps, samconfGetBackendOps, hmachine.enabled]
      split
      · refine ⟨rfl, rfl, ?_, ?_, rfl⟩
        · simp only [samconfEnvOps, samconfEnvBackendOpen, hmachine.regexec]
        · simp only [samconfEnvOps, hmachine.strtod, hmachine.environ]
      · exact hdummy
  | dummy => exact hdummy

theorem BackendOps.SameAt.loadWithBackend {ops ops' : BackendOps} (h : ops.SameAt ops' path)
    (isSigned : Bool) :
    loadWithBackend ops path isSigned = Samconf.loadWithBackend ops' path isSigned := by
  simp only [Samconf.loadWithBackend, h.option, h.openBackend, h.load, h.close]

/-- The backend that is found does the same for the location in both worlds. -/
theorem lookupBackend_bind_same {α : Type} (hmachine : world.SameMachine world')
    (hfile : world.SameFile world' path)
    {next : ConfigStatus × Option BackendOps → Run α}
    (hnext : ∀ status (ops ops' : BackendOps), ops.SameAt ops' path →
      next (status, some ops) = next (status, some ops'))
    (indexes : List BackendOption) (isSupported : Bool) :
    lookupBackend world path indexes isSupported >>= next =
      lookupBackend world' path indexes isSupported >>= next := by
  induction indexes generalizing isSupported with
  | nil => rfl
  | cons idx rest ih =>
      have hops := samconfGetBackendOps_sameAt hmachine hfile idx
      rw [lookupBackend, lookupBackend, hops.supports, Exec.bind_assoc, Exec.bind_assoc]
      congr 1
      funext answer
      simp only
      split
      · rw [Exec.bind_assoc, Exec.bind_assoc]
        congr 1
        funext granted
        cases granted with
        | false => rfl
        | true => exact hnext .ok _ _ hops
      · exact ih _

/-- A file that is the same in both worlds is loaded alike. -/
theorem samconfLoad_same (hmachine : world.SameMachine world')
    (hfile : world.SameFile world' path) (enforceSignature : Bool) :
    samconfLoad world path enforceSignature = samconfLoad world' path enforceSignature := by
  have hverify : samconfVerifySignature world.files world.regexec world.crypto path =
      samconfVerifySignature world'.files world'.regexec world'.crypto path := by
    rw [hmachine.crypto, hmachine.regexec]
    simp only [samconfVerifySignature, samconfSignatureLoaderGetSignatureFor, hfile.readable,
      hfile.signature, hfile.bytes]
  rw [samconfLoad, samconfLoad, hverify]
  congr 1
  funext status
  simp only
  split
  · refine lookupBackend_bind_same hmachine hfile (fun found ops ops' hops => ?_) _ _
    simp only [hops.loadWithBackend]
  · rfl

end Worlds

/-! ## Influence -/

/-- A source that changes no tree, or no signed one: its signature does not pass, or it
has none and the tree is signed. -/
def MergeSource.Idle (world : World) (signed : Bool) : MergeSource → Prop
  | .config added => ∀ c ∈ added, signed = true ∧ c.label.isSigned = false
  | .file path enforceSignature => ∀ isSigned, Admits world path enforceSignature isSigned →
      signed = true ∧ isSigned = false

/-- A source that is the same in both worlds. -/
def MergeSource.Same (world world' : World) : MergeSource → Prop
  | .config _ => True
  | .file path _ => world.SameFile world' path

/-- The tree is signed after the source. -/
def MergeSource.Signs (world : World) (source : MergeSource) : Prop :=
  ∃ c, source.configIn world = some c ∧ c.label.isSigned = true

/-- Sources in two worlds that differ in idle ones only. The flag says that the tree is
known to be signed. -/
inductive SameInfluence (world world' : World) :
    Bool → List MergeSource → List MergeSource → Prop
  | nil (signed : Bool) : SameInfluence world world' signed [] []
  | both {signed signed' : Bool} {source : MergeSource} {rest rest' : List MergeSource}
      (hsame : source.Same world world')
      (hsigned : signed' = true → signed = true ∨ source.Signs world)
      (hrest : SameInfluence world world' signed' rest rest') :
      SameInfluence world world' signed (source :: rest) (source :: rest')
  | left {signed : Bool} {source : MergeSource} {rest rest' : List MergeSource}
      (hidle : source.Idle world signed) (hrest : SameInfluence world world' signed rest rest') :
      SameInfluence world world' signed (source :: rest) rest'
  | right {signed : Bool} {source : MergeSource} {rest rest' : List MergeSource}
      (hidle : source.Idle world' signed) (hrest : SameInfluence world world' signed rest rest') :
      SameInfluence world world' signed rest (source :: rest')

section Influence

variable {world world' : World} {signed : Bool} {source : MergeSource} {conf : Config}

theorem Config.addSource_of_idle (hidle : source.Idle world signed)
    (hconf : signed = true → conf.label.isSigned = true) :
    conf.addSource world source = conf := by
  have hrefused {c : Config} (h : signed = true ∧ c.label.isSigned = false) :
      conf.stepByPath c = conf := by
    rw [stepByPath, followsMergeRule_eq_false_iff.mpr ⟨hconf h.1, h.2⟩]
    rfl
  rw [Config.addSource]
  cases hconfig : source.configIn world with
  | none => rfl
  | some c =>
      cases source with
      | config added => exact hrefused (hidle c hconfig)
      | file path enforceSignature =>
          exact hrefused (hidle _ (admits_of_loadedConfig hconfig))

theorem Config.addSource_same (hmachine : world.SameMachine world')
    (hsame : source.Same world world') :
    conf.addSource world source = conf.addSource world' source := by
  cases source with
  | config added => rfl
  | file path enforceSignature =>
      rw [Config.addSource, Config.addSource, MergeSource.configIn, MergeSource.configIn,
        loadedConfig, loadedConfig, samconfLoad_same hmachine hsame]

theorem Config.isSigned_addSource (h : conf.label.isSigned = true ∨ source.Signs world) :
    (conf.addSource world source).label.isSigned = true := by
  rw [Config.addSource]
  rcases h with h | ⟨c, hconfig, hsigned⟩
  · cases source.configIn world with
    | none => exact h
    | some c => simp [isSigned_stepByPath, h]
  · simp [hconfig, isSigned_stepByPath, hsigned]

/-- **Sources that differ in idle ones only** leave the same tree. -/
theorem SameInfluence.foldl_addSource (hmachine : world.SameMachine world')
    {sources sources' : List MergeSource} (h : SameInfluence world world' signed sources sources')
    (hconf : signed = true → conf.label.isSigned = true) :
    sources.foldl (Config.addSource world) conf =
      sources'.foldl (Config.addSource world') conf := by
  induction h generalizing conf with
  | nil => rfl
  | both hsame hsigned _ ih =>
      rw [List.foldl_cons, List.foldl_cons, ← Config.addSource_same hmachine hsame]
      exact ih fun h => Config.isSigned_addSource ((hsigned h).imp_left hconf)
  | left hidle _ ih =>
      rw [List.foldl_cons, Config.addSource_of_idle hidle hconf]
      exact ih hconf
  | right hidle _ ih =>
      rw [List.foldl_cons, Config.addSource_of_idle hidle hconf]
      exact ih hconf

/-- **Files without an accepted signature have no influence.** Take two worlds that
differ in files and directories only, and two lists of locations. Let the sources that
these name be the same but for files whose signature does not pass, where it is
enforced, and for sources without a signature behind one that has signed the tree.
Then, without failing allocations, `samconfLoadAndMerge` leaves the same tree in both
worlds, whatever the other files and directories hold. -/
theorem samconfLoadAndMerge_same_influence (hmachine : world.SameMachine world')
    {locations locations' : List ConfigLocation}
    (hadded : ∀ c, .config (some c) ∈ locations → c.Copyable)
    (hadded' : ∀ c, .config (some c) ∈ locations' → c.Copyable)
    (hsources : SameInfluence world world' false (locations.flatMap fun l => l.sources world)
      (locations'.flatMap fun l => l.sources world'))
    {status status' : ConfigStatus} {tree tree' : Option Config}
    (hrun : (samconfLoadAndMerge world locations none).Yields (status, tree))
    (hrun' : (samconfLoadAndMerge world' locations' none).Yields (status', tree')) :
    tree = tree' := by
  have htree {world : World} {locations : List ConfigLocation} {status : ConfigStatus}
      {tree : Option Config} (hadded : ∀ c, .config (some c) ∈ locations → c.Copyable)
      (hrun : (samconfLoadAndMerge world locations none).Yields (status, tree)) :
      tree = some ((locations.flatMap fun l => l.sources world).foldl
        (Config.addSource world) freshRoot) := by
    rw [samconfLoadAndMerge, samconfConfigNew_yields.bind_iff, Exec.yields_bind_pure_iff] at hrun
    obtain ⟨⟨status', root⟩, hmerged, hsame⟩ := hrun
    cases hsame
    exact congrArg some
      (mergeLocations_adds ⟨intact_freshRoot.toSound, intact_freshRoot.tagged⟩ hadded hmerged)
  rw [htree hadded hrun, htree hadded' hrun',
    hsources.foldl_addSource hmachine (fun h => by cases h)]

/-- What has no signature is idle where one is enforced, or behind a signed source. -/
theorem MergeSource.idle_of_unsigned {path : CString} {enforceSignature : Bool}
    (hverify : (samconfVerifySignature world.files world.regexec world.crypto path).Yields
      .signatureNotFound) (h : enforceSignature = true ∨ signed = true) :
    MergeSource.Idle world signed (.file path enforceSignature) := by
  rintro isSigned ⟨hyields, henforced⟩
  obtain rfl : isSigned = false := by
    cases isSigned with
    | false => rfl
    | true => cases hyields.unique hverify
  rcases h with h | h
  · cases henforced h
  · exact ⟨h, rfl⟩

/-- A directory whose signatures are enforced, a signed option, and the directory again
without enforcement, next to a world in which the directory is not there. -/
theorem directory_without_influence :
    let signedOption := (Json.oneOption ['b'] (.boolean true)).loaded true
    let locations : List ConfigLocation := [.path (some "d".toList) true,
      .config (some signedOption), .path (some "d".toList) false]
    let elsewhere : World := .ofDocuments [] "e".toList []
    ∃ status status' tree, (samconfLoadAndMerge twoFiles locations none).Yields (status, tree) ∧
      (samconfLoadAndMerge elsewhere locations none).Yields (status', tree) := by
  intro signedOption locations elsewhere
  have hadded : ∀ c, .config (some c) ∈ locations → c.Copyable := by
    intro c hc
    obtain rfl : c = signedOption := by simpa [locations] using hc
    exact Json.copyable_loaded _ true
  have hfile (signed enforceSignature : Bool) (name : CString)
      (h : enforceSignature = true ∨ signed = true) :
      MergeSource.Idle twoFiles signed (.file ("d".toList ++ '/' :: name) enforceSignature) :=
    MergeSource.idle_of_unsigned (Exec.yields_iff.mpr rfl) h
  have hmissing (signed enforceSignature : Bool) (h : enforceSignature = true ∨ signed = true) :
      MergeSource.Idle elsewhere signed (.file "d".toList enforceSignature) :=
    MergeSource.idle_of_unsigned (Exec.yields_iff.mpr rfl) h
  have hsources : SameInfluence twoFiles elsewhere false
      (locations.flatMap fun l => l.sources twoFiles)
      (locations.flatMap fun l => l.sources elsewhere) :=
    .left (hfile false true _ (.inl rfl)) <| .left (hfile false true _ (.inl rfl)) <|
      .right (hmissing false true (.inl rfl)) <|
      .both trivial (fun _ => .inr ⟨signedOption, rfl, rfl⟩) <|
      .left (hfile true false _ (.inr rfl)) <| .left (hfile true false _ (.inr rfl)) <|
      .right (hmissing true false (.inr rfl)) <| .nil true
  obtain ⟨⟨status, tree⟩, hrun⟩ : ∃ r, (samconfLoadAndMerge twoFiles locations none).Yields r :=
    ⟨_, Exec.yields_iff.mpr rfl⟩
  obtain ⟨⟨status', tree'⟩, hrun'⟩ :
      ∃ r, (samconfLoadAndMerge elsewhere locations none).Yields r :=
    ⟨_, Exec.yields_iff.mpr rfl⟩
  have hmachine : twoFiles.SameMachine elsewhere := ⟨rfl, rfl, rfl, rfl, rfl⟩
  obtain rfl := samconfLoadAndMerge_same_influence hmachine hadded hadded hsources hrun hrun'
  exact ⟨status, status', tree, hrun, hrun'⟩

end Influence

end Samconf
