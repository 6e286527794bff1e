/-
# Loading configurations

The backends behind their function pointers, `samconfLoad`, and the assembly of a
configuration from locations by `samconfLoadAndMerge`. Everything outside the
program is a `World`. A load carries a ghost list: the calls to a backend's
`load`, each with the flag it was given.
-/

import Samconf.Model.Env
import Samconf.Model.Json
import Samconf.Model.Merge
import Samconf.Model.Signature
import Mathlib.Data.List.Sort

namespace Samconf

open Foundation
open RoseTree (relabel)

/-- `samconfBackendOptions_t`. -/
inductive BackendOption
  | json
  | env
  | dummy
  deriving DecidableEq, Repr

/-- What a backend keeps at `backendHandle`. -/
inductive BackendHandle
  | document (root : Json)
  | uri (uri : Uri)

/-- What the program asks of its surroundings. -/
structure World where
  files : FileSystem
  crypto : Crypto
  regexec : Regexec
  strtod : CString → Double × CString
  environ : List CString
  /-- `stat` did not report `ENOENT`. -/
  fileExists : CString → Bool
  /-- `json_object_from_file`, `none` for NULL. -/
  jsonFromFile : CString → Option Json
  /-- The entries that `readdir` gives, in its order, with `d_type == DT_REG`;
  `none` when `opendir` fails. -/
  readDirectory : CString → Option (List (CString × Bool))
  /-- The backends compiled in. -/
  enabled : BackendOption → Bool

/-! ## Backends -/

/-- `samconfConfigBackendOps_t`. `supports` gives its status and, where it writes
it, the flag. -/
structure BackendOps where
  option : BackendOption
  supports : CString → Run (ConfigStatus × Option Bool)
  openBackend : CString → Run (ConfigStatus × Option BackendHandle)
  load : BackendHandle → Bool → Run (ConfigStatus × Option Config)
  close : BackendHandle → Run ConfigStatus

/-- What follows the last occurrence of a character. -/
def afterLast (c : Char) (s : CString) : Option CString :=
  if c ∈ s then (s.splitOn c).getLast? else none

/-- `samconfJsonBackendSupports`. -/
def samconfJsonBackendSupports (location : CString) : ConfigStatus × Option Bool :=
  match afterLast '.' location with
  | none => (.error, none)
  | some ext => if sameIgnoringCase ext "json".toList then (.ok, some true) else (.error, none)

/-- `samconfJsonBackendOpen`. -/
def samconfJsonBackendOpen (world : World) (location : CString) :
    ConfigStatus × Option BackendHandle :=
  if !world.fileExists location then (.notFound, none)
  else
    match world.jsonFromFile location with
    | none => (.error, none)
    | some root => (.ok, some (.document root))

/-- `samconfEnvBackendSupports`. -/
def samconfEnvBackendSupports (location : CString) : Run (ConfigStatus × Option Bool) := do
  match ← strdup (location.take 3) with
  | none => pure (.error, none)
  | some protocol =>
      if sameIgnoringCase protocol "env".toList then pure (.ok, some true)
      else pure (.error, none)

/-- `samconfEnvBackendOpen`. -/
def samconfEnvBackendOpen (world : World) (location : CString) :
    Run (ConfigStatus × Option BackendHandle) := do
  let (result, uri) ← samconfUriNew world.regexec location
  match uri with
  | none => pure (result, none)
  | some uri =>
      let scheme ← deref .nullString uri.scheme
      if sameIgnoringCase scheme "env".toList then pure (result, some (.uri uri))
      else pure (.error, none)

/-- `samconfJsonOps`. -/
def samconfJsonOps (world : World) : BackendOps where
  option := .json
  supports location := pure (samconfJsonBackendSupports location)
  openBackend location := pure (samconfJsonBackendOpen world location)
  load handle isSigned :=
    match handle with
    | .document root => samconfJsonBackendLoad root isSigned
    | .uri _ => Exec.fault .wrongMember
  close _ := pure .ok

/-- `samconfEnvOps`. -/
def samconfEnvOps (world : World) : BackendOps where
  option := .env
  supports := samconfEnvBackendSupports
  openBackend := samconfEnvBackendOpen world
  load handle isSigned :=
    match handle with
    | .uri uri => samconfEnvBackendLoad world.strtod world.environ uri isSigned
    | .document _ => Exec.fault .wrongMember
  close _ := pure .ok

/-- `samconfDummyOps`. -/
def samconfDummyOps : BackendOps where
  option := .dummy
  supports _ := pure (.notImplemented, none)
  openBackend _ := pure (.notImplemented, none)
  load _ _ := pure (.notImplemented, none)
  close _ := pure .notImplemented

/-- `samconfGetBackendOps`. -/
def samconfGetBackendOps (world : World) : BackendOption → BackendOps
  | .json => if world.enabled .json then samconfJsonOps world else samconfDummyOps
  | .env => if world.enabled .env then samconfEnvOps world else samconfDummyOps
  | .dummy => samconfDummyOps

/-- The loop of `samconfLookupBackend` over the indexes left, with `isSupported` as the
calls before left it. -/
def lookupBackend (world : World) (location : CString) :
    List BackendOption → Bool → Run (ConfigStatus × Option BackendOps)
  | [], _ => pure (.error, none)
  | idx :: rest, isSupported => do
      let ops := samconfGetBackendOps world idx
      let (status, written) ← ops.supports location
      let isSupported := written.getD isSupported
      if status = .ok && isSupported then
        if ← Exec.alloc then pure (.ok, some ops) else pure (.error, none)
      else lookupBackend world location rest isSupported

/-- `samconfLookupBackend`. -/
def samconfLookupBackend (world : World) (location : CString) :
    Run (ConfigStatus × Option BackendOps) :=
  lookupBackend world location [.json, .env, .dummy] false

/-! ## Loading one location -/

/-- What a load leaves: the status, `*config` where it was written, and the calls
to a backend's `load`. -/
structure LoadOutcome where
  status : ConfigStatus
  config : Option Config
  loads : List (BackendOption × Bool)

/-- The part of `samconfLoad` between opening the backend and deleting it. -/
def loadWithBackend (ops : BackendOps) (location : CString) (isSigned : Bool) :
    Run LoadOutcome := do
  let (status, handle) ← ops.openBackend location
  if status = .ok then
    let handle ← deref .unset handle
    let (status, newConfig) ← ops.load handle isSigned
    let loads := [(ops.option, isSigned)]
    let secStatus ← ops.close handle
    let status := if secStatus ≠ .ok then secStatus else status
    match newConfig with
    | none => pure ⟨status, none, loads⟩
    | some newConfig =>
        if status ≠ .ok then
          let _ ← Exec.lift (samconfConfigDelete newConfig)
          pure ⟨status, none, loads⟩
        else pure ⟨status, some newConfig, loads⟩
  else pure ⟨status, none, []⟩

/-- `samconfLoad`. -/
def samconfLoad (world : World) (location : CString) (enforceSignature : Bool) :
    Run LoadOutcome := do
  let status ← samconfVerifySignature world.files world.regexec world.crypto location
  let isSigned := decide (status = .ok)
  if isSigned || (decide (status = .signatureNotFound) && !enforceSignature) then
    let (status, backend) ← samconfLookupBackend world location
    match backend with
    | none => pure ⟨.notFound, none, []⟩
    | some ops =>
        if status = .ok then loadWithBackend ops location isSigned
        else pure ⟨.notFound, none, []⟩
  else pure ⟨status, none, []⟩

/-! ## Loading many locations -/

/-- `_extendWithSinglePath`. -/
def extendWithSinglePath (world : World) (configLocation : CString) (enforceSignature : Bool)
    (conf : Config) : Run (ConfigStatus × Config) := do
  let outcome ← samconfLoad world configLocation enforceSignature
  if outcome.status ≠ .ok then pure (outcome.status, conf)
  else
    let (res, conf) ← samconfConfigMergeConfig conf outcome.config
    match outcome.config with
    | none => pure (res, conf)
    | some addConf =>
        let _ ← Exec.lift (samconfConfigDelete addConf)
        pure (res, conf)

/-- The loop of `_extendWithDirectory` that collects the names of regular files,
`none` when a copy or the vector's storage cannot be allocated. -/
def collectNames : List (CString × Bool) → Run (Option (List CString))
  | [] => pure (some [])
  | (name, isRegular) :: entries =>
      if isRegular then do
        match ← strdup (name.take 255) with
        | none => pure none
        | some entry =>
            if ← Exec.alloc then
              match ← collectNames entries with
              | none => pure none
              | some names => pure (some (entry :: names))
            else pure none
      else collectNames entries

/-- `strncmp`, up to the size of its result: the comparison of at most `n` characters,
of which the terminator is the smallest. -/
def strncmp : CString → CString → ℕ → ℤ
  | _, _, 0 => 0
  | [], [], _ + 1 => 0
  | [], _ :: _, _ + 1 => -1
  | _ :: _, [], _ + 1 => 1
  | a :: s, b :: t, n + 1 => if a = b then strncmp s t n else if a < b then -1 else 1

/-- `_cmp`. -/
def cmp (left right : CString) : ℤ := -strncmp right left 256

/-- `qsort` with `_cmp`. -/
def sortNames (names : List CString) : List CString :=
  names.insertionSort fun left right => cmp left right ≤ 0

/-- The result of `_extendWithDirectory` after one more file. -/
def directoryResult (result res : ConfigStatus) : ConfigStatus :=
  if res = .invalidSignature then .invalidSignature
  else if res = .ok ∧ result ≠ .invalidSignature then .ok
  else if res = .overwriteNotAllowed ∧ result ≠ .ok ∧ result ≠ .invalidSignature then
    .overwriteNotAllowed
  else if res = .signatureNotFound ∧ result ≠ .overwriteNotAllowed ∧ result ≠ .ok ∧
      result ≠ .invalidSignature then .signatureNotFound
  else result

/-- The loop of `_extendWithDirectory` over the sorted names. The location's buffer is
written without a check. -/
def extendWithFiles (world : World) (path : CString) (enforceSignature : Bool) :
    List CString → ConfigStatus → Config → Run (ConfigStatus × Config)
  | [], result, conf => pure (result, conf)
  | configFile :: files, result, conf => do
      let configLocation ← deref .nullString (← Exec.allocFor (path ++ '/' :: configFile))
      let (res, conf) ← extendWithSinglePath world configLocation enforceSignature conf
      extendWithFiles world path enforceSignature files (directoryResult result res) conf

/-- `_extendWithDirectory`. -/
def extendWithDirectory (world : World) (entries : List (CString × Bool))
    (enforceSignature : Bool) (path : CString) (conf : Config) :
    Run (ConfigStatus × Config) := do
  if ← Exec.alloc then
    match ← collectNames entries with
    | none => pure (.error, conf)
    | some names =>
        extendWithFiles world path enforceSignature (sortNames names) .notFound conf
  else pure (.error, conf)

/-- `samconfConfigLocation_t`. -/
inductive ConfigLocation
  | path (path : Option CString) (enforceSignature : Bool)
  | config (config : Option Config)
  /-- Any other value of `type`. -/
  | invalid

/-- `_extendWithLocation`. -/
def extendWithLocation (world : World) (path : Option CString) (enforceSignature : Bool)
    (conf : Config) : Run (ConfigStatus × Config) :=
  match path with
  | none => pure (.notFound, conf)
  | some path =>
      match world.readDirectory path with
      | some entries => extendWithDirectory world entries enforceSignature path conf
      | none => extendWithSinglePath world path enforceSignature conf

/-- The status of `samconfLoadAndMerge` after one more location. -/
def locationStatus (status tmpRes : ConfigStatus) : ConfigStatus :=
  if tmpRes = .invalidSignature ∨ (tmpRes = .error ∧ status ≠ .invalidSignature) then tmpRes
  else if status = .notFound ∧ tmpRes = .ok then .ok
  else status

/-- The loop of `samconfLoadAndMerge`. -/
def mergeLocations (world : World) :
    List ConfigLocation → ConfigStatus → Config → Run (ConfigStatus × Config)
  | [], status, config => pure (status, config)
  | .invalid :: locations, status, config => mergeLocations world locations status config
  | .config added :: locations, status, config => do
      let (tmpRes, config) ← samconfConfigMergeConfig config added
      mergeLocations world locations (locationStatus status tmpRes) config
  | .path path enforceSignature :: locations, status, config => do
      let (tmpRes, config) ← extendWithLocation world path enforceSignature config
      mergeLocations world locations (locationStatus status tmpRes) config

/-- `samconfLoadAndMerge` for an array of locations and the pointer value `*config`. -/
def samconfLoadAndMerge (world : World) (locations : List ConfigLocation)
    (config : Option Config) : Run (ConfigStatus × Option Config) := do
  match config with
  | some config =>
      let (status, config) ← mergeLocations world locations .notFound config
      pure (status, some config)
  | none =>
      let (status, config) ← samconfConfigNew
      match config with
      | none => pure (status, none)
      | some config =>
          let (status, config) ← mergeLocations world locations .notFound
            (relabel (fun d => { d with type := .object }) config)
          pure (status, some config)

end Samconf
