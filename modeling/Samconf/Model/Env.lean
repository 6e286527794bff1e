/-
# The environment backend

`samconfEnvBackendLoad` over the strings of `environ`. The name of a variable
becomes a path, its value is typed by `samconfConfigSetValueFromString`.
-/

import Samconf.Model.FromString
import Samconf.Model.Uri

namespace Samconf

open Foundation
open RoseTree (relabel)

/-- The name in an entry of `environ`: the part before the first `=`. -/
def envName (entry : CString) : CString := entry.takeWhile fun c => c ≠ '='

/-- The value in an entry of `environ`, when there is a `=` in front of it. -/
def envValue (entry : CString) : Option CString :=
  match entry.dropWhile fun c => c ≠ '=' with
  | [] => none
  | _ :: value => some value

/-- The path made of a name by `_replaceCharsInString`, which is not called for
names of one character. -/
def envPath (name : CString) : CString :=
  if 1 < name.length then name.map fun c => if c = '_' then '/' else c else name

/-- The loop of `_transform_env_to_config` over `environ`. An entry whose copy fails
is passed over; a name that `newKey` cannot be allocated for ends the loop with
the result so far. -/
def transformEnviron (strtod : CString → Double × CString) (filter : CString) :
    List CString → ConfigStatus → Config → Run (ConfigStatus × Config)
  | [], result, config => pure (result, config)
  | entry :: environ, result, config => do
      match ← strdup entry with
      | none => transformEnviron strtod filter environ result config
      | some envCopy =>
          if filter <:+: envName envCopy then
            if ← Exec.alloc then
              let val ← deref .outOfBounds (envValue envCopy)
              let (result, config) ←
                samconfCreateFromStringAt strtod config (envPath (envName envCopy)) (some val)
              if result = .ok then transformEnviron strtod filter environ result config
              else pure (result, config)
            else pure (result, config)
          else transformEnviron strtod filter environ result config

/-- `_transform_env_to_config`. -/
def transformEnvToConfig (strtod : CString → Double × CString) (environ : List CString)
    (uri : Uri) (isSigned : Bool) (config : Config) : Run (ConfigStatus × Config) := do
  let config := relabel (fun d => { d with isSigned := isSigned }) config
  let (result, filter) ← samconfUriGetParameter uri "envPrefix".toList
  match filter with
  | none => pure (result, config)
  | some filter =>
      if result = .ok then transformEnviron strtod filter environ result config
      else pure (result, config)

/-- `samconfEnvBackendLoad` for the URI at `backend->backendHandle`. -/
def samconfEnvBackendLoad (strtod : CString → Double × CString) (environ : List CString)
    (backendHandle : Uri) (isSigned : Bool) : Run (ConfigStatus × Option Config) := do
  let (result, config) ← samconfConfigNew
  match config with
  | none => pure (result, none)
  | some config =>
      let key ← strdup rootKey
      let config := relabel (fun d => { d with type := .object, key := key }) config
      match key with
      | none => pure (.error, some config)
      | some _ => do
          let (result, config) ←
            transformEnvToConfig strtod environ backendHandle isSigned config
          pure (result, some config)

end Samconf
