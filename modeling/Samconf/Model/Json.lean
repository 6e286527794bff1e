/-
# The JSON backend

`samconfJsonBackendLoad` and `samconfDumpJsonConfig` over the documents that
json-c hands out. Members come in the order of the document; numbers are the
mathematical integers that the document holds; a string carries all of its
characters, of which C sees those before the first NUL.
-/

import Samconf.Model.Node

namespace Samconf

open Foundation
open RoseTree (relabel)

/-- A document of json-c, with `null` for the NULL pointer. -/
inductive Json
  | null
  | boolean (value : Bool)
  | double (value : Double)
  | int (value : ℤ)
  | object (entries : List (CString × Json))
  | array (elements : List Json)
  | string (value : List Char)

namespace Json

/-- Whether the pointer to the value is NULL. -/
def isNull : Json → Bool
  | null => true
  | _ => false

/-- `json_object_object_add`: replace the member with the same key or append one. -/
def objectAdd (entries : List (CString × Json)) (key : CString) (value : Json) :
    List (CString × Json) :=
  if entries.any fun e => e.1 = key then entries.map fun e => if e.1 = key then (key, value) else e
  else entries ++ [(key, value)]

end Json

/-- `json_object_get_int` of an integer: the nearest value of type `int32_t`. -/
def jsonGetInt (n : ℤ) : Int64 :=
  if n < Int32.minValue.toInt then Int64.ofInt Int32.minValue.toInt
  else if Int32.maxValue.toInt < n then Int64.ofInt Int32.maxValue.toInt
  else Int64.ofInt n

/-- The decimal spelling of an array index. -/
def indexKey (idx : ℕ) : CString := Nat.toDigits 10 idx

/-! ## Loading -/

/-- Give up on a child that was not linked: release it and report `result`. -/
def dropChild (child : Config) (result : ConfigStatus) (config : Config) :
    Run (ConfigStatus × Config) := do
  let _ ← Exec.lift (samconfConfigDelete child)
  pure (result, config)

mutual

/-- `_transform_json_to_config`. -/
def transformJsonToConfig (isSigned : Bool) : Json → Config → Run (ConfigStatus × Config)
  | .object entries, config =>
      transformEntries isSigned entries
        (relabel (fun d => { d with isSigned := isSigned, type := .object }) config)
  | .array elements, config =>
      transformElements isSigned 0 elements
        (relabel (fun d => { d with isSigned := isSigned, type := .array }) config)
  | .string value, config =>
      samconfConfigSetString (relabel (fun d => { d with isSigned := isSigned }) config)
        (some (cutAtNul value))
  | .int value, config =>
      samconfConfigSetInt (relabel (fun d => { d with isSigned := isSigned }) config)
        (jsonGetInt value)
  | .boolean value, config =>
      samconfConfigSetBool (relabel (fun d => { d with isSigned := isSigned }) config) value
  | .double value, config =>
      samconfConfigSetReal (relabel (fun d => { d with isSigned := isSigned }) config) value
  | .null, config => pure (.ok, relabel (fun d => { d with isSigned := isSigned }) config)

/-- The loop over the members of an object. The copy of the key is not checked. -/
def transformEntries (isSigned : Bool) :
    List (CString × Json) → Config → Run (ConfigStatus × Config)
  | [], config => pure (.ok, config)
  | (key, newJobj) :: entries, config =>
      if newJobj.isNull then pure (.parseError, config)
      else do
        let (result, subconfig) ← samconfConfigNew
        match subconfig with
        | none => pure (result, config)
        | some subconfig =>
            let key ← strdup key
            let (result, subconfig) ← transformJsonToConfig isSigned newJobj
              (relabel (fun d => { d with key := key }) subconfig)
            if result ≠ .ok then dropChild subconfig result config
            else
              let (result, config) ← samconfConfigAdd config subconfig
              if result ≠ .ok then dropChild subconfig result config
              else transformEntries isSigned entries config

/-- The loop over the elements of an array from index `idx` on. An element gets
its key when it is already linked, and `snprintf` writes through the unchecked
pointer. -/
def transformElements (isSigned : Bool) :
    ℕ → List Json → Config → Run (ConfigStatus × Config)
  | _, [], config => pure (.ok, config)
  | idx, newJobj :: elements, config =>
      if newJobj.isNull then pure (.parseError, config)
      else do
        let (result, subconfig) ← samconfConfigNew
        match subconfig with
        | none => pure (result, config)
        | some subconfig =>
            let (result, subconfig) ← transformJsonToConfig isSigned newJobj subconfig
            if result ≠ .ok then dropChild subconfig result config
            else
              let position := config.children.length
              let (result, config) ← samconfConfigAdd config subconfig
              if result ≠ .ok then dropChild subconfig result config
              else
                let key ← deref .nullString (← Exec.allocFor (indexKey idx))
                transformElements isSigned (idx + 1) elements
                  (config.modify (relabel fun d => { d with key := some key }) [position])

end

/-- `samconfJsonBackendLoad` for the document at `backend->backendHandle`. -/
def samconfJsonBackendLoad (backendHandle : Json) (isSigned : Bool) :
    Run (ConfigStatus × Option Config) := do
  let (result, config) ← samconfConfigNew
  match config with
  | none => pure (result, none)
  | some config =>
      let key ← strdup "config".toList
      let (result, config) ← transformJsonToConfig isSigned backendHandle
        (relabel (fun d => { d with type := .object, key := key }) config)
      pure (result, some config)

/-! ## Dumping -/

mutual

/-- `samconfDumpJsonConfig` of a node. -/
def samconfDumpJsonConfig : Config → Run Json
  | .node d children =>
      match d.type with
      | .object => dumpEntries d.childCount children []
      | .array => dumpElements d.childCount children []
      | .boolean => do pure (.boolean (← readBoolean d.value))
      | .int => do pure (.int (← readInteger d.value).toInt32.toInt)
      | .real => do pure (.double (← readReal d.value))
      | .string => do pure (.string (← deref .nullString (← readString d.value)))
      | .none => pure .null

/-- The loop over the children of an OBJECT, with the members added so far. -/
def dumpEntries : ℕ → List Config → List (CString × Json) → Run Json
  | 0, _, entries => pure (.object entries)
  | _ + 1, [], _ => Exec.fault .outOfBounds
  | n + 1, child :: children, entries => do
      let value ← samconfDumpJsonConfig child
      let key ← deref .nullKey child.label.key
      dumpEntries n children (Json.objectAdd entries key value)

/-- The loop over the children of an ARRAY, with the elements added so far. -/
def dumpElements : ℕ → List Config → List Json → Run Json
  | 0, _, elements => pure (.array elements)
  | _ + 1, [], _ => Exec.fault .outOfBounds
  | n + 1, child :: children, elements => do
      let value ← samconfDumpJsonConfig child
      dumpElements n children (elements ++ [value])

end

end Samconf
