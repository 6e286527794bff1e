/-
# Typed getters

`samconfConfigGetString`, `samconfConfigGetBool`, `samconfConfigGetInt32` and
`samconfConfigGetReal`, and the functions that fall back on a default. The pointer
`node` of a getter starts as NULL, so it is the position that `samconfConfigGet`
stores, where it stores one.
-/

import Samconf.Model.Lookup

namespace Samconf

open Foundation

/-- The common body of the getters of values without storage of their own: the
status, and `*result` where it was written. -/
def getValue {α : Type} (type : ConfigValueType) (read : Value → Run α) (root : Option Config)
    (path : Option CString) : Run (ConfigStatus × Option α) :=
  match root, path with
  | some root, some path => do
      let (status, node) ← samconfConfigGet root (some path)
      if status ≠ .ok then pure (status, none)
      else
        -- OK is trusted: the node is read without a test for NULL
        let node ← deref .nullConfig (node.bind root.sub?)
        if node.label.type = type then pure (.ok, some (← read node.label.value))
        else pure (.invalidType, none)
  | _, _ => pure (.error, none)

/-- `samconfConfigGetBool`. -/
def samconfConfigGetBool (root : Option Config) (path : Option CString) :
    Run (ConfigStatus × Option Bool) :=
  getValue .boolean readBoolean root path

/-- Read `value.integer` into an `int32_t`. -/
def readInt32 (value : Value) : Run Int32 := do pure (← readInteger value).toInt32

/-- `samconfConfigGetInt32`. -/
def samconfConfigGetInt32 (root : Option Config) (path : Option CString) :
    Run (ConfigStatus × Option Int32) :=
  getValue .int readInt32 root path

/-- `samconfConfigGetReal`. -/
def samconfConfigGetReal (root : Option Config) (path : Option CString) :
    Run (ConfigStatus × Option Double) :=
  getValue .real readReal root path

/-- `samconfConfigGetString`. It writes NULL to `*result` when it has no string to
give. -/
def samconfConfigGetString (root : Option Config) (path : Option CString) :
    Run (ConfigStatus × Option (Option CString)) :=
  match root, path with
  | some root, some path => do
      let (status, node) ← samconfConfigGet root (some path)
      match node with
      | none => pure (status, some none)
      | some node =>
          if status ≠ .ok then pure (status, some none)
          else
            let node ← deref .nullConfig (root.sub? node)
            if node.label.type = .string then
              pure (.ok, some (← readString node.label.value))
            else pure (.invalidType, some none)
  | _, _ => pure (.error, none)

/-! ## Defaults -/

/-- The common body of the functions with a default. Their `result` has no value
before the getter writes one. -/
def getValueOr {α : Type} (get : Run (ConfigStatus × Option α)) (defaultValue : α) : Run α := do
  let (status, result) ← get
  if status ≠ .ok then pure defaultValue else deref .unset result

/-- `samconfConfigGetBoolOr`. -/
def samconfConfigGetBoolOr (root : Option Config) (path : Option CString)
    (defaultValue : Bool) : Run Bool :=
  getValueOr (samconfConfigGetBool root path) defaultValue

/-- `samconfConfigGetInt32Or`. -/
def samconfConfigGetInt32Or (root : Option Config) (path : Option CString)
    (defaultValue : Int32) : Run Int32 :=
  getValueOr (samconfConfigGetInt32 root path) defaultValue

/-- `samconfConfigGetRealOr`. -/
def samconfConfigGetRealOr (root : Option Config) (path : Option CString)
    (defaultValue : Double) : Run Double :=
  getValueOr (samconfConfigGetReal root path) defaultValue

/-- `samconfConfigGetStringOr`, whose `result` starts as NULL. -/
def samconfConfigGetStringOr (root : Option Config) (path : Option CString)
    (defaultValue : Option CString) : Run (Option CString) := do
  let (status, result) ← samconfConfigGetString root path
  if status ≠ .ok then pure defaultValue else pure (result.getD none)

end Samconf
