/-
# Operations on single nodes

Creation, deletion, linking, the value setters and the two copy functions of
`samconf.c`. A function that updates a node through a pointer returns the
updated node. Freed memory is not modelled; freeing is, because releasing the
union's string reads the union through one of its members.
-/

import Samconf.Model.Types

namespace Samconf

open Foundation
open RoseTree (relabel addChild)

/-! ## Creation, deletion and linking -/

/-- `samconfConfigInit`: all members zero. -/
def samconfConfigInit : Config := .node NodeData.init []

/-- `samconfConfigNew`. -/
def samconfConfigNew : Run (ConfigStatus × Option Config) := do
  if ← Exec.alloc then pure (.ok, some samconfConfigInit) else pure (.error, none)

/-- `free(config->value.string)` under the test for the type STRING. -/
def freeString (d : NodeData) : Except Fault Unit :=
  if d.type = .string then
    match d.value with
    | .zero => .ok ()
    | .string _ => .ok ()
    | _ => .error .wrongMember
  else .ok ()

mutual

/-- `samconfConfigDeleteMembers`, and with it `samconfConfigDelete`, whose status
it is. -/
def samconfConfigDelete : Config → Except Fault ConfigStatus
  | .node d children => do
      freeString d
      deleteChildren d.childCount children

/-- The loop over `childCount` entries of the array. -/
def deleteChildren : ℕ → List Config → Except Fault ConfigStatus
  | 0, _ => .ok .ok
  | _ + 1, [] => .error .outOfBounds
  | n + 1, child :: children => do
      let status ← samconfConfigDelete child
      let rest ← deleteChildren n children
      .ok (if status = .error then .error else rest)

end

/-- `samconfConfigAdd`. The reallocated array replaces `parent->children` even
when it is NULL. An array that was lost before comes back with entries nobody
wrote, which is where the model stops. -/
def samconfConfigAdd (parent child : Config) : Run (ConfigStatus × Config) := do
  if ← Exec.alloc then
    if parent.label.childCount = parent.children.length then
      pure (.ok, addChild NodeData.bump child parent)
    else Exec.fault .unset
  else pure (.error, .node parent.label [])

/-! ## Setters -/

/-- The common body of the setters of values without storage of their own. -/
def setValue (type : ConfigValueType) (value : Value) (config : Config) :
    Run (ConfigStatus × Config) := do
  Exec.lift (freeString config.label)
  pure (.ok, relabel (fun d => { d with value := value, type := type }) config)

/-- `samconfConfigSetInt`. -/
def samconfConfigSetInt (config : Config) (intValue : Int64) : Run (ConfigStatus × Config) :=
  setValue .int (.integer intValue) config

/-- `samconfConfigSetBool`. -/
def samconfConfigSetBool (config : Config) (value : Bool) : Run (ConfigStatus × Config) :=
  setValue .boolean (.boolean value) config

/-- `samconfConfigSetReal`. -/
def samconfConfigSetReal (config : Config) (value : Double) : Run (ConfigStatus × Config) :=
  setValue .real (.real value) config

/-- `samconfConfigSetString`. A failing `strdup` leaves the NULL in the union and
the type as it was. -/
def samconfConfigSetString (config : Config) (stringValue : Option CString) :
    Run (ConfigStatus × Config) := do
  match stringValue with
  | none => pure (.error, config)
  | some s =>
      Exec.lift (freeString config.label)
      let copy ← strdup s
      let config := relabel (fun d => { d with value := .string copy }) config
      match copy with
      | none => pure (.error, config)
      | some _ => pure (.ok, relabel (fun d => { d with type := .string }) config)

/-! ## Copying -/

/-- Read `value.string`. -/
def readString : Value → Run (Option CString)
  | .zero => pure none
  | .string s => pure s
  | _ => Exec.fault .wrongMember

/-- Read `value.integer`. -/
def readInteger : Value → Run Int64
  | .zero => pure 0
  | .integer i => pure i
  | _ => Exec.fault .wrongMember

/-- Read `value.boolean`. -/
def readBoolean : Value → Run Bool
  | .zero => pure false
  | .boolean b => pure b
  | _ => Exec.fault .wrongMember

/-- Read `value.real`. -/
def readReal : Value → Run Double
  | .zero => pure ⟨0⟩
  | .real r => pure r
  | _ => Exec.fault .wrongMember

/-- `samconfCopyConfigValue` on nodes that are not NULL. The container types and
NONE copy nothing, not even the type. -/
def samconfCopyConfigValue (source target : Config) : Run (ConfigStatus × Config) :=
  match source.label.type with
  | .int => do samconfConfigSetInt target (← readInteger source.label.value)
  | .boolean => do samconfConfigSetBool target (← readBoolean source.label.value)
  | .real => do samconfConfigSetReal target (← readReal source.label.value)
  | .none | .array | .object => pure (.ok, target)
  | .string => do samconfConfigSetString target (← readString source.label.value)

/-- `samconfConfigCopyConfig`: key, flag and type first, then the value. -/
def samconfConfigCopyConfig (source target : Config) : Run (ConfigStatus × Config) := do
  let key ← strdup (← deref .nullKey source.label.key)
  let target := relabel (fun d => { d with key := key }) target
  match key with
  | none => pure (.error, target)
  | some _ =>
      let target := relabel
        (fun d => { d with isSigned := source.label.isSigned, type := source.label.type }) target
      samconfCopyConfigValue source target

end Samconf
