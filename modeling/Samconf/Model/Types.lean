/-
# Configuration trees

The data of `samconf_types.h`. A configuration node is a rose-tree node whose
label holds the members of `samconfConfig_t` other than the links. A pointer to
a node of a tree is the node's position in it: `samconfConfigAdd` sets a child's
`parent` to the node whose array it enters, so the parent of position `p ++ [i]`
is `p`, and the parent of the top is NULL. The `children` member is NULL exactly
when the list of children is empty, since an array only comes into being with an
entry to hold. The count is kept separately, because a failing reallocation
loses the array and leaves the count.

A C string is the list of its characters up to the terminating NUL. Pointers
that may be NULL are options. `double` values are carried by their bit pattern,
since no modelled function computes with them.
-/

import Samconf.Foundation.Exec
import Samconf.Foundation.KeyPath

namespace Samconf

open Foundation

/-- The characters of a C string. -/
abbrev CString := List Char

/-- The part of a string that C sees. -/
def cutAtNul (s : List Char) : CString := s.takeWhile fun c => c ≠ '\x00'

/-- `samconfConfigStatusE_t`. -/
inductive ConfigStatus
  | error
  | ok
  | eof
  | notFound
  | invalidType
  | notImplemented
  | parseError
  | invalidSignature
  | signatureNotFound
  | overwriteNotAllowed
  deriving DecidableEq, Repr

/-- `samconfConfigValueTypeE_t`. -/
inductive ConfigValueType
  | none
  | string
  | int
  | real
  | boolean
  | array
  | object
  deriving DecidableEq, Repr

/-- The four types whose nodes hold a value of their own. -/
def ConfigValueType.IsScalar (type : ConfigValueType) : Prop :=
  type = .string ∨ type = .int ∨ type = .real ∨ type = .boolean

instance : DecidablePred ConfigValueType.IsScalar :=
  fun _ => inferInstanceAs (Decidable (_ ∨ _))

/-- The bit pattern of a C `double`. -/
structure Double where
  bits : BitVec 64
  deriving DecidableEq, Repr

/-- The union `value`, by the member written last. `zero` is what `memset`
leaves: the NULL pointer, `0`, `false` or `0.0`, whichever member is read. -/
inductive Value
  | zero
  | string (string : Option CString)
  | integer (integer : Int64)
  | boolean (boolean : Bool)
  | real (real : Double)
  deriving DecidableEq

/-- The members of `samconfConfig_t` except `parent` and `children`. -/
structure NodeData where
  key : Option CString
  isSigned : Bool
  type : ConfigValueType
  value : Value
  childCount : ℕ
  deriving DecidableEq

/-- A node with everything below it. -/
abbrev Config := RoseTree NodeData

/-- The kinds of undefined behaviour that the modelled code can run into. -/
inductive Fault
  /-- Following the parent link of a top node. -/
  | nullParent
  /-- Handing a NULL key to a string function. -/
  | nullKey
  /-- Handing another NULL string to a string function. -/
  | nullString
  /-- Reading a node through a NULL pointer. -/
  | nullConfig
  /-- Accessing an array or a string outside its bounds. -/
  | outOfBounds
  /-- Using a variable that was never written. -/
  | unset
  /-- Reading or freeing the union through another member than the last written. -/
  | wrongMember
  /-- A loop that outlives the bound its model gives it. -/
  | endless
  deriving DecidableEq, Repr

/-- A run of the modelled code. -/
abbrev Run := Exec Fault

/-- Read through a pointer. -/
def deref {α : Type} (fault : Fault) : Option α → Run α
  | some a => pure a
  | none => Exec.fault fault

@[simp]
theorem deref_some {α : Type} (fault : Fault) (a : α) : deref fault (some a) = pure a := rfl

/-- `strdup`. -/
def strdup (s : CString) : Run (Option CString) := Exec.allocFor s

/-- The name of the node that `samconfPathGetPath` climbs to. -/
def rootKey : CString := "root".toList

/-! ## Reading trees by key -/

/-- What an option holds: the members that lookups by path are about. -/
structure Setting where
  isSigned : Bool
  type : ConfigValueType
  value : Value
  deriving DecidableEq

namespace NodeData

/-- The label of a node made by `samconfConfigInit`. -/
def init : NodeData := ⟨none, false, .none, .zero, 0⟩

/-- The label of an intermediate node of `samconfInsertAt`. -/
def blank (key : CString) : NodeData := { init with key := some key, type := .object }

/-- Count one more child. -/
def bump (d : NodeData) : NodeData := { d with childCount := d.childCount + 1 }

/-- The part of a label that an option consists of. -/
def setting (d : NodeData) : Setting := ⟨d.isSigned, d.type, d.value⟩

@[simp]
theorem key_bump (d : NodeData) : d.bump.key = d.key := rfl

@[simp]
theorem setting_bump (d : NodeData) : d.bump.setting = d.setting := rfl

@[simp]
theorem key_blank (key : CString) : (blank key).key = some key := rfl

end NodeData

namespace Config

/-- The setting found under a list of path segments. -/
def setting (config : Config) (segments : List CString) : Option Setting :=
  RoseTree.view NodeData.key NodeData.setting config segments

/-- The position found under a list of path segments. -/
def resolve (config : Config) (segments : List CString) : Option (List ℕ) :=
  RoseTree.resolve NodeData.key config segments

/-- A property of every node's label and of its children's keys. -/
abbrev Everywhere (Q : NodeData → List (Option CString) → Prop) (config : Config) : Prop :=
  RoseTree.Everywhere NodeData.key Q config

end Config

end Samconf
