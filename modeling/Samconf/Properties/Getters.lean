/-
# Typed getters use found nodes only

The typed getters trust the OK of `samconfConfigGet` to come with a node. It does
for every path that has a segment. A path without one leaves the loop of the
lookup unentered, so that in a tree with children the answer is OK and no node:
three getters then read through NULL, and the fourth hands out NULL as a string.

`samconfConfigGetInt32` writes what the assignment to an `int32_t` stores, which is
the integer of the node when that fits.
-/

import Samconf.Model.Getters
import Samconf.Spec.Json
import Samconf.Spec.Lookup

namespace Samconf

open Foundation
open Exec (Yields Ensures Avoids Faults)

/-- The answer of a lookup names a node of the type. -/
def NamesNode (root : Config) (type : ConfigValueType) (answer : ConfigStatus × Option (List ℕ))
    (node : Config) : Prop :=
  answer.1 = .ok ∧ (∃ p, answer.2 = some p ∧ root.sub? p = some node) ∧ node.label.type = type

/-- A getter, and the function with a default that calls it, only ever use a node
that `samconfConfigGet` found. -/
structure UsesFoundNodes {α : Type} (root : Config) (path : CString) (type : ConfigValueType)
    (read : Value → Run α) (get : Run (ConfigStatus × Option α)) (getOr : α → Run α) :
    Prop where
  /-- Neither reads a node through a NULL pointer. -/
  safe : Avoids .nullConfig get ∧ ∀ defaultValue, Avoids .nullConfig (getOr defaultValue)
  /-- OK means that the path was resolved to a node of the type, and that its value
  was written. -/
  found : ∀ o result o', get o = .ok ((.ok, result), o') →
    ∃ answer node value, samconfConfigGet root (some path) o = .ok (answer, o') ∧
      NamesNode root type answer node ∧ read node.label.value = pure value ∧
      result = some value
  /-- Such a node gives its value for the default. -/
  value : ∀ o answer o' node, samconfConfigGet root (some path) o = .ok (answer, o') →
    NamesNode root type answer node →
    ∀ defaultValue, getOr defaultValue o = read node.label.value o'
  /-- In every other case the default is returned. -/
  default : ∀ o answer o', samconfConfigGet root (some path) o = .ok (answer, o') →
    (∀ node, ¬ NamesNode root type answer node) →
    ∀ defaultValue, getOr defaultValue o = .ok (defaultValue, o')

/-- Reading the union gives a value, or it is the wrong member. -/
def Reads {α : Type} (read : Value → Run α) : Prop :=
  ∀ value, (∃ a, read value = pure a) ∨ read value = Exec.fault .wrongMember

theorem reads_readBoolean : Reads readBoolean := by
  intro value
  cases value <;> simp [readBoolean]

theorem reads_readInt32 : Reads readInt32 := by
  intro value
  cases value <;> simp [readInt32, readInteger]

theorem reads_readReal : Reads readReal := by
  intro value
  cases value <;> simp [readReal]

theorem reads_readString : Reads readString := by
  intro value
  cases value <;> simp [readString]

/-- The integer of a node survives the `int32_t` exactly when it fits. -/
theorem toInt_toInt32_iff (integer : Int64) :
    integer.toInt32.toInt = integer.toInt ↔
      Int32.minValue.toInt ≤ integer.toInt ∧ integer.toInt ≤ Int32.maxValue.toInt := by
  have hmin : Int32.minValue.toInt = -2147483648 := rfl
  have hmax : Int32.maxValue.toInt = 2147483647 := rfl
  rw [Int64.toInt_toInt32, hmin, hmax, Int.bmod_def]
  omega

section Getter

variable {α : Type} {root : Config} {path : CString} {type : ConfigValueType}
  {read : Value → Run α} {o o' : Supply} {answer : ConfigStatus × Option (List ℕ)}

theorem Reads.avoids (hread : Reads read) (value : Value) : Avoids .nullConfig (read value) := by
  rcases hread value with ⟨a, hvalue⟩ | hvalue
  · rw [hvalue]
    exact Exec.avoids_pure _ _
  · rw [hvalue]
    exact Exec.avoids_fault (by simp)

/-- A getter keeps to found nodes when it reads the node that a lookup names and
reports a failure in every other case. -/
theorem usesFoundNodes_of {get : Run (ConfigStatus × Option α)} {getOr : α → Run α}
    (hread : Reads read) (hnode : (samconfConfigGet root (some path)).Ensures (NodeIfOk root))
    (hsafe : Avoids .nullConfig get ∧ ∀ defaultValue, Avoids .nullConfig (getOr defaultValue))
    (hfaults : ∀ o e, samconfConfigGet root (some path) o = .error e → get o = .error e)
    (hnamed : ∀ o answer o' node, samconfConfigGet root (some path) o = .ok (answer, o') →
      NamesNode root type answer node →
      get o = (read node.label.value >>= fun value => pure (.ok, some value)) o' ∧
        ∀ defaultValue, getOr defaultValue o = read node.label.value o')
    (hother : ∀ o answer o', samconfConfigGet root (some path) o = .ok (answer, o') →
      NodeIfOk root answer → (∀ node, ¬ NamesNode root type answer node) →
      (∃ status result, status ≠ .ok ∧ get o = .ok ((status, result), o')) ∧
        ∀ defaultValue, getOr defaultValue o = .ok (defaultValue, o')) :
    UsesFoundNodes root path type read get getOr where
  safe := hsafe
  found o result o' hget := by
    cases hlookup : samconfConfigGet root (some path) o with
    | error e =>
        rw [hfaults o e hlookup] at hget
        cases hget
    | ok r =>
        rcases r with ⟨answer, o₁⟩
        have hok := Exec.ensures_iff.mp hnode o answer o₁ hlookup
        by_cases hnames : ∃ node, NamesNode root type answer node
        · rcases hnames with ⟨node, hnames⟩
          rw [(hnamed o answer o₁ node hlookup hnames).1] at hget
          rcases hread node.label.value with ⟨value, hvalue⟩ | hvalue
          · rw [hvalue] at hget
            cases hget
            exact ⟨answer, node, value, rfl, hnames, hvalue, rfl⟩
          · rw [hvalue] at hget
            cases hget
        · rcases (hother o answer o₁ hlookup hok (not_exists.mp hnames)).1 with
            ⟨status, result', hstatus, hget'⟩
          rw [hget'] at hget
          cases hget
          exact absurd rfl hstatus
  value o answer o' node hlookup hnames := (hnamed o answer o' node hlookup hnames).2
  default o answer o' hlookup hother' :=
    (hother o answer o' hlookup (Exec.ensures_iff.mp hnode o answer o' hlookup) hother').2

/-! ## Values without storage of their own -/

theorem getValue_of_names (hlookup : samconfConfigGet root (some path) o = .ok (answer, o'))
    {node : Config} (hnames : NamesNode root type answer node) :
    getValue type read (some root) (some path) o =
      (read node.label.value >>= fun value => pure (.ok, some value)) o' := by
  rcases hnames with ⟨hok, ⟨p, hp, hsub⟩, htype⟩
  simp only [getValue]
  rw [Exec.bind_of_ok hlookup]
  simp [hok, hp, hsub, htype]

theorem getValue_of_other (hlookup : samconfConfigGet root (some path) o = .ok (answer, o'))
    (hnode : NodeIfOk root answer) (hother : ∀ node, ¬ NamesNode root type answer node) :
    ∃ status result, status ≠ .ok ∧
      getValue type read (some root) (some path) o = .ok ((status, result), o') := by
  simp only [getValue]
  rw [Exec.bind_of_ok hlookup]
  by_cases hok : answer.1 = .ok
  · rcases hnode hok with ⟨p, node, hp, hsub⟩
    have htype : node.label.type ≠ type := fun htype =>
      hother node ⟨hok, ⟨p, hp, hsub⟩, htype⟩
    exact ⟨.invalidType, none, by simp, by simp [hok, hp, hsub, htype]⟩
  · exact ⟨answer.1, none, hok, by simp [hok]⟩

theorem getValue_avoids (hread : Reads read)
    (hnode : (samconfConfigGet root (some path)).Ensures (NodeIfOk root)) :
    Avoids .nullConfig (getValue type read (some root) (some path)) := by
  refine (samconfConfigGet_avoids (by simp) (by simp) (some path)).bind_of hnode ?_
  intro answer hanswer
  by_cases hok : answer.1 = .ok
  · rcases hanswer hok with ⟨p, node, hp, hsub⟩
    simp only [hok, hp, Option.bind_some, hsub, deref_some, Exec.pure_bind, ne_eq,
      not_true_eq_false, if_false]
    split
    · exact (hread.avoids node.label.value).bind fun value => Exec.avoids_pure _ _
    · exact Exec.avoids_pure _ _
  · simp only [hok, ne_eq, not_false_eq_true, if_true]
    exact Exec.avoids_pure _ _

theorem getValueOr_avoids {get : Run (ConfigStatus × Option α)} (hget : Avoids .nullConfig get)
    (defaultValue : α) : Avoids .nullConfig (getValueOr get defaultValue) := by
  refine hget.bind fun r => ?_
  simp only
  split
  · exact Exec.avoids_pure _ _
  · exact deref_avoids (by simp) r.2

/-- The getters with the common body use found nodes exactly when the path has a
segment or the root has no children. -/
theorem getValue_usesFoundNodes_iff (hread : Reads read) (hreadable : root.Readable) :
    UsesFoundNodes root path type read (getValue type read (some root) (some path))
        (getValueOr (getValue type read (some root) (some path))) ↔
      pathSegments path ≠ [] ∨ root.children = [] := by
  constructor
  · intro huses
    by_contra hnone
    obtain ⟨hpath, hchildren⟩ := not_or.mp hnone
    have hlookup :=
      samconfConfigGet_yields_of_segmentless hreadable hchildren (not_not.mp hpath)
    have hfaults : Faults (getValue type read (some root) (some path)) .nullConfig :=
      hlookup.bind_faults (Exec.faults_fault _)
    exact hfaults.not_avoids huses.safe.1
  · intro h
    have hnode := samconfConfigGet_ensures_node hreadable h
    have hsafe : Avoids .nullConfig (getValue type read (some root) (some path)) :=
      getValue_avoids hread hnode
    refine usesFoundNodes_of hread hnode ⟨hsafe, fun d => getValueOr_avoids hsafe d⟩ ?_ ?_ ?_
    · intro o e hfault
      exact Exec.bind_of_error hfault
    · intro o answer o' node hlookup hnames
      have hget := @getValue_of_names _ _ _ _ read _ _ _ hlookup _ hnames
      refine ⟨hget, fun d => ?_⟩
      rw [getValueOr, Exec.bind_apply, hget]
      rcases hread node.label.value with ⟨value, hvalue⟩ | hvalue <;> rw [hvalue] <;> rfl
    · intro o answer o' hlookup hok hother
      rcases @getValue_of_other _ _ _ _ read _ _ _ hlookup hok hother with
        ⟨status, result, hstatus, hget⟩
      refine ⟨⟨status, result, hstatus, hget⟩, fun d => ?_⟩
      rw [getValueOr, Exec.bind_of_ok hget]
      simp [hstatus]

end Getter

/-! ## Strings -/

section String

variable {root : Config} {path : CString} {o o' : Supply}
  {answer : ConfigStatus × Option (List ℕ)}

theorem samconfConfigGetString_of_names
    (hlookup : samconfConfigGet root (some path) o = .ok (answer, o')) {node : Config}
    (hnames : NamesNode root .string answer node) :
    samconfConfigGetString (some root) (some path) o =
      (readString node.label.value >>= fun value => pure (.ok, some value)) o' := by
  rcases hnames with ⟨hok, ⟨p, hp, hsub⟩, htype⟩
  simp only [samconfConfigGetString]
  rw [Exec.bind_of_ok hlookup]
  simp [hok, hp, hsub, htype]

theorem samconfConfigGetString_of_other
    (hlookup : samconfConfigGet root (some path) o = .ok (answer, o'))
    (hnode : NodeIfOk root answer) (hother : ∀ node, ¬ NamesNode root .string answer node) :
    ∃ status result, status ≠ .ok ∧
      samconfConfigGetString (some root) (some path) o = .ok ((status, result), o') := by
  simp only [samconfConfigGetString]
  rw [Exec.bind_of_ok hlookup]
  by_cases hok : answer.1 = .ok
  · rcases hnode hok with ⟨p, node, hp, hsub⟩
    have htype : node.label.type ≠ .string := fun htype =>
      hother node ⟨hok, ⟨p, hp, hsub⟩, htype⟩
    exact ⟨.invalidType, some none, by simp, by simp [hok, hp, hsub, htype]⟩
  · cases hp : answer.2 with
    | none => exact ⟨answer.1, some none, hok, by simp⟩
    | some p => exact ⟨answer.1, some none, hok, by simp [hok]⟩

theorem samconfConfigGetString_avoids
    (hnode : (samconfConfigGet root (some path)).Ensures (NodeIfOk root)) :
    Avoids .nullConfig (samconfConfigGetString (some root) (some path)) := by
  refine (samconfConfigGet_avoids (by simp) (by simp) (some path)).bind_of hnode ?_
  intro answer hanswer
  by_cases hok : answer.1 = .ok
  · rcases hanswer hok with ⟨p, node, hp, hsub⟩
    simp only [hok, hp, hsub, deref_some, Exec.pure_bind, ne_eq, not_true_eq_false, if_false]
    split
    · exact (reads_readString.avoids node.label.value).bind fun value => Exec.avoids_pure _ _
    · exact Exec.avoids_pure _ _
  · cases hp : answer.2 with
    | none =>
        simp only [hp]
        exact Exec.avoids_pure _ _
    | some p =>
        simp only [hp, hok, ne_eq, not_false_eq_true, if_true]
        exact Exec.avoids_pure _ _

/-- The getter of strings uses found nodes exactly when the path has a segment or
the root has no children. -/
theorem samconfConfigGetString_usesFoundNodes_iff (hreadable : root.Readable) :
    UsesFoundNodes root path .string readString (samconfConfigGetString (some root) (some path))
        (samconfConfigGetStringOr (some root) (some path)) ↔
      pathSegments path ≠ [] ∨ root.children = [] := by
  constructor
  · intro huses
    by_contra hnone
    obtain ⟨hpath, hchildren⟩ := not_or.mp hnone
    have hlookup := Exec.yields_iff.mp
      (samconfConfigGet_yields_of_segmentless hreadable hchildren (not_not.mp hpath))
    have hget : samconfConfigGetString (some root) (some path) plenty =
        .ok ((.ok, some none), plenty) := by
      simp only [samconfConfigGetString]
      rw [Exec.bind_of_ok hlookup]
      rfl
    rcases huses.found _ _ _ hget with ⟨answer, node, value, hanswer, hnames, -, -⟩
    rw [hlookup] at hanswer
    cases hanswer
    rcases hnames.2.1 with ⟨p, hp, -⟩
    cases hp
  · intro h
    have hnode := samconfConfigGet_ensures_node hreadable h
    have hsafe := samconfConfigGetString_avoids hnode
    refine usesFoundNodes_of reads_readString hnode ⟨hsafe, fun d => ?_⟩ ?_ ?_ ?_
    · refine hsafe.bind fun r => ?_
      simp only
      split
      · exact Exec.avoids_pure _ _
      · exact Exec.avoids_pure _ _
    · intro o e hfault
      exact Exec.bind_of_error hfault
    · intro o answer o' node hlookup hnames
      have hget := samconfConfigGetString_of_names hlookup hnames
      refine ⟨hget, fun d => ?_⟩
      rw [samconfConfigGetStringOr, Exec.bind_apply, hget]
      rcases reads_readString node.label.value with ⟨value, hvalue⟩ | hvalue <;> rw [hvalue] <;>
        rfl
    · intro o answer o' hlookup hok hother
      rcases samconfConfigGetString_of_other hlookup hok hother with
        ⟨status, result, hstatus, hget⟩
      refine ⟨⟨status, result, hstatus, hget⟩, fun d => ?_⟩
      rw [samconfConfigGetStringOr, Exec.bind_of_ok hget]
      simp [hstatus]

end String

/-! ## The eight functions -/

section Getters

variable {root : Config} {path : CString}

/-- What `samconfConfigGetInt32` writes is the integer of the node exactly when that
fits an `int32_t`. -/
theorem toInt_of_found {o o' : Supply} {n : Int32} {integer : Int64}
    {answer : ConfigStatus × Option (List ℕ)} {node : Config}
    (hget : samconfConfigGetInt32 (some root) (some path) o = .ok ((.ok, some n), o'))
    (hlookup : samconfConfigGet root (some path) o = .ok (answer, o'))
    (hnames : NamesNode root .int answer node) (hvalue : node.label.value = .integer integer) :
    n.toInt = integer.toInt ↔
      Int32.minValue.toInt ≤ integer.toInt ∧ integer.toInt ≤ Int32.maxValue.toInt := by
  rw [samconfConfigGetInt32, getValue_of_names hlookup hnames, hvalue] at hget
  cases hget
  exact toInt_toInt32_iff integer

/-- **Typed getters only use a node that was found** exactly when the path has a
segment or the root has no children. The integer that `samconfConfigGetInt32` finds
comes through whole exactly when it fits the result. -/
theorem typedGetters_useFoundNodes_iff (hreadable : root.Readable) :
    (UsesFoundNodes root path .boolean readBoolean
        (samconfConfigGetBool (some root) (some path))
        (samconfConfigGetBoolOr (some root) (some path)) ↔
      pathSegments path ≠ [] ∨ root.children = []) ∧
    (UsesFoundNodes root path .int readInt32
        (samconfConfigGetInt32 (some root) (some path))
        (samconfConfigGetInt32Or (some root) (some path)) ↔
      pathSegments path ≠ [] ∨ root.children = []) ∧
    (UsesFoundNodes root path .real readReal
        (samconfConfigGetReal (some root) (some path))
        (samconfConfigGetRealOr (some root) (some path)) ↔
      pathSegments path ≠ [] ∨ root.children = []) ∧
    (UsesFoundNodes root path .string readString
        (samconfConfigGetString (some root) (some path))
        (samconfConfigGetStringOr (some root) (some path)) ↔
      pathSegments path ≠ [] ∨ root.children = []) ∧
    ∀ o n o' answer node integer,
      samconfConfigGetInt32 (some root) (some path) o = .ok ((.ok, some n), o') →
      samconfConfigGet root (some path) o = .ok (answer, o') →
      NamesNode root .int answer node → node.label.value = .integer integer →
      (n.toInt = integer.toInt ↔
        Int32.minValue.toInt ≤ integer.toInt ∧ integer.toInt ≤ Int32.maxValue.toInt) :=
  ⟨getValue_usesFoundNodes_iff reads_readBoolean hreadable,
    getValue_usesFoundNodes_iff reads_readInt32 hreadable,
    getValue_usesFoundNodes_iff reads_readReal hreadable,
    samconfConfigGetString_usesFoundNodes_iff hreadable,
    fun _ _ _ _ _ _ hget hlookup hnames hvalue => toInt_of_found hget hlookup hnames hvalue⟩

/-- The flag of a loaded tree is read through its path. -/
theorem flag_is_found :
    UsesFoundNodes ((Json.oneOption ['a'] (.boolean true)).loaded false) "root/a".toList
      .boolean readBoolean
      (samconfConfigGetBool (some ((Json.oneOption ['a'] (.boolean true)).loaded false))
        (some "root/a".toList))
      (samconfConfigGetBoolOr (some ((Json.oneOption ['a'] (.boolean true)).loaded false))
        (some "root/a".toList)) :=
  (typedGetters_useFoundNodes_iff (by decide)).1.mpr (.inl (by decide))

/-- The empty path makes three getters read a missing node, and the fourth give
NULL with OK where the caller asked for a default. -/
theorem empty_path_is_ok :
    (samconfConfigGetBool (some ((Json.oneOption ['a'] (.boolean true)).loaded false))
      (some [])).Faults .nullConfig ∧
    (samconfConfigGetInt32 (some ((Json.oneOption ['a'] (.boolean true)).loaded false))
      (some [])).Faults .nullConfig ∧
    (samconfConfigGetReal (some ((Json.oneOption ['a'] (.boolean true)).loaded false))
      (some [])).Faults .nullConfig ∧
    (samconfConfigGetString (some ((Json.oneOption ['a'] (.boolean true)).loaded false))
      (some [])).Yields (.ok, some none) ∧
    (samconfConfigGetStringOr (some ((Json.oneOption ['a'] (.boolean true)).loaded false))
      (some []) (some ['x'])).Yields none := by
  have hlookup : (samconfConfigGet ((Json.oneOption ['a'] (.boolean true)).loaded false)
      (some [])).Yields (.ok, none) :=
    samconfConfigGet_yields_of_segmentless (by decide) (by decide) (by decide)
  have hstring : (samconfConfigGetString
      (some ((Json.oneOption ['a'] (.boolean true)).loaded false)) (some [])).Yields
        (.ok, some none) :=
    hlookup.bind (Exec.yields_pure _)
  exact ⟨hlookup.bind_faults (Exec.faults_fault _), hlookup.bind_faults (Exec.faults_fault _),
    hlookup.bind_faults (Exec.faults_fault _), hstring, hstring.bind (Exec.yields_pure _)⟩

end Getters

end Samconf
