/-
# The union and its tag

Wherever the code frees `value.string`, it has only looked at the type. The law is that a
node of type STRING holds a string pointer, or the zero of its initialisation. Six of the
seven operations that write a node keep it, since each writes the union before or together
with the type. `samconfConfigCopyConfig` writes the type first, and from a STRING node it
leaves the law broken just where `samconfConfigSetString` frees what the union held.

A source is read by its type. The law says nothing of a source of another type, whose
union may have been written through another member; such a source reads as any value
of the member that its type names.
-/

import Samconf.Foundation.Runs
import Samconf.Spec.Create

namespace Samconf

open Foundation
open Exec (Ensures Avoids Faults)
open RoseTree (relabel)

/-- A node as its type lets it be read. A union that does not fit the type reads as any
value that does. -/
def Config.ReadsAs (config read : Config) : Prop :=
  ∃ value, Value.Fits config.label.type value ∧
    (config.label.value.Fits config.label.type → value = config.label.value) ∧
    read = relabel (fun d => { d with value := value }) config

/-- A lawful node to copy from, and what a copy reads of it. -/
structure Source where
  node : Config
  read : Config
  lawful : node.label.Lawful
  reads : node.ReadsAs read

/-- What is done to a node. -/
inductive NodeOperation
  | setString (stringValue : Option CString)
  | setInt (intValue : Int64)
  | setBool (value : Bool)
  | setReal (value : Double)
  | setValueFromString (value : Option CString)
  | copyConfigValue (source : Source)
  | copyConfig (source : Source)

/-- The operation on a node. -/
def NodeOperation.run (strtod : CString → Double × CString) (config : Config) :
    NodeOperation → Run (ConfigStatus × Config)
  | .setString stringValue => samconfConfigSetString config stringValue
  | .setInt intValue => samconfConfigSetInt config intValue
  | .setBool value => samconfConfigSetBool config value
  | .setReal value => samconfConfigSetReal config value
  | .setValueFromString value => samconfConfigSetValueFromString strtod config value
  | .copyConfigValue source => samconfCopyConfigValue source.read config
  | .copyConfig source => samconfConfigCopyConfig source.read config

/-- The runs over one node, whatever allocations fail. -/
def nodeSystem (strtod : CString → Double × CString) : System Config NodeOperation where
  initial config := config = samconfConfigInit
  step config operation config' :=
    ∃ o status o', operation.run strtod config o = .ok ((status, config'), o')

/-- No STRING node is copied over a node whose union was last written as an integer, a
boolean or a real. -/
def FitsCopy (config : Config) : NodeOperation → Prop
  | .copyConfig source => source.node.label.type = .string → config.label.value.Fits .string
  | _ => True

/-- The operations that pass the guard free no integer, boolean or real of the node, and
neither does its deletion. -/
def FreesStrings (strtod : CString → Double × CString) (guard : Config → NodeOperation → Prop)
    (config : Config) : Prop :=
  (∀ operation, guard config operation →
    Avoids .wrongMember (operation.run strtod config)) ∧
  samconfConfigDelete config ≠ .error .wrongMember

variable {strtod : CString → Double × CString}

/-! ## One operation -/

/-- A lawful node without children. -/
structure Config.Plain (config : Config) : Prop where
  lawful : config.label.Lawful
  childless : config.label.childCount = 0

/-- What every operation does with a plain node: it frees no wrong member and leaves the
node plain. -/
def KeepsPlain (x : Run (ConfigStatus × Config)) : Prop :=
  Avoids .wrongMember x ∧ x.Ensures fun r => r.2.Plain

section Steps

variable {config : Config}

theorem keepsPlain_pure {status : ConfigStatus} (h : config.Plain) :
    KeepsPlain (pure (status, config)) :=
  ⟨Exec.avoids_pure _ _, Exec.ensures_pure h⟩

/-- Copying a string frees nothing. -/
theorem keepsPlain_strdup (s : CString) {f : Option CString → Run (ConfigStatus × Config)}
    (h : ∀ copy, KeepsPlain (f copy)) : KeepsPlain (strdup s >>= f) :=
  ⟨(Exec.avoids_allocFor _ s).bind fun copy => (h copy).1,
    (Exec.ensures_true (strdup s)).bind fun copy _ => (h copy).2⟩

/-- A node of another type is lawful. -/
theorem Config.Plain.relabel_of_ne (h : config.Plain) {f : NodeData → NodeData}
    (htype : (f config.label).type ≠ .string)
    (hcount : (f config.label).childCount = config.label.childCount) :
    Config.Plain (relabel f config) := by
  cases config
  exact ⟨fun hstring => absurd hstring htype, hcount.trans h.childless⟩

/-- A node whose union holds a string is lawful. -/
theorem Config.Plain.relabel_of_fits (h : config.Plain) {f : NodeData → NodeData}
    (hvalue : (f config.label).value.Fits .string)
    (hcount : (f config.label).childCount = config.label.childCount) :
    Config.Plain (relabel f config) := by
  cases config
  exact ⟨fun _ => hvalue, hcount.trans h.childless⟩

theorem setValue_keepsPlain {type : ConfigValueType} (htype : type ≠ .string) (value : Value)
    (h : config.Plain) : KeepsPlain (setValue type value config) := by
  rw [setValue, freeString_of_lawful h.lawful, Exec.lift_ok_bind]
  exact keepsPlain_pure (h.relabel_of_ne htype rfl)

theorem samconfConfigSetString_keepsPlain (stringValue : Option CString) (h : config.Plain) :
    KeepsPlain (samconfConfigSetString config stringValue) := by
  cases stringValue with
  | none => exact keepsPlain_pure h
  | some s =>
      have hwritten (copy : Option CString) :
          Config.Plain (relabel (fun d => { d with value := .string copy }) config) :=
        h.relabel_of_fits trivial rfl
      rw [samconfConfigSetString, freeString_of_lawful h.lawful, Exec.lift_ok_bind]
      refine keepsPlain_strdup s fun copy => ?_
      cases copy with
      | none => exact keepsPlain_pure (hwritten none)
      | some copy =>
          refine keepsPlain_pure ((hwritten (some copy)).relabel_of_fits ?_ rfl)
          cases config
          trivial

theorem samconfConfigSetValueFromString_keepsPlain (value : Option CString) (h : config.Plain) :
    KeepsPlain (samconfConfigSetValueFromString strtod config value) := by
  cases value with
  | none => exact keepsPlain_pure h
  | some value =>
      have hscalar {type : ConfigValueType} (htype : type ≠ .string) (value : Value) :
          KeepsPlain (pure (.ok,
            relabel (fun d => { d with type := type, value := value }) config)) :=
        keepsPlain_pure (h.relabel_of_ne htype rfl)
      simp only [samconfConfigSetValueFromString]
      by_cases htrue : sameIgnoringCase value "true".toList
      · rw [if_pos htrue]
        exact hscalar (by decide) _
      by_cases hfalse : sameIgnoringCase value "false".toList
      · rw [if_neg htrue, if_pos hfalse]
        exact hscalar (by decide) _
      by_cases hint : (strtoll value).2 = []
      · rw [if_neg htrue, if_neg hfalse, if_pos hint]
        exact hscalar (by decide) _
      by_cases hreal : (strtod value).2 = []
      · rw [if_neg htrue, if_neg hfalse, if_neg hint, if_pos hreal]
        exact hscalar (by decide) _
      · rw [if_neg htrue, if_neg hfalse, if_neg hint, if_neg hreal]
        have hstring (copy : Option CString) :
            Config.Plain (relabel (fun d => { d with type := .string, value := .string copy })
              config) :=
          h.relabel_of_fits trivial rfl
        exact ⟨(Exec.avoids_allocFor _ value).bind fun copy => Exec.avoids_pure _ _,
          (Exec.ensures_true (strdup value)).bind fun copy _ => Exec.ensures_pure (hstring copy)⟩

/-- A source is read through the member that its type names. -/
theorem Source.tagged_read (source : Source) : source.read.label.Tagged := by
  rcases source with ⟨⟨d, cs⟩, read, lawful, value, hfits, hsame, rfl⟩
  exact hfits

theorem Source.type_read (source : Source) :
    source.read.label.type = source.node.label.type := by
  rcases source with ⟨⟨d, cs⟩, read, lawful, value, hfits, hsame, rfl⟩
  rfl

theorem samconfCopyConfigValue_keepsPlain {source : Config} (hsource : source.label.Tagged)
    (h : config.Plain) : KeepsPlain (samconfCopyConfigValue source config) := by
  rcases source with ⟨⟨key, isSigned, type, value, childCount⟩, cs⟩
  rw [samconfCopyConfigValue]
  cases type with
  | none => exact keepsPlain_pure h
  | array => exact keepsPlain_pure h
  | object => exact keepsPlain_pure h
  | int =>
      cases value <;> first
        | exact hsource.elim
        | exact setValue_keepsPlain (by decide) _ h
  | boolean =>
      cases value <;> first
        | exact hsource.elim
        | exact setValue_keepsPlain (by decide) _ h
  | real =>
      cases value <;> first
        | exact hsource.elim
        | exact setValue_keepsPlain (by decide) _ h
  | string =>
      cases value with
      | zero => exact samconfConfigSetString_keepsPlain none h
      | string s => exact samconfConfigSetString_keepsPlain s h
      | _ => exact hsource.elim

/-- Key, flag and type first: the law holds before the value is copied where the union
fits the new type. -/
theorem samconfConfigCopyConfig_keepsPlain {source : Config} (hsource : source.label.Tagged)
    (hfits : source.label.type = .string → config.label.value.Fits .string)
    (h : config.Plain) : KeepsPlain (samconfConfigCopyConfig source config) := by
  have hkey (key : Option CString) :
      Config.Plain (relabel (fun d => { d with key := key }) config) := by
    cases config
    exact ⟨h.lawful, h.childless⟩
  have htyped (key : Option CString) : Config.Plain (relabel (fun d =>
      { d with isSigned := source.label.isSigned, type := source.label.type })
      (relabel (fun d => { d with key := key }) config)) := by
    cases config
    exact ⟨hfits, h.childless⟩
  rw [samconfConfigCopyConfig]
  cases source.label.key with
  | none => exact ⟨Exec.avoids_fault (by decide), Exec.ensures_fault _⟩
  | some key =>
      refine keepsPlain_strdup key fun copy => ?_
      cases copy with
      | none => exact keepsPlain_pure (hkey none)
      | some copy => exact samconfCopyConfigValue_keepsPlain hsource (htyped (some copy))

/-- Every operation that passes the guard keeps the law. -/
theorem NodeOperation.run_keepsPlain (h : config.Plain) {operation : NodeOperation}
    (hguard : FitsCopy config operation) : KeepsPlain (operation.run strtod config) := by
  cases operation with
  | setString stringValue => exact samconfConfigSetString_keepsPlain stringValue h
  | setInt intValue => exact setValue_keepsPlain (by decide) _ h
  | setBool value => exact setValue_keepsPlain (by decide) _ h
  | setReal value => exact setValue_keepsPlain (by decide) _ h
  | setValueFromString value => exact samconfConfigSetValueFromString_keepsPlain value h
  | copyConfigValue source => exact samconfCopyConfigValue_keepsPlain source.tagged_read h
  | copyConfig source =>
      refine samconfConfigCopyConfig_keepsPlain source.tagged_read (fun hstring => ?_) h
      exact hguard (source.type_read.symm.trans hstring)

end Steps

/-! ## Runs -/

theorem plain_of_reachable {config : Config}
    (h : (nodeSystem strtod).Reachable FitsCopy config) : config.Plain := by
  refine h.invariant ?_ ?_
  · rintro _ rfl
    exact ⟨fun hstring => (by cases hstring), rfl⟩
  · rintro config operation config' hplain hguard ⟨o, status, o', hrun⟩
    exact Exec.ensures_iff.mp (NodeOperation.run_keepsPlain hplain hguard).2 _ _ _ hrun

/-- **The union agrees with its tag at every free** of every run that copies no STRING node
over an integer, a boolean or a real. -/
theorem freesStrings_of_reachable {config : Config}
    (h : (nodeSystem strtod).Reachable FitsCopy config) :
    FreesStrings strtod FitsCopy config := by
  have hplain := plain_of_reachable h
  refine ⟨fun operation hguard => (NodeOperation.run_keepsPlain hplain hguard).1, ?_⟩
  rcases config with ⟨d, cs⟩
  have hcount : d.childCount = 0 := hplain.childless
  have hfree : freeString d = .ok () := freeString_of_lawful hplain.lawful
  have hdelete : samconfConfigDelete (.node d cs) = deleteChildren 0 cs := by
    rw [samconfConfigDelete, hfree, hcount]
    rfl
  rw [hdelete, deleteChildren]
  intro hfault
  cases hfault

/-! ## Runs beyond the guard -/

theorem freeString_of_not_fits {d : NodeData} (htype : d.type = .string)
    (hother : ¬ d.value.Fits .string) : freeString d = .error .wrongMember := by
  rcases d with ⟨key, isSigned, type, value, childCount⟩
  rw [freeString, if_pos htype]
  cases value with
  | zero => exact absurd trivial hother
  | string s => exact absurd trivial hother
  | _ => rfl

/-- A string that is copied over another member frees it as a string. -/
theorem samconfConfigCopyConfig_faults {source config : Config} {key s : CString}
    (hkey : source.label.key = some key) (htype : source.label.type = .string)
    (hvalue : source.label.value = .string (some s))
    (hother : ¬ config.label.value.Fits .string) :
    Faults (samconfConfigCopyConfig source config) .wrongMember := by
  have hset {target : Config} (htarget : target.label.type = .string)
      (hunfit : ¬ target.label.value.Fits .string) :
      Faults (samconfCopyConfigValue source target) .wrongMember := by
    simp only [samconfCopyConfigValue, htype, hvalue, readString, Exec.pure_bind,
      samconfConfigSetString, freeString_of_not_fits htarget hunfit]
    exact (Exec.faults_fault _).bind _
  simp only [samconfConfigCopyConfig, hkey, deref_some, Exec.pure_bind]
  refine (Exec.yields_allocFor key).bind_faults ?_
  cases config
  exact hset htype hother

/-- The node `key = value`. -/
def stringNode : Config :=
  .node ⟨some "key".toList, false, .string, .string (some "value".toList), 0⟩ []

/-- A node is read as it is. -/
def stringSource : Source where
  node := stringNode
  read := stringNode
  lawful _ := trivial
  reads := ⟨.string (some "value".toList), trivial, fun _ => rfl, rfl⟩

/-- A fresh node that an integer was written to. -/
def integerNode : Config := .node { NodeData.init with value := .integer 5, type := .int } []

/-- A string may be copied over a fresh node. -/
theorem stringNode_freesStrings : FreesStrings noNumber FitsCopy stringNode :=
  freesStrings_of_reachable (.extend (.start rfl) (i := .copyConfig stringSource)
    (fun _ => by decide) ⟨plenty, .ok, plenty, rfl⟩)

/-- After an integer it is freed as a string. -/
theorem integerNode_freed_as_string :
    ¬ ∀ config, (nodeSystem noNumber).Reachable System.anyStep config →
      FreesStrings noNumber System.anyStep config := by
  intro hall
  have hreachable : (nodeSystem noNumber).Reachable System.anyStep integerNode :=
    .extend (.start rfl) (i := .setInt 5) trivial ⟨plenty, .ok, plenty, rfl⟩
  have hsafe := (hall integerNode hreachable).1 (.copyConfig stringSource) trivial
  exact Faults.not_avoids (samconfConfigCopyConfig_faults rfl rfl rfl (by decide)) hsafe

end Samconf
