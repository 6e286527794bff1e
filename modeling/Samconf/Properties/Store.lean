/-
# The configuration as a map

To a client that creates options, merges configurations and reads values by path, a
configuration is a map from paths to settings with one flag. `Store` says so in its
own terms: a creation adds what is missing and never changes what is there; a merge
goes over the map with another one, path by path; a lookup is an application. Nothing
of trees, positions, copies or allocations is left in it, and every run of requests
gets its replies.
-/

import Samconf.Foundation.Refinement
import Samconf.Model.Getters
import Samconf.Spec.Find
import Samconf.Spec.GraftView
import Samconf.Spec.Growth

namespace Samconf

open Foundation
open Exec (Yields)
open Config (settingWriter)

/-! ## Requests and replies -/

/-- A call of the interface. -/
inductive Request
  | create (creation : Creation)
  | merge (configToMerge : Config)
  | get (path : CString)
  | getBool (path : CString)
  | getInt32 (path : CString)
  | getReal (path : CString)
  | getString (path : CString)

/-- What a call answers. For a lookup that is its status and, of the node that it
finds, the setting. -/
inductive Reply
  | done (status : ConfigStatus)
  | node (status : ConfigStatus) (setting : Option Setting)
  | boolean (status : ConfigStatus) (result : Option Bool)
  | int32 (status : ConfigStatus) (result : Option Int32)
  | real (status : ConfigStatus) (result : Option Double)
  | string (status : ConfigStatus) (result : Option (Option CString))

/-- The call on a tree. -/
def Request.serve (strtod : CString → Double × CString) (root : Config) :
    Request → Run (Reply × Config)
  | .create creation => do
      let (status, root) ← creation.run strtod root
      pure (.done status, root)
  | .merge configToMerge => do
      let (status, root) ← samconfConfigMergeConfig root (some configToMerge)
      pure (.done status, root)
  | .get path => do
      let (status, node) ← samconfConfigGet root (some path)
      pure (.node status ((node.bind root.sub?).map fun s => s.label.setting), root)
  | .getBool path => do
      let (status, result) ← samconfConfigGetBool (some root) (some path)
      pure (.boolean status result, root)
  | .getInt32 path => do
      let (status, result) ← samconfConfigGetInt32 (some root) (some path)
      pure (.int32 status result, root)
  | .getReal path => do
      let (status, result) ← samconfConfigGetReal (some root) (some path)
      pure (.real status result, root)
  | .getString path => do
      let (status, result) ← samconfConfigGetString (some root) (some path)
      pure (.string status result, root)

/-- What a request needs: a configuration that can be merged, or a path with a
segment. Creations need nothing. -/
def Request.Proper : Request → Prop
  | .create _ => True
  | .merge configToMerge => configToMerge.Mergeable
  | .get path | .getBool path | .getInt32 path | .getReal path | .getString path =>
      pathSegments path ≠ []

/-! ## The map -/

/-- A flag and a map from the segments of paths to settings. -/
structure Store where
  isSigned : Bool
  settings : List CString → Option Setting

namespace Store

/-- A new option under the segments, and OBJECTs on the way to it, as far as there is
nothing yet. -/
def create (store : Store) (segments : List CString) (type : ConfigValueType) (value : Value) :
    Store where
  isSigned := store.isSigned
  settings ks := (store.settings ks).or <|
    if ks = segments then some ⟨false, type, value⟩
    else if ks <+: segments then some ⟨false, .object, .zero⟩
    else none

/-- What is left of a setting when a node is merged: values go over it, and where there
is nothing the node appears. -/
def mergeSetting (d : NodeData) : Option Setting → Setting
  | none => ⟨d.isSigned, d.type, if d.type.IsScalar then d.content else .zero⟩
  | some b => if d.type.IsScalar then ⟨b.isSigned, d.type, d.content⟩ else b

/-- Another map laid over the store. -/
def merge (store : Store) (isSigned : Bool) (added : List CString → Option NodeData) : Store where
  isSigned := store.isSigned || isSigned
  settings ks :=
    match added ks with
    | none => store.settings ks
    | some d => some (mergeSetting d (store.settings ks))

/-- The answer of a getter for values of one type. -/
def typed {α : Type} (type : ConfigValueType) (read : Value → α) :
    Option Setting → ConfigStatus × Option α
  | none => (.notFound, none)
  | some b => if b.type = type then (.ok, some (read b.value)) else (.invalidType, none)

/-- What the members of the union give. -/
def booleanOf : Value → Bool
  | .boolean boolean => boolean
  | _ => false

def integerOf : Value → Int64
  | .integer integer => integer
  | _ => 0

def realOf : Value → Double
  | .real real => real
  | _ => ⟨0⟩

def stringOf : Value → Option CString
  | .string string => string
  | _ => none

/-- The reply to a request, and the store afterwards. -/
def answer (strtod : CString → Double × CString) (store : Store) : Request → Reply × Store
  | .create creation =>
      match creation.given strtod with
      | none => (.done .error, store)
      | some (type, value) =>
          if pathSegments creation.path = [] then (.done .error, store)
          else (.done .ok, store.create (pathSegments creation.path) type value)
  | .merge configToMerge =>
      if store.isSigned && !configToMerge.label.isSigned then (.done .overwriteNotAllowed, store)
      else (.done .ok, store.merge configToMerge.label.isSigned configToMerge.nodeAt)
  | .get path =>
      match store.settings (pathSegments path) with
      | none => (.node .notFound none, store)
      | some b => (.node .ok (some b), store)
  | .getBool path =>
      let (status, result) := typed .boolean booleanOf (store.settings (pathSegments path))
      (.boolean status result, store)
  | .getInt32 path =>
      let (status, result) := typed .int (fun v => (integerOf v).toInt32)
        (store.settings (pathSegments path))
      (.int32 status result, store)
  | .getReal path =>
      let (status, result) := typed .real realOf (store.settings (pathSegments path))
      (.real status result, store)
  | .getString path =>
      let (status, result) := typed .string stringOf (store.settings (pathSegments path))
      (.string status (some (result.getD none)), store)

end Store

/-! ## One request -/

/-- A tree that a store describes, below the top. -/
structure Represents (root : Config) (store : Store) : Prop where
  sound : root.Sound
  tagged : root.Tagged
  isSigned : root.label.isSigned = store.isSigned
  settings : ∀ k ks, root.setting (k :: ks) = store.settings (k :: ks)

section Serve

variable {strtod : CString → Double × CString} {root : Config} {store : Store} {path : CString}

theorem Represents.setting (h : Represents root store) {segments : List CString}
    (hne : segments ≠ []) : root.setting segments = store.settings segments := by
  obtain ⟨k, ks, rfl⟩ := List.exists_cons_of_ne_nil hne
  exact h.settings k ks

/-- A creation in a tree is one in the store. -/
theorem Represents.created (h : Represents root store) {type : ConfigValueType} {value : Value}
    (hfits : value.Fits type) (hne : pathSegments path ≠ []) :
    Represents (root.created path type value).2 (store.create (pathSegments path) type value) := by
  have hkey : (optionData path type value).key = (pathSegments path).getLast? :=
    (getLast?_pathSegments hne).symm
  rw [Config.created, if_neg hne]
  refine ⟨h.sound.grow hkey rfl, ?_, ?_, fun k ks => ?_⟩
  · exact RoseTree.Everywhere.grow NodeData.key_bump NodeData.key_blank (fun k hk => hkey.trans hk)
      (fun _ _ _ _ hd _ => hd) (fun k _ => NodeData.tagged_blank k)
      (RoseTree.everywhere_node.mpr ⟨hfits, by simp⟩) h.tagged
  · rw [Config.isSigned_grow, h.isSigned]
    rfl
  · rw [Config.setting_grow hkey, Writer.put, h.settings]
    simp only [Store.create]
    by_cases heq : k :: ks = pathSegments path
    · rw [if_pos heq, if_pos heq]
      cases store.settings (k :: ks) <;> rfl
    · rw [if_neg heq, if_neg heq, List.getLast?_eq_some_getLast (List.cons_ne_nil k ks)]
      rfl

/-- A merge into a tree is one into the store. -/
theorem Represents.merged (h : Represents root store) {configToMerge : Config}
    (hmerge : configToMerge.Mergeable) (hrule : followsMergeRule root configToMerge = true) :
    Represents (root.stepByPath configToMerge)
      (store.merge configToMerge.label.isSigned configToMerge.nodeAt) := by
  refine ⟨h.sound.stepByPath hmerge.placeable, h.tagged.stepByPath hmerge.placeable, ?_,
    fun k ks => ?_⟩
  · rw [Config.isSigned_stepByPath, h.isSigned]
    rfl
  · rw [hmerge.setting_stepByPath hrule, hmerge.setting_grafted, h.settings]
    simp only [Store.merge]
    cases configToMerge.nodeAt (k :: ks) with
    | none => rfl
    | some d => cases store.settings (k :: ks) <;> rfl

/-- A lookup gives the setting. -/
theorem Represents.get (h : Represents root store) (hne : pathSegments path ≠ []) :
    (store.settings (pathSegments path) = none ∧
      (samconfConfigGet root (some path)).Yields (.notFound, none)) ∨
    ∃ p s, store.settings (pathSegments path) = some s.label.setting ∧
      (samconfConfigGet root (some path)).Yields (.ok, some p) ∧ root.sub? p = some s ∧
      s.label.Tagged := by
  rw [← h.setting hne]
  cases hsetting : root.setting (pathSegments path) with
  | none => exact .inl ⟨rfl, (misses_iff h.sound hne).mpr hsetting⟩
  | some b =>
      rcases exists_finds h.sound hne hsetting with ⟨d, ⟨p, s, hget, hs, rfl⟩, rfl⟩
      exact .inr ⟨p, s, rfl, hget, hs, h.tagged p s hs⟩

/-- A getter gives the value. -/
theorem Represents.getValue {α : Type} (h : Represents root store)
    (hne : pathSegments path ≠ []) {type : ConfigValueType} {read : Value → Run α}
    {value : Value → α} (hread : ∀ v : Value, v.Fits type → read v = pure (value v)) :
    (Samconf.getValue type read (some root) (some path)).Yields
      (Store.typed type value (store.settings (pathSegments path))) := by
  rw [Samconf.getValue]
  rcases h.get hne with ⟨hsetting, hget⟩ | ⟨p, s, hsetting, hget, hs, htagged⟩
  · rw [hsetting]
    apply hget.bind
    exact Exec.yields_pure _
  · rw [hsetting]
    apply hget.bind
    simp only [ne_eq, not_true_eq_false, if_false, Option.bind_some, hs, deref_some,
      Exec.pure_bind]
    by_cases htype : s.label.type = type
    · have hvalue := hread s.label.value (htype ▸ htagged)
      have hsame : Store.typed type value (some s.label.setting) =
          (.ok, some (value s.label.value)) := if_pos htype
      rw [if_pos htype, hvalue, hsame]
      exact Exec.yields_pure _
    · have hsame : Store.typed type value (some s.label.setting) = (.invalidType, none) :=
        if_neg htype
      rw [if_neg htype, hsame]
      exact Exec.yields_pure _

/-- The getter of strings gives the string. -/
theorem Represents.getString (h : Represents root store) (hne : pathSegments path ≠ []) :
    (samconfConfigGetString (some root) (some path)).Yields
      ((Store.typed .string Store.stringOf (store.settings (pathSegments path))).1,
        some ((Store.typed .string Store.stringOf
          (store.settings (pathSegments path))).2.getD none)) := by
  rw [samconfConfigGetString]
  rcases h.get hne with ⟨hsetting, hget⟩ | ⟨p, s, hsetting, hget, hs, htagged⟩
  · rw [hsetting]
    apply hget.bind
    exact Exec.yields_pure _
  · rw [hsetting]
    apply hget.bind
    simp only [ne_eq, not_true_eq_false, if_false, hs, deref_some, Exec.pure_bind]
    by_cases htype : s.label.type = .string
    · have hvalue : readString s.label.value = pure (Store.stringOf s.label.value) := by
        have hfits : s.label.value.Fits .string := htype ▸ htagged
        cases hv : s.label.value <;> simp_all [Value.Fits, readString, Store.stringOf]
      have hsame : Store.typed .string Store.stringOf (some s.label.setting) =
          (.ok, some (Store.stringOf s.label.value)) := if_pos htype
      rw [if_pos htype, hvalue, hsame]
      exact Exec.yields_pure _
    · have hsame : Store.typed .string Store.stringOf (some s.label.setting) =
          (.invalidType, none) := if_neg htype
      rw [if_neg htype, hsame]
      exact Exec.yields_pure _

/-- **Every request** is served as the store answers it. -/
theorem serve_implements (strtod : CString → Double × CString) :
    Exec.Implements (Request.serve strtod) (Store.answer strtod) Request.Proper Represents := by
  intro root store request h hproper
  cases request with
  | create creation =>
      rw [Request.serve, Store.answer]
      cases hgiven : creation.given strtod with
      | none =>
          rw [Creation.run_of_not_given hgiven]
          exact ⟨root, Exec.yields_pure _, h⟩
      | some given =>
          rcases given with ⟨type, value⟩
          have hrun := Creation.run_of_given h.sound hgiven
          by_cases hne : pathSegments creation.path = []
          · have hcreated : root.created creation.path type value = (.error, root) := if_pos hne
            rw [hcreated] at hrun
            simp only [if_pos hne]
            exact ⟨root, hrun.bind (Exec.yields_pure _), h⟩
          · have hstatus : (root.created creation.path type value).1 = .ok := by
              rw [Config.created, if_neg hne]
            rw [← Prod.eta (root.created creation.path type value), hstatus] at hrun
            simp only [if_neg hne]
            exact ⟨_, hrun.bind (Exec.yields_pure _),
              h.created (Creation.isOption_of_given hgiven).fits hne⟩
  | merge configToMerge =>
      have hmerge : configToMerge.Mergeable := hproper
      have hrun := samconfConfigMergeConfig_stepByPath h.sound h.tagged hmerge.placeable
      rw [Request.serve, Store.answer, ← h.isSigned]
      cases hrule : followsMergeRule root configToMerge with
      | true =>
          have hadmitted : (root.label.isSigned && !configToMerge.label.isSigned) = false := by
            rw [followsMergeRule] at hrule
            cases hroot : root.label.isSigned <;>
              cases hadded : configToMerge.label.isSigned <;> simp_all
          rw [mergeStatus, if_pos hrule] at hrun
          simp only [hadmitted, Bool.false_eq_true, if_false]
          exact ⟨_, hrun.bind (Exec.yields_pure _), h.merged hmerge hrule⟩
      | false =>
          obtain ⟨hsigned, hunsigned⟩ := followsMergeRule_eq_false_iff.mp hrule
          rw [mergeStatus, Config.stepByPath, hrule] at hrun
          simp only [hsigned, hunsigned, Bool.not_false, Bool.and_self, if_true]
          exact ⟨root, hrun.bind (Exec.yields_pure _), h⟩
  | get path =>
      rw [Request.serve, Store.answer]
      rcases h.get hproper with ⟨hsetting, hget⟩ | ⟨p, s, hsetting, hget, hs, -⟩
      · simp only [hsetting]
        exact ⟨root, hget.bind (Exec.yields_pure _), h⟩
      · simp only [hsetting]
        refine ⟨root, hget.bind ?_, h⟩
        rw [Option.bind_some, hs]
        exact Exec.yields_pure _
  | getBool path =>
      have hread (v : Value) (hfits : v.Fits .boolean) :
          readBoolean v = pure (Store.booleanOf v) := by
        cases v <;> simp_all [Value.Fits, readBoolean, Store.booleanOf]
      exact ⟨root, (h.getValue hproper hread).bind (Exec.yields_pure _), h⟩
  | getInt32 path =>
      have hread (v : Value) (hfits : v.Fits .int) :
          readInt32 v = pure (Store.integerOf v).toInt32 := by
        cases v <;> simp_all [Value.Fits, readInt32, readInteger, Store.integerOf]
      exact ⟨root, (h.getValue hproper hread).bind (Exec.yields_pure _), h⟩
  | getReal path =>
      have hread (v : Value) (hfits : v.Fits .real) : readReal v = pure (Store.realOf v) := by
        cases v <;> simp_all [Value.Fits, readReal, Store.realOf]
      exact ⟨root, (h.getValue hproper hread).bind (Exec.yields_pure _), h⟩
  | getString path =>
      exact ⟨root, (h.getString hproper).bind (Exec.yields_pure _), h⟩

end Serve

/-! ## Runs of requests -/

/-- The store that a fresh configuration is. -/
def Store.empty : Store := ⟨false, fun _ => none⟩

theorem represents_freshRoot : Represents freshRoot Store.empty where
  sound := intact_freshRoot.toSound
  tagged := intact_freshRoot.tagged
  isSigned := rfl
  settings _ _ := rfl

/-- **A configuration is a map.** Without failing allocations every run of proper
requests from a fresh configuration completes, with the replies of the store: what was
created first or merged last under a path is what the lookups find there. -/
theorem requests_refine_store (strtod : CString → Double × CString) {requests : List Request}
    (hproper : ∀ request ∈ requests, request.Proper) :
    ∃ root, (Exec.serveAll (Request.serve strtod) requests freshRoot).Yields
        ((Exec.answerAll (Store.answer strtod) requests Store.empty).1, root) ∧
      Represents root (Exec.answerAll (Store.answer strtod) requests Store.empty).2 :=
  (serve_implements strtod).serveAll hproper represents_freshRoot

/-- An integer is created twice and keeps its first value, until a merge gives it
another one. -/
theorem merge_changes_what_creation_keeps :
    let path := "root/a".toList
    let requests : List Request := [.create (.int path 1), .create (.int path 2), .getInt32 path,
      .merge ((Json.oneOption ['a'] (.boolean true)).loaded true), .getInt32 path, .getBool path]
    ∃ root, (Exec.serveAll (Request.serve noNumber) requests freshRoot).Yields
      ([.done .ok, .done .ok, .int32 .ok (some 1), .done .ok, .int32 .invalidType none,
        .boolean .ok (some true)], root) := by
  intro path requests
  have hproper : ∀ request ∈ requests, request.Proper := by
    have hpath : pathSegments path ≠ [] := by decide
    have hmerge : ((Json.oneOption ['a'] (.boolean true)).loaded true).Mergeable := by decide
    simp [requests, Request.Proper, hpath, hmerge]
  obtain ⟨root, hrun, -⟩ := requests_refine_store noNumber hproper
  exact ⟨root, hrun⟩

end Samconf
