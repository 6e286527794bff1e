/-
# What dumping computes

A tree stands for a document: an OBJECT for the documents of its children under
their keys, an ARRAY for the list of them, a scalar for its value. Dumping an
intact tree without failing allocations gives that document, and each node that
is found under a path stands there under the same path.
-/

import Mathlib.Data.List.Find
import Samconf.Spec.Shape

namespace Samconf

open Foundation
open Exec (Yields)

/-- The value in a document under a list of names, indices included. -/
def Json.find : Json → List CString → Option Json
  | json, [] => some json
  | json, k :: ks => (json.members.find? fun m => m.1 = k).bind fun m => m.2.find ks

/-- The document of a node without children. -/
def NodeData.toJson (d : NodeData) : Json :=
  match d.type, d.content with
  | .boolean, .boolean b => .boolean b
  | .int, .integer i => .int i.toInt32.toInt
  | .real, .real r => .double r
  | .string, .string (some s) => .string s
  | _, _ => .null

mutual

/-- The document that a tree stands for. -/
def Config.toJson : Config → Json
  | .node d children =>
      match d.type with
      | .object => .object (Config.toEntries children)
      | .array => .array (Config.toElements children)
      | _ => d.toJson

/-- The members that the children of an OBJECT stand for. -/
def Config.toEntries : List Config → List (CString × Json)
  | [] => []
  | child :: children => (child.label.key.getD [], Config.toJson child) :: Config.toEntries children

/-- The elements that the children of an ARRAY stand for. -/
def Config.toElements : List Config → List Json
  | [] => []
  | child :: children => Config.toJson child :: Config.toElements children

end

theorem Config.toEntries_eq (children : List Config) :
    toEntries children = children.map fun c => (c.label.key.getD [], toJson c) := by
  induction children with
  | nil => rfl
  | cons child children ih => rw [toEntries, ih, List.map_cons]

theorem Config.toElements_eq (children : List Config) :
    toElements children = children.map toJson := by
  induction children with
  | nil => rfl
  | cons child children ih => rw [toElements, ih, List.map_cons]

/-! ## The two loops -/

/-- A member under a new name is appended. -/
theorem Json.objectAdd_of_not_mem {entries : List (CString × Json)} {key : CString} {value : Json}
    (h : key ∉ entries.map Prod.fst) :
    Json.objectAdd entries key value = entries ++ [(key, value)] := by
  rw [Json.objectAdd, if_neg]
  simpa using h

/-- The first child brings a key that is not among the members yet. -/
theorem exists_new_key {child : Config} {children : List Config}
    {entries : List (CString × Json)}
    (hkeyed : none ∉ (child :: children).map fun c => c.label.key)
    (hnodup : (entries.map (fun e => some e.1) ++
      (child :: children).map fun c => c.label.key).Nodup) :
    ∃ key, child.label.key = some key ∧ key ∉ entries.map Prod.fst := by
  have hkey : child.label.key ≠ none := fun hnone => hkeyed (by simp [hnone])
  obtain ⟨key, hkey⟩ := Option.ne_none_iff_exists'.mp hkey
  refine ⟨key, hkey, fun hmem => ?_⟩
  obtain ⟨e, he, rfl⟩ := List.mem_map.mp hmem
  have hdisjoint := (List.nodup_append.mp hnodup).2.2 (some e.1)
    (List.mem_map_of_mem he) (some e.1) (by simp [hkey])
  exact hdisjoint rfl

theorem dumpEntries_yields {children : List Config} {entries : List (CString × Json)}
    (hdump : ∀ c ∈ children, (samconfDumpJsonConfig c).Yields (Config.toJson c))
    (hkeyed : none ∉ children.map fun c => c.label.key)
    (hnodup : (entries.map (fun e => some e.1) ++ children.map fun c => c.label.key).Nodup) :
    (dumpEntries children.length children entries).Yields
      (.object (entries ++ Config.toEntries children)) := by
  induction children generalizing entries with
  | nil => simpa [dumpEntries, Config.toEntries] using Exec.yields_pure _
  | cons child children ih =>
      obtain ⟨key, hkey, hnew⟩ := exists_new_key hkeyed hnodup
      have hrest := @ih (entries ++ [(key, Config.toJson child)])
        (fun c hc => hdump c (List.mem_cons_of_mem child hc)) (fun hmem => hkeyed (by simp_all))
        (by simpa [hkey] using hnodup)
      rw [List.length_cons, dumpEntries]
      apply (hdump child List.mem_cons_self).bind
      rw [hkey, deref_some, Exec.pure_bind, Json.objectAdd_of_not_mem hnew]
      simpa [Config.toEntries, hkey] using hrest

theorem dumpElements_yields {children : List Config} {elements : List Json}
    (hdump : ∀ c ∈ children, (samconfDumpJsonConfig c).Yields (Config.toJson c)) :
    (dumpElements children.length children elements).Yields
      (.array (elements ++ Config.toElements children)) := by
  induction children generalizing elements with
  | nil => simpa [dumpElements, Config.toElements] using Exec.yields_pure _
  | cons child children ih =>
      have hrest := @ih (elements ++ [Config.toJson child])
        fun c hc => hdump c (List.mem_cons_of_mem child hc)
      rw [List.length_cons, dumpElements]
      apply (hdump child List.mem_cons_self).bind
      simpa [Config.toElements] using hrest

/-- A node that holds a value, or none at all, is dumped as that. -/
theorem dump_of_leaf {d : NodeData} (children : List Config) (hobject : d.type ≠ .object)
    (harray : d.type ≠ .array) (htagged : d.Tagged) (hset : d.StringSet) :
    samconfDumpJsonConfig (.node d children) = pure d.toJson := by
  rcases d with ⟨key, isSigned, type, value, childCount⟩
  cases type with
  | object => exact absurd rfl hobject
  | array => exact absurd rfl harray
  | none => rfl
  | boolean => cases value <;> first | rfl | exact htagged.elim
  | int => cases value <;> first | rfl | exact htagged.elim
  | real => cases value <;> first | rfl | exact htagged.elim
  | string =>
      have hset' := hset rfl
      cases value with
      | string s =>
          cases s with
          | none => exact absurd rfl hset'
          | some s => rfl
      | zero => exact absurd rfl hset'
      | _ => exact htagged.elim

/-- The document of such a node. -/
theorem toJson_of_leaf {d : NodeData} (children : List Config) (hobject : d.type ≠ .object)
    (harray : d.type ≠ .array) : Config.toJson (.node d children) = d.toJson := by
  rw [Config.toJson]
  split
  · exact absurd ‹_› hobject
  · exact absurd ‹_› harray
  · rfl

/-- **Dumping.** Without failing allocations an intact tree is dumped as the document
that it stands for. -/
theorem samconfDumpJsonConfig_yields {config : Config} (h : config.Intact) :
    (samconfDumpJsonConfig config).Yields config.toJson := by
  induction config using RoseTree.induct with
  | node d children ih =>
      have hdump : ∀ c ∈ children, (samconfDumpJsonConfig c).Yields (Config.toJson c) :=
        fun c hc => ih c hc (h.child hc)
      have hcount : d.childCount = children.length := by simpa using h.counted.self
      have hkeyed := h.keyed.self
      have hdistinct := h.distinct.self
      rw [RoseTree.children_node] at hkeyed hdistinct
      by_cases hobject : d.type = .object
      · simp only [samconfDumpJsonConfig, Config.toJson, hobject, hcount]
        simpa using @dumpEntries_yields children [] hdump hkeyed (by simpa using hdistinct)
      · by_cases harray : d.type = .array
        · simp only [samconfDumpJsonConfig, Config.toJson, harray, hcount]
          simpa using @dumpElements_yields children [] hdump
        · rw [toJson_of_leaf children hobject harray,
            dump_of_leaf children hobject harray h.tagged.self h.stringsSet.self]
          exact Exec.yields_pure _

/-! ## What stands in the document -/

/-- The members of the document are those of the children. -/
theorem members_toJson {config : Config} (h : config.Intact) :
    config.toJson.members =
      config.children.map fun c => (c.label.key.getD [], Config.toJson c) := by
  cases config with
  | node d children =>
      have hshaped := h.shaped.self
      rw [RoseTree.children_node] at hshaped
      rw [Config.toJson, RoseTree.children_node]
      split
      · exact Config.toEntries_eq children
      · -- the keys are the indices
        rw [Json.members, Config.toElements_eq]
        apply List.ext_getElem
        · simp
        · intro i hi _
          have hlt : i < children.length := by simpa using hi
          have hkey := key_of_array h.shaped ‹_› (List.getElem?_eq_getElem hlt)
          simp [hkey]
      · -- nothing is below
        have hempty : children = [] := by
          by_contra hne
          rcases hshaped.container (by simpa using hne) with hobject | harray
          · contradiction
          · contradiction
        have hmembers : d.toJson.members = [] := by
          rw [NodeData.toJson]
          split <;> rfl
        rw [hempty, hmembers, List.map_nil]

/-- What a path leads to in the tree, it leads to in the document. -/
theorem find_toJson {config s : Config} {ks : List CString} (h : config.Intact)
    (hs : RoseTree.lookup NodeData.key config ks = some s) :
    config.toJson.find ks = some (Config.toJson s) := by
  induction ks generalizing config with
  | nil =>
      obtain rfl : config = s := by simpa using hs
      rw [Json.find]
  | cons k ks ih =>
      rw [RoseTree.lookup_cons_find?] at hs
      rcases Option.bind_eq_some_iff.mp hs with ⟨c, hc, hbelow⟩
      have hmem := List.mem_of_find?_eq_some hc
      have hfirst : (config.toJson.members.find? fun m => m.1 = k) =
          some (k, Config.toJson c) := by
        have hkeys : ∀ d ∈ config.children, d.label.key.getD [] = k ↔ d.label.key = some k := by
          intro d hd
          have hkeyed := h.keyed.self
          cases hkey : d.label.key with
          | none => exact absurd (List.mem_map.mpr ⟨d, hd, hkey⟩) hkeyed
          | some key => simp
        have hkey : c.label.key = some k := by simpa using List.find?_some hc
        have hsame :
            (config.children.find? fun d => decide (d.label.key.getD [] = k)) = some c := by
          rw [← hc]
          exact List.find?_congr fun d hd => decide_eq_decide.mpr (hkeys d hd)
        rw [members_toJson h, List.find?_map, Function.comp_def, hsame]
        simp [hkey]
      rw [Json.find, hfirst, Option.bind_some]
      exact ih (h.child hmem) hbelow

end Samconf
