/-
# Documents laid over documents

What a merge does to the documents that two trees stand for: an object goes over an
object member by member and over an array not at all; an array goes over an array
element by element; a scalar replaces whatever is there, and what is no scalar leaves
a scalar as it is. New members come last. Nothing of this mentions trees or paths.

A scalar that replaces an object leaves its nodes in the tree, below a node that is
not dumped any further. So the tree holds more than the document, and the part of it
that is dumped is what has to be in order.
-/

import Samconf.Spec.Document
import Samconf.Spec.Graft

namespace Samconf

open Foundation
open Exec (Yields)
open NodeData (grafting lawful_grafting)
open RoseTree (relabel addChild childIdx?)

namespace Json

/-! ## The overlay -/

mutual

/-- A document laid over another one. -/
def onto : Json → Json → Json
  | object entries, base =>
      match base with
      | object members => object (entriesOnto entries members)
      | base => base
  | array elements, base =>
      match base with
      | array others => array (elementsOnto elements others)
      | base => base
  | null, _ => null
  | boolean value, _ => boolean value
  | double value, _ => double value
  | int value, _ => int value
  | string value, _ => string value

/-- Members laid over members, one after the other. -/
def entriesOnto : List (CString × Json) → List (CString × Json) → List (CString × Json)
  | [], members => members
  | (key, value) :: entries, members =>
      entriesOnto entries
        (match members.findIdx? fun m => m.1 = key with
          | some i => members.modify i fun m => (m.1, onto value m.2)
          | none => members ++ [(key, value)])

/-- Elements laid over elements. -/
def elementsOnto : List Json → List Json → List Json
  | [], others => others
  | element :: elements, [] => element :: elements
  | element :: elements, other :: others => onto element other :: elementsOnto elements others

end

/-- One member laid over members. -/
def entryOnto (members : List (CString × Json)) (m : CString × Json) : List (CString × Json) :=
  match members.findIdx? fun n => n.1 = m.1 with
  | some i => members.modify i fun n => (n.1, onto m.2 n.2)
  | none => members ++ [m]

theorem entriesOnto_eq_foldl (entries members : List (CString × Json)) :
    entriesOnto entries members = entries.foldl entryOnto members := by
  induction entries generalizing members with
  | nil => rfl
  | cons m entries ih =>
      rcases m with ⟨key, value⟩
      rw [entriesOnto, ih, List.foldl_cons]
      rfl

/-- Only the member with the name is affected. -/
theorem mem_entryOnto {members : List (CString × Json)} {m n : CString × Json}
    (h : n ∈ entryOnto members m) : n.1 = m.1 ∨ n ∈ members := by
  rw [entryOnto] at h
  cases hi : members.findIdx? fun n => decide (n.1 = m.1) with
  | none =>
      rw [hi] at h
      rcases List.mem_append.mp h with h | h
      · exact .inr h
      · exact .inl (by rw [List.mem_singleton.mp h])
  | some i =>
      rw [hi] at h
      obtain ⟨j, hj⟩ := List.getElem?_of_mem h
      rw [List.getElem?_modify] at hj
      obtain ⟨n', hn', rfl⟩ := Option.map_eq_some_iff.mp hj
      split
      · rename_i hij
        subst hij
        obtain ⟨hlt, hname, -⟩ := List.findIdx?_eq_some_iff_getElem.mp hi
        obtain ⟨-, rfl⟩ := List.getElem?_eq_some_iff.mp hn'
        exact .inl (by simpa using hname)
      · exact .inr (List.mem_of_getElem? hn')

theorem elementsOnto_nil (elements : List Json) : elementsOnto elements [] = elements := by
  cases elements <;> rfl

/-! ## Arrays as members -/

/-- Elements as members from an index on. -/
def indexed (idx : ℕ) (elements : List Json) : List (CString × Json) :=
  elements.mapIdx fun i element => (indexKey (idx + i), element)

theorem indexed_nil (idx : ℕ) : indexed idx [] = [] := rfl

theorem indexed_cons (idx : ℕ) (element : Json) (elements : List Json) :
    indexed idx (element :: elements) = (indexKey idx, element) :: indexed (idx + 1) elements := by
  simp [indexed, List.mapIdx_cons, Nat.add_assoc, Nat.add_comm 1]

theorem members_array (elements : List Json) : (array elements).members = indexed 0 elements := by
  simp [members, indexed]

/-- What comes before an index does not have it for a name. -/
theorem findIdx?_append_indexed {idx : ℕ} {before : List (CString × Json)}
    (hbefore : ∀ m ∈ before, ∃ i < idx, m.1 = indexKey i) (rest : List (CString × Json)) :
    (before ++ rest).findIdx? (fun m => m.1 = indexKey idx) =
      (rest.findIdx? fun m => m.1 = indexKey idx).map (· + before.length) := by
  have hnone : before.findIdx? (fun m => decide (m.1 = indexKey idx)) = none := by
    rw [List.findIdx?_eq_none_iff]
    intro m hm
    obtain ⟨i, hi, hkey⟩ := hbefore m hm
    simpa [hkey, indexKey_injective.eq_iff] using Nat.ne_of_lt hi
  rw [List.findIdx?_append, hnone]
  cases rest.findIdx? fun m => decide (m.1 = indexKey idx) <;> rfl

/-- Rewriting the member that follows. -/
theorem modify_length (f : CString × Json → CString × Json) (before rest : List (CString × Json))
    (m : CString × Json) :
    (before ++ m :: rest).modify before.length f = before ++ f m :: rest := by
  induction before with
  | nil => rfl
  | cons n before ih => simp [ih]

/-- Elements laid over elements are members laid over members. -/
theorem foldl_entryOnto_indexed (elements others : List Json) (idx : ℕ)
    {before : List (CString × Json)} (hbefore : ∀ m ∈ before, ∃ i < idx, m.1 = indexKey i) :
    (indexed idx elements).foldl entryOnto (before ++ indexed idx others) =
      before ++ indexed idx (elementsOnto elements others) := by
  induction elements generalizing others idx before with
  | nil => rfl
  | cons element elements ih =>
      have hlater (m : CString × Json) (hm : m.1 = indexKey idx) :
          ∀ n ∈ before ++ [m], ∃ i < idx + 1, n.1 = indexKey i := by
        intro n hn
        rcases List.mem_append.mp hn with hn | hn
        · obtain ⟨i, hi, hkey⟩ := hbefore n hn
          exact ⟨i, by omega, hkey⟩
        · obtain rfl := List.mem_singleton.mp hn
          exact ⟨idx, by omega, hm⟩
      cases others with
      | nil =>
          have hstep : entryOnto (before ++ indexed idx []) (indexKey idx, element) =
              (before ++ [(indexKey idx, element)]) ++ indexed (idx + 1) [] := by
            rw [entryOnto, findIdx?_append_indexed hbefore]
            simp [indexed_nil]
          rw [indexed_cons, List.foldl_cons, hstep, ih [] (idx + 1) (hlater _ rfl),
            elementsOnto_nil, elementsOnto_nil, indexed_cons, List.append_assoc,
            List.singleton_append]
      | cons other others =>
          have hstep : entryOnto (before ++ indexed idx (other :: others)) (indexKey idx, element) =
              (before ++ [(indexKey idx, onto element other)]) ++ indexed (idx + 1) others := by
            rw [entryOnto, findIdx?_append_indexed hbefore, indexed_cons]
            simp [List.findIdx?_cons, modify_length]
          rw [indexed_cons idx element, List.foldl_cons, hstep,
            ih others (idx + 1) (hlater _ rfl), elementsOnto, indexed_cons, List.append_assoc,
            List.singleton_append]

/-- **Arrays go over arrays as their members do.** -/
theorem members_elementsOnto (elements others : List Json) :
    (array (elementsOnto elements others)).members =
      (array elements).members.foldl entryOnto (array others).members := by
  have h := @foldl_entryOnto_indexed elements others 0 [] (by simp)
  rw [members_array, members_array, members_array]
  simpa using h.symm

/-! ## Documents that fit -/

/-- An object and an array. -/
def Clash : Json → Json → Prop
  | object _, array _ => True
  | array _, object _ => True
  | _, _ => False

/-- No names lead to an object in one document and to an array in the other. -/
def Fits (top base : Json) : Prop :=
  ∀ ks a b, top.find ks = some a → base.find ks = some b → ¬ Clash a b

/-- A unique name leads to its member. -/
theorem find_cons_of_mem {json : Json} (h : (json.members.map Prod.fst).Nodup)
    {m : CString × Json} (hm : m ∈ json.members) (ks : List CString) :
    json.find (m.1 :: ks) = m.2.find ks := by
  have hfirst (members : List (CString × Json)) (h : (members.map Prod.fst).Nodup)
      (hm : m ∈ members) : members.find? (fun n => n.1 = m.1) = some m := by
    induction members with
    | nil => cases hm
    | cons n members ih =>
        rw [List.map_cons, List.nodup_cons] at h
        rcases List.mem_cons.mp hm with rfl | hm
        · simp
        · have hne : n.1 ≠ m.1 := fun heq => h.1 (heq ▸ List.mem_map_of_mem hm)
          simp [hne, ih h.2 hm]
  rw [find, hfirst _ h hm, Option.bind_some]

/-- What fits, fits member by member. -/
theorem Fits.member {top base : Json} (h : top.Fits base)
    (htop : (top.members.map Prod.fst).Nodup) (hbase : (base.members.map Prod.fst).Nodup)
    {m n : CString × Json} (hm : m ∈ top.members) (hn : n ∈ base.members) (hname : n.1 = m.1) :
    m.2.Fits n.2 := by
  intro ks a b ha hb
  refine h (m.1 :: ks) a b ?_ ?_
  · rwa [find_cons_of_mem htop hm]
  · rwa [← hname, find_cons_of_mem hbase hn]

/-- What is found under names occurs in the document. -/
theorem within_of_find {json sub : Json} {ks : List CString} (h : json.find ks = some sub) :
    Within sub json := by
  induction ks generalizing json with
  | nil =>
      rw [find] at h
      obtain rfl := Option.some.inj h
      exact .self json
  | cons k ks ih =>
      rw [find] at h
      obtain ⟨m, hm, h⟩ := Option.bind_eq_some_iff.mp h
      exact .member (List.mem_of_find?_eq_some hm) (ih h)

/-- Documents without arrays fit. -/
theorem fits_of_no_arrays {top base : Json} (htop : ∀ elements, ¬ Within (array elements) top)
    (hbase : ∀ elements, ¬ Within (array elements) base) : top.Fits base := by
  intro ks a b ha hb hclash
  cases a with
  | array elements => exact htop elements (within_of_find ha)
  | object entries =>
      cases b with
      | array elements => exact hbase elements (within_of_find hb)
      | _ => exact hclash
  | _ => exact hclash

end Json

/-! ## Trees that can be dumped -/

/-- What is dumped of the tree is in order: at the top, and below an OBJECT or an ARRAY
again. Below other nodes there may be anything. -/
inductive Config.Legible : Config → Prop
  | node {d : NodeData} {children : List Config} (counted : d.childCount = children.length)
      (tagged : d.Tagged) (stringSet : d.StringSet)
      (keyed : d.type = .object ∨ d.type = .array → none ∉ children.map fun c => c.label.key)
      (distinct : d.type = .object ∨ d.type = .array →
        (children.map fun c => c.label.key).Nodup)
      (indices : d.type = .array → (children.map fun c => c.label.key) =
        (List.range children.length).map fun i => some (indexKey i))
      (below : d.type = .object ∨ d.type = .array → ∀ c ∈ children, Legible c) :
      Config.Legible (.node d children)

/-- The member that a node stands for. -/
def Config.member (config : Config) : CString × Json :=
  (config.label.key.getD [], config.toJson)

namespace Config

theorem Intact.legible {config : Config} (h : config.Intact) : config.Legible := by
  induction config using RoseTree.induct with
  | node d children ih =>
      refine .node (by simpa using h.counted.self) h.tagged.self h.stringsSet.self
        (fun _ => h.keyed.self) (fun _ => h.distinct.self) (fun harray => ?_)
        fun _ c hc => ih c hc (h.child hc)
      simpa using h.shaped.self.indices harray

/-- **Dumping** looks at what is legible only. -/
theorem Legible.dump {config : Config} (h : config.Legible) :
    (samconfDumpJsonConfig config).Yields config.toJson := by
  induction h with
  | @node d children hcount htagged hset hkeyed hdistinct hindices hbelow ih =>
      by_cases hobject : d.type = .object
      · have hentries := @dumpEntries_yields children [] (ih (.inl hobject)) (hkeyed (.inl hobject))
          (by simpa using hdistinct (.inl hobject))
        simpa [samconfDumpJsonConfig, Config.toJson, hobject, hcount] using hentries
      · by_cases harray : d.type = .array
        · have helements := @dumpElements_yields children [] (ih (.inr harray))
          simpa [samconfDumpJsonConfig, Config.toJson, harray, hcount] using helements
        · rw [toJson_of_leaf children hobject harray,
            dump_of_leaf children hobject harray htagged hset]
          exact Exec.yields_pure _

theorem toJson_of_object {d : NodeData} (children : List Config) (h : d.type = .object) :
    Config.toJson (.node d children) = .object (children.map member) := by
  simp only [Config.toJson, h, toEntries_eq]
  rfl

theorem toJson_of_array {d : NodeData} (children : List Config) (h : d.type = .array) :
    Config.toJson (.node d children) = .array (children.map toJson) := by
  simp only [Config.toJson, h, toElements_eq]

/-- The members of the document of an ARRAY whose children are numbered. -/
theorem members_of_array {children : List Config}
    (h : (children.map fun c => c.label.key) =
      (List.range children.length).map fun i => some (indexKey i)) :
    (Json.array (children.map toJson)).members = children.map member := by
  apply List.ext_getElem
  · simp [Json.members]
  · intro i hi _
    have hlt : i < children.length := by simpa [Json.members] using hi
    have hkey := congrArg (fun keys => keys[i]?) h
    simp only [List.getElem?_map, List.getElem?_eq_getElem hlt, List.getElem?_range hlt,
      Option.map_some, Option.some.injEq] at hkey
    simp [Json.members, member, hkey]

/-- Siblings that can be dumped under an OBJECT or an ARRAY. -/
structure InOrder (children : List Config) : Prop where
  keyed : none ∉ children.map fun c => c.label.key
  distinct : (children.map fun c => c.label.key).Nodup
  legible : ∀ c ∈ children, c.Legible

theorem InOrder.names {children : List Config} (h : InOrder children) :
    ((children.map member).map Prod.fst).map some = children.map fun c => c.label.key := by
  rw [List.map_map, List.map_map]
  apply List.map_congr_left
  intro c hc
  obtain ⟨k, hk⟩ := Option.ne_none_iff_exists'.mp fun hnone : c.label.key = none =>
    h.keyed (List.mem_map.mpr ⟨c, hc, hnone⟩)
  simp [member, hk]

theorem InOrder.nodup {children : List Config} (h : InOrder children) :
    ((children.map member).map Prod.fst).Nodup := by
  have hdistinct := h.distinct
  rw [← h.names] at hdistinct
  exact hdistinct.of_map some

/-- The child with a key is the member with the name. -/
theorem InOrder.findIdx? {children : List Config} (h : InOrder children) (k : CString) :
    (children.map member).findIdx? (fun m => m.1 = k) =
      childIdx? NodeData.key k children := by
  rw [List.findIdx?_map, RoseTree.childIdx?]
  have hkeyed := h.keyed
  clear h
  induction children with
  | nil => rfl
  | cons c children ih =>
      obtain ⟨k', hk'⟩ := Option.ne_none_iff_exists'.mp fun hnone : c.label.key = none =>
        hkeyed (by simp [hnone])
      have hrest := ih fun hmem => hkeyed (List.mem_cons_of_mem _ hmem)
      simp [List.findIdx?_cons, member, hk'] at hrest ⊢
      simp [hrest]

/-- Children that stand for the members of an array are its elements, with their
indices. -/
theorem InOrder.of_members_array {children : List Config} (h : InOrder children)
    {elements : List Json} (hmembers : children.map member = (Json.array elements).members) :
    (children.map fun c => c.label.key) =
        (List.range children.length).map (fun i => some (indexKey i)) ∧
      children.map toJson = elements := by
  have hlength : children.length = elements.length := by
    have hsame := congrArg List.length hmembers
    simpa [Json.members] using hsame
  constructor
  · rw [← h.names, hmembers]
    exact List.ext_getElem (by simp [Json.members, hlength]) (by simp [Json.members])
  · have hvalues := congrArg (List.map Prod.snd) hmembers
    rw [List.map_map] at hvalues
    have hsnd : (Json.array elements).members.map Prod.snd = elements :=
      List.ext_getElem (by simp [Json.members]) (by simp [Json.members])
    rw [hsnd] at hvalues
    exact hvalues

/-! ## One document onto a tree -/

variable {isSigned : Bool}

/-- What grafting a document's tree onto a node, and writing the node's label over,
leaves. -/
def laid (isSigned : Bool) (json : Json) (key : Option CString) (config : Config) : Config :=
  grafting.graft (json.tree isSigned key) (relabel (json.label isSigned key).overwrite config)

/-- A copy of a document's tree is the tree. -/
theorem graft_copy_tree (isSigned : Bool) {json : Json} (h : json.UniqueKeys)
    (key : Option CString) :
    grafting.graft (json.tree isSigned key) (.node (json.label isSigned key).copied []) =
      json.tree isSigned key := by
  induction json using Json.induct generalizing key with
  | step json ih =>
      have hkeys : (json.tree isSigned key).children.map (fun c => grafting.key c.label) =
          json.members.map fun m => some m.1 := Json.childKeys_tree isSigned json key
      have hnodup : (json.members.map fun m => some m.1).Nodup := by
        have hsome : (json.members.map fun m => some m.1) =
            (json.members.map Prod.fst).map some := by
          simp
        rw [hsome]
        exact h.nodup_members.map fun _ _ heq => Option.some.inj heq
      have hbump (n : ℕ) (d : NodeData) :
          NodeData.bump^[n] d = { d with childCount := d.childCount + n } := by
        induction n generalizing d with
        | zero => rfl
        | succ n ih =>
            rw [Function.iterate_succ_apply, ih]
            simp [NodeData.bump, Nat.add_assoc, Nat.add_comm 1]
      rw [Grafting.graft_eq, lawful_grafting.graftAll_of_new (by simp [hkeys])
        (by simpa [hkeys] using hnodup), Json.tree_eq, RoseTree.children_node, List.length_map,
        RoseTree.label_node, RoseTree.children_node, List.nil_append, List.map_map]
      congr 1
      · have hlabel := hbump json.members.length (json.label isSigned key).copied
        refine Eq.trans hlabel ?_
        rw [← Json.childCount_label isSigned json key]
        cases json <;>
          simp [Json.label, NodeData.copied, NodeData.content, Value.read, ConfigValueType.IsScalar]
      · apply List.map_congr_left
        intro m hm
        have hmember := h.within (.member hm (.self m.2))
        simpa [grafting] using ih m hm hmember (some m.1)

/-- A document goes over what a tree stands for. -/
def LaysOver (isSigned : Bool) (json : Json) : Prop :=
  ∀ key config, Legible config → json.kept.Fits config.toJson →
    Legible (laid isSigned json key config) ∧
      (laid isSigned json key config).toJson = json.kept.onto config.toJson

theorem key_laid (isSigned : Bool) (json : Json) (key : Option CString) (config : Config) :
    (laid isSigned json key config).label.key = config.label.key := by
  rw [laid, key_graft, RoseTree.label_relabel, NodeData.key_overwrite]

theorem legible_tree (isSigned : Bool) {json : Json} (h : json.UniqueKeys)
    (key : Option CString) : Legible (json.tree isSigned key) :=
  (Json.intact_tree isSigned h key).legible

/-- One member onto siblings. -/
theorem InOrder.graftOne {config : Config} (h : InOrder config.children) {m : CString × Json}
    (hfree : m.2.NullFree) (hunique : m.2.UniqueKeys) (hlays : LaysOver isSigned m.2)
    (hfits : ∀ c ∈ config.children, c.label.key = some m.1 → m.2.kept.Fits (toJson c)) :
    InOrder (grafting.graftAll [m.2.tree isSigned (some m.1)] config).children ∧
      (grafting.graftAll [m.2.tree isSigned (some m.1)] config).children.map member =
        Json.entryOnto (config.children.map member) (m.1, m.2.kept) := by
  have hkey : grafting.key (m.2.tree isSigned (some m.1)).label = some m.1 := by
    simp [grafting]
  rw [Json.entryOnto, h.findIdx?]
  cases hi : childIdx? NodeData.key m.1 config.children with
  | some i =>
      rw [Grafting.graftOne_of_some hkey hi, RoseTree.children_node, Json.label_tree]
      obtain ⟨c, hc, hck, -⟩ := RoseTree.childIdx?_eq_some.mp hi
      rcases List.exists_of_modify (laid isSigned m.2 (some m.1))
        (List.getElem?_eq_some_iff.mp hc).1 with ⟨before, d, after, hsplit, rfl, hmodify⟩
      obtain rfl : d = c := by simpa [hsplit] using hc
      have hd : d ∈ config.children := by simp [hsplit]
      rcases hlays (some m.1) d (h.legible d hd) (hfits d hd hck) with ⟨hlegible, hjson⟩
      have hkeys : (before ++ laid isSigned m.2 (some m.1) d :: after).map (fun c => c.label.key) =
          config.children.map fun c => c.label.key := by
        simp [hsplit, key_laid]
      have hmodify' : (config.children.modify before.length fun d =>
          grafting.graft (m.2.tree isSigned (some m.1))
            (relabel (grafting.write (m.2.label isSigned (some m.1))) d)) =
          before ++ laid isSigned m.2 (some m.1) d :: after := hmodify
      rw [hmodify']
      refine ⟨⟨by rw [hkeys]; exact h.keyed, by rw [hkeys]; exact h.distinct, ?_⟩, ?_⟩
      · intro c hc
        rcases List.mem_append.mp hc with hc | hc
        · exact h.legible c (by simp [hsplit, hc])
        · rcases List.mem_cons.mp hc with rfl | hc
          · exact hlegible
          · exact h.legible c (by simp [hsplit, hc])
      · have hlength : before.length = (before.map member).length := by simp
        simp only
        rw [hsplit, List.map_append, List.map_append, List.map_cons, List.map_cons, hlength,
          Json.modify_length]
        simp [member, key_laid, hjson]
  | none =>
      rw [Grafting.graftOne_of_none hkey hi, RoseTree.children_addChild, Json.label_tree]
      have hcopy := graft_copy_tree isSigned hunique (some m.1)
      have hcopy' : grafting.graft (m.2.tree isSigned (some m.1))
          (.node (grafting.copy (m.2.label isSigned (some m.1))) []) =
            m.2.tree isSigned (some m.1) := hcopy
      rw [hcopy']
      refine ⟨⟨?_, ?_, ?_⟩, ?_⟩
      · simpa using h.keyed
      · have hnew : some m.1 ∉ config.children.map fun c => c.label.key := by
          intro hmem
          obtain ⟨c, hc, hck⟩ := List.mem_map.mp hmem
          exact RoseTree.childIdx?_eq_none.mp hi c hc hck
        rw [List.map_append, List.nodup_append]
        refine ⟨h.distinct, by simp, fun a ha b hb => ?_⟩
        rintro rfl
        simp only [List.map_cons, List.map_nil, List.mem_singleton, Json.label_tree,
          Json.key_label] at hb
        exact hnew (hb ▸ ha)
      · intro c hc
        rcases List.mem_append.mp hc with hc | hc
        · exact h.legible c hc
        · obtain rfl := List.mem_singleton.mp hc
          exact legible_tree isSigned hunique (some m.1)
      · simp [member, Json.toJson_tree isSigned hfree]

/-- Members onto siblings, one after the other. -/
theorem InOrder.graftAll {config : Config} (h : InOrder config.children)
    {ms : List (CString × Json)}
    (hms : ∀ m ∈ ms, m.2.NullFree ∧ m.2.UniqueKeys ∧ LaysOver isSigned m.2)
    (hnodup : (ms.map Prod.fst).Nodup)
    (hfits : ∀ m ∈ ms, ∀ n ∈ config.children.map member, n.1 = m.1 → m.2.kept.Fits n.2) :
    InOrder (grafting.graftAll (ms.map fun m => m.2.tree isSigned (some m.1)) config).children ∧
      (grafting.graftAll (ms.map fun m => m.2.tree isSigned (some m.1)) config).children.map
          member =
        (ms.map fun m => (m.1, m.2.kept)).foldl Json.entryOnto (config.children.map member) := by
  induction ms generalizing config with
  | nil => exact ⟨h, rfl⟩
  | cons m ms ih =>
      rw [List.map_cons, List.nodup_cons] at hnodup
      rcases hms m List.mem_cons_self with ⟨hfree, hunique, hlays⟩
      have hone := h.graftOne hfree hunique hlays fun c hc hck =>
        hfits m List.mem_cons_self (member c) (List.mem_map_of_mem hc) (by simp [member, hck])
      have hrest := ih hone.1 (fun m' hm' => hms m' (List.mem_cons_of_mem m hm')) hnodup.2 (by
        intro m' hm' n hn hname
        rw [hone.2] at hn
        rcases Json.mem_entryOnto hn with heq | hn
        · have hsame : m'.1 = m.1 := hname.symm.trans heq
          exact absurd (hsame ▸ List.mem_map_of_mem hm') hnodup.1
        · exact hfits m' (List.mem_cons_of_mem m hm') n hn hname)
      rw [List.map_cons, Grafting.graftAll_cons, List.map_cons, List.foldl_cons, ← hone.2]
      exact hrest

theorem type_graftAll (cs : List Config) (config : Config) :
    (grafting.graftAll cs config).label.type = config.label.type :=
  Grafting.apply_label_graftAll (G := grafting) (f := NodeData.type) (fun _ => rfl) cs config

theorem value_graftAll (cs : List Config) (config : Config) :
    (grafting.graftAll cs config).label.value = config.label.value :=
  Grafting.apply_label_graftAll (G := grafting) (f := NodeData.value) (fun _ => rfl) cs config

theorem childCount_graftAll (cs : List Config) {config : Config}
    (h : config.label.childCount = config.children.length) :
    (grafting.graftAll cs config).label.childCount =
      (grafting.graftAll cs config).children.length :=
  @Grafting.count_graftAll _ _ _ grafting _ NodeData.childCount (fun _ => rfl) cs h

/-- Below a node that is dumped as a value there may be anything. -/
theorem legible_graftAll_of_leaf {d : NodeData} {children : List Config} (cs : List Config)
    (hobject : d.type ≠ .object) (harray : d.type ≠ .array)
    (hcount : d.childCount = children.length) (htagged : d.Tagged) (hset : d.StringSet) :
    Legible (grafting.graftAll cs (.node d children)) ∧
      toJson (grafting.graftAll cs (.node d children)) = d.toJson := by
  have htype := type_graftAll cs (.node d children)
  have hvalue := value_graftAll cs (.node d children)
  have hcounted := @childCount_graftAll cs (.node d children) hcount
  generalize grafting.graftAll cs (.node d children) = result at *
  rcases result with ⟨d', children'⟩
  rw [RoseTree.label_node, RoseTree.label_node] at htype hvalue
  have hleaf : ¬ (d'.type = .object ∨ d'.type = .array) := by
    rw [htype]
    exact not_or_intro hobject harray
  constructor
  · refine .node hcounted ?_ ?_ (fun h => absurd h hleaf) (fun h => absurd h hleaf)
      (fun h => absurd (.inr h) hleaf) fun h => absurd h hleaf
    · rwa [NodeData.Tagged, htype, hvalue]
    · rwa [NodeData.StringSet, NodeData.content, htype, hvalue]
  · rw [toJson_of_leaf children' (htype ▸ hobject) (htype ▸ harray), NodeData.toJson,
      NodeData.content, htype, hvalue]
    rfl

/-- Siblings in order below a container that was legible before. -/
theorem legible_graftAll_of_inOrder {d : NodeData} {children cs : List Config}
    (hcount : d.childCount = children.length) (htagged : d.Tagged) (hset : d.StringSet)
    (h : InOrder (grafting.graftAll cs (.node d children)).children)
    (hindices : d.type = .array →
      ((grafting.graftAll cs (.node d children)).children.map fun c => c.label.key) =
        (List.range (grafting.graftAll cs (.node d children)).children.length).map
          fun i => some (indexKey i)) :
    Legible (grafting.graftAll cs (.node d children)) := by
  have htype := type_graftAll cs (.node d children)
  have hvalue := value_graftAll cs (.node d children)
  have hcounted := @childCount_graftAll cs (.node d children) hcount
  generalize grafting.graftAll cs (.node d children) = result at *
  rcases result with ⟨d', children'⟩
  rw [RoseTree.label_node, RoseTree.label_node] at htype hvalue
  refine .node hcounted ?_ ?_ (fun _ => h.keyed) (fun _ => h.distinct) ?_ fun _ => h.legible
  · rwa [NodeData.Tagged, htype, hvalue]
  · rwa [NodeData.StringSet, NodeData.content, htype, hvalue]
  · rwa [htype]

end Config

open Config

namespace Json

variable {isSigned : Bool} {json : Json}

/-- A scalar replaces what is there. -/
theorem laysOver_of_scalar (hscalar : ∀ key, (json.label isSigned key).type.IsScalar)
    (hmembers : json.members = [])
    (honto : ∀ base d key, json.kept.onto base = ((json.label isSigned key).overwrite d).toJson) :
    LaysOver isSigned json := by
  intro key config hlegible _
  cases hlegible with
  | @node d children hcount htagged hset _ _ _ _ =>
      have htype : ((json.label isSigned key).overwrite d).type =
          (json.label isSigned key).type := by
        simp [NodeData.overwrite, hscalar key]
      have hneither : (json.label isSigned key).type ≠ .object ∧
          (json.label isSigned key).type ≠ .array := by
        have h := hscalar key
        revert h
        cases (json.label isSigned key).type <;> decide
      have hleaf := @legible_graftAll_of_leaf ((json.label isSigned key).overwrite d) children []
        (htype ▸ hneither.1) (htype ▸ hneither.2) (by simpa using hcount)
        ((tagged_label isSigned json key).overwrite htagged)
        ((stringSet_label isSigned json key).overwrite hset)
      rw [laid, Grafting.graft_eq, tree_eq, RoseTree.children_node, hmembers, honto _ d key]
      exact hleaf

/-- What members that fit leave of siblings. -/
theorem inOrder_laid {d : NodeData} {children : List Config} (hunique : json.UniqueKeys)
    (hmembers : ∀ m ∈ json.members, m.2.NullFree ∧ m.2.UniqueKeys ∧ LaysOver isSigned m.2)
    (h : InOrder children) (hbase : (toJson (.node d children)).members = children.map member)
    (hfits : json.kept.Fits (toJson (.node d children))) :
    InOrder (grafting.graftAll (json.members.map fun m => m.2.tree isSigned (some m.1))
        (.node d children)).children ∧
      (grafting.graftAll (json.members.map fun m => m.2.tree isSigned (some m.1))
          (.node d children)).children.map member =
        json.kept.members.foldl entryOnto (children.map member) := by
  have hkept : (json.kept.members.map Prod.fst).Nodup := by
    rw [members_kept, List.map_map]
    exact hunique.nodup_members
  rw [members_kept]
  refine @InOrder.graftAll _ (.node d children) h _ hmembers hunique.nodup_members ?_
  intro m hm n hn hname
  have hmem : (m.1, m.2.kept) ∈ json.kept.members := by
    rw [members_kept]
    exact List.mem_map_of_mem hm
  refine hfits.member hkept ?_ hmem (hbase ▸ hn) hname
  rw [hbase]
  exact h.nodup

/-- The value of a node is no object and no array, and keeps what is no scalar off. -/
theorem onto_toJson (d : NodeData) (entries : List (CString × Json)) (elements : List Json) :
    (object entries).onto d.toJson = d.toJson ∧ (array elements).onto d.toJson = d.toJson := by
  rw [NodeData.toJson]
  split <;> exact ⟨rfl, rfl⟩

/-- A container writes nothing over a node. -/
theorem relabel_container {d : NodeData} (h : ¬ d.type.IsScalar) (config : Config) :
    relabel d.overwrite config = config := by
  rcases config with ⟨d', children⟩
  rw [relabel, NodeData.overwrite, if_neg h]

/-- An object goes over what a tree stands for when its members do. -/
theorem laysOver_object {entries : List (CString × Json)}
    (hunique : (object entries).UniqueKeys)
    (hmembers : ∀ m ∈ (object entries).members,
      m.2.NullFree ∧ m.2.UniqueKeys ∧ LaysOver isSigned m.2) :
    LaysOver isSigned (object entries) := by
  intro key config hlegible hfits
  have hcontainer : ¬ ConfigValueType.object.IsScalar := by decide
  rw [laid, Grafting.graft_eq, tree_eq, RoseTree.children_node, relabel_container hcontainer]
  cases hlegible with
  | @node d children hcount htagged hset hkeyed hdistinct _ hbelow =>
      by_cases hobject : d.type = .object
      · have hbase := toJson_of_object children hobject
        rcases inOrder_laid hunique hmembers
          ⟨hkeyed (.inl hobject), hdistinct (.inl hobject), hbelow (.inl hobject)⟩
          (by rw [hbase]; rfl) hfits with ⟨horder, hresult⟩
        have htype := type_graftAll
          ((object entries).members.map fun m => m.2.tree isSigned (some m.1)) (.node d children)
        refine ⟨legible_graftAll_of_inOrder hcount htagged hset horder fun harray => ?_, ?_⟩
        · rw [hobject] at harray
          cases harray
        · rw [← RoseTree.node_eta (grafting.graftAll _ _),
            toJson_of_object _ (htype.trans hobject), hresult, hbase, kept, onto,
            entriesOnto_eq_foldl]
          rfl
      · by_cases harray : d.type = .array
        · have hclash : ¬ Clash (object entries).kept (toJson (.node d children)) :=
            hfits [] _ _ (by rw [find]) (by rw [find])
          rw [toJson_of_array children harray] at hclash
          exact absurd trivial hclash
        · have hleaf := legible_graftAll_of_leaf
            ((object entries).members.map fun m => m.2.tree isSigned (some m.1)) hobject harray
            hcount htagged hset
          rw [toJson_of_leaf children hobject harray, kept, (onto_toJson d _ []).1]
          exact hleaf

/-- An array goes over what a tree stands for when its elements do. -/
theorem laysOver_array {elements : List Json} (hunique : (array elements).UniqueKeys)
    (hmembers : ∀ m ∈ (array elements).members,
      m.2.NullFree ∧ m.2.UniqueKeys ∧ LaysOver isSigned m.2) :
    LaysOver isSigned (array elements) := by
  intro key config hlegible hfits
  have hcontainer : ¬ ConfigValueType.array.IsScalar := by decide
  rw [laid, Grafting.graft_eq, tree_eq, RoseTree.children_node, relabel_container hcontainer]
  cases hlegible with
  | @node d children hcount htagged hset hkeyed hdistinct hindices hbelow =>
      by_cases harray : d.type = .array
      · have hbase := toJson_of_array children harray
        have hnumbered := members_of_array (hindices harray)
        rcases inOrder_laid hunique hmembers
          ⟨hkeyed (.inr harray), hdistinct (.inr harray), hbelow (.inr harray)⟩
          (by rw [hbase, hnumbered]) hfits with ⟨horder, hresult⟩
        have htype := type_graftAll
          ((array elements).members.map fun m => m.2.tree isSigned (some m.1)) (.node d children)
        rw [← hnumbered, kept, ← members_elementsOnto] at hresult
        obtain ⟨hkeys, helements⟩ := horder.of_members_array hresult
        refine ⟨legible_graftAll_of_inOrder hcount htagged hset horder fun _ => hkeys, ?_⟩
        rw [← RoseTree.node_eta (grafting.graftAll _ _), toJson_of_array _ (htype.trans harray),
          helements, hbase, kept, onto]
      · by_cases hobject : d.type = .object
        · have hclash : ¬ Clash (array elements).kept (toJson (.node d children)) :=
            hfits [] _ _ (by rw [find]) (by rw [find])
          rw [toJson_of_object children hobject] at hclash
          exact absurd trivial hclash
        · have hleaf := legible_graftAll_of_leaf
            ((array elements).members.map fun m => m.2.tree isSigned (some m.1)) hobject harray
            hcount htagged hset
          rw [toJson_of_leaf children hobject harray, kept, (onto_toJson d [] _).2]
          exact hleaf

/-- **A document goes over what a tree stands for**, wherever no object meets an
array. -/
theorem laysOver (isSigned : Bool) {json : Json} (hfree : json.NullFree)
    (hunique : json.UniqueKeys) : LaysOver isSigned json := by
  induction json using Json.induct with
  | step json ih =>
      have hmembers : ∀ m ∈ json.members,
          m.2.NullFree ∧ m.2.UniqueKeys ∧ LaysOver isSigned m.2 := fun m hm =>
        ⟨hfree.member hm, hunique.within (.member hm (.self _)),
          ih m hm (hfree.member hm) (hunique.within (.member hm (.self _)))⟩
      have hscalar {type : ConfigValueType} (h : type = .boolean ∨ type = .real ∨ type = .int ∨
          type = .string) : type.IsScalar := by
        rcases h with rfl | rfl | rfl | rfl <;> decide
      cases json with
      | null => exact absurd rfl (hfree null (.self null))
      | boolean value =>
          exact laysOver_of_scalar (fun _ => hscalar (.inl rfl)) rfl fun _ _ _ => rfl
      | double value =>
          exact laysOver_of_scalar (fun _ => hscalar (.inr (.inl rfl))) rfl fun _ _ _ => rfl
      | int value =>
          exact laysOver_of_scalar (fun _ => hscalar (.inr (.inr (.inl rfl)))) rfl
            fun _ _ _ => rfl
      | string value =>
          exact laysOver_of_scalar (fun _ => hscalar (.inr (.inr (.inr rfl)))) rfl
            fun _ _ _ => rfl
      | object entries => exact laysOver_object hunique hmembers
      | array elements => exact laysOver_array hunique hmembers

/-! ## Whole documents -/

/-- What merging a document makes of the one that the tree stands for. Only the members
of an object are merged. -/
def mergedWith (base top : Json) : Json :=
  match top with
  | object _ => top.onto base
  | _ => base

/-- Each object fits what the documents before it leave. -/
def FitTogether : Json → List Json → Prop
  | _, [] => True
  | base, top :: tops =>
      (∀ entries, top = object entries → top.Fits base) ∧ FitTogether (mergedWith base top) tops

/-- A document that can be merged is an object, or has no members. -/
theorem Named.members_eq_nil (h : json.Named) (hobject : ∀ entries, json ≠ object entries) :
    json.members = [] := by
  cases json with
  | object entries => exact absurd rfl (hobject entries)
  | array elements =>
      cases elements with
      | nil => rfl
      | cons element elements =>
          have hroot : indexKey 0 = rootKey :=
            h.roots (indexKey 0, element) (by simp [members_array, indexed_cons])
          exact absurd hroot (by decide)
  | _ => rfl

/-- **One document is merged** as it goes over the document of the tree. -/
theorem toJson_grafted_loaded (isSigned : Bool) (hnamed : json.Named) (hfree : json.NullFree)
    (hunique : json.UniqueKeys) {config : Config} (hlegible : config.Legible)
    (hfits : ∀ entries, json.kept = object entries → json.kept.Fits config.toJson) :
    Legible (config.grafted (json.loaded isSigned)) ∧
      (config.grafted (json.loaded isSigned)).toJson = config.toJson.mergedWith json.kept := by
  have htop : (json.loaded isSigned).label.key ≠ some rootKey := by
    rw [loaded, label_tree, key_label]
    exact fun h => configKey_ne_rootKey (Option.some.inj h)
  rw [grafted, body_eq_self htop]
  by_cases hobject : ∃ entries, json = object entries
  · obtain ⟨entries, rfl⟩ := hobject
    have hcontainer : ¬ ConfigValueType.object.IsScalar := by decide
    have hlaid := laysOver isSigned hfree hunique (some configKey) config hlegible (hfits _ rfl)
    rw [laid, relabel_container hcontainer] at hlaid
    exact hlaid
  · have hmembers := hnamed.members_eq_nil fun entries heq => hobject ⟨entries, heq⟩
    have hbase : config.toJson.mergedWith json.kept = config.toJson := by
      cases json with
      | object entries => exact absurd ⟨entries, rfl⟩ hobject
      | _ => rfl
    rw [loaded, Grafting.graft_eq, tree_eq, RoseTree.children_node, hmembers, hbase]
    exact ⟨hlegible, rfl⟩

/-- **Documents are merged** one after the other. -/
theorem toJson_foldl_grafted {docs : List (Json × Bool)}
    (hdocs : ∀ d ∈ docs, d.1.Named ∧ d.1.NullFree ∧ d.1.UniqueKeys) {config : Config}
    (hlegible : config.Legible)
    (hfits : FitTogether config.toJson (docs.map fun d => d.1.kept)) :
    Legible ((docs.map fun d => d.1.loaded d.2).foldl grafted config) ∧
      toJson ((docs.map fun d => d.1.loaded d.2).foldl grafted config) =
        (docs.map fun d => d.1.kept).foldl mergedWith config.toJson := by
  induction docs generalizing config with
  | nil => exact ⟨hlegible, rfl⟩
  | cons d docs ih =>
      rcases hdocs d List.mem_cons_self with ⟨hnamed, hfree, hunique⟩
      have hone := toJson_grafted_loaded d.2 hnamed hfree hunique hlegible hfits.1
      have hrest := ih (fun d' hd' => hdocs d' (List.mem_cons_of_mem d hd')) hone.1
        (by rw [hone.2]; exact hfits.2)
      rw [List.map_cons, List.foldl_cons, List.map_cons, List.foldl_cons, ← hone.2]
      exact hrest

/-- The flag of the top is not dumped. -/
theorem legible_signedBy {config : Config} (h : config.Legible) (isSigned : Bool) :
    Legible (config.signedBy isSigned) ∧
      (config.signedBy isSigned).toJson = config.toJson := by
  cases h with
  | node hcount htagged hset hkeyed hdistinct hindices hbelow =>
      exact ⟨.node hcount htagged hset hkeyed hdistinct hindices hbelow, rfl⟩

theorem legible_freshRoot : freshRoot.Legible := intact_freshRoot.legible

end Json

end Samconf
