/-
# What loading a document computes

A document has members: those of an object under their names, those of an array
under their indices. Its tree has one node for the document and below it, in
order, the trees of the members. Without failing allocations a document is
loaded as that tree, unless some member of it is NULL; then the load is refused.

Read so, loading treats objects and arrays alike, and a property of every node
of a loaded tree comes down to one statement about a document and the names of
its members.
-/

import Samconf.Model.Json
import Samconf.Spec.Copy
import Samconf.Spec.Insert

namespace Samconf

open Foundation
open Exec (Yields Ensures Avoids)
open RoseTree (relabel addChild)

namespace Json

/-! ## Documents as trees -/

/-- The members of a document, each with the key its node gets. -/
def members : Json → List (CString × Json)
  | object entries => entries
  | array elements => elements.mapIdx fun idx element => (indexKey idx, element)
  | _ => []

/-- The label of the node that stands for a document. A NULL document leaves the
type as it was, which is OBJECT at the top of a tree. -/
def label (isSigned : Bool) (key : Option CString) : Json → NodeData
  | null => ⟨key, isSigned, .object, .zero, 0⟩
  | object entries => ⟨key, isSigned, .object, .zero, entries.length⟩
  | array elements => ⟨key, isSigned, .array, .zero, elements.length⟩
  | string value => ⟨key, isSigned, .string, .string (some (cutAtNul value)), 0⟩
  | int value => ⟨key, isSigned, .int, .integer (jsonGetInt value), 0⟩
  | boolean value => ⟨key, isSigned, .boolean, .boolean value, 0⟩
  | double value => ⟨key, isSigned, .real, .real value, 0⟩

mutual

/-- The tree of a document. -/
def tree (isSigned : Bool) : Json → Option CString → Config
  | object entries, key =>
      .node ((object entries).label isSigned key) (entryTrees isSigned entries)
  | array elements, key =>
      .node ((array elements).label isSigned key) (elementTrees isSigned 0 elements)
  | null, key => .node (null.label isSigned key) []
  | string value, key => .node ((string value).label isSigned key) []
  | int value, key => .node ((int value).label isSigned key) []
  | boolean value, key => .node ((boolean value).label isSigned key) []
  | double value, key => .node ((double value).label isSigned key) []

/-- The trees of the members of an object. -/
def entryTrees (isSigned : Bool) : List (CString × Json) → List Config
  | [] => []
  | (key, value) :: entries => tree isSigned value (some key) :: entryTrees isSigned entries

/-- The trees of the elements of an array from index `idx` on. -/
def elementTrees (isSigned : Bool) : ℕ → List Json → List Config
  | _, [] => []
  | idx, element :: elements =>
      tree isSigned element (some (indexKey idx)) :: elementTrees isSigned (idx + 1) elements

end

mutual

/-- No member is NULL, at any depth. -/
def complete : Json → Bool
  | object entries => completeEntries entries
  | array elements => completeElements elements
  | _ => true

/-- The members of an object are complete documents other than NULL. -/
def completeEntries : List (CString × Json) → Bool
  | [] => true
  | (_, value) :: entries => !value.isNull && complete value && completeEntries entries

/-- The elements of an array are complete documents other than NULL. -/
def completeElements : List Json → Bool
  | [] => true
  | element :: elements => !element.isNull && complete element && completeElements elements

end

/-- The document with one option, named below `root`. -/
def oneOption (key : CString) (value : Json) : Json := object [(rootKey, object [(key, value)])]

theorem sizeOf_lt_of_mem_members {json : Json} {m : CString × Json} (h : m ∈ json.members) :
    sizeOf m.2 < sizeOf json := by
  cases json with
  | object entries =>
      have hsize := List.sizeOf_lt_of_mem (show m ∈ entries from h)
      rcases m with ⟨key, value⟩
      simp only [Prod.mk.sizeOf_spec, object.sizeOf_spec] at hsize ⊢
      omega
  | array elements =>
      rw [members, List.mem_mapIdx] at h
      rcases h with ⟨idx, hidx, rfl⟩
      have hsize := List.sizeOf_lt_of_mem (List.getElem_mem hidx)
      simp only [array.sizeOf_spec]
      omega
  | _ => cases h

/-- The elements of an array are the values of its members. -/
theorem forall_elements {P : Json → Prop} {elements : List Json}
    (h : ∀ m ∈ members (.array elements), P m.2) : ∀ element ∈ elements, P element := by
  intro element hmem
  rcases List.getElem_of_mem hmem with ⟨idx, hidx, rfl⟩
  exact h (indexKey idx, elements[idx]) (List.mem_mapIdx.mpr ⟨idx, hidx, rfl⟩)

/-- Induction with one hypothesis for every member. -/
@[elab_as_elim]
theorem induct {motive : Json → Prop}
    (step : ∀ json, (∀ m ∈ json.members, motive m.2) → motive json) (json : Json) :
    motive json :=
  step json fun m _ => induct step m.2
termination_by sizeOf json
decreasing_by exact sizeOf_lt_of_mem_members ‹_›

theorem entryTrees_eq (isSigned : Bool) (entries : List (CString × Json)) :
    entryTrees isSigned entries = entries.map fun e => e.2.tree isSigned (some e.1) := by
  induction entries with
  | nil => rfl
  | cons e entries ih => simp [entryTrees, ih]

theorem elementTrees_eq (isSigned : Bool) (idx : ℕ) (elements : List Json) :
    elementTrees isSigned idx elements =
      elements.mapIdx fun i element => element.tree isSigned (some (indexKey (idx + i))) := by
  induction elements generalizing idx with
  | nil => rfl
  | cons element elements ih =>
      simp [elementTrees, ih, List.mapIdx_cons, Nat.add_assoc, Nat.add_comm 1]

/-- **The tree of a document** is its node over the trees of its members. -/
theorem tree_eq (isSigned : Bool) (json : Json) (key : Option CString) :
    json.tree isSigned key =
      .node (json.label isSigned key)
        (json.members.map fun m => m.2.tree isSigned (some m.1)) := by
  cases json with
  | object entries => simp [tree, members, entryTrees_eq]
  | array elements =>
      rw [tree, members, elementTrees_eq, RoseTree.node.injEq]
      exact ⟨rfl, List.ext_getElem (by simp) (by simp)⟩
  | _ => rfl

@[simp]
theorem label_tree (isSigned : Bool) (json : Json) (key : Option CString) :
    (json.tree isSigned key).label = json.label isSigned key := by
  rw [tree_eq, RoseTree.label_node]

@[simp]
theorem key_label (isSigned : Bool) (json : Json) (key : Option CString) :
    (json.label isSigned key).key = key := by
  cases json <;> rfl

@[simp]
theorem isSigned_label (isSigned : Bool) (json : Json) (key : Option CString) :
    (json.label isSigned key).isSigned = isSigned := by
  cases json <;> rfl

theorem childCount_label (isSigned : Bool) (json : Json) (key : Option CString) :
    (json.label isSigned key).childCount = json.members.length := by
  cases json <;> simp [label, members]

theorem tagged_label (isSigned : Bool) (json : Json) (key : Option CString) :
    (json.label isSigned key).Tagged := by
  cases json <;> trivial

theorem stringSet_label (isSigned : Bool) (json : Json) (key : Option CString) :
    (json.label isSigned key).StringSet := by
  intro htype
  cases json <;> simp [label, NodeData.content, Value.read] at htype ⊢

/-- The keys of the children of a document's node. -/
theorem childKeys_tree (isSigned : Bool) (json : Json) (key : Option CString) :
    (json.tree isSigned key).children.map (fun c => c.label.key) =
      json.members.map fun m => some m.1 := by
  rw [tree_eq, RoseTree.children_node, List.map_map]
  apply List.map_congr_left
  simp

/-- Renaming the top of a document's tree. -/
theorem relabel_tree (isSigned : Bool) (json : Json) (key key' : Option CString) :
    relabel (fun d => { d with key := key' }) (json.tree isSigned key) =
      json.tree isSigned key' := by
  rw [tree_eq, tree_eq]
  cases json <;> rfl

/-! ## Properties of all nodes -/

/-- A document that occurs in another, or is the other. -/
inductive Within : Json → Json → Prop
  | self (json : Json) : Within json json
  | member {sub json : Json} {m : CString × Json} (hm : m ∈ json.members) (h : Within sub m.2) :
      Within sub json

/-- A property of all nodes of a document's tree is a property of the document's
node and of the nodes of its members' trees. -/
theorem everywhere_tree {Q : NodeData → List (Option CString) → Prop} {isSigned : Bool}
    {json : Json} {key : Option CString} :
    Config.Everywhere Q (json.tree isSigned key) ↔
      Q (json.label isSigned key) (json.members.map fun m => some m.1) ∧
        ∀ m ∈ json.members, Config.Everywhere Q (m.2.tree isSigned (some m.1)) := by
  have hkeys := childKeys_tree isSigned json key
  rw [tree_eq, RoseTree.children_node] at hkeys
  rw [tree_eq, Config.Everywhere, RoseTree.everywhere_node, hkeys, List.forall_mem_map]

/-- What holds of every document that occurs holds of every node. -/
theorem everywhere_tree_of_within {Q : NodeData → List (Option CString) → Prop}
    {isSigned : Bool} {json : Json} {key : Option CString}
    (hQ : ∀ sub key, Within sub json →
      Q (sub.label isSigned key) (sub.members.map fun m => some m.1)) :
    Config.Everywhere Q (json.tree isSigned key) := by
  induction json using Json.induct generalizing key with
  | step json ih =>
      exact everywhere_tree.mpr ⟨hQ json key (.self json), fun m hm =>
        ih m hm fun sub key hsub => hQ sub key (.member hm hsub)⟩

variable (isSigned : Bool) (json : Json) (key : Option CString)

theorem counted_tree : (json.tree isSigned key).Counted :=
  everywhere_tree_of_within fun sub key _ => by simp [childCount_label]

theorem tagged_tree : (json.tree isSigned key).Tagged :=
  everywhere_tree_of_within fun sub key _ => tagged_label isSigned sub key

theorem keyed_tree : (json.tree isSigned key).Keyed :=
  everywhere_tree_of_within fun sub key _ => by simp

theorem sound_tree : (json.tree isSigned key).Sound :=
  ⟨counted_tree isSigned json key, keyed_tree isSigned json key⟩

/-! ## Keys -/

variable {json}

theorem indexKey_injective : Function.Injective indexKey := by
  intro i j h
  have hdigits : Nat.toDigits 10 i = Nat.toDigits 10 j := h
  have hvalue := congrArg (fun digits => Nat.ofDigitChars 10 digits 0) hdigits
  simpa [Nat.ofDigitChars_ten_toDigits] using hvalue

/-- The options of a document can be named by paths below `root`: its members are
named `root`, and the names below are non-empty, without slashes and other than
`root`. -/
structure Named (json : Json) : Prop where
  roots : ∀ m ∈ json.members, m.1 = rootKey
  below : ∀ m ∈ json.members, ∀ sub, Within sub m.2 → ∀ n ∈ sub.members,
    IsPathKey n.1 ∧ n.1 ≠ rootKey

/-- Within an object the names are unique. json-c keeps the members of an object
in a hash table, where adding a name again replaces the member. -/
def UniqueKeys (json : Json) : Prop :=
  ∀ entries, Within (object entries) json → (entries.map Prod.fst).Nodup

theorem uniqueKeys_iff : json.UniqueKeys ↔
    (∀ entries, json = object entries → (entries.map Prod.fst).Nodup) ∧
      ∀ m ∈ json.members, m.2.UniqueKeys := by
  constructor
  · intro h
    refine ⟨fun entries heq => h entries (heq ▸ .self _), fun m hm entries hentries => ?_⟩
    exact h entries (.member hm hentries)
  · rintro ⟨hself, hmembers⟩ entries hentries
    cases hentries with
    | self => exact hself entries rfl
    | member hm h => exact hmembers _ hm entries h

/-- A document without members has unique keys. -/
theorem uniqueKeys_of_members_eq_nil (h : json.members = []) : json.UniqueKeys := by
  refine uniqueKeys_iff.mpr ⟨?_, by simp [h]⟩
  rintro entries rfl
  obtain rfl : entries = [] := h
  exact List.nodup_nil

theorem uniqueKeys_object_singleton (key : CString) {value : Json} (h : value.UniqueKeys) :
    (object [(key, value)]).UniqueKeys := by
  refine uniqueKeys_iff.mpr ⟨?_, by simpa [members] using h⟩
  rintro entries heq
  cases heq
  simp

theorem uniqueKeys_oneOption {key : CString} {value : Json} (h : value.UniqueKeys) :
    (oneOption key value).UniqueKeys :=
  uniqueKeys_object_singleton rootKey (uniqueKeys_object_singleton key h)

/-- A document with one option without members of its own, under a plain key. -/
theorem named_oneOption {key : CString} {value : Json} (hpath : IsPathKey key)
    (hroot : key ≠ rootKey) (hvalue : value.members = []) : (oneOption key value).Named where
  roots := by simp [oneOption, members]
  below := by
    intro m hm sub hsub n hn
    obtain rfl : m = (rootKey, object [(key, value)]) := by
      simpa [oneOption, members] using hm
    cases hsub with
    | self =>
        obtain rfl : n = (key, value) := by simpa [members] using hn
        exact ⟨hpath, hroot⟩
    | member hm' hsub =>
        obtain rfl : _ = (key, value) := by simpa [members] using hm'
        cases hsub with
        | self => simp [hvalue] at hn
        | member hm'' _ => simp [hvalue] at hm''

/-- Indices are unique anyway. -/
theorem UniqueKeys.nodup_members (h : json.UniqueKeys) : (json.members.map Prod.fst).Nodup := by
  cases json with
  | object entries => exact h entries (.self _)
  | array elements =>
      have hkeys : (array elements).members.map Prod.fst =
          (List.range elements.length).map indexKey := by
        apply List.ext_getElem
        · simp [members]
        · simp [members]
      rw [hkeys]
      exact List.nodup_range.map indexKey_injective
  | _ => exact List.nodup_nil

theorem Within.trans {sub mid json : Json} (hsub : Within sub mid) (hmid : Within mid json) :
    Within sub json := by
  induction hmid with
  | self => exact hsub
  | member hm _ ih => exact .member hm ih

theorem UniqueKeys.within {sub : Json} (h : json.UniqueKeys) (hsub : Within sub json) :
    sub.UniqueKeys :=
  fun entries hentries => h entries (hentries.trans hsub)

theorem distinct_tree (isSigned : Bool) (h : json.UniqueKeys) (key : Option CString) :
    (json.tree isSigned key).Distinct :=
  everywhere_tree_of_within fun sub key hsub => by
    have hnodup := (h.within hsub).nodup_members
    have hkeys : (sub.members.map fun m => some m.1) = (sub.members.map Prod.fst).map some := by
      simp
    rw [hkeys]
    exact hnodup.map fun _ _ heq => Option.some.inj heq

/-- A tree whose options are named by paths below `root` can be merged. -/
theorem Named.mergeable (hnamed : json.Named) (hunique : json.UniqueKeys) (isSigned : Bool)
    {top : CString} (htop : top ≠ rootKey) : (json.tree isSigned (some top)).Mergeable where
  counted := counted_tree isSigned json (some top)
  tagged := tagged_tree isSigned json (some top)
  distinct := distinct_tree isSigned hunique (some top)
  stringsSet := everywhere_tree_of_within fun sub key _ => stringSet_label isSigned sub key
  pathKeyed := by
    have hroot : IsPathKey rootKey := by decide
    refine everywhere_tree.mpr ⟨?_, fun m hm => everywhere_tree_of_within fun sub key hsub => ?_⟩
    · intro k hk
      obtain ⟨m, hm, rfl⟩ := List.mem_map.mp hk
      exact ⟨m.1, rfl, hnamed.roots m hm ▸ hroot⟩
    · intro k hk
      obtain ⟨n, hn, rfl⟩ := List.mem_map.mp hk
      exact ⟨n.1, rfl, (hnamed.below m hm sub hsub n hn).1⟩
  rootPlaced := by
    right
    refine ⟨by simpa using htop, fun c hc => ?_⟩
    rw [tree_eq, RoseTree.children_node] at hc
    obtain ⟨m, hm, rfl⟩ := List.mem_map.mp hc
    refine ⟨by simp [hnamed.roots m hm], everywhere_tree_of_within fun sub key hsub hmem => ?_⟩
    obtain ⟨n, hn, heq⟩ := List.mem_map.mp hmem
    exact (hnamed.below m hm sub hsub n hn).2 (Option.some.inj heq)

end Json

/-! ## Loading -/

/-- A document is loaded into a node that has nothing but a key as its tree. -/
def Loads (isSigned : Bool) (json : Json) : Prop :=
  ∀ key flag type, (json.isNull = true → type = .object) →
    (transformJsonToConfig isSigned json (.node ⟨key, flag, type, .zero, 0⟩ [])).Yields
      (.ok, json.tree isSigned key)

/-- A document is refused, and what there is of its tree can be released. -/
def Refuses (isSigned : Bool) (json : Json) : Prop :=
  ∀ key flag type, ∃ config : Config,
    (transformJsonToConfig isSigned json (.node ⟨key, flag, type, .zero, 0⟩ [])).Yields
      (.parseError, config) ∧ config.Counted ∧ config.Tagged

section Members

variable {isSigned : Bool}

theorem transformEntries_yields {entries : List (CString × Json)} {d : NodeData} {cs : List Config}
    (hentries : Json.completeEntries entries = true)
    (hloads : ∀ e ∈ entries, e.2.complete = true → Loads isSigned e.2)
    (hcount : d.childCount = cs.length) :
    (transformEntries isSigned entries (.node d cs)).Yields
      (.ok, .node { d with childCount := d.childCount + entries.length }
        (cs ++ Json.entryTrees isSigned entries)) := by
  induction entries generalizing d cs with
  | nil => simpa [transformEntries, Json.entryTrees] using Exec.yields_pure _
  | cons e entries ih =>
      rcases e with ⟨key, value⟩
      simp only [Json.completeEntries, Bool.and_eq_true, Bool.not_eq_true'] at hentries
      obtain ⟨⟨hnull, hvalue⟩, hentries⟩ := hentries
      have hload := hloads (key, value) List.mem_cons_self hvalue (some key) false .none
        fun h => by rw [hnull] at h; cases h
      have hrest := @ih d.bump (cs ++ [value.tree isSigned (some key)]) hentries
        (fun e he => hloads e (List.mem_cons_of_mem _ he)) (by simp [NodeData.bump, hcount])
      rw [transformEntries, hnull]
      apply samconfConfigNew_yields.bind
      apply (Exec.yields_allocFor key).bind
      apply hload.bind
      simp only [ne_eq, not_true_eq_false, if_false]
      apply (@samconfConfigAdd_yields (.node d cs) _ hcount).bind
      simp only [not_true_eq_false, if_false]
      simpa [addChild, NodeData.bump, Json.entryTrees, Nat.add_assoc, Nat.add_comm 1] using hrest

theorem transformElements_yields {elements : List Json} {idx : ℕ} {d : NodeData}
    {cs : List Config} (helements : Json.completeElements elements = true)
    (hloads : ∀ element ∈ elements, element.complete = true → Loads isSigned element)
    (hcount : d.childCount = cs.length) :
    (transformElements isSigned idx elements (.node d cs)).Yields
      (.ok, .node { d with childCount := d.childCount + elements.length }
        (cs ++ Json.elementTrees isSigned idx elements)) := by
  induction elements generalizing idx d cs with
  | nil => simpa [transformElements, Json.elementTrees] using Exec.yields_pure _
  | cons element elements ih =>
      simp only [Json.completeElements, Bool.and_eq_true, Bool.not_eq_true'] at helements
      obtain ⟨⟨hnull, helement⟩, helements⟩ := helements
      have hload := hloads element List.mem_cons_self helement none false .none
        fun h => by rw [hnull] at h; cases h
      have hrest := @ih (idx + 1) d.bump
        (cs ++ [element.tree isSigned (some (indexKey idx))]) helements
        (fun e he => hloads e (List.mem_cons_of_mem _ he)) (by simp [NodeData.bump, hcount])
      rw [transformElements, hnull]
      apply samconfConfigNew_yields.bind
      apply hload.bind
      simp only [ne_eq, not_true_eq_false, if_false]
      apply (@samconfConfigAdd_yields (.node d cs) _ hcount).bind
      simp only [not_true_eq_false, if_false]
      apply (Exec.yields_allocFor (indexKey idx)).bind
      -- the child gets its key where it is linked
      have hkey : (addChild NodeData.bump (element.tree isSigned none) (.node d cs)).modify
            (relabel fun d => { d with key := some (indexKey idx) }) [cs.length] =
          addChild NodeData.bump (element.tree isSigned (some (indexKey idx))) (.node d cs) := by
        have hlast := @RoseTree.modify_addChild_last _ NodeData.bump
          (relabel fun d => { d with key := some (indexKey idx) }) (element.tree isSigned none)
          (.node d cs)
        rwa [Json.relabel_tree] at hlast
      rw [deref_some, Exec.pure_bind, RoseTree.children_node, hkey]
      simpa [addChild, NodeData.bump, Json.elementTrees, Nat.add_assoc, Nat.add_comm 1] using hrest

/-- A child that was not linked is released, and the status is handed on. -/
theorem dropChild_yields {child config : Config} {result : ConfigStatus}
    (hcounted : child.Counted) (htagged : child.Tagged) :
    (dropChild child result config).Yields (result, config) := by
  rw [dropChild, samconfConfigDelete_eq hcounted htagged, Exec.lift_ok_bind]
  exact Exec.yields_pure _

/-- A tree with right counts and fitting unions. -/
theorem counted_addChild {config child : Config} (hconfig : config.Counted)
    (hchild : child.Counted) : Config.Counted (addChild NodeData.bump child config) := by
  apply hconfig.addChild hchild
  have hcount := hconfig.self
  simp [NodeData.bump, hcount]

theorem tagged_addChild {config child : Config} (hconfig : config.Tagged)
    (hchild : child.Tagged) : Config.Tagged (addChild NodeData.bump child config) :=
  hconfig.addChild hchild hconfig.self

theorem transformEntries_refuses {entries : List (CString × Json)} {config : Config}
    (hentries : Json.completeEntries entries = false)
    (hloads : ∀ e ∈ entries, e.2.complete = true → Loads isSigned e.2)
    (hrefuses : ∀ e ∈ entries, e.2.complete = false → Refuses isSigned e.2)
    (hcounted : config.Counted) (htagged : config.Tagged) :
    ∃ config' : Config, (transformEntries isSigned entries config).Yields
      (.parseError, config') ∧ config'.Counted ∧ config'.Tagged := by
  induction entries generalizing config with
  | nil => cases hentries
  | cons e entries ih =>
      rcases e with ⟨key, value⟩
      cases hnull : value.isNull with
      | true =>
          refine ⟨config, ?_, hcounted, htagged⟩
          simpa [transformEntries, hnull] using Exec.yields_pure _
      | false =>
          simp only [transformEntries, hnull, Bool.false_eq_true, if_false]
          cases hvalue : value.complete with
          | false =>
              rcases hrefuses (key, value) List.mem_cons_self hvalue (some key) false .none with
                ⟨sub, hsub, hsubCounted, hsubTagged⟩
              refine ⟨config, ?_, hcounted, htagged⟩
              apply samconfConfigNew_yields.bind
              apply (Exec.yields_allocFor key).bind
              apply hsub.bind
              simpa using dropChild_yields hsubCounted hsubTagged
          | true =>
              have hload := hloads (key, value) List.mem_cons_self hvalue (some key) false .none
                fun h => by rw [hnull] at h; cases h
              have hrest : Json.completeEntries entries = false := by
                simpa [Json.completeEntries, hnull, hvalue] using hentries
              have hcount : config.label.childCount = config.children.length := by
                simpa using hcounted.self
              rcases ih hrest (fun e he => hloads e (List.mem_cons_of_mem _ he))
                (fun e he => hrefuses e (List.mem_cons_of_mem _ he))
                (counted_addChild hcounted (Json.counted_tree isSigned value (some key)))
                (tagged_addChild htagged (Json.tagged_tree isSigned value (some key)))
                with ⟨config', hyields, hkept⟩
              refine ⟨config', ?_, hkept⟩
              apply samconfConfigNew_yields.bind
              apply (Exec.yields_allocFor key).bind
              apply hload.bind
              simp only [ne_eq, not_true_eq_false, if_false]
              apply (samconfConfigAdd_yields hcount).bind
              simpa using hyields

theorem transformElements_refuses {elements : List Json} {idx : ℕ} {config : Config}
    (helements : Json.completeElements elements = false)
    (hloads : ∀ element ∈ elements, element.complete = true → Loads isSigned element)
    (hrefuses : ∀ element ∈ elements, element.complete = false → Refuses isSigned element)
    (hcounted : config.Counted) (htagged : config.Tagged) :
    ∃ config' : Config, (transformElements isSigned idx elements config).Yields
      (.parseError, config') ∧ config'.Counted ∧ config'.Tagged := by
  induction elements generalizing idx config with
  | nil => cases helements
  | cons element elements ih =>
      cases hnull : element.isNull with
      | true =>
          refine ⟨config, ?_, hcounted, htagged⟩
          simpa [transformElements, hnull] using Exec.yields_pure _
      | false =>
          simp only [transformElements, hnull, Bool.false_eq_true, if_false]
          cases helement : element.complete with
          | false =>
              rcases hrefuses element List.mem_cons_self helement none false .none with
                ⟨sub, hsub, hsubCounted, hsubTagged⟩
              refine ⟨config, ?_, hcounted, htagged⟩
              apply samconfConfigNew_yields.bind
              apply hsub.bind
              simpa using dropChild_yields hsubCounted hsubTagged
          | true =>
              have hload := hloads element List.mem_cons_self helement none false .none
                fun h => by rw [hnull] at h; cases h
              have hrest : Json.completeElements elements = false := by
                simpa [Json.completeElements, hnull, helement] using helements
              have hcount : config.label.childCount = config.children.length := by
                simpa using hcounted.self
              -- the child gets its key where it is linked
              have hkey := @RoseTree.modify_addChild_last _ NodeData.bump
                (relabel fun d => { d with key := some (indexKey idx) })
                (element.tree isSigned none) config
              rw [Json.relabel_tree] at hkey
              rcases @ih (idx + 1) _ hrest (fun e he => hloads e (List.mem_cons_of_mem _ he))
                (fun e he => hrefuses e (List.mem_cons_of_mem _ he))
                (counted_addChild hcounted
                  (Json.counted_tree isSigned element (some (indexKey idx))))
                (tagged_addChild htagged
                  (Json.tagged_tree isSigned element (some (indexKey idx))))
                with ⟨config', hyields, hkept⟩
              refine ⟨config', ?_, hkept⟩
              apply samconfConfigNew_yields.bind
              apply hload.bind
              simp only [ne_eq, not_true_eq_false, if_false]
              apply (samconfConfigAdd_yields hcount).bind
              simp only [not_true_eq_false, if_false]
              apply (Exec.yields_allocFor (indexKey idx)).bind
              rw [deref_some, Exec.pure_bind, hkey]
              exact hyields

end Members

/-- A complete document is loaded as its tree. -/
theorem loads_of_complete (isSigned : Bool) {json : Json} (h : json.complete = true) :
    Loads isSigned json := by
  induction json using Json.induct with
  | step json ih =>
      intro key flag type htype
      cases json with
      | null =>
          obtain rfl := htype rfl
          exact Exec.yields_pure _
      | boolean value => exact setValue_yields (Value.fits_zero _)
      | double value => exact setValue_yields (Value.fits_zero _)
      | int value => exact setValue_yields (Value.fits_zero _)
      | string value => exact samconfConfigSetString_yields (cutAtNul value) (Value.fits_zero _)
      | object entries =>
          have hentries := @transformEntries_yields isSigned entries
            ⟨key, isSigned, .object, .zero, 0⟩ [] h (fun e he => ih e he) rfl
          simpa [transformJsonToConfig, relabel, Json.tree, Json.label] using hentries
      | array elements =>
          have hloads : ∀ element ∈ elements, element.complete = true → Loads isSigned element :=
            Json.forall_elements ih
          have helements := @transformElements_yields isSigned elements 0
            ⟨key, isSigned, .array, .zero, 0⟩ [] h hloads rfl
          simpa [transformJsonToConfig, relabel, Json.tree, Json.label] using helements

/-- An incomplete document is refused. -/
theorem refuses_of_not_complete (isSigned : Bool) {json : Json} (h : json.complete = false) :
    Refuses isSigned json := by
  induction json using Json.induct with
  | step json ih =>
      intro key flag type
      have hempty (type : ConfigValueType) :
          Config.Counted (.node ⟨key, isSigned, type, .zero, 0⟩ []) ∧
            Config.Tagged (.node ⟨key, isSigned, type, .zero, 0⟩ []) :=
        ⟨RoseTree.everywhere_node.mpr ⟨rfl, by simp⟩,
          RoseTree.everywhere_node.mpr ⟨Value.fits_zero _, by simp⟩⟩
      cases json with
      | object entries =>
          exact transformEntries_refuses h (fun e _ he => loads_of_complete isSigned he)
            (fun e he => ih e he) (hempty .object).1 (hempty .object).2
      | array elements =>
          exact transformElements_refuses h (fun element _ he => loads_of_complete isSigned he)
            (Json.forall_elements ih) (hempty .array).1 (hempty .array).2
      | _ => cases h

/-- The key of the top of every tree loaded from a document. -/
def configKey : CString := "config".toList

/-- The tree that a document is loaded as. -/
def Json.loaded (isSigned : Bool) (json : Json) : Config := json.tree isSigned (some configKey)

theorem configKey_ne_rootKey : configKey ≠ rootKey := by decide

theorem samconfJsonBackendLoad_of_transform {json : Json} {isSigned : Bool}
    {result : ConfigStatus} {tree : Config}
    (h : (transformJsonToConfig isSigned json
      (.node ⟨some configKey, false, .object, .zero, 0⟩ [])).Yields (result, tree)) :
    (samconfJsonBackendLoad json isSigned).Yields (result, some tree) := by
  rw [samconfJsonBackendLoad]
  apply samconfConfigNew_yields.bind
  apply (Exec.yields_allocFor configKey).bind
  apply h.bind
  exact Exec.yields_pure _

/-- Without failing allocations a document without a NULL is loaded as its tree. -/
theorem samconfJsonBackendLoad_of_complete {json : Json} (isSigned : Bool)
    (h : json.complete = true) :
    (samconfJsonBackendLoad json isSigned).Yields (.ok, some (json.loaded isSigned)) :=
  samconfJsonBackendLoad_of_transform
    (loads_of_complete isSigned h (some configKey) false .object fun _ => rfl)

/-- One with a NULL is refused. -/
theorem samconfJsonBackendLoad_of_not_complete {json : Json} (isSigned : Bool)
    (h : json.complete = false) :
    ∃ partly, (samconfJsonBackendLoad json isSigned).Yields (.parseError, some partly) := by
  rcases refuses_of_not_complete isSigned h (some configKey) false .object with
    ⟨partly, hpartly, -⟩
  exact ⟨partly, samconfJsonBackendLoad_of_transform hpartly⟩

/-- **Loading.** Without failing allocations a document is loaded, as its tree,
exactly when no member of it is NULL. -/
theorem samconfJsonBackendLoad_yields_iff {json : Json} {isSigned : Bool} {config : Config} :
    (samconfJsonBackendLoad json isSigned).Yields (.ok, some config) ↔
      json.complete = true ∧ config = json.loaded isSigned := by
  cases hcomplete : json.complete with
  | true =>
      have hyields := samconfJsonBackendLoad_of_complete isSigned hcomplete
      constructor
      · intro h
        have hsame := h.unique hyields
        cases hsame
        exact ⟨rfl, rfl⟩
      · rintro ⟨-, rfl⟩
        exact hyields
  | false =>
      rcases samconfJsonBackendLoad_of_not_complete isSigned hcomplete with ⟨partly, hyields⟩
      constructor
      · intro h
        have hsame := h.unique hyields
        cases hsame
      · rintro ⟨h, -⟩
        cases h

theorem samconfJsonBackendLoad_settles (json : Json) (isSigned : Bool) :
    (samconfJsonBackendLoad json isSigned).Settles := by
  cases hcomplete : json.complete with
  | true => exact (samconfJsonBackendLoad_of_complete isSigned hcomplete).settles
  | false =>
      rcases samconfJsonBackendLoad_of_not_complete isSigned hcomplete with ⟨partly, hyields⟩
      exact hyields.settles

end Samconf
