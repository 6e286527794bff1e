/-
# Loading documents when allocations fail

A load that says OK has loaded everything, with one exception: the copies of the
keys are not checked, so the key of any node but an array's element may be NULL.
Dumping such a tree reads a NULL key, or gives the document all the same.
-/

import Samconf.Spec.Document

namespace Samconf

open Foundation
open Exec (Ensures)
open RoseTree (relabel addChild Pointwise)

/-- The second label is the first, or the first without its key. -/
def MayLackKey (d d' : NodeData) : Prop := d' = d ∨ d' = { d with key := none }

/-- The second tree is the first, or the first with some keys missing. -/
abbrev MayLackKeys (config config' : Config) : Prop := Pointwise MayLackKey config config'

/-- A label under the key that was meant for it, or under none. -/
theorem mayLackKey_label {isSigned : Bool} {json : Json} {key key' : Option CString}
    (h : key' = key ∨ key' = none) :
    MayLackKey (json.label isSigned key) (json.label isSigned key') := by
  rcases h with rfl | rfl
  · exact .inl rfl
  · right
    cases json <;> rfl

theorem samconfConfigSetString_ensures_ok (config : Config) (s : CString) :
    (samconfConfigSetString config (some s)).Ensures fun r =>
      r.1 = .ok → r.2 = relabel (fun d => { d with value := .string (some s), type := .string })
        config := by
  refine (Exec.ensures_true _).bind fun _ _ => ?_
  apply (Exec.ensures_allocFor s).bind
  rintro copy (rfl | rfl)
  · exact Exec.ensures_pure fun hok => by cases hok
  · refine Exec.ensures_pure fun _ => ?_
    cases config
    rfl

theorem setValue_ensures (type : ConfigValueType) (value : Value) (config : Config) :
    (setValue type value config).Ensures fun r =>
      r.1 = .ok → r.2 = relabel (fun d => { d with value := value, type := type }) config :=
  (Exec.ensures_true _).bind fun _ _ => Exec.ensures_pure fun _ => rfl

/-- What goes on only with OK. -/
theorem unlessDropped_ensures {child config : Config} {result : ConfigStatus}
    {x : Run (ConfigStatus × Config)} {P : ConfigStatus × Config → Prop}
    (h : result = .ok → x.Ensures fun r => r.1 = .ok → P r) :
    (if result ≠ .ok then dropChild child result config else x).Ensures fun r =>
      r.1 = .ok → P r := by
  by_cases hok : result = .ok
  · rw [if_neg (not_not.mpr hok)]
    exact h hok
  · rw [if_pos hok]
    exact (Exec.ensures_true _).bind fun _ _ => Exec.ensures_pure fun heq => absurd heq hok

/-! ## Loading -/

/-- Whichever allocations fail, a load into a fresh node that says OK gives the tree
of the document, up to missing keys. -/
def LoadsOrFails (isSigned : Bool) (json : Json) : Prop :=
  ∀ key key' flag type, json.isNull = false → (key' = key ∨ key' = none) →
    (transformJsonToConfig isSigned json (.node ⟨key', flag, type, .zero, 0⟩ [])).Ensures
      fun r => r.1 = .ok → MayLackKeys (json.tree isSigned key) r.2

/-- A tree without a key on its top, once the key is there. -/
theorem MayLackKeys.setKey {isSigned : Bool} {json : Json} {config : Config} (key : CString)
    (h : MayLackKeys (json.tree isSigned none) config) :
    MayLackKeys (json.tree isSigned (some key))
      (relabel (fun d => { d with key := some key }) config) := by
  cases config with
  | node d cs =>
      rw [MayLackKeys, Json.tree_eq, RoseTree.pointwise_node] at h
      rw [MayLackKeys, Json.tree_eq, relabel, RoseTree.pointwise_node]
      refine ⟨.inl ?_, h.2⟩
      rcases h.1 with rfl | rfl <;> cases json <;> rfl

section Members

variable {isSigned : Bool}

theorem transformEntries_ensures {entries : List (CString × Json)}
    (hloads : ∀ e ∈ entries, LoadsOrFails isSigned e.2) (d : NodeData) (cs : List Config) :
    (transformEntries isSigned entries (.node d cs)).Ensures fun r => r.1 = .ok →
      ∃ new, List.Forall₂ MayLackKeys
          (entries.map fun e => e.2.tree isSigned (some e.1)) new ∧
        r.2 = .node { d with childCount := d.childCount + entries.length } (cs ++ new) := by
  induction entries generalizing d cs with
  | nil => exact Exec.ensures_pure fun _ => ⟨[], .nil, by simp⟩
  | cons e entries ih =>
      rcases e with ⟨key, value⟩
      cases hnull : value.isNull with
      | true =>
          simp only [transformEntries, hnull, if_true]
          exact Exec.ensures_pure fun hok => by cases hok
      | false =>
          have hload := hloads (key, value) List.mem_cons_self
          simp only [transformEntries, hnull, Bool.false_eq_true, if_false]
          apply samconfConfigNew_ensures.bind
          rintro created (rfl | rfl)
          · exact Exec.ensures_pure fun hok => by cases hok
          apply (Exec.ensures_allocFor key).bind
          intro copy hcopy
          apply (hload (some key) copy false .none hnull hcopy.symm).bind
          rintro ⟨result, subconfig⟩ hsub
          refine unlessDropped_ensures fun hok => ?_
          apply (samconfConfigAdd_ensures (.node d cs) subconfig).bind
          rintro ⟨result, config⟩ hadd
          refine unlessDropped_ensures fun hadded => ?_
          obtain rfl := hadd hadded
          refine (ih (fun e he => hloads e (List.mem_cons_of_mem _ he)) d.bump
            (cs ++ [subconfig])).mono fun r hr hok' => ?_
          rcases hr hok' with ⟨new, hnew, htree⟩
          refine ⟨subconfig :: new, .cons (hsub hok) hnew, htree.trans ?_⟩
          simp [NodeData.bump, Nat.add_assoc, Nat.add_comm 1]

theorem transformElements_ensures {elements : List Json} {idx : ℕ}
    (hloads : ∀ element ∈ elements, LoadsOrFails isSigned element) (d : NodeData)
    (cs : List Config) :
    (transformElements isSigned idx elements (.node d cs)).Ensures fun r => r.1 = .ok →
      ∃ new, List.Forall₂ MayLackKeys
          (elements.mapIdx fun i element => element.tree isSigned (some (indexKey (idx + i)))) new ∧
        r.2 = .node { d with childCount := d.childCount + elements.length } (cs ++ new) := by
  induction elements generalizing idx d cs with
  | nil => exact Exec.ensures_pure fun _ => ⟨[], .nil, by simp⟩
  | cons element elements ih =>
      cases hnull : element.isNull with
      | true =>
          simp only [transformElements, hnull, if_true]
          exact Exec.ensures_pure fun hok => by cases hok
      | false =>
          have hload := hloads element List.mem_cons_self
          simp only [transformElements, hnull, Bool.false_eq_true, if_false]
          apply samconfConfigNew_ensures.bind
          rintro created (rfl | rfl)
          · exact Exec.ensures_pure fun hok => by cases hok
          apply (hload none none false .none hnull (.inl rfl)).bind
          rintro ⟨result, subconfig⟩ hsub
          refine unlessDropped_ensures fun hok => ?_
          apply (samconfConfigAdd_ensures (.node d cs) subconfig).bind
          rintro ⟨result, config⟩ hadd
          refine unlessDropped_ensures fun hadded => ?_
          obtain rfl := hadd hadded
          apply (Exec.ensures_allocFor (indexKey idx)).bind
          rintro copy (rfl | rfl)
          · exact Exec.ensures_fault _
          -- the child gets its key where it is linked
          have hkey := @RoseTree.modify_addChild_last _ NodeData.bump
            (relabel fun d => { d with key := some (indexKey idx) }) subconfig (.node d cs)
          simp only [deref_some, Exec.pure_bind, hkey]
          let linked : Config := relabel (fun d => { d with key := some (indexKey idx) }) subconfig
          refine (@ih (idx + 1) (fun e he => hloads e (List.mem_cons_of_mem _ he)) d.bump
            (cs ++ [linked])).mono fun r hr hok' => ?_
          rcases hr hok' with ⟨new, hnew, htree⟩
          refine ⟨linked :: new, ?_, htree.trans ?_⟩
          · rw [List.mapIdx_cons]
            refine .cons (MayLackKeys.setKey (indexKey idx) (hsub hok)) ?_
            simpa [Nat.add_assoc, Nat.add_comm 1] using hnew
          · simp [NodeData.bump, Nat.add_assoc, Nat.add_comm 1]

end Members

/-- **Loading on any supply.** -/
theorem loadsOrFails (isSigned : Bool) (json : Json) : LoadsOrFails isSigned json := by
  induction json using Json.induct with
  | step json ih =>
      intro key key' flag type hnull hkey
      have hlabel := @mayLackKey_label isSigned json key key' hkey
      cases json with
      | null => cases hnull
      | object entries =>
          refine (transformEntries_ensures (fun e he => ih e he) _ []).mono fun r hr hok => ?_
          rcases hr hok with ⟨new, hnew, htree⟩
          rw [htree, MayLackKeys, Json.tree_eq, RoseTree.pointwise_node]
          refine ⟨?_, hnew⟩
          simpa [Json.label, Json.members] using hlabel
      | array elements =>
          have hmembers : ∀ element ∈ elements, LoadsOrFails isSigned element :=
            Json.forall_elements ih
          refine (transformElements_ensures hmembers _ []).mono fun r hr hok => ?_
          rcases hr hok with ⟨new, hnew, htree⟩
          rw [htree, MayLackKeys, Json.tree, Json.elementTrees_eq, RoseTree.pointwise_node]
          refine ⟨?_, hnew⟩
          simpa [Json.label] using hlabel
      | string value =>
          refine (samconfConfigSetString_ensures_ok _ (cutAtNul value)).mono fun r hr hok => ?_
          rw [hr hok]
          exact RoseTree.pointwise_node.mpr ⟨hlabel, .nil⟩
      | int value =>
          refine (setValue_ensures .int (.integer (jsonGetInt value)) _).mono fun r hr hok => ?_
          rw [hr hok]
          exact RoseTree.pointwise_node.mpr ⟨hlabel, .nil⟩
      | boolean value =>
          refine (setValue_ensures .boolean (.boolean value) _).mono fun r hr hok => ?_
          rw [hr hok]
          exact RoseTree.pointwise_node.mpr ⟨hlabel, .nil⟩
      | double value =>
          refine (setValue_ensures .real (.real value) _).mono fun r hr hok => ?_
          rw [hr hok]
          exact RoseTree.pointwise_node.mpr ⟨hlabel, .nil⟩

/-- A load that says OK hands out the tree of the document, up to missing keys. -/
theorem samconfJsonBackendLoad_ensures {json : Json} (hnull : json ≠ .null) (isSigned : Bool) :
    (samconfJsonBackendLoad json isSigned).Ensures fun r => r.1 = .ok →
      ∃ config, r.2 = some config ∧ MayLackKeys (json.loaded isSigned) config := by
  rw [samconfJsonBackendLoad]
  apply samconfConfigNew_ensures.bind
  rintro created (rfl | rfl)
  · exact Exec.ensures_pure fun hok => by cases hok
  apply (Exec.ensures_allocFor configKey).bind
  intro copy hcopy
  apply (loadsOrFails isSigned json (some configKey) copy false .object
    (Json.isNull_eq_false_iff.mpr hnull) hcopy.symm).bind
  intro r hr
  exact Exec.ensures_pure fun hok => ⟨r.2, rfl, hr hok⟩

/-! ## Dumping -/

/-- A tree is dumped as the document of another one, if it is dumped at all. -/
def DumpsAs (config config' : Config) : Prop :=
  (samconfDumpJsonConfig config').Ensures fun json => json = config.toJson

theorem dumpEntries_ensures {children children' : List Config}
    {entries : List (CString × Json)} (hdump : List.Forall₂ DumpsAs children children')
    (hkeys : List.Forall₂ MayLackKeys children children')
    (hkeyed : none ∉ children.map fun c => c.label.key)
    (hnodup : (entries.map (fun e => some e.1) ++ children.map fun c => c.label.key).Nodup) :
    (dumpEntries children'.length children' entries).Ensures fun json =>
      json = .object (entries ++ Config.toEntries children) := by
  induction hdump generalizing entries with
  | nil => exact Exec.ensures_pure (by simp [Config.toEntries])
  | @cons child child' children children' hchild _ ih =>
      rcases hkeys with _ | ⟨hlacks, hkeys⟩
      obtain ⟨key, hkey, hnew⟩ := exists_new_key hkeyed hnodup
      have hlabel : MayLackKey child.label child'.label := by simpa using hlacks []
      rw [List.length_cons, dumpEntries]
      apply hchild.bind
      rintro json rfl
      rcases hlabel with hlabel | hlabel
      · rw [hlabel, hkey, deref_some, Exec.pure_bind, Json.objectAdd_of_not_mem hnew]
        refine (@ih (entries ++ [(key, Config.toJson child)]) hkeys
          (fun hmem => hkeyed (by simp_all)) (by simpa [hkey] using hnodup)).mono fun r hr => ?_
        simp [hr, Config.toEntries, hkey]
      · -- the key is missing, and adding the member reads it
        rw [hlabel]
        exact Exec.ensures_fault _

theorem dumpElements_ensures {children children' : List Config} {elements : List Json}
    (hdump : List.Forall₂ DumpsAs children children') :
    (dumpElements children'.length children' elements).Ensures fun json =>
      json = .array (elements ++ Config.toElements children) := by
  induction hdump generalizing elements with
  | nil => exact Exec.ensures_pure (by simp [Config.toElements])
  | cons hchild _ ih =>
      rw [List.length_cons, dumpElements]
      apply hchild.bind
      rintro json rfl
      exact ih.mono fun r hr => by simp [hr, Config.toElements]

/-- **Dumping with keys missing.** Whatever is written is the document of the intact
tree. -/
theorem dumpsAs_of_mayLackKeys {config config' : Config} (h : config.Intact)
    (hlacks : MayLackKeys config config') : DumpsAs config config' := by
  induction config using RoseTree.induct generalizing config' with
  | node d children ih =>
      cases config' with
      | node d' children' =>
          obtain ⟨hlabel, hchildren⟩ := RoseTree.pointwise_node.mp hlacks
          have htype : d'.type = d.type := by rcases hlabel with rfl | rfl <;> rfl
          have hcount : d'.childCount = children'.length := by
            have hlength := hchildren.length_eq
            have hcounted : d.childCount = children.length := by simpa using h.counted.self
            rcases hlabel with rfl | rfl <;> exact hcounted.trans hlength
          have hdump : List.Forall₂ DumpsAs children children' := by
            refine List.forall₂_iff_get.mpr ⟨hchildren.length_eq, fun i hi hi' => ?_⟩
            have hmem : children[i] ∈ children := List.getElem_mem hi
            exact ih _ hmem (h.child hmem) (List.forall₂_iff_get.mp hchildren |>.2 i hi hi')
          have hkeyed := h.keyed.self
          have hdistinct := h.distinct.self
          rw [RoseTree.children_node] at hkeyed hdistinct
          rw [DumpsAs]
          by_cases hobject : d.type = .object
          · simp only [samconfDumpJsonConfig, Config.toJson, htype, hobject, hcount]
            simpa using @dumpEntries_ensures children children' [] hdump hchildren hkeyed
              (by simpa using hdistinct)
          · by_cases harray : d.type = .array
            · simp only [samconfDumpJsonConfig, Config.toJson, htype, harray, hcount]
              simpa using @dumpElements_ensures children children' [] hdump
            · have hdump' : samconfDumpJsonConfig (.node d' children') = pure d'.toJson := by
                refine dump_of_leaf children' (by rwa [htype]) (by rwa [htype]) ?_ ?_
                · rcases hlabel with rfl | rfl <;> exact h.tagged.self
                · rcases hlabel with rfl | rfl <;> exact h.stringsSet.self
              rw [toJson_of_leaf children hobject harray, hdump']
              refine Exec.ensures_pure ?_
              rcases hlabel with rfl | rfl <;> rfl

end Samconf
