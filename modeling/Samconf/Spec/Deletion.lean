/-
# Trees that can be deleted

A deletion goes by the counts and the types of the nodes: it calls itself for as many
children as are counted, and it frees the string of a node whose type is STRING. A tree
holds what is counted when every array has that many children and every such node a
string; then a deletion visits every node. A new child and a new subtree keep this. A node
that counts children and has none is where a deletion reads through NULL.
-/

import Samconf.Model.Node
import Samconf.Spec.Tree

namespace Samconf

open Foundation
open RoseTree (relabel addChild)

/-- The count is the number of children, and a STRING node holds a string. -/
structure NodeData.Held (d : NodeData) (children : ℕ) : Prop where
  counted : d.childCount = children
  lawful : d.Lawful

instance (d : NodeData) (children : ℕ) : Decidable (d.Held children) :=
  decidable_of_iff (d.childCount = children ∧ d.Lawful) ⟨fun h => ⟨h.1, h.2⟩, fun h => ⟨h.1, h.2⟩⟩

/-- Every node holds what is counted. -/
abbrev Config.Held (config : Config) : Prop :=
  RoseTree.Everywhere (fun _ => ()) (fun d children => d.Held children.length) config

/-- What a lawful node points to can be released. -/
theorem freeString_of_lawful {d : NodeData} (h : d.Lawful) : freeString d = .ok () := by
  rcases d with ⟨key, isSigned, type, value, childCount⟩
  by_cases htype : type = .string
  · subst htype
    have hfits : value.Fits .string := h rfl
    cases value <;> first | rfl | exact hfits.elim
  · rw [freeString, if_neg htype]

/-! ## Deletions with their visits -/

mutual

/-- `samconfConfigDelete` with the positions of the nodes that it is called for. -/
def recordDelete : Config → Except Fault (ConfigStatus × List (List ℕ))
  | .node d children => do
      freeString d
      let (status, visited) ← recordChildren 0 d.childCount children
      .ok (status, [] :: visited)

/-- The loop over the children from an index on. -/
def recordChildren : ℕ → ℕ → List Config → Except Fault (ConfigStatus × List (List ℕ))
  | _, 0, _ => .ok (.ok, [])
  | _, _ + 1, [] => .error .outOfBounds
  | i, n + 1, child :: children => do
      let (status, visited) ← recordDelete child
      let (rest, later) ← recordChildren (i + 1) n children
      .ok (if status = .error then .error else rest, visited.map (i :: ·) ++ later)

end

/-- Without its record it is the deletion. -/
theorem recordDelete_map_fst (config : Config) :
    (recordDelete config).map Prod.fst = samconfConfigDelete config := by
  induction config using RoseTree.induct with
  | node d cs ih =>
      have hchildren : ∀ (ds : List Config) (i n : ℕ), (∀ c ∈ ds, c ∈ cs) →
          (recordChildren i n ds).map Prod.fst = deleteChildren n ds := by
        intro ds
        induction ds with
        | nil => intro i n _; cases n <;> rfl
        | cons c ds ihds =>
            intro i n hds
            cases n with
            | zero => rfl
            | succ n =>
                rw [recordChildren, deleteChildren, ← ih c (hds c List.mem_cons_self),
                  ← ihds (i + 1) n fun e he => hds e (List.mem_cons_of_mem c he)]
                cases recordDelete c with
                | error e => rfl
                | ok r => cases recordChildren (i + 1) n ds <;> rfl
      rw [recordDelete, samconfConfigDelete, ← hchildren cs 0 d.childCount fun c hc => hc]
      cases freeString d with
      | error e => rfl
      | ok _ => cases recordChildren 0 d.childCount cs <;> rfl

namespace Config.Held

variable {config child : Config}

theorem counted (h : config.Held) : config.Counted := by
  intro p s hs
  simpa using (h p s hs).counted

theorem childCount_eq (h : config.Held) : config.label.childCount = config.children.length := by
  simpa using (RoseTree.Everywhere.self h).counted

theorem lawful (h : config.Held) : config.label.Lawful := (RoseTree.Everywhere.self h).lawful

/-- **A deletion visits every node** of a tree that holds what is counted. -/
theorem recordDelete_eq (h : config.Held) : recordDelete config = .ok (.ok, config.positions) := by
  induction config using RoseTree.induct with
  | node d cs ih =>
      obtain ⟨hself, hbelow⟩ := RoseTree.everywhere_node.mp h
      have hchildren : ∀ (ds : List Config) (i : ℕ), (∀ c ∈ ds, c ∈ cs) →
          recordChildren i ds.length ds = .ok (.ok, RoseTree.positionsFrom i ds) := by
        intro ds
        induction ds with
        | nil => exact fun _ _ => rfl
        | cons c ds ihds =>
            intro i hds
            have hmem := hds c List.mem_cons_self
            rw [List.length_cons, recordChildren, ih c hmem (hbelow c hmem),
              ihds (i + 1) fun e he => hds e (List.mem_cons_of_mem c he)]
            rfl
      have hcount : d.childCount = cs.length := h.childCount_eq
      rw [recordDelete, freeString_of_lawful hself.lawful, hcount]
      have hloop := hchildren cs 0 fun c hc => hc
      simp only [bind, Except.bind, hloop]
      rfl

theorem samconfConfigDelete_eq (h : config.Held) : samconfConfigDelete config = .ok .ok := by
  rw [← recordDelete_map_fst, h.recordDelete_eq]
  rfl

/-! ## What keeps it -/

theorem leaf {d : NodeData} (hcount : d.childCount = 0) (hlawful : d.Lawful) :
    Config.Held (.node d []) :=
  RoseTree.everywhere_node.mpr ⟨⟨hcount, hlawful⟩, by simp⟩

theorem init : Config.Held samconfConfigInit := leaf rfl (by decide)

theorem relabel {f : NodeData → NodeData} (h : config.Held)
    (hcount : (f config.label).childCount = config.label.childCount)
    (hlawful : (f config.label).Lawful) : Config.Held (RoseTree.relabel f config) := by
  cases config with
  | node d cs =>
      obtain ⟨hself, hbelow⟩ := RoseTree.everywhere_node.mp h
      exact RoseTree.everywhere_node.mpr ⟨⟨hcount.trans hself.counted, hlawful⟩, hbelow⟩

theorem addChild (h : config.Held) (hchild : child.Held) :
    Config.Held (addChild NodeData.bump child config) := by
  cases config with
  | node d cs =>
      obtain ⟨hself, hbelow⟩ := RoseTree.everywhere_node.mp h
      have hcount : d.childCount = cs.length := h.childCount_eq
      refine RoseTree.everywhere_node.mpr ⟨⟨?_, hself.lawful⟩, fun c hc => ?_⟩
      · simp [NodeData.bump, hcount]
      · rcases List.mem_append.mp hc with hc | hc
        · exact hbelow c hc
        · rw [List.mem_singleton.mp hc]
          exact hchild

/-- A subtree can be replaced. -/
theorem replace {s s' : Config} {p : List ℕ} (h : config.Held) (hs : config.sub? p = some s)
    (hs' : s'.Held) : Config.Held (config.modify (fun _ => s') p) :=
  RoseTree.Everywhere.modify h hs rfl hs'

end Config.Held

/-! ## Trees that lack an array -/

variable {config : Config}

/-- A deletion of the tree comes to a node whose array is NULL, and reads through it. -/
def Config.LacksArray (config : Config) : Prop :=
  samconfConfigDelete config = .error .outOfBounds

/-- The array of a node with children is lost with a refusal. -/
theorem Config.Held.lacksArray_of_refused (h : config.Held) (hchildren : config.children ≠ []) :
    Config.LacksArray (.node config.label []) := by
  have hpos : config.label.childCount ≠ 0 :=
    h.childCount_eq.trans_ne (List.length_pos_of_ne_nil hchildren).ne'
  obtain ⟨n, hn⟩ := Nat.exists_eq_succ_of_ne_zero hpos
  rw [Config.LacksArray, samconfConfigDelete, freeString_of_lawful h.lawful, hn]
  rfl

/-- The loop over the children stops at the first that lacks an array. -/
theorem deleteChildren_of_lacksArray {cs : List Config} {c : Config} {f : Config → Config}
    {i : ℕ} (hcs : ∀ d ∈ cs, Config.Held d) (hc : cs[i]? = some c) (hf : (f c).LacksArray) :
    deleteChildren cs.length (cs.modify i f) = .error .outOfBounds := by
  induction cs generalizing i with
  | nil => cases hc
  | cons d cs ih =>
      cases i with
      | zero =>
          cases hc
          have hfirst : samconfConfigDelete (f c) = .error .outOfBounds := hf
          rw [List.modify_zero_cons, List.length_cons, deleteChildren, hfirst]
          rfl
      | succ i =>
          have hrest := ih (fun e he => hcs e (List.mem_cons_of_mem d he)) hc
          rw [List.modify_succ_cons, List.length_cons, deleteChildren,
            (hcs d List.mem_cons_self).samconfConfigDelete_eq, hrest]
          rfl

/-- A tree lacks an array with a subtree that does. -/
theorem Config.LacksArray.replace {s s' : Config} {p : List ℕ} (hs' : s'.LacksArray)
    (h : config.Held) (hs : config.sub? p = some s) :
    Config.LacksArray (config.modify (fun _ => s') p) := by
  induction p generalizing config with
  | nil => exact hs'
  | cons i p ih =>
      cases config with
      | node d cs =>
          obtain ⟨hself, hbelow⟩ := RoseTree.everywhere_node.mp h
          have hcount : d.childCount = cs.length := h.childCount_eq
          rw [RoseTree.sub?_cons] at hs
          obtain ⟨c, hc, hsub⟩ := Option.bind_eq_some_iff.mp hs
          have hchild := ih (hbelow c (List.mem_of_getElem? hc)) hsub
          rw [Config.LacksArray, RoseTree.modify_cons, samconfConfigDelete,
            RoseTree.label_node, freeString_of_lawful hself.lawful, hcount]
          exact deleteChildren_of_lacksArray hbelow hc hchild

end Samconf
