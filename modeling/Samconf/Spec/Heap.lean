/-
# Trees in memory

A tree is held in memory when its nodes are cells that the arrays of children lead
to and whose parent links lead back. Loading a document allocates a child after its
parent and links it when everything below it is done, so the cells of a subtree lie
above its top and are left alone by all that follows. The load therefore leaves the
tree of the document in memory, linked in both directions.
-/

import Samconf.Model.Heap
import Samconf.Spec.Json

namespace Samconf

open Foundation
open Exec (Yields)
open RoseTree (relabel)

namespace Heap

/-! ## What memory holds -/

/-- The address that the arrays of children lead to. -/
def walk (heap : Heap) : ℕ → List ℕ → Option ℕ
  | a, [] => some a
  | a, i :: p => heap[a]?.bind fun cell => cell.children[i]?.bind fun b => walk heap b p

/-- The tree is in memory: its nodes are the cells that the arrays lead to, and the
parent link of each leads to the cell whose array holds it. -/
structure Holds (heap : Heap) (top : ℕ) (config : Config) : Prop where
  nodes : ∀ p s, config.sub? p = some s → ∃ a cell, heap.walk top p = some a ∧
    heap[a]? = some cell ∧ cell.data = s.label ∧ cell.children.length = s.children.length
  parents : ∀ p i s, config.sub? (p ++ [i]) = some s → ∃ a b cell, heap.walk top p = some a ∧
    heap.walk top (p ++ [i]) = some b ∧ heap[b]? = some cell ∧ cell.parent = some a
  top : ∃ cell, heap[top]? = some cell ∧ cell.parent = none

mutual

/-- The tree is in memory at an address, in cells from `lo` on. -/
def HoldsFrom (heap : Heap) : ℕ → Config → ℕ → Option ℕ → Prop
  | lo, .node d children, a, parent =>
      lo ≤ a ∧ ∃ addrs, heap[a]? = some ⟨d, parent, addrs⟩ ∧
        AllFrom heap (a + 1) children addrs a

/-- The trees are in memory at the addresses, below the node at `parent`. -/
def AllFrom (heap : Heap) : ℕ → List Config → List ℕ → ℕ → Prop
  | _, [], addrs, _ => addrs = []
  | lo, child :: children, addrs, parent =>
      ∃ b rest, addrs = b :: rest ∧ HoldsFrom heap lo child b (some parent) ∧
        AllFrom heap lo children rest parent

end

variable {heap heap' : Heap}

theorem allFrom_iff {lo : ℕ} {children : List Config} {addrs : List ℕ} {parent : ℕ} :
    AllFrom heap lo children addrs parent ↔
      List.Forall₂ (fun child b => HoldsFrom heap lo child b (some parent)) children addrs := by
  induction children generalizing addrs with
  | nil => simp [AllFrom]
  | cons child children ih =>
      rw [AllFrom]
      constructor
      · rintro ⟨b, rest, rfl, hchild, hrest⟩
        exact .cons hchild (ih.mp hrest)
      · intro h
        cases h with
        | cons hchild hrest => exact ⟨_, _, rfl, hchild, ih.mpr hrest⟩

theorem holdsFrom_node {lo : ℕ} {d : NodeData} {children : List Config} {a : ℕ}
    {parent : Option ℕ} :
    HoldsFrom heap lo (.node d children) a parent ↔
      lo ≤ a ∧ ∃ addrs, heap[a]? = some ⟨d, parent, addrs⟩ ∧
        List.Forall₂ (fun child b => HoldsFrom heap (a + 1) child b (some a)) children addrs := by
  rw [HoldsFrom]
  simp only [allFrom_iff]

/-- Only the cells from `lo` on matter, as far as they were allocated. -/
theorem HoldsFrom.congr {lo : ℕ} {config : Config} {a : ℕ} {parent : Option ℕ}
    (h : HoldsFrom heap lo config a parent)
    (hsame : ∀ b, lo ≤ b → b < heap.length → heap'[b]? = heap[b]?) :
    HoldsFrom heap' lo config a parent := by
  induction config using RoseTree.induct generalizing lo a parent with
  | node d children ih =>
      rw [holdsFrom_node] at h ⊢
      obtain ⟨hlo, addrs, hcell, hchildren⟩ := h
      have hlt : a < heap.length := (List.getElem?_eq_some_iff.mp hcell).1
      refine ⟨hlo, addrs, by rw [hsame a hlo hlt, hcell], ?_⟩
      refine List.forall₂_iff_get.mpr ⟨hchildren.length_eq, fun i hi hi' => ?_⟩
      exact ih _ (List.getElem_mem hi) (hchildren.get hi hi') fun b hb => hsame b (by omega)

/-- Rewriting the top cell, and perhaps its parent link, rewrites the top of the
tree. -/
theorem HoldsFrom.setTop {lo : ℕ} {config : Config} {a : ℕ} {parent : Option ℕ}
    (parent' : Option ℕ) (g : NodeData → NodeData) (h : HoldsFrom heap lo config a parent)
    (hsame : ∀ b : ℕ, a < b → heap'[b]? = heap[b]?)
    (htop : heap'[a]? = heap[a]?.map fun cell => ⟨g cell.data, parent', cell.children⟩) :
    HoldsFrom heap' lo (relabel g config) a parent' := by
  cases config with
  | node d children =>
      rw [relabel, holdsFrom_node]
      obtain ⟨hlo, addrs, hcell, hchildren⟩ := holdsFrom_node.mp h
      exact ⟨hlo, addrs, by rw [htop, hcell]; rfl,
        hchildren.imp fun child b hchild => hchild.congr fun c hc _ => hsame c hc⟩

theorem HoldsFrom.mono {lo lo' : ℕ} {config : Config} {a : ℕ} {parent : Option ℕ}
    (h : HoldsFrom heap lo config a parent) (hlo : lo' ≤ a) :
    HoldsFrom heap lo' config a parent := by
  cases config with
  | node d children =>
      rw [holdsFrom_node] at h ⊢
      exact ⟨hlo, h.2⟩

theorem walk_append (heap : Heap) (a : ℕ) (p q : List ℕ) :
    heap.walk a (p ++ q) = (heap.walk a p).bind fun b => heap.walk b q := by
  induction p generalizing a with
  | nil => simp [walk]
  | cons i p ih =>
      rw [List.cons_append, walk, walk]
      cases heap[a]? with
      | none => rfl
      | some cell =>
          cases hb : cell.children[i]? with
          | none => simp [hb]
          | some b => simpa [hb] using ih b

/-- The child at an index is held at the address in the array. -/
theorem HoldsFrom.child {lo : ℕ} {config c : Config} {a : ℕ} {parent : Option ℕ} {i : ℕ}
    (h : HoldsFrom heap lo config a parent) (hc : config.children[i]? = some c) :
    ∃ cell b, heap[a]? = some cell ∧ cell.children[i]? = some b ∧
      HoldsFrom heap (a + 1) c b (some a) := by
  cases config with
  | node d children =>
      rw [holdsFrom_node] at h
      obtain ⟨-, addrs, hcell, hchildren⟩ := h
      obtain ⟨hi, rfl⟩ := List.getElem?_eq_some_iff.mp hc
      have hi' : i < addrs.length := by
        rw [← hchildren.length_eq]
        exact hi
      exact ⟨_, addrs[i], hcell, by simp [hi'], hchildren.get hi hi'⟩

/-- Every subtree is held where the arrays lead to. -/
theorem HoldsFrom.sub {lo : ℕ} {config s : Config} {a : ℕ} {parent : Option ℕ}
    {p : List ℕ} (h : HoldsFrom heap lo config a parent) (hs : config.sub? p = some s) :
    ∃ b lo' parent', heap.walk a p = some b ∧ HoldsFrom heap lo' s b parent' := by
  induction p generalizing config lo a parent with
  | nil =>
      obtain rfl : config = s := by simpa using hs
      exact ⟨a, lo, parent, rfl, h⟩
  | cons i p ih =>
      rw [RoseTree.sub?_cons] at hs
      obtain ⟨c, hc, hs⟩ := Option.bind_eq_some_iff.mp hs
      obtain ⟨cell, b, hcell, hb, hchild⟩ := h.child hc
      obtain ⟨b', lo', parent', hwalk, hsub⟩ := ih hchild hs
      exact ⟨b', lo', parent', by simp [walk, hcell, hb, hwalk], hsub⟩

/-- What is in memory from some address on is in memory. -/
theorem HoldsFrom.holds {lo : ℕ} {config : Config} {top : ℕ}
    (h : HoldsFrom heap lo config top none) : Holds heap top config where
  nodes p s hs := by
    obtain ⟨b, lo', parent', hwalk, hsub⟩ := h.sub hs
    cases s with
    | node d children =>
        obtain ⟨-, addrs, hcell, hchildren⟩ := holdsFrom_node.mp hsub
        exact ⟨b, _, hwalk, hcell, rfl, hchildren.length_eq.symm⟩
  parents p i s hs := by
    rw [RoseTree.sub?_append] at hs
    obtain ⟨t, ht, hs⟩ := Option.bind_eq_some_iff.mp hs
    have hc : t.children[i]? = some s := by
      cases t with
      | node d children => simpa using hs
    obtain ⟨a, lo', parent', hwalk, hsub⟩ := h.sub ht
    obtain ⟨cell, b, hcell, hb, hchild⟩ := hsub.child hc
    have hlast : heap.walk top (p ++ [i]) = some b := by
      rw [walk_append, hwalk]
      simp [walk, hcell, hb]
    cases s with
    | node d children =>
        obtain ⟨-, addrs, hcell', -⟩ := holdsFrom_node.mp hchild
        exact ⟨a, b, _, hwalk, hlast, hcell', rfl⟩
  top := by
    cases config with
    | node d children =>
        obtain ⟨-, addrs, hcell, -⟩ := holdsFrom_node.mp h
        exact ⟨_, hcell, rfl⟩

/-! ## Loading a document -/

/-- Memory after filling the node at `a`: more cells, and of the old ones only that
one has changed. -/
structure Extends (heap : Heap) (a : ℕ) (heap' : Heap) : Prop where
  length_le : heap.length ≤ heap'.length
  same : ∀ b < heap.length, b ≠ a → heap'[b]? = heap[b]?

/-- Loading a document into a fresh node leaves its tree in memory. -/
def LoadsInto (isSigned : Bool) (json : Json) : Prop :=
  ∀ (heap : Heap) (a : ℕ) key flag type parent,
    heap[a]? = some ⟨⟨key, flag, type, .zero, 0⟩, parent, []⟩ →
    (json.isNull = true → type = .object) →
    ∃ heap', (transformJsonToConfig isSigned json a heap).Yields (.ok, heap') ∧
      Extends heap a heap' ∧ HoldsFrom heap' a (json.tree isSigned key) a parent

/-- A document is refused when it is to be loaded into a fresh node. -/
def RefusesInto (isSigned : Bool) (json : Json) : Prop :=
  ∀ (heap : Heap) (a : ℕ) key flag type parent,
    heap[a]? = some ⟨⟨key, flag, type, .zero, 0⟩, parent, []⟩ →
    ∃ heap', (transformJsonToConfig isSigned json a heap).Yields (.parseError, heap')

theorem samconfConfigNew_yields (heap : Heap) :
    (samconfConfigNew heap).Yields
      (.ok, some heap.length, heap ++ [⟨NodeData.init, none, []⟩]) :=
  Exec.yields_alloc.bind (Exec.yields_pure _)

/-- The memory after a child was linked. -/
def linked (heap : Heap) (parent child : ℕ) : Heap :=
  (heap.modify parent fun cell =>
    { cell with data := cell.data.bump, children := cell.children ++ [child] }).modify child
      fun cell => { cell with parent := some parent }

theorem samconfConfigAdd_yields {parent child : ℕ} {cell : Cell}
    (hcell : heap[parent]? = some cell) (hcount : cell.data.childCount = cell.children.length) :
    (samconfConfigAdd parent child heap).Yields (.ok, heap.linked parent child) := by
  rw [samconfConfigAdd]
  apply Exec.yields_alloc.bind
  simp only [if_true, hcell, deref_some, Exec.pure_bind, hcount]
  exact Exec.yields_pure _

theorem length_linked (heap : Heap) (parent child : ℕ) :
    (heap.linked parent child).length = heap.length := by
  simp [linked]

theorem getElem?_linked_of_ne {parent child b : ℕ} (hparent : b ≠ parent) (hchild : b ≠ child) :
    (heap.linked parent child)[b]? = heap[b]? := by
  simp [linked, Ne.symm hparent, Ne.symm hchild]

theorem getElem?_linked_parent {parent child : ℕ} (hne : parent ≠ child) :
    (heap.linked parent child)[parent]? = heap[parent]?.map fun cell =>
      { cell with data := cell.data.bump, children := cell.children ++ [child] } := by
  simp [linked, Ne.symm hne]

theorem getElem?_linked_child {parent child : ℕ} (hne : parent ≠ child) :
    (heap.linked parent child)[child]? =
      heap[child]?.map fun cell => { cell with parent := some parent } := by
  simp [linked, hne]

theorem relabel_id (config : Config) : relabel (fun d => d) config = config := by
  cases config
  rfl

theorem getElem?_update (heap : Heap) (a : ℕ) (f : NodeData → NodeData) :
    (heap.update a f)[a]? = heap[a]?.map fun cell => { cell with data := f cell.data } := by
  simp [Heap.update]

theorem getElem?_update_of_ne {a b : ℕ} {f : NodeData → NodeData} (hne : b ≠ a) :
    (heap.update a f)[b]? = heap[b]? := by
  simp [Heap.update, Ne.symm hne]

/-- Writing to the newest cell. -/
theorem update_append (heap : Heap) (cell : Cell) (f : NodeData → NodeData) :
    Heap.update (heap ++ [cell]) heap.length f = heap ++ [{ cell with data := f cell.data }] := by
  induction heap with
  | nil => rfl
  | cons first heap ih => simpa [Heap.update] using ih

theorem Extends.trans {heap'' : Heap} {a : ℕ} (h : Extends heap a heap')
    (h' : Extends heap' a heap'') : Extends heap a heap'' where
  length_le := h.length_le.trans h'.length_le
  same b hb hne := (h'.same b (lt_of_lt_of_le hb h.length_le) hne).trans (h.same b hb hne)

section Members

variable {isSigned : Bool} {a : ℕ} {d : NodeData} {parent : Option ℕ} {addrs : List ℕ}
  {cs : List Config}

/-- A child that was filled in a new cell and linked joins the children that the
node has in memory. -/
theorem allFrom_linked {filled : Heap} {cell : Cell} {child : Config} (hlt : a < heap.length)
    (hchildren : AllFrom heap (a + 1) cs addrs a)
    (hextends : Extends (heap ++ [cell]) heap.length filled)
    (hlength : heap'.length = filled.length)
    (hother : ∀ b : ℕ, b ≠ a → b ≠ heap.length → heap'[b]? = filled[b]?)
    (hchild : HoldsFrom heap' heap.length child heap.length (some a)) :
    Extends heap a heap' ∧
      AllFrom heap' (a + 1) (cs ++ [child]) (addrs ++ [heap.length]) a := by
  have hsame : ∀ b < heap.length, b ≠ a → heap'[b]? = heap[b]? := by
    intro b hb hne
    have hfilled := hextends.same b (by simp; omega) (by omega)
    rw [hother b hne (by omega), hfilled, List.getElem?_append_left hb]
  have hgrown := hextends.length_le
  rw [List.length_append, List.length_singleton] at hgrown
  refine ⟨⟨by omega, hsame⟩, ?_⟩
  rw [allFrom_iff] at hchildren ⊢
  have hold : List.Forall₂ (fun c b => HoldsFrom heap' (a + 1) c b (some a)) cs addrs :=
    hchildren.imp fun c b hc => hc.congr fun b' hlo hb' => hsame b' hb' (by omega)
  exact List.rel_append hold (.cons (hchild.mono (by omega)) .nil)

/-- Filling a new cell leaves the node alone. -/
theorem getElem?_filled {filled : Heap} {new cell : Cell} (hcell : heap[a]? = some cell)
    (hextends : Extends (heap ++ [new]) heap.length filled) : filled[a]? = some cell := by
  have hlt : a < heap.length := (List.getElem?_eq_some_iff.mp hcell).1
  rw [hextends.same a (by simp; omega) (by omega), List.getElem?_append_left hlt, hcell]

/-- Linking what the new cell holds adds its address to the node. -/
theorem getElem?_linked_filled {filled : Heap} (hlt : a < heap.length)
    (hparent : filled[a]? = some ⟨d, parent, addrs⟩) :
    (filled.linked a heap.length)[a]? =
      some ⟨d.bump, parent, addrs ++ [heap.length]⟩ := by
  rw [getElem?_linked_parent (by omega), hparent]
  rfl

theorem transformEntries_yields {entries : List (CString × Json)}
    (hentries : Json.completeEntries entries = true)
    (hloads : ∀ e ∈ entries, e.2.complete = true → LoadsInto isSigned e.2)
    (hcell : heap[a]? = some ⟨d, parent, addrs⟩) (hcount : d.childCount = addrs.length)
    (hchildren : AllFrom heap (a + 1) cs addrs a) :
    ∃ heap', (transformEntries isSigned entries a heap).Yields (.ok, heap') ∧
      Extends heap a heap' ∧
      HoldsFrom heap' a (.node { d with childCount := d.childCount + entries.length }
        (cs ++ Json.entryTrees isSigned entries)) a parent := by
  induction entries generalizing heap d addrs cs with
  | nil =>
      refine ⟨heap, Exec.yields_pure _, ⟨le_refl _, fun _ _ _ => rfl⟩, ?_⟩
      simp only [Json.entryTrees, List.append_nil, List.length_nil, Nat.add_zero]
      exact ⟨le_refl a, addrs, hcell, hchildren⟩
  | cons e entries ih =>
      rcases e with ⟨key, value⟩
      obtain ⟨⟨hnull, hvalue⟩, hrest⟩ :
          (value.isNull = false ∧ value.complete = true) ∧
            Json.completeEntries entries = true := by
        simpa [Json.completeEntries] using hentries
      have hlt : a < heap.length := (List.getElem?_eq_some_iff.mp hcell).1
      have hfresh := update_append heap ⟨NodeData.init, none, []⟩
        fun d => { d with key := some key }
      obtain ⟨filled, hload, hextends, hheld⟩ := hloads (key, value) List.mem_cons_self hvalue
        (heap ++ [⟨⟨some key, false, .none, .zero, 0⟩, none, []⟩]) heap.length (some key) false
        .none none (by simp) fun h => by rw [hnull] at h; cases h
      have hparent := getElem?_filled hcell hextends
      have hchild : HoldsFrom (filled.linked a heap.length) heap.length
          (value.tree isSigned (some key)) heap.length (some a) := by
        have hset := hheld.setTop (some a) (fun d => d)
          (fun b hb => getElem?_linked_of_ne (by omega) (by omega))
          (getElem?_linked_child (by omega))
        rwa [relabel_id] at hset
      obtain ⟨hgrown, hall⟩ := allFrom_linked hlt hchildren hextends (length_linked _ _ _)
        (fun b hne hne' => getElem?_linked_of_ne hne hne') hchild
      have hcell' := getElem?_linked_filled hlt hparent
      obtain ⟨heap'', hloop, hextends', hheld'⟩ := ih hrest
        (fun e he => hloads e (List.mem_cons_of_mem _ he)) hcell'
        (by simp [NodeData.bump, hcount]) hall
      refine ⟨heap'', ?_, hgrown.trans hextends', ?_⟩
      · rw [transformEntries, hnull]
        simp only [Bool.false_eq_true, if_false]
        apply (samconfConfigNew_yields heap).bind
        apply (Exec.yields_allocFor key).bind
        rw [hfresh]
        apply hload.bind
        apply (samconfConfigAdd_yields hparent hcount).bind
        exact hloop
      · simpa [Json.entryTrees, NodeData.bump, Nat.add_assoc, Nat.add_comm 1] using hheld'

theorem transformElements_yields {elements : List Json} {idx : ℕ}
    (helements : Json.completeElements elements = true)
    (hloads : ∀ element ∈ elements, element.complete = true → LoadsInto isSigned element)
    (hcell : heap[a]? = some ⟨d, parent, addrs⟩) (hcount : d.childCount = addrs.length)
    (hchildren : AllFrom heap (a + 1) cs addrs a) :
    ∃ heap', (transformElements isSigned idx elements a heap).Yields (.ok, heap') ∧
      Extends heap a heap' ∧
      HoldsFrom heap' a (.node { d with childCount := d.childCount + elements.length }
        (cs ++ Json.elementTrees isSigned idx elements)) a parent := by
  induction elements generalizing heap d addrs cs idx with
  | nil =>
      refine ⟨heap, Exec.yields_pure _, ⟨le_refl _, fun _ _ _ => rfl⟩, ?_⟩
      simp only [Json.elementTrees, List.append_nil, List.length_nil, Nat.add_zero]
      exact ⟨le_refl a, addrs, hcell, hchildren⟩
  | cons element elements ih =>
      obtain ⟨⟨hnull, helement⟩, hrest⟩ :
          (element.isNull = false ∧ element.complete = true) ∧
            Json.completeElements elements = true := by
        simpa [Json.completeElements] using helements
      have hlt : a < heap.length := (List.getElem?_eq_some_iff.mp hcell).1
      obtain ⟨filled, hload, hextends, hheld⟩ := hloads element List.mem_cons_self helement
        (heap ++ [⟨NodeData.init, none, []⟩]) heap.length none false .none none (by simp; rfl)
        fun h => by rw [hnull] at h; cases h
      have hparent := getElem?_filled hcell hextends
      -- the child gets its key where it is linked
      let keyed : Heap := (filled.linked a heap.length).update heap.length fun d =>
        { d with key := some (indexKey idx) }
      have hother : ∀ b : ℕ, b ≠ heap.length → keyed[b]? = (filled.linked a heap.length)[b]? :=
        fun b hne => getElem?_update_of_ne hne
      have hchild : HoldsFrom keyed heap.length
          (element.tree isSigned (some (indexKey idx))) heap.length (some a) := by
        have hset := hheld.setTop (some a) (fun d => { d with key := some (indexKey idx) })
          (fun b hb => by
            rw [hother b (by omega), getElem?_linked_of_ne (by omega) (by omega)])
          (by
            rw [getElem?_update, getElem?_linked_child (by omega), Option.map_map]
            rfl)
        rwa [Json.relabel_tree] at hset
      obtain ⟨hgrown, hall⟩ := allFrom_linked hlt hchildren hextends
        (by simp [keyed, Heap.update, length_linked])
        (fun b hne hne' => by rw [hother b hne', getElem?_linked_of_ne hne hne']) hchild
      have hcell' : keyed[a]? = some ⟨d.bump, parent, addrs ++ [heap.length]⟩ := by
        rw [hother a (by omega), getElem?_linked_filled hlt hparent]
      obtain ⟨heap'', hloop, hextends', hheld'⟩ := ih hrest
        (fun e he => hloads e (List.mem_cons_of_mem _ he)) hcell'
        (by simp [NodeData.bump, hcount]) hall
      refine ⟨heap'', ?_, hgrown.trans hextends', ?_⟩
      · rw [transformElements, hnull]
        simp only [Bool.false_eq_true, if_false]
        apply (samconfConfigNew_yields heap).bind
        apply hload.bind
        apply (samconfConfigAdd_yields hparent hcount).bind
        apply (Exec.yields_allocFor (indexKey idx)).bind
        rw [deref_some, Exec.pure_bind]
        exact hloop
      · simpa [Json.elementTrees, NodeData.bump, Nat.add_assoc, Nat.add_comm 1] using hheld'

/-- The loop over the members of an object ends at the first that cannot be
loaded. -/
theorem transformEntries_refuses {entries : List (CString × Json)}
    (hentries : Json.completeEntries entries = false)
    (hrefuses : ∀ e ∈ entries, e.2.complete = false → RefusesInto isSigned e.2)
    (hloads : ∀ e ∈ entries, e.2.complete = true → LoadsInto isSigned e.2)
    (hcell : heap[a]? = some ⟨d, parent, addrs⟩) (hcount : d.childCount = addrs.length) :
    ∃ heap', (transformEntries isSigned entries a heap).Yields (.parseError, heap') := by
  induction entries generalizing heap d addrs with
  | nil => cases hentries
  | cons e entries ih =>
      rcases e with ⟨key, value⟩
      cases hnull : value.isNull with
      | true =>
          rw [transformEntries, hnull]
          exact ⟨heap, Exec.yields_pure _⟩
      | false =>
          have hlt : a < heap.length := (List.getElem?_eq_some_iff.mp hcell).1
          have hfresh := update_append heap ⟨NodeData.init, none, []⟩ fun d =>
            { d with key := some key }
          rw [transformEntries, hnull]
          simp only [Bool.false_eq_true, if_false]
          cases hvalue : value.complete with
          | false =>
              obtain ⟨heap', hsub⟩ := hrefuses (key, value) List.mem_cons_self hvalue
                (heap ++ [⟨⟨some key, false, .none, .zero, 0⟩, none, []⟩]) heap.length (some key)
                false .none none (by simp)
              refine ⟨heap', ?_⟩
              apply (samconfConfigNew_yields heap).bind
              apply (Exec.yields_allocFor key).bind
              rw [hfresh]
              exact hsub.bind (Exec.yields_pure _)
          | true =>
              have hrest : Json.completeEntries entries = false := by
                simpa [Json.completeEntries, hnull, hvalue] using hentries
              obtain ⟨filled, hload, hextends, -⟩ := hloads (key, value) List.mem_cons_self hvalue
                (heap ++ [⟨⟨some key, false, .none, .zero, 0⟩, none, []⟩]) heap.length (some key)
                false .none none (by simp) fun h => by rw [hnull] at h; cases h
              have hparent := getElem?_filled hcell hextends
              have hlinked := getElem?_linked_filled hlt hparent
              obtain ⟨heap', hloop⟩ := ih hrest
                (fun e he => hrefuses e (List.mem_cons_of_mem _ he))
                (fun e he => hloads e (List.mem_cons_of_mem _ he)) hlinked
                (by simp [NodeData.bump, hcount])
              refine ⟨heap', ?_⟩
              apply (samconfConfigNew_yields heap).bind
              apply (Exec.yields_allocFor key).bind
              rw [hfresh]
              apply hload.bind
              apply (samconfConfigAdd_yields hparent hcount).bind
              exact hloop

theorem transformElements_refuses {elements : List Json} {idx : ℕ}
    (helements : Json.completeElements elements = false)
    (hrefuses : ∀ element ∈ elements, element.complete = false → RefusesInto isSigned element)
    (hloads : ∀ element ∈ elements, element.complete = true → LoadsInto isSigned element)
    (hcell : heap[a]? = some ⟨d, parent, addrs⟩) (hcount : d.childCount = addrs.length) :
    ∃ heap', (transformElements isSigned idx elements a heap).Yields (.parseError, heap') := by
  induction elements generalizing heap d addrs idx with
  | nil => cases helements
  | cons element elements ih =>
      cases hnull : element.isNull with
      | true =>
          rw [transformElements, hnull]
          exact ⟨heap, Exec.yields_pure _⟩
      | false =>
          have hlt : a < heap.length := (List.getElem?_eq_some_iff.mp hcell).1
          rw [transformElements, hnull]
          simp only [Bool.false_eq_true, if_false]
          cases helement : element.complete with
          | false =>
              obtain ⟨heap', hsub⟩ := hrefuses element List.mem_cons_self helement
                (heap ++ [⟨NodeData.init, none, []⟩]) heap.length none false .none none
                (by simp; rfl)
              refine ⟨heap', ?_⟩
              apply (samconfConfigNew_yields heap).bind
              exact hsub.bind (Exec.yields_pure _)
          | true =>
              have hrest : Json.completeElements elements = false := by
                simpa [Json.completeElements, hnull, helement] using helements
              obtain ⟨filled, hload, hextends, -⟩ := hloads element List.mem_cons_self helement
                (heap ++ [⟨NodeData.init, none, []⟩]) heap.length none false .none none
                (by simp; rfl) fun h => by rw [hnull] at h; cases h
              have hparent := getElem?_filled hcell hextends
              have hlinked : ((filled.linked a heap.length).update heap.length fun d =>
                  { d with key := some (indexKey idx) })[a]? =
                    some ⟨d.bump, parent, addrs ++ [heap.length]⟩ := by
                rw [getElem?_update_of_ne (by omega), getElem?_linked_filled hlt hparent]
              obtain ⟨heap', hloop⟩ := @ih _ _ _ (idx + 1) hrest
                (fun e he => hrefuses e (List.mem_cons_of_mem _ he))
                (fun e he => hloads e (List.mem_cons_of_mem _ he)) hlinked
                (by simp [NodeData.bump, hcount])
              refine ⟨heap', ?_⟩
              apply (samconfConfigNew_yields heap).bind
              apply hload.bind
              apply (samconfConfigAdd_yields hparent hcount).bind
              apply (Exec.yields_allocFor (indexKey idx)).bind
              rw [deref_some, Exec.pure_bind]
              exact hloop

end Members

/-- The setters write to one cell. -/
theorem setWith_yields {set : Config → Run (ConfigStatus × Config)} {a : ℕ} {cell : Cell}
    {node : Config} (hcell : heap[a]? = some cell)
    (hset : (set (.node cell.data [])).Yields (.ok, node)) :
    (setWith set a heap).Yields (.ok, heap.update a fun _ => node.label) := by
  rw [setWith, hcell, deref_some, Exec.pure_bind]
  exact hset.bind (Exec.yields_pure _)

/-- What a scalar leaves in memory. -/
theorem holdsFrom_update {a : ℕ} {d : NodeData} {parent : Option ℕ}
    (hcell : heap[a]? = some ⟨d, parent, []⟩) (f : NodeData → NodeData) :
    Extends heap a (heap.update a f) ∧ HoldsFrom (heap.update a f) a (.node (f d) []) a parent :=
  ⟨⟨by simp [Heap.update], fun b _ hne => getElem?_update_of_ne hne⟩, le_refl a, [],
    by rw [getElem?_update, hcell]; rfl, rfl⟩

theorem update_update (heap : Heap) (a : ℕ) (f g : NodeData → NodeData) :
    (heap.update a f).update a g = heap.update a (g ∘ f) := by
  apply List.ext_getElem?
  intro b
  rcases eq_or_ne b a with rfl | hne
  · simp only [getElem?_update, Option.map_map]
    rfl
  · simp only [getElem?_update_of_ne hne]

/-- A complete document leaves its tree in memory. -/
theorem loadsInto_of_complete (isSigned : Bool) {json : Json} (h : json.complete = true) :
    LoadsInto isSigned json := by
  induction json using Json.induct with
  | step json ih =>
      intro heap a key flag type parent hcell htype
      have hflag : (heap.update a fun d => { d with isSigned := isSigned })[a]? =
          some ⟨⟨key, isSigned, type, .zero, 0⟩, parent, []⟩ := by
        rw [getElem?_update, hcell]
        rfl
      have hscalar {set : Config → Run (ConfigStatus × Config)} {node : Config}
          (hset : (set (.node ⟨key, isSigned, type, .zero, 0⟩ [])).Yields (.ok, node)) :
          ∃ heap', (setWith set a (heap.update a fun d => { d with isSigned := isSigned })).Yields
              (.ok, heap') ∧
            Extends heap a heap' ∧ HoldsFrom heap' a (.node node.label []) a parent := by
        refine ⟨_, setWith_yields hflag hset, ?_⟩
        rw [update_update]
        exact holdsFrom_update hcell _
      cases json with
      | null =>
          obtain rfl := htype rfl
          exact ⟨_, Exec.yields_pure _, holdsFrom_update hcell _⟩
      | boolean value => exact hscalar (setValue_yields (Value.fits_zero _))
      | double value => exact hscalar (setValue_yields (Value.fits_zero _))
      | int value => exact hscalar (setValue_yields (Value.fits_zero _))
      | string value =>
          have htagged : (⟨key, isSigned, type, .zero, 0⟩ : NodeData).Tagged :=
            Value.fits_zero type
          exact @hscalar (fun node => samconfConfigSetString node (some (cutAtNul value))) _
            (samconfConfigSetString_yields (cutAtNul value) htagged)
      | object entries =>
          obtain ⟨heap', hloop, hextends, hheld⟩ := @transformEntries_yields
            (heap.update a fun d => { d with isSigned := isSigned, type := .object }) isSigned a
            ⟨key, isSigned, .object, .zero, 0⟩ parent [] [] entries h (fun e he => ih e he)
            (by rw [getElem?_update, hcell]; rfl) rfl rfl
          refine ⟨heap', hloop, (holdsFrom_update hcell _).1.trans hextends, ?_⟩
          simpa [Json.tree, Json.label] using hheld
      | array elements =>
          have hloads : ∀ element ∈ elements, element.complete = true →
              LoadsInto isSigned element := Json.forall_elements ih
          obtain ⟨heap', hloop, hextends, hheld⟩ := @transformElements_yields
            (heap.update a fun d => { d with isSigned := isSigned, type := .array }) isSigned a
            ⟨key, isSigned, .array, .zero, 0⟩ parent [] [] elements 0 h hloads
            (by rw [getElem?_update, hcell]; rfl) rfl rfl
          refine ⟨heap', hloop, (holdsFrom_update hcell _).1.trans hextends, ?_⟩
          simpa [Json.tree, Json.label] using hheld

/-- An incomplete document is refused. -/
theorem refusesInto_of_not_complete (isSigned : Bool) {json : Json} (h : json.complete = false) :
    RefusesInto isSigned json := by
  induction json using Json.induct with
  | step json ih =>
      intro heap a key flag type parent hcell
      cases json with
      | object entries =>
          exact transformEntries_refuses h (fun e he => ih e he)
            (fun e _ he => loadsInto_of_complete isSigned he)
            (by rw [getElem?_update, hcell]; rfl) rfl
      | array elements =>
          exact transformElements_refuses h (Json.forall_elements ih)
            (fun element _ he => loadsInto_of_complete isSigned he)
            (by rw [getElem?_update, hcell]; rfl) rfl
      | _ => cases h

theorem samconfJsonBackendLoad_of_transform {json : Json} {isSigned : Bool}
    {result : ConfigStatus}
    (h : (transformJsonToConfig isSigned json heap.length
      (heap ++ [⟨⟨some configKey, false, .object, .zero, 0⟩, none, []⟩])).Yields
        (result, heap')) :
    (samconfJsonBackendLoad json isSigned heap).Yields (result, some heap.length, heap') := by
  rw [samconfJsonBackendLoad]
  apply (samconfConfigNew_yields heap).bind
  apply (Exec.yields_allocFor configKey).bind
  rw [update_append]
  apply h.bind
  exact Exec.yields_pure _

/-- **Loading links the nodes.** The tree that a complete document is loaded as
stands in memory, each node in the array of the node that its parent link leads
to. -/
theorem samconfJsonBackendLoad_yields {json : Json} (isSigned : Bool) (heap : Heap)
    (h : json.complete = true) :
    ∃ heap', (samconfJsonBackendLoad json isSigned heap).Yields
      (.ok, some heap.length, heap') ∧ Holds heap' heap.length (json.loaded isSigned) := by
  obtain ⟨heap', hload, -, hheld⟩ := loadsInto_of_complete isSigned h
    (heap ++ [⟨⟨some configKey, false, .object, .zero, 0⟩, none, []⟩]) heap.length
    (some configKey) false .object none (by simp) fun _ => rfl
  refine ⟨heap', ?_, hheld.holds⟩
  exact samconfJsonBackendLoad_of_transform hload

/-- A document with a NULL is refused here too. -/
theorem samconfJsonBackendLoad_refuses {json : Json} (isSigned : Bool) (heap : Heap)
    (h : json.complete = false) :
    ∃ heap', (samconfJsonBackendLoad json isSigned heap).Yields
      (.parseError, some heap.length, heap') := by
  obtain ⟨heap', hload⟩ := refusesInto_of_not_complete isSigned h
    (heap ++ [⟨⟨some configKey, false, .object, .zero, 0⟩, none, []⟩]) heap.length
    (some configKey) false .object none (by simp)
  exact ⟨heap', samconfJsonBackendLoad_of_transform hload⟩

end Heap

end Samconf
