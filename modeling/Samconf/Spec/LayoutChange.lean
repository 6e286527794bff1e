/-
# Layouts that change

What a program does to a tree in memory, it does to cells: it writes members of a node,
loses an array, links a cell, or works on cells elsewhere. Each of these takes a layout to
a layout. A run of them moves no node: whatever is in the tree afterwards is in the cell
it was in, or in one that was allocated on the way.
-/

import Samconf.Spec.Layout

namespace Samconf

open Foundation
open RoseTree (relabel addChild)

namespace Heap

variable {heap heap' heap'' : Heap} {config config' config'' s : Config}
  {addr addr' addr'' : List ℕ → Addr} {p : List ℕ}

/-- Only the cells of the tree matter. -/
theorem Layout.congr (h : Layout heap config addr)
    (hsame : ∀ q, config.outline q ≠ none → heap'[addr q]? = heap[addr q]?) :
    Layout heap' config addr where
  cells q d n hq := by
    obtain ⟨link, hcell, hlink⟩ := h.cells q d n hq
    exact ⟨link, by rw [hsame q (by simp [hq]), hcell], hlink⟩
  separate := h.separate

/-- A cell at another address is the same after a write. -/
theorem getElem?_modify_of_ne {a b : Addr} {f : Cell → Cell} (hne : b ≠ a) :
    (heap.modify a f)[b]? = heap[b]? := by
  simp [Ne.symm hne]

theorem length_update (heap : Heap) (a : Addr) (f : NodeData → NodeData) :
    (heap.update a f).length = heap.length := by
  simp [Heap.update]

/-- Writing members of a node. -/
theorem Layout.update (h : Layout heap config addr) (hs : config.sub? p = some s)
    (f : NodeData → NodeData) :
    Layout (heap.update (addr p) f) (config.modify (relabel f) p) addr := by
  have hp : config.outline p ≠ none := RoseTree.outline_ne_none.mpr ⟨s, hs⟩
  refine ⟨fun q d n hq => ?_, fun q r hq hr => h.separate q r
    ((RoseTree.outline_modify_relabel_ne_none hs q).mp hq)
    ((RoseTree.outline_modify_relabel_ne_none hs r).mp hr)⟩
  rw [RoseTree.outline_modify_relabel hs] at hq
  by_cases hqp : q = p
  · subst hqp
    rw [if_pos rfl] at hq
    cases hq
    obtain ⟨link, hcell, hlink⟩ := h.node hs
    exact ⟨link, by rw [getElem?_update, hcell]; rfl, hlink⟩
  · rw [if_neg hqp] at hq
    obtain ⟨link, hcell, hlink⟩ := h.cells q d n hq
    have hne : addr q ≠ addr p := fun heq => hqp (h.separate q p (by simp [hq]) hp heq)
    exact ⟨link, by rw [getElem?_update_of_ne hne, hcell], hlink⟩

/-- Losing the array of a node. -/
theorem Layout.lose (h : Layout heap config addr) (hs : config.sub? p = some s) :
    Layout (heap.modify (addr p) fun cell => { cell with children := [] })
      (config.modify (fun _ => .node s.label []) p) addr := by
  have hp : config.outline p ≠ none := RoseTree.outline_ne_none.mpr ⟨s, hs⟩
  refine ⟨fun q d n hq => ?_, fun q r hq hr => h.separate q r
    (RoseTree.outline_ne_none_of_childless hs hq) (RoseTree.outline_ne_none_of_childless hs hr)⟩
  rw [RoseTree.outline_modify_childless hs] at hq
  by_cases hqp : q = p
  · subst hqp
    rw [if_pos rfl] at hq
    cases hq
    obtain ⟨link, hcell, hlink⟩ := h.node hs
    refine ⟨link, ?_, hlink⟩
    rw [List.getElem?_modify_eq, hcell]
    rfl
  · rw [if_neg hqp] at hq
    by_cases hbelow : p <+: q
    · rw [if_pos hbelow] at hq
      cases hq
    · rw [if_neg hbelow] at hq
      obtain ⟨link, hcell, hlink⟩ := h.cells q d n hq
      have hne : addr q ≠ addr p := fun heq => hqp (h.separate q p (by simp [hq]) hp heq)
      exact ⟨link, by rw [getElem?_modify_of_ne hne, hcell], hlink⟩

/-- **Memory holds one tree** at an address, and in one way. -/
theorem Layout.unique (h : Layout heap config addr) (h' : Layout heap config' addr')
    (htop : addr' [] = addr []) (p : List ℕ) {d : NodeData} {n : ℕ}
    (hp : config.outline p = some (d, n)) :
    config'.outline p = some (d, n) ∧ addr' p = addr p := by
  have hsame {q : List ℕ} {d : NodeData} {n : ℕ} (hq : config.outline q = some (d, n))
      (hq' : config'.outline q ≠ none) (haddr : addr' q = addr q) :
      config'.outline q = some (d, n) ∧
        childAddrs addr' q n = childAddrs addr q n := by
    obtain ⟨link, hcell, -⟩ := h.cells q d n hq
    obtain ⟨⟨d', n'⟩, hsome⟩ := Option.ne_none_iff_exists'.mp hq'
    obtain ⟨link', hcell', -⟩ := h'.cells q d' n' hsome
    rw [haddr, hcell] at hcell'
    obtain ⟨rfl, -, hchildren⟩ : d = d' ∧ link = link' ∧
      childAddrs addr q n = childAddrs addr' q n' := by simpa using hcell'
    have hlength : n = n' := by simpa [childAddrs] using congrArg List.length hchildren
    subst hlength
    exact ⟨hsome, hchildren.symm⟩
  -- from the top down: the array of a node says where its children are
  induction p using List.reverseRecOn generalizing d n with
  | nil => exact ⟨(hsame hp (by simp) htop).1, htop⟩
  | append_singleton q i ih =>
      have hvalid : config.outline (q ++ [i]) ≠ none := by simp [hp]
      obtain ⟨t, ht⟩ := RoseTree.outline_ne_none.mp hvalid
      rw [RoseTree.sub?_append] at ht
      obtain ⟨s, hs, -⟩ := Option.bind_eq_some_iff.mp ht
      have hi : i < s.children.length :=
        (RoseTree.outline_child_ne_none hs i).mp hvalid
      obtain ⟨hsome, haddr⟩ := ih (RoseTree.outline_of_sub? hs)
      have hchildren := (hsame (RoseTree.outline_of_sub? hs) (by simp [hsome]) haddr).2
      have hchild : addr' (q ++ [i]) = addr (q ++ [i]) := by
        have hget := congrArg (fun as : List Addr => as[i]?) hchildren
        simpa [getElem?_childAddrs, hi] using hget
      obtain ⟨s', hs'⟩ := RoseTree.outline_ne_none.mp
        (by simp [hsome] : config'.outline q ≠ none)
      have hlength : s'.children.length = s.children.length := by
        have hboth := (RoseTree.outline_of_sub? hs').symm.trans hsome
        simpa using congrArg (Option.map Prod.snd) hboth
      have hvalid' := (RoseTree.outline_child_ne_none hs' i).mpr (hlength ▸ hi)
      exact ⟨(hsame hp hvalid' hchild).1, hchild⟩

/-- One more leaf is one more position. -/
theorem outline_leaf_ne_none (hs : config.sub? p = some s) (d : NodeData) (q : List ℕ) :
    (config.modify (addChild NodeData.bump (.node d [])) p).outline q ≠ none ↔
      q = p ++ [s.children.length] ∨ config.outline q ≠ none :=
  RoseTree.outline_modify_addChild_ne_none hs rfl q

/-! ## What moves -/

/-- A tree in memory before and after: its top stays, every node is in the cell it was in
or in one from `lo` on, and the other cells below `lo` are the same. -/
structure Moves (lo : ℕ) (heap : Heap) (config : Config) (addr : List ℕ → Addr)
    (heap' : Heap) (config' : Config) (addr' : List ℕ → Addr) : Prop where
  layout : Layout heap' config' addr'
  top : addr' [] = addr []
  longer : heap.length ≤ heap'.length
  places : ∀ q, config'.outline q ≠ none →
    config.outline q ≠ none ∧ addr' q = addr q ∨ lo ≤ addr' q
  frame : ∀ b < lo, (∀ q, config.outline q ≠ none → addr q ≠ b) → heap'[b]? = heap[b]?

namespace Moves

variable {lo : ℕ}

theorem refl (h : Layout heap config addr) (lo : ℕ) :
    Moves lo heap config addr heap config addr where
  layout := h
  top := rfl
  longer := le_refl _
  places _ hq := .inl ⟨hq, rfl⟩
  frame _ _ _ := rfl

theorem trans (h : Moves lo heap config addr heap' config' addr')
    (h' : Moves lo heap' config' addr' heap'' config'' addr'') :
    Moves lo heap config addr heap'' config'' addr'' where
  layout := h'.layout
  top := h'.top.trans h.top
  longer := h.longer.trans h'.longer
  places q hq := by
    rcases h'.places q hq with ⟨hq', heq⟩ | hnew
    · rw [heq]
      exact h.places q hq'
    · exact .inr hnew
  frame b hb hout := by
    refine (h'.frame b hb fun q hq heq => ?_).trans (h.frame b hb hout)
    rcases h.places q hq with ⟨hold, hsame⟩ | hnew
    · exact hout q hold (hsame.symm.trans heq)
    · exact absurd (heq ▸ hnew) (Nat.not_le_of_lt hb)

theorem mono (h : Moves lo heap config addr heap' config' addr') {lo' : ℕ} (hlo : lo' ≤ lo) :
    Moves lo' heap config addr heap' config' addr' where
  layout := h.layout
  top := h.top
  longer := h.longer
  places q hq := (h.places q hq).imp_right fun hnew => hlo.trans hnew
  frame b hb := h.frame b (lt_of_lt_of_le hb hlo)

/-- A tree in other cells below `lo` is still there. -/
theorem other (h : Moves lo heap config addr heap' config' addr') {other : Config}
    {place : List ℕ → Addr} (hother : Layout heap other place)
    (hlo : ∀ q, other.outline q ≠ none → place q < lo)
    (hapart : ∀ p q, config.outline p ≠ none → other.outline q ≠ none → addr p ≠ place q) :
    Layout heap' other place :=
  hother.congr fun q hq => h.frame (place q) (hlo q hq) fun p hp => hapart p q hp hq

/-- And the two are still apart. -/
theorem apart (h : Moves lo heap config addr heap' config' addr') {other : Config}
    {place : List ℕ → Addr} (hlo : ∀ q, other.outline q ≠ none → place q < lo)
    (hapart : ∀ p q, config.outline p ≠ none → other.outline q ≠ none → addr p ≠ place q) :
    ∀ p q, config'.outline p ≠ none → other.outline q ≠ none → addr' p ≠ place q := by
  intro p q hp hq heq
  rcases h.places p hp with ⟨hold, hsame⟩ | hnew
  · exact hapart p q hold hq (hsame.symm.trans heq)
  · exact absurd (heq ▸ hnew) (Nat.not_le_of_lt (hlo q hq))

/-- A new cell. -/
theorem append (h : Layout heap config addr) (cell : Cell) {lo : ℕ} (hlo : lo ≤ heap.length) :
    Moves lo heap config addr (heap ++ [cell]) config addr where
  layout := h.append cell
  top := rfl
  longer := by simp
  places _ hq := .inl ⟨hq, rfl⟩
  frame _ hb _ := List.getElem?_append_left (lt_of_lt_of_le hb hlo)

/-- Members of a node. -/
theorem update (h : Layout heap config addr) (hs : config.sub? p = some s)
    (f : NodeData → NodeData) (lo : ℕ) :
    Moves lo heap config addr (heap.update (addr p) f) (config.modify (relabel f) p) addr where
  layout := h.update hs f
  top := rfl
  longer := Nat.le_of_eq (length_update heap _ f).symm
  places q hq := .inl ⟨(RoseTree.outline_modify_relabel_ne_none hs q).mp hq, rfl⟩
  frame _ _ hout := getElem?_update_of_ne (hout p (RoseTree.outline_ne_none.mpr ⟨s, hs⟩)).symm

/-- The array of a node. -/
theorem lose (h : Layout heap config addr) (hs : config.sub? p = some s) (lo : ℕ) :
    Moves lo heap config addr (heap.modify (addr p) fun cell => { cell with children := [] })
      (config.modify (fun _ => .node s.label []) p) addr where
  layout := h.lose hs
  top := rfl
  longer := by simp
  places _ hq := .inl ⟨RoseTree.outline_ne_none_of_childless hs hq, rfl⟩
  frame _ _ hout := getElem?_modify_of_ne (hout p (RoseTree.outline_ne_none.mpr ⟨s, hs⟩)).symm

/-- One more leaf, in a cell from `lo` on. -/
theorem leaf (h : Layout heap config addr) (hs : config.sub? p = some s) {b : Addr}
    {d : NodeData} {link : Option Addr} (hb : heap[b]? = some ⟨d, link, []⟩) (hlo : lo ≤ b)
    (hfree : ∀ q, config.outline q ≠ none → addr q ≠ b) :
    Moves lo heap config addr (heap.linked (addr p) b)
      (config.modify (addChild NodeData.bump (.node d [])) p)
      (Function.update addr (p ++ [s.children.length]) b) where
  layout := h.linked hs hb hfree
  top := Function.update_of_ne (by simp) _ _
  longer := Nat.le_of_eq (length_linked heap _ _).symm
  places q hq := by
    rcases (outline_leaf_ne_none hs d q).mp hq with rfl | hold
    · exact .inr (by rwa [Function.update_self])
    · refine .inl ⟨hold, Function.update_of_ne ?_ b addr⟩
      rintro rfl
      exact Nat.lt_irrefl _ ((RoseTree.outline_child_ne_none hs _).mp hold)
  frame c hc hout :=
    getElem?_linked_of_ne (hout p (RoseTree.outline_ne_none.mpr ⟨s, hs⟩)).symm
      (Nat.ne_of_lt (lt_of_lt_of_le hc hlo))

end Moves

end Heap

end Samconf
