/-
# Releasing a tree in memory

A deletion goes down the arrays of children and releases a node when everything below it
is released. In memory where a tree is laid out it releases the cells of the tree, every
one of them once.
-/

import Samconf.Spec.Deletion
import Samconf.Spec.HeapTraversal

namespace Samconf

open Foundation

namespace Heap

variable {heap : Heap} {config s : Config} {addr : List ℕ → Addr} {here : List ℕ}

/-- The cells of a tree, in the order in which they are released. -/
def cellsOf (config : Config) (addr : List ℕ → Addr) : List Addr := config.postorder.map addr

theorem mem_cellsOf {a : Addr} :
    a ∈ cellsOf config addr ↔ ∃ q, config.outline q ≠ none ∧ addr q = a := by
  rw [cellsOf, List.mem_map]
  simp only [RoseTree.mem_postorder, RoseTree.outline_ne_none]

/-- A cell is released once. -/
theorem Layout.nodup_cellsOf (h : Layout heap config addr) : (cellsOf config addr).Nodup := by
  refine List.Nodup.map_on (fun q hq r hr heq => ?_) (RoseTree.nodup_postorder config)
  exact h.separate q r (RoseTree.outline_ne_none.mpr (RoseTree.mem_postorder.mp hq))
    (RoseTree.outline_ne_none.mpr (RoseTree.mem_postorder.mp hr)) heq

/-- The loop over the children from index `i` on, when every call does what it should. -/
theorem deleteChildren_eq {call : Addr → Except Fault (ConfigStatus × List Addr)}
    {cs : List Config} {i : ℕ}
    (hcall : ∀ j c, cs[j]? = some c →
      call (addr (here ++ [i + j])) =
        .ok (.ok, c.postorder.map fun q => addr (here ++ (i + j) :: q))) :
    deleteChildren call cs.length ((List.range' i cs.length).map fun j => addr (here ++ [j])) =
      .ok (.ok, (RoseTree.postorderFrom i cs).map fun q => addr (here ++ q)) := by
  induction cs generalizing i with
  | nil => rfl
  | cons c cs ih =>
      have hrest := @ih (i + 1) fun j c' hc' => by
        rw [Nat.add_right_comm]
        exact hcall (j + 1) c' hc'
      have hfirst := hcall 0 c rfl
      rw [Nat.add_zero] at hfirst
      rw [List.length_cons, List.range'_succ, List.map_cons, deleteChildren, hfirst,
        RoseTree.postorderFrom, List.map_append, List.map_map]
      simp only [bind, Except.bind, hrest]
      rfl

theorem deleteBelow_eq (h : Layout heap config addr) (hs : config.sub? here = some s)
    (hheld : s.Held) {n : ℕ} (hn : s.positions.length ≤ n) :
    deleteBelow heap n (addr here) = .ok (.ok, s.postorder.map fun q => addr (here ++ q)) := by
  induction s using RoseTree.induct generalizing here n with
  | node d cs ih =>
      obtain ⟨n, rfl⟩ : ∃ m, n = m + 1 := by
        refine Nat.exists_eq_succ_of_ne_zero ?_
        rintro rfl
        simp [RoseTree.positions_eq] at hn
      obtain ⟨link, hread⟩ := read_eq h hs
      obtain ⟨hself, hbelow⟩ := RoseTree.everywhere_node.mp hheld
      have hloop := @deleteChildren_eq addr here (deleteBelow heap n) cs 0 fun j c hc => by
        have hmem := List.mem_of_getElem? hc
        have hfewer : c.positions.length < (RoseTree.node d cs).positions.length :=
          RoseTree.length_positions_child hmem
        have hle : c.positions.length ≤ n := by omega
        have hchild := ih c hmem (Layout.sub_child hs hc) (hbelow c hmem) hle
        simpa using hchild
      have hcount : d.childCount = cs.length := hheld.childCount_eq
      rw [← List.range_eq_range'] at hloop
      rw [deleteBelow, hread, RoseTree.postorder, List.map_append]
      simp only [bind, Except.bind, freeString_of_lawful hself.lawful, RoseTree.label_node, hcount]
      rw [childAddrs, RoseTree.children_node, hloop]
      simp

/-- **Deletion in memory** releases the cells of the tree, each once. -/
theorem samconfConfigDelete_eq (h : Layout heap config addr) (hheld : config.Held) :
    samconfConfigDelete (addr []) heap = .ok (.ok, cellsOf config addr) := by
  have hbelow := deleteBelow_eq h (RoseTree.sub?_nil config) hheld h.length_positions_le
  exact hbelow

end Heap

end Samconf
