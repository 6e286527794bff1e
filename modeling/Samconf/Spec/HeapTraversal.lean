/-
# Traversal and climbing in memory

The traversal finds the node to continue from by its address and stores the address of
the one that follows. As no two nodes share a cell, it goes the way the traversal of the
tree goes. The climb from a node follows the parent links, which lead through its
ancestors to the top. Both end within as many steps as there are cells.
-/

import Samconf.Model.HeapMerge
import Samconf.Spec.LayoutChange
import Mathlib.Data.List.Perm.Subperm

namespace Samconf

open Foundation
open RoseTree (positions)

namespace Heap

variable {heap : Heap} {config s : Config} {addr : List ℕ → Addr} {p here : List ℕ}

/-- Every node has a cell. -/
theorem Layout.length_positions_le (h : Layout heap config addr) :
    config.positions.length ≤ heap.length := by
  have hvalid : ∀ q ∈ config.positions, config.outline q ≠ none := fun q hq =>
    RoseTree.outline_ne_none.mpr (RoseTree.mem_positions.mp hq)
  have hnodup : (config.positions.map addr).Nodup := by
    refine List.Nodup.map_on (fun q hq r hr heq => ?_) (RoseTree.nodup_positions config)
    exact h.separate q r (hvalid q hq) (hvalid r hr) heq
  have hsubset : config.positions.map addr ⊆ List.range heap.length := by
    intro a ha
    obtain ⟨q, hq, rfl⟩ := List.mem_map.mp ha
    exact List.mem_range.mpr (h.addr_lt (hvalid q hq))
  have hle := (List.Nodup.subperm hnodup hsubset).length_le
  rwa [List.length_map, List.length_range] at hle

theorem read_eq (h : Layout heap config addr) (hs : config.sub? p = some s) :
    ∃ link, heap.read (addr p) = .ok ⟨s.label, link, childAddrs addr p s.children.length⟩ := by
  obtain ⟨link, hcell, -⟩ := h.node hs
  exact ⟨link, by rw [Heap.read, hcell]; rfl⟩

/-! ## Traversal -/

/-- What the traversal leaves, in memory. -/
def NextState.of (addr : List ℕ → Addr) (state : Samconf.NextState) : NextState :=
  ⟨state.result, state.found, state.nextConfig.map addr⟩

/-- The loop over the children from index `i` on, when every call does what it should. -/
theorem findNextInChildren_eq {configToFind : List ℕ}
    {call : Addr → NextState → Except Fault NextState} {cs : List Config} {i n : ℕ}
    (hcall : ∀ j c, cs[j]? = some c → ∀ state : Samconf.NextState,
      call (addr (here ++ [i + j])) (NextState.of addr state) =
        (Samconf.findNextConfigAtLevel configToFind c (here ++ [i + j]) state.found
          state.nextConfig).map (NextState.of addr))
    (state : Samconf.NextState) :
    findNextInChildren call ((List.range' i cs.length).map fun j => addr (here ++ [j])) n
        (NextState.of addr state) =
      (Samconf.findNextInChildren configToFind cs i n here state).map (NextState.of addr) := by
  induction cs generalizing i n state with
  | nil => cases n <;> rfl
  | cons c cs ih =>
      cases n with
      | zero => rfl
      | succ n =>
          rw [List.length_cons, List.range'_succ, List.map_cons, findNextInChildren,
            Samconf.findNextInChildren]
          have hfirst := hcall 0 c rfl state
          rw [Nat.add_zero] at hfirst
          rw [hfirst]
          cases hrun : Samconf.findNextConfigAtLevel configToFind c (here ++ [i]) state.found
              state.nextConfig with
          | error e => rfl
          | ok state' =>
              refine ih (fun j c' hc' state => ?_) state'
              rw [Nat.add_right_comm]
              exact hcall (j + 1) c' hc' state

theorem findNextConfigAtLevel_eq (h : Layout heap config addr) {configToFind : List ℕ}
    (hfind : config.outline configToFind ≠ none) (hs : config.sub? here = some s) {n : ℕ}
    (hn : s.positions.length ≤ n) (found : Bool) (nextConfig : Option (List ℕ)) :
    findNextConfigAtLevel heap (addr configToFind) n (addr here) found (nextConfig.map addr) =
      (Samconf.findNextConfigAtLevel configToFind s here found nextConfig).map
        (NextState.of addr) := by
  induction s using RoseTree.induct generalizing here n found nextConfig with
  | node d cs ih =>
      obtain ⟨n, rfl⟩ : ∃ m, n = m + 1 := by
        refine Nat.exists_eq_succ_of_ne_zero ?_
        rintro rfl
        simp [RoseTree.positions_eq] at hn
      rw [findNextConfigAtLevel, Samconf.findNextConfigAtLevel, Option.isSome_map]
      by_cases hnext : nextConfig.isSome
      · rw [if_pos hnext, if_pos hnext]
        rfl
      · rw [if_neg hnext, if_neg hnext]
        cases found with
        | true => rfl
        | false =>
            obtain ⟨link, hread⟩ := read_eq h hs
            have hhere : addr here = addr configToFind ↔ here = configToFind :=
              ⟨h.separate here configToFind (RoseTree.outline_ne_none.mpr ⟨_, hs⟩) hfind,
                fun heq => heq ▸ rfl⟩
            have hempty : childAddrs addr here cs.length ≠ [] ↔ cs ≠ [] := by
              rw [ne_eq, childAddrs_eq_nil_iff, List.length_eq_zero_iff]
            have hcall : ∀ j c, cs[j]? = some c → ∀ state : Samconf.NextState,
                findNextConfigAtLevel heap (addr configToFind) n (addr (here ++ [0 + j]))
                    (NextState.of addr state).found (NextState.of addr state).nextConfig =
                  (Samconf.findNextConfigAtLevel configToFind c (here ++ [0 + j]) state.found
                    state.nextConfig).map (NextState.of addr) := by
              intro j c hc state
              have hmem := List.mem_of_getElem? hc
              have hfewer : c.positions.length < (RoseTree.node d cs).positions.length :=
                RoseTree.length_positions_child hmem
              rw [Nat.zero_add]
              exact ih c hmem (Layout.sub_child hs hc) (by omega) state.found state.nextConfig
            have hloop := @findNextInChildren_eq addr here configToFind
              (fun child state => findNextConfigAtLevel heap (addr configToFind) n child
                state.found state.nextConfig) cs 0 d.childCount hcall
              ⟨.notFound, decide (here = configToFind), nextConfig⟩
            rw [← List.range_eq_range'] at hloop
            simp only [Bool.false_eq_true, if_false, hread, hhere]
            by_cases hloops : cs ≠ [] ∧ d.childCount ≠ 0
            · rw [if_pos hloops, ← hloop]
              exact if_pos ⟨hempty.mpr hloops.1, hloops.2⟩
            · rw [if_neg hloops]
              exact if_neg fun hloops' => hloops ⟨hempty.mp hloops'.1, hloops'.2⟩

/-- **Traversal in memory** is traversal of the tree. -/
theorem samconfConfigNext_eq (h : Layout heap config addr) {configToFind : List ℕ}
    (hfind : config.outline configToFind ≠ none) :
    samconfConfigNext (addr []) (addr configToFind) heap =
      (Samconf.samconfConfigNext config configToFind).map fun r => (r.1, r.2.map addr) := by
  have hlevel := findNextConfigAtLevel_eq h hfind (RoseTree.sub?_nil config)
    h.length_positions_le false none
  rw [Option.map_none] at hlevel
  rw [samconfConfigNext, Samconf.samconfConfigNext, hlevel]
  cases Samconf.findNextConfigAtLevel configToFind config [] false none with
  | error e => rfl
  | ok state => rfl

/-! ## Climbing -/

/-- The node at the address is a top: its parent link is NULL. -/
def IsTop (heap : Heap) (a : Addr) : Prop := ∀ cell, heap[a]? = some cell → cell.parent = none

/-- The address that the parent link of a position leads to. -/
def linkOf (addr : List ℕ → Addr) (p : List ℕ) : Option Addr :=
  if p = [] then none else some (addr p.dropLast)

/-- The cell of a node, with its link. -/
theorem Layout.node_linked (h : Layout heap config addr) (htop : heap.IsTop (addr []))
    (hs : config.sub? p = some s) :
    heap[addr p]? = some ⟨s.label, linkOf addr p, childAddrs addr p s.children.length⟩ := by
  obtain ⟨link, hcell, hlink⟩ := h.node hs
  rw [hcell, linkOf]
  rcases List.eq_nil_or_concat p with rfl | ⟨q, i, rfl⟩
  · rw [if_pos rfl, ← htop _ hcell]
  · rw [List.concat_eq_append] at hlink ⊢
    rw [if_neg (by simp), List.dropLast_concat, hlink q i rfl]

theorem ancestors_concat (hs : config.sub? p = some s) (i : ℕ) :
    config.ancestors (p ++ [i]) = s.label :: config.ancestors p := by
  induction p generalizing config with
  | nil =>
      obtain rfl : config = s := by simpa using hs
      cases hc : config.children[i]? <;> simp [hc]
  | cons j p ih =>
      rw [RoseTree.sub?_cons] at hs
      obtain ⟨c, hc, hs⟩ := Option.bind_eq_some_iff.mp hs
      simp [hc, ih hs]

theorem climbToRoot_eq (h : Layout heap config addr) (htop : heap.IsTop (addr []))
    (hs : config.sub? p = some s) {n : ℕ} (hn : p.length < n) (newPath : CString) :
    climbToRoot heap n newPath (linkOf addr p) =
      Samconf.climbToRoot newPath (config.ancestors p) := by
  induction p using List.reverseRecOn generalizing s n newPath with
  | nil =>
      obtain ⟨n, rfl⟩ := Nat.exists_eq_succ_of_ne_zero (Nat.ne_of_gt hn)
      rw [RoseTree.ancestors_nil]
      rfl
  | append_singleton p i ih =>
      obtain ⟨n, rfl⟩ := Nat.exists_eq_succ_of_ne_zero (Nat.ne_of_gt (Nat.zero_lt_of_lt hn))
      rw [RoseTree.sub?_append] at hs
      obtain ⟨t, ht, -⟩ := Option.bind_eq_some_iff.mp hs
      have hlink : linkOf addr (p ++ [i]) = some (addr p) := by
        rw [linkOf, if_neg (by simp), List.dropLast_concat]
      rw [ancestors_concat ht, hlink, climbToRoot, Samconf.climbToRoot, deref_some,
        Exec.pure_bind, h.node_linked htop ht, deref_some, Exec.pure_bind]
      rw [List.length_append, List.length_singleton] at hn
      refine Exec.bind_congr (Exec.ensures_true _) fun key _ => ?_
      refine Exec.bind_congr (Exec.ensures_true _) fun existingPath _ => ?_
      cases existingPath with
      | none => rfl
      | some existingPath =>
          by_cases hroot : key = rootKey
          · refine (if_pos hroot).trans (Eq.trans ?_ (if_pos hroot).symm)
            refine Exec.bind_congr (Exec.ensures_true _) fun newPath _ => ?_
            cases newPath <;> rfl
          · refine (if_neg hroot).trans (Eq.trans ?_ (if_neg hroot).symm)
            refine Exec.bind_congr (Exec.ensures_true _) fun newPath _ => ?_
            cases newPath with
            | none => rfl
            | some newPath => exact ih ht (Nat.lt_of_succ_lt_succ hn) newPath

/-- **The path of a node** in memory is that of the node in the tree, on any supply. -/
theorem samconfPathGetPath_eq (h : Layout heap config addr) (htop : heap.IsTop (addr []))
    (hs : config.sub? p = some s) :
    samconfPathGetPath (addr p) heap = Samconf.samconfPathGetPath config p := by
  have hbound : p.length < heap.length + 1 :=
    Nat.lt_succ_of_lt (lt_of_lt_of_le (RoseTree.length_lt_positions hs) h.length_positions_le)
  rw [samconfPathGetPath, Samconf.samconfPathGetPath, h.node_linked htop hs, hs, deref_some,
    deref_some, Exec.pure_bind, Exec.pure_bind]
  refine Exec.bind_congr (Exec.ensures_true _) fun key _ => ?_
  by_cases hroot : key = rootKey
  · rw [if_pos hroot, if_pos hroot]
  · rw [if_neg hroot, if_neg hroot]
    refine Exec.bind_congr (Exec.ensures_true _) fun newPath _ => ?_
    cases newPath with
    | none => rfl
    | some newPath => exact climbToRoot_eq h htop hs hbound newPath

end Heap

end Samconf
