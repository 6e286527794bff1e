/-
# Trees laid out in memory

A layout gives every position of a tree an address, no two the same, where the cell has
the label of the node there, the addresses of its children in order, and the link to its
parent. Looking up a path in memory is looking it up in the tree and going to the address
of what was found. Linking a childless cell to a node of a layout lays out the tree with
one more leaf.
-/

import Samconf.Foundation.Outline
import Samconf.Model.HeapInsert
import Samconf.Spec.Extension
import Samconf.Spec.Heap

namespace Samconf

open Foundation
open Exec (Yields Ensures)
open RoseTree (childIdx? addChild)

namespace Heap

/-- The addresses of a number of children. -/
def childAddrs (addr : List ℕ → Addr) (p : List ℕ) (n : ℕ) : List Addr :=
  (List.range n).map fun i => addr (p ++ [i])

/-- The tree is in memory with its nodes at the addresses. -/
structure Layout (heap : Heap) (config : Config) (addr : List ℕ → Addr) : Prop where
  /-- The label, the array of children, and the parent link below the top. -/
  cells : ∀ p d n, config.outline p = some (d, n) → ∃ link,
    heap[addr p]? = some ⟨d, link, childAddrs addr p n⟩ ∧ ∀ q i, p = q ++ [i] → link = some (addr q)
  /-- No two nodes share a cell. -/
  separate : ∀ p q, config.outline p ≠ none → config.outline q ≠ none → addr p = addr q → p = q

variable {heap : Heap} {config s : Config} {addr : List ℕ → Addr} {p : List ℕ}

theorem getElem?_childAddrs (addr : List ℕ → Addr) (p : List ℕ) (n i : ℕ) :
    (childAddrs addr p n)[i]? = if i < n then some (addr (p ++ [i])) else none := by
  by_cases hi : i < n
  · simp [childAddrs, hi]
  · simp [childAddrs, hi]

theorem childAddrs_eq_nil_iff {n : ℕ} : childAddrs addr p n = [] ↔ n = 0 := by
  simp [childAddrs]

namespace Layout

/-- The cell of a node. -/
theorem node (h : Layout heap config addr) (hs : config.sub? p = some s) :
    ∃ link, heap[addr p]? = some ⟨s.label, link, childAddrs addr p s.children.length⟩ ∧
      ∀ q i, p = q ++ [i] → link = some (addr q) :=
  h.cells p _ _ (RoseTree.outline_of_sub? hs)

/-! ## Lookup -/

/-- The child at an index is the cell at the address in the array. -/
theorem sub_child {c : Config} (hs : config.sub? p = some s) {i : ℕ}
    (hc : s.children[i]? = some c) : config.sub? (p ++ [i]) = some c := by
  rw [RoseTree.sub?_append, hs]
  simp [hc]

end Layout

/-- What the loop over the children of the node at `p` finds, in memory. -/
def Scan.of (addr : List ℕ → Addr) (p : List ℕ) : Samconf.Scan → Scan
  | .found childItr _ => .found (addr (p ++ [childItr]))
  | .childless => .childless
  | .exhausted => .exhausted

theorem scanChildren_eq (h : Layout heap config addr) (hs : config.sub? p = some s)
    (segment : CString) (n childItr : ℕ) :
    scanChildren heap (addr p) segment n childItr =
      Samconf.scanChildren s segment n childItr >>= fun scan => pure (Scan.of addr p scan) := by
  obtain ⟨link, hcell, -⟩ := h.node hs
  induction n generalizing childItr with
  | zero => rfl
  | succ n ih =>
      rw [scanChildren, Samconf.scanChildren, hcell, deref_some, Exec.pure_bind]
      by_cases hchildren : s.children = []
      · simp [hchildren, childAddrs, Scan.of]
      · have hsome : childAddrs addr p s.children.length ≠ [] := by
          rw [ne_eq, childAddrs_eq_nil_iff, List.length_eq_zero_iff]
          exact hchildren
        rw [if_neg hsome, if_neg hchildren, getElem?_childAddrs]
        cases hc : s.children[childItr]? with
        | none =>
            rw [if_neg (Nat.not_lt.mpr (List.getElem?_eq_none_iff.mp hc))]
            rfl
        | some c =>
            obtain ⟨link', hchild, -⟩ := h.node (Layout.sub_child hs hc)
            rw [if_pos (List.getElem?_eq_some_iff.mp hc).1]
            simp only [deref_some, Exec.pure_bind, hchild]
            cases hkey : c.label.key with
            | none => rfl
            | some key =>
                simp only [deref_some, Exec.pure_bind]
                by_cases heq : key = segment
                · simp [heq, Scan.of]
                · simp [heq, ih]

/-- The node that a scan finds is the child at its index. -/
theorem scanChildren_ensures_child (parent : Config) (segment : CString) (n childItr : ℕ) :
    (Samconf.scanChildren parent segment n childItr).Ensures fun scan =>
      ∀ j node, scan = .found j node → parent.children[j]? = some node := by
  induction n generalizing childItr with
  | zero => exact Exec.ensures_pure fun j node hscan => by cases hscan
  | succ n ih =>
      rw [Samconf.scanChildren]
      by_cases hchildren : parent.children = []
      · rw [if_pos hchildren]
        exact Exec.ensures_pure fun j node hscan => by cases hscan
      · rw [if_neg hchildren]
        cases hnode : parent.children[childItr]? with
        | none => exact (Exec.ensures_fault _).bind (P := fun _ => False) fun _ h => h.elim
        | some c =>
            rw [deref_some, Exec.pure_bind]
            refine (Exec.ensures_true _).bind fun key _ => ?_
            by_cases heq : key = segment
            · rw [if_pos heq]
              exact Exec.ensures_pure fun j node hscan => by
                cases hscan
                exact hnode
            · rw [if_neg heq]
              exact ih (childItr + 1)

theorem getSegments_eq (h : Layout heap config addr) (hs : config.sub? p = some s)
    (childCount : ℕ) (status : ConfigStatus) (segments : List CString) :
    getSegments heap (addr p) childCount status segments =
      Samconf.getSegments s p childCount status segments >>= fun r =>
        pure (r.1, r.2.map addr) := by
  induction segments generalizing p s childCount status with
  | nil => rfl
  | cons segment rest ih =>
      rw [getSegments, Samconf.getSegments, scanChildren_eq h hs, Exec.bind_assoc, Exec.bind_assoc]
      refine Exec.bind_congr (scanChildren_ensures_child s segment childCount 0) ?_
      intro scan hscan
      rw [Exec.pure_bind]
      cases scan with
      | found j c =>
          have hchild := Layout.sub_child hs (hscan j c rfl)
          obtain ⟨link, hcell, -⟩ := h.node hchild
          by_cases hlast : rest = []
          · simp [Scan.of, hlast]
          · simp only [Scan.of, if_neg hlast, hcell, deref_some, Exec.pure_bind]
            by_cases hempty : c.children = []
            · have haddrs : childAddrs addr (p ++ [j]) c.children.length = [] := by
                rw [childAddrs_eq_nil_iff, hempty, List.length_nil]
              rw [if_neg (not_not.mpr haddrs), if_neg (not_not.mpr hempty)]
              exact ih hchild _ _
            · have haddrs : childAddrs addr (p ++ [j]) c.children.length ≠ [] := by
                rw [ne_eq, childAddrs_eq_nil_iff, List.length_eq_zero_iff]
                exact hempty
              rw [if_pos haddrs, if_pos hempty]
              exact ih hchild _ _
      | childless => exact ih hs _ _
      | exhausted =>
          simp only [Scan.of]
          by_cases hzero : childCount ≠ 0
          · rw [if_pos hzero, if_pos hzero]
            rfl
          · rw [if_neg hzero, if_neg hzero]
            exact ih hs _ _

/-- **Lookup in memory** is lookup in the tree, on any supply. -/
theorem samconfConfigGet_eq (h : Layout heap config addr) (path : CString) :
    samconfConfigGet (addr []) path heap =
      Samconf.samconfConfigGet config (some path) >>= fun r => pure (r.1, r.2.map addr) := by
  obtain ⟨link, hcell, -⟩ := h.node (RoseTree.sub?_nil config)
  rw [samconfConfigGet, Samconf.samconfConfigGet, hcell, deref_some, Exec.pure_bind]
  simp only [childAddrs_eq_nil_iff, List.length_eq_zero_iff]
  by_cases hempty : config.children = [] ∨ config.label.childCount = 0
  · rw [if_pos hempty, if_pos hempty]
    rfl
  · rw [if_neg hempty, if_neg hempty, Exec.bind_assoc]
    congr 1
    funext r
    by_cases hok : r.1 = .ok
    · simp only [if_pos hok]
      exact getSegments_eq h (RoseTree.sub?_nil config) _ _ _
    · simp only [if_neg hok]
      rfl

/-! ## Resolution -/

/-- The key of a cell. -/
def keyAt (heap : Heap) (a : Addr) : Option CString := heap[a]?.bind fun cell => cell.data.key

/-- The node that a list of segments leads to, first match in every array. -/
def resolve (heap : Heap) : Addr → List CString → Option Addr
  | a, [] => some a
  | a, segment :: rest =>
      heap[a]?.bind fun cell =>
        (cell.children.find? fun b => decide (heap.keyAt b = some segment)).bind fun b =>
          heap.resolve b rest

theorem keyAt_child (h : Layout heap config addr) (hs : config.sub? p = some s) {c : Config} {i : ℕ}
    (hc : s.children[i]? = some c) : heap.keyAt (addr (p ++ [i])) = c.label.key := by
  obtain ⟨link, hchild, -⟩ := h.node (Layout.sub_child hs hc)
  rw [keyAt, hchild]
  rfl

/-- The first address in an array whose cell has the key. -/
theorem find?_childAddrs (h : Layout heap config addr) (hs : config.sub? p = some s)
    (segment : CString) :
    ((childAddrs addr p s.children.length).find? fun b => decide (heap.keyAt b = some segment)) =
      (childIdx? NodeData.key segment s.children).map fun i => addr (p ++ [i]) := by
  have hkey : ∀ i (hi : i < s.children.length),
      heap.keyAt (addr (p ++ [i])) = (s.children[i]).label.key :=
    fun i hi => keyAt_child h hs (List.getElem?_eq_getElem hi)
  rw [childAddrs, List.find?_map]
  cases hi : childIdx? NodeData.key segment s.children with
  | none =>
      have hnone := RoseTree.childIdx?_eq_none.mp hi
      have hnot : (List.range s.children.length).find?
          ((fun b => decide (heap.keyAt b = some segment)) ∘ fun i => addr (p ++ [i])) = none := by
        rw [List.find?_range_eq_none]
        intro i hi
        simpa [hkey i hi] using hnone _ (List.getElem_mem hi)
      rw [hnot]
  | some i =>
      obtain ⟨c, hc, hck, hfirst⟩ := RoseTree.childIdx?_eq_some.mp hi
      have hlt := (List.getElem?_eq_some_iff.mp hc).1
      have hfound : (List.range s.children.length).find?
          ((fun b => decide (heap.keyAt b = some segment)) ∘ fun i => addr (p ++ [i])) =
            some i := by
        rw [List.find?_range_eq_some]
        refine ⟨?_, List.mem_range.mpr hlt, fun j hj => ?_⟩
        · simpa [keyAt_child h hs hc] using hck
        · have hjlt := Nat.lt_trans hj hlt
          simpa [hkey j hjlt] using hfirst j hj _ (List.getElem?_eq_getElem hjlt)
      rw [hfound]

/-- **Resolution in memory** is resolution in the tree. -/
theorem resolve_eq (h : Layout heap config addr) (hs : config.sub? p = some s)
    (segments : List CString) :
    heap.resolve (addr p) segments = (s.resolve segments).map fun q => addr (p ++ q) := by
  induction segments generalizing p s with
  | nil => simp [resolve, Config.resolve]
  | cons segment rest ih =>
      obtain ⟨link, hcell, -⟩ := h.node hs
      rw [resolve, hcell, Option.bind_some, find?_childAddrs h hs, Config.resolve,
        RoseTree.resolve_cons]
      cases hi : childIdx? NodeData.key segment s.children with
      | none => rfl
      | some i =>
          obtain ⟨c, hc, -⟩ := RoseTree.childIdx?_eq_some.mp hi
          rw [Option.map_some, Option.bind_some, Option.bind_some, hc, Option.bind_some,
            ih (Layout.sub_child hs hc), Option.map_map, Config.resolve]
          simp [Function.comp_def]

/-! ## One more leaf -/

/-- A childless cell is a tree. -/
theorem Layout.single {a : Addr} {d : NodeData} {link : Option Addr}
    (ha : heap[a]? = some ⟨d, link, []⟩) : Layout heap (.node d []) fun _ => a := by
  have htop : ∀ q, RoseTree.outline (.node d []) q ≠ none → q = [] := by
    intro q hq
    cases q with
    | nil => rfl
    | cons i q => simp [RoseTree.outline_cons] at hq
  constructor
  · intro q d' n hq
    obtain rfl := htop q (by simp [hq])
    cases hq
    exact ⟨link, ha, fun r i hr => by simp at hr⟩
  · intro q r hq hr _
    rw [htop q hq, htop r hr]

/-- A new address below another node leaves the array alone. -/
theorem childAddrs_update_of_ne {q : List ℕ} (hne : q ≠ p) (n m : ℕ) (b : Addr) :
    childAddrs (Function.update addr (p ++ [n]) b) q m = childAddrs addr q m := by
  refine List.map_congr_left fun i _ => Function.update_of_ne ?_ b addr
  exact fun heq => hne (List.append_singleton_inj.mp heq).1

/-- A new address at the end of an array. -/
theorem childAddrs_update_self (n : ℕ) (b : Addr) :
    childAddrs (Function.update addr (p ++ [n]) b) p (n + 1) = childAddrs addr p n ++ [b] := by
  rw [childAddrs, List.range_succ, List.map_append, List.map_singleton, Function.update_self]
  congr 1
  refine List.map_congr_left fun i hi => Function.update_of_ne ?_ b addr
  exact fun heq => Nat.ne_of_lt (List.mem_range.mp hi) (List.append_singleton_inj.mp heq).2

/-- **Linking a childless cell** of its own lays out the tree with one more leaf. -/
theorem Layout.linked (h : Layout heap config addr) (hs : config.sub? p = some s) {b : Addr}
    {d : NodeData} {link : Option Addr} (hb : heap[b]? = some ⟨d, link, []⟩)
    (hfree : ∀ q, config.outline q ≠ none → addr q ≠ b) :
    Layout (heap.linked (addr p) b)
      (config.modify (addChild NodeData.bump (.node d [])) p)
      (Function.update addr (p ++ [s.children.length]) b) := by
  have hp : config.outline p ≠ none := RoseTree.outline_ne_none.mpr ⟨s, hs⟩
  have hnew : config.outline (p ++ [s.children.length]) = none := by
    by_contra hsome
    exact Nat.lt_irrefl _ ((RoseTree.outline_child_ne_none hs _).mp hsome)
  -- the other addresses stay, among them that of every node and of every parent
  have hold : ∀ q, q ≠ p ++ [s.children.length] →
      Function.update addr (p ++ [s.children.length]) b q = addr q :=
    fun q hq => Function.update_of_ne hq b addr
  have hvalid : ∀ q, config.outline q ≠ none → q ≠ p ++ [s.children.length] := by
    rintro q hq rfl
    exact hq hnew
  have hparent : ∀ q r i, config.outline q ≠ none → q = r ++ [i] →
      r ≠ p ++ [s.children.length] := by
    rintro q r i hq rfl rfl
    exact hq (RoseTree.outline_append_of_none hnew [i])
  constructor
  · intro q d' n hq
    rcases RoseTree.outline_modify_addChild_eq_some hs rfl hq with
      ⟨rfl, rfl, rfl⟩ | ⟨rfl, rfl, rfl⟩ | ⟨hqp, hqnew, hq⟩
    · obtain ⟨up, hcell, hup⟩ := h.node hs
      refine ⟨up, ?_, fun r i hr => ?_⟩
      · rw [hold q (hvalid q hp), getElem?_linked_parent (hfree q hp), hcell,
          childAddrs_update_self]
        rfl
      · rw [hold r (hparent q r i hp hr)]
        exact hup r i hr
    · refine ⟨some (addr p), ?_, fun r i hr => ?_⟩
      · rw [Function.update_self, getElem?_linked_child (hfree p hp), hb]
        rfl
      · obtain ⟨rfl, -⟩ := List.append_singleton_inj.mp hr
        rw [hold p (hvalid p hp)]
    · have hqvalid : config.outline q ≠ none := by simp [hq]
      have hneParent : addr q ≠ addr p := fun heq => hqp (h.separate q p hqvalid hp heq)
      obtain ⟨up, hcell, hup⟩ := h.cells q d' n hq
      refine ⟨up, ?_, fun r i hr => ?_⟩
      · rw [hold q hqnew, getElem?_linked_of_ne hneParent (hfree q hqvalid), hcell,
          childAddrs_update_of_ne hqp]
      · rw [hold r (hparent q r i hqvalid hr)]
        exact hup r i hr
  · intro q r hq hr heq
    rw [RoseTree.outline_modify_addChild_ne_none hs rfl] at hq hr
    rcases hq with rfl | hqvalid <;> rcases hr with rfl | hrvalid
    · rfl
    · rw [Function.update_self, hold r (hvalid r hrvalid)] at heq
      exact absurd heq.symm (hfree r hrvalid)
    · rw [Function.update_self, hold q (hvalid q hqvalid)] at heq
      exact absurd heq (hfree q hqvalid)
    · rw [hold q (hvalid q hqvalid), hold r (hvalid r hrvalid)] at heq
      exact h.separate q r hqvalid hrvalid heq

/-- Another cell changes nothing of a layout. -/
theorem Layout.append (h : Layout heap config addr) (cell : Cell) :
    Layout (heap ++ [cell]) config addr where
  cells p d n hp := by
    obtain ⟨link, hcell, hlink⟩ := h.cells p d n hp
    have hlt := (List.getElem?_eq_some_iff.mp hcell).1
    exact ⟨link, by rw [List.getElem?_append_left hlt, hcell], hlink⟩
  separate := h.separate

/-- Every node is one of the cells there are. -/
theorem Layout.addr_lt (h : Layout heap config addr) (hp : config.outline p ≠ none) :
    addr p < heap.length := by
  obtain ⟨s, hs⟩ := RoseTree.outline_ne_none.mp hp
  obtain ⟨link, hcell, -⟩ := h.node hs
  exact (List.getElem?_eq_some_iff.mp hcell).1

end Heap

end Samconf
