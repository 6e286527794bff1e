/-
# What insertion does in memory

The loop of `samconfInsertAt` keeps two things in step: the tree that it grows, and a
layout of that tree. Its invariant is that of the loop on trees, at the address of the
position. Every node that was there stays at its address, every new one is the given cell
or a cell of its own, and the cells outside of the tree are left alone.
-/

import Samconf.Spec.Layout

namespace Samconf

open Foundation
open Exec (Yields)
open RoseTree (childIdx? addChild)

namespace Heap

/-- Memory and layout after the tree has grown. -/
structure Grown (heap : Heap) (config : Config) (addr : List ℕ → Addr) (given : Addr)
    (heap' : Heap) (config' : Config) (addr' : List ℕ → Addr) : Prop where
  layout : Layout heap' config' addr'
  /-- Nodes stay where they are. -/
  kept : ∀ q, config.outline q ≠ none → addr' q = addr q
  /-- A new node is the given one or newly allocated. -/
  fresh : ∀ q, config.outline q = none → config'.outline q ≠ none →
    addr' q = given ∨ heap.length ≤ addr' q
  /-- No parent link changes but that of the given cell. -/
  links : ∀ b < heap.length, b ≠ given → heap'[b]?.map Cell.parent = heap[b]?.map Cell.parent
  /-- Cells outside of the tree are left alone. -/
  frame : ∀ b < heap.length, b ≠ given → (∀ q, config.outline q ≠ none → addr q ≠ b) →
    heap'[b]? = heap[b]?

variable {heap : Heap} {root s : Config} {addr : List ℕ → Addr} {parent : List ℕ}
  {given : Addr} {d : NodeData} {link : Option Addr}

theorem Grown.refl (h : Layout heap root addr) (given : Addr) :
    Grown heap root addr given heap root addr where
  layout := h
  kept _ _ := rfl
  fresh _ hnone hsome := absurd hnone hsome
  links _ _ _ := rfl
  frame _ _ _ _ := rfl

theorem map_parent_linked {a b child : Addr} (hne : b ≠ child) :
    (heap.linked a child)[b]?.map Cell.parent = heap[b]?.map Cell.parent := by
  by_cases hparent : b = a
  · subst hparent
    rw [getElem?_linked_parent hne, Option.map_map]
    rfl
  · rw [getElem?_linked_of_ne hparent hne]

/-- The given cell as one more leaf. -/
theorem Grown.leaf (h : Layout heap root addr) (hs : root.sub? parent = some s)
    (hgiven : heap[given]? = some ⟨d, link, []⟩)
    (hfree : ∀ q, root.outline q ≠ none → addr q ≠ given) :
    Grown heap root addr given (heap.linked (addr parent) given)
      (root.modify (addChild NodeData.bump (.node d [])) parent)
      (Function.update addr (parent ++ [s.children.length]) given) where
  layout := h.linked hs hgiven hfree
  kept q hq := by
    refine Function.update_of_ne ?_ given addr
    rintro rfl
    exact Nat.lt_irrefl _ ((RoseTree.outline_child_ne_none hs _).mp hq)
  fresh q hnone hsome := by
    rcases (RoseTree.outline_modify_addChild_ne_none hs rfl q).mp hsome with rfl | hold
    · exact .inl (Function.update_self _ _ _)
    · exact absurd hnone hold
  links b _ hne := map_parent_linked hne
  frame b _ hne hout :=
    getElem?_linked_of_ne (hout parent (RoseTree.outline_ne_none.mpr ⟨s, hs⟩)).symm hne

/-- One more leaf in a cell of its own, and then the rest. -/
theorem Grown.step {heap' : Heap} {config' : Config} {addr' : List ℕ → Addr}
    (h : Layout heap root addr) (hs : root.sub? parent = some s)
    (hrest : Grown (Heap.linked (heap ++ [⟨d, none, []⟩]) (addr parent) heap.length)
      (root.modify (addChild NodeData.bump (.node d [])) parent)
      (Function.update addr (parent ++ [s.children.length]) heap.length) given
      heap' config' addr') :
    Grown heap root addr given heap' config' addr' := by
  have hlength : (Heap.linked (heap ++ [⟨d, none, []⟩]) (addr parent) heap.length).length =
      heap.length + 1 := by
    rw [length_linked, List.length_append, List.length_singleton]
  have hfree : ∀ q, root.outline q ≠ none → addr q ≠ heap.length :=
    fun q hq => Nat.ne_of_lt (h.addr_lt hq)
  have hone := Grown.leaf (h.append ⟨d, none, []⟩) hs List.getElem?_concat_length hfree
  have hkept : ∀ q, root.outline q ≠ none →
      (root.modify (addChild NodeData.bump (.node d [])) parent).outline q ≠ none :=
    fun q hq => (RoseTree.outline_modify_addChild_ne_none hs rfl q).mpr (.inr hq)
  refine ⟨hrest.layout, fun q hq => ?_, fun q hnone hsome => ?_, fun b hb hne => ?_,
    fun b hb hne hout => ?_⟩
  · rw [hrest.kept q (hkept q hq), hone.kept q hq]
  · by_cases hq : (root.modify (addChild NodeData.bump (.node d [])) parent).outline q = none
    · exact (hrest.fresh q hq hsome).imp_right fun hle => by omega
    · right
      rw [hrest.kept q hq]
      rcases hone.fresh q hnone hq with heq | hle
      · exact Nat.le_of_eq heq.symm
      · rw [List.length_append] at hle
        omega
  · rw [hrest.links b (by omega) hne, hone.links b (by simp; omega) (Nat.ne_of_lt hb),
      List.getElem?_append_left hb]
  · rw [hrest.frame b (by omega) hne fun q hq => ?_, hone.frame b (by simp; omega)
      (Nat.ne_of_lt hb) hout, List.getElem?_append_left hb]
    by_cases hold : root.outline q = none
    · rcases hone.fresh q hold hq with heq | hle
      · rw [heq]
        exact Nat.ne_of_gt hb
      · rw [List.length_append] at hle
        exact Nat.ne_of_gt (Nat.lt_of_lt_of_le hb (Nat.le_of_add_right_le hle))
    · rw [hone.kept q hold]
      exact hout q hold

/-- After an OBJECT in a cell of its own the given cell is still free. -/
theorem Layout.addBlank (blank : NodeData) (h : Layout heap root addr)
    (hs : root.sub? parent = some s) (hgiven : heap[given]? = some ⟨d, link, []⟩)
    (hfree : ∀ q, root.outline q ≠ none → addr q ≠ given) :
    Layout (Heap.linked (heap ++ [⟨blank, none, []⟩]) (addr parent) heap.length)
        (root.modify (addChild NodeData.bump (.node blank [])) parent)
        (Function.update addr (parent ++ [s.children.length]) heap.length) ∧
      (Heap.linked (heap ++ [⟨blank, none, []⟩]) (addr parent) heap.length)[given]? =
        some ⟨d, link, []⟩ ∧
      ∀ q, (root.modify (addChild NodeData.bump (.node blank [])) parent).outline q ≠ none →
        Function.update addr (parent ++ [s.children.length]) heap.length q ≠ given := by
  have hlt := (List.getElem?_eq_some_iff.mp hgiven).1
  have hone := Grown.leaf (h.append ⟨blank, none, []⟩) hs List.getElem?_concat_length
    fun q hq => Nat.ne_of_lt (h.addr_lt hq)
  have hparent := hfree parent (RoseTree.outline_ne_none.mpr ⟨s, hs⟩)
  refine ⟨hone.layout, ?_, fun q hq => ?_⟩
  · rw [getElem?_linked_of_ne hparent.symm (Nat.ne_of_lt hlt), List.getElem?_append_left hlt,
      hgiven]
  · by_cases hold : root.outline q = none
    · rcases hone.fresh q hold hq with heq | hle
      · rw [heq]
        exact Nat.ne_of_gt hlt
      · rw [List.length_append] at hle
        exact Nat.ne_of_gt (Nat.lt_of_lt_of_le hlt (Nat.le_of_add_right_le hle))
    · rw [hone.kept q hold]
      exact hfree q hold

/-- The node that `samconfInsertAt` adds for an intermediate segment. -/
theorem makeSegment_yields (config : Addr) (segment : CString) {rest : List CString}
    (hne : rest ≠ []) (heap : Heap) :
    (makeSegment config segment (decide (rest = [])) heap).Yields
      (.ok, some heap.length, heap ++ [⟨NodeData.blank segment, none, []⟩]) := by
  rw [makeSegment, decide_eq_false hne, if_neg (by simp)]
  apply (samconfConfigNew_yields heap).bind
  apply (Exec.yields_allocFor segment).bind
  rw [update_append]
  exact Exec.yields_pure _

section Rounds

variable {root parent given : Addr} {passed rest : List CString} {segment : CString}
  {result : ConfigStatus} {a : Addr} {heap' : Heap}

/-- A round that finds a node goes on from there. -/
theorem insertSegments_of_found
    (hget : (samconfConfigGet root (prefixPath passed segment rest) heap).Yields (.ok, some a))
    (hrest : rest ≠ [] →
      (insertSegments given root (passed ++ [segment]) rest heap a .ok).Yields (.ok, heap'))
    (hlast : rest = [] → heap' = heap) :
    (insertSegments given root passed (segment :: rest) heap parent result).Yields
      (.ok, heap') := by
  rw [insertSegments, samconfPathGetPathUntil_eq]
  apply (Exec.yields_allocFor _).bind
  apply hget.bind
  by_cases hempty : rest = []
  · simp only [if_true, if_pos hempty, hlast hempty]
    exact Exec.yields_pure _
  · simp only [if_true, if_neg hempty, deref_some, Exec.pure_bind]
    exact hrest hempty

/-- A round that finds nothing adds a node and goes on from it. -/
theorem insertSegments_of_missing {made : Heap} {cell : Cell}
    (hget : (samconfConfigGet root (prefixPath passed segment rest) heap).Yields (.notFound, none))
    (hmake : (makeSegment given segment (decide (rest = [])) heap).Yields (.ok, some a, made))
    (hcell : made[parent]? = some cell) (hcount : cell.data.childCount = cell.children.length)
    (hrest : (insertSegments given root (passed ++ [segment]) rest (made.linked parent a) a
      .ok).Yields (.ok, heap')) :
    (insertSegments given root passed (segment :: rest) heap parent result).Yields
      (.ok, heap') := by
  rw [insertSegments, samconfPathGetPathUntil_eq]
  apply (Exec.yields_allocFor _).bind
  apply hget.bind
  simp only [reduceCtorEq, if_false]
  apply hmake.bind
  apply (samconfConfigAdd_yields hcell hcount).bind
  simp only [if_true]
  exact hrest

end Rounds

/-- The count that a round finds in the parent's cell is right. -/
theorem childCount_eq_length_childAddrs (addr : List ℕ → Addr) (hsound : root.Sound)
    (hs : root.sub? parent = some s) :
    s.label.childCount = (childAddrs addr parent s.children.length).length := by
  have hself : s.label.childCount = s.children.length := by
    simpa using (hsound.sub hs).counted.self
  simpa [childAddrs] using hself

/-- What a round of the loop looks up. -/
theorem samconfConfigGet_yields_until {passed rest : List CString} {segment : CString}
    (h : Layout heap root addr) (hsound : root.Sound)
    (hkeys : ∀ s ∈ passed ++ segment :: rest, IsPathKey s)
    (hparent : root.resolve passed = some parent) (hs : root.sub? parent = some s)
    {found : Option (List ℕ)}
    (hfound : ((childIdx? NodeData.key segment s.children).map fun i => parent ++ [i]) = found) :
    (samconfConfigGet (addr []) (prefixPath passed segment rest) heap).Yields
      ((lookupResult found).1, (lookupResult found).2.map addr) := by
  rw [samconfConfigGet_eq h, ← hfound]
  exact (Samconf.samconfConfigGet_yields_until hsound hkeys hparent hs).bind (Exec.yields_pure _)

/-- The loop grows the subtree at `parent`, and the layout with it; the last new node is
the given one, found under the path when it has the last segment for a key. -/
theorem insertSegments_yields (result : ConfigStatus) {passed rest : List CString}
    (h : Layout heap root addr) (hsound : root.Sound)
    (hkeys : ∀ s ∈ passed ++ rest, IsPathKey s) (hparent : root.resolve passed = some parent)
    (hne : rest ≠ []) (hgiven : heap[given]? = some ⟨d, link, []⟩)
    (hfree : ∀ q, root.outline q ≠ none → addr q ≠ given) :
    ∃ heap' addr',
      (insertSegments given (addr []) passed rest heap (addr parent) result).Yields
        (.ok, heap') ∧
      Grown heap root addr given heap'
        (root.modify (fun s => Config.grow (.node d []) s rest) parent) addr' ∧
      (root.resolve (passed ++ rest) = none → ∃ q,
        (root.modify (fun s => Config.grow (.node d []) s rest) parent).outline q ≠ none ∧
        addr' q = given ∧ (d.key = rest.getLast? →
          Config.resolve (root.modify (fun s => Config.grow (.node d []) s rest) parent)
            (passed ++ rest) = some q)) := by
  induction rest generalizing passed root parent heap addr result with
  | nil => exact absurd rfl hne
  | cons segment rest ih =>
      obtain ⟨s, hs⟩ := RoseTree.exists_sub?_of_resolve hparent
      have hkeys' : ∀ k ∈ (passed ++ [segment]) ++ rest, IsPathKey k := by simpa using hkeys
      have hpath : passed ++ segment :: rest = (passed ++ [segment]) ++ rest := by simp
      have hresolve := @resolve_concat _ _ _ _ segment hparent hs
      cases hi : childIdx? NodeData.key segment s.children with
      | some i =>
          have hget := samconfConfigGet_yields_until h hsound hkeys hparent hs (congrArg _ hi)
          rw [hi] at hresolve
          rw [modify_grow_of_some hs hi, hpath]
          by_cases hempty : rest = []
          · subst hempty
            refine ⟨heap, addr, insertSegments_of_found hget (absurd rfl) fun _ => rfl, ?_, ?_⟩
            · have hsame : root.modify (fun s => Config.grow (.node d []) s []) (parent ++ [i]) =
                  root := by
                simp [Config.grow]
              rw [hsame]
              exact .refl h given
            · intro hnone
              rw [List.append_nil, hresolve] at hnone
              cases hnone
          · obtain ⟨heap', addr', hloop, hgrown, hlast⟩ :=
              ih .ok h hsound hkeys' hresolve hempty hgiven hfree
            rw [List.getLast?_cons_of_ne_nil hempty]
            exact ⟨heap', addr', insertSegments_of_found hget (fun _ => hloop)
              (absurd · hempty), hgrown, hlast⟩
      | none =>
          have hget := samconfConfigGet_yields_until h hsound hkeys hparent hs (congrArg _ hi)
          rw [modify_grow_of_none hs hi, hpath]
          obtain ⟨up, hcell, -⟩ := h.node hs
          have hcount := childCount_eq_length_childAddrs addr hsound hs
          by_cases hempty : rest = []
          · subst hempty
            have hnew : (root.modify (addChild NodeData.bump (.node d [])) parent).outline
                (parent ++ [s.children.length]) ≠ none :=
              (RoseTree.outline_modify_addChild_ne_none hs rfl _).mpr (.inl rfl)
            refine ⟨_, _, insertSegments_of_missing hget (Exec.yields_pure _) hcell hcount
              (Exec.yields_pure _), Grown.leaf h hs hgiven hfree, fun _ => ⟨_, hnew,
              Function.update_self _ _ _, fun hkey => ?_⟩⟩
            have hleaf : (RoseTree.node d ([] : List Config)).label.key = some segment := hkey
            rw [List.append_nil, RoseTree.chain, resolve_addChild hparent hs hi hleaf]
          · have hmake := makeSegment_yields given segment hempty heap
            obtain ⟨hlayout, hgiven', hfree'⟩ :=
              h.addBlank (NodeData.blank segment) hs hgiven hfree
            obtain ⟨heap', addr', hloop, hgrown, hlast⟩ := ih .ok hlayout (hsound.addBlank hs)
              hkeys' (resolve_addBlank hparent hs hi) hempty hgiven' hfree'
            -- the OBJECT is the parent of what follows, the top is where it was
            have htop : Function.update addr (parent ++ [s.children.length]) heap.length [] =
                addr [] :=
              Function.update_of_ne (by simp) _ _
            rw [htop, Function.update_self] at hloop
            rw [grow_addBlank (.node d []) hs hempty] at hgrown hlast
            have hlt := h.addr_lt (RoseTree.outline_ne_none.mpr ⟨s, hs⟩)
            have hcell' := @List.getElem?_append_left _ _ [⟨NodeData.blank segment, none, []⟩] _ hlt
            rw [hcell] at hcell'
            rw [List.getLast?_cons_of_ne_nil hempty]
            exact ⟨heap', addr', insertSegments_of_missing hget hmake hcell' hcount hloop,
              Grown.step h hs hgrown, fun _ => hlast (resolve_below_addBlank hparent hs hi hempty)⟩

section InsertAt

variable (path : CString) (h : Layout heap root addr) (hsound : root.Sound)
  (hne : pathSegments path ≠ []) (hgiven : heap[given]? = some ⟨d, link, []⟩)
  (hfree : ∀ q, root.outline q ≠ none → addr q ≠ given)
include h hsound hne hgiven hfree

/-- The given cell is linked where the path does not resolve yet, whatever its key is. -/
theorem samconfInsertAt_links :
    ∃ heap' addr', (samconfInsertAt (addr []) path given heap).Yields (.ok, heap') ∧
      Grown heap root addr given heap'
        (Config.grow (.node d []) root (pathSegments path)) addr' ∧
      (root.resolve (pathSegments path) = none → ∃ q,
        (Config.grow (.node d []) root (pathSegments path)).outline q ≠ none ∧
        addr' q = given ∧ (d.key = (pathSegments path).getLast? →
          Config.resolve (Config.grow (.node d []) root (pathSegments path))
            (pathSegments path) = some q)) := by
  obtain ⟨heap', addr', hloop, hgrown, hlast⟩ := @insertSegments_yields _ _ _ [] _ _ _ .ok []
    (pathSegments path) h hsound (fun s hs => isSegment_of_mem_segments hs)
    (by simp [Config.resolve]) hne hgiven hfree
  rw [RoseTree.modify_nil, List.nil_append] at hlast
  rw [RoseTree.modify_nil] at hgrown
  refine ⟨heap', addr', ?_, hgrown, hlast⟩
  rw [samconfInsertAt]
  apply (samconfPathCreateArray_yields path).bind
  simp only [if_neg hne, if_true]
  exact hloop

/-- **Insertion in memory** lays out the tree that insertion grows. -/
theorem samconfInsertAt_yields (hkey : d.key = (pathSegments path).getLast?) :
    ∃ heap' addr', (samconfInsertAt (addr []) path given heap).Yields (.ok, heap') ∧
      Grown heap root addr given heap'
        (Config.grow (.node d []) root (pathSegments path)) addr' ∧
      (root.resolve (pathSegments path) = none → ∀ q,
        Config.resolve (Config.grow (.node d []) root (pathSegments path)) (pathSegments path) =
          some q → addr' q = given) := by
  obtain ⟨heap', addr', hinsert, hgrown, hlast⟩ :=
    samconfInsertAt_links path h hsound hne hgiven hfree
  refine ⟨heap', addr', hinsert, hgrown, fun hmissing q hq => ?_⟩
  obtain ⟨r, -, hgiven, hresolve⟩ := hlast hmissing
  obtain rfl : r = q := Option.some.inj ((hresolve hkey).symm.trans hq)
  exact hgiven

end InsertAt

end Heap

end Samconf
