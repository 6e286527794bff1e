/-
# Making, copying and inserting in memory

Step by step these functions do to cells what they do to trees, whichever allocations
fail: they fault where those fault, ask for memory where those do, and leave the tree that
those leave laid out in memory. An insertion may lose an array, and everything below it,
but it moves no node; where it fails, the node to insert is as it was.
-/

import Samconf.Foundation.Mirroring
import Samconf.Spec.HeapInsert
import Samconf.Spec.HeapTraversal

namespace Samconf

open Foundation
open Exec (Yields Ensures Mirrors)
open RoseTree (relabel addChild)

namespace Heap

variable {heap : Heap} {config source target s : Config} {addr : List ℕ → Addr} {p : List ℕ}
  {lo : ℕ} {a b given : Addr} {d : NodeData} {link : Option Addr}

/-! ## New nodes -/

/-- A node that was made, in memory. -/
inductive IsNew (heap : Heap) (d : NodeData) :
    ConfigStatus × Option Config → ConfigStatus × Option Addr × Heap → Prop
  | granted : IsNew heap d (.ok, some (.node d []))
      (.ok, some heap.length, heap ++ [⟨d, none, []⟩])
  | refused : IsNew heap d (.error, none) (.error, none, heap)

theorem samconfConfigNew_mirrors (heap : Heap) :
    Mirrors (IsNew heap NodeData.init) Samconf.samconfConfigNew (samconfConfigNew heap) := by
  refine Exec.mirrors_bind (Exec.ensures_true Exec.alloc) fun granted _ => ?_
  cases granted with
  | true => exact Exec.mirrors_pure .granted
  | false => exact Exec.mirrors_pure .refused

/-! ## Copying -/

/-- The function reads the label of one node and writes that of another. -/
def CopiesLabels (copy : Config → Config → Run (ConfigStatus × Config)) : Prop :=
  ∀ source target, copy source target =
    copy (.node source.label []) (.node target.label []) >>= fun r =>
      pure (r.1, .node r.2.label target.children)

theorem setValue_eq (type : ConfigValueType) (value : Value) (target : Config) :
    setValue type value target =
      setValue type value (.node target.label []) >>= fun r =>
        pure (r.1, .node r.2.label target.children) := by
  cases target
  simp only [setValue, Exec.bind_assoc, Exec.pure_bind]
  rfl

theorem samconfConfigSetString_eq (stringValue : Option CString) (target : Config) :
    samconfConfigSetString target stringValue =
      samconfConfigSetString (.node target.label []) stringValue >>= fun r =>
        pure (r.1, .node r.2.label target.children) := by
  cases target with
  | node d children =>
      cases stringValue with
      | none => rfl
      | some string =>
          simp only [samconfConfigSetString, Exec.bind_assoc]
          congr 1
          funext _
          congr 1
          funext copy
          cases copy <;> rfl

theorem copiesLabels_samconfCopyConfigValue : CopiesLabels Samconf.samconfCopyConfigValue := by
  intro source target
  rw [Samconf.samconfCopyConfigValue, Samconf.samconfCopyConfigValue, RoseTree.label_node]
  have hwrite {α : Type} (read : Run α) {set : Config → α → Run (ConfigStatus × Config)}
      (hset : ∀ value, set target value = set (.node target.label []) value >>= fun r =>
        pure (r.1, .node r.2.label target.children)) :
      (read >>= fun value => set target value) =
        (read >>= fun value => set (.node target.label []) value) >>= fun r =>
          pure (r.1, .node r.2.label target.children) := by
    rw [Exec.bind_assoc]
    exact congrArg _ (funext hset)
  cases source.label.type with
  | none | array | object =>
      cases target
      rfl
  | string => exact hwrite _ fun value => samconfConfigSetString_eq value target
  | int => exact hwrite _ fun value => setValue_eq _ _ target
  | real => exact hwrite _ fun value => setValue_eq _ _ target
  | boolean => exact hwrite _ fun value => setValue_eq _ _ target

theorem copiesLabels_samconfConfigCopyConfig : CopiesLabels Samconf.samconfConfigCopyConfig := by
  intro source target
  simp only [Samconf.samconfConfigCopyConfig, RoseTree.label_node, Exec.bind_assoc]
  congr 1
  funext key
  congr 1
  funext copy
  cases target with
  | node d children =>
      cases copy with
      | none => rfl
      | some copy =>
          simp only [relabel]
          rw [copiesLabels_samconfCopyConfigValue source]
          conv_rhs => rw [copiesLabels_samconfCopyConfigValue]
          simp only [Exec.bind_assoc, Exec.pure_bind]
          rfl

/-- A copy in memory writes the label that is written to the node. -/
theorem copyWith_mirrors {copy : Config → Config → Run (ConfigStatus × Config)}
    (hcopy : CopiesLabels copy) {cell cell' : Cell} (ha : heap[a]? = some cell)
    (hdata : cell.data = source.label) (hb : heap[b]? = some cell')
    (hdata' : cell'.data = target.label) :
    Mirrors (fun r r' => r'.1 = r.1 ∧ r.2.children = target.children ∧
        r'.2 = heap.update b fun _ => r.2.label)
      (copy source target) (copyWith copy a b heap) := by
  rw [hcopy source target, copyWith, ha, hb, deref_some, deref_some, Exec.pure_bind,
    Exec.pure_bind, hdata, hdata']
  exact Exec.mirrors_bind (Exec.ensures_true _) fun r _ => Exec.mirrors_pure ⟨rfl, rfl, rfl⟩

/-! ## Releasing -/

/-- A childless cell is released alone. -/
theorem samconfConfigDelete_childless (ha : heap[a]? = some ⟨d, link, []⟩) :
    samconfConfigDelete a heap =
      (Samconf.samconfConfigDelete (.node d [])).map fun status => (status, [a]) := by
  have hlt := (List.getElem?_eq_some_iff.mp ha).1
  obtain ⟨n, hn⟩ := Nat.exists_eq_succ_of_ne_zero (Nat.ne_of_gt (Nat.zero_lt_of_lt hlt))
  rw [samconfConfigDelete, hn, deleteBelow, Samconf.samconfConfigDelete, Heap.read, ha]
  cases hfree : freeString d with
  | error e => simp [hfree, bind, Except.bind, Except.map]
  | ok u =>
      cases hcount : d.childCount <;>
        simp [hfree, hcount, bind, Except.bind, Except.map, deleteChildren,
          Samconf.deleteChildren]

/-! ## Insertion -/

/-- The cell is not part of the tree and has no children. -/
structure Free (heap : Heap) (config : Config) (addr : List ℕ → Addr) (given : Addr)
    (d : NodeData) : Prop where
  cell : ∃ link, heap[given]? = some ⟨d, link, []⟩
  apart : ∀ q, config.outline q ≠ none → addr q ≠ given

/-- What an insertion of a free cell leaves, with the addresses afterwards. -/
structure PlacedAt (lo : ℕ) (heap : Heap) (config : Config) (addr : List ℕ → Addr)
    (given : Addr) (d : NodeData) (addr' : List ℕ → Addr) (r : ConfigStatus × Config)
    (r' : ConfigStatus × Heap) : Prop where
  status : r'.1 = r.1
  moves : Moves lo heap config addr r'.2 r.2 addr'
  /-- The given cell is a node now, or it is as free as it was. -/
  given : r.1 = .ok ∧ (∃ q, r.2.outline q ≠ none ∧ addr' q = given) ∨
    Free r'.2 r.2 addr' given d
  /-- With OK no node was lost. -/
  kept : r.1 = .ok → ∀ q, config.outline q ≠ none → r.2.outline q ≠ none ∧ addr' q = addr q
  /-- With OK every new cell is a node. -/
  full : r.1 = .ok → ∀ b, heap.length ≤ b → b < r'.2.length →
    ∃ q, r.2.outline q ≠ none ∧ addr' q = b

/-- What an insertion leaves. -/
def Placed (lo : ℕ) (heap : Heap) (config : Config) (addr : List ℕ → Addr) (given : Addr)
    (d : NodeData) (r : ConfigStatus × Config) (r' : ConfigStatus × Heap) : Prop :=
  ∃ addr', PlacedAt lo heap config addr given d addr' r r'

/-- An insertion that changed nothing. -/
theorem placed_refl (h : Layout heap config addr) (hfree : Free heap config addr given d)
    (status : ConfigStatus) :
    Placed lo heap config addr given d (status, config) (status, heap) := by
  refine ⟨addr, rfl, .refl h lo, .inr hfree, fun _ q hq => ⟨hq, rfl⟩, fun _ b hb hb' => ?_⟩
  exact absurd hb' (Nat.not_lt.mpr hb)

theorem makeSegment_mirrors (config : Config) (given : Addr) (segment : CString) (isLast : Bool)
    (heap : Heap) :
    Mirrors (fun r r' => if isLast then r = (.ok, some config) ∧ r' = (.ok, some given, heap)
        else ∃ d, IsNew heap d r r')
      (Samconf.makeSegment config segment isLast) (makeSegment given segment isLast heap) := by
  rw [makeSegment, Samconf.makeSegment]
  cases isLast with
  | true => exact Exec.mirrors_pure ⟨rfl, rfl⟩
  | false =>
      simp only [Bool.false_eq_true, if_false]
      refine (samconfConfigNew_mirrors heap).bind fun r r' hnew => ?_
      cases hnew with
      | refused => exact Exec.mirrors_pure ⟨NodeData.init, .refused⟩
      | granted =>
          refine Exec.mirrors_bind (Exec.ensures_true _) fun key _ => ?_
          rw [update_append]
          exact Exec.mirrors_pure ⟨{ NodeData.init with key := key, type := .object }, .granted⟩

/-- Linking in memory and in the tree. -/
inductive IsAdded (heap : Heap) (parent child : Addr) (node added : Config) :
    ConfigStatus × Config → ConfigStatus × Heap → Prop
  | granted : IsAdded heap parent child node added (.ok, addChild NodeData.bump added node)
      (.ok, heap.linked parent child)
  | refused : IsAdded heap parent child node added (.error, .node node.label [])
      (.error, heap.modify parent fun cell => { cell with children := [] })

theorem samconfConfigAdd_mirrors (h : Layout heap config addr) (hs : config.sub? p = some s)
    (child : Addr) (added : Config) :
    Mirrors (IsAdded heap (addr p) child s added) (Samconf.samconfConfigAdd s added)
      (samconfConfigAdd (addr p) child heap) := by
  obtain ⟨link, hcell, -⟩ := h.node hs
  have hlength : (childAddrs addr p s.children.length).length = s.children.length := by
    simp [childAddrs]
  refine Exec.mirrors_bind (Exec.ensures_true Exec.alloc) fun granted _ => ?_
  cases granted with
  | false => exact Exec.mirrors_pure .refused
  | true =>
      simp only [if_true, hcell, deref_some, Exec.pure_bind, hlength]
      by_cases hcount : s.label.childCount = s.children.length
      · rw [if_pos hcount, if_pos hcount]
        exact Exec.mirrors_pure .granted
      · rw [if_neg hcount, if_neg hcount]
        exact Exec.mirrors_fault _

/-- A lookup gives the address of a node of the tree. -/
theorem samconfConfigGet_mirrors (h : Layout heap config addr) (path : CString) :
    Mirrors (fun r r' => r' = (r.1, r.2.map addr) ∧
        ∀ q, r = (.ok, some q) → ∃ t, config.sub? q = some t)
      (Samconf.samconfConfigGet config (some path)) (samconfConfigGet (addr []) path heap) := by
  rw [samconfConfigGet_eq h]
  refine (Exec.mirrors_map _ _).and_ensures (Exec.ensures_iff.mpr ?_)
  rintro o r o' hrun q rfl
  exact RoseTree.exists_sub?_of_resolve (samconfConfigGet_found hrun).1

/-- A node made on the way, and then the rest. -/
theorem PlacedAt.step {e : NodeData} {addr' : List ℕ → Addr} {r : ConfigStatus × Config}
    {r' : ConfigStatus × Heap} (h : Layout heap config addr) (hs : config.sub? p = some s)
    (hlo : lo ≤ heap.length)
    (hrest : PlacedAt lo (Heap.linked (heap ++ [⟨e, none, []⟩]) (addr p) heap.length)
      (config.modify (addChild NodeData.bump (.node e [])) p)
      (Function.update addr (p ++ [s.children.length]) heap.length) given d addr' r r') :
    PlacedAt lo heap config addr given d addr' r r' := by
  have hfree : ∀ q, config.outline q ≠ none → addr q ≠ heap.length :=
    fun q hq => Nat.ne_of_lt (h.addr_lt hq)
  have hmade := (Moves.append h ⟨e, none, []⟩ hlo).trans
    (Moves.leaf (h.append ⟨e, none, []⟩) hs List.getElem?_concat_length hlo hfree)
  have hlength : (Heap.linked (heap ++ [⟨e, none, []⟩]) (addr p) heap.length).length =
      heap.length + 1 := by
    rw [length_linked, List.length_append, List.length_singleton]
  have hgrown := outline_leaf_ne_none hs e
  refine ⟨hrest.status, hmade.trans hrest.moves, hrest.given, fun hok q hq => ?_,
    fun hok b hb hb' => ?_⟩
  · obtain ⟨hvalid, hsame⟩ := hrest.kept hok q ((hgrown q).mpr (.inr hq))
    refine ⟨hvalid, hsame.trans (Function.update_of_ne ?_ _ addr)⟩
    rintro rfl
    exact Nat.lt_irrefl _ ((RoseTree.outline_child_ne_none hs _).mp hq)
  · by_cases hnew : b = heap.length
    · obtain ⟨hvalid, hsame⟩ := hrest.kept hok _ ((hgrown _).mpr (.inl rfl))
      exact ⟨_, hvalid, by rw [hsame, Function.update_self, hnew]⟩
    · exact hrest.full hok b (by rw [hlength]; omega) hb'

/-- An array that was lost ends the insertion. -/
theorem placed_lost {heap₀ : Heap} (h : Moves lo heap config addr heap₀ config addr)
    (hs : config.sub? p = some s) (hfree : Free heap₀ config addr given d) :
    Placed lo heap config addr given d (.error, config.modify (fun _ => .node s.label []) p)
      (.error, heap₀.modify (addr p) fun cell => { cell with children := [] }) := by
  have hlost := Moves.lose h.layout hs lo
  obtain ⟨link, hcell⟩ := hfree.cell
  have hne : given ≠ addr p := (hfree.apart p (RoseTree.outline_ne_none.mpr ⟨s, hs⟩)).symm
  refine ⟨addr, rfl, h.trans hlost, .inr ⟨⟨link, ?_⟩, fun q hq => ?_⟩, (nomatch ·), (nomatch ·)⟩
  · rw [getElem?_modify_of_ne hne, hcell]
  · exact hfree.apart q (RoseTree.outline_ne_none_of_childless hs hq)

/-- The given cell as the last node. -/
theorem placed_leaf (h : Layout heap config addr) (hs : config.sub? p = some s)
    (hfree : Free heap config addr given d) (hlo : lo ≤ given) :
    Placed lo heap config addr given d
      (.ok, config.modify (addChild NodeData.bump (.node d [])) p)
      (.ok, heap.linked (addr p) given) := by
  obtain ⟨link, hcell⟩ := hfree.cell
  have hgrown := outline_leaf_ne_none hs d
  refine ⟨_, rfl, .leaf h hs hcell hlo hfree.apart, .inl ⟨rfl, _, (hgrown _).mpr (.inl rfl),
    Function.update_self _ _ _⟩, fun _ q hq => ⟨(hgrown q).mpr (.inr hq), ?_⟩, fun _ b hb hb' => ?_⟩
  · refine Function.update_of_ne ?_ given addr
    rintro rfl
    exact Nat.lt_irrefl _ ((RoseTree.outline_child_ne_none hs _).mp hq)
  · rw [length_linked] at hb'
    omega

/-- The loop of an insertion is the same in memory, wherever in a tree it stands. -/
def LoopMirrors (lo : ℕ) (given : Addr) (d : NodeData) (passed rest : List CString) : Prop :=
  ∀ {heap : Heap} {root s : Config} {addr : List ℕ → Addr} {parent : List ℕ},
    Layout heap root addr → Free heap root addr given d → root.sub? parent = some s →
      ∀ result : ConfigStatus, Mirrors (Placed lo heap root addr given d)
        (Samconf.insertSegments (.node d []) passed rest root parent result)
        (insertSegments given (addr []) passed rest heap (addr parent) result)

section Rounds

variable {root : Config} {parent : List ℕ} {passed rest : List CString}

theorem modify_addChild_eq (hs : root.sub? parent = some s) (child : Config) :
    root.modify (fun _ => addChild NodeData.bump child s) parent =
      root.modify (addChild NodeData.bump child) parent :=
  RoseTree.modify_congr hs rfl

/-- The last segment: the given cell is linked. -/
theorem linkGiven_mirrors (h : Layout heap root addr) (hfree : Free heap root addr given d)
    (hlo : lo ≤ given) (hs : root.sub? parent = some s) :
    Mirrors (Placed lo heap root addr given d)
      (do
        let (result, parentNode') ← Samconf.samconfConfigAdd s (.node d [])
        let root := root.modify (fun _ => parentNode') parent
        if result = .ok then
          Samconf.insertSegments (.node d []) passed [] root (parent ++ [s.children.length]) result
        else pure (result, root))
      (do
        let (result, heap') ← samconfConfigAdd (addr parent) given heap
        if result = .ok then insertSegments given (addr []) passed [] heap' given result
        else pure (result, heap')) := by
  refine (samconfConfigAdd_mirrors h hs given (.node d [])).bind ?_
  rintro _ _ (_ | _)
  · simp only [if_true, modify_addChild_eq hs]
    exact Exec.mirrors_pure (placed_leaf h hs hfree hlo)
  · exact Exec.mirrors_pure (placed_lost (.refl h lo) hs hfree)

/-- Another segment: a cell that was made for it is linked, and the loop goes on. -/
theorem linkMade_mirrors (h : Layout heap root addr) (hfree : Free heap root addr given d)
    (hlo : lo ≤ given) (hs : root.sub? parent = some s) (e : NodeData)
    (hloop : LoopMirrors lo given d passed rest) :
    Mirrors (Placed lo heap root addr given d)
      (do
        let (result, parentNode') ← Samconf.samconfConfigAdd s (.node e [])
        let root := root.modify (fun _ => parentNode') parent
        if result = .ok then
          Samconf.insertSegments (.node d []) passed rest root (parent ++ [s.children.length])
            result
        else pure (result, root))
      (do
        let (result, heap') ← samconfConfigAdd (addr parent) heap.length
          (heap ++ [⟨e, none, []⟩])
        if result = .ok then insertSegments given (addr []) passed rest heap' heap.length result
        else pure (result, heap')) := by
  obtain ⟨link, hgiven⟩ := hfree.cell
  have hlt := (List.getElem?_eq_some_iff.mp hgiven).1
  have hlo' : lo ≤ heap.length := hlo.trans (Nat.le_of_lt hlt)
  refine (samconfConfigAdd_mirrors (h.append ⟨e, none, []⟩) hs heap.length (.node e [])).bind ?_
  rintro _ _ (_ | _)
  · simp only [if_true, modify_addChild_eq hs]
    obtain ⟨hlayout, hgiven', hfree'⟩ := h.addBlank e hs hgiven hfree.apart
    obtain ⟨t, ht⟩ := RoseTree.outline_ne_none.mp ((outline_leaf_ne_none hs e _).mpr (.inl rfl))
    have hrest := hloop hlayout ⟨⟨link, hgiven'⟩, hfree'⟩ ht .ok
    rw [Function.update_of_ne (by simp), Function.update_self] at hrest
    refine hrest.mono ?_
    rintro r r' ⟨addr', hplaced⟩
    exact ⟨addr', hplaced.step h hs hlo'⟩
  · refine Exec.mirrors_pure (placed_lost (.append h _ hlo') hs ⟨⟨link, ?_⟩, hfree.apart⟩)
    rw [List.getElem?_append_left hlt, hgiven]

end Rounds

/-- **The loop of an insertion** in memory. -/
theorem insertSegments_mirrors (hlo : lo ≤ given) (passed rest : List CString) :
    LoopMirrors lo given d passed rest := by
  induction rest generalizing passed with
  | nil =>
      intro heap root s addr parent h hfree hs result
      exact Exec.mirrors_pure (placed_refl h hfree result)
  | cons segment rest ih =>
      intro heap root s addr parent h hfree hs result
      rw [insertSegments, Samconf.insertSegments]
      refine Exec.mirrors_bind (Exec.ensures_true _) fun pathToToken _ => ?_
      cases pathToToken with
      | none => exact ih _ h hfree hs .error
      | some path =>
          refine (samconfConfigGet_mirrors h path).bind ?_
          rintro ⟨status, found⟩ r' ⟨rfl, hfound⟩
          by_cases hok : status = .ok
          · simp only [if_pos hok]
            by_cases hlast : rest = []
            · simp only [if_pos hlast]
              exact Exec.mirrors_pure (placed_refl h hfree status)
            · simp only [if_neg hlast]
              cases found with
              | none => exact Exec.mirrors_fault _
              | some q =>
                  obtain ⟨t, ht⟩ := hfound q (by rw [hok])
                  exact ih _ h hfree ht status
          · simp only [if_neg hok]
            by_cases herror : status = .error
            · simp only [if_pos herror]
              exact Exec.mirrors_pure (placed_refl h hfree status)
            · simp only [if_neg herror]
              refine (makeSegment_mirrors (.node d []) given segment (decide (rest = []))
                heap).bind fun r r' hmade => ?_
              by_cases hlast : rest = []
              · subst hlast
                obtain ⟨rfl, rfl⟩ : r = (.ok, some (.node d [])) ∧ r' = (.ok, some given, heap) :=
                  hmade
                simp only [hs, deref_some, Exec.pure_bind]
                exact linkGiven_mirrors h hfree hlo hs
              · simp only [decide_eq_false hlast, Bool.false_eq_true, if_false] at hmade
                obtain ⟨e, hmade⟩ := hmade
                cases hmade with
                | refused => exact Exec.mirrors_pure (placed_refl h hfree _)
                | granted =>
                    simp only [hs, deref_some, Exec.pure_bind]
                    exact linkMade_mirrors h hfree hlo hs e (ih _)

/-- **Insertion in memory**, on any supply. -/
theorem samconfInsertAt_mirrors (path : CString) (h : Layout heap config addr)
    (hfree : Free heap config addr given d) (hlo : lo ≤ given) :
    Mirrors (Placed lo heap config addr given d)
      (Samconf.samconfInsertAt config path (.node d []))
      (samconfInsertAt (addr []) path given heap) := by
  rw [samconfInsertAt, Samconf.samconfInsertAt]
  refine Exec.mirrors_bind (Exec.ensures_true _) ?_
  rintro ⟨result, patharray⟩ -
  by_cases hempty : patharray = []
  · simp only [if_pos hempty]
    exact Exec.mirrors_pure (placed_refl h hfree .error)
  · simp only [if_neg hempty]
    by_cases hok : result = .ok
    · simp only [if_pos hok]
      exact insertSegments_mirrors hlo [] patharray h hfree (RoseTree.sub?_nil config) result
    · simp only [if_neg hok]
      exact Exec.mirrors_pure (placed_refl h hfree result)

end Heap

end Samconf
