/-
# Insertion disturbs nothing else

`samconfInsertAt` looks every shorter path up again in the tree it is changing and keeps
the node it found or made last to hang the next one under. Seen in memory, it leaves every
node in its cell with its members, its parent link and the children it had, in their order;
it makes the missing nodes on the way as OBJECTs, each linked to the one before, and hangs
the given node under the last. What can be found afterwards is what could be found before
and the given path with all that leads to it.
-/

import Samconf.Spec.HeapInsert

namespace Samconf

open Foundation
open Exec (Yields)

namespace Heap

/-- A tree is in memory from `root` on. Its nodes have cells of their own, with the right
count of children and with keys, and siblings have different ones. -/
def IsTree (heap : Heap) (root : Addr) : Prop :=
  ∃ config addr, Layout heap config addr ∧ addr [] = root ∧ config.Sound ∧ config.Distinct

end Heap

/-- The node is the same but for further children behind those it had. -/
structure Cell.KeptIn (cell cell' : Cell) : Prop where
  key : cell'.data.key = cell.data.key
  setting : cell'.data.setting = cell.data.setting
  parent : cell'.parent = cell.parent
  children : cell.children <+: cell'.children

/-- Between the two memories the node `config` was inserted at a path, and nothing else
has happened to the tree from `root` on. -/
structure InsertedAt (heap : Heap) (root config : Addr) (path : List CString)
    (heap' : Heap) : Prop where
  /-- Every path that resolved leads to the same node. -/
  kept : ∀ segments a, heap.resolve root segments = some a →
    heap'.resolve root segments = some a ∧
      ∃ cell cell', heap[a]? = some cell ∧ heap'[a]? = some cell' ∧ cell.KeptIn cell'
  /-- The paths that resolve now are those that lead to the given one. -/
  opened : ∀ segments, segments ≠ [] → heap.resolve root segments = none →
    (heap'.resolve root segments ≠ none ↔ segments <+: path)
  /-- The new nodes on the way are OBJECTs below one another. -/
  made : ∀ segments segment, segments ++ [segment] <+: path → segments ++ [segment] ≠ path →
    heap.resolve root (segments ++ [segment]) = none →
    ∃ parent a cell, heap'.resolve root segments = some parent ∧
      heap'.resolve root (segments ++ [segment]) = some a ∧ heap'[a]? = some cell ∧
      heap.length ≤ a ∧ cell.data.key = some segment ∧ cell.data.type = .object ∧
      cell.parent = some parent
  /-- The given node is at the end of them, unless another was there. -/
  hung : heap.resolve root path = none → ∃ parent cell cell',
    heap'.resolve root path.dropLast = some parent ∧ heap'.resolve root path = some config ∧
      heap[config]? = some cell ∧ heap'[config]? = some cell' ∧
      cell'.data.setting = cell.data.setting ∧ cell'.parent = some parent
  /-- Cells outside of the tree are left alone. -/
  others : ∀ b < heap.length, b ≠ config → (∀ segments, heap.resolve root segments ≠ some b) →
    heap'[b]? = heap[b]?
  /-- Siblings still have different keys. -/
  tree : heap'.IsTree root

namespace Heap

variable {heap heap' : Heap} {root config : Config} {addr addr' : List ℕ → Addr} {given : Addr}
  {d : NodeData} {segments : List CString}

/-- From the top the addresses are those of the positions. -/
theorem resolve_top (h : Layout heap root addr) (segments : List CString) :
    heap.resolve (addr []) segments = (root.resolve segments).map addr := by
  rw [resolve_eq h (RoseTree.sub?_nil root)]
  rfl

/-- Every node is where its keys lead. -/
theorem exists_resolve (h : Layout heap root addr) (hsound : root.Sound)
    (hdistinct : root.Distinct) {q : List ℕ} (hq : root.outline q ≠ none) :
    ∃ segments, heap.resolve (addr []) segments = some (addr q) := by
  obtain ⟨s, hs⟩ := RoseTree.outline_ne_none.mp hq
  obtain ⟨keys, hkeys⟩ := RoseTree.exists_keysAt hsound.keyed hs
  refine ⟨keys, ?_⟩
  have hresolve : root.resolve keys = some q := RoseTree.resolve_keysAt hdistinct hkeys
  rw [resolve_top h, hresolve]
  rfl

theorem grow_extends (root : Config) (d : NodeData) (segments : List CString) :
    Config.ExtendedBy (fun _ => True) root (Config.grow (.node d []) root segments) :=
  RoseTree.Extends.grow (fun _ => ⟨rfl, rfl⟩) (fun _ => ⟨rfl, rfl⟩) _ root segments

/-- Afterwards the addresses are those of the positions in the grown tree. -/
theorem Grown.resolve_after (hgrown : Grown heap root addr given heap'
      (Config.grow (.node d []) root segments) addr') (ks : List CString) :
    heap'.resolve (addr []) ks =
      (Config.resolve (Config.grow (.node d []) root segments) ks).map addr' := by
  rw [← hgrown.kept [] (by simp)]
  exact resolve_top hgrown.layout ks

section Grow

variable (hgrown : Grown heap root addr given heap'
  (Config.grow (.node d []) root segments) addr')
  (hlayout : Layout heap root addr)
include hgrown hlayout

/-- A node of the tree is kept in its cell. -/
theorem Grown.cell_keptIn (hfree : ∀ q, root.outline q ≠ none → addr q ≠ given) {q : List ℕ}
    {s : Config} (hs : root.sub? q = some s) :
    ∃ cell cell', heap[addr q]? = some cell ∧ heap'[addr q]? = some cell' ∧
      cell.KeptIn cell' := by
  have hq : root.outline q ≠ none := RoseTree.outline_ne_none.mpr ⟨s, hs⟩
  have hext := grow_extends root d segments
  obtain ⟨s', hs', hkey, hsetting⟩ := hext.kept q s hs
  obtain ⟨link, hcell, -⟩ := hlayout.node hs
  obtain ⟨link', hcell', -⟩ := hgrown.layout.node hs'
  have haddr := hgrown.kept q hq
  rw [haddr] at hcell'
  have hlink := hgrown.links (addr q) (hlayout.addr_lt hq) (hfree q hq)
  rw [hcell, hcell'] at hlink
  -- the children of a node are those it had, and more
  have hchild : ∀ i < s.children.length, i < s'.children.length ∧
      addr' (q ++ [i]) = addr (q ++ [i]) := by
    intro i hi
    have hold := (RoseTree.outline_child_ne_none hs i).mpr hi
    obtain ⟨c, hc⟩ := RoseTree.outline_ne_none.mp hold
    obtain ⟨c', hc', -⟩ := hext.kept _ c hc
    exact ⟨(RoseTree.outline_child_ne_none hs' i).mp (RoseTree.outline_ne_none.mpr ⟨c', hc'⟩),
      hgrown.kept _ hold⟩
  refine ⟨_, _, hcell, hcell', hkey, hsetting, by simpa using hlink, ?_⟩
  have hle : s.children.length ≤ s'.children.length :=
    Nat.le_of_not_lt fun hlt => Nat.lt_irrefl _ (hchild _ hlt).1
  obtain ⟨more, hmore⟩ := Nat.exists_eq_add_of_le hle
  have hsame : childAddrs addr' q s.children.length = childAddrs addr q s.children.length :=
    List.map_congr_left fun i hi => (hchild i (List.mem_range.mp hi)).2
  show childAddrs addr q s.children.length <+: childAddrs addr' q s'.children.length
  rw [← hsame, hmore, childAddrs, childAddrs, List.range_add, List.map_append]
  exact List.prefix_append _ _

/-- A path that resolved leads to the same node. -/
theorem Grown.kept_resolve (hfree : ∀ q, root.outline q ≠ none → addr q ≠ given)
    {ks : List CString} {a : Addr} (ha : heap.resolve (addr []) ks = some a) :
    heap'.resolve (addr []) ks = some a ∧
      ∃ cell cell', heap[a]? = some cell ∧ heap'[a]? = some cell' ∧ cell.KeptIn cell' := by
  rw [resolve_top hlayout] at ha
  obtain ⟨q, hq, rfl⟩ := Option.map_eq_some_iff.mp ha
  obtain ⟨s, hs⟩ := RoseTree.exists_sub?_of_resolve hq
  refine ⟨?_, hgrown.cell_keptIn hlayout hfree hs⟩
  have hq' := RoseTree.Extends.resolve (fun _ _ h => h.1) (grow_extends root d segments) hq
  rw [← Config.resolve] at hq'
  rw [hgrown.resolve_after, hq', Option.map_some,
    hgrown.kept q (RoseTree.outline_ne_none.mpr ⟨s, hs⟩)]

end Grow

/-- A node below the top is in the cell of its key, linked to where the path to it leads. -/
theorem Layout.cell_of_resolve (h : Layout heap root addr) {q : List ℕ} {segment : CString}
    (hq : root.resolve (segments ++ [segment]) = some q) :
    ∃ p s cell, root.resolve segments = some p ∧ root.sub? q = some s ∧
      heap[addr q]? = some cell ∧ cell.data = s.label ∧ s.label.key = some segment ∧
      cell.parent = some (addr p) := by
  obtain ⟨p, hp, -⟩ := RoseTree.exists_resolve_of_prefix hq (List.prefix_append segments [segment])
  obtain ⟨t, ht⟩ := RoseTree.exists_sub?_of_resolve hp
  rw [resolve_concat hp ht] at hq
  obtain ⟨i, hi, rfl⟩ := Option.map_eq_some_iff.mp hq
  obtain ⟨c, hc, hkey, -⟩ := RoseTree.childIdx?_eq_some.mp hi
  obtain ⟨link, hcell, hlink⟩ := h.node (Layout.sub_child ht hc)
  exact ⟨p, c, _, hp, Layout.sub_child ht hc, hcell, rfl, hkey, hlink p i rfl⟩

/-- What insertion opens: the given setting at the end of the path and OBJECTs before. -/
theorem setting_grow_of_none (hkey : d.key = segments.getLast?) {ks : List CString}
    (hnone : root.resolve ks = none) :
    Config.setting (Config.grow (.node d []) root segments) ks =
      if ks = segments then some d.setting
      else if ks <+: segments then ks.getLast?.map fun k => (NodeData.blank k).setting
      else none := by
  have hview := RoseTree.view_grow (π := NodeData.setting) NodeData.key_bump NodeData.key_blank
    NodeData.setting_bump (.node d []) root rfl (fun k hk => hkey.trans hk) ks
  have hbefore : RoseTree.view NodeData.key NodeData.setting root ks = none :=
    RoseTree.view_eq_none_iff.mpr hnone
  rw [hbefore, Option.none_or] at hview
  exact hview

theorem resolve_grow_ne_none_iff (hkey : d.key = segments.getLast?) {ks : List CString}
    (hne : ks ≠ []) (hnone : root.resolve ks = none) :
    Config.resolve (Config.grow (.node d []) root segments) ks ≠ none ↔ ks <+: segments := by
  have hsetting := setting_grow_of_none hkey hnone
  rw [Config.resolve, ne_eq, ← @RoseTree.view_eq_none_iff _ _ _ _ _ NodeData.setting, ← ne_eq]
  rw [Config.setting] at hsetting
  rw [hsetting]
  by_cases hsame : ks = segments
  · simp [hsame]
  · by_cases hpre : ks <+: segments
    · simp [hsame, hpre, hne]
    · simp [hsame, hpre]

/-- What a path leads to that did not resolve was not there before. -/
theorem outline_of_new {ks : List CString} {q : List ℕ}
    (hnone : root.resolve ks = none)
    (hq : Config.resolve (Config.grow (.node d []) root segments) ks = some q) :
    root.outline q = none := by
  by_contra hold
  obtain ⟨s, hs⟩ := RoseTree.outline_ne_none.mp hold
  rw [(grow_extends root d segments).resolve_of_old hq hs] at hnone
  cases hnone

section New

variable (hgrown : Grown heap root addr given heap'
  (Config.grow (.node d []) root segments) addr')
  (hkey : d.key = segments.getLast?)
  (hlast : root.resolve segments = none → ∀ q,
    Config.resolve (Config.grow (.node d []) root segments) segments = some q → addr' q = given)
include hgrown hkey hlast

/-- A new node before the end of the path is in a cell of its own. -/
theorem Grown.length_le {ks : List CString} (hpre : ks <+: segments) (hproper : ks ≠ segments)
    (hne : ks ≠ []) (hnone : root.resolve ks = none) {q : List ℕ}
    (hq : Config.resolve (Config.grow (.node d []) root segments) ks = some q) :
    heap.length ≤ addr' q := by
  obtain ⟨s, hs⟩ := RoseTree.exists_sub?_of_resolve hq
  have hnew := RoseTree.outline_ne_none.mpr ⟨s, hs⟩
  refine (hgrown.fresh q (outline_of_new hnone hq) hnew).resolve_left fun hgiven => hproper ?_
  -- otherwise it would be where the whole path leads
  have hpath : root.resolve segments = none := by
    by_contra hsome
    obtain ⟨r, hr⟩ := Option.ne_none_iff_exists'.mp hsome
    obtain ⟨r', hr', -⟩ := RoseTree.exists_resolve_of_prefix hr hpre
    rw [Config.resolve, hr'] at hnone
    cases hnone
  have hsegments : segments ≠ [] := by
    rintro rfl
    exact hne (List.prefix_nil.mp hpre)
  have hresolves := (resolve_grow_ne_none_iff hkey hsegments hpath).mpr (List.prefix_refl _)
  obtain ⟨r, hr⟩ := Option.ne_none_iff_exists'.mp hresolves
  obtain ⟨t, ht⟩ := RoseTree.exists_sub?_of_resolve hr
  obtain rfl := hgrown.layout.separate q r hnew (RoseTree.outline_ne_none.mpr ⟨t, ht⟩)
    (hgiven.trans (hlast hpath r hr).symm)
  exact Option.some.inj
    ((RoseTree.keysAt_of_resolve hq).symm.trans (RoseTree.keysAt_of_resolve hr))

/-- It is an OBJECT below the one before. -/
theorem Grown.made {ks : List CString} {k : CString} (hpre : ks ++ [k] <+: segments)
    (hproper : ks ++ [k] ≠ segments) (hnone : root.resolve (ks ++ [k]) = none) :
    ∃ parent a cell, heap'.resolve (addr []) ks = some parent ∧
      heap'.resolve (addr []) (ks ++ [k]) = some a ∧ heap'[a]? = some cell ∧
      heap.length ≤ a ∧ cell.data.key = some k ∧ cell.data.type = .object ∧
      cell.parent = some parent := by
  have hsome := (resolve_grow_ne_none_iff hkey (by simp) hnone).mpr hpre
  obtain ⟨q, hq⟩ := Option.ne_none_iff_exists'.mp hsome
  obtain ⟨p, s, cell, hp, hs, hcell, hdata, hk, hparent⟩ := hgrown.layout.cell_of_resolve hq
  have hsetting := Config.setting_of_resolve hq hs
  rw [setting_grow_of_none hkey hnone, if_neg hproper, if_pos hpre] at hsetting
  have hobject : s.label.setting = (NodeData.blank k).setting := by simpa using hsetting.symm
  refine ⟨addr' p, addr' q, cell, by rw [hgrown.resolve_after, hp]; rfl,
    by rw [hgrown.resolve_after, hq]; rfl, hcell,
    hgrown.length_le hkey hlast hpre hproper (by simp) hnone hq, ?_, ?_, hparent⟩
  · rw [hdata, hk]
  · rw [hdata]
    exact congrArg Setting.type hobject

/-- The given node is at the end of the path. -/
theorem Grown.hung (hne : segments ≠ []) (hnone : root.resolve segments = none) :
    ∃ parent cell', heap'.resolve (addr []) segments.dropLast = some parent ∧
      heap'.resolve (addr []) segments = some given ∧ heap'[given]? = some cell' ∧
      cell'.data.setting = d.setting ∧ cell'.parent = some parent := by
  have hsome := (resolve_grow_ne_none_iff hkey hne hnone).mpr (List.prefix_refl _)
  obtain ⟨q, hq⟩ := Option.ne_none_iff_exists'.mp hsome
  have hgiven := hlast hnone q hq
  obtain ⟨ks, k, hpath⟩ := (List.eq_nil_or_concat' _).resolve_left hne
  have hq' : Config.resolve (Config.grow (.node d []) root segments) (ks ++ [k]) = some q := by
    rw [← hpath]
    exact hq
  obtain ⟨p, s, cell, hp, hs, hcell, hdata, -, hparent⟩ := hgrown.layout.cell_of_resolve hq'
  have hsetting := Config.setting_of_resolve hq hs
  rw [setting_grow_of_none hkey hnone, if_pos rfl] at hsetting
  rw [hgiven] at hcell
  refine ⟨addr' p, cell, ?_, ?_, hcell, ?_, hparent⟩
  · rw [hgrown.resolve_after, hpath, List.dropLast_concat, ← hpath, hp]
    rfl
  · rw [hgrown.resolve_after, hq, Option.map_some, hgiven]
  · rw [hdata]
    exact (Option.some.inj hsetting).symm

end New

/-- **Insertion disturbs nothing else.** -/
theorem samconfInsertAt_insertedAt {heap : Heap} {root config : Addr} {path : CString}
    {d : NodeData} {link : Option Addr} (htree : heap.IsTree root) (hne : pathSegments path ≠ [])
    (hconfig : heap[config]? = some ⟨d, link, []⟩) (hcount : d.childCount = 0)
    (hkey : d.key = (pathSegments path).getLast?)
    (houtside : ∀ segments, heap.resolve root segments ≠ some config) :
    ∃ heap', (samconfInsertAt root path config heap).Yields (.ok, heap') ∧
      InsertedAt heap root config (pathSegments path) heap' := by
  obtain ⟨tree, addr, hlayout, rfl, hsound, hdistinct⟩ := htree
  have hfree : ∀ q, tree.outline q ≠ none → addr q ≠ config := by
    rintro q hq rfl
    obtain ⟨segments, hsegments⟩ := exists_resolve hlayout hsound hdistinct hq
    exact houtside segments hsegments
  obtain ⟨heap', addr', hrun, hgrown, hlast⟩ :=
    samconfInsertAt_yields path hlayout hsound hne hconfig hfree hkey
  have hnone {segments : List CString} (h : heap.resolve (addr []) segments = none) :
      tree.resolve segments = none := by
    rwa [resolve_top hlayout, Option.map_eq_none_iff] at h
  refine ⟨heap', hrun, ?_, ?_, ?_, ?_, ?_, ?_⟩
  · intro segments a ha
    exact hgrown.kept_resolve hlayout hfree ha
  · intro segments hsegments hbare
    rw [hgrown.resolve_after, ne_eq, Option.map_eq_none_iff]
    exact resolve_grow_ne_none_iff hkey hsegments (hnone hbare)
  · intro segments segment hpre hproper hbare
    exact hgrown.made hkey hlast hpre hproper (hnone hbare)
  · intro hbare
    obtain ⟨parent, cell', hparent, hpath, hcell', hsetting, hlink⟩ :=
      hgrown.hung hkey hlast hne (hnone hbare)
    exact ⟨parent, _, cell', hparent, hpath, hconfig, hcell', hsetting, hlink⟩
  · intro b hb hb' hout
    refine hgrown.frame b hb hb' fun q hq heq => ?_
    obtain ⟨segments, hsegments⟩ := exists_resolve hlayout hsound hdistinct hq
    exact hout segments (heq ▸ hsegments)
  · exact ⟨_, addr', hgrown.layout, hgrown.kept [] (by simp), hsound.grow hkey hcount,
      hdistinct.grow hkey⟩

/-- A root above the leaf `a`, and a node `c = 5` that is not in the tree. -/
def leafAndOption : Heap :=
  [⟨{ NodeData.init with type := .object, childCount := 1 }, none, [1]⟩,
    ⟨{ NodeData.blank "a".toList with type := .int, value := .integer 4 }, some 0, []⟩,
    ⟨{ NodeData.init with key := some "c".toList, type := .int, value := .integer 5 }, none, []⟩]

/-- The leaf was linked to the root. -/
theorem layout_leafAndOption : ∃ config addr, Layout leafAndOption config addr ∧ addr [] = 0 ∧
    config.Sound ∧ config.Distinct ∧ ∀ q, addr q ≠ 2 := by
  let top : NodeData := { NodeData.init with type := .object }
  let leaf : NodeData := { NodeData.blank "a".toList with type := .int, value := .integer 4 }
  let unlinked : Heap := leafAndOption.set 0 ⟨top, none, []⟩
  have hroot : Layout unlinked (.node top []) fun _ => 0 :=
    @Layout.single unlinked 0 top none rfl
  have hleaf : unlinked[1]? = some ⟨leaf, some 0, []⟩ := rfl
  have hlinked := hroot.linked (RoseTree.sub?_nil _) hleaf (by simp)
  refine ⟨_, _, hlinked, rfl, ⟨by decide, by decide⟩, by decide, fun q => ?_⟩
  rw [Function.update_apply]
  split
  · decide
  · decide

/-- The option goes to `a/b/c`, below the leaf and a node made for `b`. -/
theorem leafAndOption_insertedAt :
    ∃ heap', (samconfInsertAt 0 "a/b/c".toList 2 leafAndOption).Yields (.ok, heap') ∧
      InsertedAt leafAndOption 0 2 (pathSegments "a/b/c".toList) heap' := by
  obtain ⟨config, addr, hlayout, htop, hsound, hdistinct, hfree⟩ := layout_leafAndOption
  refine samconfInsertAt_insertedAt ⟨config, addr, hlayout, htop, hsound, hdistinct⟩
    (by decide) rfl rfl (by decide) fun segments hsegments => ?_
  rw [← htop, resolve_top hlayout] at hsegments
  obtain ⟨q, -, hq⟩ := Option.map_eq_some_iff.mp hsegments
  exact hfree q hq

end Heap

end Samconf
