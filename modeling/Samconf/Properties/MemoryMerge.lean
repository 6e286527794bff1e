/-
# Merging in memory

Merging configurations in memory, pointers and all, is merging them as trees. On every
supply the two run side by side: they fault alike, ask for memory alike and return the
same status, and afterwards memory holds the tree that the merge of trees leaves. No
pointer to a node goes stale by a merge without failing allocations, and no memory is lost
by it: when the trees are deleted in the end, every cell has been released once.
-/

import Samconf.Spec.HeapComplete
import Samconf.Spec.HeapDelete
import Samconf.Spec.Shape

namespace Samconf

open Foundation
open Exec (Yields Mirrors)

namespace Heap

variable {heap : Heap} {config : Config} {addr : List ℕ → Addr}

/-- A configuration to merge and the addresses of its nodes. -/
abbrev Placement := Config × (List ℕ → Addr)

/-- What a merge of configurations leaves in memory: the status, the tree, and the
configurations that were merged, untouched. -/
def MergedInMemory (heap : Heap) (config : Config) (addr : List ℕ → Addr)
    (sources : List Placement) (r : ConfigStatus × Config) (r' : MergeOutcome) : Prop :=
  r'.result = r.1 ∧ ∃ addr', Merges heap config addr r'.heap r.2 addr' r'.released ∧
    ∀ source ∈ sources, Beside r'.heap r.2 addr' source.1 source.2

theorem mergeConfigsFrom_mirrors {sources others : List Placement} (hothers : others ⊆ sources)
    (hlayout : Layout heap config addr)
    (h : ∀ source ∈ sources, Beside heap config addr source.1 source.2)
    (hreadable : ∀ source ∈ sources, source.1.Readable) (result : ConfigStatus) :
    Mirrors (MergedInMemory heap config addr sources)
      (Samconf.mergeConfigsFrom result config (others.map Prod.fst))
      (mergeConfigsFrom (addr []) result (others.map fun source => source.2 []) heap) := by
  induction others generalizing heap config addr result with
  | nil => exact Exec.mirrors_pure ⟨rfl, addr, .of_moves (.refl hlayout _), h⟩
  | cons source others ih =>
      have hsource := hothers List.mem_cons_self
      rw [List.map_cons, List.map_cons, mergeConfigsFrom, Samconf.mergeConfigsFrom,
        Samconf.samconfConfigMergeConfig, Exec.bind_assoc]
      refine (mergeConfig_mirrors (h source hsource) (hreadable source hsource)).bind ?_
      rintro outcome outcome' ⟨hresult, addr', freed, hreleased, hmerges⟩
      rw [List.nil_append] at hreleased
      subst hreleased
      have h' : ∀ source ∈ sources,
          Beside outcome'.heap outcome.mergedConfig addr' source.1 source.2 :=
        fun other hother => (h other hother).moved hmerges.moves
      have hrule := followsMergeRule_eq (h' source hsource)
      rw [hmerges.moves.top] at hrule
      rw [hrule, Exec.lift_ok_bind, hresult, Exec.pure_bind]
      by_cases hstop : Samconf.followsMergeRule outcome.mergedConfig source.1 = true ∧
          outcome.result ≠ .ok
      · simp only [if_pos hstop]
        exact Exec.mirrors_pure ⟨hresult, addr', hmerges, h'⟩
      · simp only [if_neg hstop]
        have hrest := ih (fun other hother => hothers (List.mem_cons_of_mem _ hother))
          hmerges.moves.layout h' outcome.result
        rw [hmerges.moves.top] at hrest
        refine (hrest.mono ?_).map_right
        rintro r r' ⟨hresult', addr'', hmerges', hbeside⟩
        exact ⟨hresult', addr'', hmerges.trans hmerges', hbeside⟩

/-- **A merge in memory is the merge of the trees.** Take a tree and configurations that
are in memory without sharing a cell with it. On every supply, whichever allocations fail,
`samconfConfigMergeConfigs` on their addresses faults as the merge of the trees does, asks
for memory as that does, and returns its status; then memory holds the tree that it leaves.
Nodes have stayed in their cells, the configurations are untouched, and what was released
are cells made on the way, each once, none of them a node. -/
theorem samconfConfigMergeConfigs_in_memory {sources : List Placement}
    (hlayout : Layout heap config addr)
    (hbeside : ∀ source ∈ sources, Beside heap config addr source.1 source.2)
    (hreadable : ∀ source ∈ sources, source.1.Readable) :
    Mirrors (fun r r' => ∃ config', r.2 = some config' ∧
        MergedInMemory heap config addr sources (r.1, config') r')
      (Samconf.samconfConfigMergeConfigs (some config) (sources.map Prod.fst))
      (samconfConfigMergeConfigs (addr []) (sources.map fun source => source.2 []) heap) := by
  have hmerge := mergeConfigsFrom_mirrors (List.Subset.refl sources) hlayout hbeside hreadable
    .error
  rw [Samconf.samconfConfigMergeConfigs]
  refine Mirrors.map_left (hmerge.mono ?_)
  exact fun r r' h => ⟨r.2, rfl, h⟩

/-! ## An example in memory -/

/-- The top of a configuration, before its child was added. -/
def sourceTop : NodeData := { NodeData.init with key := some configKey, type := .object }

/-- Its option `a = 5`. -/
def sourceLeaf : NodeData := { NodeData.blank "a".toList with type := .int, value := .integer 5 }

/-- A fresh root, and the configuration with the option below `root`. -/
def rootAndSource : Heap :=
  [⟨{ NodeData.init with type := .object }, none, []⟩, ⟨sourceTop.bump, none, [2]⟩,
    ⟨(NodeData.blank rootKey).bump, some 1, [3]⟩, ⟨sourceLeaf, some 2, []⟩]

/-- The configuration as a tree. -/
def sourceTree : Config :=
  .node sourceTop.bump [.node (NodeData.blank rootKey).bump [.node sourceLeaf []]]

/-- Where its nodes are. -/
def sourcePlace : List ℕ → Addr := Function.update (Function.update (fun _ => 1) [0] 2) [0, 0] 3

theorem rootAndSource_beside : Beside rootAndSource
    (.node { NodeData.init with type := .object } []) (fun _ => 0) sourceTree sourcePlace where
  merged := @Layout.single rootAndSource 0 _ none rfl
  other := by
    let unlinked : Heap := (rootAndSource.set 1 ⟨sourceTop, none, []⟩).set 2
      ⟨NodeData.blank rootKey, none, []⟩
    have htop : Layout unlinked (.node sourceTop []) fun _ => 1 :=
      @Layout.single unlinked 1 sourceTop none rfl
    have hroot : unlinked[2]? = some ⟨NodeData.blank rootKey, none, []⟩ := rfl
    have hlinked := htop.linked (RoseTree.sub?_nil _) hroot (by simp)
    have hleaf : (unlinked.linked 1 2)[3]? = some ⟨sourceLeaf, some 2, []⟩ := rfl
    refine hlinked.linked (p := [0]) rfl hleaf fun q _ => ?_
    rw [Function.update_apply]
    split <;> decide
  top cell hcell := by
    cases hcell
    rfl
  apart p q _ _ := by
    rw [sourcePlace, Function.update_apply, Function.update_apply]
    split
    · decide
    · split <;> decide

theorem rootAndSource_besides : ∀ source ∈ [(sourceTree, sourcePlace)],
    Beside rootAndSource (.node { NodeData.init with type := .object } []) (fun _ => 0) source.1
      source.2 := by
  intro source hsource
  rw [List.mem_singleton.mp hsource]
  exact rootAndSource_beside

theorem sourceTree_placeable : ∀ source ∈ [(sourceTree, sourcePlace)], source.1.Placeable := by
  intro source hsource
  rw [List.mem_singleton.mp hsource]
  exact Config.Mergeable.placeable (by decide)

/-- Whichever allocations fail, the configuration is merged into the root as in the tree. -/
theorem rootAndSource_in_memory :
    Mirrors (fun r r' => ∃ config', r.2 = some config' ∧
        MergedInMemory rootAndSource (.node { NodeData.init with type := .object } [])
          (fun _ => 0) [(sourceTree, sourcePlace)] (r.1, config') r')
      (Samconf.samconfConfigMergeConfigs
        (some (.node { NodeData.init with type := .object } [])) [sourceTree])
      (samconfConfigMergeConfigs 0 [1] rootAndSource) :=
  samconfConfigMergeConfigs_in_memory (@Layout.single rootAndSource 0 _ none rfl)
    rootAndSource_besides fun source hsource =>
      (sourceTree_placeable source hsource).counted.readable

/-! ## Nothing is lost -/

/-- A tree with right counts and fitting unions can be deleted. -/
theorem held_of_tagged {config : Config} (hcounted : config.Counted)
    (htagged : config.Tagged) : config.Held :=
  fun p s hs => ⟨by simpa using hcounted p s hs, fun htype => htype ▸ htagged p s hs⟩

/-- Whatever configurations are merged, the tree can be deleted afterwards. -/
theorem held_foldl_stepByPath (hsound : config.Sound) (htagged : config.Tagged)
    {configs : List Config} (hplaceable : ∀ c ∈ configs, c.Placeable) :
    Config.Held (configs.foldl Config.stepByPath config) := by
  have hboth : Config.Sound (configs.foldl Config.stepByPath config) ∧
      Config.Tagged (configs.foldl Config.stepByPath config) := by
    refine List.foldlRecOn (motive := fun config' => Config.Sound config' ∧ Config.Tagged config')
      configs Config.stepByPath (And.intro hsound htagged) ?_
    rintro config' ⟨hsound', htagged'⟩ c hc
    exact ⟨hsound'.stepByPath (hplaceable c hc), htagged'.stepByPath (hplaceable c hc)⟩
  exact held_of_tagged hboth.1.counted hboth.2

section Complete

variable {sources : List Placement} (hlayout : Layout heap config addr)
  (hbeside : ∀ source ∈ sources, Beside heap config addr source.1 source.2)
  (hplaceable : ∀ source ∈ sources, source.1.Placeable) (hsound : config.Sound)
  (htagged : config.Tagged)
include hlayout hbeside hplaceable hsound htagged

/-- **A merge loses nothing.** Take a tree and configurations that are in memory without
sharing a cell with it. Without failing allocations `samconfConfigMergeConfigs` leaves the
tree of the admitted configurations laid over it, in which every node is in the cell it was
in, so that no pointer has gone stale. Cells of neither are as they were, the configurations
are untouched, and a cell that was made on the way is a node of the tree or was released,
not both, and no cell was released twice. -/
theorem samconfConfigMergeConfigs_complete : ∃ r addr',
    (samconfConfigMergeConfigs (addr []) (sources.map fun source => source.2 []) heap).Yields r ∧
    Completes heap config addr r.heap
      ((sources.map Prod.fst).foldl Config.stepByPath config) addr' r.released ∧
    ∀ source ∈ sources, Beside r.heap
      ((sources.map Prod.fst).foldl Config.stepByPath config) addr' source.1 source.2 := by
  obtain ⟨status, heap', addr', freed, hmerge, hcompletes⟩ :=
    mergeConfigsFrom_completes hlayout hbeside hplaceable hsound htagged .error
  exact ⟨_, addr', hmerge, hcompletes, fun source hsource =>
    (hbeside source hsource).moved hcompletes.moves⟩

end Complete

/-- The root stays in its cell, and the copies of `a = 5` are accounted for. -/
theorem rootAndSource_complete : ∃ r addr',
    (samconfConfigMergeConfigs 0 [1] rootAndSource).Yields r ∧
    Completes rootAndSource (.node { NodeData.init with type := .object } []) (fun _ => 0) r.heap
      (Config.stepByPath (.node { NodeData.init with type := .object } []) sourceTree) addr'
      r.released ∧
    ∀ source ∈ [(sourceTree, sourcePlace)], Beside r.heap
      (Config.stepByPath (.node { NodeData.init with type := .object } []) sourceTree) addr'
      source.1 source.2 :=
  samconfConfigMergeConfigs_complete (@Layout.single rootAndSource 0 _ none rfl)
    rootAndSource_besides sourceTree_placeable ⟨by decide, by decide⟩ (by decide)

/-- **No leak, no double free.** When nothing else is in memory, and the merged tree and
the configurations, which share no cells either, are deleted after the merge, every cell that
was ever allocated has been released exactly once. -/
theorem samconfConfigMergeConfigs_released_once {sources : List Placement}
    (hlayout : Layout heap config addr)
    (hbeside : ∀ source ∈ sources, Beside heap config addr source.1 source.2)
    (hplaceable : ∀ source ∈ sources, source.1.Placeable) (hsound : config.Sound)
    (htagged : config.Tagged)
    (hapart : sources.Pairwise fun a b => ∀ p q, a.1.outline p ≠ none → b.1.outline q ≠ none →
      a.2 p ≠ b.2 q)
    (hfull : ∀ b < heap.length, b ∈ cellsOf config addr ∨
      ∃ source ∈ sources, b ∈ cellsOf source.1 source.2) : ∃ r freed,
    (samconfConfigMergeConfigs (addr []) (sources.map fun source => source.2 []) heap).Yields r ∧
    samconfConfigDelete (addr []) r.heap = .ok (.ok, freed) ∧
    (∀ source ∈ sources, samconfConfigDelete (source.2 []) r.heap =
      .ok (.ok, cellsOf source.1 source.2)) ∧
    (r.released ++ freed ++ sources.flatMap fun source => cellsOf source.1 source.2).Perm
      (List.range r.heap.length) := by
  obtain ⟨r, addr', hmerge, hcompletes, hbesides⟩ :=
    samconfConfigMergeConfigs_complete hlayout hbeside hplaceable hsound htagged
  have hlayout' := hcompletes.moves.layout
  have hdelete := samconfConfigDelete_eq hlayout'
    (held_foldl_stepByPath hsound htagged (by simpa using hplaceable))
  rw [hcompletes.moves.top] at hdelete
  refine ⟨r, _, hmerge, hdelete, fun source hsource => ?_, ?_⟩
  · have hplace := hplaceable source hsource
    exact samconfConfigDelete_eq (hbesides source hsource).other
      (held_of_tagged hplace.counted hplace.tagged)
  · refine (List.perm_ext_iff_of_nodup ?_ List.nodup_range).mpr fun b => ?_
    · refine List.nodup_append.mpr ⟨List.nodup_append.mpr ⟨hcompletes.once,
        hlayout'.nodup_cellsOf, ?_⟩, List.nodup_flatMap.mpr ⟨?_, ?_⟩, ?_⟩
      · -- what was released is no node of the tree
        rintro a ha _ hb rfl
        obtain ⟨q, hq, hsame⟩ := mem_cellsOf.mp hb
        exact (hcompletes.fresh a ha).2.2 q hq hsame
      · exact fun source hsource => (hbesides source hsource).other.nodup_cellsOf
      · refine hapart.imp fun hdisjoint b hb hb' => ?_
        obtain ⟨p, hp, rfl⟩ := mem_cellsOf.mp hb
        obtain ⟨q, hq, hsame⟩ := mem_cellsOf.mp hb'
        exact hdisjoint p q hp hq hsame.symm
      · rintro a ha _ hb rfl
        obtain ⟨source, hsource, hb⟩ := List.mem_flatMap.mp hb
        obtain ⟨q, hq, rfl⟩ := mem_cellsOf.mp hb
        rcases List.mem_append.mp ha with ha | ha
        · exact Nat.not_le_of_lt ((hbeside source hsource).other.addr_lt hq)
            (hcompletes.fresh _ ha).1
        · obtain ⟨p, hp, hsame⟩ := mem_cellsOf.mp ha
          exact (hbesides source hsource).apart p q hp hq hsame
    · simp only [List.mem_append, List.mem_flatMap, List.mem_range]
      constructor
      · rintro ((hb | hb) | ⟨source, hsource, hb⟩)
        · exact (hcompletes.fresh b hb).2.1
        · obtain ⟨q, hq, rfl⟩ := mem_cellsOf.mp hb
          exact hlayout'.addr_lt hq
        · obtain ⟨q, hq, rfl⟩ := mem_cellsOf.mp hb
          exact (hbesides source hsource).other.addr_lt hq
      · intro hb
        by_cases hold : b < heap.length
        · refine (hfull b hold).imp (fun hnode => .inr ?_) id
          obtain ⟨q, hq, rfl⟩ := mem_cellsOf.mp hnode
          exact mem_cellsOf.mpr ⟨q, hcompletes.kept q hq⟩
        · exact .inl ((hcompletes.full b (Nat.le_of_not_lt hold) hb).imp_right mem_cellsOf.mpr)

/-- The root, the configuration and the copies made on the way. -/
theorem rootAndSource_released_once : ∃ r freed,
    (samconfConfigMergeConfigs 0 [1] rootAndSource).Yields r ∧
    samconfConfigDelete 0 r.heap = .ok (.ok, freed) ∧
    (∀ source ∈ [(sourceTree, sourcePlace)], samconfConfigDelete (source.2 []) r.heap =
      .ok (.ok, cellsOf source.1 source.2)) ∧
    (r.released ++ freed ++
      [(sourceTree, sourcePlace)].flatMap fun source => cellsOf source.1 source.2).Perm
        (List.range r.heap.length) :=
  samconfConfigMergeConfigs_released_once (@Layout.single rootAndSource 0 _ none rfl)
    rootAndSource_besides sourceTree_placeable ⟨by decide, by decide⟩ (by decide)
    (List.pairwise_singleton _ _) (by decide)

end Heap

end Samconf
