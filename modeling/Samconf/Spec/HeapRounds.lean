/-
# What a merge does in memory

A round of the merge makes a copy in a cell of its own, looks up where it belongs, and
either links it there or writes its value over the node that is there and releases it.
No round moves a node or touches the configuration that is merged, and what is released
is a cell that was made in the round and is no node. So the rounds of a merge in memory
are those of the merge on trees, whichever allocations fail.
-/

import Samconf.Spec.HeapCopy
import Samconf.Spec.Merge

namespace Samconf

open Foundation
open Exec (Yields Ensures Mirrors)
open RoseTree (relabel addChild)

namespace Heap

variable {heap : Heap} {config source s : Config} {addr place : List ℕ → Addr} {p : List ℕ}
  {d : NodeData}

/-! ## Merging one node -/

/-- A tree in memory before and after some of a merge: no node has moved, and what was
released are cells made on the way, each once, and none of them a node. -/
structure Merges (heap : Heap) (config : Config) (addr : List ℕ → Addr) (heap' : Heap)
    (config' : Config) (addr' : List ℕ → Addr) (released : List Addr) : Prop where
  moves : Moves heap.length heap config addr heap' config' addr'
  fresh : ∀ a ∈ released, heap.length ≤ a ∧ a < heap'.length ∧
    ∀ q, config'.outline q ≠ none → addr' q ≠ a
  once : released.Nodup

namespace Merges

variable {heap' heap'' : Heap} {config' config'' : Config} {addr' addr'' : List ℕ → Addr}
  {freed freed' : List Addr}

theorem of_moves (h : Moves heap.length heap config addr heap' config' addr') :
    Merges heap config addr heap' config' addr' [] :=
  ⟨h, by simp, List.nodup_nil⟩

theorem trans (h : Merges heap config addr heap' config' addr' freed)
    (h' : Merges heap' config' addr' heap'' config'' addr'' freed') :
    Merges heap config addr heap'' config'' addr'' (freed ++ freed') where
  moves := h.moves.trans (h'.moves.mono h.moves.longer)
  fresh a ha := by
    rcases List.mem_append.mp ha with ha | ha
    · obtain ⟨hnew, hlt, hout⟩ := h.fresh a ha
      refine ⟨hnew, lt_of_lt_of_le hlt h'.moves.longer, fun q hq heq => ?_⟩
      rcases h'.moves.places q hq with ⟨hold, hsame⟩ | hle
      · exact hout q hold (hsame.symm.trans heq)
      · exact absurd (heq ▸ hle) (Nat.not_le_of_lt hlt)
    · obtain ⟨hnew, hlt, hout⟩ := h'.fresh a ha
      exact ⟨h.moves.longer.trans hnew, hlt, hout⟩
  once := by
    refine List.nodup_append.mpr ⟨h.once, h'.once, ?_⟩
    rintro a ha b hb rfl
    exact absurd (h'.fresh a hb).1 (Nat.not_le_of_lt (h.fresh a ha).2.1)

end Merges

/-- A tree in memory before and after some of a merge in which nothing was lost. -/
structure Completes (heap : Heap) (config : Config) (addr : List ℕ → Addr) (heap' : Heap)
    (config' : Config) (addr' : List ℕ → Addr) (released : List Addr) : Prop
    extends Merges heap config addr heap' config' addr' released where
  /-- Nodes stay nodes, in their cells. -/
  kept : ∀ q, config.outline q ≠ none → config'.outline q ≠ none ∧ addr' q = addr q
  /-- A new cell is a node or was released. -/
  full : ∀ b, heap.length ≤ b → b < heap'.length →
    b ∈ released ∨ ∃ q, config'.outline q ≠ none ∧ addr' q = b

namespace Completes

variable {heap' heap'' : Heap} {config' config'' : Config} {addr' addr'' : List ℕ → Addr}
  {freed freed' : List Addr}

theorem refl (h : Layout heap config addr) : Completes heap config addr heap config addr [] where
  toMerges := .of_moves (.refl h _)
  kept _ hq := ⟨hq, rfl⟩
  full _ hb hb' := absurd hb' (Nat.not_lt.mpr hb)

theorem trans (h : Completes heap config addr heap' config' addr' freed)
    (h' : Completes heap' config' addr' heap'' config'' addr'' freed') :
    Completes heap config addr heap'' config'' addr'' (freed ++ freed') where
  toMerges := h.toMerges.trans h'.toMerges
  kept q hq := by
    obtain ⟨hq', hsame⟩ := h.kept q hq
    obtain ⟨hq'', hsame'⟩ := h'.kept q hq'
    exact ⟨hq'', hsame'.trans hsame⟩
  full b hb hb' := by
    by_cases hlt : b < heap'.length
    · rcases h.full b hb hlt with hfreed | ⟨q, hq, rfl⟩
      · exact .inl (List.mem_append_left _ hfreed)
      · exact .inr ⟨q, h'.kept q hq⟩
    · exact (h'.full b (Nat.le_of_not_lt hlt) hb').imp_left fun hfreed =>
        List.mem_append_right _ hfreed

/-- Members of a node, and no new cell. -/
theorem update (h : Layout heap config addr) (hs : config.sub? p = some s)
    (f : NodeData → NodeData) :
    Completes heap config addr (heap.update (addr p) f) (config.modify (relabel f) p) addr [] where
  toMerges := .of_moves (.update h hs f _)
  kept q hq := ⟨(RoseTree.outline_modify_relabel_ne_none hs q).mpr hq, rfl⟩
  full b hb hb' := by
    rw [length_update] at hb'
    exact absurd hb' (Nat.not_lt.mpr hb)

end Completes

/-- What became of one node, in memory. -/
inductive IsRound (heap : Heap) (config : Config) (addr : List ℕ → Addr) :
    Samconf.NodeOutcome → NodeOutcome → Prop
  | handled {heap' : Heap} {config' : Config} {addr' : List ℕ → Addr} {released : List Addr}
      (h : Merges heap config addr heap' config' addr' released) :
      IsRound heap config addr (.handled config') (.handled heap' released)
  | stopped {heap' : Heap} {config' : Config} {addr' : List ℕ → Addr} {released : List Addr}
      (result : ConfigStatus) (h : Merges heap config addr heap' config' addr' released) :
      IsRound heap config addr (.stopped result config') (.stopped result heap' released)

/-- Releasing the copy. -/
theorem merges_of_free {heap' : Heap} {config' : Config} {addr' : List ℕ → Addr}
    (h : Moves heap.length heap config addr heap' config' addr')
    (hfree : Free heap' config' addr' heap.length d) :
    Merges heap config addr heap' config' addr' [heap.length] := by
  refine ⟨h, fun a ha => ?_, List.nodup_singleton _⟩
  obtain rfl := List.mem_singleton.mp ha
  obtain ⟨link, hcell⟩ := hfree.cell
  exact ⟨le_refl _, (List.getElem?_eq_some_iff.mp hcell).1, hfree.apart⟩

theorem abandon_mirrors {heap' : Heap} {config' : Config} {addr' : List ℕ → Addr}
    (h : Moves heap.length heap config addr heap' config' addr')
    (hfree : Free heap' config' addr' heap.length d) :
    Mirrors (IsRound heap config addr) (Samconf.abandon (.node d []) config')
      (abandon heap.length heap') := by
  obtain ⟨link, hcell⟩ := hfree.cell
  rw [abandon, Samconf.abandon, samconfConfigDelete_childless hcell]
  refine (Exec.mirrors_lift_map _ _).bind ?_
  rintro status _ rfl
  exact Exec.mirrors_pure (.stopped status (merges_of_free h hfree))

/-- The copy of a node, in a cell of its own. -/
theorem samconfConfigCopyConfig_mirrors (h : Layout heap source addr)
    (hs : source.sub? p = some s) :
    Mirrors (fun r r' => ∃ d, r.2 = .node d [] ∧ r' = (r.1, heap ++ [⟨d, none, []⟩]))
      (Samconf.samconfConfigCopyConfig s (.node NodeData.init []))
      (samconfConfigCopyConfig (addr p) heap.length (heap ++ [⟨NodeData.init, none, []⟩])) := by
  obtain ⟨link, hcell, -⟩ := (h.append ⟨NodeData.init, none, []⟩).node hs
  refine (copyWith_mirrors copiesLabels_samconfConfigCopyConfig hcell rfl
    List.getElem?_concat_length rfl).mono ?_
  rintro ⟨status, node⟩ ⟨status', heap'⟩ ⟨hstatus, hchildren, hheap⟩
  cases node with
  | node d children =>
      obtain rfl : status' = status := hstatus
      obtain rfl : children = [] := hchildren
      exact ⟨d, rfl, congrArg (Prod.mk status') (hheap.trans (update_append heap _ _))⟩

section Copied

variable (h : Layout heap config addr) (d : NodeData)
include h

/-- The copy is not part of the tree. -/
theorem Layout.free_copy : Free (heap ++ [⟨d, none, []⟩]) config addr heap.length d :=
  ⟨⟨none, List.getElem?_concat_length⟩, fun _ hq => Nat.ne_of_lt (h.addr_lt hq)⟩

/-- A write over a node of the tree leaves the copy as it is. -/
theorem Layout.written {q : List ℕ} {t : Config} (ht : config.sub? q = some t)
    (f : NodeData → NodeData) :
    Moves heap.length heap config addr (Heap.update (heap ++ [⟨d, none, []⟩]) (addr q) f)
        (config.modify (relabel f) q) addr ∧
      Free (Heap.update (heap ++ [⟨d, none, []⟩]) (addr q) f) (config.modify (relabel f) q) addr
        heap.length d := by
  have hmade := Moves.append h ⟨d, none, []⟩ (le_refl heap.length)
  have hfree := h.free_copy d
  have hne : heap.length ≠ addr q := (hfree.apart q (RoseTree.outline_ne_none.mpr ⟨t, ht⟩)).symm
  refine ⟨hmade.trans (Moves.update hmade.layout ht f heap.length), ⟨none, ?_⟩, fun r hr => ?_⟩
  · rw [getElem?_update_of_ne hne, List.getElem?_concat_length]
  · exact hfree.apart r ((RoseTree.outline_modify_relabel_ne_none ht r).mp hr)

/-- The insertion of a copy. -/
theorem insertCopy_mirrors (path : CString) :
    Mirrors (IsRound heap config addr)
      (do
        let (status, mergedConfig) ← Samconf.samconfInsertAt config path (.node d [])
        if status ≠ .ok then Samconf.abandon (.node d []) mergedConfig
        else pure (.handled mergedConfig))
      (do
        let (status, heap') ← samconfInsertAt (addr []) path heap.length
          (heap ++ [⟨d, none, []⟩])
        if status ≠ .ok then abandon heap.length heap'
        else pure (.handled heap' [])) := by
  have hmade := Moves.append h ⟨d, none, []⟩ (le_refl heap.length)
  refine (samconfInsertAt_mirrors path hmade.layout (h.free_copy d) (le_refl _)).bind ?_
  rintro ⟨status, config'⟩ ⟨status', heap'⟩ ⟨addr', hplaced⟩
  obtain rfl : status' = status := hplaced.status
  have hmoves := hmade.trans hplaced.moves
  by_cases hok : status' = .ok
  · simp only [hok, ne_eq, not_true_eq_false, if_false]
    exact Exec.mirrors_pure (.handled (.of_moves hmoves))
  · simp only [hok, ne_eq, not_false_eq_true, if_true]
    exact abandon_mirrors hmoves (hplaced.given.resolve_left fun hgiven => hok hgiven.1)

/-- A write over the node that was found. -/
theorem writeCopy_mirrors {q : List ℕ} {t : Config} (ht : config.sub? q = some t) :
    Mirrors (IsRound heap config addr)
      (do
        let (status, target) ← Samconf.samconfCopyConfigValue (.node d []) t
        let mergedConfig := config.modify (fun _ => target) q
        if status ≠ .ok then Samconf.abandon (.node d []) mergedConfig
        else
          let status ← Exec.lift (Samconf.samconfConfigDelete (.node d []))
          if status = .ok then pure (.handled mergedConfig)
          else pure (.stopped .error mergedConfig))
      (do
        let (status, heap') ← samconfCopyConfigValue heap.length (addr q)
          (heap ++ [⟨d, none, []⟩])
        if status ≠ .ok then abandon heap.length heap'
        else
          let (status, released) ← Exec.lift (samconfConfigDelete heap.length heap')
          if status = .ok then pure (.handled heap' released)
          else pure (.stopped .error heap' released)) := by
  obtain ⟨link, hcell, -⟩ := (h.append ⟨d, none, []⟩).node ht
  refine (copyWith_mirrors copiesLabels_samconfCopyConfigValue List.getElem?_concat_length rfl
    hcell rfl).bind ?_
  rintro ⟨status, target⟩ ⟨status', heap'⟩ ⟨hstatus, hchildren, hheap⟩
  obtain rfl : status' = status := hstatus
  obtain rfl : heap' = Heap.update (heap ++ [⟨d, none, []⟩]) (addr q) fun _ => target.label := hheap
  have hsame : config.modify (fun _ => target) q =
      config.modify (relabel fun _ => target.label) q := by
    refine RoseTree.modify_congr ht ?_
    have hnode : target = .node target.label t.children := by
      rw [← hchildren, RoseTree.node_eta]
    rw [hnode]
    cases t
    rfl
  obtain ⟨hmoves, hfree'⟩ := h.written d ht fun _ => target.label
  obtain ⟨link', hgiven⟩ := hfree'.cell
  simp only [hsame]
  by_cases hok : status' = .ok
  · simp only [hok, ne_eq, not_true_eq_false, if_false]
    rw [samconfConfigDelete_childless hgiven]
    refine (Exec.mirrors_lift_map _ _).bind ?_
    rintro status _ rfl
    have hmerges := merges_of_free hmoves hfree'
    by_cases hdeleted : status = .ok
    · simp only [if_pos hdeleted]
      exact Exec.mirrors_pure (.handled hmerges)
    · simp only [if_neg hdeleted]
      exact Exec.mirrors_pure (.stopped .error hmerges)
  · simp only [hok, ne_eq, not_false_eq_true, if_true]
    exact abandon_mirrors hmoves hfree'

end Copied

/-- **One round** of a merge in memory. -/
theorem mergeNode_mirrors_memory (h : Layout heap config addr)
    (hsource : Layout heap source place) (htop : heap.IsTop (place []))
    (hs : source.sub? p = some s) :
    Mirrors (IsRound heap config addr) (Samconf.mergeNode source p config)
      (mergeNode (addr []) (place p) heap) := by
  rw [mergeNode, Samconf.mergeNode]
  refine (samconfConfigNew_mirrors heap).bind fun r r' hnew => ?_
  cases hnew with
  | refused => exact Exec.mirrors_pure (.stopped .error (.of_moves (.refl h _)))
  | granted =>
      simp only [hs, deref_some, Exec.pure_bind]
      refine (samconfConfigCopyConfig_mirrors hsource hs).bind ?_
      rintro ⟨status, node⟩ _ ⟨d, hnode, rfl⟩
      obtain rfl : node = .node d [] := hnode
      have hmade := Moves.append h ⟨d, none, []⟩ (le_refl heap.length)
      have hfree := h.free_copy d
      by_cases hcopy : status = .ok
      · simp only [hcopy, ne_eq, not_true_eq_false, if_false]
        have htop' : IsTop (heap ++ [⟨d, none, []⟩]) (place []) := fun cell hcell =>
          htop cell (by rwa [List.getElem?_append_left (hsource.addr_lt (by simp))] at hcell)
        rw [samconfPathGetPath_eq (hsource.append _) htop' hs]
        refine Exec.mirrors_bind (Exec.ensures_true _) ?_
        rintro ⟨status, path⟩ -
        by_cases hpath : status = .ok
        · simp only [hpath, not_true_eq_false, if_false]
          have hget : Mirrors (fun r r' => r' = (r.1, r.2.map addr) ∧
              ∀ q, r = (.ok, some q) → ∃ t, config.sub? q = some t)
                (Samconf.samconfConfigGet config path)
                (samconfConfigGetOfPointer (addr []) path (heap ++ [⟨d, none, []⟩])) := by
            cases path with
            | none => exact Exec.mirrors_pure ⟨rfl, fun q hq => by cases hq⟩
            | some path => exact samconfConfigGet_mirrors hmade.layout path
          refine hget.bind ?_
          rintro ⟨status, nodeInMerge⟩ _ ⟨rfl, hfound⟩
          by_cases hmissing : status = .notFound
          · simp only [if_pos hmissing]
            exact insertCopy_mirrors h d (path.getD [])
          · simp only [if_neg hmissing]
            by_cases hok : status = .ok
            · simp only [if_pos hok]
              cases nodeInMerge with
              | none => exact abandon_mirrors hmade hfree
              | some q =>
                  obtain ⟨t, ht⟩ := hfound q (by rw [hok])
                  simp only [ht, deref_some, Exec.pure_bind]
                  exact writeCopy_mirrors h d ht
            · simp only [if_neg hok]
              exact abandon_mirrors hmade hfree
        · simp only [hpath, not_false_eq_true, if_true]
          exact abandon_mirrors hmade hfree
      · simp only [hcopy, ne_eq, not_false_eq_true, if_true]
        exact abandon_mirrors hmade hfree

/-! ## Two trees beside each other -/

/-- The tree that is merged into and the one that is merged, with no cell in common. The
top of the second one has no parent. -/
structure Beside (heap : Heap) (config : Config) (addr : List ℕ → Addr) (source : Config)
    (place : List ℕ → Addr) : Prop where
  merged : Layout heap config addr
  other : Layout heap source place
  top : heap.IsTop (place [])
  apart : ∀ p q, config.outline p ≠ none → source.outline q ≠ none → addr p ≠ place q

/-- The second tree is not touched. -/
theorem Beside.moved {heap' : Heap} {config' : Config} {addr' : List ℕ → Addr}
    (h : Beside heap config addr source place)
    (hmoves : Moves heap.length heap config addr heap' config' addr') :
    Beside heap' config' addr' source place where
  merged := hmoves.layout
  other := hmoves.other h.other (fun _ => h.other.addr_lt) h.apart
  top cell hcell := by
    refine h.top cell ?_
    rwa [hmoves.frame (place []) (h.other.addr_lt (by simp))
      fun p hp => h.apart p [] hp (by simp)] at hcell
  apart := hmoves.apart (fun _ => h.other.addr_lt) h.apart

/-- The rule in memory. -/
theorem followsMergeRule_eq (h : Beside heap config addr source place) :
    followsMergeRule (addr []) (place []) heap =
      .ok (Samconf.followsMergeRule config source) := by
  obtain ⟨link, hmerged⟩ := read_eq h.merged (RoseTree.sub?_nil config)
  obtain ⟨link', hsource⟩ := read_eq h.other (RoseTree.sub?_nil source)
  rw [followsMergeRule, hmerged, hsource]
  rfl

/-- The flag of the top in memory. -/
theorem exists_markSigned (h : Beside heap config addr source place) :
    ∃ heap', markSigned (addr []) (place []) heap = .ok heap' ∧
      Completes heap config addr heap' (Config.markSigned source config) addr [] := by
  obtain ⟨link, hmerged⟩ := read_eq h.merged (RoseTree.sub?_nil config)
  obtain ⟨link', hsource⟩ := read_eq h.other (RoseTree.sub?_nil source)
  rw [markSigned, hmerged, hsource, Config.markSigned]
  by_cases hmark : (!config.label.isSigned && source.label.isSigned) = true
  · refine ⟨_, congrArg Except.ok (if_pos hmark), ?_⟩
    rw [if_pos hmark]
    have hcompletes := Completes.update h.merged (RoseTree.sub?_nil config)
      fun d => { d with isSigned := source.label.isSigned }
    rwa [RoseTree.modify_nil] at hcompletes
  · refine ⟨_, congrArg Except.ok (if_neg hmark), ?_⟩
    rw [if_neg hmark]
    exact .refl h.merged

/-! ## All rounds -/

/-- What a merge leaves in memory, beside what was released before. -/
def IsMerge (heap : Heap) (config : Config) (addr : List ℕ → Addr) (released : List Addr)
    (r : Samconf.MergeOutcome) (r' : MergeOutcome) : Prop :=
  r'.result = r.result ∧ ∃ addr' freed, r'.released = released ++ freed ∧
    Merges heap config addr r'.heap r.mergedConfig addr' freed

theorem IsMerge.after {heap' : Heap} {config' : Config} {addr' : List ℕ → Addr}
    {released freed : List Addr} {r : Samconf.MergeOutcome} {r' : MergeOutcome}
    (h : Merges heap config addr heap' config' addr' freed)
    (hrest : IsMerge heap' config' addr' (released ++ freed) r r') :
    IsMerge heap config addr released r r' := by
  obtain ⟨hresult, addr'', others, hreleased, hmerges⟩ := hrest
  exact ⟨hresult, addr'', freed ++ others, by rw [hreleased, List.append_assoc], h.trans hmerges⟩

/-- The next node in memory. -/
theorem exists_next (hsource : Layout heap source place) (hreadable : source.Readable)
    {configToFind : List ℕ} {before rest : List (List ℕ)}
    (hsplit : source.positions = before ++ configToFind :: rest) :
    ∃ result, samconfConfigNext (place []) (place configToFind) heap =
      .ok (result, rest.head?.map place) := by
  have hvalid : source.outline configToFind ≠ none :=
    RoseTree.outline_ne_none.mpr (RoseTree.mem_positions.mp (by simp [hsplit]))
  obtain ⟨result, hnext⟩ := Samconf.samconfConfigNext_eq hreadable hsplit
  rw [samconfConfigNext_eq hsource hvalid, hnext]
  exact ⟨result, rfl⟩

/-- **The loop of a merge** in memory, from any node on. -/
theorem mergeRounds_mirrors (h : Beside heap config addr source place)
    (hreadable : source.Readable) {configToFind : List ℕ} {before rest : List (List ℕ)}
    (hsplit : source.positions = before ++ configToFind :: rest) (handled : List (List ℕ))
    (released : List Addr) {n m : ℕ} (hn : rest.length < n) (hm : rest.length < m) :
    Mirrors (IsMerge heap config addr released)
      (Exec.loop .endless (Samconf.mergeStep source) n ⟨config, configToFind, handled⟩)
      (Exec.loop .endless (mergeStep (addr []) (place [])) m
        ⟨heap, place configToFind, released⟩) := by
  induction rest generalizing heap config addr configToFind before handled released n m with
  | nil =>
      obtain ⟨n, rfl⟩ := Nat.exists_eq_succ_of_ne_zero (Nat.ne_of_gt hn)
      obtain ⟨m, rfl⟩ := Nat.exists_eq_succ_of_ne_zero (Nat.ne_of_gt hm)
      obtain ⟨result, hnext⟩ := exists_next h.other hreadable hsplit
      obtain ⟨heap', hmark, hcompletes⟩ := exists_markSigned h
      rw [Exec.loop, Exec.loop, mergeStep_of_last hreadable hsplit, mergeStep, hnext,
        Exec.lift_ok_bind]
      simp only [List.head?_nil, Option.map_none, hmark, Exec.lift_ok_bind, Exec.pure_bind]
      exact Exec.mirrors_pure ⟨rfl, addr, [], (List.append_nil _).symm, hcompletes.toMerges⟩
  | cons next rest ih =>
      obtain ⟨n, rfl⟩ := Nat.exists_eq_succ_of_ne_zero (Nat.ne_of_gt (Nat.zero_lt_of_lt hn))
      obtain ⟨m, rfl⟩ := Nat.exists_eq_succ_of_ne_zero (Nat.ne_of_gt (Nat.zero_lt_of_lt hm))
      obtain ⟨result, hnext⟩ := exists_next h.other hreadable hsplit
      obtain ⟨s, hs⟩ : ∃ s, source.sub? next = some s :=
        RoseTree.mem_positions.mp (by simp [hsplit])
      have hsplit' : source.positions = (before ++ [configToFind]) ++ next :: rest := by
        simpa using hsplit
      rw [Exec.loop, Exec.loop, mergeStep_of_next hreadable hsplit, mergeStep, hnext,
        Exec.lift_ok_bind]
      simp only [List.head?_cons, Option.map_some, Exec.bind_assoc]
      refine (mergeNode_mirrors_memory h.merged h.other h.top hs).bind ?_
      rintro _ _ (@⟨_, _, _, freed, hmerges⟩ | ⟨result, hmerges⟩)
      · have hrest := ih (h.moved hmerges.moves) hsplit' (handled ++ [next]) (released ++ freed)
          (Nat.lt_of_succ_lt_succ hn) (Nat.lt_of_succ_lt_succ hm)
        rw [hmerges.moves.top] at hrest
        exact hrest.mono fun r r' hr => .after hmerges hr
      · exact Exec.mirrors_pure ⟨rfl, _, _, rfl, hmerges⟩

/-- **A merge in memory**, on any supply. -/
theorem mergeConfig_mirrors (h : Beside heap config addr source place)
    (hreadable : source.Readable) :
    Mirrors (IsMerge heap config addr []) (mergeConfig config (some source))
      (samconfConfigMergeConfig (addr []) (place []) heap) := by
  rw [samconfConfigMergeConfig, followsMergeRule_eq h, Exec.lift_ok_bind]
  by_cases hrule : Samconf.followsMergeRule config source = true
  · have hsplit : source.positions = [] ++ [] :: source.descendants := RoseTree.positions_eq source
    have hlength : source.descendants.length < source.positions.length := by simp [hsplit]
    simp only [mergeConfig, hrule, if_true]
    exact mergeRounds_mirrors h hreadable hsplit [] [] hlength
      (lt_of_lt_of_le hlength h.other.length_positions_le)
  · simp only [mergeConfig, hrule, Bool.false_eq_true, if_false]
    exact Exec.mirrors_pure ⟨rfl, addr, [], rfl, .of_moves (.refl h.merged _)⟩

end Heap

end Samconf
