/-
# Merges without failing allocations

When every request for memory is granted, a round loses nothing: all nodes stay nodes,
and of the cells that were made each is a node afterwards or was released. The copy of a
node is one of them, because an insertion links it where nothing was found before.
-/

import Samconf.Spec.HeapRounds
import Samconf.Spec.MergeList

namespace Samconf

open Foundation
open Exec (Yields)
open RoseTree (relabel)

namespace Heap

variable {heap : Heap} {config source s : Config} {addr place : List ℕ → Addr} {p : List ℕ}

section Copied

variable (h : Layout heap config addr) (d : NodeData)
include h

/-- An insertion where nothing is found links the copy. -/
theorem insertCopy_completes (hsound : config.Sound) {path : CString}
    (hne : pathSegments path ≠ []) (hmissing : config.resolve (pathSegments path) = none) :
    ∃ heap' addr', (samconfInsertAt (addr []) path heap.length
        (heap ++ [⟨d, none, []⟩])).Yields (.ok, heap') ∧
      Completes heap config addr heap' (Config.grow (.node d []) config (pathSegments path))
        addr' [] := by
  have hmade := Moves.append h ⟨d, none, []⟩ (le_refl heap.length)
  have hfree := h.free_copy d
  have htree := Samconf.samconfInsertAt_yields path (.node d []) hsound hne
  obtain ⟨⟨status, heap'⟩, hinsert, addr', hplaced⟩ :=
    (samconfInsertAt_mirrors path hmade.layout hfree (le_refl _)).yields htree
  obtain rfl : status = .ok := hplaced.status
  obtain ⟨heap'', addr'', hinsert', hgrown, hlinked⟩ := samconfInsertAt_links path hmade.layout
    hsound hne List.getElem?_concat_length hfree.apart
  obtain rfl : heap'' = heap' := congrArg Prod.snd (hinsert'.unique hinsert)
  refine ⟨heap'', addr', hinsert, .of_moves (hmade.trans hplaced.moves), hplaced.kept rfl,
    fun b hb hb' => .inr ?_⟩
  by_cases hgiven : b = heap.length
  · -- the two runs are one, so that the layouts agree
    obtain ⟨q, hq, hlast, -⟩ := hlinked hmissing
    obtain ⟨⟨e, n⟩, hsome⟩ := Option.ne_none_iff_exists'.mp hq
    have htop : addr' [] = addr'' [] :=
      hplaced.moves.top.trans (hgrown.kept [] (by simp)).symm
    obtain ⟨-, hsame⟩ := hgrown.layout.unique hplaced.moves.layout htop q hsome
    exact ⟨q, hq, hsame.trans (hlast.trans hgiven.symm)⟩
  · refine hplaced.full rfl b ?_ hb'
    rw [List.length_append, List.length_singleton]
    omega

/-- A write over a node, and the copy released. -/
theorem writeCopy_completes {q : List ℕ} {t : Config} (ht : config.sub? q = some t)
    (hcount : d.childCount = 0) (htagged : d.Tagged) (hset : d.StringSet)
    (htarget : t.label.Tagged) :
    ∃ heap', (samconfCopyConfigValue heap.length (addr q) (heap ++ [⟨d, none, []⟩])).Yields
        (.ok, heap') ∧
      samconfConfigDelete heap.length heap' = .ok (.ok, [heap.length]) ∧
      Completes heap config addr heap' (config.modify (relabel d.overwrite) q) addr
        [heap.length] := by
  obtain ⟨link, hcell, -⟩ := (h.append ⟨d, none, []⟩).node ht
  obtain ⟨⟨status, heap'⟩, hwrite, hstatus, -, hheap⟩ :=
    (copyWith_mirrors copiesLabels_samconfCopyConfigValue List.getElem?_concat_length rfl
      hcell rfl).yields (samconfCopyConfigValue_yields (.node d []) t htagged hset htarget)
  obtain rfl : status = .ok := hstatus
  have hlabel : (relabel d.overwrite t).label = d.overwrite t.label := by
    cases t
    rfl
  obtain rfl : heap' = Heap.update (heap ++ [⟨d, none, []⟩]) (addr q) fun _ =>
      d.overwrite t.label := by rw [← hlabel]; exact hheap
  have hsame : config.modify (relabel fun _ => d.overwrite t.label) q =
      config.modify (relabel d.overwrite) q := by
    refine RoseTree.modify_congr ht ?_
    cases t
    rfl
  obtain ⟨hmoves, hfree⟩ := h.written d ht fun _ => d.overwrite t.label
  rw [hsame] at hmoves hfree
  obtain ⟨link', hgiven⟩ := hfree.cell
  refine ⟨_, hwrite, ?_, merges_of_free hmoves hfree, fun r hr => ?_, fun b hb hb' => .inl ?_⟩
  · rw [samconfConfigDelete_childless hgiven, samconfConfigDelete_of_childless htagged hcount]
    rfl
  · exact ⟨(RoseTree.outline_modify_relabel_ne_none ht r).mpr hr, rfl⟩
  · rw [length_update, List.length_append, List.length_singleton] at hb'
    exact List.mem_singleton.mpr (Nat.le_antisymm (Nat.le_of_lt_succ hb') hb)

/-- What the lookup decides for the copy of a node, and where that leaves the entry. -/
theorem putCopy_completes {path : CString} (hentry : Entry.Placeable (pathSegments path, d))
    (hsound : config.Sound) (htagged : config.Tagged) :
    ∃ heap' addr' released,
      Completes heap config addr heap' (config.put (pathSegments path, d)) addr' released ∧
      (config.resolve (pathSegments path) = none ∧
          (samconfInsertAt (addr []) path heap.length
            (heap ++ [⟨d.copied, none, []⟩])).Yields (.ok, heap') ∧ released = [] ∨
        ∃ q, config.resolve (pathSegments path) = some q ∧
          (samconfCopyConfigValue heap.length (addr q)
            (heap ++ [⟨d.copied, none, []⟩])).Yields (.ok, heap') ∧
          samconfConfigDelete heap.length heap' = .ok (.ok, released)) := by
  cases hresolve : config.resolve (pathSegments path) with
  | none =>
      obtain ⟨heap', addr', hinsert, hcompletes⟩ :=
        insertCopy_completes h d.copied hsound hentry.nonempty hresolve
      refine ⟨heap', addr', [], ?_, .inl ⟨rfl, hinsert, rfl⟩⟩
      simpa only [Config.put, hresolve] using hcompletes
  | some q =>
      obtain ⟨t, ht⟩ := RoseTree.exists_sub?_of_resolve hresolve
      obtain ⟨heap', hwrite, hdelete, hcompletes⟩ := writeCopy_completes h d.copied ht
        rfl hentry.tagged.copied hentry.stringSet.copied (htagged q t ht)
      refine ⟨heap', addr, _, ?_, .inr ⟨q, rfl, hwrite, hdelete⟩⟩
      simpa only [Config.put, hresolve, NodeData.overwrite_copied] using hcompletes

end Copied

/-- One round puts one entry, and nothing is lost. -/
theorem mergeNode_completes (h : Layout heap config addr) (hsource : Layout heap source place)
    (htop : heap.IsTop (place [])) (hmerge : source.Placeable) (hp : p ∈ source.descendants)
    (hsound : config.Sound) (htagged : config.Tagged) :
    ∃ heap' addr' released, (mergeNode (addr []) (place p) heap).Yields
        (.handled heap' released) ∧
      Completes heap config addr heap' (config.put (source.pathEntry p)) addr' released := by
  obtain ⟨path, s, hpath, hs, heq⟩ := hmerge.exists_pathEntry hp
  have hentry := hmerge.entry hp
  rw [heq] at hentry ⊢
  obtain ⟨heap', addr', released, hcompletes, hput⟩ :=
    putCopy_completes h s.label hentry hsound htagged
  refine ⟨heap', addr', released, ?_, hcompletes⟩
  obtain ⟨_, hcopy, d, hnode, rfl⟩ := (samconfConfigCopyConfig_mirrors hsource hs).yields
    (Samconf.samconfConfigCopyConfig_yields hentry.keyed hentry.tagged hentry.stringSet)
  obtain rfl : s.label.copied = d := congrArg RoseTree.label hnode
  have htop' : IsTop (heap ++ [⟨s.label.copied, none, []⟩]) (place []) := fun cell hcell =>
    htop cell (by rwa [List.getElem?_append_left (hsource.addr_lt (by simp))] at hcell)
  rw [mergeNode]
  apply (samconfConfigNew_yields heap).bind
  apply hcopy.bind
  simp only [ne_eq, not_true_eq_false, if_false]
  rw [samconfPathGetPath_eq (hsource.append _) htop' hs]
  apply (samconfPathGetPath_yields hpath).bind
  simp only [not_true_eq_false, if_false, samconfConfigGetOfPointer, Option.elim_some]
  have hget : (samconfConfigGet (addr []) path (heap ++ [⟨s.label.copied, none, []⟩])).Yields
      ((lookupResult (config.resolve (pathSegments path))).1,
        (lookupResult (config.resolve (pathSegments path))).2.map addr) := by
    rw [samconfConfigGet_eq (h.append _)]
    exact (samconfConfigGet_yields path hsound hentry.nonempty).bind (Exec.yields_pure _)
  apply hget.bind
  rcases hput with ⟨hresolve, hinsert, rfl⟩ | ⟨q, hresolve, hwrite, hdelete⟩
  · simp only [hresolve, lookupResult, if_true, Option.getD_some]
    apply hinsert.bind
    exact Exec.yields_pure _
  · simp only [hresolve, lookupResult, reduceCtorEq, if_false, if_true, Option.map_some]
    apply hwrite.bind
    simp only [not_true_eq_false, if_false, hdelete, Exec.lift_ok_bind, if_true]
    exact Exec.yields_pure _

/-! ## All rounds -/

/-- The loop from any node on puts the entries of the nodes still ahead. -/
theorem mergeRounds_completes (h : Beside heap config addr source place)
    (hmerge : source.Placeable) {configToFind : List ℕ} {before rest : List (List ℕ)}
    (hsplit : source.positions = before ++ configToFind :: rest)
    (hrest : ∀ p ∈ rest, p ∈ source.descendants) (released : List Addr) {m : ℕ}
    (hm : rest.length < m) (hsound : config.Sound) (htagged : config.Tagged) :
    ∃ heap' addr' freed, (Exec.loop .endless (mergeStep (addr []) (place [])) m
        ⟨heap, place configToFind, released⟩).Yields ⟨.ok, heap', released ++ freed⟩ ∧
      Completes heap config addr heap' (Config.markSigned source
        ((rest.map source.pathEntry).foldl Config.put config)) addr' freed := by
  obtain ⟨m, rfl⟩ := Nat.exists_eq_succ_of_ne_zero (Nat.ne_of_gt (Nat.zero_lt_of_lt hm))
  obtain ⟨result, hnext⟩ := exists_next h.other hmerge.counted.readable hsplit
  induction rest generalizing heap config addr configToFind before released m result with
  | nil =>
      obtain ⟨heap', hmark, hcompletes⟩ := exists_markSigned h
      refine ⟨heap', addr, [], ?_, hcompletes⟩
      rw [Exec.loop, mergeStep, hnext, Exec.lift_ok_bind]
      simp only [List.head?_nil, Option.map_none, hmark, Exec.lift_ok_bind, Exec.pure_bind,
        List.append_nil]
      exact Exec.yields_pure _
  | cons p rest ih =>
      have hp := hrest p List.mem_cons_self
      obtain ⟨heap', addr', freed, hround, hcompletes⟩ :=
        mergeNode_completes h.merged h.other h.top hmerge hp hsound htagged
      have h' := h.moved hcompletes.moves
      have hsplit' : source.positions = (before ++ [configToFind]) ++ p :: rest := by
        simpa using hsplit
      obtain ⟨m, rfl⟩ := Nat.exists_eq_succ_of_ne_zero
        (Nat.ne_of_gt (Nat.zero_lt_of_lt (Nat.lt_of_succ_lt_succ hm)))
      obtain ⟨result', hnext'⟩ := exists_next h'.other hmerge.counted.readable hsplit'
      obtain ⟨heap'', addr'', freed', hloop, hlater⟩ := ih h' hsplit'
        (fun q hq => hrest q (List.mem_cons_of_mem p hq)) (released ++ freed)
        (hsound.put (hmerge.entry hp)) (htagged.put (hmerge.entry hp)) m
        (Nat.lt_of_succ_lt_succ hm) result' hnext'
      refine ⟨heap'', addr'', freed ++ freed', ?_, hcompletes.trans hlater⟩
      rw [Exec.loop, mergeStep, hnext, Exec.lift_ok_bind]
      simp only [List.head?_cons, Option.map_some, Exec.bind_assoc]
      apply hround.bind
      rw [hcompletes.moves.top, List.append_assoc] at hloop
      exact hloop

/-- **A merge in memory** without failing allocations. -/
theorem mergeConfig_completes (h : Beside heap config addr source place)
    (hmerge : source.Placeable) (hsound : config.Sound) (htagged : config.Tagged) :
    ∃ heap' addr' freed, (samconfConfigMergeConfig (addr []) (place []) heap).Yields
        ⟨mergeStatus config source, heap', freed⟩ ∧
      Completes heap config addr heap' (config.stepByPath source) addr' freed := by
  rw [samconfConfigMergeConfig, followsMergeRule_eq h, Exec.lift_ok_bind, mergeStatus,
    Config.stepByPath]
  by_cases hrule : Samconf.followsMergeRule config source = true
  · have hsplit : source.positions = [] ++ [] :: source.descendants := RoseTree.positions_eq source
    have hlength : source.descendants.length < source.positions.length := by simp [hsplit]
    obtain ⟨heap', addr', freed, hloop, hcompletes⟩ := mergeRounds_completes h hmerge hsplit
      (fun p hp => hp) [] (lt_of_lt_of_le hlength h.other.length_positions_le) hsound htagged
    simp only [if_pos hrule]
    exact ⟨heap', addr', freed, hloop, hcompletes⟩
  · simp only [if_neg hrule]
    exact ⟨heap, addr, [], Exec.yields_pure _, .refl h.merged⟩

/-- **Merges one after the other**, without failing allocations. -/
theorem mergeConfigsFrom_completes {sources : List (Config × (List ℕ → Addr))}
    (hlayout : Layout heap config addr)
    (h : ∀ source ∈ sources, Beside heap config addr source.1 source.2)
    (hmerge : ∀ source ∈ sources, source.1.Placeable) (hsound : config.Sound)
    (htagged : config.Tagged) (result : ConfigStatus) :
    ∃ status heap' addr' freed,
      (mergeConfigsFrom (addr []) result (sources.map fun source => source.2 []) heap).Yields
        ⟨status, heap', freed⟩ ∧
      Completes heap config addr heap' ((sources.map Prod.fst).foldl Config.stepByPath config)
        addr' freed := by
  induction sources generalizing heap config addr result with
  | nil => exact ⟨result, heap, addr, [], Exec.yields_pure _, .refl hlayout⟩
  | cons source sources ih =>
      have hsource := h source List.mem_cons_self
      have hfirst := hmerge source List.mem_cons_self
      obtain ⟨heap', addr', freed, hround, hcompletes⟩ :=
        mergeConfig_completes hsource hfirst hsound htagged
      have hgoes : ¬ (Samconf.followsMergeRule (config.stepByPath source.1) source.1 = true ∧
          mergeStatus config source.1 ≠ .ok) :=
        fun hstop => hstop.2 (mergeStatus_eq_ok_of_rule hstop.1)
      have hrule := followsMergeRule_eq (hsource.moved hcompletes.moves)
      obtain ⟨status, heap'', addr'', freed', hloop, hlater⟩ := ih hcompletes.moves.layout
        (fun other hother => (h other (List.mem_cons_of_mem _ hother)).moved hcompletes.moves)
        (fun other hother => hmerge other (List.mem_cons_of_mem _ hother))
        (hsound.stepByPath hfirst) (htagged.stepByPath hfirst) (mergeStatus config source.1)
      rw [hcompletes.moves.top] at hrule hloop
      refine ⟨status, heap'', addr'', freed ++ freed', ?_, hcompletes.trans hlater⟩
      rw [List.map_cons, mergeConfigsFrom]
      apply hround.bind
      simp only [hrule, Exec.lift_ok_bind, if_neg hgoes]
      apply hloop.bind
      exact Exec.yields_pure _

end Heap

end Samconf
