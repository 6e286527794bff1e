/-
# What insertion computes

Without failing allocations `samconfInsertAt` grows the tree along the segments
of its path: it keeps what is there, makes the missing nodes on the way as
OBJECTs and hangs the given node under the last segment, unless something is
there already.

The loop looks every shorter path up again from the top. Its invariant is that
the position it holds is what the segments it has passed resolve to in the tree
it has built so far.
-/

import Samconf.Spec.Lookup

namespace Samconf

open Foundation
open Exec (Yields Ensures Avoids)
open RoseTree (childIdx? addChild)

namespace Config

/-- Hang a node under a list of segments, making the missing nodes as OBJECTs. -/
def grow (leaf config : Config) (segments : List CString) : Config :=
  RoseTree.grow NodeData.key NodeData.blank NodeData.bump leaf config segments

/-- Adding a node with a key keeps a tree sound. -/
theorem Sound.addChild {parent child : Config} (hparent : parent.Sound) (hchild : child.Sound)
    (hkey : child.label.key ≠ none) : Sound (RoseTree.addChild NodeData.bump child parent) where
  counted := by
    apply hparent.counted.addChild hchild.counted
    have hcount := hparent.counted.self
    simp [NodeData.bump, hcount]
  keyed := by
    apply hparent.keyed.addChild hchild.keyed
    have hkeys := hparent.keyed.self
    simpa [hkey.symm] using hkeys

end Config

/-- A rewrite of one subtree that keeps its key and soundness keeps the tree sound. -/
theorem Config.Sound.modify {root s : Config} {p : List ℕ} {f : Config → Config}
    (h : root.Sound) (hs : root.sub? p = some s) (hkey : (f s).label.key = s.label.key)
    (hf : Config.Sound (f s)) : Config.Sound (root.modify f p) :=
  ⟨h.counted.modify hs hkey hf.counted, h.keyed.modify hs hkey hf.keyed⟩

theorem Config.Sound.sub {root s : Config} {p : List ℕ} (h : root.Sound)
    (hs : root.sub? p = some s) : Config.Sound s :=
  ⟨h.counted.sub hs, h.keyed.sub hs⟩

theorem samconfConfigNew_yields : samconfConfigNew.Yields (.ok, some samconfConfigInit) := by
  rw [samconfConfigNew]
  apply Exec.yields_alloc.bind
  exact Exec.yields_pure _

/-- The node that `samconfInsertAt` adds for one segment. -/
theorem makeSegment_yields (config : Config) (segment : CString) (isLast : Bool) :
    (makeSegment config segment isLast).Yields
      (.ok, some (if isLast then config else .node (NodeData.blank segment) [])) := by
  cases isLast with
  | true => exact Exec.yields_pure _
  | false =>
      rw [makeSegment, if_neg (by simp)]
      apply samconfConfigNew_yields.bind
      apply (Exec.yields_allocFor segment).bind
      exact Exec.yields_pure _

theorem samconfConfigAdd_yields {parent child : Config}
    (hcount : parent.label.childCount = parent.children.length) :
    (samconfConfigAdd parent child).Yields (.ok, addChild NodeData.bump child parent) := by
  rw [samconfConfigAdd, if_pos hcount]
  apply Exec.yields_alloc.bind
  exact Exec.yields_pure _

/-- A refusal leaves the parent without children. -/
theorem samconfConfigAdd_returns (parent child : Config) :
    (samconfConfigAdd parent child).Ensures fun r =>
      r = (.ok, addChild NodeData.bump child parent) ∨ r = (.error, .node parent.label []) := by
  rw [samconfConfigAdd]
  refine (Exec.ensures_true _).bind fun granted _ => ?_
  cases granted with
  | false => exact Exec.ensures_pure (.inr rfl)
  | true =>
      simp only [if_true]
      split
      · exact Exec.ensures_pure (.inl rfl)
      · exact Exec.ensures_fault _

/-- A node that was added is the parent's last child. -/
theorem samconfConfigAdd_ensures (parent child : Config) :
    (samconfConfigAdd parent child).Ensures fun r =>
      r.1 = .ok → r.2 = addChild NodeData.bump child parent := by
  refine (samconfConfigAdd_returns parent child).mono ?_
  rintro r (rfl | rfl) hok
  · rfl
  · cases hok

/-- The shorter path that a round of the loop looks up. -/
def prefixPath (passed : List CString) (segment : CString) (rest : List CString) : CString :=
  ['/'].intercalate ((passed ++ segment :: rest).take (passed.length + 1))

/-- It is split again. -/
theorem pathSegments_until {passed rest : List CString} {segment : CString}
    (h : ∀ s ∈ passed ++ segment :: rest, IsPathKey s) :
    pathSegments (prefixPath passed segment rest) = passed ++ [segment] := by
  have htake : (passed ++ segment :: rest).take (passed.length + 1) = passed ++ [segment] := by
    simp [List.take_append]
  rw [prefixPath, htake]
  apply segments_intercalate
  intro s hs
  exact h s (by simp at hs ⊢; tauto)

section Round

variable {root s : Config} {parent : List ℕ} {passed : List CString} {segment : CString}

/-- One more segment leads to the child that it keys. -/
theorem resolve_concat (hparent : root.resolve passed = some parent)
    (hs : root.sub? parent = some s) :
    root.resolve (passed ++ [segment]) =
      (childIdx? NodeData.key segment s.children).map fun i => parent ++ [i] := by
  rw [Config.resolve, RoseTree.resolve_append, ← Config.resolve, hparent]
  cases hi : childIdx? NodeData.key segment s.children with
  | none => simp [hs, hi]
  | some i =>
      obtain ⟨c, hc, -⟩ := RoseTree.childIdx?_eq_some.mp hi
      simp [hs, hi, hc]

/-- What a round of the loop looks up. -/
theorem samconfConfigGet_yields_until {rest : List CString} (hsound : root.Sound)
    (hkeys : ∀ s ∈ passed ++ segment :: rest, IsPathKey s)
    (hparent : root.resolve passed = some parent) (hs : root.sub? parent = some s) :
    (samconfConfigGet root (some (prefixPath passed segment rest))).Yields
      (lookupResult ((childIdx? NodeData.key segment s.children).map fun i => parent ++ [i])) := by
  have hsplit := pathSegments_until hkeys
  have hget := samconfConfigGet_yields (prefixPath passed segment rest) hsound (by simp [hsplit])
  rwa [hsplit, resolve_concat hparent hs] at hget

/-- A segment that is found leaves the rest to the child. -/
theorem modify_grow_of_some {node : Config} {rest : List CString} {i : ℕ}
    (hs : root.sub? parent = some s)
    (hi : childIdx? NodeData.key segment s.children = some i) :
    root.modify (fun s => Config.grow node s (segment :: rest)) parent =
      root.modify (fun s => Config.grow node s rest) (parent ++ [i]) := by
  rw [RoseTree.modify_append]
  apply RoseTree.modify_congr hs
  simp [Config.grow, RoseTree.grow_cons_of_some hi]

/-- A segment that is missing starts a chain of OBJECTs. -/
theorem modify_grow_of_none {node : Config} {rest : List CString}
    (hs : root.sub? parent = some s) (hi : childIdx? NodeData.key segment s.children = none) :
    root.modify (fun s => Config.grow node s (segment :: rest)) parent =
      root.modify (addChild NodeData.bump
        (RoseTree.chain NodeData.blank NodeData.bump node segment rest)) parent := by
  apply RoseTree.modify_congr hs
  exact RoseTree.grow_cons_of_none hi

/-- The tree with an OBJECT for the segment below the parent is sound. -/
theorem Config.Sound.addBlank (h : root.Sound) (hs : root.sub? parent = some s) :
    Config.Sound
      (root.modify (RoseTree.addChild NodeData.bump (.node (NodeData.blank segment) []))
        parent) := by
  refine h.modify hs (by simp) ((h.sub hs).addChild ?_ (by simp))
  exact ⟨RoseTree.everywhere_node.mpr ⟨rfl, by simp⟩,
    RoseTree.everywhere_node.mpr ⟨by simp, by simp⟩⟩

/-- A new child is the last one. -/
theorem sub?_addChild {leaf : Config} (hs : root.sub? parent = some s) :
    RoseTree.sub? (root.modify (addChild NodeData.bump leaf) parent)
      (parent ++ [s.children.length]) = some leaf := by
  rw [RoseTree.sub?_append, RoseTree.sub?_modify_self _ hs]
  simp

/-- A new child is where its key leads. -/
theorem resolve_addChild {leaf : Config} (hparent : root.resolve passed = some parent)
    (hs : root.sub? parent = some s) (hi : childIdx? NodeData.key segment s.children = none)
    (hkey : leaf.label.key = some segment) :
    Config.resolve (root.modify (addChild NodeData.bump leaf) parent) (passed ++ [segment]) =
      some (parent ++ [s.children.length]) := by
  rw [Config.resolve, RoseTree.resolve_append, RoseTree.resolve_modify_self hparent hs (by simp)]
  simp only [Option.bind_some, RoseTree.sub?_modify_self _ hs]
  rw [RoseTree.resolve_addChild_last hkey hi]
  rfl

/-- The OBJECT is where the segment leads. -/
theorem resolve_addBlank (hparent : root.resolve passed = some parent)
    (hs : root.sub? parent = some s) (hi : childIdx? NodeData.key segment s.children = none) :
    Config.resolve
        (root.modify (addChild NodeData.bump (.node (NodeData.blank segment) [])) parent)
        (passed ++ [segment]) =
      some (parent ++ [s.children.length]) :=
  resolve_addChild hparent hs hi rfl

/-- Nothing is below the OBJECT yet. -/
theorem resolve_below_addBlank {rest : List CString} (hparent : root.resolve passed = some parent)
    (hs : root.sub? parent = some s) (hi : childIdx? NodeData.key segment s.children = none)
    (hne : rest ≠ []) :
    Config.resolve
      (root.modify (addChild NodeData.bump (.node (NodeData.blank segment) [])) parent)
      ((passed ++ [segment]) ++ rest) = none := by
  rw [Config.resolve, RoseTree.resolve_append, ← Config.resolve, resolve_addBlank hparent hs hi,
    Option.bind_some, sub?_addChild hs, Option.bind_some, ← Config.resolve,
    resolve_of_childless rfl hne]
  rfl

/-- Growing on from the OBJECT is growing the whole chain. -/
theorem grow_addBlank (node : Config) {rest : List CString} (hs : root.sub? parent = some s)
    (hne : rest ≠ []) :
    (root.modify (addChild NodeData.bump (.node (NodeData.blank segment) [])) parent).modify
        (fun t => Config.grow node t rest) (parent ++ [s.children.length]) =
      root.modify (addChild NodeData.bump
        (RoseTree.chain NodeData.blank NodeData.bump node segment rest)) parent := by
  rw [RoseTree.modify_append, RoseTree.modify_modify]
  apply RoseTree.modify_congr hs
  rw [RoseTree.modify_addChild_last, Config.grow, RoseTree.grow_blank _ _ hne]

end Round

/-- The loop grows the subtree at `parent` along the segments ahead. -/
theorem insertSegments_yields (node : Config) (result : ConfigStatus)
    {passed rest : List CString} {root : Config} {parent : List ℕ} (hsound : root.Sound)
    (hkeys : ∀ s ∈ passed ++ rest, IsPathKey s)
    (hparent : root.resolve passed = some parent) (hne : rest ≠ []) :
    (insertSegments node passed rest root parent result).Yields
      (.ok, root.modify (fun s => Config.grow node s rest) parent) := by
  induction rest generalizing passed root parent result with
  | nil => exact absurd rfl hne
  | cons segment rest ih =>
      obtain ⟨s, hs⟩ := RoseTree.exists_sub?_of_resolve hparent
      have hcount : s.label.childCount = s.children.length := by
        simpa using (hsound.sub hs).counted.self
      have hkeys' : ∀ k ∈ (passed ++ [segment]) ++ rest, IsPathKey k := by simpa using hkeys
      have hresolve := @resolve_concat _ _ _ _ segment hparent hs
      rw [insertSegments, samconfPathGetPathUntil_eq]
      apply (Exec.yields_allocFor _).bind
      apply (samconfConfigGet_yields_until hsound hkeys hparent hs).bind
      cases hi : childIdx? NodeData.key segment s.children with
      | some i =>
          rw [modify_grow_of_some hs hi]
          cases rest with
          | nil =>
              simpa [lookupResult, Config.grow] using Exec.yields_pure _
          | cons segment' rest =>
              simp only [lookupResult, Option.map_some, if_true, reduceCtorEq, if_false,
                deref_some, Exec.pure_bind]
              exact ih _ hsound hkeys' (by simp [hresolve, hi]) (by simp)
      | none =>
          rw [modify_grow_of_none hs hi]
          simp only [lookupResult, Option.map_none, reduceCtorEq, if_false]
          apply (makeSegment_yields node segment _).bind
          simp only [hs, deref_some, Exec.pure_bind]
          apply (samconfConfigAdd_yields hcount).bind
          -- the parent as found is the one that is rewritten
          have hset (child : Config) :
              root.modify (fun _ => addChild NodeData.bump child s) parent =
              root.modify (addChild NodeData.bump child) parent := RoseTree.modify_congr hs rfl
          simp only [if_true, hset]
          cases rest with
          | nil => exact Exec.yields_pure _
          | cons segment' rest =>
              have hrest := ih .ok (hsound.addBlank hs) hkeys' (resolve_addBlank hparent hs hi)
                (by simp)
              rw [grow_addBlank node hs (by simp)] at hrest
              exact hrest

/-- **Insertion.** Without failing allocations `samconfInsertAt` grows the tree along
the segments of its path. -/
theorem samconfInsertAt_yields {root : Config} (path : CString) (node : Config)
    (hsound : root.Sound) (hne : pathSegments path ≠ []) :
    (samconfInsertAt root path node).Yields
      (.ok, Config.grow node root (pathSegments path)) := by
  rw [samconfInsertAt]
  apply (samconfPathCreateArray_yields path).bind
  simp only [if_neg hne, if_true]
  have hloop := @insertSegments_yields node .ok [] (pathSegments path) root [] hsound
    (fun s hs => isSegment_of_mem_segments hs) (by simp [Config.resolve]) hne
  simpa using hloop

/-! ## Insertion at a node that exists -/

/-- When the whole path resolves, the loop passes existing nodes only and leaves the
tree alone, whichever allocations fail. -/
theorem insertSegments_ensures_of_resolves (node : Config) (result : ConfigStatus)
    {passed rest : List CString} {root : Config} {p : List ℕ} (parent : List ℕ)
    (hsound : root.Sound) (hkeys : ∀ s ∈ passed ++ rest, IsPathKey s)
    (hfound : root.resolve (passed ++ rest) = some p) :
    (insertSegments node passed rest root parent result).Ensures fun r => r.2 = root := by
  induction rest generalizing passed parent result with
  | nil => exact Exec.ensures_pure rfl
  | cons segment rest ih =>
      have hsplit := pathSegments_until hkeys
      have hkeys' : ∀ k ∈ (passed ++ [segment]) ++ rest, IsPathKey k := by simpa using hkeys
      have hfound' : root.resolve ((passed ++ [segment]) ++ rest) = some p := by
        simpa using hfound
      rcases RoseTree.exists_resolve_of_prefix hfound' (List.prefix_append _ rest) with ⟨q, hq, -⟩
      have hget := samconfConfigGet_ensures (prefixPath passed segment rest) hsound
        (by simp [hsplit])
      rw [hsplit, Config.resolve, hq] at hget
      rw [insertSegments, samconfPathGetPathUntil_eq]
      apply (Exec.ensures_allocFor _).bind
      rintro pathToToken (rfl | rfl)
      · exact ih .error parent hkeys' hfound'
      · apply hget.bind
        rintro answer (rfl | rfl)
        · exact Exec.ensures_pure rfl
        · simp only [lookupResult, if_true]
          split
          · exact Exec.ensures_pure rfl
          · exact ih .ok q hkeys' hfound'

theorem samconfInsertAt_ensures_of_resolves {root : Config} {path : CString} {p : List ℕ}
    (node : Config) (hsound : root.Sound)
    (hfound : root.resolve (pathSegments path) = some p) :
    (samconfInsertAt root path node).Ensures fun r => r.2 = root := by
  rw [samconfInsertAt]
  apply (samconfPathCreateArray_ensures path).bind
  rintro array (rfl | rfl)
  · simp only [if_true]
    split
    · exact Exec.ensures_pure rfl
    · exact insertSegments_ensures_of_resolves node .ok [] hsound
        (fun s hs => isSegment_of_mem_segments hs) hfound
  · exact Exec.ensures_pure rfl

end Samconf
