/-
# What lookup and traversal compute

`samconfConfigGet` resolves the segments of its path, first match at every level.
That needs trees whose counts are right and whose nodes have keys; it does not
need distinct keys. Nothing in it depends on the supply but the making of the
path array.

`samconfConfigNext` is the successor in preorder. Its recursion threads two
variables through the whole tree, which is the same as folding one step over the
list of positions.
-/

import Samconf.Model.Lookup
import Samconf.Spec.Path

namespace Samconf

open Foundation
open Exec (Yields Ensures Avoids)
open RoseTree (childIdx? positions positionsFrom)

/-! ## Lookup -/

/-- The answer of `samconfConfigGet` for a path that resolves so. -/
def lookupResult : Option (List ℕ) → ConfigStatus × Option (List ℕ)
  | some p => (.ok, some p)
  | none => (.notFound, none)

/-- The scan finds the first child with the key. -/
theorem scanChildren_of_some {parent node : Config} {segment : CString} {n i j : ℕ}
    (hkeyed : ∀ c ∈ parent.children, c.label.key ≠ none)
    (hj : childIdx? NodeData.key segment parent.children = some j)
    (hnode : parent.children[j]? = some node)
    (hn : i + n = parent.children.length) (hij : i ≤ j) :
    scanChildren parent segment n i = pure (.found j node) := by
  obtain ⟨c, hc, hkey, hfirst⟩ := RoseTree.childIdx?_eq_some.mp hj
  obtain rfl : c = node := by simpa [hc] using hnode
  have hlt := (List.getElem?_eq_some_iff.mp hc).1
  induction n generalizing i with
  | zero => omega
  | succ n ih =>
      have hne : parent.children ≠ [] := by
        intro h
        simp [h] at hlt
      rw [scanChildren, if_neg hne]
      rcases Nat.eq_or_lt_of_le hij with rfl | hlt'
      · simp [hc, hkey]
      · obtain ⟨d, hd⟩ : ∃ d, parent.children[i]? = some d :=
          ⟨parent.children[i], by simp [Nat.lt_trans hlt' hlt]⟩
        obtain ⟨k, hk⟩ := Option.ne_none_iff_exists'.mp (hkeyed d (List.mem_of_getElem? hd))
        have hother : k ≠ segment := by
          rintro rfl
          exact hfirst i hlt' d hd hk
        simp only [hd, hk, deref_some, Exec.pure_bind, if_neg hother]
        exact ih (by omega) hlt'

/-- Without such a child the scan comes to the end. -/
theorem scanChildren_of_none {parent : Config} {segment : CString} {n i : ℕ}
    (hkeyed : ∀ c ∈ parent.children, c.label.key ≠ none)
    (hnone : childIdx? NodeData.key segment parent.children = none)
    (hn : i + n = parent.children.length) :
    scanChildren parent segment n i = pure .exhausted := by
  induction n generalizing i with
  | zero => rfl
  | succ n ih =>
      obtain ⟨d, hd⟩ : ∃ d, parent.children[i]? = some d :=
        ⟨parent.children[i], by simp [show i < parent.children.length by omega]⟩
      have hmem := List.mem_of_getElem? hd
      have hne : parent.children ≠ [] := List.ne_nil_of_mem hmem
      obtain ⟨k, hk⟩ := Option.ne_none_iff_exists'.mp (hkeyed d hmem)
      have hother : k ≠ segment := by
        rintro rfl
        exact RoseTree.childIdx?_eq_none.mp hnone d hmem hk
      rw [scanChildren, if_neg hne]
      simp only [hd, hk, deref_some, Exec.pure_bind, if_neg hother]
      exact ih (by omega)

/-- Below a childless node the search goes on with the count of the level above
and finds nothing. -/
theorem getSegments_of_childless {parent : Config} {here : List ℕ} {childCount : ℕ}
    {status : ConfigStatus} {segments : List CString} (hparent : parent.children = [])
    (hcount : childCount ≠ 0) (hne : segments ≠ []) :
    getSegments parent here childCount status segments = pure (.notFound, none) := by
  induction segments generalizing status with
  | nil => exact absurd rfl hne
  | cons segment rest ih =>
      obtain ⟨n, rfl⟩ := Nat.exists_eq_succ_of_ne_zero hcount
      have hscan : scanChildren parent segment (n + 1) 0 = pure .childless := by
        rw [scanChildren, if_pos hparent]
      rw [getSegments, hscan]
      cases rest with
      | nil => rfl
      | cons segment' rest => exact ih (by simp)

theorem getSegments_eq {parent : Config} (here : List ℕ) {segments : List CString}
    (hsound : parent.Sound) (hchildren : parent.children ≠ []) (hne : segments ≠ []) :
    getSegments parent here parent.label.childCount .ok segments =
      pure (lookupResult ((parent.resolve segments).map (here ++ ·))) := by
  induction segments generalizing parent here with
  | nil => exact absurd rfl hne
  | cons segment rest ih =>
      have hcount : parent.label.childCount = parent.children.length := by
        simpa using hsound.counted.self
      have hkeyed : ∀ c ∈ parent.children, c.label.key ≠ none := fun c hc hnone =>
        hsound.keyed.self (List.mem_map.mpr ⟨c, hc, hnone⟩)
      rw [getSegments, Config.resolve, RoseTree.resolve_cons]
      cases hi : childIdx? NodeData.key segment parent.children with
      | none =>
          rw [scanChildren_of_none hkeyed hi (by omega)]
          have hpos : parent.label.childCount ≠ 0 := by
            rw [hcount]
            exact fun h => hchildren (List.length_eq_zero_iff.mp h)
          simp [hpos, lookupResult]
      | some i =>
          obtain ⟨c, hc, -, -⟩ := RoseTree.childIdx?_eq_some.mp hi
          rw [scanChildren_of_some hkeyed hi hc (by omega) (Nat.zero_le i)]
          have hbelow : Config.Sound c :=
            ⟨hsound.counted.child (List.mem_of_getElem? hc),
              hsound.keyed.child (List.mem_of_getElem? hc)⟩
          cases rest with
          | nil => simp [hc, lookupResult]
          | cons segment' rest =>
              by_cases hleaf : c.children = []
              · have hpos : parent.label.childCount ≠ 0 := by
                  rw [hcount]
                  exact fun h => hchildren (List.length_eq_zero_iff.mp h)
                simp [hleaf, hc, lookupResult,
                  getSegments_of_childless hleaf hpos (List.cons_ne_nil segment' rest)]
              · have hrest := ih (here ++ [i]) hbelow hleaf (by simp)
                simp only [reduceCtorEq, if_false, Exec.pure_bind, ne_eq, hleaf,
                  not_false_eq_true, if_true, hrest, hc, Option.bind_some, Option.map_map]
                congr 3
                funext p
                simp

/-- The search in a readable tree. -/
theorem samconfConfigGet_of_children {root : Config} (path : CString) (hreadable : root.Readable)
    (hchildren : root.children ≠ []) :
    samconfConfigGet root (some path) =
      samconfPathCreateArray path >>= fun r =>
        if r.1 = .ok then getSegments root [] root.label.childCount .ok r.2
        else pure (r.1, none) := by
  have hcount : root.label.childCount ≠ 0 := by
    rw [hreadable.self (by simpa using hchildren)]
    simpa using hchildren
  simp [samconfConfigGet, hchildren, hcount]

theorem samconfConfigGet_of_childless {root : Config} (path : CString)
    (hchildren : root.children = []) :
    samconfConfigGet root (some path) = pure (.notFound, none) := by
  simp [samconfConfigGet, hchildren]

/-- Without a segment the loop does not start: OK comes without a node. -/
theorem samconfConfigGet_yields_of_segmentless {root : Config} {path : CString}
    (hreadable : root.Readable) (hchildren : root.children ≠ []) (hpath : pathSegments path = []) :
    (samconfConfigGet root (some path)).Yields (.ok, none) := by
  rw [samconfConfigGet_of_children path hreadable hchildren]
  apply (samconfPathCreateArray_yields path).bind
  rw [hpath]
  exact Exec.yields_pure _

/-- The search after the path array is there. -/
theorem samconfConfigGet_eq {root : Config} (path : CString) (hsound : root.Sound) :
    samconfConfigGet root (some path) =
      if root.children = [] then pure (.notFound, none)
      else samconfPathCreateArray path >>= fun r =>
        if r.1 = .ok then getSegments root [] root.label.childCount .ok r.2
        else pure (r.1, none) := by
  by_cases hchildren : root.children = []
  · rw [if_pos hchildren, samconfConfigGet_of_childless path hchildren]
  · rw [if_neg hchildren, samconfConfigGet_of_children path hsound.counted.readable hchildren]

theorem resolve_of_childless {root : Config} {segments : List CString}
    (hchildren : root.children = []) (hne : segments ≠ []) : root.resolve segments = none := by
  cases segments with
  | nil => exact absurd rfl hne
  | cons segment rest => simp [Config.resolve, hchildren]

/-- **Lookup.** Without failing allocations, `samconfConfigGet` resolves the segments
of the path. -/
theorem samconfConfigGet_yields {root : Config} (path : CString) (hsound : root.Sound)
    (hne : pathSegments path ≠ []) :
    (samconfConfigGet root (some path)).Yields
      (lookupResult (root.resolve (pathSegments path))) := by
  rw [samconfConfigGet_eq path hsound]
  by_cases hchildren : root.children = []
  · rw [if_pos hchildren, resolve_of_childless hchildren hne]
    exact Exec.yields_pure _
  · rw [if_neg hchildren]
    apply (samconfPathCreateArray_yields path).bind
    simpa [getSegments_eq [] hsound hchildren hne] using Exec.yields_pure _

/-- What is found is what the segments resolve to. A path without segments finds
nothing. -/
theorem resolve_of_found {root : Config} {path : CString} {p : List ℕ} (hsound : root.Sound)
    (h : (samconfConfigGet root (some path)).Yields (.ok, some p)) :
    root.resolve (pathSegments path) = some p := by
  by_cases hempty : pathSegments path = []
  · by_cases hchildren : root.children = []
    · rw [samconfConfigGet_of_childless path hchildren] at h
      have hsame := h.unique (Exec.yields_pure _)
      cases hsame
    · have hsame := h.unique
        (samconfConfigGet_yields_of_segmentless hsound.counted.readable hchildren hempty)
      cases hsame
  · have hanswer := h.unique (samconfConfigGet_yields path hsound hempty)
    cases hresolve : root.resolve (pathSegments path) with
    | none => simp [hresolve, lookupResult] at hanswer
    | some q =>
        obtain rfl : p = q := by simpa [hresolve, lookupResult] using hanswer
        rfl

/-- On any supply the answer is that, or ERROR. -/
theorem samconfConfigGet_ensures {root : Config} (path : CString) (hsound : root.Sound)
    (hne : pathSegments path ≠ []) :
    (samconfConfigGet root (some path)).Ensures fun r =>
      r = (.error, none) ∨ r = lookupResult (root.resolve (pathSegments path)) := by
  rw [samconfConfigGet_eq path hsound]
  by_cases hchildren : root.children = []
  · rw [if_pos hchildren, resolve_of_childless hchildren hne]
    exact Exec.ensures_pure (.inr rfl)
  · rw [if_neg hchildren]
    apply (samconfPathCreateArray_ensures path).bind
    rintro r (rfl | rfl)
    · simpa [getSegments_eq [] hsound hchildren hne] using Exec.ensures_pure (.inr rfl)
    · exact Exec.ensures_pure (.inl rfl)

/-! ## Lookup in any tree

The scan reads entries of the array and keys, and nothing else can go wrong in it.
A tree that is no more than readable still gives a node whenever it says OK, as
long as the path has a segment. -/

theorem deref_ensures {α : Type} (fault : Fault) (a : Option α) :
    (deref fault a).Ensures fun b => a = some b := by
  cases a with
  | none => exact Exec.ensures_fault _
  | some b => exact Exec.ensures_pure rfl

theorem deref_avoids {α : Type} {fault e : Fault} (h : fault ≠ e) (a : Option α) :
    Avoids e (deref fault a) := by
  cases a with
  | none => exact Exec.avoids_fault h
  | some a => exact Exec.avoids_pure _ a

/-- What a scan may come to in its array. -/
def Scan.Within (parent : Config) : Scan → Prop
  | found childItr node => parent.children[childItr]? = some node
  | childless => parent.children = []
  | exhausted => True

theorem scanChildren_ensures (parent : Config) (segment : CString) (n childItr : ℕ) :
    (scanChildren parent segment n childItr).Ensures (Scan.Within parent) := by
  induction n generalizing childItr with
  | zero => exact Exec.ensures_pure trivial
  | succ n ih =>
      rw [scanChildren]
      split
      · rename_i hchildren
        exact Exec.ensures_pure hchildren
      · cases hnode : parent.children[childItr]? with
        | none => exact Exec.ensures_fault _
        | some node =>
            cases hkey : node.label.key with
            | none =>
                simp only [deref_some, Exec.pure_bind, hkey]
                exact Exec.ensures_fault _
            | some key =>
                simp only [deref_some, Exec.pure_bind, hkey]
                split
                · exact Exec.ensures_pure hnode
                · exact ih _

/-- The answer names a node of the tree whenever it is OK. -/
def NodeIfOk (root : Config) (answer : ConfigStatus × Option (List ℕ)) : Prop :=
  answer.1 = .ok → ∃ p node, answer.2 = some p ∧ root.sub? p = some node

theorem getSegments_ensures {root parent : Config} {here : List ℕ} {segments : List CString}
    (hreadable : parent.Readable) (hparent : root.sub? here = some parent)
    (hchildren : parent.children ≠ []) (hne : segments ≠ []) :
    (getSegments parent here parent.label.childCount .ok segments).Ensures (NodeIfOk root) := by
  induction segments generalizing parent here with
  | nil => exact absurd rfl hne
  | cons segment rest ih =>
      have hcount : parent.label.childCount ≠ 0 := by
        rw [hreadable.self (by simpa using hchildren)]
        simpa using hchildren
      rw [getSegments]
      apply (scanChildren_ensures parent segment parent.label.childCount 0).bind
      intro scan hscan
      cases scan with
      | childless => exact absurd hscan hchildren
      | exhausted =>
          simp only [hcount, ne_eq, not_false_eq_true, if_true]
          exact Exec.ensures_pure fun hok => by cases hok
      | found childItr node =>
          have hsub : root.sub? (here ++ [childItr]) = some node := by
            simp [RoseTree.sub?_append, hparent, show parent.children[childItr]? = _ from hscan]
          simp only
          split
          · exact Exec.ensures_pure fun _ => ⟨_, node, rfl, hsub⟩
          · rename_i hrest
            split
            · rename_i hbelow
              exact ih (hreadable.child (List.mem_of_getElem? hscan)) hsub hbelow hrest
            · rename_i hbelow
              rw [getSegments_of_childless (not_not.mp hbelow) hcount hrest]
              exact Exec.ensures_pure fun hok => by cases hok

/-- OK comes with a node, when the path has a segment or the root has no
children. -/
theorem samconfConfigGet_ensures_node {root : Config} {path : CString}
    (hreadable : root.Readable) (h : pathSegments path ≠ [] ∨ root.children = []) :
    (samconfConfigGet root (some path)).Ensures (NodeIfOk root) := by
  by_cases hchildren : root.children = []
  · rw [samconfConfigGet_of_childless path hchildren]
    exact Exec.ensures_pure fun hok => by cases hok
  · have hne := h.resolve_right hchildren
    rw [samconfConfigGet_of_children path hreadable hchildren]
    apply (samconfPathCreateArray_ensures path).bind
    rintro r (rfl | rfl)
    · exact getSegments_ensures hreadable (by simp) hchildren hne
    · exact Exec.ensures_pure fun hok => by cases hok

section Avoids

variable {e : Fault} (hkey : .nullKey ≠ e)
include hkey

/-- A scan that is not longer than the array reads inside it. -/
theorem scanChildren_avoids {parent : Config} (segment : CString) {n childItr : ℕ}
    (hbounds : e = .outOfBounds → parent.children ≠ [] →
      childItr + n ≤ parent.children.length) :
    Avoids e (scanChildren parent segment n childItr) := by
  induction n generalizing childItr with
  | zero => exact Exec.avoids_pure _ _
  | succ n ih =>
      rw [scanChildren]
      split
      · exact Exec.avoids_pure _ _
      · rename_i hchildren
        have hentry : Avoids e (deref .outOfBounds parent.children[childItr]?) := by
          by_cases he : e = .outOfBounds
          · have hbound := hbounds he hchildren
            rw [List.getElem?_eq_getElem (by omega), deref_some]
            exact Exec.avoids_pure _ _
          · exact deref_avoids (Ne.symm he) _
        refine hentry.bind fun node => (deref_avoids hkey node.label.key).bind fun key => ?_
        split
        · exact Exec.avoids_pure _ _
        · refine ih fun he hne => ?_
          have hbound := hbounds he hne
          omega

theorem getSegments_avoids {parent : Config} (here : List ℕ) {childCount : ℕ}
    (status : ConfigStatus) (segments : List CString)
    (hreadable : e = .outOfBounds → parent.Readable)
    (hcount : e = .outOfBounds → parent.children ≠ [] → childCount = parent.children.length) :
    Avoids e (getSegments parent here childCount status segments) := by
  induction segments generalizing parent here childCount status with
  | nil => exact Exec.avoids_pure _ _
  | cons segment rest ih =>
      have hscan : Avoids e (scanChildren parent segment childCount 0) :=
        scanChildren_avoids hkey segment fun he hne => by rw [hcount he hne, Nat.zero_add]
      refine hscan.bind_of (scanChildren_ensures _ _ _ _) fun scan hwithin => ?_
      cases scan with
      | childless => exact ih here .notFound hreadable hcount
      | exhausted =>
          simp only
          split
          · exact Exec.avoids_pure _ _
          · exact ih here status hreadable hcount
      | found childItr node =>
          have hnode (he : e = .outOfBounds) : Config.Readable node :=
            (hreadable he).child (List.mem_of_getElem? hwithin)
          simp only
          split
          · exact Exec.avoids_pure _ _
          · split
            · refine ih _ status hnode fun he hne => ?_
              simpa using (hnode he).self (by simpa using hne)
            · rename_i hchildren
              exact ih _ status hnode fun _ hne => absurd hne hchildren

/-- A lookup in a readable tree reads inside the arrays. -/
theorem samconfConfigGet_avoids {root : Config} (hreadable : e = .outOfBounds → root.Readable)
    (path : Option CString) : Avoids e (samconfConfigGet root path) := by
  cases path with
  | none => exact Exec.avoids_pure _ _
  | some path =>
      rw [samconfConfigGet]
      split
      · exact Exec.avoids_pure _ _
      · refine (samconfPathCreateArray_avoids _ path).bind fun array => ?_
        simp only
        split
        · refine getSegments_avoids hkey _ _ _ hreadable fun he hne => ?_
          simpa using (hreadable he).self (by simpa using hne)
        · exact Exec.avoids_pure _ _

end Avoids

/-! ## Traversal -/

/-- What visiting one position does to the two variables of the search. -/
def visit (configToFind : List ℕ) (state : Bool × Option (List ℕ)) (p : List ℕ) :
    Bool × Option (List ℕ) :=
  if state.2.isSome then state
  else if state.1 then (state.1, some p)
  else (decide (p = configToFind), none)

theorem foldl_visit_of_isSome {configToFind : List ℕ} {state : Bool × Option (List ℕ)}
    (h : state.2.isSome) (ps : List (List ℕ)) : ps.foldl (visit configToFind) state = state := by
  induction ps with
  | nil => rfl
  | cons p ps ih => simpa [visit, h] using ih

/-- The positions of a subtree, seen from further up. -/
theorem map_positions_append (here : List ℕ) (i : ℕ) (ps : List (List ℕ)) :
    (ps.map (i :: ·)).map (here ++ ·) = ps.map ((here ++ [i]) ++ ·) := by
  simp [Function.comp_def]

/-- The recursion is a fold over the preorder. -/
theorem findNextConfigAtLevel_eq (configToFind : List ℕ) {config : Config}
    (hreadable : config.Readable) (here : List ℕ) (found : Bool) (nextConfig : Option (List ℕ)) :
    ∃ result, findNextConfigAtLevel configToFind config here found nextConfig =
      .ok ⟨result,
        ((config.positions.map (here ++ ·)).foldl (visit configToFind) (found, nextConfig)).1,
        ((config.positions.map (here ++ ·)).foldl (visit configToFind) (found, nextConfig)).2⟩ := by
  induction config using RoseTree.induct generalizing here found nextConfig with
  | node d cs ih =>
      replace hreadable := RoseTree.everywhere_node.mp hreadable
      have hchildren : ∀ (ds : List Config) (i : ℕ) (state : NextState), (∀ c ∈ ds, c ∈ cs) →
          ∃ result, findNextInChildren configToFind ds i ds.length here state =
            .ok ⟨result,
              (((positionsFrom i ds).map (here ++ ·)).foldl (visit configToFind)
                (state.found, state.nextConfig)).1,
              (((positionsFrom i ds).map (here ++ ·)).foldl (visit configToFind)
                (state.found, state.nextConfig)).2⟩ := by
        intro ds
        induction ds with
        | nil => exact fun i state _ => ⟨state.result, rfl⟩
        | cons c ds ihds =>
            intro i state hds
            have hmem := hds c List.mem_cons_self
            obtain ⟨result, hc⟩ :=
              ih c hmem (hreadable.2 c hmem) (here ++ [i]) state.found state.nextConfig
            obtain ⟨result', hrest⟩ := ihds (i + 1) _ fun e he => hds e (List.mem_cons_of_mem c he)
            refine ⟨result', ?_⟩
            rw [List.length_cons, findNextInChildren, hc]
            refine hrest.trans ?_
            simp only [positionsFrom, List.map_append, map_positions_append, List.foldl_append]
      by_cases hnext : nextConfig.isSome
      · exact ⟨.error, by simp [findNextConfigAtLevel, hnext, foldl_visit_of_isSome]⟩
      · obtain rfl : nextConfig = none := by simpa using hnext
        cases found with
        | true =>
            exact ⟨.ok, by
              simp [findNextConfigAtLevel, RoseTree.positions_eq, visit, foldl_visit_of_isSome]⟩
        | false =>
            obtain ⟨result, hloop⟩ := hchildren cs 0
              ⟨.notFound, decide (here = configToFind), none⟩ fun c hc => hc
            by_cases hcs : cs = []
            · subst hcs
              exact ⟨.notFound, by
                simp [findNextConfigAtLevel, RoseTree.positions_eq, RoseTree.descendants,
                  positionsFrom, visit]⟩
            · have hcount : d.childCount = cs.length := by
                simpa using hreadable.1 (by simpa using hcs)
              have hpos : cs.length ≠ 0 := fun h => hcs (List.length_eq_zero_iff.mp h)
              refine ⟨result, ?_⟩
              simpa [findNextConfigAtLevel, RoseTree.positions_eq, RoseTree.descendants, hcount,
                hcs, hpos, visit] using hloop

/-- In a list without repetitions the fold picks out the successor. -/
theorem foldl_visit_eq {configToFind : List ℕ} {before rest : List (List ℕ)}
    (h : configToFind ∉ before) :
    (before ++ configToFind :: rest).foldl (visit configToFind) (false, none) =
      (true, rest.head?) := by
  have hbefore : before.foldl (visit configToFind) (false, none) = (false, none) := by
    induction before with
    | nil => rfl
    | cons p before ih =>
        obtain ⟨hne, hrest⟩ := not_or.mp (mt List.mem_cons.mpr h)
        simpa [visit, Ne.symm hne] using ih hrest
  rw [List.foldl_append, hbefore, List.foldl_cons]
  cases rest with
  | nil => simp [visit]
  | cons p rest => simp [visit, foldl_visit_of_isSome]

/-- **Traversal.** `samconfConfigNext` stores the node that follows in preorder. -/
theorem samconfConfigNext_eq {root : Config} {configToFind : List ℕ}
    {before rest : List (List ℕ)} (hreadable : root.Readable)
    (hsplit : root.positions = before ++ configToFind :: rest) :
    ∃ result, samconfConfigNext root configToFind = .ok (result, rest.head?) := by
  have hnodup := RoseTree.nodup_positions root
  rw [hsplit] at hnodup
  have hbefore : configToFind ∉ before := fun hmem =>
    (List.nodup_append.mp hnodup).2.2 configToFind hmem configToFind List.mem_cons_self rfl
  obtain ⟨result, hfind⟩ := findNextConfigAtLevel_eq configToFind hreadable [] false none
  refine ⟨result, ?_⟩
  rw [samconfConfigNext, hfind]
  simp [hsplit, foldl_visit_eq hbefore, Except.bind, bind]

end Samconf
