/-
# What an insertion leaves of a tree

Whichever allocations fail, an insertion that says OK only ever added children: to
nodes that were there and to nodes it has made itself. The tree before is extended
by OBJECTs, some of them perhaps without a key, and by the given node. The lookup
needs no more than this to tell an old node from a new one: what it finds is what
the segments resolve to, in any tree.
-/

import Samconf.Foundation.Extension
import Samconf.Spec.Create

namespace Samconf

open Foundation
open Exec (Ensures)
open RoseTree (relabel addChild)

/-- Two labels of one node, between which only children were added. -/
def NodeData.Same (d d' : NodeData) : Prop := d'.key = d.key ∧ d'.setting = d.setting

/-- The tree with further nodes, all of whose labels have the property. -/
abbrev Config.ExtendedBy (new : NodeData → Prop) (config config' : Config) : Prop :=
  RoseTree.Extends NodeData.Same new config config'

/-- A property of the setting only, that intermediate nodes of `samconfInsertAt` have. -/
structure AllowsNew (new : NodeData → Prop) : Prop where
  congr : ∀ d d' : NodeData, new d → d.Same d' → new d'
  object : ∀ key, new { NodeData.init with key := key, type := .object }

variable {new : NodeData → Prop} {root parent child config : Config} {path : CString}

namespace Config.ExtendedBy

theorem refl (config : Config) : ExtendedBy new config config :=
  RoseTree.Extends.refl (fun _ => ⟨rfl, rfl⟩) config

theorem trans {config' config'' : Config} (hnew : AllowsNew new)
    (h : ExtendedBy new config config') (h' : ExtendedBy new config' config'') :
    ExtendedBy new config config'' :=
  RoseTree.Extends.trans
    (fun _ _ _ h h' => ⟨h'.1.trans h.1, h'.2.trans h.2⟩) hnew.congr h h'

/-- One more child of one node. -/
theorem add {p : List ℕ} (hp : root.sub? p = some parent)
    (hchild : ∀ q s, child.sub? q = some s → new s.label) :
    ExtendedBy new root (root.modify (fun _ => addChild NodeData.bump child parent) p) :=
  RoseTree.Extends.modify (fun _ => ⟨rfl, rfl⟩) hp
    (RoseTree.Extends.addChild (fun _ => ⟨rfl, rfl⟩) (fun _ => ⟨rfl, rfl⟩) hchild parent)

/-- A path that leads to an old position led there before. -/
theorem resolve_of_old {config' s : Config} {segments : List CString} {p : List ℕ}
    (h : ExtendedBy new config config') (hp : config'.resolve segments = some p)
    (hs : config.sub? p = some s) : config.resolve segments = some p :=
  RoseTree.Extends.resolve_of_old (fun _ _ h => h.1) h hp hs

end Config.ExtendedBy

/-! ## Insertion -/

/-- The node for a segment is the given one or an OBJECT without children. -/
theorem makeSegment_ensures (hnew : AllowsNew new) (segment : CString) (isLast : Bool)
    (hconfig : ∀ q s, config.sub? q = some s → new s.label) :
    (makeSegment config segment isLast).Ensures fun r =>
      ∀ node, r.2 = some node → ∀ q s, node.sub? q = some s → new s.label := by
  rw [makeSegment]
  split
  · refine Exec.ensures_pure fun node hnode => ?_
    cases hnode
    exact hconfig
  · refine samconfConfigNew_ensures.bind ?_
    rintro created (rfl | rfl)
    · exact Exec.ensures_pure fun node hnode => by cases hnode
    · refine (Exec.ensures_true _).bind fun key _ => Exec.ensures_pure fun node hnode q s hs => ?_
      cases hnode
      cases q with
      | nil =>
          obtain rfl := Option.some.inj hs
          exact hnew.object key
      | cons i q => simp [samconfConfigInit, relabel] at hs

theorem insertSegments_extends (hnew : AllowsNew new)
    (hconfig : ∀ q s, config.sub? q = some s → new s.label) (passed rest : List CString)
    (root : Config) (parent : List ℕ) (result : ConfigStatus) :
    (insertSegments config passed rest root parent result).Ensures fun r =>
      r.1 = .ok → Config.ExtendedBy new root r.2 := by
  induction rest generalizing passed root parent result with
  | nil => exact Exec.ensures_pure fun _ => .refl root
  | cons segment rest ih =>
      rw [insertSegments]
      refine (Exec.ensures_true _).bind fun pathToToken _ => ?_
      cases pathToToken with
      | none => exact ih _ root parent _
      | some pathToToken =>
          refine (Exec.ensures_true _).bind fun looked _ => ?_
          simp only
          split
          · split
            · exact Exec.ensures_pure fun _ => .refl root
            · exact (Exec.ensures_true _).bind fun existing _ => ih _ root existing _
          · split
            · exact Exec.ensures_pure fun _ => .refl root
            · refine (makeSegment_ensures hnew segment _ hconfig).bind fun made hmade => ?_
              rcases made with ⟨result, node⟩
              cases node with
              | none => exact Exec.ensures_pure fun _ => .refl root
              | some node =>
                  cases hparent : root.sub? parent with
                  | none => exact (Exec.ensures_fault _).bind (P := fun _ => False) (by simp)
                  | some parentNode =>
                      simp only [deref_some, Exec.pure_bind]
                      refine (samconfConfigAdd_ensures parentNode node).bind fun added hadded => ?_
                      split
                      · rename_i hok
                        refine (ih _ _ _ _).mono fun r hr hrok => ?_
                        rw [hadded hok] at hr
                        exact (Config.ExtendedBy.add hparent (hmade node rfl)).trans hnew (hr hrok)
                      · rename_i herror
                        exact Exec.ensures_pure fun hok => absurd hok herror

theorem samconfInsertAt_extends (hnew : AllowsNew new)
    (hconfig : ∀ q s, config.sub? q = some s → new s.label) (root : Config) (path : CString) :
    (samconfInsertAt root path config).Ensures fun r =>
      r.1 = .ok → Config.ExtendedBy new root r.2 := by
  rw [samconfInsertAt]
  refine (Exec.ensures_true _).bind fun array _ => ?_
  simp only
  split
  · exact Exec.ensures_pure fun _ => .refl root
  · split
    · exact insertSegments_extends hnew hconfig _ _ root _ _
    · exact Exec.ensures_pure fun _ => .refl root

/-- **A creation that says OK** extends the tree by OBJECTs and the new option. -/
theorem createAt_extends {set : Config → Run (ConfigStatus × Config)} (hnew : AllowsNew new)
    (hset : ∀ key, (set (.node { NodeData.init with key := some key } [])).Ensures
      fun r => r.2.children = [] ∧ new r.2.label) (root : Config) (path : CString) :
    (createAt set root path).Ensures fun r => r.1 = .ok → Config.ExtendedBy new root r.2 := by
  rw [createAt]
  refine samconfConfigNew_ensures.bind ?_
  rintro created (rfl | rfl)
  · exact Exec.ensures_pure fun _ => .refl root
  · refine (Exec.ensures_true _).bind fun copyPath _ => ?_
    cases copyPath with
    | none => exact Exec.ensures_pure fun _ => .refl root
    | some copyPath =>
        refine (Exec.ensures_true _).bind fun key _ => ?_
        cases key with
        | none => exact Exec.ensures_pure fun _ => .refl root
        | some key =>
            refine (hset key).bind fun written hwritten => ?_
            rcases written with ⟨result, node⟩
            obtain ⟨hleaf, hlabel⟩ := hwritten
            simp only
            split
            · refine samconfInsertAt_extends hnew (fun q s hs => ?_) root path
              cases q with
              | nil =>
                  obtain rfl : node = s := by simpa using hs
                  exact hlabel
              | cons i q =>
                  rw [RoseTree.sub?_cons, hleaf] at hs
                  cases hs
            · exact Exec.ensures_pure fun _ => .refl root

/-! ## What a lookup finds -/

theorem scanChildren_found {segment : CString} {n i j : ℕ} {node : Config} {o o' : Supply}
    (hbefore : ∀ k < i, ∀ c, parent.children[k]? = some c → c.label.key ≠ some segment)
    (h : scanChildren parent segment n i o = .ok (.found j node, o')) :
    parent.children[j]? = some node ∧
      RoseTree.childIdx? NodeData.key segment parent.children = some j := by
  induction n generalizing i with
  | zero => cases h
  | succ n ih =>
      rw [scanChildren] at h
      split at h
      · cases h
      · cases hnode : parent.children[i]? with
        | none =>
            rw [hnode] at h
            cases h
        | some c =>
            cases hkey : c.label.key with
            | none =>
                simp only [hnode, deref_some, Exec.pure_bind, hkey] at h
                cases h
            | some key =>
                simp only [hnode, deref_some, Exec.pure_bind, hkey] at h
                split at h
                · rename_i heq
                  cases h
                  exact ⟨hnode,
                    RoseTree.childIdx?_eq_some.mpr ⟨_, hnode, by rw [hkey, heq], hbefore⟩⟩
                · rename_i hne
                  refine ih (fun k hk d hd => ?_) h
                  rcases Nat.lt_succ_iff_lt_or_eq.mp hk with hlt | rfl
                  · exact hbefore k hlt d hd
                  · obtain rfl : c = d := Option.some.inj (hnode.symm.trans hd)
                    simpa [hkey] using hne

/-- With a count of zero the loop passes all segments and finds nothing. -/
theorem getSegments_zero (parent : Config) (here : List ℕ) (status : ConfigStatus)
    (segments : List CString) :
    getSegments parent here 0 status segments = pure (status, none) := by
  induction segments with
  | nil => rfl
  | cons segment rest ih =>
      rw [getSegments, scanChildren]
      exact ih

theorem getSegments_found {here : List ℕ} {childCount : ℕ} {status : ConfigStatus}
    {segments : List CString} {p : List ℕ} {o o' : Supply}
    (h : getSegments parent here childCount status segments o = .ok ((.ok, some p), o')) :
    ∃ q, parent.resolve segments = some q ∧ segments ≠ [] ∧ p = here ++ q := by
  induction segments generalizing parent here childCount status o with
  | nil => cases h
  | cons segment rest ih =>
      rw [getSegments] at h
      obtain ⟨scan, o₁, hscan, h⟩ := Exec.bind_eq_ok.mp h
      cases scan with
      | found j node =>
          obtain ⟨hnode, hidx⟩ := scanChildren_found (by simp) hscan
          simp only at h
          split at h
          · rename_i hlast
            simp only [Exec.pure_apply, Except.ok.injEq, Prod.mk.injEq, Option.some.injEq,
              true_and] at h
            exact ⟨[j], by simp [Config.resolve, hidx, hnode, hlast], by simp, h.1.symm⟩
          · have hbelow : ∃ q, node.resolve rest = some q ∧ p = here ++ [j] ++ q := by
              split at h
              · obtain ⟨q, hq, -, hp⟩ := ih h
                exact ⟨q, hq, hp⟩
              · obtain ⟨q, hq, -, hp⟩ := ih h
                exact ⟨q, hq, hp⟩
            obtain ⟨q, hq, rfl⟩ := hbelow
            rw [Config.resolve] at hq
            exact ⟨j :: q, by simp [Config.resolve, hidx, hnode, hq], by simp, by simp⟩
      | childless =>
          -- below a node without children nothing else is found either
          have hchildren : parent.children = [] :=
            Exec.ensures_iff.mp (scanChildren_ensures parent segment childCount 0) _ _ _ hscan
          obtain ⟨q, hq, hne, -⟩ := ih h
          rw [resolve_of_childless hchildren hne] at hq
          cases hq
      | exhausted =>
          simp only at h
          split at h
          · cases h
          · rename_i hzero
            rw [not_not.mp hzero, getSegments_zero] at h
            cases h

/-- **What is found is what the segments resolve to**, in any tree and on any supply. -/
theorem samconfConfigGet_found {p : List ℕ} {o o' : Supply}
    (h : samconfConfigGet root (some path) o = .ok ((.ok, some p), o')) :
    root.resolve (pathSegments path) = some p ∧ pathSegments path ≠ [] := by
  rw [samconfConfigGet] at h
  split at h
  · cases h
  · obtain ⟨array, o₁, harray, h⟩ := Exec.bind_eq_ok.mp h
    rcases Exec.ensures_iff.mp (samconfPathCreateArray_ensures path) _ _ _ harray with rfl | rfl
    · simp only [if_true] at h
      obtain ⟨q, hq, hne, rfl⟩ := getSegments_found h
      exact ⟨hq, hne⟩
    · cases h

end Samconf
