/-
# What grafting shows under a key list

Read by key lists, a grafted tree is described entry by entry: where the source has
nothing the target stays, where both have a node the source is written over the
target, and where only the source has one there is its copy. So the order of two
sources is a matter of single entries as well.
-/

import Samconf.Foundation.Graft

namespace Foundation

open RoseTree (addChild childIdx? relabel view)

universe u v w

namespace RoseTree

variable {α : Type u} {κ : Type v} {β : Type w} [DecidableEq κ] {key : α → Option κ} {π : α → β}

theorem view_leaf (l : α) (k : κ) (ks : List κ) : view key π (node l []) (k :: ks) = none := by
  simp [view_cons]

/-- The first sibling with the key decides. -/
theorem view_node_cons (l : α) (d : RoseTree α) (ds : List (RoseTree α)) (k : κ)
    (ks : List κ) :
    view key π (node l (d :: ds)) (k :: ks) =
      if key d.label = some k then view key π d ks else view key π (node l ds) (k :: ks) := by
  rw [view_cons, view_cons, children_node, children_node]
  by_cases hd : key d.label = some k
  · simp [childIdx?, List.findIdx?_cons, hd]
  · rw [if_neg hd]
    simp only [childIdx?, List.findIdx?_cons, hd, decide_false]
    cases ds.findIdx? fun c => decide (key c.label = some k) <;> simp

/-- An appended sibling shows where no other one has its key. -/
theorem view_addChild {bump : α → α} (d t : RoseTree α) (k : κ) (ks : List κ) :
    view key π (addChild bump d t) (k :: ks) =
      if childIdx? key k t.children = none ∧ key d.label = some k then view key π d ks
      else view key π t (k :: ks) := by
  rw [view_cons, view_cons, children_addChild, childIdx?_append_singleton]
  cases hi : childIdx? key k t.children with
  | some i =>
      obtain ⟨c, hc, -, -⟩ := childIdx?_eq_some.mp hi
      simp [List.getElem?_append_left (List.getElem?_eq_some_iff.mp hc).1]
  | none => by_cases hd : key d.label = some k <;> simp [hd]

/-- The label at the top does not show below it. -/
theorem view_relabel (g : α → α) (t : RoseTree α) (k : κ) (ks : List κ) :
    view key π (relabel g t) (k :: ks) = view key π t (k :: ks) := by
  rw [view_cons, view_cons, children_relabel]

end RoseTree

namespace Grafting

variable {α : Type u} {κ : Type v} {β : Type w} [DecidableEq κ] {G : Grafting α κ}
  {π : α → β} {update : α → β → β} {c d t : RoseTree α}

/-- What a label leaves of an entry. -/
def entryAfter (G : Grafting α κ) (π : α → β) (update : α → β → β) (l : α) (b : Option β) : β :=
  b.elim (π (G.copy l)) (update l)

/-- How a part of the label is written, whatever the number of children. -/
structure Shows (G : Grafting α κ) (π : α → β) (update : α → β → β) : Prop where
  bump : ∀ l, π (G.bump l) = π l
  write : ∀ l d, π (G.write l d) = update l (π d)

/-- What a source makes of the entry of the target. -/
def combine (G : Grafting α κ) (π : α → β) (update : α → β → β) (l : Option α)
    (b : Option β) : Option β :=
  l.elim b fun l => some (G.entryAfter π update l b)

omit [DecidableEq κ] in
@[simp]
theorem combine_none (b : Option β) : G.combine π update none b = b := rfl

/-- One sibling changes the entries below its key, provided that it does so below the
node it is grafted onto. -/
theorem KeepsKeys.view_graftOne (hG : G.KeepsKeys) (hπ : G.Shows π update)
    (hbelow : ∀ t k ks, view G.key π (G.graft d t) (k :: ks) =
      G.combine π update (view G.key id d (k :: ks)) (view G.key π t (k :: ks)))
    (t : RoseTree α) (k : κ) (ks : List κ) :
    view G.key π (G.graftAll [d] t) (k :: ks) =
      if G.key d.label = some k then
        G.combine π update (view G.key id d ks) (view G.key π t (k :: ks))
      else view G.key π t (k :: ks) := by
  cases hkey : G.key d.label with
  | none => rw [graftOne_of_keyless hkey, if_neg (by simp)]
  | some m =>
      simp only [Option.some.injEq]
      cases hi : childIdx? G.key m t.children with
      | some i =>
          obtain ⟨e, he, hek, -⟩ := RoseTree.childIdx?_eq_some.mp hi
          have hkeep : G.key (G.graft d (relabel (G.write d.label) e)).label = G.key e.label := by
            rw [hG.key_graft, RoseTree.label_relabel, hG.key_write]
          rw [graftOne_of_some hkey hi, RoseTree.view_cons_modify hi he hkeep]
          by_cases hk : k = m
          · subst hk
            have hview : view G.key π t (k :: ks) = view G.key π e ks := by
              rw [RoseTree.view_cons, hi, Option.bind_some, he, Option.bind_some]
            rw [if_pos rfl, if_pos rfl, hview]
            cases ks with
            | nil =>
                rw [RoseTree.view_nil, RoseTree.view_nil, RoseTree.view_nil,
                  apply_label_graft hπ.bump, RoseTree.label_relabel, hπ.write]
                rfl
            | cons k' ks => rw [hbelow, RoseTree.view_relabel]
          · rw [if_neg hk, if_neg (Ne.symm hk)]
      | none =>
          have hcopy : G.key (G.graft d (.node (G.copy d.label) [])).label = some m := by
            rw [hG.key_graft, RoseTree.label_node, hG.key_copy, hkey]
          rw [graftOne_of_none hkey hi, RoseTree.view_addChild, hcopy]
          simp only [Option.some.injEq]
          by_cases hk : m = k
          · subst hk
            have hview : view G.key π t (m :: ks) = none := by
              rw [RoseTree.view_cons, hi, Option.bind_none]
            rw [if_pos ⟨hi, rfl⟩, if_pos rfl, hview]
            cases ks with
            | nil =>
                rw [RoseTree.view_nil, RoseTree.view_nil, apply_label_graft hπ.bump,
                  RoseTree.label_node]
                rfl
            | cons k' ks => rw [hbelow, RoseTree.view_leaf]
          · rw [if_neg fun h => hk h.2, if_neg hk]

/-- **A grafted tree entry by entry.** -/
theorem KeepsKeys.view_graft (hG : G.KeepsKeys) (hπ : G.Shows π update) (hc : G.Distinct c)
    (t : RoseTree α) (k : κ) (ks : List κ) :
    view G.key π (G.graft c t) (k :: ks) =
      G.combine π update (view G.key id c (k :: ks)) (view G.key π t (k :: ks)) := by
  induction c generalizing t k ks with
  | node l cs ih =>
      rw [graft_eq, RoseTree.children_node]
      have hnodup : (cs.map fun d => G.key d.label).Nodup := hc.self
      have hbelow : ∀ d ∈ cs, ∀ t k ks, view G.key π (G.graft d t) (k :: ks) =
          G.combine π update (view G.key id d (k :: ks)) (view G.key π t (k :: ks)) :=
        fun d hd t k ks => ih d hd (hc.child hd) t k ks
      clear ih hc
      induction cs generalizing t with
      | nil => rw [graftAll_nil, RoseTree.view_leaf, combine_none]
      | cons d cs ihcs =>
          rw [List.map_cons, List.nodup_cons] at hnodup
          rw [graftAll_cons, ihcs _ hnodup.2 (fun e he => hbelow e (List.mem_cons_of_mem d he)),
            hG.view_graftOne hπ (hbelow d List.mem_cons_self), RoseTree.view_node_cons]
          by_cases hk : G.key d.label = some k
          · have hlater : view G.key id (.node l cs) (k :: ks) = none := by
              have hnone : childIdx? G.key k cs = none := by
                rw [RoseTree.childIdx?_eq_none]
                exact fun e he hek =>
                  hnodup.1 (List.mem_map.mpr ⟨e, he, hek.trans hk.symm⟩)
              rw [RoseTree.view_cons, RoseTree.children_node, hnone, Option.bind_none]
            rw [if_pos hk, if_pos hk, hlater, combine_none]
          · rw [if_neg hk, if_neg hk]

/-- **When the order of two sources matters**: at an entry that both have, and that comes
out differently. -/
theorem KeepsKeys.view_graft_comm_iff (hG : G.KeepsKeys) (hπ : G.Shows π update)
    (hc : G.Distinct c) (hd : G.Distinct d) (t : RoseTree α) :
    (∀ k ks, view G.key π (G.graft d (G.graft c t)) (k :: ks) =
      view G.key π (G.graft c (G.graft d t)) (k :: ks)) ↔
    ∀ k ks l m, view G.key id c (k :: ks) = some l → view G.key id d (k :: ks) = some m →
      update m (G.entryAfter π update l (view G.key π t (k :: ks))) =
        update l (G.entryAfter π update m (view G.key π t (k :: ks))) := by
  refine forall_congr' fun k => forall_congr' fun ks => ?_
  rw [hG.view_graft hπ hd, hG.view_graft hπ hc, hG.view_graft hπ hc, hG.view_graft hπ hd]
  cases view G.key id c (k :: ks) with
  | none => simp
  | some l =>
      cases view G.key id d (k :: ks) with
      | none => simp
      | some m => simp [combine, entryAfter]

end Grafting

end Foundation
