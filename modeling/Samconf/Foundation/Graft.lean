/-
# Grafting one tree onto another

A tree is grafted onto another by going down both along equal keys: a node that
meets one with its key is written over it, a node that meets none is appended as
a copy, with everything below it. The same happens node by node when the entries
of the first tree, each the keys on the way to a node and its label, are put into
the second one after the other in preorder; the fold and the recursion agree.

Written as a recursion, the operation has an algebra. Grafting twice is grafting
once, and grafting is associative, as far as the writing of labels is; it need
not be commutative, since the later label decides and new children come last.
-/

import Samconf.Foundation.KeyPath

namespace Foundation

open RoseTree (childIdx? relabel addChild Everywhere)

universe u v

/-- How labels are grafted. -/
structure Grafting (α : Type u) (κ : Type v) where
  key : α → Option κ
  /-- The label that a source leaves on a target. -/
  write : α → α → α
  /-- The label of a copy. -/
  copy : α → α
  /-- The label with one more child. -/
  bump : α → α

namespace Grafting

variable {α : Type u} {κ : Type v}

/-- What keeps the keys. -/
structure KeepsKeys (G : Grafting α κ) : Prop where
  key_write : ∀ l d, G.key (G.write l d) = G.key d
  key_copy : ∀ l, G.key (G.copy l) = G.key l
  key_bump : ∀ l, G.key (G.bump l) = G.key l

/-- Writing labels is associative, copies write what they are copies of, and the
number of children takes no part. -/
structure Lawful (G : Grafting α κ) : Prop extends KeepsKeys G where
  write_bump : ∀ l d, G.write l (G.bump d) = G.bump (G.write l d)
  write_of_bump : ∀ l, G.write (G.bump l) = G.write l
  copy_bump : ∀ l, G.copy (G.bump l) = G.copy l
  write_write : ∀ l m d, G.write (G.write l m) d = G.write l (G.write m d)
  copy_write : ∀ l m, G.copy (G.write l m) = G.write l (G.copy m)
  write_copy : ∀ l, G.write (G.copy l) = G.write l
  copy_copy : ∀ l, G.copy (G.copy l) = G.copy l
  write_self : ∀ l d, G.write l (G.write l d) = G.write l d
  write_own_copy : ∀ l, G.write l (G.copy l) = G.copy l

variable [DecidableEq κ] (G : Grafting α κ)

mutual

/-- Graft what is below the top of a source onto a tree. -/
def graft : RoseTree α → RoseTree α → RoseTree α
  | .node _ cs, t => graftAll cs t

/-- Graft siblings onto a tree, one after the other. -/
def graftAll : List (RoseTree α) → RoseTree α → RoseTree α
  | [], t => t
  | c :: cs, t =>
      graftAll cs <|
        match G.key c.label with
        | none => t
        | some k =>
            match childIdx? G.key k t.children with
            | some i =>
                .node t.label (t.children.modify i fun d => graft c (relabel (G.write c.label) d))
            | none => addChild G.bump (graft c (.node (G.copy c.label) [])) t

end

variable {G} {c t : RoseTree α} {cs ds : List (RoseTree α)} {k : κ} {i : ℕ}

theorem graft_eq (c t : RoseTree α) : G.graft c t = G.graftAll c.children t := by
  cases c
  rfl

@[simp]
theorem graftAll_nil (t : RoseTree α) : G.graftAll [] t = t := rfl

theorem graftAll_cons (c : RoseTree α) (cs : List (RoseTree α)) (t : RoseTree α) :
    G.graftAll (c :: cs) t = G.graftAll cs (G.graftAll [c] t) := rfl

theorem graftAll_append (cs ds : List (RoseTree α)) (t : RoseTree α) :
    G.graftAll (cs ++ ds) t = G.graftAll ds (G.graftAll cs t) := by
  induction cs generalizing t with
  | nil => rfl
  | cons c cs ih => rw [List.cons_append, graftAll_cons, ih, ← graftAll_cons]

/-- The label at the top of a source does not count. -/
theorem graft_relabel (g : α → α) (c t : RoseTree α) :
    G.graft (relabel g c) t = G.graft c t := by
  cases c
  rfl

theorem graftOne_of_keyless (h : G.key c.label = none) (t : RoseTree α) :
    G.graftAll [c] t = t := by
  simp [graftAll, h]

/-- A node that meets one with its key. -/
theorem graftOne_of_some (hkey : G.key c.label = some k)
    (h : childIdx? G.key k t.children = some i) :
    G.graftAll [c] t =
      .node t.label (t.children.modify i fun d => G.graft c (relabel (G.write c.label) d)) := by
  simp [graftAll, hkey, h]

/-- A node that meets none. -/
theorem graftOne_of_none (hkey : G.key c.label = some k)
    (h : childIdx? G.key k t.children = none) :
    G.graftAll [c] t = addChild G.bump (G.graft c (.node (G.copy c.label) [])) t := by
  simp [graftAll, hkey, h]

/-- Children in front that have none of the keys stay there, and what is grafted goes on the
others. -/
theorem children_graftAll_of_front {cs front : List (RoseTree α)}
    (hfront : ∀ c ∈ cs, ∀ k, G.key c.label = some k → childIdx? G.key k front = none)
    {t u : RoseTree α} (h : t.children = front ++ u.children) :
    (G.graftAll cs t).children = front ++ (G.graftAll cs u).children := by
  induction cs generalizing t u with
  | nil => exact h
  | cons c cs ih =>
      rw [graftAll_cons, graftAll_cons c cs u]
      apply ih fun d hd => hfront d (List.mem_cons_of_mem c hd)
      cases hkey : G.key c.label with
      | none => rwa [graftOne_of_keyless hkey, graftOne_of_keyless hkey]
      | some k =>
          have hidx : childIdx? G.key k t.children =
              (childIdx? G.key k u.children).map (· + front.length) := by
            have hnone := hfront c List.mem_cons_self k hkey
            rw [childIdx?] at hnone
            rw [h, childIdx?, List.findIdx?_append, hnone, Option.none_or]
            rfl
          cases hi : childIdx? G.key k u.children with
          | none =>
              rw [hi, Option.map_none] at hidx
              rw [graftOne_of_none hkey hidx, graftOne_of_none hkey hi, RoseTree.children_addChild,
                RoseTree.children_addChild, h, List.append_assoc]
          | some i =>
              rw [hi, Option.map_some] at hidx
              have hmodify (f : RoseTree α → RoseTree α) :
                  (front ++ u.children).modify (i + front.length) f =
                    front ++ u.children.modify i f := by
                clear hfront h hidx ih
                induction front with
                | nil => rfl
                | cons d front ihf =>
                    rw [List.cons_append, List.length_cons, ← Nat.add_assoc, List.modify_succ_cons,
                      ihf, List.cons_append]
              rw [graftOne_of_some hkey hidx, graftOne_of_some hkey hi, RoseTree.children_node,
                RoseTree.children_node, h, hmodify]

/-! ## What grafting does to the top -/

/-- Only the number of children shows at the top of the target. -/
theorem apply_label_graftAll {β : Type*} {f : α → β} (hf : ∀ l, f (G.bump l) = f l)
    (cs : List (RoseTree α)) (t : RoseTree α) : f (G.graftAll cs t).label = f t.label := by
  induction cs generalizing t with
  | nil => rfl
  | cons c cs ih =>
      rw [graftAll_cons, ih]
      cases hkey : G.key c.label with
      | none => rw [graftOne_of_keyless hkey]
      | some k =>
          cases hi : childIdx? G.key k t.children with
          | some i => rw [graftOne_of_some hkey hi, RoseTree.label_node]
          | none => rw [graftOne_of_none hkey hi, RoseTree.label_addChild, hf]

/-- A label that counts the children goes on counting them. -/
theorem count_graftAll {count : α → ℕ} (hcount : ∀ l, count (G.bump l) = count l + 1)
    (cs : List (RoseTree α)) (ht : count t.label = t.children.length) :
    count (G.graftAll cs t).label = (G.graftAll cs t).children.length := by
  induction cs generalizing t with
  | nil => exact ht
  | cons c cs ih =>
      rw [graftAll_cons]
      apply ih
      cases hkey : G.key c.label with
      | none => rwa [graftOne_of_keyless hkey]
      | some k =>
          cases hi : childIdx? G.key k t.children with
          | some i => simpa [graftOne_of_some hkey hi] using ht
          | none => simpa [graftOne_of_none hkey hi, hcount] using ht

theorem apply_label_graft {β : Type*} {f : α → β} (hf : ∀ l, f (G.bump l) = f l)
    (c t : RoseTree α) : f (G.graft c t).label = f t.label := by
  rw [graft_eq, apply_label_graftAll hf]

/-- Relabelling the top of the target first or last is the same. -/
theorem graftAll_relabel {g : α → α} (hg : ∀ l, g (G.bump l) = G.bump (g l))
    (cs : List (RoseTree α)) (t : RoseTree α) :
    G.graftAll cs (relabel g t) = relabel g (G.graftAll cs t) := by
  induction cs generalizing t with
  | nil => rfl
  | cons c cs ih =>
      have hone : G.graftAll [c] (relabel g t) = relabel g (G.graftAll [c] t) := by
        rcases t with ⟨l, ds⟩
        cases hkey : G.key c.label with
        | none => rw [graftOne_of_keyless hkey, graftOne_of_keyless hkey]
        | some k =>
            cases hi : childIdx? G.key k ds with
            | some i =>
                rw [graftOne_of_some (t := relabel g (.node l ds)) hkey hi,
                  graftOne_of_some (t := .node l ds) hkey hi]
                rfl
            | none =>
                rw [graftOne_of_none (t := relabel g (.node l ds)) hkey hi,
                  graftOne_of_none (t := .node l ds) hkey hi]
                simp [relabel, addChild, hg]
      rw [graftAll_cons c cs, graftAll_cons c cs, hone, ih]

theorem graft_relabel_target {g : α → α} (hg : ∀ l, g (G.bump l) = G.bump (g l))
    (c t : RoseTree α) : G.graft c (relabel g t) = relabel g (G.graft c t) := by
  rw [graft_eq, graftAll_relabel hg, graft_eq]

theorem KeepsKeys.key_graft (hG : G.KeepsKeys) (c t : RoseTree α) :
    G.key (G.graft c t).label = G.key t.label :=
  apply_label_graft hG.key_bump c t

/-- A node that meets one leaves all keys of siblings alone. -/
theorem KeepsKeys.childIdx?_graftOne (hG : G.KeepsKeys) (hkey : G.key c.label = some k)
    (h : childIdx? G.key k t.children = some i) (m : κ) :
    childIdx? G.key m (G.graftAll [c] t).children = childIdx? G.key m t.children := by
  obtain ⟨d, hd, -, -⟩ := RoseTree.childIdx?_eq_some.mp h
  rw [graftOne_of_some hkey h, RoseTree.children_node]
  apply RoseTree.childIdx?_modify hd
  rw [hG.key_graft, RoseTree.label_relabel, hG.key_write]

/-! ## The algebra of grafting -/

omit [DecidableEq κ] in
/-- Rewriting a child and appending another one commute. -/
theorem modify_addChild {bump : α → α} {f : RoseTree α → RoseTree α} {d : RoseTree α}
    (hi : i < t.children.length) :
    RoseTree.node (addChild bump d t).label ((addChild bump d t).children.modify i f) =
      addChild bump d (.node t.label (t.children.modify i f)) := by
  rw [RoseTree.label_addChild, RoseTree.children_addChild]
  refine congrArg (RoseTree.node (bump t.label)) (List.ext_getElem? fun j => ?_)
  by_cases hj : j < t.children.length
  · simp [List.getElem?_modify, List.getElem?_append_left, List.getElem_modify, hj]
  · have hij : i ≠ j := by omega
    simp [List.getElem?_append_right, not_lt.mp hj, hij]

/-- A node whose key is there already can as well be grafted later, past a sibling
with another key. -/
theorem KeepsKeys.graftOne_comm (hG : G.KeepsKeys) {d : RoseTree α}
    (hkey : G.key c.label = some k) (hi : childIdx? G.key k t.children = some i)
    (hne : G.key d.label ≠ some k) :
    G.graftAll [c] (G.graftAll [d] t) = G.graftAll [d] (G.graftAll [c] t) := by
  obtain ⟨e, he, hek, -⟩ := RoseTree.childIdx?_eq_some.mp hi
  cases hm : G.key d.label with
  | none => rw [graftOne_of_keyless hm, graftOne_of_keyless hm]
  | some m =>
      cases hj : childIdx? G.key m t.children with
      | some j =>
          have hij : i ≠ j := by
            rintro rfl
            obtain ⟨e', he', hem, -⟩ := RoseTree.childIdx?_eq_some.mp hj
            obtain rfl : e = e' := by simpa [he] using he'
            exact hne (by rw [hm, ← hem, hek])
          have hi' : childIdx? G.key k (G.graftAll [d] t).children = some i := by
            rw [hG.childIdx?_graftOne hm hj, hi]
          have hj' : childIdx? G.key m (G.graftAll [c] t).children = some j := by
            rw [hG.childIdx?_graftOne hkey hi, hj]
          rw [graftOne_of_some hkey hi', graftOne_of_some hm hj', graftOne_of_some hm hj,
            graftOne_of_some hkey hi]
          simp only [RoseTree.label_node, RoseTree.children_node]
          rw [List.modify_modify_ne _ _ _ (Ne.symm hij)]
      | none =>
          have hi' : childIdx? G.key k (G.graftAll [d] t).children = some i := by
            rw [graftOne_of_none hm hj, RoseTree.children_addChild,
              RoseTree.childIdx?_append_singleton, hi]
            rfl
          have hj' : childIdx? G.key m (G.graftAll [c] t).children = none := by
            rw [hG.childIdx?_graftOne hkey hi, hj]
          rw [graftOne_of_some hkey hi', graftOne_of_none hm hj', graftOne_of_none hm hj,
            graftOne_of_some hkey hi, modify_addChild (List.getElem?_eq_some_iff.mp he).1]

/-- A key that is there stays. -/
theorem KeepsKeys.exists_childIdx?_graftAll (hG : G.KeepsKeys)
    (hi : childIdx? G.key k t.children = some i) :
    childIdx? G.key k (G.graftAll cs t).children = some i := by
  induction cs generalizing t with
  | nil => exact hi
  | cons d cs ih =>
      rw [graftAll_cons]
      apply ih
      cases hm : G.key d.label with
      | none => rwa [graftOne_of_keyless hm]
      | some m =>
          cases hj : childIdx? G.key m t.children with
          | some j => rw [hG.childIdx?_graftOne hm hj, hi]
          | none =>
              rw [graftOne_of_none hm hj, RoseTree.children_addChild,
                RoseTree.childIdx?_append_singleton, hi]
              rfl

/-- Past all siblings with other keys. -/
theorem KeepsKeys.graftOne_graftAll_comm (hG : G.KeepsKeys)
    (hkey : G.key c.label = some k) (hi : childIdx? G.key k t.children = some i)
    (hne : ∀ d ∈ cs, G.key d.label ≠ some k) :
    G.graftAll [c] (G.graftAll cs t) = G.graftAll cs (G.graftAll [c] t) := by
  induction cs generalizing t with
  | nil => rfl
  | cons d cs ih =>
      have hi' : childIdx? G.key k (G.graftAll [d] t).children = some i :=
        hG.exists_childIdx?_graftAll hi
      rw [graftAll_cons d cs, ih hi' fun e he => hne e (List.mem_cons_of_mem d he),
        hG.graftOne_comm hkey hi (hne d List.mem_cons_self), ← graftAll_cons]

/-- Once grafted, a node is there. -/
theorem KeepsKeys.exists_childIdx?_graftOne (hG : G.KeepsKeys)
    (hkey : G.key c.label = some k) (t : RoseTree α) :
    ∃ i, childIdx? G.key k (G.graftAll [c] t).children = some i := by
  cases hi : childIdx? G.key k t.children with
  | some i => exact ⟨i, hG.exists_childIdx?_graftAll hi⟩
  | none =>
      refine ⟨t.children.length, ?_⟩
      rw [graftOne_of_none hkey hi, RoseTree.children_addChild,
        RoseTree.childIdx?_append_singleton, hi, hG.key_graft, RoseTree.label_node, hG.key_copy,
        hkey]
      simp

/-- Siblings with new and different keys are appended as copies. -/
theorem KeepsKeys.graftAll_of_new (hG : G.KeepsKeys)
    (hkeyed : none ∉ cs.map fun c => G.key c.label)
    (hnew : (t.children.map (fun c => G.key c.label) ++ cs.map fun c => G.key c.label).Nodup) :
    G.graftAll cs t = .node (G.bump^[cs.length] t.label)
      (t.children ++ cs.map fun c => G.graft c (.node (G.copy c.label) [])) := by
  induction cs generalizing t with
  | nil => simp
  | cons c cs ih =>
      obtain ⟨k, hkey⟩ := Option.ne_none_iff_exists'.mp fun hnone : G.key c.label = none =>
        hkeyed (by simp [hnone])
      have hi : childIdx? G.key k t.children = none := by
        rw [RoseTree.childIdx?_eq_none]
        intro d hd hdk
        exact (List.nodup_append.mp hnew).2.2 _ (List.mem_map_of_mem hd) _ List.mem_cons_self
          (hdk.trans hkey.symm)
      have hcopy : G.key (G.graft c (.node (G.copy c.label) [])).label = G.key c.label := by
        rw [hG.key_graft, RoseTree.label_node, hG.key_copy]
      rw [graftAll_cons, graftOne_of_none hkey hi, ih]
      · simp
      · exact fun hmem => hkeyed (List.mem_cons_of_mem _ hmem)
      · simpa [hcopy] using hnew

/-- Siblings with different keys. -/
abbrev Distinct (G : Grafting α κ) (t : RoseTree α) : Prop :=
  Everywhere G.key (fun _ keys => keys.Nodup) t

omit [DecidableEq κ] in
/-- Where siblings differ, no other child has the key of a child. -/
theorem Distinct.key_ne {l : α} {pre post : List (RoseTree α)}
    (h : G.Distinct (.node l (pre ++ c :: post))) (hkey : G.key c.label = some k) :
    (∀ d ∈ pre, G.key d.label ≠ some k) ∧ ∀ d ∈ post, G.key d.label ≠ some k := by
  have hnodup : ((pre ++ c :: post).map fun d => G.key d.label).Nodup := h.self
  rw [List.map_append, List.map_cons, List.nodup_append, List.nodup_cons] at hnodup
  rcases hnodup with ⟨-, ⟨hpost, -⟩, hpre⟩
  constructor
  · intro d hd heq
    exact hpre _ (List.mem_map_of_mem hd) _ List.mem_cons_self (by rw [heq, hkey])
  · intro d hd heq
    exact hpost (List.mem_map.mpr ⟨d, hd, by rw [heq, hkey]⟩)

/-- Writing over a label twice is writing over it once by the composition. -/
theorem relabel_relabel (f g : α → α) (t : RoseTree α) :
    relabel g (relabel f t) = relabel (fun l => g (f l)) t := by
  cases t
  rfl

section Lawful

variable {a b : RoseTree α}

/-- Written over and grafted onto, a node is grafted as the two nodes are one after the
other. -/
theorem Lawful.graftOne_write (hG : G.Lawful) (ha : G.key a.label = some k)
    (hb : G.key b.label = some k)
    (hbelow : ∀ t, G.graft (G.graft b a) t = G.graft b (G.graft a t)) (t : RoseTree α) :
    G.graftAll [G.graft b (relabel (G.write b.label) a)] t = G.graftAll [b] (G.graftAll [a] t) := by
  -- what the label at the top of the written node does
  have hkey : G.key (G.graft b (relabel (G.write b.label) a)).label = some k := by
    rw [hG.key_graft, RoseTree.label_relabel, hG.key_write, ha]
  have hover : G.write (G.graft b (relabel (G.write b.label) a)).label =
      fun d => G.write b.label (G.write a.label d) := by
    funext d
    rw [apply_label_graft hG.write_of_bump, RoseTree.label_relabel, hG.write_write]
  have hcopy : G.copy (G.graft b (relabel (G.write b.label) a)).label =
      G.write b.label (G.copy a.label) := by
    rw [apply_label_graft hG.copy_bump, RoseTree.label_relabel, hG.copy_write]
  have hgraft (d : RoseTree α) : G.graft (G.graft b (relabel (G.write b.label) a)) d =
      G.graft b (G.graft a d) := by
    rw [graft_relabel_target (hG.write_bump _), graft_relabel, hbelow]
  cases hi : childIdx? G.key k t.children with
  | some i =>
      have hi' : childIdx? G.key k (G.graftAll [a] t).children = some i := by
        rw [hG.childIdx?_graftOne ha hi, hi]
      rw [graftOne_of_some hkey hi, graftOne_of_some hb hi', graftOne_of_some ha hi]
      simp only [RoseTree.label_node, RoseTree.children_node, List.modify_modify_eq]
      congr 2
      funext d
      simp only [Function.comp_apply]
      rw [hgraft, ← graft_relabel_target (hG.write_bump _) a, relabel_relabel, hover]
  | none =>
      have hi' : childIdx? G.key k (G.graftAll [a] t).children = some t.children.length := by
        rw [graftOne_of_none ha hi, RoseTree.children_addChild,
          RoseTree.childIdx?_append_singleton, hi, hG.key_graft, RoseTree.label_node, hG.key_copy,
          ha]
        simp
      have hlast := @RoseTree.modify_addChild_last _ G.bump
        (fun d => G.graft b (relabel (G.write b.label) d))
        (G.graft a (.node (G.copy a.label) [])) t
      rw [graftOne_of_none hkey hi, graftOne_of_some hb hi', graftOne_of_none ha hi, hcopy, hgraft]
      rw [← graft_relabel_target (hG.write_bump _) a] at hlast
      simpa [relabel] using hlast.symm

/-- A copy is grafted as its source is. -/
theorem Lawful.graftOne_copy (hG : G.Lawful) (hb : G.key b.label = some k)
    (hbelow : ∀ t, G.graft (G.graft b (.node (G.copy b.label) [])) t = G.graft b t)
    (t : RoseTree α) :
    G.graftAll [G.graft b (.node (G.copy b.label) [])] t = G.graftAll [b] t := by
  have hkey : G.key (G.graft b (.node (G.copy b.label) [])).label = some k := by
    rw [hG.key_graft, RoseTree.label_node, hG.key_copy, hb]
  have hover : G.write (G.graft b (.node (G.copy b.label) [])).label = G.write b.label := by
    rw [apply_label_graft hG.write_of_bump, RoseTree.label_node, hG.write_copy]
  have hcopy : G.copy (G.graft b (.node (G.copy b.label) [])).label = G.copy b.label := by
    rw [apply_label_graft hG.copy_bump, RoseTree.label_node, hG.copy_copy]
  cases hi : childIdx? G.key k t.children with
  | some i => simp only [graftOne_of_some hkey hi, graftOne_of_some hb hi, hover, hbelow]
  | none => rw [graftOne_of_none hkey hi, graftOne_of_none hb hi, hcopy, hbelow]

/-- Grafting keeps a property of every node that a written label keeps, that survives
one more child with a new key, and that holds of copies. -/
theorem KeepsKeys.everywhere_graft (hG : G.KeepsKeys) {Q : α → List (Option κ) → Prop}
    {P : α → Prop} (hover : ∀ l d keys, P l → Q d keys → Q (G.write l d) keys)
    (hadd : ∀ l d keys k, P l → G.key l = some k → Q d keys → some k ∉ keys →
      Q (G.bump d) (keys ++ [some k]))
    (hnew : ∀ l, P l → Q (G.copy l) []) {b t : RoseTree α}
    (hb : ∀ c ∈ b.children, Everywhere G.key (fun l _ => P l) c) (ht : Everywhere G.key Q t) :
    Everywhere G.key Q (G.graft b t) := by
  induction b generalizing t with
  | node l bs ih =>
      suffices hall : ∀ ds, (∀ d ∈ ds, d ∈ bs) → ∀ t, Everywhere G.key Q t →
          Everywhere G.key Q (G.graftAll ds t) from hall bs (fun d hd => hd) t ht
      intro ds
      induction ds with
      | nil => exact fun _ t ht => ht
      | cons b ds ihds =>
          intro hds t ht
          have hmem := hds b List.mem_cons_self
          have hsource := hb b hmem
          have hbelow {d : RoseTree α} (hd : Everywhere G.key Q d) :
              Everywhere G.key Q (G.graft b d) := ih b hmem (fun _ hc => hsource.child hc) hd
          rw [graftAll_cons]
          apply ihds fun d hd => hds d (List.mem_cons_of_mem b hd)
          cases hkey : G.key b.label with
          | none => rwa [graftOne_of_keyless hkey]
          | some k =>
              cases hi : childIdx? G.key k t.children with
              | some i =>
                  obtain ⟨c, hc, -, -⟩ := RoseTree.childIdx?_eq_some.mp hi
                  have hchild := ht.child (List.mem_of_getElem? hc)
                  have hwritten : Everywhere G.key Q (relabel (G.write b.label) c) := by
                    rcases c with ⟨d, cs⟩
                    rw [RoseTree.everywhere_node] at hchild
                    exact RoseTree.everywhere_node.mpr
                      ⟨hover _ _ _ hsource.self hchild.1, hchild.2⟩
                  have hone := ht.modify (p := [i]) (s := c)
                    (f := fun d => G.graft b (relabel (G.write b.label) d)) (by simp [hc])
                    (by rw [hG.key_graft, RoseTree.label_relabel, hG.key_write]) (hbelow hwritten)
                  rw [graftOne_of_some hkey hi]
                  simpa using hone
              | none =>
                  have hleaf : Everywhere G.key Q (.node (G.copy b.label) []) :=
                    RoseTree.everywhere_node.mpr ⟨hnew _ hsource.self, by simp⟩
                  have hfree : some k ∉ t.children.map fun c => G.key c.label := by
                    intro hk
                    obtain ⟨c, hc, hck⟩ := List.mem_map.mp hk
                    exact RoseTree.childIdx?_eq_none.mp hi c hc hck
                  rw [graftOne_of_none hkey hi]
                  apply ht.addChild (hbelow hleaf)
                  rw [hG.key_graft, RoseTree.label_node, hG.key_copy, hkey]
                  exact hadd _ _ _ k hsource.self hkey ht.self hfree

/-- Whatever is grafted, siblings that differ go on doing so. -/
theorem KeepsKeys.distinct_graft (hG : G.KeepsKeys) (b : RoseTree α) {t : RoseTree α}
    (h : G.Distinct t) : G.Distinct (G.graft b t) := by
  refine hG.everywhere_graft (P := fun _ => True) (fun _ _ _ _ hd => hd) ?_
    (fun _ _ => List.nodup_nil) (fun _ _ _ _ _ => trivial) h
  intro _ _ keys k _ _ hkeys hnew
  exact List.nodup_append.mpr ⟨hkeys, List.nodup_singleton _, fun a ha b hb => by
    rintro rfl
    exact hnew (List.mem_singleton.mp hb ▸ ha)⟩

/-- One sibling grafted first onto the tree in the middle. -/
theorem Lawful.graft_graftOne (hG : G.Lawful)
    (hbelow : ∀ a, G.Distinct a → ∀ t, G.graft (G.graft b a) t = G.graft b (G.graft a t))
    (ha : G.Distinct a) (t : RoseTree α) :
    G.graft (G.graftAll [b] a) t = G.graftAll [b] (G.graft a t) := by
  rcases a with ⟨l, as⟩
  cases hb : G.key b.label with
  | none => rw [graftOne_of_keyless hb, graftOne_of_keyless hb]
  | some k =>
      cases hi : childIdx? G.key k as with
      | some i =>
          obtain ⟨c, hc, hkey, -⟩ := RoseTree.childIdx?_eq_some.mp hi
          rcases List.exists_of_modify (fun d => G.graft b (relabel (G.write b.label) d))
            (List.getElem?_eq_some_iff.mp hc).1 with ⟨pre, d, post, rfl, rfl, hmodify⟩
          obtain rfl : d = c := by simpa using hc
          obtain ⟨j, hj⟩ := hG.exists_childIdx?_graftOne hkey (G.graftAll pre t)
          have hdistinct : G.Distinct d := ha.child (by simp)
          rw [graftOne_of_some (t := .node l (pre ++ d :: post)) hb hi, graft_eq, graft_eq,
            RoseTree.children_node, RoseTree.children_node, hmodify, graftAll_append,
            graftAll_cons, hG.graftOne_write hkey hb (hbelow d hdistinct), graftAll_append,
            graftAll_cons d post, hG.graftOne_graftAll_comm hb hj (ha.key_ne hkey).2]
      | none =>
          have hleaf : G.Distinct (.node (G.copy b.label) []) :=
            RoseTree.everywhere_node.mpr ⟨List.nodup_nil, by simp⟩
          rw [graftOne_of_none (t := .node l as) hb hi, graft_eq, graft_eq (.node l as),
            RoseTree.children_addChild, graftAll_append, RoseTree.children_node]
          exact hG.graftOne_copy hb (fun d => hbelow _ hleaf d) _

/-- **Grafting is associative**, where the siblings of the tree in the middle differ. -/
theorem Lawful.graft_graft (hG : G.Lawful) (b : RoseTree α) {a : RoseTree α}
    (ha : G.Distinct a) (t : RoseTree α) :
    G.graft (G.graft b a) t = G.graft b (G.graft a t) := by
  induction b generalizing a t with
  | node l bs ih =>
      -- one sibling after the other, onto a tree whose siblings still differ
      suffices hall : ∀ ds, (∀ d ∈ ds, d ∈ bs) → ∀ a, G.Distinct a → ∀ t,
          G.graft (G.graftAll ds a) t = G.graftAll ds (G.graft a t) from
        hall bs (fun d hd => hd) a ha t
      intro ds
      induction ds with
      | nil => exact fun _ a _ t => rfl
      | cons b ds ihds =>
          intro hds a ha t
          have hb := hds b List.mem_cons_self
          have hone : G.Distinct (G.graftAll [b] a) := hG.distinct_graft (.node l [b]) ha
          rw [graftAll_cons, ihds (fun d hd => hds d (List.mem_cons_of_mem b hd)) _ hone,
            graftAll_cons b ds, hG.graft_graftOne (fun a ha t => ih b hb ha t) ha t]

/-- One sibling grafted twice. -/
theorem Lawful.graftOne_idem (hG : G.Lawful)
    (hbelow : ∀ t, G.graft c (G.graft c t) = G.graft c t) (t : RoseTree α) :
    G.graftAll [c] (G.graftAll [c] t) = G.graftAll [c] t := by
  have htwice (d : RoseTree α) : G.graft c (relabel (G.write c.label) (G.graft c d)) =
      G.graft c (relabel (G.write c.label) d) := by
    rw [← graft_relabel_target (hG.write_bump _), hbelow]
  cases hkey : G.key c.label with
  | none => rw [graftOne_of_keyless hkey, graftOne_of_keyless hkey]
  | some k =>
      cases hi : childIdx? G.key k t.children with
      | some i =>
          have hi' : childIdx? G.key k (G.graftAll [c] t).children = some i := by
            rw [hG.childIdx?_graftOne hkey hi, hi]
          rw [graftOne_of_some hkey hi', graftOne_of_some hkey hi]
          simp only [RoseTree.label_node, RoseTree.children_node, List.modify_modify_eq]
          congr 2
          funext d
          simp only [Function.comp_apply]
          rw [htwice, relabel_relabel]
          simp only [hG.write_self]
      | none =>
          have hi' : childIdx? G.key k (G.graftAll [c] t).children = some t.children.length := by
            rw [graftOne_of_none hkey hi, RoseTree.children_addChild,
              RoseTree.childIdx?_append_singleton, hi, hG.key_graft, RoseTree.label_node,
              hG.key_copy, hkey]
            simp
          have hlast := @RoseTree.modify_addChild_last _ G.bump
            (fun d => G.graft c (relabel (G.write c.label) d))
            (G.graft c (.node (G.copy c.label) [])) t
          rw [htwice] at hlast
          rw [graftOne_of_some hkey hi', graftOne_of_none hkey hi]
          simpa [relabel, hG.write_own_copy] using hlast

/-- A tree whose siblings differ grafts the same when it is grafted again. -/
theorem Lawful.graft_idem_of_distinct (hG : G.Lawful) (hc : G.Distinct c) (t : RoseTree α) :
    G.graft c (G.graft c t) = G.graft c t := by
  induction c generalizing t with
  | node l cs ih =>
      suffices hall : ∀ ds, (∀ d ∈ ds, d ∈ cs) → (ds.map fun d => G.key d.label).Nodup →
          ∀ t, G.graftAll ds (G.graftAll ds t) = G.graftAll ds t from
        hall cs (fun d hd => hd) hc.self t
      intro ds
      induction ds with
      | nil => exact fun _ _ t => rfl
      | cons d ds ihds =>
          intro hds hnodup t
          rw [List.map_cons, List.nodup_cons] at hnodup
          have hmem := hds d List.mem_cons_self
          have hone := hG.graftOne_idem (ih d hmem (hc.child hmem)) t
          have hrest := ihds (fun e he => hds e (List.mem_cons_of_mem d he)) hnodup.2
          -- the first one is grafted again before the others are
          have hcomm : G.graftAll [d] (G.graftAll ds (G.graftAll [d] t)) =
              G.graftAll ds (G.graftAll [d] (G.graftAll [d] t)) := by
            cases hkey : G.key d.label with
            | none => simp only [graftOne_of_keyless hkey]
            | some k =>
                obtain ⟨i, hi⟩ := hG.exists_childIdx?_graftOne hkey t
                refine hG.graftOne_graftAll_comm hkey hi fun e he hek => hnodup.1 ?_
                exact List.mem_map.mpr ⟨e, he, by rw [hek, hkey]⟩
          rw [graftAll_cons d ds t, graftAll_cons, hcomm, hone, hrest]

/-- What a list of trees grafts, the tree that the list makes of a bare node grafts. -/
theorem Lawful.graft_foldl (hG : G.Lawful) (l : α) (bs : List (RoseTree α)) (t : RoseTree α) :
    G.graft (bs.foldl (fun t b => G.graft b t) (.node l [])) t =
      bs.foldl (fun t b => G.graft b t) t := by
  have hleaf : G.Distinct (.node l []) :=
    RoseTree.everywhere_node.mpr ⟨List.nodup_nil, by simp⟩
  suffices hall : ∀ a, G.Distinct a → G.graft (bs.foldl (fun t b => G.graft b t) a) t =
      bs.foldl (fun t b => G.graft b t) (G.graft a t) from hall _ hleaf
  induction bs with
  | nil => exact fun _ _ => rfl
  | cons b bs ih =>
      intro a ha
      rw [List.foldl_cons, List.foldl_cons, ih _ (hG.distinct_graft b ha), hG.graft_graft b ha]

/-- **Grafting is idempotent**, for any list of trees. -/
theorem Lawful.foldl_graft_idem (hG : G.Lawful) (bs : List (RoseTree α)) (t : RoseTree α) :
    bs.foldl (fun t b => G.graft b t) (bs.foldl (fun t b => G.graft b t) t) =
      bs.foldl (fun t b => G.graft b t) t := by
  have hdistinct : G.Distinct (bs.foldl (fun t b => G.graft b t) (.node t.label [])) := by
    refine List.foldlRecOn bs _ (RoseTree.everywhere_node.mpr ⟨List.nodup_nil, by simp⟩) ?_
    exact fun a ha b _ => hG.distinct_graft b ha
  have hall := hG.graft_foldl t.label bs
  rw [← hall (bs.foldl _ t), ← hall t, hG.graft_idem_of_distinct hdistinct]

end Lawful

/-! ## One entry after the other -/

section Entries

variable (G)

mutual

/-- The nodes below the top in preorder, each as the keys on the way to it and its
label. -/
def entries : RoseTree α → List (List κ × α)
  | .node _ cs => entriesAll cs

/-- The same for siblings. -/
def entriesAll : List (RoseTree α) → List (List κ × α)
  | [] => []
  | c :: cs =>
      ((G.key c.label).elim [] fun k =>
        ([k], c.label) :: (entries c).map fun e => (k :: e.1, e.2)) ++ entriesAll cs

end

variable (blank : κ → α)

/-- Put one entry into a tree: over the node that its keys lead to, or as a new one
below blank nodes. -/
def put (t : RoseTree α) (e : List κ × α) : RoseTree α :=
  match RoseTree.resolve G.key t e.1 with
  | some p => t.modify (relabel (G.write e.2)) p
  | none => RoseTree.grow G.key blank G.bump (.node (G.copy e.2) []) t e.1

variable {G blank}

omit [DecidableEq κ] in
theorem entriesAll_append (cs ds : List (RoseTree α)) :
    G.entriesAll (cs ++ ds) = G.entriesAll cs ++ G.entriesAll ds := by
  induction cs with
  | nil => rfl
  | cons c cs ih => rw [List.cons_append, entriesAll, entriesAll, ih, List.append_assoc]

omit [DecidableEq κ] in
theorem entriesOne (hkey : G.key c.label = some k) :
    G.entriesAll [c] =
      ([k], c.label) :: (G.entriesAll c.children).map fun e => (k :: e.1, e.2) := by
  rcases c with ⟨l, cs⟩
  rw [RoseTree.label_node] at hkey
  simp [entriesAll, entries, hkey]

omit [DecidableEq κ] in
/-- The entry at a position, where the way there has keys. -/
def entryAt (G : Grafting α κ) (t : RoseTree α) (p : List ℕ) : Option (List κ × α) :=
  (RoseTree.keysAt G.key t p).bind fun ks => (t.sub? p).map fun s => (ks, s.label)

omit [DecidableEq κ] in
theorem entryAt_cons (t : RoseTree α) (i : ℕ) (p : List ℕ) :
    G.entryAt t (i :: p) =
      t.children[i]?.bind fun c => (G.key c.label).bind fun k =>
        (G.entryAt c p).map fun e => (k :: e.1, e.2) := by
  simp only [entryAt, RoseTree.keysAt_cons, RoseTree.sub?_cons]
  cases t.children[i]? with
  | none => rfl
  | some c =>
      cases hkey : G.key c.label with
      | none => simp [hkey]
      | some k =>
          cases hks : RoseTree.keysAt G.key c p <;> cases hs : c.sub? p <;> simp [hkey, hks, hs]

omit [DecidableEq κ] in
/-- The entries are those at the positions below the top. -/
theorem entriesAll_children (t : RoseTree α) :
    G.entriesAll t.children = t.descendants.filterMap (G.entryAt t) := by
  induction t with
  | node l cs ih =>
      suffices hall : ∀ ds pre, cs = pre ++ ds →
          G.entriesAll ds =
            (RoseTree.positionsFrom pre.length ds).filterMap (G.entryAt (.node l cs)) from
        hall cs [] rfl
      intro ds
      induction ds with
      | nil => exact fun _ _ => rfl
      | cons d ds ihds =>
          intro pre hsplit
          have hrest := ihds (pre ++ [d]) (by simp [hsplit])
          have hd : (RoseTree.node l cs).children[pre.length]? = some d := by simp [hsplit]
          have hone : G.entriesAll [d] =
              (d.positions.map (pre.length :: ·)).filterMap (G.entryAt (.node l cs)) := by
            rw [List.filterMap_map]
            simp only [Function.comp_def, entryAt_cons, hd, Option.bind_some]
            cases hkey : G.key d.label with
            | none => simp [entriesAll, hkey]
            | some k =>
                rw [entriesOne hkey, RoseTree.positions_eq, ih d (by simp [hsplit])]
                simp [entryAt, List.map_filterMap]
          rw [← List.singleton_append, entriesAll_append, hone, hrest, List.singleton_append,
            RoseTree.positionsFrom, List.filterMap_append, List.length_append,
            List.length_singleton]

theorem put_nil (t : RoseTree α) (l : α) : G.put blank t ([], l) = relabel (G.write l) t := by
  simp [put]

/-- An entry whose first key leads to a child is put into that child. -/
theorem put_cons_of_some (h : childIdx? G.key k t.children = some i) (ks : List κ) (l : α) :
    G.put blank t (k :: ks, l) =
      .node t.label (t.children.modify i fun d => G.put blank d (ks, l)) := by
  obtain ⟨d, hd, -, -⟩ := RoseTree.childIdx?_eq_some.mp h
  have hat (f g : RoseTree α → RoseTree α) (hfg : f d = g d) :
      RoseTree.node t.label (t.children.modify i f) = .node t.label (t.children.modify i g) := by
    simpa using RoseTree.modify_congr (p := [i]) (s := d) (by simp [hd]) hfg
  rw [put, RoseTree.resolve_cons, h]
  cases hp : RoseTree.resolve G.key d ks with
  | some p =>
      simp only [Option.bind_some, hd, hp, Option.map_some, RoseTree.modify_cons]
      exact hat _ _ (by simp [put, hp])
  | none =>
      simp only [Option.bind_some, hd, hp, Option.map_none, RoseTree.grow_cons_of_some h]
      exact hat _ _ (by simp [put, hp])

/-- Where nothing has the key, a new child is appended. -/
theorem put_singleton_of_none (h : childIdx? G.key k t.children = none) (l : α) :
    G.put blank t ([k], l) = addChild G.bump (.node (G.copy l) []) t := by
  rw [put, RoseTree.resolve_cons, h, Option.bind_none]
  exact RoseTree.grow_cons_of_none h

theorem KeepsKeys.key_put (hG : G.KeepsKeys) (t : RoseTree α) (e : List κ × α) :
    G.key (G.put blank t e).label = G.key t.label := by
  rw [put]
  cases hp : RoseTree.resolve G.key t e.1 with
  | some p =>
      obtain ⟨s, hs⟩ := RoseTree.exists_sub?_of_resolve hp
      exact RoseTree.key_modify hs (by rw [RoseTree.label_relabel, hG.key_write])
  | none => exact RoseTree.key_grow hG.key_bump _ _ _

/-- Entries that all begin with the key of a child are put into that child. -/
theorem KeepsKeys.foldl_put_cons (hG : G.KeepsKeys) (h : childIdx? G.key k t.children = some i)
    (es : List (List κ × α)) :
    (es.map fun e => (k :: e.1, e.2)).foldl (G.put blank) t =
      .node t.label (t.children.modify i fun d => es.foldl (G.put blank) d) := by
  induction es generalizing t with
  | nil =>
      have hsame : t.children.modify i (fun d => d) = t.children := List.modify_id i _
      simp [hsame]
  | cons e es ih =>
      obtain ⟨d, hd, -, -⟩ := RoseTree.childIdx?_eq_some.mp h
      rw [List.map_cons, List.foldl_cons, put_cons_of_some h, ih]
      · simp [List.modify_modify_eq, Function.comp_def]
      · rw [RoseTree.children_node, RoseTree.childIdx?_modify hd (hG.key_put d (e.1, e.2)), h]

/-- One tree among siblings, when what is below it is put and grafted alike. -/
theorem KeepsKeys.foldl_put_one (hG : G.KeepsKeys)
    (hbelow : ∀ d, (G.entriesAll c.children).foldl (G.put blank) d = G.graft c d)
    (t : RoseTree α) : (G.entriesAll [c]).foldl (G.put blank) t = G.graftAll [c] t := by
  cases hkey : G.key c.label with
  | none => simp [entriesAll, hkey, graftOne_of_keyless hkey]
  | some k =>
      rw [entriesOne hkey, List.foldl_cons]
      cases hi : childIdx? G.key k t.children with
      | some i =>
          obtain ⟨d, hd, -, -⟩ := RoseTree.childIdx?_eq_some.mp hi
          have hi' : childIdx? G.key k (G.put blank t ([k], c.label)).children = some i := by
            rw [put_cons_of_some hi, RoseTree.children_node,
              RoseTree.childIdx?_modify hd (hG.key_put d ([], c.label)), hi]
          rw [hG.foldl_put_cons hi', put_cons_of_some hi, graftOne_of_some hkey hi]
          simp [List.modify_modify_eq, Function.comp_def, put_nil, hbelow]
      | none =>
          have hi' : childIdx? G.key k (addChild G.bump (.node (G.copy c.label) []) t).children =
              some t.children.length := by
            rw [RoseTree.children_addChild, RoseTree.childIdx?_append_singleton, hi,
              RoseTree.label_node, hG.key_copy, hkey]
            simp
          have hlast := @RoseTree.modify_addChild_last _ G.bump
            (fun d => (G.entriesAll c.children).foldl (G.put blank) d)
            (.node (G.copy c.label) []) t
          rw [put_singleton_of_none hi, hG.foldl_put_cons hi', graftOne_of_none hkey hi, ← hbelow,
            ← hlast]
          simp

theorem KeepsKeys.foldl_put_all (hG : G.KeepsKeys)
    (hbelow : ∀ c ∈ cs, ∀ d, (G.entriesAll c.children).foldl (G.put blank) d = G.graft c d)
    (t : RoseTree α) : (G.entriesAll cs).foldl (G.put blank) t = G.graftAll cs t := by
  induction cs generalizing t with
  | nil => rfl
  | cons c cs ih =>
      have hone := hG.foldl_put_one (hbelow c List.mem_cons_self) t
      rw [← List.singleton_append, entriesAll_append, List.foldl_append, hone, graftAll_append]
      exact ih (fun d hd => hbelow d (List.mem_cons_of_mem c hd)) _

/-- **Grafting is putting the entries**, one after the other. -/
theorem KeepsKeys.foldl_put_entries (hG : G.KeepsKeys) (c t : RoseTree α) :
    (G.entriesAll c.children).foldl (G.put blank) t = G.graft c t := by
  induction c generalizing t with
  | node l cs ih => exact hG.foldl_put_all ih t

end Entries

end Grafting

end Foundation
