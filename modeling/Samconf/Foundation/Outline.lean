/-
# The outline of a tree

The outline says of every position the label there and the number of children. It is all
that a representation of the tree node by node has to agree with. Adding a leaf below one
node shows in the outline at that node and at the leaf, and nowhere else.
-/

import Samconf.Foundation.KeyPath

namespace Foundation.RoseTree

universe u

variable {α : Type u}

/-- The label at a position and the number of children. -/
def outline (t : RoseTree α) (p : List ℕ) : Option (α × ℕ) :=
  (t.sub? p).map fun s => (s.label, s.children.length)

theorem outline_of_sub? {t s : RoseTree α} {p : List ℕ} (h : t.sub? p = some s) :
    t.outline p = some (s.label, s.children.length) := by
  rw [outline, h, Option.map_some]

theorem outline_ne_none {t : RoseTree α} {p : List ℕ} :
    t.outline p ≠ none ↔ ∃ s, t.sub? p = some s := by
  rw [outline, ne_eq, Option.map_eq_none_iff, ← ne_eq, Option.ne_none_iff_exists']

@[simp]
theorem outline_nil (t : RoseTree α) : t.outline [] = some (t.label, t.children.length) := by
  simp [outline]

theorem outline_cons (t : RoseTree α) (i : ℕ) (p : List ℕ) :
    t.outline (i :: p) = t.children[i]?.bind fun c => c.outline p := by
  rw [outline, sub?_cons]
  cases t.children[i]? <;> rfl

/-- A position below another is there only when the other is. -/
theorem outline_append_of_none {t : RoseTree α} {p : List ℕ} (h : t.outline p = none)
    (q : List ℕ) : t.outline (p ++ q) = none := by
  have hsub : t.sub? p = none := by simpa [outline] using h
  rw [outline, sub?_append, hsub]
  rfl

/-- The children of a node are at the indices below their number. -/
theorem outline_child_ne_none {t s : RoseTree α} {p : List ℕ} (h : t.sub? p = some s) (i : ℕ) :
    t.outline (p ++ [i]) ≠ none ↔ i < s.children.length := by
  rw [outline_ne_none, sub?_append, h, Option.bind_some]
  simp only [sub?_cons, sub?_nil, Option.bind_fun_some]
  rw [← Option.ne_none_iff_exists', ne_eq, List.getElem?_eq_none_iff, Nat.not_le]

/-- The outline with one more leaf. -/
theorem outline_modify_addChild {bump : α → α} {t s leaf : RoseTree α} {q : List ℕ}
    (hs : t.sub? q = some s) (hleaf : leaf.children = []) (p : List ℕ) :
    (t.modify (addChild bump leaf) q).outline p =
      if p = q then some (bump s.label, s.children.length + 1)
      else if p = q ++ [s.children.length] then some (leaf.label, 0)
      else t.outline p := by
  induction q generalizing t p with
  | nil =>
      obtain rfl : t = s := by simpa using hs
      cases p with
      | nil => simp
      | cons i p =>
          rw [modify_nil, outline_cons, outline_cons, children_addChild]
          rcases Nat.lt_trichotomy i t.children.length with hlt | rfl | hgt
          · simp [List.getElem?_append_left hlt, Nat.ne_of_lt hlt]
          · cases p with
            | nil => simp [hleaf]
            | cons j p => simp [outline_cons, hleaf]
          · have hout : (t.children ++ [leaf])[i]? = none :=
              List.getElem?_eq_none (by simpa using Nat.succ_le_of_lt hgt)
            simp [hout, List.getElem?_eq_none (Nat.le_of_lt hgt), Nat.ne_of_gt hgt]
  | cons j q ih =>
      rw [sub?_cons] at hs
      obtain ⟨c, hc, hbelow⟩ := Option.bind_eq_some_iff.mp hs
      cases p with
      | nil => simp
      | cons i p =>
          rw [modify_cons, outline_cons, outline_cons, children_node]
          by_cases hij : i = j
          · subst hij
            simp [hc, ih hbelow]
          · simp [hij, Ne.symm hij]

/-- What a position holds after a leaf was added: the node above the leaf, the leaf, or
what it held before. -/
theorem outline_modify_addChild_eq_some {bump : α → α} {t s leaf : RoseTree α} {q p : List ℕ}
    (hs : t.sub? q = some s) (hleaf : leaf.children = []) {l : α} {n : ℕ}
    (h : (t.modify (addChild bump leaf) q).outline p = some (l, n)) :
    (p = q ∧ l = bump s.label ∧ n = s.children.length + 1) ∨
    (p = q ++ [s.children.length] ∧ l = leaf.label ∧ n = 0) ∨
    (p ≠ q ∧ p ≠ q ++ [s.children.length] ∧ t.outline p = some (l, n)) := by
  rw [outline_modify_addChild hs hleaf] at h
  by_cases hq : p = q
  · rw [if_pos hq] at h
    cases h
    exact .inl ⟨hq, rfl, rfl⟩
  · rw [if_neg hq] at h
    by_cases hnew : p = q ++ [s.children.length]
    · rw [if_pos hnew] at h
      cases h
      exact .inr (.inl ⟨hnew, rfl, rfl⟩)
    · rw [if_neg hnew] at h
      exact .inr (.inr ⟨hq, hnew, h⟩)

/-- The leaf is the one new position. -/
theorem outline_modify_addChild_ne_none {bump : α → α} {t s leaf : RoseTree α} {q : List ℕ}
    (hs : t.sub? q = some s) (hleaf : leaf.children = []) (p : List ℕ) :
    (t.modify (addChild bump leaf) q).outline p ≠ none ↔
      p = q ++ [s.children.length] ∨ t.outline p ≠ none := by
  rw [outline_modify_addChild hs hleaf]
  by_cases hq : p = q
  · subst hq
    simp [outline_of_sub? hs]
  · by_cases hnew : p = q ++ [s.children.length]
    · simp [hnew]
    · simp [hq, hnew]

/-- The outline with another label at one node. -/
theorem outline_modify_relabel {g : α → α} {t s : RoseTree α} {q : List ℕ}
    (hs : t.sub? q = some s) (p : List ℕ) :
    (t.modify (relabel g) q).outline p =
      if p = q then some (g s.label, s.children.length) else t.outline p := by
  induction q generalizing t p with
  | nil =>
      obtain rfl : t = s := by simpa using hs
      cases p with
      | nil => simp
      | cons i p => simp [outline_cons]
  | cons j q ih =>
      rw [sub?_cons] at hs
      obtain ⟨c, hc, hbelow⟩ := Option.bind_eq_some_iff.mp hs
      cases p with
      | nil => simp
      | cons i p =>
          rw [modify_cons, outline_cons, outline_cons, children_node]
          by_cases hij : i = j
          · subst hij
            simp [hc, ih hbelow]
          · simp [hij, Ne.symm hij]

theorem outline_modify_relabel_ne_none {g : α → α} {t s : RoseTree α} {q : List ℕ}
    (hs : t.sub? q = some s) (p : List ℕ) :
    (t.modify (relabel g) q).outline p ≠ none ↔ t.outline p ≠ none := by
  rw [outline_modify_relabel hs]
  by_cases hpq : p = q
  · simp [hpq, outline_of_sub? hs]
  · rw [if_neg hpq]

/-- The outline without the children of one node. -/
theorem outline_modify_childless {t s : RoseTree α} {q : List ℕ} (hs : t.sub? q = some s)
    (p : List ℕ) :
    (t.modify (fun _ => node s.label []) q).outline p =
      if p = q then some (s.label, 0) else if q <+: p then none else t.outline p := by
  induction q generalizing t p with
  | nil =>
      obtain rfl : t = s := by simpa using hs
      cases p with
      | nil => simp
      | cons i p => simp [outline_cons]
  | cons j q ih =>
      rw [sub?_cons] at hs
      obtain ⟨c, hc, hbelow⟩ := Option.bind_eq_some_iff.mp hs
      cases p with
      | nil => simp
      | cons i p =>
          rw [modify_cons, outline_cons, outline_cons, children_node]
          by_cases hij : i = j
          · subst hij
            simp [hc, ih hbelow]
          · simp [hij, Ne.symm hij]

theorem outline_ne_none_of_childless {t s : RoseTree α} {q p : List ℕ} (hs : t.sub? q = some s)
    (h : (t.modify (fun _ => node s.label []) q).outline p ≠ none) : t.outline p ≠ none := by
  rw [outline_modify_childless hs] at h
  by_cases hpq : p = q
  · simp [hpq, outline_of_sub? hs]
  · rw [if_neg hpq] at h
    by_cases hbelow : q <+: p
    · exact absurd (if_pos hbelow) h
    · rwa [if_neg hbelow] at h

end Foundation.RoseTree
