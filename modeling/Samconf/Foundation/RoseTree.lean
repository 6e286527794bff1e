/-
# Ordered labelled trees

A rose tree carries a label at every node and an ordered list of children. A
node is addressed by its position, the list of child indices that leads to it
from the top. Reading and rewriting at a position are recursive in the position
alone, so they reduce on concrete trees and need no measure.

The preorder of a tree is the list of its positions, a node before its children
and the children from left to right. Its one structural fact is that a position
never has a later one as a prefix; distinctness of positions follows from it.
-/

import Mathlib.Data.List.Basic
import Mathlib.Data.List.Forall2
import Mathlib.Data.List.Nodup
import Mathlib.Data.List.Infix

namespace Foundation

universe u v

/-- A label and an ordered list of subtrees. -/
inductive RoseTree (α : Type u) where
  | node (label : α) (children : List (RoseTree α))

namespace RoseTree

variable {α : Type u} {κ : Type v}

/-- The label at the top. -/
def label : RoseTree α → α
  | node l _ => l

/-- The subtrees directly below the top. -/
def children : RoseTree α → List (RoseTree α)
  | node _ cs => cs

@[simp]
theorem label_node (l : α) (cs : List (RoseTree α)) : (node l cs).label = l := rfl

@[simp]
theorem children_node (l : α) (cs : List (RoseTree α)) : (node l cs).children = cs := rfl

@[simp]
theorem node_eta (t : RoseTree α) : node t.label t.children = t := by
  cases t
  rfl

/-- Induction with one hypothesis for every child, instead of the generated
recursor's separate motive for lists. -/
@[elab_as_elim, induction_eliminator]
theorem induct {motive : RoseTree α → Prop}
    (node : ∀ l cs, (∀ c ∈ cs, motive c) → motive (.node l cs)) : ∀ t, motive t
  | .node l cs => node l cs fun c _ => induct node c

/-! ## Positions -/

/-- The subtree at a position. -/
def sub? : RoseTree α → List ℕ → Option (RoseTree α)
  | t, [] => some t
  | node _ cs, i :: p => cs[i]?.bind fun c => sub? c p

/-- Rewrite the subtree at a position; nothing changes where there is none. -/
def modify (f : RoseTree α → RoseTree α) : RoseTree α → List ℕ → RoseTree α
  | t, [] => f t
  | node l cs, i :: p => node l (cs.modify i fun c => modify f c p)

@[simp]
theorem sub?_nil (t : RoseTree α) : t.sub? [] = some t := by
  cases t
  rfl

@[simp]
theorem sub?_cons (t : RoseTree α) (i : ℕ) (p : List ℕ) :
    t.sub? (i :: p) = t.children[i]?.bind fun c => c.sub? p := by
  cases t
  rfl

@[simp]
theorem modify_nil (f : RoseTree α → RoseTree α) (t : RoseTree α) :
    t.modify f [] = f t := by
  cases t
  rfl

@[simp]
theorem modify_cons (f : RoseTree α → RoseTree α) (t : RoseTree α) (i : ℕ) (p : List ℕ) :
    t.modify f (i :: p) = node t.label (t.children.modify i fun c => c.modify f p) := by
  cases t
  rfl

theorem sub?_append (t : RoseTree α) (p q : List ℕ) :
    t.sub? (p ++ q) = (t.sub? p).bind fun s => s.sub? q := by
  induction p generalizing t with
  | nil => simp
  | cons i p ih =>
      simp only [List.cons_append, sub?_cons]
      cases t.children[i]? with
      | none => rfl
      | some c => exact ih c

theorem sub?_modify_self {t s : RoseTree α} {p : List ℕ} (f : RoseTree α → RoseTree α)
    (h : t.sub? p = some s) : (t.modify f p).sub? p = some (f s) := by
  induction p generalizing t with
  | nil =>
      obtain rfl : t = s := by simpa using h
      simp
  | cons i p ih =>
      rw [sub?_cons] at h
      obtain ⟨c, hc, hs⟩ := Option.bind_eq_some_iff.mp h
      simp [hc, ih hs]

theorem modify_append (f : RoseTree α → RoseTree α) (t : RoseTree α) (p q : List ℕ) :
    t.modify f (p ++ q) = t.modify (fun s => s.modify f q) p := by
  induction p generalizing t with
  | nil => simp
  | cons i p ih => simp [ih]

@[simp]
theorem modify_id (t : RoseTree α) (p : List ℕ) : t.modify (fun s => s) p = t := by
  induction p generalizing t with
  | nil => simp
  | cons i p ih =>
      have hsame : t.children.modify i (fun c => c) = t.children := List.modify_id i t.children
      simp [ih, hsame]

/-- Two rewrites at one position are one rewrite by the composition. -/
theorem modify_modify (f g : RoseTree α → RoseTree α) (t : RoseTree α) (p : List ℕ) :
    (t.modify f p).modify g p = t.modify (fun s => g (f s)) p := by
  induction p generalizing t with
  | nil => simp
  | cons i p ih =>
      simp only [modify_cons, label_node, children_node, List.modify_modify_eq]
      congr 2
      funext c
      exact ih c

/-- Only the function's value at the addressed subtree matters. -/
theorem modify_congr {f g : RoseTree α → RoseTree α} {t s : RoseTree α} {p : List ℕ}
    (h : t.sub? p = some s) (heq : f s = g s) : t.modify f p = t.modify g p := by
  induction p generalizing t with
  | nil =>
      obtain rfl : t = s := by simpa using h
      simpa using heq
  | cons i p ih =>
      rw [sub?_cons] at h
      obtain ⟨c, hc, hs⟩ := Option.bind_eq_some_iff.mp h
      simp only [modify_cons, node.injEq, true_and]
      apply List.ext_getElem?
      intro j
      rw [List.getElem?_modify, List.getElem?_modify]
      by_cases hij : i = j
      · subst hij
        simp [hc, ih hs]
      · simp [hij]

/-! ## Properties of every node -/

/-- `Everywhere key Q t`: at every node `Q` holds of the label and of the keys
of the children, in their order. Facts of this kind survive a rewrite below as
long as it keeps the key of the node it rewrites. -/
def Everywhere (key : α → κ) (Q : α → List κ → Prop) (t : RoseTree α) : Prop :=
  ∀ p s, t.sub? p = some s → Q s.label (s.children.map fun c => key c.label)

variable {key : α → κ} {Q R : α → List κ → Prop}

theorem everywhere_node {l : α} {cs : List (RoseTree α)} :
    Everywhere key Q (node l cs) ↔
      Q l (cs.map fun c => key c.label) ∧ ∀ c ∈ cs, Everywhere key Q c := by
  constructor
  · intro h
    refine ⟨h [] _ rfl, fun c hc p s hs => ?_⟩
    obtain ⟨i, hi, rfl⟩ := List.getElem_of_mem hc
    exact h (i :: p) s (by simp [hi, hs])
  · rintro ⟨hself, hbelow⟩ p s hs
    cases p with
    | nil =>
        obtain rfl : node l cs = s := by simpa using hs
        exact hself
    | cons i p =>
        rw [sub?_cons] at hs
        obtain ⟨c, hc, hs⟩ := Option.bind_eq_some_iff.mp hs
        exact hbelow c (List.mem_of_getElem? hc) p s hs

theorem Everywhere.self {t : RoseTree α} (h : Everywhere key Q t) :
    Q t.label (t.children.map fun c => key c.label) :=
  h [] t (by simp)

theorem Everywhere.sub {t s : RoseTree α} {p : List ℕ} (h : Everywhere key Q t)
    (hs : t.sub? p = some s) : Everywhere key Q s := by
  intro q r hr
  exact h (p ++ q) r (by rw [sub?_append, hs]; exact hr)

theorem Everywhere.child {t c : RoseTree α} (h : Everywhere key Q t)
    (hc : c ∈ t.children) : Everywhere key Q c := by
  cases t
  exact (everywhere_node.mp h).2 c hc

theorem Everywhere.mono {t : RoseTree α} (h : Everywhere key Q t)
    (himp : ∀ l ks, Q l ks → R l ks) : Everywhere key R t :=
  fun p s hs => himp _ _ (h p s hs)

/-- A rewrite below keeps the top's key when it keeps that of the rewritten node. -/
theorem key_modify {t s : RoseTree α} {p : List ℕ} {f : RoseTree α → RoseTree α}
    (hs : t.sub? p = some s) (hkey : key (f s).label = key s.label) :
    key (t.modify f p).label = key t.label := by
  cases p with
  | nil =>
      obtain rfl : t = s := by simpa using hs
      simpa using hkey
  | cons i p => simp

/-- A rewrite that keeps the key of the rewritten node and establishes the
property below it keeps the property of the whole tree. -/
theorem Everywhere.modify {t s : RoseTree α} {p : List ℕ} {f : RoseTree α → RoseTree α}
    (h : Everywhere key Q t) (hs : t.sub? p = some s)
    (hkey : key (f s).label = key s.label) (hf : Everywhere key Q (f s)) :
    Everywhere key Q (t.modify f p) := by
  induction p generalizing t with
  | nil =>
      obtain rfl : t = s := by simpa using hs
      simpa using hf
  | cons i p ih =>
      rw [sub?_cons] at hs
      obtain ⟨c, hc, hs⟩ := Option.bind_eq_some_iff.mp hs
      have hchild := h.child (List.mem_of_getElem? hc)
      have hlabel := key_modify hs hkey
      rw [modify_cons, everywhere_node]
      constructor
      · have hkeys : (t.children.modify i fun c => c.modify f p).map (fun c => key c.label) =
            t.children.map fun c => key c.label := by
          apply List.ext_getElem?
          intro j
          simp only [List.getElem?_map, List.getElem?_modify]
          by_cases hij : i = j
          · subst hij
            simp [hc, hlabel]
          · simp [hij]
        rw [hkeys]
        exact h.self
      · intro d hd
        obtain ⟨j, hj⟩ := List.getElem?_of_mem hd
        rw [List.getElem?_modify] at hj
        by_cases hij : i = j
        · subst hij
          simp only [hc, Option.map_eq_map, Option.map_some, if_true, Option.some.injEq] at hj
          subst hj
          exact ih hchild hs
        · simp only [if_neg hij, Option.map_eq_map, Option.map_id'] at hj
          exact h.child (List.mem_of_getElem? hj)

mutual

/-- The test for `Everywhere`. -/
def everywhereTest (key : α → κ) (q : α → List κ → Bool) : RoseTree α → Bool
  | node l cs => q l (cs.map fun c => key c.label) && everywhereTestAll key q cs

/-- The test for every tree of a list. -/
def everywhereTestAll (key : α → κ) (q : α → List κ → Bool) : List (RoseTree α) → Bool
  | [] => true
  | c :: cs => everywhereTest key q c && everywhereTestAll key q cs

end

theorem everywhereTestAll_iff {q : α → List κ → Bool} {cs : List (RoseTree α)} :
    everywhereTestAll key q cs = true ↔ ∀ c ∈ cs, everywhereTest key q c = true := by
  induction cs with
  | nil => simp [everywhereTestAll]
  | cons c cs ih => simp [everywhereTestAll, ih]

theorem everywhereTest_iff [∀ l ks, Decidable (Q l ks)] {t : RoseTree α} :
    everywhereTest key (fun l ks => decide (Q l ks)) t = true ↔ Everywhere key Q t := by
  induction t with
  | node l cs ih =>
      rw [everywhereTest, Bool.and_eq_true, decide_eq_true_iff, everywhereTestAll_iff,
        everywhere_node]
      exact and_congr_right fun _ => forall₂_congr fun c hc => ih c hc

instance [∀ l ks, Decidable (Q l ks)] (t : RoseTree α) : Decidable (Everywhere key Q t) :=
  decidable_of_iff _ everywhereTest_iff

/-! ## Preorder -/

mutual

/-- All positions, a node before its children. -/
def positions : RoseTree α → List (List ℕ)
  | node _ cs => [] :: positionsFrom 0 cs

/-- The positions inside a list of siblings whose first has index `i`. -/
def positionsFrom : ℕ → List (RoseTree α) → List (List ℕ)
  | _, [] => []
  | i, c :: cs => (positions c).map (i :: ·) ++ positionsFrom (i + 1) cs

end

/-- The positions strictly below the top, in preorder. -/
def descendants (t : RoseTree α) : List (List ℕ) := positionsFrom 0 t.children

theorem positions_eq (t : RoseTree α) : t.positions = [] :: t.descendants := by
  cases t
  rfl

theorem mem_positionsFrom {cs : List (RoseTree α)} {i : ℕ} {p : List ℕ} :
    p ∈ positionsFrom i cs ↔
      ∃ j q c, p = (i + j) :: q ∧ cs[j]? = some c ∧ q ∈ c.positions := by
  induction cs generalizing i with
  | nil => simp [positionsFrom]
  | cons c cs ih =>
      simp only [positionsFrom, List.mem_append, List.mem_map, ih]
      constructor
      · rintro (⟨q, hq, rfl⟩ | ⟨j, q, d, rfl, hd, hq⟩)
        · exact ⟨0, q, c, rfl, rfl, hq⟩
        · exact ⟨j + 1, q, d, by simp only [List.cons.injEq, and_true]; omega, hd, hq⟩
      · rintro ⟨j, q, d, rfl, hd, hq⟩
        cases j with
        | zero =>
            obtain rfl : c = d := by simpa using hd
            exact .inl ⟨q, hq, rfl⟩
        | succ j =>
            exact .inr ⟨j, q, d, by simp only [List.cons.injEq, and_true]; omega, hd, hq⟩

theorem positionsFrom_append (cs ds : List (RoseTree α)) (i : ℕ) :
    positionsFrom i (cs ++ ds) = positionsFrom i cs ++ positionsFrom (i + cs.length) ds := by
  induction cs generalizing i with
  | nil => rfl
  | cons c cs ih =>
      rw [List.cons_append, positionsFrom, positionsFrom, ih, List.append_assoc, List.length_cons,
        Nat.add_right_comm, Nat.add_assoc i]

/-- Two readings of the positions in a list of siblings that agree on every sibling. -/
theorem map_positionsFrom_congr {β : Type*} {f g : List ℕ → β} {cs : List (RoseTree α)} {i j : ℕ}
    (h : ∀ k c q, cs[k]? = some c → f ((i + k) :: q) = g ((j + k) :: q)) :
    (positionsFrom i cs).map f = (positionsFrom j cs).map g := by
  induction cs generalizing i j with
  | nil => rfl
  | cons c cs ih =>
      rw [positionsFrom, positionsFrom, List.map_append, List.map_append, List.map_map,
        List.map_map]
      congr 1
      · exact List.map_congr_left fun q _ => h 0 c q rfl
      · refine ih fun k d q hd => ?_
        rw [Nat.add_assoc, Nat.add_comm 1, Nat.add_assoc, Nat.add_comm 1]
        exact h (k + 1) d q hd

/-- The preorder lists exactly the positions that address a node. -/
theorem mem_positions {t : RoseTree α} {p : List ℕ} :
    p ∈ t.positions ↔ ∃ s, t.sub? p = some s := by
  induction t generalizing p with
  | node l cs ih =>
      rw [positions_eq, List.mem_cons, descendants, children_node, mem_positionsFrom]
      cases p with
      | nil => simp
      | cons i p =>
          simp only [List.cons_ne_nil, List.cons.injEq, false_or, sub?_cons, children_node,
            Option.bind_eq_some_iff]
          constructor
          · rintro ⟨j, q, c, ⟨rfl, rfl⟩, hc, hq⟩
            obtain ⟨s, hs⟩ := (ih c (List.mem_of_getElem? hc)).mp hq
            exact ⟨s, c, by simpa using hc, hs⟩
          · rintro ⟨s, c, hc, hs⟩
            exact ⟨i, p, c, ⟨by omega, rfl⟩, hc, (ih c (List.mem_of_getElem? hc)).mpr ⟨s, hs⟩⟩

theorem mem_descendants {t : RoseTree α} {p : List ℕ} :
    p ∈ t.descendants ↔ p ≠ [] ∧ ∃ s, t.sub? p = some s := by
  have hmem : p ∈ t.positions ↔ p = [] ∨ p ∈ t.descendants := by rw [positions_eq, List.mem_cons]
  rw [mem_positions] at hmem
  constructor
  · intro h
    refine ⟨?_, hmem.mpr (.inr h)⟩
    rintro rfl
    rw [descendants, mem_positionsFrom] at h
    simp at h
  · rintro ⟨hne, hs⟩
    exact (hmem.mp hs).resolve_left hne

/-- **Preorder** is the lexicographic order of the positions. -/
theorem positions_sorted (t : RoseTree α) : t.positions.Pairwise (· < ·) := by
  induction t with
  | node l cs ih =>
      have hfrom : ∀ (ds : List (RoseTree α)) (i : ℕ), (∀ d ∈ ds, d ∈ cs) →
          (positionsFrom i ds).Pairwise (· < ·) := by
        intro ds
        induction ds with
        | nil => exact fun i _ => List.Pairwise.nil
        | cons d ds ihds =>
            intro i hds
            rw [positionsFrom, List.pairwise_append]
            refine ⟨?_, ihds (i + 1) fun e he => hds e (List.mem_cons_of_mem _ he), ?_⟩
            · rw [List.pairwise_map]
              exact (ih d (hds d List.mem_cons_self)).imp fun {p q} hpq =>
                List.cons_lt_cons_iff.mpr (.inr ⟨rfl, hpq⟩)
            · intro p hp q hq
              obtain ⟨p', -, rfl⟩ := List.mem_map.mp hp
              obtain ⟨j, q', c, rfl, -, -⟩ := mem_positionsFrom.mp hq
              exact List.cons_lt_cons_iff.mpr (.inl (by omega))
      rw [positions_eq, List.pairwise_cons]
      refine ⟨fun q hq => ?_, hfrom cs 0 fun d hd => hd⟩
      obtain ⟨i, q, rfl⟩ := List.exists_cons_of_ne_nil (mem_descendants.mp hq).1
      exact List.nil_lt_cons i q

/-- In preorder no later position is a prefix of an earlier one: a node comes
before everything below it. -/
theorem positions_pairwise (t : RoseTree α) :
    t.positions.Pairwise fun p q => ¬ q <+: p :=
  (positions_sorted t).imp fun {_ _} hlt hpre => List.not_lt.mpr (List.IsPrefix.le hpre) hlt

/-- A node comes before the siblings that follow it and everything below them. -/
theorem mem_before_of_sibling {t : RoseTree α} {before after : List (List ℕ)} {p q : List ℕ}
    {i j : ℕ} (hsplit : t.descendants = before ++ (p ++ i :: q) :: after) (hj : j < i)
    (hmem : p ++ [j] ∈ t.descendants) : p ++ [j] ∈ before := by
  have hsorted := positions_sorted t
  rw [positions_eq, List.pairwise_cons, hsplit] at hsorted
  have hlt : p ++ [j] < p ++ i :: q :=
    List.append_left_lt (List.cons_lt_cons_iff.mpr (.inl hj))
  rw [hsplit, List.mem_append, List.mem_cons] at hmem
  rcases hmem with hbefore | heq | hafter
  · exact hbefore
  · rw [heq] at hlt
    exact absurd hlt (List.lt_irrefl _)
  · have hgt := (List.pairwise_cons.mp (List.pairwise_append.mp hsorted.2).2.1).1 _ hafter
    exact absurd (List.lt_trans hlt hgt) (List.lt_irrefl _)

theorem nodup_positions (t : RoseTree α) : t.positions.Nodup :=
  (positions_pairwise t).imp fun {p q} hpq (heq : p = q) => hpq (heq ▸ List.prefix_refl p)

theorem length_le_positionsFrom {c : RoseTree α} {cs : List (RoseTree α)} (hc : c ∈ cs) (i : ℕ) :
    c.positions.length ≤ (positionsFrom i cs).length := by
  induction cs generalizing i with
  | nil => cases hc
  | cons c' cs ih =>
      rw [positionsFrom, List.length_append, List.length_map]
      rcases List.mem_cons.mp hc with rfl | hc
      · exact Nat.le_add_right _ _
      · exact (ih hc (i + 1)).trans (Nat.le_add_left _ _)

/-- A subtree has fewer nodes. -/
theorem length_positions_child {t c : RoseTree α} (hc : c ∈ t.children) :
    c.positions.length < t.positions.length := by
  rw [positions_eq t, List.length_cons]
  exact Nat.lt_succ_of_le (length_le_positionsFrom hc 0)

/-- A tree has more nodes than levels. -/
theorem length_lt_positions {t s : RoseTree α} {p : List ℕ} (hs : t.sub? p = some s) :
    p.length < t.positions.length := by
  induction p generalizing t with
  | nil => simp [positions_eq]
  | cons i p ih =>
      rw [sub?_cons] at hs
      obtain ⟨c, hc, hs⟩ := Option.bind_eq_some_iff.mp hs
      exact lt_of_le_of_lt (ih hs) (length_positions_child (List.mem_of_getElem? hc))

/-! ## Postorder -/

mutual

/-- All positions, a node after its children. -/
def postorder : RoseTree α → List (List ℕ)
  | node _ cs => postorderFrom 0 cs ++ [[]]

/-- The positions inside a list of siblings whose first has index `i`, in postorder. -/
def postorderFrom : ℕ → List (RoseTree α) → List (List ℕ)
  | _, [] => []
  | i, c :: cs => (postorder c).map (i :: ·) ++ postorderFrom (i + 1) cs

end

/-- **Postorder** lists the same positions. -/
theorem postorder_perm (t : RoseTree α) : t.postorder.Perm t.positions := by
  induction t with
  | node l cs ih =>
      have hfrom : ∀ (ds : List (RoseTree α)) (i : ℕ), (∀ d ∈ ds, d ∈ cs) →
          (postorderFrom i ds).Perm (positionsFrom i ds) := by
        intro ds
        induction ds with
        | nil => exact fun _ _ => .refl _
        | cons d ds ihds =>
            intro i hds
            rw [postorderFrom, positionsFrom]
            exact ((ih d (hds d List.mem_cons_self)).map _).append
              (ihds (i + 1) fun e he => hds e (List.mem_cons_of_mem _ he))
      rw [postorder, positions]
      exact (List.perm_append_singleton _ _).trans ((hfrom cs 0 fun d hd => hd).cons [])

theorem mem_postorder {t : RoseTree α} {p : List ℕ} :
    p ∈ t.postorder ↔ ∃ s, t.sub? p = some s := by
  rw [(postorder_perm t).mem_iff, mem_positions]

theorem nodup_postorder (t : RoseTree α) : t.postorder.Nodup :=
  (postorder_perm t).nodup_iff.mpr (nodup_positions t)

/-- How many subtrees a traversal in preorder has ahead when it stands at a position:
those below the node, and those to the right of it and of each node above it. -/
def subtreesAhead : RoseTree α → List ℕ → ℕ
  | node _ cs, [] => cs.length
  | node _ cs, i :: p => (cs[i]?.elim 0 fun c => subtreesAhead c p) + (cs.length - (i + 1))

@[simp]
theorem subtreesAhead_nil (t : RoseTree α) : t.subtreesAhead [] = t.children.length := by
  cases t
  rfl

@[simp]
theorem subtreesAhead_cons (t : RoseTree α) (i : ℕ) (p : List ℕ) :
    t.subtreesAhead (i :: p) =
      (t.children[i]?.elim 0 fun c => c.subtreesAhead p) + (t.children.length - (i + 1)) := by
  cases t
  rfl

/-! ## Ancestors -/

/-- The labels of the nodes strictly above a position, the nearest first. -/
def ancestors : RoseTree α → List ℕ → List α
  | _, [] => []
  | node l cs, i :: p => (cs[i]?.elim [] fun c => ancestors c p) ++ [l]

@[simp]
theorem ancestors_nil (t : RoseTree α) : t.ancestors [] = [] := by
  cases t
  rfl

@[simp]
theorem ancestors_cons (t : RoseTree α) (i : ℕ) (p : List ℕ) :
    t.ancestors (i :: p) = (t.children[i]?.elim [] fun c => c.ancestors p) ++ [t.label] := by
  cases t
  rfl

/-! ## Trees of one shape -/

section Pointwise

variable {β : Type v} {R : α → β → Prop}

/-- Two trees of one shape: they have the same positions, and the relation holds of
the labels at each. -/
def Pointwise (R : α → β → Prop) (t : RoseTree α) (t' : RoseTree β) : Prop :=
  ∀ p, Option.Rel (fun s s' => R s.label s'.label) (t.sub? p) (t'.sub? p)

theorem pointwise_node {l : α} {l' : β} {cs : List (RoseTree α)} {ds : List (RoseTree β)} :
    Pointwise R (node l cs) (node l' ds) ↔ R l l' ∧ List.Forall₂ (Pointwise R) cs ds := by
  constructor
  · intro h
    refine ⟨by simpa using h [], List.forall₂_iff_get.mpr ⟨?_, fun i hi hi' p => ?_⟩⟩
    · -- a list that were longer would have a position of its own
      have hsame (i : ℕ) : i < cs.length ↔ i < ds.length := by
        have hi := h [i]
        constructor
        · intro hlt
          by_contra hge
          simp [hlt, hge] at hi
        · intro hlt
          by_contra hge
          simp [hlt, hge] at hi
      have hcs := hsame cs.length
      have hds := hsame ds.length
      omega
    · simpa [hi, hi'] using h (i :: p)
  · rintro ⟨hlabel, hchildren⟩ p
    cases p with
    | nil => simpa using hlabel
    | cons i p =>
        obtain ⟨hlength, hget⟩ := List.forall₂_iff_get.mp hchildren
        rw [sub?_cons, sub?_cons, children_node, children_node]
        by_cases hi : i < cs.length
        · have hi' : i < ds.length := by omega
          simpa [hi, hi'] using hget i hi hi' p
        · have hi' : ¬ i < ds.length := by omega
          simp only [List.getElem?_eq_none (not_lt.mp hi), List.getElem?_eq_none (not_lt.mp hi'),
            Option.bind_none]
          exact .none

variable {S : α → α → Prop}

theorem Pointwise.refl (hrefl : ∀ l, S l l) (t : RoseTree α) : Pointwise S t t := by
  intro p
  cases t.sub? p with
  | none => exact .none
  | some s => exact .some (hrefl s.label)

theorem Pointwise.trans (htrans : ∀ l l' l'', S l l' → S l' l'' → S l l'') {t t' t'' : RoseTree α}
    (h : Pointwise S t t') (h' : Pointwise S t' t'') : Pointwise S t t'' := by
  intro p
  have hfirst := h p
  have hsecond := h' p
  generalize t.sub? p = s at hfirst ⊢
  generalize t'.sub? p = s' at hfirst hsecond
  generalize t''.sub? p = s'' at hsecond ⊢
  cases hfirst with
  | none =>
      cases hsecond
      exact .none
  | some hl =>
      cases hsecond with
      | some hl' => exact .some (htrans _ _ _ hl hl')

/-- Rewriting one subtree into one of its shape keeps the shape. -/
theorem Pointwise.modify (hrefl : ∀ l, S l l) {t s : RoseTree α} {p : List ℕ}
    {f : RoseTree α → RoseTree α} (hs : t.sub? p = some s) (h : Pointwise S s (f s)) :
    Pointwise S t (t.modify f p) := by
  induction p generalizing t with
  | nil =>
      obtain rfl : t = s := by simpa using hs
      simpa using h
  | cons i p ih =>
      rw [sub?_cons] at hs
      obtain ⟨c, hc, hs⟩ := Option.bind_eq_some_iff.mp hs
      cases t with
      | node l cs =>
          rw [modify_cons, label_node, children_node, pointwise_node]
          refine ⟨hrefl l, List.forall₂_iff_get.mpr ⟨by simp, fun j hj hj' => ?_⟩⟩
          rw [List.get_eq_getElem, List.get_eq_getElem, List.getElem_modify]
          split
          · rename_i hij
            subst hij
            obtain ⟨hi, rfl⟩ := List.getElem?_eq_some_iff.mp hc
            exact ih hs
          · exact Pointwise.refl hrefl _

end Pointwise

end RoseTree

end Foundation
