/-
# Trees that gained nodes

One tree extends another when every node is still at its position and every position
that is new has a label of a given kind. Adding children, one after the other and
wherever, leads from a tree to one that extends it. An extension leaves the first
child with a key where it was, since new children come last; so a list of keys that
resolved still leads to the same position, and one that leads to an old position
resolved before.
-/

import Samconf.Foundation.KeyPath

namespace Foundation.RoseTree

universe u v

variable {α : Type u} {κ : Type v}

/-- Every node of `t` is at the same position of `t'` with a label related by `same`,
and the other nodes of `t'` have labels with `new`. -/
structure Extends (same : α → α → Prop) (new : α → Prop) (t t' : RoseTree α) : Prop where
  /-- No node is lost or moved. -/
  kept : ∀ p s, t.sub? p = some s → ∃ s', t'.sub? p = some s' ∧ same s.label s'.label
  /-- What was not there before is new. -/
  fresh : ∀ p s', t.sub? p = none → t'.sub? p = some s' → new s'.label

variable {same : α → α → Prop} {new : α → Prop} {t t' t'' : RoseTree α}

namespace Extends

theorem refl (hrefl : ∀ l, same l l) (t : RoseTree α) : Extends same new t t := by
  refine ⟨fun p s hs => ⟨s, hs, hrefl _⟩, fun p s hnone hs => ?_⟩
  rw [hnone] at hs
  cases hs

theorem trans (htrans : ∀ l l' l'', same l l' → same l' l'' → same l l'')
    (hnew : ∀ l l', new l → same l l' → new l')
    (h : Extends same new t t') (h' : Extends same new t' t'') : Extends same new t t'' := by
  constructor
  · intro p s hs
    obtain ⟨s', hs', hsame⟩ := h.kept p s hs
    obtain ⟨s'', hs'', hsame'⟩ := h'.kept p s' hs'
    exact ⟨s'', hs'', htrans _ _ _ hsame hsame'⟩
  · intro p s'' hnone hs''
    cases hs' : t'.sub? p with
    | none => exact h'.fresh p s'' hs' hs''
    | some s' =>
        obtain ⟨r, hr, hsame⟩ := h'.kept p s' hs'
        obtain rfl : s'' = r := Option.some.inj (hs''.symm.trans hr)
        exact hnew _ _ (h.fresh p s' hnone hs') hsame

/-- One more child at the top. -/
theorem addChild {bump : α → α} {c : RoseTree α} (hbump : ∀ l, same l (bump l))
    (hrefl : ∀ l, same l l) (hc : ∀ p s, c.sub? p = some s → new s.label) (t : RoseTree α) :
    Extends same new t (addChild bump c t) := by
  constructor
  · intro p s hs
    cases p with
    | nil =>
        obtain rfl : t = s := by simpa using hs
        exact ⟨_, sub?_nil _, by simpa using hbump t.label⟩
    | cons i p =>
        rw [sub?_cons] at hs
        obtain ⟨d, hd, hs⟩ := Option.bind_eq_some_iff.mp hs
        have hlt := (List.getElem?_eq_some_iff.mp hd).1
        exact ⟨s, by simp [List.getElem?_append_left hlt, hd, hs], hrefl _⟩
  · intro p s hnone hs
    cases p with
    | nil => simp at hnone
    | cons i p =>
        rw [sub?_cons] at hnone hs
        rw [children_addChild] at hs
        rcases Nat.lt_trichotomy i t.children.length with hlt | rfl | hgt
        · rw [List.getElem?_append_left hlt, hnone] at hs
          cases hs
        · exact hc p s (by simpa using hs)
        · have hout : (t.children ++ [c])[i]? = none :=
            List.getElem?_eq_none (by simpa using Nat.succ_le_of_lt hgt)
          rw [hout] at hs
          cases hs

/-- Extending a subtree extends the tree. -/
theorem modify (hrefl : ∀ l, same l l) {s : RoseTree α} {p : List ℕ}
    {f : RoseTree α → RoseTree α} (hs : t.sub? p = some s) (h : Extends same new s (f s)) :
    Extends same new t (t.modify f p) := by
  induction p generalizing t with
  | nil =>
      obtain rfl : t = s := by simpa using hs
      simpa using h
  | cons i p ih =>
      rw [sub?_cons] at hs
      obtain ⟨c, hc, hs⟩ := Option.bind_eq_some_iff.mp hs
      have hbelow := ih hs
      -- a child other than the rewritten one is the child it was
      have hother : ∀ j, i ≠ j →
          (t.children.modify i fun c => c.modify f p)[j]? = t.children[j]? := by
        intro j hij
        simp [hij]
      have hself : (t.children.modify i fun c => c.modify f p)[i]? = some (c.modify f p) := by
        simp [hc]
      constructor
      · intro q r hr
        cases q with
        | nil => exact ⟨_, sub?_nil _, by
            obtain rfl : t = r := by simpa using hr
            simpa using hrefl t.label⟩
        | cons j q =>
            rw [modify_cons, sub?_cons, children_node]
            rw [sub?_cons] at hr
            by_cases hij : i = j
            · subst hij
              rw [hc, Option.bind_some] at hr
              rw [hself, Option.bind_some]
              exact hbelow.kept q r hr
            · rw [hother j hij, hr]
              exact ⟨r, rfl, hrefl _⟩
      · intro q r hnone hr
        cases q with
        | nil => simp at hnone
        | cons j q =>
            rw [modify_cons, sub?_cons, children_node] at hr
            rw [sub?_cons] at hnone
            by_cases hij : i = j
            · subst hij
              rw [hc, Option.bind_some] at hnone
              rw [hself, Option.bind_some] at hr
              exact hbelow.fresh q r hnone hr
            · rw [hother j hij, hnone] at hr
              cases hr

/-- Growing only adds nodes. -/
theorem grow [DecidableEq κ] {key : α → Option κ} {blank : κ → α} {bump : α → α}
    (hrefl : ∀ l, same l l) (hbump : ∀ l, same l (bump l)) (leaf t : RoseTree α) (ks : List κ) :
    Extends same (fun _ => True) t (RoseTree.grow key blank bump leaf t ks) := by
  induction ks generalizing t with
  | nil =>
      rw [grow_nil]
      exact refl hrefl t
  | cons k ks ih =>
      cases hi : childIdx? key k t.children with
      | none =>
          rw [grow_cons_of_none hi]
          exact addChild hbump hrefl (fun _ _ _ => trivial) t
      | some i =>
          obtain ⟨c, hc, -⟩ := childIdx?_eq_some.mp hi
          have hbelow := modify hrefl (t := t) (p := [i])
            (f := fun c => RoseTree.grow key blank bump leaf c ks) (by simp [hc]) (ih c)
          rw [grow_cons_of_some hi]
          simpa using hbelow

/-! ## Lookup in an extension -/

/-- A child of the top is extended in its place. -/
theorem child (h : Extends same new t t') {i : ℕ} {c : RoseTree α}
    (hc : t.children[i]? = some c) :
    ∃ c', t'.children[i]? = some c' ∧ Extends same new c c' := by
  have hsub : t.sub? [i] = some c := by simp [hc]
  obtain ⟨c', hc', -⟩ := h.kept [i] c hsub
  have hchild : t'.children[i]? = some c' := by
    rw [sub?_cons] at hc'
    obtain ⟨d, hd, heq⟩ := Option.bind_eq_some_iff.mp hc'
    rw [hd, ← heq, sub?_nil]
  refine ⟨c', hchild, fun p s hs => ?_, fun p s hnone hs => ?_⟩
  · have hkept := h.kept (i :: p) s (by simp [hc, hs])
    simpa [hchild] using hkept
  · exact h.fresh (i :: p) s (by simp [hc, hnone]) (by simp [hchild, hs])

theorem label (h : Extends same new t t') : same t.label t'.label := by
  obtain ⟨s', hs', hsame⟩ := h.kept [] t (sub?_nil t)
  obtain rfl : t' = s' := by simpa using hs'
  exact hsame

variable {key : α → Option κ}

/-- A list of keys that leads to an old position led there before. -/
theorem reaches_of_old (hkey : ∀ l l', same l l' → key l' = key l) {ks : List κ} {p : List ℕ}
    (hreaches : Reaches key t' ks p) {t : RoseTree α} (h : Extends same new t t')
    {s : RoseTree α} (hs : t.sub? p = some s) : Reaches key t ks p := by
  induction hreaches generalizing t with
  | here t' => exact .here t
  | @down t' c' k ks i p hchild hk hfirst hrest ih =>
      rw [sub?_cons] at hs
      obtain ⟨c, hc, hs⟩ := Option.bind_eq_some_iff.mp hs
      obtain ⟨d', hd', hbelow⟩ := h.child hc
      obtain rfl : c' = d' := Option.some.inj (hchild.symm.trans hd')
      refine .down hc ((hkey _ _ hbelow.label).symm.trans hk) (fun j hj d hd hdk => ?_)
        (ih hbelow hs)
      obtain ⟨e, he, hext⟩ := h.child hd
      exact hfirst j hj e he ((hkey _ _ hext.label).trans hdk)

/-- A list of keys that resolved leads to the same position. -/
theorem reaches (hkey : ∀ l l', same l l' → key l' = key l) {ks : List κ} {p : List ℕ}
    (hreaches : Reaches key t ks p) {t' : RoseTree α} (h : Extends same new t t') :
    Reaches key t' ks p := by
  induction hreaches generalizing t' with
  | here t => exact .here t'
  | @down t c k ks i p hchild hk hfirst hrest ih =>
      obtain ⟨c', hc', hbelow⟩ := h.child hchild
      refine .down hc' ((hkey _ _ hbelow.label).trans hk) (fun j hj d' hd' hdk => ?_) (ih hbelow)
      have hlt : j < t.children.length :=
        Nat.lt_trans hj (List.getElem?_eq_some_iff.mp hchild).1
      obtain ⟨e, he, hext⟩ := h.child (List.getElem?_eq_getElem hlt)
      obtain rfl : d' = e := Option.some.inj (hd'.symm.trans he)
      exact hfirst j hj _ (List.getElem?_eq_getElem hlt) ((hkey _ _ hext.label).symm.trans hdk)

variable [DecidableEq κ]

theorem resolve_of_old (hkey : ∀ l l', same l l' → key l' = key l) (h : Extends same new t t')
    {ks : List κ} {p : List ℕ} (hp : resolve key t' ks = some p) {s : RoseTree α}
    (hs : t.sub? p = some s) : resolve key t ks = some p :=
  resolve_eq_some_iff.mpr (reaches_of_old hkey (resolve_eq_some_iff.mp hp) h hs)

theorem resolve (hkey : ∀ l l', same l l' → key l' = key l) (h : Extends same new t t')
    {ks : List κ} {p : List ℕ} (hp : resolve key t ks = some p) : resolve key t' ks = some p :=
  resolve_eq_some_iff.mpr (reaches hkey (resolve_eq_some_iff.mp hp) h)

end Extends

end Foundation.RoseTree
