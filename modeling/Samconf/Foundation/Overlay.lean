/-
# Overlaying a list of writes on a prefix-closed map

A map from key lists to entries is the abstract form of a tree. Writing at a
key list either rewrites the entry that is there or makes a new one, and in the
second case every missing shorter key list receives a blank entry. An overlay
is the fold of such writes over a list.

The result of a whole overlay is determined entry by entry as soon as no later
write goes to a prefix of an earlier one, which is how a preorder traversal
lists a tree. Each write then still meets the entry that was there at the
start.
-/

import Mathlib.Data.List.Infix

namespace Foundation

universe u v w

/-- How one kind of data is written: over an entry, or as a new one. -/
structure Writer (κ : Type u) (δ : Type v) (β : Type w) where
  /-- The entry that results from writing over an existing one. -/
  update : δ → β → β
  /-- The entry made where there was none. -/
  fresh : δ → β
  /-- The entry made on the way, under its own key. -/
  blank : κ → β

namespace Writer

variable {κ : Type u} {δ : Type v} {β : Type w} [DecidableEq κ]

/-- The entry that one write of `d` leaves at its own key list. -/
def result (W : Writer κ δ β) (d : δ) : Option β → β
  | none => W.fresh d
  | some b => W.update d b

/-- One write. -/
def put (W : Writer κ δ β) (m : List κ → Option β) (e : List κ × δ) :
    List κ → Option β :=
  fun ks =>
    if ks = e.1 then some (W.result e.2 (m ks))
    else (m ks).or (if ks <+: e.1 then ks.getLast?.map W.blank else none)

/-- The writes of a list, from left to right. -/
def overlay (W : Writer κ δ β) (m : List κ → Option β) (es : List (List κ × δ)) :
    List κ → Option β :=
  es.foldl W.put m

/-- No later write goes to a prefix of an earlier one. -/
def Ordered (es : List (List κ × δ)) : Prop :=
  es.Pairwise fun d e => ¬ e.1 <+: d.1

variable {W : Writer κ δ β} {m : List κ → Option β}

@[simp]
theorem overlay_nil : W.overlay m [] = m := rfl

@[simp]
theorem overlay_cons (e : List κ × δ) (es : List (List κ × δ)) :
    W.overlay m (e :: es) = W.overlay (W.put m e) es := rfl

theorem overlay_append (ds es : List (List κ × δ)) :
    W.overlay m (ds ++ es) = W.overlay (W.overlay m ds) es := by
  simp [overlay]

/-- A write is invisible at a key list that is not a prefix of its own. -/
theorem put_of_unrelated {e : List κ × δ} {ks : List κ} (h : ¬ ks <+: e.1) :
    W.put m e ks = m ks := by
  have hne : ks ≠ e.1 := fun heq => h (heq ▸ List.prefix_refl _)
  simp [put, hne, h]

/-- What is there stays there. -/
theorem put_of_ne {e : List κ × δ} {ks : List κ} {b : β} (hne : ks ≠ e.1)
    (hb : m ks = some b) : W.put m e ks = some b := by
  simp [put, hne, hb]

theorem overlay_of_forall_unrelated {es : List (List κ × δ)} {ks : List κ}
    (h : ∀ e ∈ es, ¬ ks <+: e.1) : W.overlay m es ks = m ks := by
  induction es generalizing m with
  | nil => rfl
  | cons e es ih =>
      rw [overlay_cons, ih fun d hd => h d (List.mem_cons_of_mem e hd)]
      exact put_of_unrelated (h e List.mem_cons_self)

theorem overlay_of_forall_ne {es : List (List κ × δ)} {ks : List κ} {b : β}
    (h : ∀ e ∈ es, ks ≠ e.1) (hb : m ks = some b) : W.overlay m es ks = some b := by
  induction es generalizing m with
  | nil => exact hb
  | cons e es ih =>
      rw [overlay_cons]
      exact ih (fun d hd => h d (List.mem_cons_of_mem e hd))
        (put_of_ne (h e List.mem_cons_self) hb)

/-- **At a written key list**, the overlay holds the result of that one write on
the entry that was there before any of them. -/
theorem overlay_of_mem {es : List (List κ × δ)} (hordered : Ordered es)
    {e : List κ × δ} (he : e ∈ es) :
    W.overlay m es e.1 = some (W.result e.2 (m e.1)) := by
  rcases List.append_of_mem he with ⟨before, after, rfl⟩
  have hbefore : ∀ d ∈ before, ¬ e.1 <+: d.1 := fun d hd =>
    (List.pairwise_append.mp hordered).2.2 d hd e List.mem_cons_self
  have hafter : ∀ d ∈ after, e.1 ≠ d.1 := by
    intro d hd heq
    have hpair := (List.pairwise_append.mp hordered).2.1
    exact (List.pairwise_cons.mp hpair).1 d hd (heq ▸ List.prefix_refl _)
  rw [overlay_append, overlay_cons]
  apply overlay_of_forall_ne hafter
  simp [put, overlay_of_forall_unrelated hbefore]

/-- **Away from the written key lists**, the overlay keeps every entry and adds
blank ones at the missing prefixes of written key lists. -/
theorem overlay_of_not_mem {es : List (List κ × δ)} {ks : List κ}
    (h : ∀ e ∈ es, ks ≠ e.1) :
    W.overlay m es ks =
      (m ks).or (if ∃ e ∈ es, ks <+: e.1 then ks.getLast?.map W.blank else none) := by
  induction es generalizing m with
  | nil => simp
  | cons e es ih =>
      rw [overlay_cons, ih fun d hd => h d (List.mem_cons_of_mem e hd)]
      have hne : ks ≠ e.1 := h e List.mem_cons_self
      cases hb : m ks with
      | some b => simp [put, hne, hb]
      | none =>
          by_cases hpre : ks <+: e.1
          · cases hlast : ks.getLast? with
            | none => simp [put, hne, hb, hpre, hlast]
            | some k => simp [put, hne, hb, hpre, hlast]
          · have hiff : (∃ d ∈ e :: es, ks <+: d.1) ↔ ∃ d ∈ es, ks <+: d.1 := by
              simp [hpre]
            rw [if_congr hiff rfl rfl]
            simp [put, hne, hb, hpre]

/-- **Where an entry of the overlay comes from**: from the one write to its key
list, from before, or from a write further down. -/
theorem overlay_eq_some {es : List (List κ × δ)} (hordered : Ordered es) {ks : List κ} {b : β}
    (h : W.overlay m es ks = some b) :
    (∃ e ∈ es, ks = e.1 ∧ b = W.result e.2 (m ks)) ∨
      (∀ e ∈ es, ks ≠ e.1) ∧
        (m ks = some b ∨
          m ks = none ∧ (∃ e ∈ es, ks <+: e.1) ∧ ∃ k, ks.getLast? = some k ∧ b = W.blank k) := by
  by_cases hmem : ∃ e ∈ es, ks = e.1
  · obtain ⟨e, he, rfl⟩ := hmem
    rw [overlay_of_mem hordered he] at h
    exact .inl ⟨e, he, rfl, (Option.some.inj h).symm⟩
  · have hne : ∀ e ∈ es, ks ≠ e.1 := fun e he heq => hmem ⟨e, he, heq⟩
    rw [overlay_of_not_mem hne] at h
    refine .inr ⟨hne, ?_⟩
    cases hm : m ks with
    | some b' =>
        rw [hm, Option.some_or] at h
        exact .inl h
    | none =>
        rw [hm, Option.none_or] at h
        by_cases hpre : ∃ e ∈ es, ks <+: e.1
        · rw [if_pos hpre] at h
          obtain ⟨k, hk, rfl⟩ := Option.map_eq_some_iff.mp h
          exact .inr ⟨rfl, hpre, k, hk, rfl⟩
        · rw [if_neg hpre] at h
          cases h

/-- What was there is there afterwards, and so is all that a write goes through. -/
theorem overlay_ne_none {es : List (List κ × δ)} {ks : List κ} (hne : ks ≠ [])
    (h : m ks ≠ none ∨ ∃ e ∈ es, ks <+: e.1) : W.overlay m es ks ≠ none := by
  induction es generalizing m with
  | nil => simpa using h
  | cons e es ih =>
      rw [overlay_cons]
      apply ih
      by_cases hpre : ks <+: e.1
      · left
        by_cases heq : ks = e.1
        · simp [put, heq]
        · simp [put, heq, hpre, List.getLast?_eq_some_getLast hne]
      · rw [put_of_unrelated hpre]
        exact h.imp_right fun ⟨d, hd, hd'⟩ =>
          ⟨d, (List.mem_cons.mp hd).resolve_left fun heq => hpre (heq ▸ hd'), hd'⟩

/-- Nothing else appears: an entry of the overlay was there before, was written,
or is the prefix of a written key list. -/
theorem overlay_eq_none {es : List (List κ × δ)} {ks : List κ}
    (hnone : m ks = none) (h : ∀ e ∈ es, ¬ ks <+: e.1) : W.overlay m es ks = none := by
  rw [overlay_of_forall_unrelated h, hnone]

/-! ## Writers that go over nothing -/

/-- What is there stays as it is. -/
def Keeps (W : Writer κ δ β) : Prop := ∀ d b, W.update d b = b

theorem Keeps.overlay_of_some (hW : W.Keeps) (es : List (List κ × δ)) {ks : List κ} {b : β}
    (hb : m ks = some b) : W.overlay m es ks = some b := by
  induction es generalizing m with
  | nil => exact hb
  | cons e es ih =>
      rw [overlay_cons]
      apply ih
      by_cases hne : ks = e.1
      · subst hne
        simp [put, result, hb, hW e.2 b]
      · exact put_of_ne hne hb

/-- **The first write that comes to a key list** decides what is there: a fresh
entry if it goes to the key list itself, a blank one if it goes below. -/
theorem Keeps.overlay_of_split (hW : W.Keeps) {before after : List (List κ × δ)}
    {e : List κ × δ} {k : κ} (hnone : m e.1 = none) (hlast : e.1.getLast? = some k)
    (hne : ∀ d ∈ before, e.1 ≠ d.1) :
    W.overlay m (before ++ e :: after) e.1 =
      some (if ∃ d ∈ before, e.1 <+: d.1 then W.blank k else W.fresh e.2) := by
  rw [overlay_append, overlay_cons]
  apply hW.overlay_of_some
  have hbefore := @overlay_of_not_mem _ _ _ _ W m before e.1 hne
  rw [hnone, Option.none_or, hlast] at hbefore
  by_cases hpre : ∃ d ∈ before, e.1 <+: d.1
  · rw [if_pos hpre] at hbefore ⊢
    simp [put, result, hbefore, hW e.2 (W.blank k)]
  · rw [if_neg hpre] at hbefore ⊢
    simp [put, result, hbefore]

end Writer

end Foundation
