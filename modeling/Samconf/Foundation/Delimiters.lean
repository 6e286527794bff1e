/-
# Texts with delimiters

A delimiter marks the end of a text when it does not begin inside the text. Then what is
before it and what is after it can be told apart, and a sequence of such texts, each with
the delimiter behind it, can be read back.
-/

import Mathlib.Data.List.Infix

namespace Foundation

variable {α : Type} {sep k k' v v' : List α}

/-- The delimiter behind the text does not begin inside the text. -/
def Delimited (sep k : List α) : Prop := ¬ sep <:+: k ++ sep.dropLast

instance [DecidableEq α] (sep k : List α) : Decidable (Delimited sep k) :=
  inferInstanceAs (Decidable (¬ _))

theorem delimited_singleton {x : α} : Delimited [x] k ↔ x ∉ k := by
  rw [Delimited, List.dropLast_singleton, List.append_nil, List.singleton_infix_iff]

/-- A delimiter of two different elements that is not in the text. -/
theorem delimited_pair {x y : α} (hne : x ≠ y) (h : ¬ [x, y] <:+: k) : Delimited [x, y] k := by
  rintro ⟨s, t, hk⟩
  refine h ?_
  rcases List.eq_nil_or_concat t with rfl | ⟨t, z, rfl⟩
  · -- the text with the first element behind it does not end with the second one
    have hlast := congrArg List.getLast? hk
    simp only [List.append_nil, List.getLast?_append, List.dropLast_cons_cons,
      List.dropLast_singleton, List.getLast?_singleton, List.getLast?_cons_cons, Option.some_or,
      Option.some.injEq] at hlast
    exact absurd hlast.symm hne
  · refine ⟨s, t, ?_⟩
    rw [List.concat_eq_append, ← List.append_assoc] at hk
    exact List.append_inj_left' hk rfl

theorem Delimited.length_le (h' : Delimited sep k')
    (heq : k ++ (sep ++ v) = k' ++ (sep ++ v')) : k'.length ≤ k.length := by
  by_contra hlt
  have hlt : k.length < k'.length := Nat.lt_of_not_le hlt
  refine h' ?_
  have hpre : k ++ sep <+: k' ++ sep.dropLast := by
    have hleft : k ++ sep <+: k ++ (sep ++ v) := by
      rw [← List.append_assoc]
      exact List.prefix_append _ _
    have hright : k' ++ sep.dropLast <+: k ++ (sep ++ v) := by
      rw [heq]
      exact (List.prefix_append_right_inj k').mpr
        ((List.dropLast_prefix sep).trans (List.prefix_append _ _))
    refine List.prefix_of_prefix_length_le hleft hright ?_
    rw [List.length_append, List.length_append, List.length_dropLast]
    omega
  exact (List.suffix_append k sep).isInfix.trans hpre.isInfix

/-- What is before a delimiter and what is behind it. -/
theorem Delimited.append_inj (h : Delimited sep k) (h' : Delimited sep k') :
    k ++ (sep ++ v) = k' ++ (sep ++ v') ↔ k = k' ∧ v = v' := by
  refine ⟨fun heq => ?_, fun hboth => hboth.1 ▸ hboth.2 ▸ rfl⟩
  have hlength : k.length = k'.length :=
    Nat.le_antisymm (h.length_le heq.symm) (h'.length_le heq)
  obtain ⟨rfl, hrest⟩ := List.append_inj heq hlength
  exact ⟨rfl, List.append_cancel_left hrest⟩

/-- **Texts with a delimiter behind each** can be read back, and with them what they say. -/
theorem flatMap_append_inj {β : Type} {text : β → List α} {bs bs' : List β} (hsep : sep ≠ [])
    (h : ∀ b ∈ bs, Delimited sep (text b)) (h' : ∀ b ∈ bs', Delimited sep (text b))
    (htext : ∀ b ∈ bs, ∀ b' ∈ bs', text b = text b' → b = b') :
    bs.flatMap (fun b => text b ++ sep) = bs'.flatMap (fun b => text b ++ sep) ↔ bs = bs' := by
  refine ⟨fun heq => ?_, fun heq => heq ▸ rfl⟩
  induction bs generalizing bs' with
  | nil =>
      cases bs' with
      | nil => rfl
      | cons b' bs' =>
          have hnil : text b' ++ sep = [] := (List.append_eq_nil_iff.mp heq.symm).1
          exact absurd (List.append_eq_nil_iff.mp hnil).2 hsep
  | cons b bs ih =>
      cases bs' with
      | nil =>
          have hnil : text b ++ sep = [] := (List.append_eq_nil_iff.mp heq).1
          exact absurd (List.append_eq_nil_iff.mp hnil).2 hsep
      | cons b' bs' =>
          rw [List.flatMap_cons, List.flatMap_cons, List.append_assoc, List.append_assoc,
            (h b List.mem_cons_self).append_inj (h' b' List.mem_cons_self)] at heq
          obtain ⟨hfirst, hrest⟩ := heq
          obtain rfl := htext b List.mem_cons_self b' List.mem_cons_self hfirst
          rw [ih (fun c hc => h c (List.mem_cons_of_mem _ hc))
            (fun c hc => h' c (List.mem_cons_of_mem _ hc))
            (fun c hc c' hc' => htext c (List.mem_cons_of_mem _ hc) c' (List.mem_cons_of_mem _ hc'))
            hrest]

end Foundation
