/-
# Computations that mirror others

A refinement is proved along the structure of the two programs: what they do one after
the other is related when each part is, and a part that only renames what another
returns mirrors it. What is known of one side, on every supply or on the one that
grants everything, carries over to the other.
-/

import Samconf.Foundation.Exec

namespace Foundation.Exec

variable {ε α β γ δ : Type} {R R' : α → β → Prop} {S : γ → δ → Prop}

theorem mirrors_fault (e : ε) : Mirrors R (fault e) (fault e) := by
  intro o
  refine ⟨fun e' he => ?_, fun a o' ha => ?_⟩
  · cases he
    rfl
  · cases ha

/-- **Sequences** mirror each other part by part. -/
theorem Mirrors.bind {x : Exec ε α} {y : Exec ε β} {f : α → Exec ε γ} {g : β → Exec ε δ}
    (hxy : Mirrors R x y) (hfg : ∀ a b, R a b → Mirrors S (f a) (g b)) :
    Mirrors S (x >>= f) (y >>= g) := by
  intro o
  cases hx : x o with
  | error e =>
      rw [bind_of_error hx, bind_of_error ((hxy o).1 e hx)]
      exact mirrors_fault e o
  | ok r =>
      obtain ⟨b, hy, hab⟩ := (hxy o).2 r.1 r.2 hx
      rw [bind_of_ok hx, bind_of_ok hy]
      exact hfg r.1 b hab r.2

theorem Mirrors.mono {x : Exec ε α} {y : Exec ε β} (h : Mirrors R x y)
    (himp : ∀ a b, R a b → R' a b) : Mirrors R' x y := by
  intro o
  refine ⟨(h o).1, fun a o' ha => ?_⟩
  obtain ⟨b, hb, hab⟩ := (h o).2 a o' ha
  exact ⟨b, hb, himp a b hab⟩

/-- What the first computation returns may be renamed. -/
theorem Mirrors.map_left {x : Exec ε α} {y : Exec ε β} {R : γ → β → Prop} {g : α → γ}
    (h : Mirrors (fun a b => R (g a) b) x y) :
    Mirrors R (x >>= fun a => pure (g a)) y := by
  intro o
  cases hx : x o with
  | error e =>
      rw [bind_of_error hx, (h o).1 e hx]
      exact mirrors_fault e o
  | ok r =>
      obtain ⟨b, hb, hab⟩ := (h o).2 r.1 r.2 hx
      rw [bind_of_ok hx, hb]
      refine ⟨fun e he => (nomatch he), fun a o' ha => ?_⟩
      cases ha
      exact ⟨b, rfl, hab⟩

/-- What the second computation returns may be renamed. -/
theorem Mirrors.map_right {x : Exec ε α} {y : Exec ε β} {R : α → δ → Prop} {g : β → δ}
    (h : Mirrors (fun a b => R a (g b)) x y) :
    Mirrors R x (y >>= fun b => pure (g b)) := by
  intro o
  refine ⟨fun e he => bind_of_error ((h o).1 e he), fun a o' ha => ?_⟩
  obtain ⟨b, hb, hab⟩ := (h o).2 a o' ha
  exact ⟨g b, bind_of_ok hb, hab⟩

/-- What the first computation ensures can be relied on. -/
theorem Mirrors.and_ensures {x : Exec ε α} {y : Exec ε β} {P : α → Prop} (h : Mirrors R x y)
    (hP : Ensures x P) : Mirrors (fun a b => R a b ∧ P a) x y := by
  rw [ensures_iff] at hP
  intro o
  refine ⟨(h o).1, fun a o' ha => ?_⟩
  obtain ⟨b, hb, hab⟩ := (h o).2 a o' ha
  exact ⟨b, hb, hab, hP o a o' ha⟩

/-- Renaming what is returned. -/
theorem mirrors_map (x : Exec ε α) (g : α → β) :
    Mirrors (fun a b => b = g a) x (x >>= fun a => pure (g a)) := by
  intro o
  cases hx : x o with
  | error e =>
      rw [bind_of_error hx]
      exact mirrors_fault e o
  | ok r =>
      rw [bind_of_ok hx]
      refine ⟨fun e he => (nomatch he), fun a o' ha => ?_⟩
      cases ha
      exact ⟨g a, rfl, rfl⟩

theorem mirrors_lift_map (r : Except ε α) (g : α → β) :
    Mirrors (fun a b => b = g a) (lift r) (lift (r.map g)) := by
  cases r with
  | error e => exact mirrors_fault e
  | ok a => exact mirrors_pure rfl

/-- What the first computation yields. -/
theorem Mirrors.yields {x : Exec ε α} {y : Exec ε β} {a : α} (h : Mirrors R x y)
    (hx : Yields x a) : ∃ b, Yields y b ∧ R a b := by
  rw [yields_iff] at hx
  obtain ⟨b, hb, hab⟩ := (h plenty).2 a plenty hx
  exact ⟨b, yields_iff.mpr hb, hab⟩

end Foundation.Exec
