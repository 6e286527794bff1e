/-
# Computations that allocate and may fault

A program that asks for memory runs against a supply, the sequence of answers
its coming requests will get. A run either faults, which is how undefined
behaviour is recorded, or returns a value together with the rest of the supply.

`plenty` is the supply that never refuses. `Yields` says what a computation
returns on it; its rules turn a run without failing allocations into rewriting.
`Avoids` says that one kind of fault occurs on no supply at all.
-/

import Mathlib.Data.Nat.Notation

namespace Foundation

universe u

/-- The answers to the coming requests for memory, in order. -/
abbrev Supply := ℕ → Bool

/-- The supply that grants every request. -/
def plenty : Supply := fun _ => true

/-- A computation with faults in `ε` and values in `α`. -/
def Exec (ε α : Type) := Supply → Except ε (α × Supply)

namespace Exec

variable {ε α β : Type}

/-- Return a value and leave the supply alone. -/
protected def pure (a : α) : Exec ε α := fun o => .ok (a, o)

/-- Run one computation and then another on what the first returned. -/
protected def bind (x : Exec ε α) (f : α → Exec ε β) : Exec ε β := fun o =>
  match x o with
  | .error e => .error e
  | .ok (a, o') => f a o'

instance : Monad (Exec ε) where
  pure := Exec.pure
  bind := Exec.bind

/-- Ask for memory: take the supply's next answer. -/
def alloc : Exec ε Bool := fun o => .ok (o 0, fun n => o (n + 1))

/-- Ask for memory to hold a value: the value, or nothing on a refusal. -/
def allocFor (a : α) : Exec ε (Option α) := do
  if ← alloc then pure (some a) else pure none

/-- Undefined behaviour of the given kind. -/
def fault (e : ε) : Exec ε α := fun _ => .error e

/-- A step that asks for no memory. -/
def lift (r : Except ε α) : Exec ε α := fun o => r.map fun a => (a, o)

@[simp]
theorem pure_apply (a : α) (o : Supply) : (pure a : Exec ε α) o = .ok (a, o) := rfl

theorem bind_apply (x : Exec ε α) (f : α → Exec ε β) (o : Supply) :
    (x >>= f) o =
      match x o with
      | .error e => .error e
      | .ok (a, o') => f a o' := rfl

@[simp]
theorem pure_bind (a : α) (f : α → Exec ε β) : (pure a >>= f) = f a := rfl

@[simp]
theorem fault_bind (e : ε) (f : α → Exec ε β) : ((fault e : Exec ε α) >>= f) = fault e := rfl

theorem bind_assoc {γ : Type} (x : Exec ε α) (f : α → Exec ε β) (g : β → Exec ε γ) :
    x >>= f >>= g = x >>= fun a => f a >>= g := by
  funext o
  simp only [bind_apply]
  cases x o with
  | error e => rfl
  | ok r => rfl

@[simp]
theorem lift_ok_bind (a : α) (f : α → Exec ε β) : ((lift (.ok a) : Exec ε α) >>= f) = f a := rfl

/-- A sequence returned a value exactly when both halves did. -/
theorem bind_eq_ok {x : Exec ε α} {f : α → Exec ε β} {o o' : Supply} {b : β} :
    (x >>= f) o = .ok (b, o') ↔ ∃ a o₁, x o = .ok (a, o₁) ∧ f a o₁ = .ok (b, o') := by
  rw [bind_apply]
  cases x o with
  | error e => simp
  | ok r =>
      rcases r with ⟨a, o₁⟩
      refine ⟨fun h => ⟨a, o₁, rfl, h⟩, ?_⟩
      rintro ⟨a', o₁', heq, h⟩
      cases heq
      exact h

theorem bind_of_ok {x : Exec ε α} {f : α → Exec ε β} {o o₁ : Supply} {a : α}
    (h : x o = .ok (a, o₁)) : (x >>= f) o = f a o₁ := by
  rw [bind_apply, h]

theorem bind_of_error {x : Exec ε α} {f : α → Exec ε β} {o : Supply} {e : ε}
    (h : x o = .error e) : (x >>= f) o = .error e := by
  rw [bind_apply, h]

/-! ## Runs without failing allocations -/

@[simp]
theorem plenty_apply (n : ℕ) : plenty n = true := rfl

/-- On a supply that grants everything, the computation returns `a`. -/
def Yields (x : Exec ε α) (a : α) : Prop := x plenty = .ok (a, plenty)

theorem yields_pure (a : α) : Yields (pure a : Exec ε α) a := rfl

theorem yields_alloc : Yields (alloc : Exec ε Bool) true := rfl

theorem Yields.bind {x : Exec ε α} {f : α → Exec ε β} {a : α} {b : β}
    (hx : Yields x a) (hf : Yields (f a) b) : Yields (x >>= f) b := by
  rw [Yields, bind_of_ok hx]
  exact hf

/-- A first step with a known value can be replaced by that value. -/
theorem Yields.bind_iff {x : Exec ε α} {f : α → Exec ε β} {a : α} {b : β}
    (hx : Yields x a) : Yields (x >>= f) b ↔ Yields (f a) b := by
  rw [Yields, bind_of_ok hx, Yields]

/-- What is returned after a last step without effects comes from that step. -/
theorem yields_bind_pure_iff {x : Exec ε α} {g : α → β} {b : β} :
    Yields (x >>= fun a => pure (g a)) b ↔ ∃ a, Yields x a ∧ g a = b := by
  rw [Yields, bind_eq_ok]
  constructor
  · rintro ⟨a, o₁, hx, hg⟩
    cases hg
    exact ⟨a, hx, rfl⟩
  · rintro ⟨a, hx, rfl⟩
    exact ⟨a, plenty, hx, rfl⟩

theorem Yields.unique {x : Exec ε α} {a b : α} (ha : Yields x a) (hb : Yields x b) : a = b := by
  rw [Yields] at ha hb
  rw [ha] at hb
  cases hb
  rfl

/-- On a supply that grants everything, the computation faults with `e`. -/
def Faults (x : Exec ε α) (e : ε) : Prop := x plenty = .error e

theorem faults_fault (e : ε) : Faults (fault e : Exec ε α) e := rfl

theorem Yields.bind_faults {x : Exec ε α} {f : α → Exec ε β} {a : α} {e : ε}
    (hx : Yields x a) (hf : Faults (f a) e) : Faults (x >>= f) e := by
  rw [Faults, bind_of_ok hx]
  exact hf

theorem Faults.bind {x : Exec ε α} {e : ε} (hx : Faults x e) (f : α → Exec ε β) :
    Faults (x >>= f) e :=
  bind_of_error hx

theorem Faults.not_yields {x : Exec ε α} {e : ε} {a : α} (hx : Faults x e) : ¬ Yields x a := by
  intro ha
  rw [Faults] at hx
  rw [Yields, hx] at ha
  cases ha

/-- On a supply that grants everything, the computation faults, or it returns a
value and leaves such a supply. -/
def Settles (x : Exec ε α) : Prop := (∃ e, Faults x e) ∨ ∃ a, Yields x a

theorem Yields.settles {x : Exec ε α} {a : α} (hx : Yields x a) : Settles x := .inr ⟨a, hx⟩

theorem Yields.bind_settles {x : Exec ε α} {f : α → Exec ε β} {a : α}
    (hx : Yields x a) (hf : Settles (f a)) : Settles (x >>= f) :=
  hf.imp (fun ⟨e, he⟩ => ⟨e, hx.bind_faults he⟩) fun ⟨b, hb⟩ => ⟨b, hx.bind hb⟩

theorem settles_pure (a : α) : Settles (pure a : Exec ε α) := (yields_pure a).settles

theorem settles_fault (e : ε) : Settles (fault e : Exec ε α) := .inl ⟨e, faults_fault e⟩

theorem settles_lift (r : Except ε α) : Settles (lift r) := by
  cases r with
  | error e => exact settles_fault e
  | ok a => exact settles_pure a

theorem Settles.bind {x : Exec ε α} {f : α → Exec ε β} (hx : Settles x)
    (hf : ∀ a, Yields x a → Settles (f a)) : Settles (x >>= f) := by
  rcases hx with ⟨e, he⟩ | ⟨a, ha⟩
  · exact .inl ⟨e, he.bind f⟩
  · exact ha.bind_settles (hf a ha)

/-- What a sequence yields comes from what its first part does. -/
theorem Settles.yields_bind_iff {x : Exec ε α} {f : α → Exec ε β} {b : β} (hx : Settles x) :
    Yields (x >>= f) b ↔ ∃ a, Yields x a ∧ Yields (f a) b := by
  constructor
  · intro h
    rcases hx with ⟨e, he⟩ | ⟨a, ha⟩
    · exact absurd h (he.bind f).not_yields
    · exact ⟨a, ha, ha.bind_iff.mp h⟩
  · rintro ⟨a, ha, hb⟩
    exact ha.bind hb

/-- What a run returns on a supply that grants everything is what is yielded. -/
theorem Settles.yields_of_run {x : Exec ε α} {a : α} {o : Supply} (hx : Settles x)
    (hrun : x plenty = .ok (a, o)) : Yields x a := by
  rcases hx with ⟨e, he⟩ | ⟨b, hb⟩
  · rw [Faults, hrun] at he
    cases he
  · rw [Yields, hrun] at hb
    cases hb
    exact hrun

/-! ## Results on every supply -/

/-- Whatever the supply, a value that is returned has the property. -/
def Ensures (x : Exec ε α) (P : α → Prop) : Prop := ∀ o a o', x o = .ok (a, o') → P a

variable {P Q : α → Prop}

theorem ensures_pure {a : α} (h : P a) : Ensures (pure a : Exec ε α) P := by
  intro o b o' hrun
  cases hrun
  exact h

theorem ensures_fault (e : ε) : Ensures (fault e : Exec ε α) P :=
  fun _ _ _ h => by cases h

theorem Ensures.bind {x : Exec ε α} {f : α → Exec ε β} {R : β → Prop}
    (hx : Ensures x P) (hf : ∀ a, P a → Ensures (f a) R) : Ensures (x >>= f) R := by
  intro o b o' hrun
  rcases bind_eq_ok.mp hrun with ⟨a, o₁, ha, hb⟩
  exact hf a (hx o a o₁ ha) o₁ b o' hb

theorem Ensures.mono {x : Exec ε α} (hx : Ensures x P) (himp : ∀ a, P a → Q a) :
    Ensures x Q :=
  fun o a o' hrun => himp a (hx o a o' hrun)

theorem ensures_true (x : Exec ε α) : Ensures x fun _ => True :=
  fun _ _ _ _ => trivial

/-- Two sequences that begin alike and go on alike from whatever that ensures. -/
theorem bind_congr {x : Exec ε α} {f g : α → Exec ε β} (hx : Ensures x P)
    (h : ∀ a, P a → f a = g a) : x >>= f = x >>= g := by
  funext o
  rw [bind_apply, bind_apply]
  cases hrun : x o with
  | error e => rfl
  | ok r => exact congrFun (h r.1 (hx o r.1 r.2 hrun)) r.2

/-! ## Faults that cannot occur -/

/-- The computation faults with `e` on no supply. -/
def Avoids (e : ε) (x : Exec ε α) : Prop := ∀ o, x o ≠ .error e

theorem avoids_pure (e : ε) (a : α) : Avoids e (pure a : Exec ε α) :=
  fun _ h => by cases h

theorem avoids_alloc (e : ε) : Avoids e (alloc : Exec ε Bool) :=
  fun _ h => by cases h

theorem avoids_fault {e e' : ε} (h : e' ≠ e) : Avoids e (fault e' : Exec ε α) :=
  fun _ heq => h (by cases heq; rfl)

theorem avoids_lift {e : ε} {r : Except ε α} (h : r ≠ .error e) :
    Avoids e (lift r : Exec ε α) := by
  intro o heq
  cases r with
  | error e' =>
      cases heq
      exact h rfl
  | ok a => cases heq

/-- A sequence avoids a fault when its first half does and its second half does
on every value the first ensures. -/
theorem Avoids.bind_of {e : ε} {x : Exec ε α} {f : α → Exec ε β}
    (hx : Avoids e x) (hP : Ensures x P) (hf : ∀ a, P a → Avoids e (f a)) :
    Avoids e (x >>= f) := by
  intro o h
  rw [bind_apply] at h
  cases hxo : x o with
  | error e' =>
      rw [hxo] at h
      cases h
      exact hx o hxo
  | ok r =>
      rw [hxo] at h
      exact hf r.1 (hP o r.1 r.2 hxo) r.2 h

theorem Avoids.bind {e : ε} {x : Exec ε α} {f : α → Exec ε β}
    (hx : Avoids e x) (hf : ∀ a, Avoids e (f a)) : Avoids e (x >>= f) :=
  hx.bind_of (ensures_true x) fun a _ => hf a

theorem Faults.not_avoids {x : Exec ε α} {e : ε} (hx : Faults x e) : ¬ Avoids e x :=
  fun h => h plenty hx

/-! ## Loops -/

/-- Repeat a step that either hands on a new state or ends with a value. The
number bounds the rounds; a loop that is still going then faults with `e`. -/
def loop {σ : Type} (e : ε) (step : σ → Exec ε (σ ⊕ α)) : ℕ → σ → Exec ε α
  | 0, _ => fault e
  | n + 1, s => step s >>= fun r =>
      match r with
      | .inl s' => loop e step n s'
      | .inr a => pure a

variable {σ : Type} {e : ε} {step : σ → Exec ε (σ ⊕ α)}

/-- **Loop rule.** An invariant that every round keeps, and that every ending
round turns into the postcondition, whatever the supply. -/
theorem loop_ensures (Inv : σ → Prop) (hstep : ∀ s, Inv s → Ensures (step s) (Sum.elim Inv P))
    {n : ℕ} {s : σ} (hinv : Inv s) : Ensures (loop e step n s) P := by
  induction n generalizing s with
  | zero => exact ensures_fault e
  | succ n ih =>
      refine (hstep s hinv).bind fun r hr => ?_
      cases r with
      | inl s' => exact ih hr
      | inr a => exact ensures_pure hr

/-- A loop avoids a fault that its step avoids under an invariant, other than
the fault that reports the bound. -/
theorem loop_avoids (Inv : σ → Prop) {e' : ε} (hne : e ≠ e')
    (hstep : ∀ s o s' o', Inv s → step s o = .ok (.inl s', o') → Inv s')
    (hsafe : ∀ s, Inv s → Avoids e' (step s)) {n : ℕ} {s : σ} (hinv : Inv s) :
    Avoids e' (loop e step n s) := by
  induction n generalizing s with
  | zero => exact avoids_fault hne
  | succ n ih =>
      intro o h
      rw [loop, bind_apply] at h
      cases hr : step s o with
      | error e'' =>
          rw [hr] at h
          cases h
          exact hsafe s hinv o hr
      | ok r =>
          rw [hr] at h
          rcases r with ⟨r, o₁⟩
          cases r with
          | inl s' => exact ih (hstep s o s' o₁ hinv hr) o₁ h
          | inr a => cases h

/-- The states that a loop comes to, round by round, with the supplies it has
left there. -/
inductive Rounds (step : σ → Exec ε (σ ⊕ α)) : σ → Supply → σ → Supply → Prop
  | here (s : σ) (o : Supply) : Rounds step s o s o
  | round {s s' s'' : σ} {o o' o'' : Supply} (hstep : step s o = .ok (.inl s', o'))
      (hrest : Rounds step s' o' s'' o'') : Rounds step s o s'' o''

/-- A round that hands on a state. -/
theorem loop_of_inl {n : ℕ} {s s' : σ} {o o' : Supply} (h : step s o = .ok (.inl s', o')) :
    loop e step (n + 1) s o = loop e step n s' o' := by
  rw [loop, bind_of_ok h]

/-- A round that ends the loop. -/
theorem loop_of_inr {n : ℕ} {s : σ} {o o' : Supply} {a : α}
    (h : step s o = .ok (.inr a, o')) : loop e step (n + 1) s o = .ok (a, o') := by
  rw [loop, bind_of_ok h]
  rfl

/-- A round that faults. -/
theorem loop_of_error {n : ℕ} {s : σ} {o : Supply} {e' : ε} (h : step s o = .error e') :
    loop e step (n + 1) s o = .error e' := by
  rw [loop, bind_of_error h]

/-! ## Runs side by side -/

/-- One computation mirrors another: it faults where the other does, takes the
same answers from the supply, and returns values related to those of the other. -/
def Mirrors (R : α → β → Prop) (x : Exec ε α) (y : Exec ε β) : Prop :=
  ∀ o, (∀ e, x o = .error e → y o = .error e) ∧
    ∀ a o', x o = .ok (a, o') → ∃ b, y o = .ok (b, o') ∧ R a b

variable {R : α → β → Prop}

theorem mirrors_pure {a : α} {b : β} (h : R a b) :
    Mirrors R (pure a : Exec ε α) (pure b) := by
  intro o
  refine ⟨fun e he => (nomatch he), fun a' o' ha => ?_⟩
  cases ha
  exact ⟨b, rfl, h⟩

/-- Two sequences that begin alike. -/
theorem mirrors_bind {γ : Type} {z : Exec ε γ} {S : γ → Prop} {f : γ → Exec ε α}
    {g : γ → Exec ε β} (hz : Ensures z S) (h : ∀ c, S c → Mirrors R (f c) (g c)) :
    Mirrors R (z >>= f) (z >>= g) := by
  intro o
  cases hrun : z o with
  | error e => simp [bind_of_error hrun]
  | ok r =>
      rw [bind_of_ok hrun, bind_of_ok hrun]
      exact h r.1 (hz o r.1 r.2 hrun) r.2

/-- What a mirror returns is related to something. -/
theorem Mirrors.ensures {x : Exec ε α} {y : Exec ε β} (h : Mirrors R x y) :
    Ensures y fun b => ∃ a, R a b := by
  intro o b o' hrun
  cases hx : x o with
  | error e =>
      rw [(h o).1 e hx] at hrun
      cases hrun
  | ok r =>
      rcases (h o).2 r.1 r.2 hx with ⟨b', hb', hrel⟩
      rw [hb'] at hrun
      cases hrun
      exact ⟨r.1, hrel⟩

/-! ## Requests for memory -/

theorem yields_allocFor (a : α) : Yields (allocFor a : Exec ε (Option α)) (some a) :=
  yields_alloc.bind (yields_pure _)

theorem ensures_allocFor (a : α) :
    Ensures (allocFor a : Exec ε (Option α)) fun r => r = none ∨ r = some a := by
  refine (ensures_true alloc).bind fun granted _ => ?_
  cases granted with
  | false => exact ensures_pure (.inl rfl)
  | true => exact ensures_pure (.inr rfl)

theorem avoids_allocFor (e : ε) (a : α) : Avoids e (allocFor a : Exec ε (Option α)) := by
  refine (avoids_alloc e).bind fun granted => ?_
  cases granted with
  | false => exact avoids_pure e _
  | true => exact avoids_pure e _

/-! ## The predicates as run statements

From here on the predicates are used through their rules. -/

theorem yields_iff {x : Exec ε α} {a : α} : Yields x a ↔ x plenty = .ok (a, plenty) := Iff.rfl

theorem ensures_iff {x : Exec ε α} {P : α → Prop} :
    Ensures x P ↔ ∀ o a o', x o = .ok (a, o') → P a := Iff.rfl

theorem avoids_iff {x : Exec ε α} {e : ε} : Avoids e x ↔ ∀ o, x o ≠ .error e := Iff.rfl

theorem faults_iff {x : Exec ε α} {e : ε} : Faults x e ↔ x plenty = .error e := Iff.rfl

attribute [irreducible] Yields Ensures Avoids Faults

end Exec

end Foundation
