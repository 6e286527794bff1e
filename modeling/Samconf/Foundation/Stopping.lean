/-
# Runs that stop early

To say that something does not happen in a run, take the computation once more with a stop
where it would happen. `Guards` relates the two on every supply: where the copy does not
stop, the computation does the same, does not fault in a given way, and returns what it
should; where the copy stops, the computation comes to the fault or to a loss. The copy
stops only for the analysis; the computation itself goes on.
-/

import Samconf.Foundation.Exec

namespace Foundation.Exec

variable {ε α β σ : Type} {e : ε} {P L : α → Prop} {Q M : β → Prop}

/-- On this supply the computation does not stop. -/
def GoesOn (x : OptionT (Exec ε) α) (o : Supply) : Prop := ∀ o', x.run o ≠ .ok (none, o')

/-- On every supply the computation faults with `e` or returns a loss. -/
def Loses (e : ε) (L : α → Prop) (y : Exec ε α) : Prop :=
  ∀ o, y o = .error e ∨ ∃ a o', y o = .ok (a, o') ∧ L a

/-- A run with stops beside one without. -/
inductive Alongside (e : ε) (P L : α → Prop) :
    Except ε (Option α × Supply) → Except ε (α × Supply) → Prop
  | returns {a : α} {o : Supply} (h : P a) : Alongside e P L (.ok (some a, o)) (.ok (a, o))
  | faults {e' : ε} (h : e' ≠ e) : Alongside e P L (.error e') (.error e')
  | stopsAtFault {o : Supply} : Alongside e P L (.ok (none, o)) (.error e)
  | stopsAtLoss {a : α} {o o' : Supply} (h : L a) : Alongside e P L (.ok (none, o)) (.ok (a, o'))

/-- Where `x` does not stop, `y` does the same, avoids `e` and returns a value with `P`.
Where `x` stops, `y` faults with `e` or returns a value with `L`. -/
def Guards (e : ε) (P L : α → Prop) (x : OptionT (Exec ε) α) (y : Exec ε α) : Prop :=
  ∀ o, Alongside e P L (x.run o) (y o)

theorem loses_pure {a : α} (h : L a) : Loses e L (pure a) := fun o => .inr ⟨a, o, rfl, h⟩

theorem loses_fault (f : α → Exec ε β) : Loses e M (fault e >>= f) := fun _ => .inl rfl

section Bind

variable {x : OptionT (Exec ε) α} {f : α → OptionT (Exec ε) β} {o o' : Supply} {a : α}

theorem run_bind_of_some (h : x.run o = .ok (some a, o')) : (x >>= f).run o = (f a).run o' :=
  bind_of_ok h

theorem run_bind_of_none (h : x.run o = .ok (none, o')) : (x >>= f).run o = .ok (none, o') :=
  bind_of_ok h

theorem run_bind_of_error {e' : ε} (h : x.run o = .error e') : (x >>= f).run o = .error e' :=
  bind_of_error h

end Bind

namespace Guards

theorem pure {a : α} (h : P a) : Guards e P L (Pure.pure a) (Pure.pure a) :=
  fun _ => .returns h

/-- A stop for what is a loss. -/
theorem failure {y : Exec ε α} (h : Loses e L y) : Guards e P L failure y := by
  intro o
  rcases h o with hfault | ⟨a, o', hrun, hloss⟩
  · rw [hfault]
    exact .stopsAtFault
  · rw [hrun]
    exact .stopsAtLoss hloss

/-- What follows a loss has to end in one. -/
theorem bind {x : OptionT (Exec ε) α} {y : Exec ε α} {f : α → OptionT (Exec ε) β}
    {g : α → Exec ε β} (hx : Guards e P L x y) (hf : ∀ a, P a → Guards e Q M (f a) (g a))
    (hloses : ∀ a, L a → Loses e M (g a)) : Guards e Q M (x >>= f) (y >>= g) := by
  intro o
  have halong := hx o
  generalize hxo : x.run o = r at halong
  generalize hyo : y o = s at halong
  cases halong with
  | returns h =>
      rw [run_bind_of_some hxo, bind_of_ok hyo]
      exact hf _ h _
  | faults h =>
      rw [run_bind_of_error hxo, bind_of_error hyo]
      exact .faults h
  | stopsAtFault =>
      rw [run_bind_of_none hxo, bind_of_error hyo]
      exact .stopsAtFault
  | @stopsAtLoss a _ o' h =>
      rw [run_bind_of_none hxo, bind_of_ok hyo]
      rcases hloses a h o' with hfault | ⟨b, o'', hrun, hloss⟩
      · rw [hfault]
        exact .stopsAtFault
      · rw [hrun]
        exact .stopsAtLoss hloss

/-- A computation that has no stop in it. -/
theorem lift {y : Exec ε α} (havoids : Avoids e y) (hensures : Ensures y P) :
    Guards e P L (liftM y) y := by
  intro o
  have hlift : (liftM y : OptionT (Exec ε) α).run o = (y >>= fun a => Pure.pure (some a)) o := rfl
  rw [hlift]
  cases hrun : y o with
  | error e' =>
      rw [bind_of_error hrun]
      exact .faults fun heq => avoids_iff.mp havoids o (heq ▸ hrun)
  | ok r =>
      rw [bind_of_ok hrun]
      exact .returns (ensures_iff.mp hensures o r.1 r.2 hrun)

/-- A first step that has no stop in it. -/
theorem lift_bind {z : Exec ε α} {f : α → OptionT (Exec ε) β} {g : α → Exec ε β}
    (havoids : Avoids e z) (hensures : Ensures z P) (hf : ∀ a, P a → Guards e Q M (f a) (g a)) :
    Guards e Q M (liftM z >>= f) (z >>= g) :=
  (lift (L := fun _ => False) havoids hensures).bind hf fun _ h => h.elim

/-- A request for memory, granted or not. -/
theorem allocFor_bind {a : α} {f : Option α → OptionT (Exec ε) β} {g : Option α → Exec ε β}
    (hf : ∀ r, Guards e Q M (f r) (g r)) :
    Guards e Q M (liftM (allocFor a : Exec ε (Option α)) >>= f) (allocFor a >>= g) :=
  lift_bind (avoids_allocFor e a) (ensures_true _) fun r _ => hf r

theorem mono {x : OptionT (Exec ε) α} {y : Exec ε α} {P' L' : α → Prop} (h : Guards e P L x y)
    (hP : ∀ a, P a → P' a) (hL : ∀ a, L a → L' a) : Guards e P' L' x y := by
  intro o
  have halong := h o
  generalize x.run o = r at halong ⊢
  generalize y o = s at halong ⊢
  cases halong with
  | returns h => exact .returns (hP _ h)
  | faults h => exact .faults h
  | stopsAtFault => exact .stopsAtFault
  | stopsAtLoss h => exact .stopsAtLoss (hL _ h)

/-- A choice that is the same in both. -/
theorem ite {c : Prop} [Decidable c] {x x' : OptionT (Exec ε) α} {y y' : Exec ε α}
    (hpos : c → Guards e P L x y) (hneg : ¬c → Guards e P L x' y') :
    Guards e P L (if c then x else x') (if c then y else y') := by
  by_cases hc : c
  · rw [if_pos hc, if_pos hc]
    exact hpos hc
  · rw [if_neg hc, if_neg hc]
    exact hneg hc

/-- A computation whose result the copy inspects before it goes on. -/
theorem inspect {y : Exec ε β} {f : β → OptionT (Exec ε) β} (havoids : Avoids e y)
    (hensures : Ensures y Q) {P L : β → Prop}
    (hf : ∀ a, Q a → Guards e P L (f a) (Pure.pure a)) : Guards e P L (liftM y >>= f) y := by
  have hend : (y >>= Pure.pure) = y := by
    funext o
    rw [bind_apply]
    cases y o with
    | error e => rfl
    | ok r => rfl
  have hguards : Guards e P L (liftM y >>= f) (y >>= Pure.pure) :=
    lift_bind havoids hensures hf
  rwa [hend] at hguards

section Runs

variable {x : OptionT (Exec ε) α} {y : Exec ε α} {o o' : Supply} {a : α}

/-- What is returned where the copy does not stop. -/
theorem returns (h : Guards e P L x y) (hgoes : GoesOn x o) (hrun : y o = .ok (a, o')) : P a := by
  have halong := h o
  generalize hxo : x.run o = r at halong
  rw [hrun] at halong
  cases halong with
  | returns hP => exact hP
  | stopsAtLoss _ => exact absurd hxo (hgoes _)

/-- **The copy does not stop** exactly where the computation comes to neither the fault nor
a loss. -/
theorem goesOn_iff (h : Guards e P L x y) (hloss : ∀ a, L a → ¬ P a) :
    GoesOn x o ↔ y o ≠ .error e ∧ ∀ a o', y o = .ok (a, o') → P a := by
  constructor
  · intro hgoes
    refine ⟨fun hfault => ?_, fun a o' hrun => h.returns hgoes hrun⟩
    have halong := h o
    generalize hxo : x.run o = r at halong
    rw [hfault] at halong
    cases halong with
    | faults hne => exact hne rfl
    | stopsAtFault => exact hgoes _ hxo
  · rintro ⟨havoids, hreturns⟩ o' hstop
    have halong := h o
    generalize hyo : y o = s at halong
    rw [hstop] at halong
    cases halong with
    | stopsAtFault => exact havoids hyo
    | stopsAtLoss hL => exact hloss _ hL (hreturns _ _ hyo)

end Runs

end Guards

/-! ## Loops -/

/-- One round of a loop that may stop, as a round of a loop that ends with nothing. -/
def stoppingStep (step : σ → OptionT (Exec ε) (σ ⊕ α)) (s : σ) : Exec ε (σ ⊕ Option α) := do
  match ← (step s).run with
  | none => pure (.inr none)
  | some (.inl s') => pure (.inl s')
  | some (.inr a) => pure (.inr (some a))

/-- The loop over rounds that may stop. -/
def stoppingLoop (e : ε) (step : σ → OptionT (Exec ε) (σ ⊕ α)) (n : ℕ) (s : σ) :
    OptionT (Exec ε) α :=
  .mk (loop e (stoppingStep step) n s)

section Loop

variable {step : σ → OptionT (Exec ε) (σ ⊕ α)} {step' : σ → Exec ε (σ ⊕ α)} {e' : ε}

theorem stoppingStep_of_none {s : σ} {o o' : Supply} (h : (step s).run o = .ok (none, o')) :
    stoppingStep step s o = .ok (.inr none, o') :=
  bind_of_ok h

theorem stoppingStep_of_inl {s s' : σ} {o o' : Supply}
    (h : (step s).run o = .ok (some (.inl s'), o')) :
    stoppingStep step s o = .ok (.inl s', o') :=
  bind_of_ok h

theorem stoppingStep_of_inr {s : σ} {o o' : Supply} {a : α}
    (h : (step s).run o = .ok (some (.inr a), o')) :
    stoppingStep step s o = .ok (.inr (some a), o') :=
  bind_of_ok h

theorem stoppingStep_of_error {s : σ} {o : Supply} {e' : ε} (h : (step s).run o = .error e') :
    stoppingStep step s o = .error e' :=
  bind_of_error h

/-- **Loop rule.** A loop is guarded when its rounds are under an invariant, by a loop that
stops in the round that stops. A round with a loss has to end the loop. -/
theorem Guards.loop (Inv : σ → Prop) (hne : e' ≠ e)
    (hstep : ∀ s, Inv s →
      Guards e (Sum.elim Inv P) (Sum.elim (fun _ => False) L) (step s) (step' s))
    {n : ℕ} {s : σ} (hinv : Inv s) :
    Guards e P L (stoppingLoop e' step n s) (Exec.loop e' step' n s) := by
  induction n generalizing s with
  | zero => exact fun _ => .faults hne
  | succ n ih =>
      intro o
      have halong := hstep s hinv o
      generalize hround : (step s).run o = r at halong
      generalize hround' : step' s o = r' at halong
      have hrun : (stoppingLoop e' step (n + 1) s).run o =
        Exec.loop e' (stoppingStep step) (n + 1) s o := rfl
      rw [hrun]
      cases halong with
      | @returns next o' h =>
          cases next with
          | inl s' =>
              rw [loop_of_inl hround', loop_of_inl (stoppingStep_of_inl hround)]
              exact ih h o'
          | inr a =>
              rw [loop_of_inr hround', loop_of_inr (stoppingStep_of_inr hround)]
              exact .returns h
      | faults h =>
          rw [loop_of_error hround', loop_of_error (stoppingStep_of_error hround)]
          exact .faults h
      | stopsAtFault =>
          rw [loop_of_error hround', loop_of_inr (stoppingStep_of_none hround)]
          exact .stopsAtFault
      | @stopsAtLoss next o' o'' h =>
          cases next with
          | inl s' => exact h.elim
          | inr a =>
              rw [loop_of_inr hround', loop_of_inr (stoppingStep_of_none hround)]
              exact .stopsAtLoss h

end Loop

end Foundation.Exec
