/-
# Runs of a labelled system

A system begins in one of its initial states and takes labelled steps. A guard
says which steps a run may take in which states; the states that runs under a
guard come to are the reachable ones. What holds initially and is kept by every
guarded step holds of all of them.
-/

namespace Foundation

universe u v

/-- A system with states in `σ` and labels in `ι`. -/
structure System (σ : Type u) (ι : Type v) where
  /-- Where a run may begin. -/
  initial : σ → Prop
  /-- The step with a label from one state to another. -/
  step : σ → ι → σ → Prop

namespace System

variable {σ : Type u} {ι : Type v} {S : System σ ι} {guard : σ → ι → Prop}

/-- The states of the runs all of whose steps pass the guard. -/
inductive Reachable (S : System σ ι) (guard : σ → ι → Prop) : σ → Prop
  | start {s : σ} (h : S.initial s) : Reachable S guard s
  | extend {s s' : σ} {i : ι} (prior : Reachable S guard s) (hguard : guard s i)
      (h : S.step s i s') : Reachable S guard s'

/-- The guard of the runs without restriction. -/
def anyStep : σ → ι → Prop := fun _ _ => True

/-- **Invariants.** -/
theorem Reachable.invariant {Inv : σ → Prop} (hinitial : ∀ s, S.initial s → Inv s)
    (hstep : ∀ s i s', Inv s → guard s i → S.step s i s' → Inv s') {s : σ}
    (h : S.Reachable guard s) : Inv s := by
  induction h with
  | start h => exact hinitial _ h
  | extend _ hguard h ih => exact hstep _ _ _ ih hguard h

end System

end Foundation
