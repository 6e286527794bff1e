/-
# Services and their specifications

A service takes requests one after the other, gives each a reply and goes on in a new
state. Its specification does the same on states of its own and without asking for
memory. When every single request is served as specified, from related states to
related states, the replies of whole runs are those of the specification.
-/

import Samconf.Foundation.Exec

namespace Foundation

namespace Exec

variable {ε σ τ ι ω : Type}

/-- Serve requests one after the other. -/
def serveAll (serve : σ → ι → Exec ε (ω × σ)) : List ι → σ → Exec ε (List ω × σ)
  | [], s => pure ([], s)
  | i :: is, s => do
      let (reply, s) ← serve s i
      let (replies, s) ← serveAll serve is s
      pure (reply :: replies, s)

/-- The replies that a specification gives, and its last state. -/
def answerAll (answer : τ → ι → ω × τ) : List ι → τ → List ω × τ
  | [], t => ([], t)
  | i :: is, t =>
      ((answer t i).1 :: (answerAll answer is (answer t i).2).1,
        (answerAll answer is (answer t i).2).2)

/-- Requests that pass the guard are served as specified, without failing allocations
and from related states to related states. -/
def Implements (serve : σ → ι → Exec ε (ω × σ)) (answer : τ → ι → ω × τ) (guard : ι → Prop)
    (R : σ → τ → Prop) : Prop :=
  ∀ s t i, R s t → guard i →
    ∃ s', Yields (serve s i) ((answer t i).1, s') ∧ R s' (answer t i).2

variable {serve : σ → ι → Exec ε (ω × σ)} {answer : τ → ι → ω × τ} {guard : ι → Prop}
  {R : σ → τ → Prop}

/-- **Whole runs** are served as specified. -/
theorem Implements.serveAll (h : Implements serve answer guard R) {is : List ι}
    (hguard : ∀ i ∈ is, guard i) {s : σ} {t : τ} (hR : R s t) :
    ∃ s', Yields (Exec.serveAll serve is s) ((answerAll answer is t).1, s') ∧
      R s' (answerAll answer is t).2 := by
  induction is generalizing s t with
  | nil => exact ⟨s, yields_pure _, hR⟩
  | cons i is ih =>
      obtain ⟨s', hserved, hrelated⟩ := h s t i hR (hguard i List.mem_cons_self)
      obtain ⟨s'', hrest, hlast⟩ := ih (fun j hj => hguard j (List.mem_cons_of_mem i hj)) hrelated
      refine ⟨s'', ?_, hlast⟩
      rw [Exec.serveAll]
      apply hserved.bind
      apply hrest.bind
      exact yields_pure _

end Exec

end Foundation
