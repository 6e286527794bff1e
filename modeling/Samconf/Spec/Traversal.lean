/-
# The status of a traversal

Of the calls that `_findNextConfigAtLevel` makes for the children of a node only the
last one decides the status, and once a node is stored every further call answers
ERROR. So the status tells how many subtrees are still ahead when the node to find is
met: none, the one whose top is stored, or more.
-/

import Samconf.Spec.Lookup

namespace Samconf

open Foundation
open RoseTree (positions positionsFrom)

/-- The status for the number of subtrees ahead. -/
def statusAhead : ℕ → ConfigStatus
  | 0 => .notFound
  | 1 => .ok
  | _ => .error

@[simp]
theorem statusAhead_eq_notFound {n : ℕ} : statusAhead n = .notFound ↔ n = 0 := by
  match n with
  | 0 => simp [statusAhead]
  | 1 => simp [statusAhead]
  | n + 2 => simp [statusAhead]

@[simp]
theorem statusAhead_eq_ok {n : ℕ} : statusAhead n = .ok ↔ n = 1 := by
  match n with
  | 0 => simp [statusAhead]
  | 1 => simp [statusAhead]
  | n + 2 => simp [statusAhead]

theorem statusAhead_of_two_le {n : ℕ} (h : 2 ≤ n) : statusAhead n = .error := by
  obtain ⟨m, rfl⟩ := Nat.exists_eq_add_of_le' h
  rfl

section Search

variable {configToFind here : List ℕ} {cs : List Config} {i : ℕ} {state : NextState}

/-- With a node stored every call answers ERROR. -/
theorem findNextConfigAtLevel_of_isSome (config : Config) (found : Bool)
    {nextConfig : Option (List ℕ)} (h : nextConfig.isSome) :
    findNextConfigAtLevel configToFind config here found nextConfig =
      .ok ⟨.error, found, nextConfig⟩ := by
  cases config
  simp [findNextConfigAtLevel, h]

/-- The first call after the node was found stores its own. -/
theorem findNextConfigAtLevel_of_found (config : Config) :
    findNextConfigAtLevel configToFind config here true none = .ok ⟨.ok, true, some here⟩ := by
  cases config
  simp [findNextConfigAtLevel]

theorem findNextInChildren_cons {c : Config} {state' : NextState}
    (h : findNextConfigAtLevel configToFind c (here ++ [i]) state.found state.nextConfig =
      .ok state') :
    findNextInChildren configToFind (c :: cs) i (c :: cs).length here state =
      findNextInChildren configToFind cs (i + 1) cs.length here state' := by
  rw [List.length_cons, findNextInChildren, h]
  rfl

/-- What the calls that come after the answer leave of it. -/
theorem findNextInChildren_of_isSome (h : state.nextConfig.isSome) :
    findNextInChildren configToFind cs i cs.length here state =
      .ok ⟨if cs = [] then state.result else .error, state.found, state.nextConfig⟩ := by
  induction cs generalizing i state with
  | nil => rfl
  | cons c cs ih =>
      rw [findNextInChildren_cons (findNextConfigAtLevel_of_isSome c state.found h)]
      have hrest := @ih (i + 1) ⟨.error, state.found, state.nextConfig⟩ h
      rw [hrest]
      simp

/-- After the node was found, the first subtree ahead is stored, and any other spoils
the status. -/
theorem findNextInChildren_of_found (hfound : state.found = true)
    (hnext : state.nextConfig = none) :
    findNextInChildren configToFind cs i cs.length here state =
      .ok ⟨if cs = [] then state.result else statusAhead cs.length, true,
        if cs = [] then none else some (here ++ [i])⟩ := by
  cases cs with
  | nil =>
      rw [if_pos rfl, if_pos rfl, ← hfound, ← hnext]
      rfl
  | cons c cs =>
      have hfirst : findNextConfigAtLevel configToFind c (here ++ [i]) state.found
          state.nextConfig = .ok ⟨.ok, true, some (here ++ [i])⟩ := by
        rw [hfound, hnext, findNextConfigAtLevel_of_found]
      rw [findNextInChildren_cons hfirst, findNextInChildren_of_isSome rfl]
      cases cs with
      | nil => rfl
      | cons c' cs => rfl

/-- Subtrees without the node to find change nothing. -/
theorem findNextInChildren_of_absent
    (h : ∀ j c, cs[j]? = some c →
      findNextConfigAtLevel configToFind c (here ++ [i + j]) false none =
        .ok ⟨.notFound, false, none⟩) :
    findNextInChildren configToFind cs i cs.length here ⟨.notFound, false, none⟩ =
      .ok ⟨.notFound, false, none⟩ := by
  induction cs generalizing i with
  | nil => rfl
  | cons c cs ih =>
      rw [findNextInChildren_cons (h 0 c rfl)]
      apply ih
      intro j d hd
      rw [Nat.add_right_comm]
      exact h (j + 1) d hd

/-- The subtrees to the right of the one with the node to find are ahead as well. -/
theorem findNextInChildren_of_child {j n : ℕ} {c : Config} {next : Option (List ℕ)}
    (hc : cs[j]? = some c)
    (hbefore : ∀ k < j, ∀ d, cs[k]? = some d →
      findNextConfigAtLevel configToFind d (here ++ [i + k]) false none =
        .ok ⟨.notFound, false, none⟩)
    (hchild : findNextConfigAtLevel configToFind c (here ++ [i + j]) false none =
      .ok ⟨statusAhead n, true, next⟩)
    (hnext : next = none ↔ n = 0) :
    ∃ next', findNextInChildren configToFind cs i cs.length here ⟨.notFound, false, none⟩ =
      .ok ⟨statusAhead (n + (cs.length - (j + 1))), true, next'⟩ ∧
        (next' = none ↔ n + (cs.length - (j + 1)) = 0) := by
  induction cs generalizing i j with
  | nil => simp at hc
  | cons d cs ih =>
      cases j with
      | zero =>
          obtain rfl : d = c := by simpa using hc
          rw [findNextInChildren_cons hchild]
          cases next with
          | none =>
              obtain rfl : n = 0 := hnext.mp rfl
              rw [findNextInChildren_of_found rfl rfl]
              cases cs with
              | nil => exact ⟨none, rfl, by simp⟩
              | cons c' cs => exact ⟨some (here ++ [i + 1]), by simp, by simp⟩
          | some q =>
              rw [findNextInChildren_of_isSome rfl]
              have hpos : n ≠ 0 := fun h => by cases hnext.mpr h
              refine ⟨some q, ?_, by simp [hpos]⟩
              cases cs with
              | nil => rfl
              | cons c' cs =>
                  have hmore : 2 ≤ n + ((d :: c' :: cs).length - (0 + 1)) := by
                    rw [List.length_cons, List.length_cons]
                    omega
                  rw [statusAhead_of_two_le hmore]
                  rfl
      | succ j =>
          rw [findNextInChildren_cons (hbefore 0 (Nat.succ_pos j) d rfl)]
          have hshift (k : ℕ) : i + 1 + k = i + (k + 1) := by omega
          have hrest := @ih (i + 1) j (by simpa using hc)
            (fun k hk e he => by
              rw [hshift]
              exact hbefore (k + 1) (by omega) e (by simpa using he))
            (by rw [hshift]; exact hchild)
          simpa using hrest

/-- The search at a node goes through the children. -/
theorem findNextConfigAtLevel_node {config : Config} (hreadable : config.Readable) :
    findNextConfigAtLevel configToFind config here false none =
      findNextInChildren configToFind config.children 0 config.children.length here
        ⟨.notFound, decide (here = configToFind), none⟩ := by
  cases config with
  | node d children =>
      by_cases hempty : children = []
      · subst hempty
        simp [findNextConfigAtLevel, findNextInChildren]
      · have hcount : d.childCount = children.length := by
          simpa using hreadable.self (by simpa using hempty)
        simp [findNextConfigAtLevel, hempty, hcount]

theorem findNextConfigAtLevel_of_absent {config : Config} (hreadable : config.Readable)
    (h : ∀ q ∈ config.positions, here ++ q ≠ configToFind) :
    findNextConfigAtLevel configToFind config here false none =
      .ok ⟨.notFound, false, none⟩ := by
  induction config using RoseTree.induct generalizing here with
  | node d children ih =>
      have hself : here ≠ configToFind := by
        simpa using h [] (by simp [RoseTree.positions_eq])
      rw [findNextConfigAtLevel_node hreadable, decide_eq_false hself]
      apply findNextInChildren_of_absent
      intro j c hc
      have hmem := List.mem_of_getElem? hc
      apply ih c hmem (hreadable.child hmem)
      intro q hq
      obtain ⟨s, hs⟩ := RoseTree.mem_positions.mp hq
      simpa using h (j :: q) (RoseTree.mem_positions.mpr ⟨s, by
        have hc' : children[j]? = some c := hc
        simp [hc', hs]⟩)

/-- **The status** counts the subtrees ahead of the node to find. -/
theorem findNextConfigAtLevel_of_mem {config : Config} {q : List ℕ}
    (hreadable : config.Readable) (hq : q ∈ config.positions)
    (heq : configToFind = here ++ q) :
    ∃ next, findNextConfigAtLevel configToFind config here false none =
      .ok ⟨statusAhead (config.subtreesAhead q), true, next⟩ ∧
        (next = none ↔ config.subtreesAhead q = 0) := by
  subst heq
  induction q generalizing config here with
  | nil =>
      rw [findNextConfigAtLevel_node hreadable, List.append_nil, decide_eq_true rfl,
        findNextInChildren_of_found rfl rfl, RoseTree.subtreesAhead_nil]
      cases config.children with
      | nil => exact ⟨none, rfl, by simp⟩
      | cons c cs => exact ⟨some (here ++ [0]), by simp, by simp⟩
  | cons j q ih =>
      obtain ⟨s, hs⟩ := RoseTree.mem_positions.mp hq
      rw [RoseTree.sub?_cons] at hs
      obtain ⟨c, hc, hs⟩ := Option.bind_eq_some_iff.mp hs
      have hmem := List.mem_of_getElem? hc
      obtain ⟨next, hchild, hnext⟩ := @ih (here ++ [j]) c (hreadable.child hmem)
        (RoseTree.mem_positions.mpr ⟨s, hs⟩)
      have hself : here ≠ here ++ j :: q := by simp
      rw [findNextConfigAtLevel_node hreadable, decide_eq_false hself,
        RoseTree.subtreesAhead_cons, hc, Option.elim_some]
      refine findNextInChildren_of_child hc ?_ (by simpa using hchild) hnext
      intro k hk d hd
      apply findNextConfigAtLevel_of_absent (hreadable.child (List.mem_of_getElem? hd))
      intro r _ hsame
      rw [Nat.zero_add, List.append_assoc] at hsame
      have hindex : k = j := (List.cons.inj (List.append_cancel_left hsame)).1
      omega

end Search

/-- Without the node to find, NOT_FOUND comes without a node. -/
theorem samconfConfigNext_of_absent {root : Config} {configToFind : List ℕ}
    (hreadable : root.Readable) (h : configToFind ∉ root.positions) :
    samconfConfigNext root configToFind = .ok (.notFound, none) := by
  rw [samconfConfigNext, findNextConfigAtLevel_of_absent hreadable]
  · rfl
  · rintro q hq rfl
    exact h hq

theorem samconfConfigNext_of_mem {root : Config} {configToFind : List ℕ}
    (hreadable : root.Readable) (h : configToFind ∈ root.positions) :
    ∃ next, samconfConfigNext root configToFind =
      .ok (statusAhead (root.subtreesAhead configToFind), next) ∧
        (next = none ↔ root.subtreesAhead configToFind = 0) := by
  obtain ⟨next, hfind, hnext⟩ :=
    findNextConfigAtLevel_of_mem hreadable h (List.nil_append configToFind).symm
  refine ⟨next, ?_, hnext⟩
  rw [samconfConfigNext, hfind]
  rfl

/-- A traversal of a readable tree does not fault. -/
theorem samconfConfigNext_ne {e : Fault} {root : Config} (hreadable : root.Readable)
    (configToFind : List ℕ) :
    samconfConfigNext root configToFind ≠ .error e := by
  by_cases hmem : configToFind ∈ root.positions
  · obtain ⟨next, hnext, -⟩ := samconfConfigNext_of_mem hreadable hmem
    simp [hnext]
  · simp [samconfConfigNext_of_absent hreadable hmem]

end Samconf
