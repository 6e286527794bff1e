/-
# Trees after failing allocations

A tree that was changed under failing allocations is still to be deleted, as `samconfLoad`
does after a load that failed. A deletion goes by the counts of the nodes. The array of a
node and its count change at different moments: `samconfConfigAdd` overwrites the array
with what the reallocation returns and raises the count only after its check, so a refusal
leaves the count of an array that is gone. On a node without children nothing is lost with
that. The runs below go on after every other refusal, and all their trees can be deleted.
-/

import Samconf.Foundation.Runs
import Samconf.Spec.Losses

namespace Samconf

open Foundation
open Exec (GoesOn Guards)

/-! ## Runs of changes -/

/-- A tree that is handed to a change. -/
abbrev HeldConfig := { config : Config // config.Held }

/-- What is done to a tree: a child for the node at a position, a node for a path, an
option, another configuration merged into it, or a document loaded in its place. -/
inductive Change
  | add (position : List ℕ) (child : HeldConfig)
  | insertAt (path : CString) (config : HeldConfig)
  | create (creation : Creation)
  | mergeConfig (configToMerge : Option HeldConfig)
  | load (backendHandle : Json) (isSigned : Bool)

namespace Change

/-- The call, with a position outside the tree as a NULL parent. A load that makes no root
leaves nothing new to delete. -/
def run (strtod : CString → Double × CString) (config : Config) :
    Change → Run (ConfigStatus × Config)
  | add position child =>
      match config.sub? position with
      | none => pure (.error, config)
      | some parent => do
          let (status, parent) ← samconfConfigAdd parent child.1
          pure (status, config.modify (fun _ => parent) position)
  | insertAt path node => samconfInsertAt config path node.1
  | create creation => creation.run strtod config
  | mergeConfig configToMerge =>
      samconfConfigMergeConfig config (configToMerge.map Subtype.val)
  | load backendHandle isSigned => do
      let (status, loaded) ← samconfJsonBackendLoad backendHandle isSigned
      pure (status, loaded.getD config)

/-- The call with a stop where an array would be lost. -/
def keeping (strtod : CString → Double × CString) (config : Config) :
    Change → OptionT Run (ConfigStatus × Config)
  | add position child =>
      match config.sub? position with
      | none => pure (.error, config)
      | some parent => do
          let (status, parent) ← Keeping.samconfConfigAdd parent child.1
          pure (status, config.modify (fun _ => parent) position)
  | insertAt path node => Keeping.samconfInsertAt config path node.1
  | create creation => Keeping.create strtod config creation
  | mergeConfig configToMerge =>
      Keeping.samconfConfigMergeConfig config (configToMerge.map Subtype.val)
  | load backendHandle isSigned => do
      let (status, loaded) ← Keeping.samconfJsonBackendLoad backendHandle isSigned
      pure (status, loaded.getD config)

end Change

/-- The runs over one tree. A step is a change and the supply it runs on. -/
def changes (strtod : CString → Double × CString) : System Config (Change × Supply) where
  initial config := config.Held
  step config call config' :=
    ∃ status o, call.1.run strtod config call.2 = .ok ((status, config'), o)

/-- No request of `samconfConfigAdd` for the array of a node that has children is refused
in the change. -/
def LosesNoArray (strtod : CString → Double × CString) (config : Config)
    (call : Change × Supply) : Prop :=
  GoesOn (call.1.keeping strtod config) call.2

/-- Every node with a count has an array with that many children, and a deletion visits all
nodes. -/
structure Deletable (config : Config) : Prop where
  arrays : ∀ p s, config.sub? p = some s → s.label.childCount ≠ 0 →
    s.children ≠ [] ∧ s.children.length = s.label.childCount
  deleted : samconfConfigDelete config = .ok .ok
  visited : recordDelete config = .ok (.ok, config.positions)

/-- What a change releases is released without a read through NULL, and what it leaves can
be deleted. -/
def LeavesDeletable (outcome : Except Fault ((ConfigStatus × Config) × Supply)) : Prop :=
  outcome ≠ .error .outOfBounds ∧
    ∀ status config o, outcome = .ok ((status, config), o) → Deletable config

variable {strtod : CString → Double × CString} {config : Config}

theorem Config.Held.deletable (h : config.Held) : Deletable config := by
  refine ⟨fun p s hs hcount => ?_, h.samconfConfigDelete_eq, h.recordDelete_eq⟩
  have hcounted : s.label.childCount = s.children.length :=
    Config.Held.childCount_eq (h.sub hs)
  exact ⟨fun hnil => hcount (by rw [hcounted, hnil, List.length_nil]), hcounted.symm⟩

theorem Config.LacksArray.not_deletable (h : config.LacksArray) : ¬ Deletable config := by
  intro hdeletable
  rw [Config.LacksArray, hdeletable.deleted] at h
  cases h

/-! ## One change -/

/-- A change that loses no array leaves a tree that holds what is counted. -/
theorem Change.run_guards (h : config.Held) (change : Change) :
    Guards .outOfBounds (fun r => r.2.Held) (fun r => r.2.LacksArray)
      (change.keeping strtod config) (change.run strtod config) := by
  cases change with
  | add position child =>
      rw [keeping, run]
      cases hs : config.sub? position with
      | none => exact Guards.pure h
      | some parent =>
          refine (samconfConfigAdd_guards (h.sub hs) child.2).bind (fun added hadded => ?_)
            fun added hlost => ?_
          · exact Guards.pure (h.replace hs hadded.1)
          · exact Exec.loses_pure (hlost.2.replace h hs)
  | insertAt path node =>
      exact (samconfInsertAt_guards h path node.2).mono (fun _ hr => hr) fun _ hr => hr.2
  | create creation =>
      exact (create_guards strtod h creation).mono (fun _ hr => hr) fun _ hr => hr.2
  | mergeConfig configToMerge =>
      refine samconfConfigMergeConfig_guards h fun c hc => ?_
      obtain ⟨merged, -, rfl⟩ := Option.map_eq_some_iff.mp hc
      exact merged.2.counted.readable
  | load backendHandle isSigned =>
      refine (samconfJsonBackendLoad_guards backendHandle isSigned).bind (fun loaded hloaded => ?_)
        fun loaded hlost => ?_
      · refine Guards.pure ?_
        rcases loaded with ⟨status, loaded⟩
        cases loaded with
        | none => exact h
        | some loaded => exact hloaded loaded rfl
      · rcases loaded with ⟨status, loaded⟩
        obtain ⟨lost, rfl, hlost⟩ := hlost
        exact Exec.loses_pure hlost

/-- **The guard is exact**: a change loses an array where it comes to a read through NULL or
leaves a tree whose deletion does. -/
theorem losesNoArray_iff (h : config.Held) (call : Change × Supply) :
    LosesNoArray strtod config call ↔ LeavesDeletable (call.1.run strtod config call.2) := by
  have hguards : Guards .outOfBounds (fun r => Deletable r.2) (fun r => r.2.LacksArray)
      (call.1.keeping strtod config) (call.1.run strtod config) :=
    (Change.run_guards h call.1).mono (fun _ hr => hr.deletable) fun _ hr => hr
  rw [LosesNoArray, hguards.goesOn_iff fun _ hlost => hlost.not_deletable]
  refine and_congr_right fun _ => ⟨fun hall status config o hrun => hall _ o hrun, ?_⟩
  exact fun hall r o hrun => hall r.1 r.2 o hrun

/-! ## Runs -/

theorem held_of_reachable (h : (changes strtod).Reachable (LosesNoArray strtod) config) :
    config.Held := by
  refine h.invariant (fun _ hinitial => hinitial) ?_
  rintro config call config' hheld hguard ⟨status, o, hrun⟩
  exact (Change.run_guards hheld call.1).returns hguard hrun

/-- **Every tree can be deleted** in every run that loses no array, whatever other
allocations fail; and the next change loses none exactly where this goes on. -/
theorem deletable_of_reachable (h : (changes strtod).Reachable (LosesNoArray strtod) config) :
    Deletable config ∧ ∀ call,
      LosesNoArray strtod config call ↔ LeavesDeletable (call.1.run strtod config call.2) :=
  ⟨(held_of_reachable h).deletable, losesNoArray_iff (held_of_reachable h)⟩

/-! ## An array that is lost -/

/-- The supply that refuses one request. -/
def refusing (n : ℕ) : Supply := fun i => decide (i ≠ n)

/-- The document `{"a": 1, "b": 2}`. -/
def twoIntegers : Json := .object [("a".toList, .int 1), ("b".toList, .int 2)]

/-- The root of a loaded document that has no children. -/
def childlessRoot : Config :=
  .node { NodeData.init with key := some "config".toList, type := .object } []

/-- The root of a loaded document that counts a child it does not have. -/
def lossyRoot : Config :=
  .node { NodeData.init with key := some "config".toList, type := .object, childCount := 1 } []

/-- The first array of a root may be refused. -/
theorem first_refusal_leaves_deletable :
    Deletable childlessRoot ∧ ∀ call, LosesNoArray noNumber childlessRoot call ↔
      LeavesDeletable (call.1.run noNumber childlessRoot call.2) := by
  refine deletable_of_reachable (.extend (.start Config.Held.init)
    (i := (.load twoIntegers false, refusing 4)) ?_ ⟨.error, _, rfl⟩)
  intro o hstop
  cases hstop

/-- The second is lost with a refusal. -/
theorem second_refusal_loses_children :
    ¬ ∀ config, (changes noNumber).Reachable System.anyStep config → Deletable config := by
  intro hall
  have hreachable : (changes noNumber).Reachable System.anyStep lossyRoot :=
    .extend (.start Config.Held.init) (i := (.load twoIntegers false, refusing 7)) trivial
      ⟨.error, _, rfl⟩
  have hlost : lossyRoot.LacksArray := rfl
  exact hlost.not_deletable (hall lossyRoot hreachable)

end Samconf
