/-
# Where arrays are lost

The functions that add children, beside their copies with a stop. Where the copy goes on,
the tree holds what is counted and no deletion on the way reads through NULL. Where it
stops, the function comes to such a read or says that it failed, and the tree it leaves
lacks an array.
-/

import Samconf.Spec.Held
import Samconf.Spec.Insert
import Samconf.Spec.Json
import Samconf.Spec.Keeping
import Samconf.Spec.NodeFaults
import Samconf.Spec.Traversal

namespace Samconf

open Foundation
open Exec (Ensures Avoids Guards Loses)
open RoseTree (relabel addChild)

/-- A call that returns a tree, beside its copy: the tree holds what is counted, or the
call fails and the tree lacks an array. -/
abbrev GuardsTree (x : OptionT Run (ConfigStatus × Config)) (y : Run (ConfigStatus × Config)) :
    Prop :=
  Guards .outOfBounds (fun r => r.2.Held) (fun r => r.1 ≠ .ok ∧ r.2.LacksArray) x y

variable {root parent child node config mergedConfig configToMerge : Config}

/-- Read through a pointer, without a NULL array in sight. -/
theorem deref_guards {α β : Type} {Q M : β → Prop} (fault : Fault) {a : Option α}
    {f : α → OptionT Run β} {g : α → Run β} (hne : fault ≠ .outOfBounds)
    (hf : ∀ b, a = some b → Guards .outOfBounds Q M (f b) (g b)) :
    Guards .outOfBounds Q M (liftM (deref fault a) >>= f) (deref fault a >>= g) :=
  Guards.lift_bind (deref_avoids hne a) (deref_ensures fault a) hf

theorem samconfConfigAdd_guards (hparent : parent.Held) (hchild : child.Held) :
    Guards .outOfBounds
      (fun r => r.2.Held ∧ (r.1 = .ok → r.2 = addChild NodeData.bump child parent))
      (fun r => r.1 ≠ .ok ∧ r.2.LacksArray)
      (Keeping.samconfConfigAdd parent child) (samconfConfigAdd parent child) := by
  refine Guards.inspect (samconfConfigAdd_avoids (by simp) parent child)
    (samconfConfigAdd_returns parent child) ?_
  rintro r (rfl | rfl)
  · exact Guards.pure ⟨hparent.addChild hchild, fun _ => rfl⟩
  · by_cases hchildren : parent.children = []
    · simp only [hchildren, ne_eq, not_true_eq_false, and_false, if_false]
      refine Guards.pure ⟨?_, fun hok => by cases hok⟩
      rwa [← hchildren, RoseTree.node_eta]
    · simp only [hchildren, ne_eq, not_false_eq_true, and_true, reduceCtorEq, if_true]
      exact Guards.failure (Exec.loses_pure ⟨by simp, hparent.lacksArray_of_refused hchildren⟩)

/-! ### Insertion -/

theorem insertSegments_guards (hconfig : config.Held) (passed rest : List CString)
    (hroot : root.Held) (position : List ℕ) (result : ConfigStatus) :
    GuardsTree (Keeping.insertSegments config passed rest root position result)
      (insertSegments config passed rest root position result) := by
  induction rest generalizing passed root position result with
  | nil => exact Guards.pure hroot
  | cons segment rest ih =>
      rw [Keeping.insertSegments, insertSegments, samconfPathGetPathUntil_eq]
      refine Guards.allocFor_bind fun pathToToken => ?_
      cases pathToToken with
      | none => exact ih _ hroot _ _
      | some pathToToken =>
          have hlookup : Avoids .outOfBounds (samconfConfigGet root (some pathToToken)) :=
            samconfConfigGet_avoids (by simp) (fun _ => hroot.counted.readable) _
          refine Guards.lift_bind hlookup (Exec.ensures_true _) fun looked _ =>
            Guards.ite (fun _ => ?_) fun _ => ?_
          · refine Guards.ite (fun _ => Guards.pure hroot) fun _ => ?_
            exact deref_guards .unset (by simp) fun existing _ => ih _ hroot _ _
          · refine Guards.ite (fun _ => Guards.pure hroot) fun _ => ?_
            refine Guards.lift_bind (makeSegment_avoids _ config segment _)
              (makeSegment_held segment _ hconfig) fun made hmade => ?_
            rcases made with ⟨result, node⟩
            cases node with
            | none => exact Guards.pure hroot
            | some node =>
                refine deref_guards .nullConfig (by simp) fun parent hsub => ?_
                refine (samconfConfigAdd_guards (hroot.sub hsub) (hmade node rfl)).bind
                  (fun added hadded => ?_) fun added hlost => ?_
                · have hroot' := hroot.replace hsub hadded.1
                  exact Guards.ite (fun _ => ih _ hroot' _ _) fun _ => Guards.pure hroot'
                · rcases added with ⟨result, parent'⟩
                  simp only [hlost.1, if_false]
                  exact Exec.loses_pure ⟨hlost.1, hlost.2.replace hroot hsub⟩

theorem samconfInsertAt_guards (hroot : root.Held) (path : CString) (hconfig : config.Held) :
    GuardsTree (Keeping.samconfInsertAt root path config) (samconfInsertAt root path config) := by
  refine Guards.lift_bind (samconfPathCreateArray_avoids _ path) (Exec.ensures_true _)
    fun array _ => ?_
  refine Guards.ite (fun _ => Guards.pure hroot) fun _ => ?_
  exact Guards.ite (fun _ => insertSegments_guards hconfig [] array.2 hroot [] array.1)
    fun _ => Guards.pure hroot

theorem createAt_guards {set : Config → Run (ConfigStatus × Config)} (hroot : root.Held)
    (path : CString) (hset : ∀ config : Config, config.Held → Avoids .outOfBounds (set config))
    (hheld : ∀ config : Config, config.Held → (set config).Ensures fun r => r.2.Held) :
    GuardsTree (Keeping.createAt set root path) (createAt set root path) := by
  refine Guards.lift_bind (samconfConfigNew_avoids _) samconfConfigNew_ensures ?_
  rintro made (rfl | rfl)
  · exact Guards.pure hroot
  · refine Guards.allocFor_bind fun copyPath => ?_
    cases copyPath with
    | none => exact Guards.pure hroot
    | some copyPath =>
        refine Guards.allocFor_bind fun key => ?_
        cases key with
        | none => exact Guards.pure hroot
        | some key =>
            have hfresh : Config.Held
                (relabel (fun d => { d with key := some key }) samconfConfigInit) :=
              Config.Held.init.relabel rfl fun hstring => by cases hstring
            refine Guards.lift_bind (hset _ hfresh) (hheld _ hfresh) fun given hgiven => ?_
            exact Guards.ite (fun _ => samconfInsertAt_guards hroot path hgiven)
              fun _ => Guards.pure hroot

theorem create_guards (strtod : CString → Double × CString) (hroot : root.Held)
    (creation : Creation) :
    GuardsTree (Keeping.create strtod root creation) (creation.run strtod root) := by
  cases creation with
  | int path value =>
      exact createAt_guards hroot path
        (fun config _ => setValue_avoids (by simp) .int (.integer value) config)
        fun _ hconfig => setValue_held (by simp) _ hconfig
  | real path value =>
      exact createAt_guards hroot path
        (fun config _ => setValue_avoids (by simp) .real (.real value) config)
        fun _ hconfig => setValue_held (by simp) _ hconfig
  | boolean path value =>
      exact createAt_guards hroot path
        (fun config _ => setValue_avoids (by simp) .boolean (.boolean value) config)
        fun _ hconfig => setValue_held (by simp) _ hconfig
  | string path value =>
      cases value with
      | none => exact Guards.pure hroot
      | some value =>
          simp only [Keeping.create, Creation.run, samconfCreateStringAt]
          exact createAt_guards hroot path
            (fun config _ => samconfConfigSetString_avoids (by simp) config (some value))
            fun _ hconfig => samconfConfigSetString_held (some value) hconfig
  | fromString path value =>
      cases value with
      | none => exact Guards.pure hroot
      | some value =>
          simp only [Keeping.create, Creation.run, samconfCreateFromStringAt]
          exact createAt_guards hroot path
            (fun config _ => samconfConfigSetValueFromString_avoids _ strtod config (some value))
            fun _ hconfig => samconfConfigSetValueFromString_held strtod (some value) hconfig

/-! ### Merging -/

/-- The merged tree of an outcome holds what is counted. -/
def NodeOutcome.Held : NodeOutcome → Prop
  | .handled mergedConfig | .stopped _ mergedConfig => mergedConfig.Held

/-- The loop is left with a merged tree that lacks an array. -/
def NodeOutcome.LacksArray : NodeOutcome → Prop
  | .handled _ => False
  | .stopped _ mergedConfig => mergedConfig.LacksArray

/-- A copy that is given up is released. -/
theorem abandon_guards (hnode : node.Held) (hmerged : mergedConfig.Held) :
    Guards .outOfBounds NodeOutcome.Held NodeOutcome.LacksArray
      (liftM (abandon node mergedConfig)) (abandon node mergedConfig) := by
  rw [abandon_eq hnode.samconfConfigDelete_eq]
  exact Guards.lift (Exec.avoids_pure _ _) (Exec.ensures_pure hmerged)

theorem mergeNode_guards (configToMerge : Config) (next : List ℕ) (hmerged : mergedConfig.Held) :
    Guards .outOfBounds NodeOutcome.Held NodeOutcome.LacksArray
      (Keeping.mergeNode configToMerge next mergedConfig)
      (mergeNode configToMerge next mergedConfig) := by
  refine Guards.lift_bind (samconfConfigNew_avoids _) samconfConfigNew_ensures ?_
  rintro made (rfl | rfl)
  · exact Guards.pure hmerged
  · refine deref_guards .nullConfig (by simp) fun nextConfig _ => ?_
    refine Guards.lift_bind (samconfConfigCopyConfig_avoids (by simp) (by simp) nextConfig _)
      (samconfConfigCopyConfig_held nextConfig) fun copied hnode => ?_
    refine Guards.ite (fun _ => abandon_guards hnode hmerged) fun _ => ?_
    have hpath := nodePath_ne (e := .outOfBounds) (by simp) (by simp) (by simp) configToMerge next
    refine Guards.lift_bind (samconfPathGetPath_avoids hpath) (Exec.ensures_true _)
      fun found _ => Guards.ite (fun _ => abandon_guards hnode hmerged) fun _ => ?_
    have hlookup : Avoids .outOfBounds (samconfConfigGet mergedConfig found.2) :=
      samconfConfigGet_avoids (by simp) (fun _ => hmerged.counted.readable) found.2
    refine Guards.lift_bind hlookup (Exec.ensures_true _) fun looked _ =>
      Guards.ite (fun _ => ?_) fun _ => ?_
    · refine (samconfInsertAt_guards hmerged _ hnode).bind (fun inserted hinserted => ?_)
        fun inserted hlost => ?_
      · exact Guards.ite (fun _ => abandon_guards hnode hinserted) fun _ => Guards.pure hinserted
      · rcases inserted with ⟨status, merged⟩
        simp only [hlost.1, ne_eq, not_false_eq_true, if_true,
          abandon_eq hnode.samconfConfigDelete_eq]
        exact Exec.loses_pure hlost.2
    · refine Guards.ite (fun _ => ?_) fun _ => abandon_guards hnode hmerged
      rcases looked with ⟨status, nodeInMerge⟩
      cases nodeInMerge with
      | none => exact abandon_guards hnode hmerged
      | some position =>
          refine deref_guards .nullConfig (by simp) fun target hsub => ?_
          refine Guards.lift_bind (samconfCopyConfigValue_avoids (by simp) copied.2 target)
            (samconfCopyConfigValue_held copied.2 (hmerged.sub hsub)) fun written hwritten => ?_
          have hmerged' := hmerged.replace hsub hwritten
          refine Guards.ite (fun _ => abandon_guards hnode hmerged') fun _ => ?_
          rw [hnode.samconfConfigDelete_eq]
          exact Guards.lift_bind (Exec.avoids_pure _ _) (Exec.ensures_true _) fun status _ =>
            Guards.ite (fun _ => Guards.pure hmerged') fun _ => Guards.pure hmerged'

theorem mergeStep_guards (hreadable : configToMerge.Readable) {state : MergeState}
    (hmerged : state.mergedConfig.Held) :
    Guards .outOfBounds
      (Sum.elim (fun s => s.mergedConfig.Held) fun outcome => outcome.mergedConfig.Held)
      (Sum.elim (fun _ => False) fun outcome => outcome.mergedConfig.LacksArray)
      (Keeping.mergeStep configToMerge state) (mergeStep configToMerge state) := by
  refine Guards.lift_bind (Exec.avoids_lift (samconfConfigNext_ne hreadable state.configToFind))
    (Exec.ensures_true _) fun found _ => ?_
  rcases found with ⟨status, nextConfig⟩
  cases nextConfig with
  | none =>
      refine Guards.pure ?_
      change Config.Held (ite _ _ _)
      split
      · exact hmerged.relabel rfl hmerged.lawful
      · exact hmerged
  | some next =>
      refine (mergeNode_guards configToMerge next hmerged).bind (fun outcome houtcome => ?_)
        fun outcome hlost => ?_
      · cases outcome with
        | handled mergedConfig => exact Guards.pure houtcome
        | stopped result mergedConfig => exact Guards.pure houtcome
      · cases outcome with
        | handled mergedConfig => exact hlost.elim
        | stopped result mergedConfig => exact Exec.loses_pure hlost

/-- A merge that lost an array may still say OK. -/
theorem samconfConfigMergeConfig_guards (hmerged : mergedConfig.Held)
    {configToMerge : Option Config} (hreadable : ∀ config ∈ configToMerge, config.Readable) :
    Guards .outOfBounds (fun r => r.2.Held) (fun r => r.2.LacksArray)
      (Keeping.samconfConfigMergeConfig mergedConfig configToMerge)
      (samconfConfigMergeConfig mergedConfig configToMerge) := by
  cases configToMerge with
  | none => exact Guards.pure hmerged
  | some configToMerge =>
      rw [Keeping.samconfConfigMergeConfig, samconfConfigMergeConfig, mergeConfig]
      split
      · refine Guards.bind ?_ (fun outcome houtcome => Guards.pure houtcome)
          fun outcome hlost => Exec.loses_pure hlost
        exact Guards.loop (fun state => state.mergedConfig.Held) (by simp)
          (fun state hstate => mergeStep_guards (hreadable configToMerge rfl) hstate) hmerged
      · exact Guards.pure hmerged

/-! ### Loading a document -/

/-- A child that was not linked is released. -/
theorem dropChild_eq (hchild : child.Held) (result : ConfigStatus) (config : Config) :
    dropChild child result config = pure (result, config) := by
  rw [dropChild, hchild.samconfConfigDelete_eq, Exec.lift_ok_bind]

theorem dropChild_guards (result : ConfigStatus) (hchild : child.Held) (hconfig : config.Held) :
    GuardsTree (liftM (dropChild child result config)) (dropChild child result config) := by
  rw [dropChild_eq hchild]
  exact Guards.lift (Exec.avoids_pure _ _) (Exec.ensures_pure hconfig)

/-- The release of a child that lacks an array reads through NULL. -/
theorem loses_of_lost_child {L : ConfigStatus × Config → Prop} {loaded : ConfigStatus × Config}
    {otherwise : Run (ConfigStatus × Config)} (h : loaded.1 ≠ .ok ∧ loaded.2.LacksArray) :
    Loses .outOfBounds L
      (if loaded.1 ≠ .ok then dropChild loaded.2 loaded.1 config else otherwise) := by
  have hdelete : samconfConfigDelete loaded.2 = .error .outOfBounds := h.2
  rw [if_pos h.1, dropChild, hdelete]
  exact Exec.loses_fault _

/-- A node that lost its children is handed back without them. -/
theorem loses_of_lost_parent {added : ConfigStatus × Config}
    {otherwise : Run (ConfigStatus × Config)} (hchild : child.Held)
    (h : added.1 ≠ .ok ∧ added.2.LacksArray) :
    Loses .outOfBounds (fun r => r.1 ≠ .ok ∧ r.2.LacksArray)
      (if added.1 ≠ .ok then dropChild child added.1 added.2 else otherwise) := by
  rw [if_pos h.1, dropChild_eq hchild]
  exact Exec.loses_pure h

/-- A document is loaded into a node without going past an array where the copy goes on. -/
def LoadGuards (isSigned : Bool) (json : Json) : Prop :=
  ∀ config : Config, config.Held → GuardsTree (Keeping.transformJsonToConfig isSigned json config)
    (transformJsonToConfig isSigned json config)

theorem transformEntries_guards {isSigned : Bool} {entries : List (CString × Json)}
    (hloads : ∀ e ∈ entries, LoadGuards isSigned e.2) (hconfig : config.Held) :
    GuardsTree (Keeping.transformEntries isSigned entries config)
      (transformEntries isSigned entries config) := by
  induction entries generalizing config with
  | nil => exact Guards.pure hconfig
  | cons e entries ih =>
      rcases e with ⟨key, newJobj⟩
      rw [Keeping.transformEntries, transformEntries]
      refine Guards.ite (fun _ => Guards.pure hconfig) fun _ => ?_
      refine Guards.lift_bind (samconfConfigNew_avoids _) samconfConfigNew_ensures ?_
      rintro made (rfl | rfl)
      · exact Guards.pure hconfig
      · refine Guards.allocFor_bind fun copy => ?_
        have hfresh : Config.Held (relabel (fun d => { d with key := copy }) samconfConfigInit) :=
          Config.Held.init.relabel rfl fun hstring => by cases hstring
        refine (hloads _ List.mem_cons_self _ hfresh).bind (fun loaded hsub => ?_)
          fun loaded hlost => loses_of_lost_child hlost
        refine Guards.ite (fun _ => dropChild_guards loaded.1 hsub hconfig) fun _ => ?_
        refine (samconfConfigAdd_guards hconfig hsub).bind (fun added hadded => ?_)
          fun added hlost => loses_of_lost_parent hsub hlost
        refine Guards.ite (fun _ => dropChild_guards added.1 hsub hadded.1) fun _ => ?_
        exact ih (fun e he => hloads e (List.mem_cons_of_mem _ he)) hadded.1

theorem transformElements_guards {isSigned : Bool} {elements : List Json} (idx : ℕ)
    (hloads : ∀ element ∈ elements, LoadGuards isSigned element) (hconfig : config.Held) :
    GuardsTree (Keeping.transformElements isSigned idx elements config)
      (transformElements isSigned idx elements config) := by
  induction elements generalizing idx config with
  | nil => exact Guards.pure hconfig
  | cons newJobj elements ih =>
      rw [Keeping.transformElements, transformElements]
      refine Guards.ite (fun _ => Guards.pure hconfig) fun _ => ?_
      refine Guards.lift_bind (samconfConfigNew_avoids _) samconfConfigNew_ensures ?_
      rintro made (rfl | rfl)
      · exact Guards.pure hconfig
      · refine (hloads _ List.mem_cons_self _ Config.Held.init).bind (fun loaded hsub => ?_)
          fun loaded hlost => loses_of_lost_child hlost
        refine Guards.ite (fun _ => dropChild_guards loaded.1 hsub hconfig) fun _ => ?_
        refine (samconfConfigAdd_guards hconfig hsub).bind (fun added hadded => ?_)
          fun added hlost => loses_of_lost_parent hsub hlost
        refine Guards.ite (fun _ => dropChild_guards added.1 hsub hadded.1) fun hok => ?_
        refine Guards.allocFor_bind fun copy => ?_
        refine deref_guards .nullString (by simp) fun key _ => ?_
        -- the child gets its key where it is linked
        rw [hadded.2 (not_not.mp hok), RoseTree.modify_addChild_last]
        exact ih (idx + 1) (fun e he => hloads e (List.mem_cons_of_mem _ he))
          (hconfig.addChild (hsub.relabel rfl hsub.lawful))

/-- **Loading** a document goes past an array only where the copy stops. -/
theorem loadGuards (isSigned : Bool) (json : Json) : LoadGuards isSigned json := by
  induction json using Json.induct with
  | step json ih =>
      intro config hconfig
      have hmarked : Config.Held (relabel (fun d => { d with isSigned := isSigned }) config) :=
        hconfig.relabel rfl hconfig.lawful
      cases json with
      | null => exact Guards.pure hmarked
      | object entries =>
          exact transformEntries_guards (fun e he => ih e he)
            (hconfig.relabel rfl fun hstring => by cases hstring)
      | array elements =>
          exact transformElements_guards 0 (Json.forall_elements ih)
            (hconfig.relabel rfl fun hstring => by cases hstring)
      | string value =>
          exact Guards.lift (samconfConfigSetString_avoids (by simp) _ _)
            (samconfConfigSetString_held _ hmarked)
      | int value =>
          exact Guards.lift (setValue_avoids (by simp) _ _ _) (setValue_held (by simp) _ hmarked)
      | boolean value =>
          exact Guards.lift (setValue_avoids (by simp) _ _ _) (setValue_held (by simp) _ hmarked)
      | double value =>
          exact Guards.lift (setValue_avoids (by simp) _ _ _) (setValue_held (by simp) _ hmarked)

theorem samconfJsonBackendLoad_guards (json : Json) (isSigned : Bool) :
    Guards .outOfBounds (fun r => ∀ config ∈ r.2, config.Held)
      (fun r => ∃ config ∈ r.2, config.LacksArray)
      (Keeping.samconfJsonBackendLoad json isSigned) (samconfJsonBackendLoad json isSigned) := by
  refine Guards.lift_bind (samconfConfigNew_avoids _) samconfConfigNew_ensures ?_
  rintro made (rfl | rfl)
  · exact Guards.pure (by simp)
  · refine Guards.allocFor_bind fun key => ?_
    have hfresh : Config.Held
        (relabel (fun d => { d with type := .object, key := key }) samconfConfigInit) :=
      Config.Held.init.relabel rfl fun hstring => by cases hstring
    refine (loadGuards isSigned json _ hfresh).bind (fun loaded hloaded => Guards.pure ?_)
      fun loaded hlost => Exec.loses_pure ⟨loaded.2, rfl, hlost.2⟩
    rintro config ⟨⟩
    exact hloaded

end Samconf
