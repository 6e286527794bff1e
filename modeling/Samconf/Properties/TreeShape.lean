/-
# The shape of every tree that comes about

Trees come about by making a root, by loading a document or the environment, and
then by creating options in them and merging one into another, in any order and
with as many trees as one likes. No operation looks at the type of the node that
it hangs a new one under, and none looks for children before it writes a value.
The shape holds in every run that never makes use of either; then a dump has all
that is found.
-/

import Samconf.Foundation.Runs
import Samconf.Spec.Dump
import Samconf.Spec.Find
import Samconf.Spec.Growth

namespace Samconf

open Foundation
open Exec (Yields)

/-! ## Runs over trees -/

/-- What is done to the trees there are. Trees are named by their place. -/
inductive Operation
  | makeRoot
  | loadJson (json : Json) (isSigned : Bool)
  | loadEnv (environ : List CString) (uri : Uri) (isSigned : Bool)
  | create (i : ℕ) (creation : Creation)
  | merge (i j : ℕ)

/-- One operation on a supply. Loads and merges are those that return OK. -/
inductive Operates (strtod : CString → Double × CString) (o : Supply) :
    List Config → Operation → List Config → Prop
  | makeRoot (trees : List Config) : Operates strtod o trees .makeRoot (trees ++ [freshRoot])
  | loadJson {trees : List Config} {json : Json} {isSigned : Bool} {config : Config}
      {o' : Supply} (hunique : json.UniqueKeys)
      (h : samconfJsonBackendLoad json isSigned o = .ok ((.ok, some config), o')) :
      Operates strtod o trees (.loadJson json isSigned) (trees ++ [config])
  | loadEnv {trees : List Config} {environ : List CString} {uri : Uri} {isSigned : Bool}
      {config : Config} {o' : Supply}
      (h : samconfEnvBackendLoad strtod environ uri isSigned o = .ok ((.ok, some config), o')) :
      Operates strtod o trees (.loadEnv environ uri isSigned) (trees ++ [config])
  | create {trees : List Config} {i : ℕ} {creation : Creation} {root root' : Config}
      {status : ConfigStatus} {o' : Supply} (hroot : trees[i]? = some root)
      (h : creation.run strtod root o = .ok ((status, root'), o')) :
      Operates strtod o trees (.create i creation) (trees.set i root')
  | merge {trees : List Config} {i j : ℕ} {mergedConfig configToMerge result : Config}
      {o' : Supply} (hne : i ≠ j) (hmerged : trees[i]? = some mergedConfig)
      (hmerge : trees[j]? = some configToMerge)
      (h : samconfConfigMergeConfig mergedConfig (some configToMerge) o =
        .ok ((.ok, result), o')) :
      Operates strtod o trees (.merge i j) (trees.set i result)

/-- The runs that begin without a tree. A step is an operation and the supply it
runs on. -/
def treeSystem (strtod : CString → Double × CString) :
    System (List Config) (Operation × Supply) where
  initial trees := trees = []
  step trees call trees' := Operates strtod call.2 trees call.1 trees'

/-- The operation grows trees in shape: variables nest, a new option has a place
that takes it, and a merge in shape is of a tree whose options are named by paths
below `root`. -/
def GrowsTreesInShape (trees : List Config) : Operation → Prop
  | .makeRoot => True
  | .loadJson _ _ => True
  | .loadEnv environ uri _ =>
      ∀ filter, (samconfUriGetParameter uri "envPrefix".toList).Yields (.ok, some filter) →
        VariablesNest (environ.filter (Matches filter))
  | .create i creation =>
      ∀ root, trees[i]? = some root →
        GrowsInShape (Config.setting root) (pathSegments creation.path)
  | .merge i j =>
      ∀ mergedConfig configToMerge, trees[i]? = some mergedConfig →
        trees[j]? = some configToMerge → Config.PathKeyed configToMerge ∧
          Config.RootPlaced configToMerge ∧ MergesInShape mergedConfig configToMerge

/-- No allocation fails, and the operation grows trees in shape. -/
def StaysInShape (trees : List Config) (call : Operation × Supply) : Prop :=
  call.2 = plenty ∧ GrowsTreesInShape trees call.1

/-- A dump has, under every path that `samconfConfigGet` finds a node by, the dump of
that node. -/
def DumpsFound (config : Config) : Prop :=
  ∃ json, (samconfDumpJsonConfig config).Yields json ∧
    ∀ path p s, (samconfConfigGet config (some path)).Yields (.ok, some p) →
      config.sub? p = some s →
      ∃ value, json.find (pathSegments path) = some value ∧
        (samconfDumpJsonConfig s).Yields value

/-! ## What every run keeps -/

/-- The dump of an intact tree has all that is found in it. -/
theorem Config.Intact.dumpsFound {config : Config} (h : config.Intact) : DumpsFound config := by
  refine ⟨config.toJson, samconfDumpJsonConfig_yields h, fun path p s hfound hs => ?_⟩
  have hresolve := resolve_of_found h.toSound hfound
  have hlookup := RoseTree.lookup_eq_some_iff.mpr ⟨p, hresolve, hs⟩
  exact ⟨Config.toJson s, find_toJson h hlookup, samconfDumpJsonConfig_yields (h.sub hs)⟩

/-- One operation in shape keeps all trees intact. -/
theorem intact_of_operates {strtod : CString → Double × CString} {trees trees' : List Config}
    {operation : Operation} (hintact : ∀ config ∈ trees, Config.Intact config)
    (hguard : GrowsTreesInShape trees operation)
    (hstep : Operates strtod plenty trees operation trees') :
    ∀ config ∈ trees', Config.Intact config := by
  have hset {i : ℕ} {tree : Config} (htree : tree.Intact) :
      ∀ config ∈ trees.set i tree, Config.Intact config := fun config hconfig =>
    (List.mem_or_eq_of_mem_set hconfig).elim (hintact config) fun heq => heq ▸ htree
  have hadd {tree : Config} (htree : tree.Intact) :
      ∀ config ∈ trees ++ [tree], Config.Intact config := by
    simpa [or_imp, forall_and] using ⟨hintact, htree⟩
  cases hstep with
  | makeRoot => exact hadd intact_freshRoot
  | @loadJson json isSigned _ _ hunique h =>
      have hload := (samconfJsonBackendLoad_settles json isSigned).yields_of_run h
      obtain ⟨-, rfl⟩ := samconfJsonBackendLoad_yields_iff.mp hload
      exact hadd (Json.intact_tree _ hunique (some configKey))
  | @loadEnv environ uri isSigned _ _ h =>
      have hload := (samconfEnvBackendLoad_settles strtod environ uri isSigned).yields_of_run h
      exact hadd (samconfEnvBackendLoad_intact hload hguard)
  | @create _ creation _ _ _ _ hroot h =>
      have hrootIntact := hintact _ (List.mem_of_getElem? hroot)
      rcases @Creation.run_yields strtod _ creation hrootIntact.toSound with ⟨_, _, hyields, -⟩
      exact hset (Creation.intact hrootIntact (hguard _ hroot) (hyields.settles.yields_of_run h))
  | merge _ hmerged hmerge h =>
      rcases hguard _ _ hmerged hmerge with ⟨hkeys, hroot, hshape⟩
      have hmergedIntact := hintact _ (List.mem_of_getElem? hmerged)
      have hmergeIntact := hintact _ (List.mem_of_getElem? hmerge)
      have hmergeable := hmergeIntact.mergeable hkeys hroot
      rcases eq_merged_of_run hmergedIntact.toSound hmergedIntact.tagged hmergeable h with
        ⟨-, rfl⟩
      exact hset (hmergedIntact.merged hmergeable hmergeIntact hshape)

/-- **The shape of trees** holds in every run of operations in shape without failing
allocations, and every dump has all that is found. -/
theorem shaped_of_reachable {strtod : CString → Double × CString} {trees : List Config}
    (hreachable : (treeSystem strtod).Reachable StaysInShape trees) :
    ∀ config ∈ trees, Config.Shaped config ∧ DumpsFound config := by
  have hintact : ∀ config ∈ trees, Config.Intact config := by
    refine @System.Reachable.invariant _ _ _ _ (fun trees => ∀ config ∈ trees, Config.Intact config)
      ?_ ?_ _ hreachable
    · rintro trees rfl
      simp
    · rintro trees ⟨operation, o⟩ trees' hintact ⟨hplenty, hguard⟩ hstep
      cases hplenty
      exact intact_of_operates hintact hguard hstep
  exact fun config hconfig =>
    ⟨(hintact config hconfig).shaped, (hintact config hconfig).dumpsFound⟩

/-! ## Two runs -/

/-- A fresh root after the creation of an integer. -/
def rootWithInt (path : CString) (value : Int64) : Config :=
  (freshRoot.created path .int (.integer value)).2

/-- The creation of an integer on the supply that grants everything. -/
def createInt (path : CString) (value : Int64) : Operation × Supply :=
  (.create 0 (.int path value), plenty)

theorem operates_createInt {strtod : CString → Double × CString} {root : Config}
    (path : CString) (value : Int64) (hsound : root.Sound) :
    (treeSystem strtod).step [root] (createInt path value)
      [(root.created path .int (.integer value)).2] :=
  .create rfl (Exec.yields_iff.mp (samconfCreateIntAt_yields path value hsound))

theorem reachable_rootWithInt {guard : List Config → Operation × Supply → Prop}
    {strtod : CString → Double × CString} (path : CString) (value : Int64)
    (hmake : guard [] (.makeRoot, plenty)) (hcreate : guard [freshRoot] (createInt path value)) :
    (treeSystem strtod).Reachable guard [rootWithInt path value] :=
  .extend (.extend (.start rfl) hmake (.makeRoot [])) hcreate
    (operates_createInt path value intact_freshRoot.toSound)

/-- A document with an object. -/
def objectWithFlag : Json := Json.oneOption ['b'] (.object [(['c'], .boolean true)])

/-- An option is created below `root`, a signed document is loaded, and then merged. -/
theorem created_loaded_and_merged :
    Config.Shaped
        ((rootWithInt (rootKey ++ ['/', 'a']) 1).merged (objectWithFlag.loaded true)) ∧
      DumpsFound ((rootWithInt (rootKey ++ ['/', 'a']) 1).merged (objectWithFlag.loaded true)) := by
  let merged := rootWithInt (rootKey ++ ['/', 'a']) 1
  let added := objectWithFlag.loaded true
  have hunique : objectWithFlag.UniqueKeys :=
    Json.uniqueKeys_oneOption (Json.uniqueKeys_object_singleton _
      (Json.uniqueKeys_of_members_eq_nil rfl))
  have hsound : merged.Sound := ⟨by decide, by decide⟩
  have hmergeable : added.Mergeable := by decide
  have hload : (samconfJsonBackendLoad objectWithFlag true).Yields (.ok, some added) :=
    samconfJsonBackendLoad_yields_iff.mpr ⟨rfl, rfl⟩
  have hmerge := samconfConfigMergeConfig_yields hmergeable hsound (by decide) (by decide)
  have hcreated : (treeSystem noNumber).Reachable StaysInShape [merged] := by
    refine reachable_rootWithInt _ _ ⟨rfl, trivial⟩ ⟨rfl, ?_⟩
    intro root hroot ks k hpre hsome hnone
    obtain rfl : freshRoot = root := by simpa using hroot
    cases ks with
    | nil => exact ⟨freshRoot.label.setting, rfl, .inl rfl⟩
    | cons segment rest => exact absurd rfl hsome
  have hloaded : (treeSystem noNumber).Reachable StaysInShape [merged, added] :=
    .extend hcreated (i := (.loadJson objectWithFlag true, plenty)) ⟨rfl, trivial⟩
      (.loadJson hunique (Exec.yields_iff.mp hload))
  have hleaves : ∀ e ∈ added.entries, e.2.type.IsScalar → e.1 = [rootKey, ['b'], ['c']] := by decide
  have hobjects : ∀ e ∈ added.entries, ∀ ks ∈ e.1.inits, ∀ b ∈ merged.setting ks,
      b.type = .object := by decide
  have hshape : MergesInShape merged added := by
    refine ⟨fun e he hscalar k => ?_, fun before e after hsplit ks k b hpre hb _ => .inl ?_⟩
    · rw [hleaves e he hscalar]
      rfl
    · exact hobjects e (by simp [hsplit]) ks
        ((List.mem_inits _ _).mpr ((List.prefix_append _ _).trans hpre)) b hb
  have hguard : StaysInShape [merged, added] (.merge 0 1, plenty) := by
    refine ⟨rfl, fun mergedConfig configToMerge hmerged hadded => ?_⟩
    cases hmerged
    cases hadded
    exact ⟨hmergeable.pathKeyed, hmergeable.rootPlaced, hshape⟩
  exact shaped_of_reachable (.extend hloaded hguard
    (.merge (by decide) rfl rfl (Exec.yields_iff.mp hmerge))) _ List.mem_cons_self

/-- An option created below an option is found and not dumped. -/
theorem option_below_option_not_dumped :
    ∃ trees, (treeSystem noNumber).Reachable System.anyStep trees ∧
      ∃ config ∈ trees, ¬ Config.Shaped config ∧ ¬ DumpsFound config := by
  let first := rootWithInt ['a'] 1
  let second := (first.created ['a', '/', 'b'] .int (.integer 2)).2
  have hfirst : Config.Sound first := ⟨by decide, by decide⟩
  have hsecond : Config.Sound second := ⟨by decide, by decide⟩
  refine ⟨[second], .extend (reachable_rootWithInt ['a'] 1 trivial trivial) trivial
    (operates_createInt ['a', '/', 'b'] 2 hfirst), second, List.mem_singleton_self second,
    fun hshaped => ?_, ?_⟩
  · have hnode := hshaped [0] (.node ⟨some ['a'], false, .int, .integer 1, 1⟩
      [.node ⟨some ['b'], false, .int, .integer 2, 0⟩ []]) rfl
    rcases hnode.container (by simp) with hobject | harray
    · cases hobject
    · cases harray
  · rintro ⟨json, hdump, hfound⟩
    have hjson : (samconfDumpJsonConfig second).Yields (.object [(['a'], .int 1)]) :=
      Exec.yields_iff.mpr rfl
    obtain rfl := hjson.unique hdump
    have hget := samconfConfigGet_yields ['a', '/', 'b'] hsecond (by decide)
    rcases hfound ['a', '/', 'b'] [0, 0] _ hget rfl with ⟨value, hvalue, -⟩
    cases hvalue

end Samconf
