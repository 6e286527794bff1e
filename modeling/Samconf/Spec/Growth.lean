/-
# Whole operations in shape

A creation writes once, a load of the environment once for every variable, and a
merge once for every node of `configToMerge`. For each of the three the module
gives a condition on what the operation starts from, and shows that under it every
single write is in shape, so that the tree stays intact.
-/

import Samconf.Spec.Env
import Samconf.Spec.Shape

namespace Samconf

open Foundation
open Exec (Yields)
open Config (createWriter settingWriter)

/-! ## Creations -/

/-- A call of one of the `samconfCreate*At` functions. -/
inductive Creation
  | int (path : CString) (value : Int64)
  | real (path : CString) (value : Double)
  | boolean (path : CString) (value : Bool)
  | string (path : CString) (value : Option CString)
  | fromString (path : CString) (value : Option CString)

namespace Creation

/-- Where the option is created. -/
def path : Creation → CString
  | int path _ | real path _ | boolean path _ | string path _ | fromString path _ => path

/-- The call. -/
def run (strtod : CString → Double × CString) (root : Config) :
    Creation → Run (ConfigStatus × Config)
  | int path value => samconfCreateIntAt root path value
  | real path value => samconfCreateRealAt root path value
  | boolean path value => samconfCreateBoolAt root path value
  | string path value => samconfCreateStringAt root path value
  | fromString path value => samconfCreateFromStringAt strtod root path value

/-- The type and the value that the call gives, `none` when it is handed a NULL
string. -/
def given (strtod : CString → Double × CString) : Creation → Option (ConfigValueType × Value)
  | int _ value => some (.int, .integer value)
  | real _ value => some (.real, .real value)
  | boolean _ value => some (.boolean, .boolean value)
  | string _ value => value.map fun s => (.string, .string (some s))
  | fromString _ value => value.map (typedValue strtod)

end Creation

/-- A value of one of the four scalar types, with a string where one is due. -/
structure IsOption (type : ConfigValueType) (value : Value) : Prop where
  fits : value.Fits type
  stringSet : type = .string → value.read type ≠ .string none

theorem isOption_typedValue (strtod : CString → Double × CString) (value : CString) :
    IsOption (typedValue strtod value).1 (typedValue strtod value).2 := by
  refine ⟨fits_typedValue strtod value, ?_⟩
  rw [typedValue]
  repeat' split
  all_goals simp [Value.read]

section Create

variable {strtod : CString → Double × CString} {root root' : Config} {status : ConfigStatus}
  {creation : Creation} {type : ConfigValueType} {value : Value}

theorem Creation.isOption_of_given (h : creation.given strtod = some (type, value)) :
    IsOption type value := by
  cases creation with
  | int path value =>
      cases h
      exact ⟨trivial, by simp⟩
  | real path value =>
      cases h
      exact ⟨trivial, by simp⟩
  | boolean path value =>
      cases h
      exact ⟨trivial, by simp⟩
  | string path value =>
      rcases Option.map_eq_some_iff.mp h with ⟨s, -, hs⟩
      cases hs
      exact ⟨trivial, by simp [Value.read]⟩
  | fromString path text =>
      rcases Option.map_eq_some_iff.mp h with ⟨s, -, hs⟩
      rw [← show (typedValue strtod s).1 = type from congrArg Prod.fst hs,
        ← show (typedValue strtod s).2 = value from congrArg Prod.snd hs]
      exact isOption_typedValue strtod s

/-- Without a value the call fails. -/
theorem Creation.run_of_not_given (h : creation.given strtod = none) :
    creation.run strtod root = pure (.error, root) := by
  cases creation with
  | string path value =>
      obtain rfl : value = none := by simpa [given] using h
      rfl
  | fromString path value =>
      obtain rfl : value = none := by simpa [given] using h
      rfl
  | _ => cases h

/-- Without failing allocations the value is written. -/
theorem Creation.run_of_given (hsound : root.Sound)
    (h : creation.given strtod = some (type, value)) :
    (creation.run strtod root).Yields (root.created creation.path type value) := by
  cases creation with
  | int path value =>
      cases h
      exact samconfCreateIntAt_yields path value hsound
  | real path value =>
      cases h
      exact samconfCreateRealAt_yields path value hsound
  | boolean path value =>
      cases h
      exact samconfCreateBoolAt_yields path value hsound
  | string path value =>
      rcases Option.map_eq_some_iff.mp h with ⟨s, rfl, hs⟩
      cases hs
      exact samconfCreateStringAt_yields path s hsound
  | fromString path value =>
      rcases Option.map_eq_some_iff.mp h with ⟨s, rfl, hs⟩
      have hyields := samconfCreateFromStringAt_yields strtod path s hsound
      rw [hs] at hyields
      exact hyields

/-- A call with a value makes a node, gives it the value and inserts it. -/
theorem Creation.run_eq_createAt (root : Config) (h : creation.given strtod ≠ none) :
    ∃ set, creation.run strtod root = createAt set root creation.path := by
  cases creation with
  | int path value => exact ⟨_, rfl⟩
  | real path value => exact ⟨_, rfl⟩
  | boolean path value => exact ⟨_, rfl⟩
  | string path value =>
      cases value with
      | none => exact absurd rfl h
      | some value => exact ⟨fun config => samconfConfigSetString config (some value), rfl⟩
  | fromString path value =>
      cases value with
      | none => exact absurd rfl h
      | some value =>
          exact ⟨fun config => samconfConfigSetValueFromString strtod config (some value), rfl⟩

/-- Without failing allocations a creation fails without a change, or writes an
option. -/
theorem Creation.run_yields (creation : Creation) (hsound : root.Sound) :
    ∃ status root', (creation.run strtod root).Yields (status, root') ∧
      (root' = root ∨ ∃ type value, IsOption type value ∧
        root' = (root.created creation.path type value).2) := by
  cases hgiven : creation.given strtod with
  | none =>
      refine ⟨.error, root, ?_, .inl rfl⟩
      rw [run_of_not_given hgiven]
      exact Exec.yields_pure _
  | some given =>
      rcases given with ⟨type, value⟩
      exact ⟨_, _, run_of_given hsound hgiven, .inr ⟨type, value, isOption_of_given hgiven, rfl⟩⟩

theorem Config.Intact.created (h : root.Intact) {path : CString} {type : ConfigValueType}
    {value : Value} (hoption : IsOption type value)
    (hgrows : GrowsInShape root.setting (pathSegments path)) :
    Config.Intact (root.created path type value).2 := by
  rw [Config.created]
  split
  · exact h
  · have hkey := getLast?_pathSegments ‹_›
    exact h.grow hkey.symm rfl hoption.fits hoption.stringSet hgrows

/-- **A creation in shape** keeps the tree intact. -/
theorem Creation.intact {creation : Creation} (h : root.Intact)
    (hgrows : GrowsInShape root.setting (pathSegments creation.path))
    (hrun : (creation.run strtod root).Yields (status, root')) : root'.Intact := by
  rcases @Creation.run_yields strtod root creation h.toSound with
    ⟨status', root'', hyields, hresult⟩
  have hsame := hrun.unique hyields
  cases hsame
  rcases hresult with rfl | ⟨type, value, hoption, rfl⟩
  · exact h
  · exact h.created hoption hgrows

end Create

/-! ## Loads of the environment -/

/-- A variable whose path a later variable goes on from has been gone on from before,
and so is no option by then. -/
def VariablesNest (entries : List CString) : Prop :=
  ∀ before entry after, entries = before ++ entry :: after → Extended entry after →
    Extended entry before

section Environment

variable {strtod : CString → Double × CString} {isSigned : Bool} {done rest : List CString}
  {entry : CString}

/-- A member of a list of writes to a key list comes with a first one. -/
theorem exists_first_variable {segments : List CString}
    (h : ∃ other ∈ done, envSegments other = segments) :
    ∃ before first after, done = before ++ first :: after ∧ envSegments first = segments ∧
      ∀ other ∈ before, segments ≠ envSegments other := by
  obtain ⟨other, hother, heq⟩ := h
  have hmem : segments ∈ done.map envSegments := heq ▸ List.mem_map_of_mem hother
  rcases List.eq_append_cons_of_mem hmem with ⟨front, back, hsplit, hfree⟩
  rcases List.map_eq_append_iff.mp hsplit with ⟨before, others, rfl, rfl, hothers⟩
  rcases List.map_eq_cons_iff.mp hothers with ⟨first, after, rfl, hfirst, -⟩
  exact ⟨before, first, after, rfl, hfirst, fun other hmem heq =>
    hfree (heq ▸ List.mem_map_of_mem hmem)⟩

/-- The next variable meets OBJECTs only, where its path leads on. -/
theorem growsInShape_of_nest (hnest : VariablesNest (done ++ entry :: rest))
    (husable : ∀ other ∈ done, envSegments other ≠ []) :
    GrowsInShape (createWriter.overlay (envRoot isSigned).setting
      (done.map (variableWrite strtod))) (envSegments entry) := by
  intro ks k hpre hsome hnone
  obtain ⟨b, hb⟩ := Option.ne_none_iff_exists'.mp hsome
  refine ⟨b, hb, .inl ?_⟩
  have hkeeps : createWriter.Keeps := fun _ _ => rfl
  by_cases hempty : ks = []
  · -- the root is an OBJECT
    subst hempty
    have htop : (envRoot isSigned).setting [] = some (envRoot isSigned).label.setting :=
      RoseTree.view_nil (envRoot isSigned)
    rw [hkeeps.overlay_of_some _ htop] at hb
    obtain rfl := Option.some.inj hb
    rfl
  · have hroot := setting_envRoot isSigned hempty
    by_cases htaken : ∃ other ∈ done, envSegments other = ks
    · -- the first variable with this path came too late to be an option
      rcases exists_first_variable htaken with ⟨before, first, after, rfl, rfl, hfree⟩
      have hlonger : Extended first (after ++ entry :: rest) := by
        refine ⟨entry, by simp, (List.prefix_append _ [k]).trans hpre, fun heq => ?_⟩
        have hlength := hpre.length_le
        rw [List.length_append, List.length_singleton, heq] at hlength
        omega
      rcases hnest before first (after ++ entry :: rest) (by simp) hlonger with
        ⟨other, hother, hbelow, -⟩
      have hkey := List.getLast?_eq_some_getLast hempty
      have hfirst := @Writer.Keeps.overlay_of_split _ _ _ _ createWriter
        (envRoot isSigned).setting hkeeps (before.map (variableWrite strtod))
        (after.map (variableWrite strtod)) (variableWrite strtod first) _ hroot hkey
        (by
          intro d hd heq
          obtain ⟨other, hmem, rfl⟩ := List.mem_map.mp hd
          exact hfree other hmem heq)
      rw [if_pos ⟨variableWrite strtod other, List.mem_map_of_mem hother, hbelow⟩] at hfirst
      rw [List.map_append, List.map_cons] at hb
      obtain rfl := Option.some.inj (hfirst.symm.trans hb)
      rfl
    · have hother : ∀ d ∈ done.map (variableWrite strtod), ks ≠ d.1 := by
        intro d hd heq
        obtain ⟨other, hmem, rfl⟩ := List.mem_map.mp hd
        exact htaken ⟨other, hmem, heq.symm⟩
      rw [Writer.overlay_of_not_mem hother, hroot, Option.none_or] at hb
      split at hb
      · obtain ⟨key, -, rfl⟩ := Option.map_eq_some_iff.mp hb
        rfl
      · cases hb

theorem intact_foldl_addVariable (hnest : VariablesNest (done ++ rest))
    (husable : ∀ other ∈ done ++ rest, envSegments other ≠ []) {config : Config}
    (hconfig : config = done.foldl (Config.addVariable strtod) (envRoot isSigned))
    (h : config.Intact) : Config.Intact (rest.foldl (Config.addVariable strtod) config) := by
  induction rest generalizing done config with
  | nil => exact h
  | cons entry rest ih =>
      have hdone : ∀ other ∈ done, envSegments other ≠ [] := fun other hother =>
        husable other (List.mem_append_left _ hother)
      have hentry : envSegments entry ≠ [] := husable entry (by simp)
      have hsetting := (@foldl_addVariable strtod _ _ (sound_envRoot isSigned) hdone).2
      have hgrows := @growsInShape_of_nest strtod isSigned done rest entry hnest hdone
      rw [← hsetting, ← hconfig] at hgrows
      have hoption := isOption_typedValue strtod ((envValue entry).getD [])
      have hadded : Config.Intact (config.addVariable strtod entry) :=
        h.grow (key_variableData hentry) rfl hoption.fits hoption.stringSet hgrows
      have hfold : config.addVariable strtod entry =
          (done ++ [entry]).foldl (Config.addVariable strtod) (envRoot isSigned) := by
        rw [List.foldl_append, ← hconfig]
        rfl
      exact @ih (done ++ [entry]) (by simpa using hnest) (by simpa using husable) _ hfold hadded

theorem intact_envRoot (isSigned : Bool) : (envRoot isSigned).Intact :=
  Config.intact_leaf rfl trivial fun htype => by cases htype

/-- **A load of the environment** gives an intact tree when the variables nest. -/
theorem samconfEnvBackendLoad_intact {environ : List CString} {uri : Uri} {config : Config}
    (hload : (samconfEnvBackendLoad strtod environ uri isSigned).Yields (.ok, some config))
    (hnest : ∀ filter, (samconfUriGetParameter uri "envPrefix".toList).Yields (.ok, some filter) →
      VariablesNest (environ.filter (Matches filter))) : config.Intact := by
  rcases exists_filter hload with ⟨filter, hfilter⟩
  rcases (samconfEnvBackendLoad_yields_iff hfilter).mp hload with ⟨husable, rfl⟩
  refine @intact_foldl_addVariable strtod isSigned [] _ (hnest filter hfilter) ?_ _ rfl
    (intact_envRoot isSigned)
  intro entry hentry
  rw [List.nil_append, List.mem_filter, decide_eq_true_eq] at hentry
  exact (husable entry hentry.1 hentry.2).1

end Environment

/-! ## Merges -/

/-- A merge writes scalars over nodes without children only, and new children of a
node that was there enter an OBJECT, or an ARRAY whose elements they continue. -/
structure MergesInShape (mergedConfig configToMerge : Config) : Prop where
  leaves : ∀ e ∈ configToMerge.entries, e.2.type.IsScalar →
    ∀ k, mergedConfig.setting (e.1 ++ [k]) = none
  continues : ∀ before e after, configToMerge.entries = before ++ e :: after →
    ∀ ks k b, ks ++ [k] <+: e.1 → mergedConfig.setting ks = some b →
      mergedConfig.setting (ks ++ [k]) = none →
      b.type = .object ∨ b.type = .array ∧ ∃ i, k = indexKey i ∧
        ∀ j < i, mergedConfig.setting (ks ++ [indexKey j]) ≠ none ∨
          ∃ d ∈ before, ks ++ [indexKey j] <+: d.1

section Merge

variable {mergedConfig configToMerge : Config} {before after : List Entry} {e : Entry}

/-- A node of `configToMerge` with a child is an OBJECT, or an ARRAY in which the
children before that one have been merged before it. -/
theorem container_of_entry (hintact : configToMerge.Intact)
    (hsplit : configToMerge.entries = before ++ e :: after) {d : Entry} (hd : d ∈ before)
    {k : CString} (hpre : d.1 ++ [k] <+: e.1) :
    d.2.type = .object ∨ d.2.type = .array ∧ ∃ i, k = indexKey i ∧
      ∀ j < i, ∃ f ∈ before, d.1 ++ [indexKey j] <+: f.1 := by
  rcases List.map_eq_append_iff.mp hsplit with ⟨ps, qs, hpositions, rfl, hrest⟩
  rcases List.map_eq_cons_iff.mp hrest with ⟨q, rs, rfl, rfl, -⟩
  obtain ⟨p, hp, rfl⟩ := List.mem_map.mp hd
  have hpmem : p ∈ configToMerge.descendants := by simp [hpositions, hp]
  have hqmem : q ∈ configToMerge.descendants := by simp [hpositions]
  rcases RoseTree.mem_descendants.mp hpmem with ⟨hpne, s, hs⟩
  rcases RoseTree.mem_descendants.mp hqmem with ⟨-, t, ht⟩
  rcases Config.exists_segmentsOf hintact.keyed hs with ⟨ks, hks⟩
  rcases Config.exists_segmentsOf hintact.keyed ht with ⟨ls, hls⟩
  rw [Config.entry_eq hks hs, Config.entry_eq hls ht] at hpre
  rcases hintact.distinct.exists_child_of_segmentsOf hks hls hpre with
    ⟨i, r, s', c, rfl, hs', hc, hkey⟩
  obtain rfl := Option.some.inj (hs.symm.trans hs')
  have hshaped : Config.Shaped s := RoseTree.Everywhere.sub hintact.shaped hs
  have hchild := List.mem_of_getElem? hc
  rw [Config.entry_eq hks hs]
  refine (hshaped.self.container ?_).imp_right fun harray => ⟨harray, i, ?_, fun j hj => ?_⟩
  · intro hempty
    rw [List.map_eq_nil_iff.mp hempty] at hchild
    cases hchild
  · exact Option.some.inj (hkey.symm.trans (key_of_array hshaped harray hc))
  · have hlt := (List.getElem?_eq_some_iff.mp hc).1
    obtain ⟨c', hc'⟩ : ∃ c', s.children[j]? = some c' :=
      ⟨_, List.getElem?_eq_getElem (Nat.lt_trans hj hlt)⟩
    have hkey' := key_of_array hshaped harray hc'
    have hsibling := Config.segmentsOf_child hks hs hc' hkey'
    have hsub : configToMerge.sub? (p ++ [j]) = some c' := by
      rw [RoseTree.sub?_append, hs]
      simp [hc']
    have hmem := RoseTree.mem_before_of_sibling hpositions hj
      (RoseTree.mem_descendants.mpr ⟨by simp, c', hsub⟩)
    refine ⟨configToMerge.entry (p ++ [j]), List.mem_map_of_mem hmem, ?_⟩
    rw [Config.entry_eq hsibling hsub]

/-- Every write of a merge in shape is in shape, when it comes to be made. -/
theorem writesInShape_of_merges (hmerge : configToMerge.Mergeable)
    (hintact : configToMerge.Intact) (hshape : MergesInShape mergedConfig configToMerge)
    (hsplit : configToMerge.entries = before ++ e :: after) :
    WritesInShape (settingWriter.overlay mergedConfig.setting before) e := by
  have hordered := hmerge.ordered
  rw [hsplit] at hordered
  have hbefore : Writer.Ordered before := (List.pairwise_append.mp hordered).1
  have he : e ∈ configToMerge.entries := by simp [hsplit]
  refine ⟨fun ks k hpre hsome hnone => ?_, fun hscalar k => ?_⟩
  · have hmissing : mergedConfig.setting (ks ++ [k]) = none := by
      by_contra hthere
      exact Writer.overlay_ne_none (by simp) (.inl hthere) hnone
    have hnode (b : Setting) (hb : mergedConfig.setting ks = some b) :
        b.type = .object ∨ b.type = .array ∧ ∃ i, k = indexKey i ∧ ∀ j < i,
          settingWriter.overlay mergedConfig.setting before (ks ++ [indexKey j]) ≠ none := by
      refine (hshape.continues before e after hsplit ks k b hpre hb hmissing).imp_right ?_
      rintro ⟨harray, i, hk, hfound⟩
      exact ⟨harray, i, hk, fun j hj => Writer.overlay_ne_none (by simp) (hfound j hj)⟩
    obtain ⟨b, hb⟩ := Option.ne_none_iff_exists'.mp hsome
    refine ⟨b, hb, ?_⟩
    rcases Writer.overlay_eq_some hbefore hb with ⟨d, hd, rfl, rfl⟩ | ⟨-, hkept | hblank⟩
    · -- the node has an entry of its own, which is that of a container
      have hcontainer := container_of_entry hintact hsplit hd hpre
      have hscalar : ¬ d.2.type.IsScalar := by
        rcases hcontainer with hobject | ⟨harray, -⟩
        · simp [hobject, ConfigValueType.IsScalar]
        · simp [harray, ConfigValueType.IsScalar]
      cases hold : mergedConfig.setting d.1 with
      | some b =>
          have hover : settingWriter.result d.2 (some b) = b := by
            simp [Writer.result, settingWriter, hscalar]
          rw [hover]
          exact hnode b hold
      | none =>
          refine hcontainer.imp_right ?_
          rintro ⟨harray, i, hk, hfound⟩
          exact ⟨harray, i, hk, fun j hj =>
            Writer.overlay_ne_none (by simp) (.inr (hfound j hj))⟩
    · exact hnode b hkept
    · obtain ⟨-, -, key, -, rfl⟩ := hblank
      exact .inl rfl
  · apply Writer.overlay_eq_none (hshape.leaves e he hscalar k)
    intro d hd hpre
    exact (List.pairwise_append.mp hordered).2.2 d hd e List.mem_cons_self
      ((List.prefix_append _ [k]).trans hpre)

theorem intact_foldl_put (hmerge : configToMerge.Mergeable) (hintact : configToMerge.Intact)
    (hshape : MergesInShape mergedConfig configToMerge)
    (hsplit : configToMerge.entries = before ++ after) {config : Config}
    (hconfig : config = before.foldl Config.put mergedConfig) (h : config.Intact) :
    Config.Intact (after.foldl Config.put config) := by
  induction after generalizing before config with
  | nil => exact h
  | cons e after ih =>
      have hwritable : ∀ d ∈ before ++ e :: after, d.Writable := by
        rw [← hsplit]
        exact hmerge.entries_writable
      have hwrites := writesInShape_of_merges hmerge hintact hshape hsplit
      rw [← Config.setting_foldl_put mergedConfig fun d hd =>
        hwritable d (List.mem_append_left _ hd), ← hconfig] at hwrites
      have hput := h.put (hwritable e (by simp)) hwrites
      have hfold : config.put e = (before ++ [e]).foldl Config.put mergedConfig := by
        rw [List.foldl_append, ← hconfig]
        rfl
      exact @ih (before ++ [e]) (by simpa using hsplit) _ hfold hput

/-- **A merge in shape** keeps the tree intact. -/
theorem Config.Intact.merged (h : mergedConfig.Intact) (hmerge : configToMerge.Mergeable)
    (hintact : configToMerge.Intact) (hshape : MergesInShape mergedConfig configToMerge) :
    Config.Intact (mergedConfig.merged configToMerge) :=
  (@intact_foldl_put mergedConfig configToMerge [] _ hmerge hintact hshape rfl _ rfl
    h).markSigned configToMerge

end Merge

end Samconf
