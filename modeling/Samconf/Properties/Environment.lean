/-
# Variables in the loaded environment

Making an option goes over nothing, so a variable finds its place taken when a
variable before it has a path that goes on from its own: the place then holds the
OBJECT that the longer path was hung into, and the creation returns OK without
having stored a thing. A variable whose path no other variable has is lost
exactly in that case.
-/

import Samconf.Spec.Env
import Samconf.Spec.Find

namespace Samconf

open Foundation
open Exec (Yields)
open Config (createWriter)

/-- The variable is found under its path, with the type and the value that its text
gives. -/
def VariableKept (strtod : CString → Double × CString) (config : Config) (entry : CString) :
    Prop :=
  ∃ value typed d, envValue entry = some value ∧
    (samconfConfigSetValueFromString strtod samconfConfigInit (some value)).Yields (.ok, typed) ∧
    Finds config (envPath (envName entry)) d ∧
    d.type = typed.label.type ∧ d.value = typed.label.value

section Kept

variable {strtod : CString → Double × CString} {filter entry : CString}
  {before after : List CString} {config : Config}

/-- What a load leaves under the path of a variable whose path no other variable
has. -/
theorem setting_of_variable {environ : List CString} {uri : Uri} {isSigned : Bool}
    (hfilter : (samconfUriGetParameter uri "envPrefix".toList).Yields (.ok, some filter))
    (hload : (samconfEnvBackendLoad strtod environ uri isSigned).Yields (.ok, some config))
    (hsplit : environ = before ++ entry :: after) (hmatch : Matches filter entry)
    (hother : ∀ other ∈ before ++ after, Matches filter other →
      envSegments other ≠ envSegments entry) :
    config.Sound ∧ Usable entry ∧
      ∃ key, config.setting (envSegments entry) =
        some (if Extended entry (before.filter (Matches filter)) then (NodeData.blank key).setting
          else (variableData strtod entry).setting) := by
  rcases (samconfEnvBackendLoad_yields_iff hfilter).mp hload with ⟨husable, hconfig⟩
  have hentry : Usable entry := husable entry (by simp [hsplit]) hmatch
  have hnonempty : ∀ e ∈ environ.filter (Matches filter), envSegments e ≠ [] := by
    intro e he
    rw [List.mem_filter, decide_eq_true_eq] at he
    exact (husable e he.1 he.2).1
  rcases @foldl_addVariable strtod _ _ (sound_envRoot isSigned) hnonempty with
    ⟨hsound, hsetting⟩
  rw [← hconfig] at hsound hsetting
  refine ⟨hsound, hentry, ?_⟩
  have hkey := List.getLast?_eq_some_getLast hentry.1
  refine ⟨(envSegments entry).getLast hentry.1, ?_⟩
  have hkeeps : createWriter.Keeps := fun _ _ => rfl
  have hwrites : (environ.filter (Matches filter)).map (variableWrite strtod) =
      (before.filter (Matches filter)).map (variableWrite strtod) ++
        variableWrite strtod entry ::
          (after.filter (Matches filter)).map (variableWrite strtod) := by
    simp [hsplit, hmatch]
  have hfirst := @Writer.Keeps.overlay_of_split _ _ _ _ createWriter (envRoot isSigned).setting
    hkeeps ((before.filter (Matches filter)).map (variableWrite strtod))
    ((after.filter (Matches filter)).map (variableWrite strtod)) (variableWrite strtod entry) _
    (setting_envRoot isSigned hentry.1) hkey ?_
  · rw [hsetting, hwrites]
    have hiff : (∃ d ∈ (before.filter (Matches filter)).map (variableWrite strtod),
        (variableWrite strtod entry).1 <+: d.1) ↔
          Extended entry (before.filter (Matches filter)) := by
      constructor
      · rintro ⟨d, hd, hpre⟩
        obtain ⟨other, hmem, rfl⟩ := List.mem_map.mp hd
        refine ⟨other, hmem, hpre, fun heq => ?_⟩
        rw [List.mem_filter, decide_eq_true_eq] at hmem
        exact hother other (by simp [hmem.1]) hmem.2 heq.symm
      · rintro ⟨other, hmem, hpre, -⟩
        exact ⟨variableWrite strtod other, List.mem_map_of_mem hmem, hpre⟩
    rw [if_congr hiff rfl rfl] at hfirst
    exact hfirst
  · intro d hd heq
    simp only [List.mem_map, List.mem_filter, decide_eq_true_eq] at hd
    rcases hd with ⟨other, ⟨hmem, hmatches⟩, rfl⟩
    exact hother other (by simp [hmem]) hmatches heq.symm

/-- Where an OBJECT is, no variable is found. -/
theorem not_variableKept_of_object {key : CString} (hsound : config.Sound)
    (hne : envSegments entry ≠ [])
    (hobject : config.setting (envSegments entry) = some (NodeData.blank key).setting) :
    ¬ VariableKept strtod config entry := by
  rintro ⟨value, typed, d, -, hyields, hfinds, htype, -⟩
  have htyped := samconfConfigSetValueFromString_yields strtod samconfConfigInit value
  obtain rfl : _ = typed := congrArg Prod.snd (htyped.unique hyields)
  have hsetting := hfinds.setting hsound hne
  have hplace : config.setting (pathSegments (envPath (envName entry))) =
      some (NodeData.blank key).setting := hobject
  rw [hplace] at hsetting
  -- no text gives the type OBJECT
  have hscalar := isScalar_typedValue strtod value
  have htype' : (typedValue strtod value).1 = .object :=
    htype.symm.trans (congrArg Setting.type (Option.some.inj hsetting)).symm
  rw [htype'] at hscalar
  simp [ConfigValueType.IsScalar] at hscalar

/-- Where the option of the variable is, the variable is found. -/
theorem variableKept_of_option (hsound : config.Sound) (husable : Usable entry)
    (hoption : config.setting (envSegments entry) = some (variableData strtod entry).setting) :
    VariableKept strtod config entry := by
  obtain ⟨value, hvalue⟩ := Option.ne_none_iff_exists'.mp husable.2
  rcases exists_finds hsound husable.1 hoption with ⟨d, hfinds, hd⟩
  refine ⟨value, _, d, hvalue,
    samconfConfigSetValueFromString_yields strtod samconfConfigInit value, hfinds, ?_, ?_⟩
  · have htype := congrArg Setting.type hd
    simpa [variableData, hvalue, optionData, NodeData.setting] using htype
  · have hval := congrArg Setting.value hd
    simpa [variableData, hvalue, optionData, NodeData.setting] using hval

/-- **A variable is kept** exactly when no variable that matches and comes before it
has a path that goes on from its own. -/
theorem variableKept_iff {environ : List CString} {uri : Uri} {isSigned : Bool}
    (hfilter : (samconfUriGetParameter uri "envPrefix".toList).Yields (.ok, some filter))
    (hload : (samconfEnvBackendLoad strtod environ uri isSigned).Yields (.ok, some config))
    (hsplit : environ = before ++ entry :: after) (hmatch : Matches filter entry)
    (hother : ∀ other ∈ before ++ after, Matches filter other →
      envSegments other ≠ envSegments entry) :
    VariableKept strtod config entry ↔ ¬ Extended entry (before.filter (Matches filter)) := by
  rcases setting_of_variable hfilter hload hsplit hmatch hother with
    ⟨hsound, husable, key, hsetting⟩
  constructor
  · intro hkept hextended
    rw [if_pos hextended] at hsetting
    exact not_variableKept_of_object hsound husable.1 hsetting hkept
  · intro hfree
    rw [if_neg hfree] at hsetting
    exact variableKept_of_option hsound husable hsetting

end Kept

/-- A location whose filter is `FOO`. -/
def fooUri : Uri :=
  ⟨none, none, none, none, some "?envPrefix=FOO&format=plain".toList, none⟩

theorem fooUri_filter :
    (samconfUriGetParameter fooUri "envPrefix".toList).Yields (.ok, some "FOO".toList) :=
  Exec.yields_iff.mpr rfl

/-- The longer path last: it is kept. -/
theorem longer_path_last_kept :
    ∃ config, (samconfEnvBackendLoad noNumber ["FOO=on".toList, "FOO_BAR=off".toList] fooUri
        false).Yields (.ok, some config) ∧
      VariableKept noNumber config "FOO_BAR=off".toList := by
  have hload := (@samconfEnvBackendLoad_yields_iff noNumber
    ["FOO=on".toList, "FOO_BAR=off".toList] _ _ false _ fooUri_filter).mpr ⟨by decide, rfl⟩
  refine ⟨_, hload, ?_⟩
  exact (@variableKept_iff noNumber _ "FOO_BAR=off".toList ["FOO=on".toList] [] _ _ _ _
    fooUri_filter hload rfl (by decide) (by decide)).mpr (by decide)

/-- The longer path first: the shorter one is lost, although the load returns OK and
the paths have different segments. -/
theorem longer_path_first_loses :
    envSegments "FOO_BAR=off".toList ≠ envSegments "FOO=on".toList ∧
      ∃ config, (samconfEnvBackendLoad noNumber ["FOO_BAR=off".toList, "FOO=on".toList] fooUri
          false).Yields (.ok, some config) ∧
        ¬ VariableKept noNumber config "FOO=on".toList := by
  have hload := (@samconfEnvBackendLoad_yields_iff noNumber
    ["FOO_BAR=off".toList, "FOO=on".toList] _ _ false _ fooUri_filter).mpr ⟨by decide, rfl⟩
  refine ⟨by decide, _, hload, ?_⟩
  rcases @setting_of_variable noNumber _ "FOO=on".toList ["FOO_BAR=off".toList] [] _ _ _ _
    fooUri_filter hload rfl (by decide) (by decide) with ⟨hsound, husable, key, hsetting⟩
  rw [if_pos (by decide)] at hsetting
  exact not_variableKept_of_object hsound husable.1 hsetting

end Samconf
