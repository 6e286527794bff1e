/-
# What loading the environment computes

Each variable whose name holds the filter is made into an option, in the order of
the environment and in a tree that begins with a childless OBJECT. A load that
returns OK has met no variable without a value and none whose path has no
segments, and its tree is the fold of the creations. As writes to the map of
settings these go over nothing.
-/

import Samconf.Model.Env
import Samconf.Spec.Create

namespace Samconf

open Foundation
open Exec (Yields Faults)
open RoseTree (relabel)

/-- The name of the variable holds the filter. -/
def Matches (filter entry : CString) : Prop := filter <:+: envName entry

instance (filter entry : CString) : Decidable (Matches filter entry) :=
  inferInstanceAs (Decidable (_ <:+: _))

/-- The segments of the path that the name of a variable becomes. -/
def envSegments (entry : CString) : List CString := pathSegments (envPath (envName entry))

/-- The label of the option that a variable becomes. -/
def variableData (strtod : CString → Double × CString) (entry : CString) : NodeData :=
  let typed := typedValue strtod ((envValue entry).getD [])
  optionData (envPath (envName entry)) typed.1 typed.2

/-- The tree after making a variable into an option. -/
def Config.addVariable (strtod : CString → Double × CString) (config : Config)
    (entry : CString) : Config :=
  Config.grow (.node (variableData strtod entry) []) config (envSegments entry)

/-- The tree that the variables are put into. -/
def envRoot (isSigned : Bool) : Config := .node ⟨some rootKey, isSigned, .object, .zero, 0⟩ []

/-- The variable that a write stands for. -/
def variableWrite (strtod : CString → Double × CString) (entry : CString) :
    List CString × NodeData :=
  (envSegments entry, variableData strtod entry)

/-- The path of some other variable goes on from the path of `entry`. -/
def Extended (entry : CString) (others : List CString) : Prop :=
  ∃ other ∈ others, envSegments entry <+: envSegments other ∧
    envSegments entry ≠ envSegments other

instance (entry : CString) (others : List CString) : Decidable (Extended entry others) :=
  inferInstanceAs (Decidable (∃ _ ∈ _, _))

/-- A variable can be made into an option. -/
def Usable (entry : CString) : Prop := envSegments entry ≠ [] ∧ envValue entry ≠ none

instance (entry : CString) : Decidable (Usable entry) := inferInstanceAs (Decidable (_ ∧ _))

section Variables

variable {strtod : CString → Double × CString} {filter entry : CString} {config result : Config}

theorem key_variableData (h : envSegments entry ≠ []) :
    (variableData strtod entry).key = (envSegments entry).getLast? :=
  (getLast?_pathSegments h).symm

theorem Config.Sound.addVariable (hsound : config.Sound) (h : envSegments entry ≠ []) :
    Config.Sound (config.addVariable strtod entry) :=
  hsound.grow (key_variableData h) rfl

/-- **The loop** returns OK exactly when every variable that matches can be made
into an option, and then it has made all of them. -/
theorem transformEnviron_yields_iff {environ : List CString} (hsound : config.Sound) :
    (transformEnviron strtod filter environ .ok config).Yields (.ok, result) ↔
      (∀ entry ∈ environ, Matches filter entry → Usable entry) ∧
        result = (environ.filter (Matches filter)).foldl (Config.addVariable strtod) config := by
  induction environ generalizing config with
  | nil =>
      rw [transformEnviron]
      constructor
      · intro h
        have hsame := h.unique (Exec.yields_pure _)
        cases hsame
        simp
      · rintro ⟨-, rfl⟩
        exact Exec.yields_pure _
  | cons entry environ ih =>
      rw [transformEnviron, strdup, (Exec.yields_allocFor entry).bind_iff]
      by_cases hmatch : Matches filter entry
      · have hinfix : filter <:+: envName entry := hmatch
        simp only [if_pos hinfix]
        rw [Exec.yields_alloc.bind_iff, if_pos rfl]
        cases hvalue : envValue entry with
        | none =>
            -- without a value the code reads behind the end of the entry
            have hfaults := Faults.bind (Exec.faults_fault .outOfBounds) fun val =>
              samconfCreateFromStringAt strtod config (envPath (envName entry)) (some val) >>=
                fun r => if r.1 = .ok then transformEnviron strtod filter environ r.1 r.2
                  else pure (r.1, r.2)
            refine ⟨fun h => absurd h hfaults.not_yields, fun h => ?_⟩
            have hself := h.1 entry List.mem_cons_self hmatch
            exact absurd hvalue hself.2
        | some value =>
            rw [deref_some, Exec.pure_bind,
              (samconfCreateFromStringAt_yields strtod _ value hsound).bind_iff, Config.created]
            by_cases hempty : envSegments entry = []
            · have hempty' : pathSegments (envPath (envName entry)) = [] := hempty
              rw [if_pos hempty']
              constructor
              · intro h
                have hsame := h.unique (Exec.yields_pure _)
                cases hsame
              · intro h
                exact absurd hempty (h.1 entry List.mem_cons_self hmatch).1
            · have hempty' : ¬ pathSegments (envPath (envName entry)) = [] := hempty
              have hadded : Config.grow (.node (optionData (envPath (envName entry))
                  (typedValue strtod value).1 (typedValue strtod value).2) []) config
                    (pathSegments (envPath (envName entry))) = config.addVariable strtod entry := by
                simp [Config.addVariable, variableData, hvalue, envSegments]
              have hself : Usable entry := ⟨hempty, by simp [hvalue]⟩
              rw [if_neg hempty', hadded, if_pos rfl, ih (hsound.addVariable hempty)]
              simp [hmatch, hself]
      · have hinfix : ¬ filter <:+: envName entry := hmatch
        simp only [if_neg hinfix]
        rw [ih hsound]
        simp [hmatch]

/-- All variables together are the overlay. -/
theorem foldl_addVariable {matching : List CString} (hsound : config.Sound)
    (h : ∀ entry ∈ matching, envSegments entry ≠ []) :
    Config.Sound (matching.foldl (Config.addVariable strtod) config) ∧
      Config.setting (matching.foldl (Config.addVariable strtod) config) =
        Config.createWriter.overlay config.setting (matching.map (variableWrite strtod)) := by
  induction matching generalizing config with
  | nil => exact ⟨hsound, rfl⟩
  | cons entry matching ih =>
      have hentry := h entry List.mem_cons_self
      have hadded : Config.Sound (config.addVariable strtod entry) := hsound.addVariable hentry
      have hrest := ih hadded fun e he => h e (List.mem_cons_of_mem entry he)
      have hput : Config.setting (config.addVariable strtod entry) =
          Config.createWriter.put config.setting (variableWrite strtod entry) :=
        Config.setting_grow (key_variableData hentry)
      rw [List.foldl_cons, List.map_cons, Writer.overlay_cons, ← hput]
      exact hrest

/-- Without failing allocations the loop faults or returns. -/
theorem transformEnviron_settles (environ : List CString) (result : ConfigStatus)
    (hsound : config.Sound) :
    (transformEnviron strtod filter environ result config).Settles := by
  induction environ generalizing result config with
  | nil => exact (Exec.yields_pure _).settles
  | cons entry environ ih =>
      rw [transformEnviron, strdup]
      apply (Exec.yields_allocFor entry).bind_settles
      by_cases hmatch : Matches filter entry
      · have hinfix : filter <:+: envName entry := hmatch
        simp only [if_pos hinfix]
        apply Exec.yields_alloc.bind_settles
        simp only [if_true]
        cases hvalue : envValue entry with
        | none => exact .inl ⟨_, Faults.bind (Exec.faults_fault Fault.outOfBounds) _⟩
        | some value =>
            rw [deref_some, Exec.pure_bind]
            apply (samconfCreateFromStringAt_yields strtod _ value hsound).bind_settles
            rw [Config.created]
            by_cases hempty : pathSegments (envPath (envName entry)) = []
            · simp only [if_pos hempty, reduceCtorEq, if_false]
              exact (Exec.yields_pure _).settles
            · simp only [if_neg hempty, if_true]
              exact ih .ok (hsound.grow (getLast?_pathSegments hempty).symm rfl)
      · have hinfix : ¬ filter <:+: envName entry := hmatch
        simp only [if_neg hinfix]
        exact ih result hsound

end Variables

theorem sound_envRoot (isSigned : Bool) : (envRoot isSigned).Sound :=
  ⟨RoseTree.everywhere_node.mpr ⟨rfl, by simp⟩, RoseTree.everywhere_node.mpr ⟨by simp, by simp⟩⟩

theorem setting_envRoot (isSigned : Bool) {segments : List CString} (h : segments ≠ []) :
    (envRoot isSigned).setting segments = none :=
  RoseTree.view_eq_none_iff.mpr (resolve_of_childless rfl h)

/-! ## The filter -/

/-- Without failing allocations the search faults, finds nothing, or finds a value. -/
theorem findParameter_cases (uriParam : CString) (tokens : List CString) :
    (∃ e, (findParameter uriParam tokens).Faults e) ∨
      (findParameter uriParam tokens).Yields (.error, none) ∨
      ∃ value, (findParameter uriParam tokens).Yields (.ok, some value) := by
  induction tokens with
  | nil => exact .inr (.inl (Exec.yields_pure _))
  | cons token tokens ih =>
      have hcopy : (strdup token).Yields (some token) := Exec.yields_allocFor token
      by_cases hname : (token.splitOn '=').head? = some uriParam
      · cases hvalue : (token.splitOn '=')[1]? with
        | none =>
            refine .inl ⟨.nullString, ?_⟩
            rw [findParameter]
            apply hcopy.bind_faults
            simp only [if_pos hname, hvalue]
            exact Faults.bind (Exec.faults_fault _) _
        | some value =>
            refine .inr (.inr ⟨value, ?_⟩)
            rw [findParameter]
            apply hcopy.bind
            simp only [if_pos hname, hvalue, deref_some, Exec.pure_bind]
            exact (Exec.yields_allocFor value).bind (Exec.yields_pure _)
      · have hskip : findParameter uriParam (token :: tokens) plenty =
            findParameter uriParam tokens plenty := by
          rw [findParameter, Exec.bind_of_ok (Exec.yields_iff.mp hcopy)]
          simp only [if_neg hname]
        simpa only [Exec.faults_iff, Exec.yields_iff, hskip] using ih

/-- The same of the parameter of a URI. -/
theorem samconfUriGetParameter_cases (uri : Uri) (uriParam : CString) :
    (∃ e, (samconfUriGetParameter uri uriParam).Faults e) ∨
      (samconfUriGetParameter uri uriParam).Yields (.error, none) ∨
      ∃ value, (samconfUriGetParameter uri uriParam).Yields (.ok, some value) := by
  rw [samconfUriGetParameter]
  cases uri.query with
  | none => exact .inr (.inl (Exec.yields_pure _))
  | some query =>
      have hcopy : (strdup query).Yields (some query) := Exec.yields_allocFor query
      generalize hrest : (if query.head? = some '?' then query.tail else query) = rest
      have hsearch : (∃ e, Exec.Faults (if 2 ≤ (rest.splitOn '&').length then
            findParameter uriParam (rest.splitOn '&') else pure (.error, none)) e) ∨
          Exec.Yields (if 2 ≤ (rest.splitOn '&').length then
            findParameter uriParam (rest.splitOn '&') else pure (.error, none)) (.error, none) ∨
          ∃ value, Exec.Yields (if 2 ≤ (rest.splitOn '&').length then
            findParameter uriParam (rest.splitOn '&') else pure (.error, none))
              (.ok, some value) := by
        split
        · exact findParameter_cases uriParam _
        · exact .inr (.inl (Exec.yields_pure _))
      subst hrest
      refine hsearch.imp (fun ⟨e, he⟩ => ⟨e, hcopy.bind_faults he⟩) (Or.imp ?_ ?_)
      · exact fun h => hcopy.bind h
      · exact fun ⟨value, h⟩ => ⟨value, hcopy.bind h⟩

/-! ## The load -/

/-- **Loading the environment.** Without failing allocations a load returns OK
exactly when every variable that matches can be made into an option, and then it
has made all of them. -/
theorem samconfEnvBackendLoad_yields_iff {strtod : CString → Double × CString}
    {environ : List CString} {uri : Uri} {filter : CString} {isSigned : Bool} {config : Config}
    (hfilter : (samconfUriGetParameter uri "envPrefix".toList).Yields (.ok, some filter)) :
    (samconfEnvBackendLoad strtod environ uri isSigned).Yields (.ok, some config) ↔
      (∀ entry ∈ environ, Matches filter entry → Usable entry) ∧
        config = (environ.filter (Matches filter)).foldl (Config.addVariable strtod)
          (envRoot isSigned) := by
  have hroot : relabel (fun d => { d with isSigned := isSigned })
      (relabel (fun d => { d with type := .object, key := some rootKey }) samconfConfigInit) =
        envRoot isSigned := rfl
  rw [samconfEnvBackendLoad, samconfConfigNew_yields.bind_iff, strdup,
    (Exec.yields_allocFor rootKey).bind_iff]
  simp only [transformEnvToConfig, hroot]
  rw [Exec.bind_assoc, hfilter.bind_iff]
  simp only [if_true]
  rw [Exec.yields_bind_pure_iff, ← transformEnviron_yields_iff (sound_envRoot isSigned)]
  constructor
  · rintro ⟨⟨result, tree⟩, hloop, hsame⟩
    cases hsame
    exact hloop
  · exact fun hloop => ⟨_, hloop, rfl⟩

/-- Without failing allocations a load of the environment faults or returns. -/
theorem samconfEnvBackendLoad_settles (strtod : CString → Double × CString)
    (environ : List CString) (uri : Uri) (isSigned : Bool) :
    (samconfEnvBackendLoad strtod environ uri isSigned).Settles := by
  have htransform : (transformEnvToConfig strtod environ uri isSigned
      (relabel (fun d => { d with type := .object, key := some rootKey })
        samconfConfigInit)).Settles := by
    rw [transformEnvToConfig]
    rcases samconfUriGetParameter_cases uri "envPrefix".toList with
      ⟨e, hfaults⟩ | hmissing | ⟨value, hfound⟩
    · exact .inl ⟨e, hfaults.bind _⟩
    · exact hmissing.bind_settles (Exec.yields_pure _).settles
    · apply hfound.bind_settles
      exact transformEnviron_settles environ .ok (sound_envRoot isSigned)
  rw [samconfEnvBackendLoad]
  apply samconfConfigNew_yields.bind_settles
  apply (Exec.yields_allocFor rootKey).bind_settles
  rcases htransform with ⟨e, hfaults⟩ | ⟨⟨result, config⟩, hyields⟩
  · exact .inl ⟨e, hfaults.bind _⟩
  · exact (hyields.bind (Exec.yields_pure (result, some config))).settles

/-- A load that returns OK has found a filter. -/
theorem exists_filter {strtod : CString → Double × CString} {environ : List CString} {uri : Uri}
    {isSigned : Bool} {config : Config}
    (hload : (samconfEnvBackendLoad strtod environ uri isSigned).Yields (.ok, some config)) :
    ∃ filter, (samconfUriGetParameter uri "envPrefix".toList).Yields (.ok, some filter) := by
  rw [samconfEnvBackendLoad, samconfConfigNew_yields.bind_iff, strdup,
    (Exec.yields_allocFor rootKey).bind_iff] at hload
  simp only [transformEnvToConfig] at hload
  rw [Exec.bind_assoc] at hload
  rcases samconfUriGetParameter_cases uri "envPrefix".toList with ⟨e, hfaults⟩ | hmissing | hfound
  · exact absurd hload (hfaults.bind _).not_yields
  · rw [hmissing.bind_iff] at hload
    have hsame := hload.unique (Exec.yields_pure _)
    cases hsame
  · exact hfound

end Samconf
