/-
# Looking up a parameter of a query

A query is a list of parameters, each a name with or without a value, and a name asks
for the value of the first parameter that has it. `samconfUriGetParameter` gives that
answer for a name that no parameter has. For the others it goes wrong in three ways: a
query with a single parameter is not searched at all, a name without a value makes it
duplicate a NULL string, and a value ends at its first `=`.
-/

import Samconf.Model.Uri

namespace Samconf

open Foundation
open Exec (Yields Faults)

/-- A parameter of a query: `name=value`, or a bare `name`. -/
structure Parameter where
  name : CString
  value : Option CString
  /-- The delimiters end a name. -/
  name_plain : '=' ∉ name ∧ '&' ∉ name
  /-- A value goes on to the next parameter. -/
  value_plain : ∀ v, value = some v → '&' ∉ v

namespace Parameter

/-- How the parameter is written. -/
def text (p : Parameter) : CString := p.name ++ p.value.elim [] ('=' :: ·)

theorem not_mem_text (p : Parameter) : '&' ∉ p.text := by
  rw [text, List.mem_append, not_or]
  refine ⟨p.name_plain.2, ?_⟩
  cases hvalue : p.value with
  | none => simp
  | some v => simpa using p.value_plain v hvalue

/-- The parameter with the value after its first `=`. -/
theorem splitOn_text_of_value {p : Parameter} {v : CString} (h : p.value = some v) :
    p.text.splitOn '=' = p.name :: v.splitOn '=' := by
  rw [text, h]
  exact List.splitOn_append_cons_self_of_not_mem p.name_plain.1 v

theorem splitOn_text_of_bare {p : Parameter} (h : p.value = none) :
    p.text.splitOn '=' = [p.name] := by
  rw [text, h, Option.elim_none, List.append_nil]
  exact List.splitOn_eq_singleton p.name_plain.1

theorem head?_splitOn_text (p : Parameter) : (p.text.splitOn '=').head? = some p.name := by
  cases hvalue : p.value with
  | none => rw [splitOn_text_of_bare hvalue, List.head?_cons]
  | some v => rw [splitOn_text_of_value hvalue, List.head?_cons]

end Parameter

/-- How a list of parameters is written as a query. -/
def queryText (parameters : List Parameter) : CString :=
  '?' :: ['&'].intercalate (parameters.map Parameter.text)

/-- The first parameter with the name. -/
def firstNamed (parameters : List Parameter) (name : CString) : Option Parameter :=
  parameters.find? fun p => decide (p.name = name)

/-- The status and the value that a name asks for: that of the first parameter with the
name, empty for a bare name. -/
def askedFor (parameters : List Parameter) (name : CString) : ConfigStatus × Option CString :=
  match firstNamed parameters name with
  | none => (.error, none)
  | some p => (.ok, some (p.value.getD []))

variable {parameters : List Parameter} {uriParam : CString}

/-! ## The search -/

/-- A parameter with another name is passed over. -/
theorem findParameter_cons_of_ne {p : Parameter} (h : p.name ≠ uriParam) (tokens : List CString) :
    findParameter uriParam (p.text :: tokens) plenty = findParameter uriParam tokens plenty := by
  have hcopy : (strdup p.text).Yields (some p.text) := Exec.yields_allocFor p.text
  rw [findParameter, Exec.bind_of_ok (Exec.yields_iff.mp hcopy)]
  simp only [p.head?_splitOn_text, Option.some.injEq, if_neg h]

theorem findParameter_of_none (h : firstNamed parameters uriParam = none) :
    (findParameter uriParam (parameters.map Parameter.text)).Yields (.error, none) := by
  induction parameters with
  | nil => exact Exec.yields_pure _
  | cons p rest ih =>
      rw [firstNamed, List.find?_cons] at h
      split at h
      · cases h
      · rename_i hne
        rw [List.map_cons, Exec.yields_iff, findParameter_cons_of_ne (by simpa using hne)]
        exact Exec.yields_iff.mp (ih h)

/-- At the first parameter with the name, what comes after the `=` is copied. -/
theorem findParameter_of_some {p : Parameter} (h : firstNamed parameters uriParam = some p) :
    findParameter uriParam (parameters.map Parameter.text) plenty =
      (deref .nullString (p.text.splitOn '=')[1]? >>= fun value => do
        let copy ← strdup value
        pure (.ok, copy)) plenty := by
  induction parameters with
  | nil => cases h
  | cons q rest ih =>
      rw [firstNamed, List.find?_cons] at h
      split at h
      · rename_i heq
        cases h
        have hcopy : (strdup p.text).Yields (some p.text) := Exec.yields_allocFor p.text
        rw [List.map_cons, findParameter, Exec.bind_of_ok (Exec.yields_iff.mp hcopy)]
        have hname : p.name = uriParam := by simpa using heq
        simp only [p.head?_splitOn_text, hname, if_true]
      · rename_i hne
        rw [List.map_cons, findParameter_cons_of_ne (by simpa using hne)]
        exact ih h

theorem findParameter_of_bare {p : Parameter} (h : firstNamed parameters uriParam = some p)
    (hbare : p.value = none) :
    (findParameter uriParam (parameters.map Parameter.text)).Faults .nullString := by
  rw [Exec.faults_iff, findParameter_of_some h, p.splitOn_text_of_bare hbare]
  rfl

theorem findParameter_of_value {p : Parameter} (h : firstNamed parameters uriParam = some p)
    {v : CString} (hvalue : p.value = some v) :
    (findParameter uriParam (parameters.map Parameter.text)).Yields
      (.ok, (v.splitOn '=').head?) := by
  rw [Exec.yields_iff, findParameter_of_some h, p.splitOn_text_of_value hvalue]
  cases hsplit : v.splitOn '=' with
  | nil => exact absurd hsplit (List.splitOn_ne_nil '=' v)
  | cons first rest => rfl

/-- The first piece of a value is the whole value only without another `=`. -/
theorem head?_splitOn_eq_self_iff (v : CString) :
    (v.splitOn '=').head? = some v ↔ '=' ∉ v := by
  constructor
  · intro h hmem
    obtain ⟨first, rest, rfl, hfirst⟩ := List.eq_append_cons_of_mem hmem
    rw [List.splitOn_append_cons_self_of_not_mem hfirst, List.head?_cons] at h
    have hlength := congrArg List.length (Option.some.inj h)
    simp at hlength
  · intro h
    rw [List.splitOn_eq_singleton h, List.head?_cons]

/-! ## The query -/

variable {uri : Uri}

/-- Cutting a query at `&` gives its parameters. -/
theorem splitOn_queryText (hne : parameters ≠ []) :
    (queryText parameters).tail.splitOn '&' = parameters.map Parameter.text := by
  rw [queryText, List.tail_cons]
  refine List.splitOn_intercalate '&' (fun token htoken => ?_) (by simpa using hne)
  obtain ⟨p, -, rfl⟩ := List.mem_map.mp htoken
  exact p.not_mem_text

/-- The query is searched when it has a second parameter. -/
theorem samconfUriGetParameter_run (hquery : uri.query = some (queryText parameters))
    (hne : parameters ≠ []) :
    samconfUriGetParameter uri uriParam plenty =
      if 2 ≤ parameters.length then
        findParameter uriParam (parameters.map Parameter.text) plenty
      else .ok ((.error, none), plenty) := by
  have hcopy : (strdup (queryText parameters)).Yields (some (queryText parameters)) :=
    Exec.yields_allocFor (queryText parameters)
  rw [samconfUriGetParameter, hquery]
  simp only
  rw [Exec.bind_of_ok (Exec.yields_iff.mp hcopy)]
  have hmark : (queryText parameters).head? = some '?' := rfl
  simp only [hmark, if_true, splitOn_queryText hne, List.length_map]
  split <;> rfl

/-- **Query lookup** gives what was asked for exactly when no parameter has the name, or
when there are two parameters at least and the first one with the name has a value
without `=`. -/
theorem samconfUriGetParameter_exact_iff (hquery : uri.query = some (queryText parameters))
    (hne : parameters ≠ []) (uriParam : CString) :
    (samconfUriGetParameter uri uriParam).Yields (askedFor parameters uriParam) ↔
      (∀ p ∈ parameters, p.name ≠ uriParam) ∨
        2 ≤ parameters.length ∧ ∃ p v, firstNamed parameters uriParam = some p ∧
          p.value = some v ∧ '=' ∉ v := by
  rw [Exec.yields_iff, samconfUriGetParameter_run hquery hne, askedFor]
  cases hfirst : firstNamed parameters uriParam with
  | none =>
      have hother : ∀ p ∈ parameters, p.name ≠ uriParam := by
        simpa [firstNamed] using hfirst
      refine iff_of_true ?_ (.inl hother)
      split
      · exact Exec.yields_iff.mp (findParameter_of_none hfirst)
      · rfl
  | some p =>
      have hnamed : ¬ ∀ p ∈ parameters, p.name ≠ uriParam := by
        intro hother
        have hname : p.name = uriParam := by simpa using List.find?_some hfirst
        exact hother p (List.mem_of_find?_eq_some hfirst) hname
      by_cases htwo : 2 ≤ parameters.length
      · rw [if_pos htwo]
        cases hvalue : p.value with
        | none =>
            rw [Exec.faults_iff.mp (findParameter_of_bare hfirst hvalue)]
            simp [hnamed, hvalue]
        | some v =>
            rw [Exec.yields_iff.mp (findParameter_of_value hfirst hvalue)]
            simp [hnamed, htwo, hvalue, head?_splitOn_eq_self_iff]
      · rw [if_neg htwo]
        simp [hnamed, htwo]

/-! ## Queries of the environment backend -/

/-- The URI of the environment with a query. -/
def envUri (parameters : List Parameter) : Uri :=
  ⟨some ("env://".toList ++ queryText parameters), some "env".toList, some [], some [],
    some (queryText parameters), some []⟩

/-- `envPrefix=FOO`. -/
def prefixParameter : Parameter := ⟨"envPrefix".toList, some "FOO".toList, by decide, by simp⟩

/-- `envPrefix=FOO=BAR`. -/
def doubleParameter : Parameter :=
  ⟨"envPrefix".toList, some "FOO=BAR".toList, by decide, by simp⟩

/-- A bare `debug`. -/
def debugParameter : Parameter := ⟨"debug".toList, none, by decide, by simp⟩

/-- In `?envPrefix=FOO&debug` the prefix is found. -/
theorem prefix_found :
    (samconfUriGetParameter (envUri [prefixParameter, debugParameter]) "envPrefix".toList).Yields
      (.ok, some "FOO".toList) :=
  (@samconfUriGetParameter_exact_iff [prefixParameter, debugParameter] _ rfl (by simp) _).mpr
    (.inr ⟨by decide, prefixParameter, "FOO".toList, rfl, rfl, by decide⟩)

/-- In `?envPrefix=FOO` it is not found; `debug` in `?envPrefix=FOO&debug` duplicates a
NULL string; and `?envPrefix=FOO=BAR&debug` gives `FOO`. -/
theorem single_parameter_not_found :
    (samconfUriGetParameter (envUri [prefixParameter]) "envPrefix".toList).Yields (.error, none) ∧
    (samconfUriGetParameter (envUri [prefixParameter, debugParameter])
      "debug".toList).Faults .nullString ∧
    (samconfUriGetParameter (envUri [doubleParameter, debugParameter])
      "envPrefix".toList).Yields (.ok, some "FOO".toList) ∧
    ¬ (samconfUriGetParameter (envUri [prefixParameter]) "envPrefix".toList).Yields
      (askedFor [prefixParameter] "envPrefix".toList) := by
  have hsingle : (samconfUriGetParameter (envUri [prefixParameter]) "envPrefix".toList).Yields
      (.error, none) := by
    rw [Exec.yields_iff]
    rfl
  refine ⟨hsingle, ?_, ?_, fun h => ?_⟩
  · rw [Exec.faults_iff]
    rfl
  · rw [Exec.yields_iff]
    rfl
  · have hsame := hsingle.unique h
    cases hsame

end Samconf
