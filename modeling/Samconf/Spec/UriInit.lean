/-
# What parsing a URI computes

`samconfUriInit` copies the parts out of the text one by one and does not look whether a
copy failed. Nothing is assumed of `regexec` but that it searches for the pattern.
-/

import Samconf.Spec.UriPattern

namespace Samconf

open Foundation
open Exec (Yields Ensures Avoids)

namespace UriParts

/-- What `samconfUriInit` makes of the composed URI. -/
def uri (parts : UriParts) : Uri where
  plain := some parts.text
  scheme := some (parts.scheme.getD [])
  authority := some (parts.authority.getD [])
  path := some parts.path
  query := some (parts.query.elim [] ('?' :: ·))
  fragment := some (parts.fragment.elim [] ('#' :: ·))

end UriParts

/-- Every member is that of the other URI, or its copy failed. -/
structure Uri.CopiedFrom (uri full : Uri) : Prop where
  plain : uri.plain = none ∨ uri.plain = full.plain
  scheme : uri.scheme = none ∨ uri.scheme = full.scheme
  authority : uri.authority = none ∨ uri.authority = full.authority
  path : uri.path = none ∨ uri.path = full.path
  query : uri.query = none ∨ uri.query = full.query
  fragment : uri.fragment = none ∨ uri.fragment = full.fragment

variable {regexec : Regexec} (parts : UriParts)

theorem samconfUriInit_yields (hposix : samconfUriRegex.SearchedBy 9 regexec) :
    (samconfUriInit regexec parts.text).Yields (.ok, some parts.uri) := by
  obtain ⟨pmatch, hmatch, hspans⟩ := parts.exists_pmatch hposix
  rw [samconfUriInit, hmatch]
  simp only [hspans 0 (by decide), hspans 2 (by decide), hspans 4 (by decide),
    hspans 5 (by decide), hspans 6 (by decide), hspans 8 (by decide), parts.matchText_plain,
    parts.matchText_scheme, parts.matchText_authority, parts.matchText_path,
    parts.matchText_query, parts.matchText_fragment]
  iterate 9 apply (Exec.yields_allocFor _).bind
  exact Exec.yields_pure _

theorem samconfUriInit_ensures (hposix : samconfUriRegex.SearchedBy 9 regexec) :
    (samconfUriInit regexec parts.text).Ensures fun r =>
      ∃ uri, r = (.ok, some uri) ∧ uri.CopiedFrom parts.uri := by
  obtain ⟨pmatch, hmatch, hspans⟩ := parts.exists_pmatch hposix
  rw [samconfUriInit, hmatch]
  simp only [hspans 0 (by decide), hspans 2 (by decide), hspans 4 (by decide),
    hspans 5 (by decide), hspans 6 (by decide), hspans 8 (by decide), parts.matchText_plain,
    parts.matchText_scheme, parts.matchText_authority, parts.matchText_path,
    parts.matchText_query, parts.matchText_fragment]
  refine (Exec.ensures_allocFor _).bind fun plain hplain => ?_
  refine (Exec.ensures_true _).bind fun _ _ => ?_
  refine (Exec.ensures_allocFor _).bind fun scheme hscheme => ?_
  refine (Exec.ensures_true _).bind fun _ _ => ?_
  refine (Exec.ensures_allocFor _).bind fun authority hauthority => ?_
  refine (Exec.ensures_allocFor _).bind fun path hpath => ?_
  refine (Exec.ensures_allocFor _).bind fun query hquery => ?_
  refine (Exec.ensures_true _).bind fun _ _ => ?_
  refine (Exec.ensures_allocFor _).bind fun fragment hfragment => ?_
  exact Exec.ensures_pure
    ⟨_, rfl, hplain, hscheme, hauthority, hpath, hquery, hfragment⟩

theorem samconfUriNew_yields (hposix : samconfUriRegex.SearchedBy 9 regexec) :
    (samconfUriNew regexec parts.text).Yields (.ok, some parts.uri) :=
  Exec.yields_alloc.bind (samconfUriInit_yields parts hposix)

/-- A new URI is a copy of the text's parts, as far as the copies succeeded. -/
theorem samconfUriNew_ensures (hposix : samconfUriRegex.SearchedBy 9 regexec) :
    (samconfUriNew regexec parts.text).Ensures fun r =>
      ∀ uri, r.2 = some uri → r.1 = .ok ∧ uri.CopiedFrom parts.uri := by
  refine (Exec.ensures_true Exec.alloc).bind fun granted _ => ?_
  cases granted with
  | false => exact Exec.ensures_pure fun uri h => by cases h
  | true =>
      refine (samconfUriInit_ensures parts hposix).mono ?_
      rintro r ⟨uri, rfl, hcopied⟩ uri' heq
      cases heq
      exact ⟨rfl, hcopied⟩

/-- Parsing a text only copies. -/
theorem samconfUriNew_avoids (fault : Fault) (regexec : Regexec) (uriString : CString) :
    Avoids fault (samconfUriNew regexec uriString) := by
  refine (Exec.avoids_alloc fault).bind fun granted => ?_
  cases granted with
  | false => exact Exec.avoids_pure _ _
  | true =>
      simp only [if_true, samconfUriInit]
      cases regexec uriString with
      | none => exact Exec.avoids_pure _ _
      | some pmatch =>
          iterate 9 refine (Exec.avoids_allocFor fault _).bind fun _ => ?_
          exact Exec.avoids_pure _ _

end Samconf
