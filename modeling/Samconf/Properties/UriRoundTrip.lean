/-
# Composed URIs are taken apart again

`samconfUriInit` keeps five of the groups of its pattern. Scheme, authority and path are
the groups inside the delimiters, query and fragment the groups with theirs: a query is
kept with its `?`, which `samconfUriGetParameter` expects, and a fragment with its `#`.

About `regexec` nothing is assumed but that it finds the longest match, with the spans
of the standard.
-/

import Samconf.Spec.UriInit

namespace Samconf

open Foundation
open Exec (Yields Ensures)

/-- What a fragment without its mark would make of the composed URI. -/
def UriParts.uriOfBareFragment (parts : UriParts) : Uri :=
  { parts.uri with fragment := some (parts.fragment.getD []) }

variable {regexec : Regexec}

/-- **Parsing undoes composition**, up to the marks of query and fragment. Without failing
allocations every part comes back; on any supply the status is OK, and a member whose
copy failed is missing. -/
theorem samconfUriInit_composed (hposix : samconfUriRegex.SearchedBy 9 regexec)
    (parts : UriParts) :
    (samconfUriInit regexec parts.text).Yields (.ok, some parts.uri) ∧
    (samconfUriInit regexec parts.text).Ensures fun r =>
      ∃ uri, r = (.ok, some uri) ∧ uri.CopiedFrom parts.uri :=
  ⟨samconfUriInit_yields parts hposix, samconfUriInit_ensures parts hposix⟩

/-- `file:a?b#c` -/
def fileUri : UriParts where
  scheme := some "file".toList
  authority := none
  path := ['a']
  query := some ['b']
  fragment := some ['c']
  scheme_plain s hs := by
    cases hs
    simp
  authority_plain a ha := by cases ha
  path_plain := by simp
  path_rooted h := absurd rfl h
  path_single _ := by decide
  path_schemeless h := by cases h
  query_plain q hq := by
    cases hq
    decide

/-- It comes back in its parts. -/
theorem fileUri_parsed :
    (samconfUriInit samconfUriPattern "file:a?b#c".toList).Yields
      (.ok, some ⟨some "file:a?b#c".toList, some "file".toList, some [], some ['a'],
        some "?b".toList, some "#c".toList⟩) :=
  (samconfUriInit_composed searchedBy_samconfUriPattern fileUri).1

/-- Its fragment is kept with the mark. -/
theorem fileUri_fragment_marked :
    samconfUriRegex.SearchedBy 9 samconfUriPattern ∧
      ¬ (samconfUriInit samconfUriPattern fileUri.text).Yields
        (.ok, some fileUri.uriOfBareFragment) := by
  refine ⟨searchedBy_samconfUriPattern, fun h => ?_⟩
  have hsame := h.unique (samconfUriInit_yields fileUri searchedBy_samconfUriPattern)
  exact absurd hsame (by decide)

end Samconf
