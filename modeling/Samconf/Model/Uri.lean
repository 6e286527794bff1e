/-
# URIs

`samconfUriInit` and `samconfUriGetParameter`. Matching against a compiled pattern
gives, for a string that matches, the span of each capture group, or nothing for
a group that took no part, which the code copies as the empty string. The
results hold whatever the matching; `samconfUriPattern` is the one that the code
compiles.
-/

import Samconf.Foundation.Regex
import Samconf.Model.Types

namespace Samconf

open Foundation

/-- `samconfUri_t`. A member is `none` when its copy failed. -/
structure Uri where
  plain : Option CString
  scheme : Option CString
  authority : Option CString
  path : Option CString
  query : Option CString
  fragment : Option CString
  deriving DecidableEq

/-- The result of `regexec`: the spans of the capture groups, as start and end. -/
abbrev Regexec := CString → Option (ℕ → Option (ℕ × ℕ))

/-- The matches of `SAMCONF_URI_PATTERN`. Every part is the longest run that its
character class allows, and a part whose delimiter is missing takes no part. -/
def samconfUriPattern : Regexec := fun uriString =>
  let run (start : ℕ) (stops : List Char) : ℕ :=
    start + ((uriString.drop start).takeWhile fun c => c ∉ stops).length
  let scheme := run 0 [':', '/', '?', '#']
  let hasScheme := decide (scheme ≠ 0) && decide (uriString[scheme]? = some ':')
  let authorityMark := if hasScheme then scheme + 1 else 0
  let hasAuthority := decide ((uriString.drop authorityMark).take 2 = ['/', '/'])
  let pathStart :=
    if hasAuthority then run (authorityMark + 2) ['/', '?', '#'] else authorityMark
  let queryMark := run pathStart ['?', '#']
  let hasQuery := decide (uriString[queryMark]? = some '?')
  let fragmentMark := if hasQuery then run (queryMark + 1) ['#'] else queryMark
  let group (present : Bool) (start stop : ℕ) : Option (ℕ × ℕ) :=
    if present then some (start, stop) else none
  some fun
    | 0 => some (0, uriString.length)
    | 1 => group hasScheme 0 (scheme + 1)
    | 2 => group hasScheme 0 scheme
    | 3 => group hasAuthority authorityMark pathStart
    | 4 => group hasAuthority (authorityMark + 2) pathStart
    | 5 => some (pathStart, queryMark)
    | 6 => group hasQuery queryMark fragmentMark
    | 7 => group hasQuery (queryMark + 1) fragmentMark
    | 8 => group (decide (fragmentMark < uriString.length)) fragmentMark uriString.length
    | _ => none

/-- `[^...]` -/
def noneOf (stops : List Char) : Char → Bool := fun c => decide (c ∉ stops)

/-- A character that stands for itself. -/
def just (char : Char) : Char → Bool := fun c => decide (c = char)

/-- `(([^:/?#]+):)?` -/
def schemeRegex : Regex Char :=
  .opt (.group 1 (.seq
    (.group 2 (.seq (.one (noneOf [':', '/', '?', '#'])) (.many (noneOf [':', '/', '?', '#']))))
    (.one (just ':'))))

/-- `(//([^/?#]*))?` -/
def authorityRegex : Regex Char :=
  .opt (.group 3 (.seq (.one (just '/')) (.seq (.one (just '/'))
    (.group 4 (.many (noneOf ['/', '?', '#']))))))

/-- `([^?#]*)` -/
def pathRegex : Regex Char := .group 5 (.many (noneOf ['?', '#']))

/-- `(\?([^#]*))?` -/
def queryRegex : Regex Char :=
  .opt (.group 6 (.seq (.one (just '?')) (.group 7 (.many (noneOf ['#'])))))

/-- `(#(.*))?` -/
def fragmentRegex : Regex Char :=
  .opt (.group 8 (.seq (.one (just '#')) (.group 9 (.many fun _ => true))))

/-- `SAMCONF_URI_PATTERN`, whose `^` ties it to the front of the text. The whole match is
group 0. -/
def samconfUriRegex : Regex Char :=
  .group 0 (.seq schemeRegex (.seq authorityRegex
    (.seq pathRegex (.seq queryRegex fragmentRegex))))

/-- The text of one capture group. -/
def matchText (uriString : CString) : Option (ℕ × ℕ) → CString
  | none => []
  | some (start, stop) => (uriString.drop start).take (stop - start)

/-- `samconfUriInit`: one `strndup` for each of the nine groups, none of them
checked. -/
def samconfUriInit (regexec : Regexec) (uriString : CString) : Run (ConfigStatus × Option Uri) :=
  match regexec uriString with
  | none => pure (.error, none)
  | some pmatch => do
      let plain ← strdup (matchText uriString (pmatch 0))
      let _ ← strdup (matchText uriString (pmatch 1))
      let scheme ← strdup (matchText uriString (pmatch 2))
      let _ ← strdup (matchText uriString (pmatch 3))
      let authority ← strdup (matchText uriString (pmatch 4))
      let path ← strdup (matchText uriString (pmatch 5))
      let query ← strdup (matchText uriString (pmatch 6))
      let _ ← strdup (matchText uriString (pmatch 7))
      let fragment ← strdup (matchText uriString (pmatch 8))
      pure (.ok, some ⟨plain, scheme, authority, path, query, fragment⟩)

/-- `samconfUriNew`. -/
def samconfUriNew (regexec : Regexec) (uriString : CString) : Run (ConfigStatus × Option Uri) := do
  if ← Exec.alloc then samconfUriInit regexec uriString else pure (.error, none)

/-- The loop of `samconfUriGetParameter` over the parameters that `strsep` cuts out.
A parameter whose copy fails is passed over, and a name without `=` makes the
code duplicate a NULL pointer. -/
def findParameter (uriParam : CString) : List CString → Run (ConfigStatus × Option CString)
  | [] => pure (.error, none)
  | token :: tokens => do
      match ← strdup token with
      | none => findParameter uriParam tokens
      | some paramString =>
          let parts := paramString.splitOn '='
          if parts.head? = some uriParam then
            let value ← strdup (← deref .nullString parts[1]?)
            pure (.ok, value)
          else findParameter uriParam tokens

/-- `samconfUriGetParameter`: the status and `*value`. The first `strsep` must leave
a rest, or no parameter is looked at. -/
def samconfUriGetParameter (uri : Uri) (uriParam : CString) :
    Run (ConfigStatus × Option CString) :=
  match uri.query with
  | none => pure (.error, none)
  | some query => do
      match ← strdup query with
      | none => pure (.error, none)
      | some queryString =>
          let queryString := if queryString.head? = some '?' then queryString.tail else queryString
          let tokens := queryString.splitOn '&'
          if 2 ≤ tokens.length then findParameter uriParam tokens else pure (.error, none)

end Samconf
