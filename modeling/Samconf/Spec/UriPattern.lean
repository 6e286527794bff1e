/-
# The function for the pattern of URIs

Every text is composed of the parts of a URI, and on a composed text the function that
stands for the compiled pattern reports the spans of its parts. So it is a search for the
pattern, and whatever else is one agrees with it.
-/

import Samconf.Spec.Uri

namespace Samconf

open Foundation

namespace UriParts

variable (parts : UriParts)

/-! ## The marks between the parts -/

/-- Where a run ends that begins at `start` and goes up to the first of the stops. -/
def runEnd (s : CString) (start : ℕ) (stops : List Char) : ℕ :=
  start + ((s.drop start).takeWhile fun c => c ∉ stops).length

/-- A run takes what has no stops in it, up to a stop or the end of the text. -/
theorem runEnd_of_drop {s x rest : CString} {start : ℕ} {stops : List Char}
    (h : s.drop start = x ++ rest) (hx : ∀ c ∈ x, c ∉ stops)
    (hrest : ∀ c, rest.head? = some c → c ∈ stops) :
    runEnd s start stops = start + x.length := by
  have hstop : rest.takeWhile (fun c => decide (c ∉ stops)) = [] := by
    cases rest with
    | nil => rfl
    | cons c rest => simp [hrest c rfl]
  rw [runEnd, h, List.takeWhile_append_of_pos (by simpa using hx), hstop, List.append_nil]

/-- The scheme and what comes behind it. -/
theorem text_of_scheme {s : CString} (h : parts.scheme = some s) :
    parts.text = s ++ (':' :: (parts.authorityPart ++
      (parts.path ++ (parts.queryPart ++ parts.fragmentPart)))) := by
  simp [text, schemePart, h]

theorem runEnd_scheme {s : CString} (h : parts.scheme = some s) :
    runEnd parts.text 0 [':', '/', '?', '#'] = s.length := by
  have hdrop := parts.text_of_scheme h
  rw [← List.drop_zero (l := parts.text)] at hdrop
  rw [runEnd_of_drop hdrop (parts.scheme_plain s h).2, Nat.zero_add]
  intro c hc
  obtain rfl : ':' = c := by simpa using hc
  simp

/-- Without a scheme the first run of scheme characters, if there is one, does not end in a
colon. -/
theorem not_colon_of_no_scheme (hscheme : parts.scheme = none)
    (hpos : runEnd parts.text 0 [':', '/', '?', '#'] ≠ 0) :
    parts.text[runEnd parts.text 0 [':', '/', '?', '#']]? ≠ some ':' := by
  intro hcolon
  have hk : runEnd parts.text 0 [':', '/', '?', '#'] =
      (parts.text.takeWhile fun c => decide (c ∉ [':', '/', '?', '#'])).length := by
    rw [runEnd, Nat.zero_add, List.drop_zero]
  generalize runEnd parts.text 0 [':', '/', '?', '#'] = k at hpos hcolon hk
  obtain ⟨hlt, hchar⟩ := List.getElem?_eq_some_iff.mp hcolon
  have htake : parts.text.take k =
      parts.text.takeWhile fun c => decide (c ∉ [':', '/', '?', '#']) := by
    rw [hk]
    exact (List.prefix_iff_eq_take.mp (List.takeWhile_prefix _)).symm
  have hplain : ∀ c ∈ parts.text.take k, noneOf [':', '/', '?', '#'] c = true := by
    intro c hc
    rw [htake] at hc
    exact List.mem_takeWhile_imp hc
  have hsplit : (parts.text.take k ++ [':']) ++ parts.text.drop (k + 1) = parts.text := by
    rw [← hchar, List.take_append_getElem, List.take_append_drop]
  obtain ⟨c, name, hname⟩ := List.exists_cons_of_ne_nil (l := parts.text.take k) (by
    rw [← List.length_pos_iff, List.length_take]
    omega)
  rw [hname] at hsplit hplain
  have hmatch : schemeRegex.Matches (c :: name ++ [':']) :=
    .inr ⟨c :: name, [':'], rfl, ⟨[c], name, rfl, ⟨c, rfl, hplain c (by simp)⟩,
      fun e he => hplain e (by simp [he])⟩, ':', rfl, rfl⟩
  have hle := parts.schemeRegex_longest hsplit hmatch
  simp [schemePart, hscheme] at hle

/-- A colon behind the first run marks a scheme. -/
theorem hasScheme_eq :
    (decide (runEnd parts.text 0 [':', '/', '?', '#'] ≠ 0) &&
      decide (parts.text[runEnd parts.text 0 [':', '/', '?', '#']]? = some ':')) =
      parts.scheme.isSome := by
  cases h : parts.scheme with
  | none =>
      simp only [Option.isSome_none, Bool.and_eq_false_iff, decide_eq_false_iff_not, not_not]
      by_cases hzero : runEnd parts.text 0 [':', '/', '?', '#'] = 0
      · exact .inl hzero
      · exact .inr (parts.not_colon_of_no_scheme h hzero)
  | some s =>
      have hne := (parts.scheme_plain s h).1
      rw [parts.runEnd_scheme h]
      simp [parts.text_of_scheme h, hne]

/-- The rest begins where the scheme ends. -/
theorem authorityMark_eq :
    (if parts.scheme.isSome then runEnd parts.text 0 [':', '/', '?', '#'] + 1 else 0) =
      parts.schemeEnd := by
  cases h : parts.scheme with
  | none => simp [schemeEnd, schemePart, h]
  | some s => simp [schemeEnd, schemePart, h, parts.runEnd_scheme h]

/-- Without an authority the rest does not begin with two slashes. -/
theorem not_slashes_of_no_authority (hauthority : parts.authority = none) :
    (parts.text.drop parts.schemeEnd).take 2 ≠ ['/', '/'] := by
  intro hslashes
  have heq := List.take_append_drop 2 (parts.text.drop parts.schemeEnd)
  rw [hslashes, drop_schemeEnd] at heq
  have hmatch : authorityRegex.Matches ['/', '/'] :=
    .inr ⟨['/'], ['/'], rfl, ⟨'/', rfl, rfl⟩, ['/'], [], rfl, ⟨'/', rfl, rfl⟩, by
      intro c hc
      cases hc⟩
  have hle := parts.authorityRegex_longest heq hmatch
  simp [authorityPart, hauthority] at hle

/-- Two slashes mark an authority. -/
theorem hasAuthority_eq :
    decide ((parts.text.drop parts.schemeEnd).take 2 = ['/', '/']) = parts.authority.isSome := by
  cases h : parts.authority with
  | none => simpa using parts.not_slashes_of_no_authority h
  | some a =>
      rw [drop_schemeEnd, authorityPart, h]
      simp

/-- The path begins where the authority ends. -/
theorem pathStart_eq :
    (if parts.authority.isSome then runEnd parts.text (parts.schemeEnd + 2) ['/', '?', '#']
      else parts.schemeEnd) = parts.authorityEnd := by
  cases h : parts.authority with
  | none => simp [authorityEnd, authorityPart, h]
  | some a =>
      rw [Option.isSome_some, if_pos rfl, runEnd_of_drop (parts.drop_authorityStart h)
        (parts.authority_plain a h) fun c hc => parts.head?_afterAuthority (by rw [h]; simp) hc]
      exact (parts.authorityEnd_of_some h).symm

theorem queryMark_eq : runEnd parts.text parts.authorityEnd ['?', '#'] = parts.pathEnd := by
  rw [runEnd_of_drop parts.drop_authorityEnd parts.path_plain fun c hc =>
    parts.head?_afterPath hc, pathEnd]

/-- A question mark behind the path marks a query. -/
theorem hasQuery_eq : decide (parts.text[parts.pathEnd]? = some '?') = parts.query.isSome := by
  rw [← List.head?_drop, drop_pathEnd]
  cases h : parts.query with
  | none =>
      rw [queryPart, h, Option.elim_none, List.nil_append, Option.isSome_none,
        decide_eq_false_iff_not]
      exact fun hmark => absurd (parts.head?_fragmentPart hmark) (by decide)
  | some q => simp [queryPart, h]

/-- The fragment begins where the query ends. -/
theorem fragmentMark_eq :
    (if parts.query.isSome then runEnd parts.text (parts.pathEnd + 1) ['#']
      else parts.pathEnd) = parts.queryEnd := by
  cases h : parts.query with
  | none => simp [queryEnd, queryPart, h]
  | some q =>
      have hdrop := parts.drop_pathEnd
      rw [queryPart, h, Option.elim_some] at hdrop
      have hstart : parts.text.drop (parts.pathEnd + 1) = q ++ parts.fragmentPart := by
        rw [← List.drop_drop, hdrop]
        rfl
      have hplain : ∀ c ∈ q, c ∉ ['#'] := by
        intro c hc
        rw [List.mem_singleton]
        exact fun heq => parts.query_plain q h (heq ▸ hc)
      rw [Option.isSome_some, if_pos rfl, runEnd_of_drop hstart hplain fun c hc => by
        rw [parts.head?_fragmentPart hc, List.mem_singleton]]
      simp only [queryEnd, queryPart, h, Option.elim_some, List.length_cons]
      omega

/-- What is left behind the query is a fragment. -/
theorem hasFragment_eq :
    decide (parts.queryEnd < parts.text.length) = parts.fragment.isSome := by
  have hlength := congrArg List.length parts.drop_queryEnd
  rw [List.length_drop] at hlength
  cases h : parts.fragment with
  | none =>
      rw [fragmentPart, h, Option.elim_none, List.length_nil] at hlength
      simpa using Nat.sub_eq_zero_iff_le.mp hlength
  | some f =>
      rw [fragmentPart, h, Option.elim_some, List.length_cons] at hlength
      simp only [Option.isSome_some, decide_eq_true_eq]
      omega

/-! ## The function for the pattern -/

/-- **The function computes the spans** of a composed URI. -/
theorem samconfUriPattern_text : samconfUriPattern parts.text = some parts.spans := by
  unfold samconfUriPattern
  extract_lets run scheme hasScheme authorityMark hasAuthority pathStart queryMark hasQuery
    fragmentMark group
  -- the marks, from left to right, are the ends of the parts
  have hhasScheme : hasScheme = parts.scheme.isSome := parts.hasScheme_eq
  have hauthorityMark : authorityMark = parts.schemeEnd := by
    rw [← parts.authorityMark_eq, ← hhasScheme]
    rfl
  have hhasAuthority : hasAuthority = parts.authority.isSome := by
    rw [← parts.hasAuthority_eq, ← hauthorityMark]
  have hpathStart : pathStart = parts.authorityEnd := by
    rw [← parts.pathStart_eq, ← hhasAuthority, ← hauthorityMark]
    rfl
  have hqueryMark : queryMark = parts.pathEnd := by
    rw [← parts.queryMark_eq, ← hpathStart]
    rfl
  have hhasQuery : hasQuery = parts.query.isSome := by
    rw [← parts.hasQuery_eq, ← hqueryMark]
  have hfragmentMark : fragmentMark = parts.queryEnd := by
    rw [← parts.fragmentMark_eq, ← hhasQuery, ← hqueryMark]
    rfl
  have hgroup : ∀ (x : Option CString) (a b : ℕ),
      group x.isSome a b = x.map fun _ => (a, b) := by
    intro x a b
    cases x <;> rfl
  congr 1
  funext n
  match n with
  | 0 => rfl
  | 1 =>
      simp only [spans, hhasScheme, hgroup]
      cases h : parts.scheme with
      | none => rfl
      | some s =>
          have hscheme : scheme = s.length := parts.runEnd_scheme h
          simp [hscheme, schemeEnd, schemePart, h]
  | 2 =>
      simp only [spans, hhasScheme, hgroup]
      cases h : parts.scheme with
      | none => rfl
      | some s =>
          have hscheme : scheme = s.length := parts.runEnd_scheme h
          simp [hscheme]
  | 3 => simp only [spans, hhasAuthority, hauthorityMark, hpathStart, hgroup]
  | 4 => simp only [spans, hhasAuthority, hauthorityMark, hpathStart, hgroup]
  | 5 => simp only [spans, hpathStart, hqueryMark]
  | 6 => simp only [spans, hhasQuery, hqueryMark, hfragmentMark, hgroup]
  | 7 => simp only [spans, hhasQuery, hqueryMark, hfragmentMark, hgroup]
  | 8 => simp only [spans, hfragmentMark, parts.hasFragment_eq, hgroup]
  | n + 9 => rfl

end UriParts

/-! ## Searching for the pattern -/

/-- What `regexec` reports for a composed URI. -/
theorem UriParts.exists_pmatch (parts : UriParts) {regexec : Regexec}
    (hposix : samconfUriRegex.SearchedBy 9 regexec) :
    ∃ pmatch, regexec parts.text = some pmatch ∧ ∀ n < 9, pmatch n = parts.spans n := by
  obtain ⟨pmatch, hsome, hspans⟩ := hposix.spans parts.posix.finds
  exact ⟨pmatch, hsome, fun n hn => (hspans n hn).trans (parts.captures_eq_spans n hn)⟩

/-! ## Every text is a URI -/

/-- What follows a run does not go on with it. -/
theorem head?_dropWhile {p : Char → Bool} {s : CString} {c : Char}
    (h : (s.dropWhile p).head? = some c) : p c = false := by
  have hnot := List.head?_dropWhile_not p s
  rw [h] at hnot
  simpa using hnot

/-- What is left after the authority. -/
theorem exists_tail (s : CString) :
    ∃ path query fragment, s = path ++ (Option.elim query [] ('?' :: ·) ++
        Option.elim fragment [] ('#' :: ·)) ∧
      (∀ c ∈ path, c ∉ ['?', '#']) ∧ ∀ q, query = some q → '#' ∉ q := by
  have hsplit := s.takeWhile_append_dropWhile (p := fun c => decide (c ∉ ['?', '#']))
  have hpath : ∀ c ∈ s.takeWhile (fun c => decide (c ∉ ['?', '#'])), c ∉ ['?', '#'] := by
    intro c hc
    simpa using List.mem_takeWhile_imp hc
  generalize s.takeWhile (fun c => decide (c ∉ ['?', '#'])) = path at hsplit hpath
  cases hrest : s.dropWhile (fun c => decide (c ∉ ['?', '#'])) with
  | nil =>
      rw [hrest] at hsplit
      exact ⟨path, none, none, by simpa using hsplit.symm, hpath, by simp⟩
  | cons c rest =>
      rw [hrest] at hsplit
      have hmark := head?_dropWhile (by rw [hrest]; rfl : (s.dropWhile _).head? = some c)
      rw [decide_eq_false_iff_not, not_not] at hmark
      simp only [List.mem_cons, List.not_mem_nil, or_false] at hmark
      rcases hmark with rfl | rfl
      · have hquery := rest.takeWhile_append_dropWhile (p := fun c => decide (c ≠ '#'))
        have hplain : '#' ∉ rest.takeWhile (fun c => decide (c ≠ '#')) := by
          intro hmem
          simpa using List.mem_takeWhile_imp hmem
        generalize rest.takeWhile (fun c => decide (c ≠ '#')) = query at hquery hplain
        cases hfragment : rest.dropWhile (fun c => decide (c ≠ '#')) with
        | nil =>
            refine ⟨path, some query, none, ?_, hpath, fun q hq => by cases hq; exact hplain⟩
            rw [← hsplit, ← hquery, hfragment]
            simp
        | cons d fragment =>
            have hhash := head?_dropWhile
              (by rw [hfragment]; rfl : (rest.dropWhile _).head? = some d)
            obtain rfl : d = '#' := by simpa using hhash
            refine ⟨path, some query, some fragment, ?_, hpath,
              fun q hq => by cases hq; exact hplain⟩
            rw [← hsplit, ← hquery, hfragment]
            simp
      · exact ⟨path, none, some rest, by simpa using hsplit.symm, hpath, by simp⟩

/-- A scheme at the front, or no front that could be one. -/
theorem exists_scheme (s : CString) :
    ∃ scheme rest, s = Option.elim scheme [] (· ++ [':']) ++ rest ∧
      (∀ name, scheme = some name → name ≠ [] ∧ ∀ c ∈ name, c ∉ [':', '/', '?', '#']) ∧
      (scheme = none → ∀ name after, rest = name ++ ':' :: after →
        (∀ c ∈ name, c ∉ [':', '/', '?', '#']) → name = []) := by
  by_cases h : ∃ name after, s = name ++ ':' :: after ∧ name ≠ [] ∧
      ∀ c ∈ name, c ∉ [':', '/', '?', '#']
  · obtain ⟨name, after, rfl, hne, hplain⟩ := h
    refine ⟨some name, after, by simp, fun name' heq => ?_, by simp⟩
    cases heq
    exact ⟨hne, hplain⟩
  · refine ⟨none, s, by simp, by simp, fun _ name after heq hplain => ?_⟩
    by_contra hne
    exact h ⟨name, after, heq, hne, hplain⟩

/-- After an authority the path is empty or begins with a slash. -/
theorem path_of_dropWhile {after path rest : CString}
    (h : after.dropWhile (fun c => decide (c ∉ ['/', '?', '#'])) = path ++ rest)
    (hpath : ∀ c ∈ path, c ∉ ['?', '#']) {c : Char} (hc : path.head? = some c) : c = '/' := by
  obtain ⟨path, rfl⟩ := List.head?_eq_some_iff.mp hc
  have hmark := head?_dropWhile
    (by rw [h]; rfl : (after.dropWhile fun c => decide (c ∉ ['/', '?', '#'])).head? = some c)
  have hplain := hpath c (by simp)
  simp only [decide_eq_false_iff_not, not_not, List.mem_cons, List.not_mem_nil,
    or_false] at hmark hplain
  exact hmark.resolve_right hplain

/-- Where no scheme could be, a colon in the first segment of the path comes first. -/
theorem path_of_no_scheme {path rest : CString}
    (hnoScheme : ∀ name after, path ++ rest = name ++ ':' :: after →
      (∀ c ∈ name, c ∉ [':', '/', '?', '#']) → name = [])
    (hpath : ∀ c ∈ path, c ∉ ['?', '#']) :
    path.head? = some ':' ∨ ':' ∉ path.takeWhile fun c => decide (c ≠ '/') := by
  by_cases hcolon : ':' ∈ path.takeWhile fun c => decide (c ≠ '/')
  · obtain ⟨name, more, hname, hfirst⟩ := List.eq_append_cons_of_mem hcolon
    have hsplit := path.takeWhile_append_dropWhile (p := fun c => decide (c ≠ '/'))
    have hslashes : ∀ c ∈ name, c ≠ '/' := by
      intro c hc
      have hmem : c ∈ path.takeWhile fun c => decide (c ≠ '/') := by
        rw [hname]
        simp [hc]
      simpa using List.mem_takeWhile_imp hmem
    rw [hname] at hsplit
    generalize path.dropWhile (fun c => decide (c ≠ '/')) = later at hsplit
    have hplain : ∀ c ∈ name, c ∉ [':', '/', '?', '#'] := by
      intro c hc
      have hend := hpath c (by rw [← hsplit]; simp [hc])
      have hcolon' : c ≠ ':' := fun heq => hfirst (heq ▸ hc)
      simp only [List.mem_cons, List.not_mem_nil, or_false, not_or] at hend ⊢
      exact ⟨hcolon', hslashes c hc, hend⟩
    obtain rfl := hnoScheme name (more ++ (later ++ rest)) (by rw [← hsplit]; simp) hplain
    left
    rw [← hsplit]
    rfl
  · exact .inr hcolon

/-- **Every text is a URI.** -/
theorem exists_uriParts (s : CString) : ∃ parts : UriParts, parts.text = s := by
  obtain ⟨scheme, rest, rfl, hschemePlain, hnoScheme⟩ := exists_scheme s
  by_cases hslashes : ∃ after, rest = '/' :: '/' :: after
  · obtain ⟨after, rfl⟩ := hslashes
    obtain ⟨path, query, fragment, htail, hpath, hquery⟩ :=
      exists_tail (after.dropWhile fun c => decide (c ∉ ['/', '?', '#']))
    have hrooted : ∀ c, path.head? = some c → c = '/' :=
      fun c hc => path_of_dropWhile htail hpath hc
    have hsegment : ':' ∉ path.takeWhile fun c => decide (c ≠ '/') := by
      cases path with
      | nil => simp
      | cons c path => simp [hrooted c rfl]
    have hplain : ∀ a, some (after.takeWhile fun c => decide (c ∉ ['/', '?', '#'])) = some a →
        ∀ c ∈ a, c ∉ ['/', '?', '#'] := by
      intro a ha c hc
      cases ha
      simpa using List.mem_takeWhile_imp hc
    refine ⟨⟨scheme, some (after.takeWhile fun c => decide (c ∉ ['/', '?', '#'])), path, query,
      fragment, hschemePlain, hplain, hpath, fun _ => hrooted, by simp, fun _ => .inr hsegment,
      hquery⟩, ?_⟩
    rw [UriParts.text, UriParts.schemePart, UriParts.authorityPart, UriParts.queryPart,
      UriParts.fragmentPart, ← htail, Option.elim_some, List.cons_append, List.cons_append,
      List.takeWhile_append_dropWhile]
  · obtain ⟨path, query, fragment, rfl, hpath, hquery⟩ := exists_tail rest
    have hsingle : path.take 2 ≠ ['/', '/'] := by
      intro htake
      have hsplit := path.take_append_drop 2
      rw [htake] at hsplit
      exact hslashes ⟨_, by rw [← hsplit]; rfl⟩
    exact ⟨⟨scheme, none, path, query, fragment, hschemePlain, by simp, hpath, by simp,
      fun _ => hsingle, fun hnone => path_of_no_scheme (hnoScheme hnone) hpath, hquery⟩, rfl⟩

/-- The function for the pattern is a search for it. -/
theorem searchedBy_samconfUriPattern : samconfUriRegex.SearchedBy 9 samconfUriPattern where
  found s spans h := by
    obtain ⟨parts, rfl⟩ := exists_uriParts s
    rw [parts.samconfUriPattern_text] at h
    cases h
    exact ⟨parts.captures, parts.posix.finds, fun n hn => (parts.captures_eq_spans n hn).symm⟩
  missed s h := by
    obtain ⟨parts, rfl⟩ := exists_uriParts s
    rw [parts.samconfUriPattern_text] at h
    cases h

end Samconf
