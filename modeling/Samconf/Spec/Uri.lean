/-
# The parts of a URI

A URI is composed of five parts, of which all but the path may be missing, and each is
marked off by delimiters that the parts before it do not contain. Every text is composed
in exactly one such way, since the pattern of `samconfUriInit` matches every text and the
rule of leftmost and longest subexpressions leaves no choice.
-/

import Samconf.Model.Uri
import Mathlib.Data.List.TakeWhile

namespace Samconf

open Foundation

/-- The parts of a URI, with the delimiters kept out of each that end it. -/
structure UriParts where
  scheme : Option CString
  authority : Option CString
  path : CString
  query : Option CString
  fragment : Option CString
  scheme_plain : ∀ s, scheme = some s → s ≠ [] ∧ ∀ c ∈ s, c ∉ [':', '/', '?', '#']
  authority_plain : ∀ a, authority = some a → ∀ c ∈ a, c ∉ ['/', '?', '#']
  path_plain : ∀ c ∈ path, c ∉ ['?', '#']
  /-- After an authority the path is empty or begins with a slash. -/
  path_rooted : authority ≠ none → ∀ c, path.head? = some c → c = '/'
  /-- Two slashes would begin an authority. -/
  path_single : authority = none → path.take 2 ≠ ['/', '/']
  /-- A colon in the first segment would end a scheme, unless it comes first. -/
  path_schemeless : scheme = none →
    path.head? = some ':' ∨ ':' ∉ path.takeWhile fun c => c ≠ '/'
  query_plain : ∀ q, query = some q → '#' ∉ q

namespace UriParts

variable (parts : UriParts)

def schemePart : CString := parts.scheme.elim [] (· ++ [':'])

def authorityPart : CString := parts.authority.elim [] fun a => '/' :: '/' :: a

def queryPart : CString := parts.query.elim [] ('?' :: ·)

def fragmentPart : CString := parts.fragment.elim [] ('#' :: ·)

/-- The composed URI. -/
def text : CString :=
  parts.schemePart ++
    (parts.authorityPart ++ (parts.path ++ (parts.queryPart ++ parts.fragmentPart)))

/-! ## What comes after a part -/

theorem head?_fragmentPart {c : Char} (h : parts.fragmentPart.head? = some c) : c = '#' := by
  cases hfragment : parts.fragment with
  | none => simp [fragmentPart, hfragment] at h
  | some f => simpa [fragmentPart, hfragment] using h.symm

theorem head?_afterPath {c : Char} (h : (parts.queryPart ++ parts.fragmentPart).head? = some c) :
    c ∈ ['?', '#'] := by
  cases hquery : parts.query with
  | none =>
      have hhash := parts.head?_fragmentPart (by simpa [queryPart, hquery] using h)
      simp [hhash]
  | some q =>
      obtain rfl : '?' = c := by simpa [queryPart, hquery] using h
      simp

/-- After an authority comes a slash, or the path is empty. -/
theorem head?_afterAuthority (hauthority : parts.authority ≠ none) {c : Char}
    (h : (parts.path ++ (parts.queryPart ++ parts.fragmentPart)).head? = some c) :
    c ∈ ['/', '?', '#'] := by
  cases hpath : parts.path with
  | nil =>
      rw [hpath, List.nil_append] at h
      have hmem := parts.head?_afterPath h
      simp only [List.mem_cons, List.not_mem_nil, or_false] at hmem ⊢
      exact .inr hmem
  | cons d rest =>
      rw [hpath] at h
      obtain rfl : d = c := by simpa using h
      simp [parts.path_rooted hauthority d (by rw [hpath]; rfl)]

/-! ## The groups -/

def fragmentCaptures : Captures :=
  parts.fragment.elim .empty fun f =>
    ((Captures.empty.around 9 f.length).shift 1).around 8 (f.length + 1)

def queryCaptures : Captures :=
  parts.query.elim .empty fun q =>
    ((Captures.empty.around 7 q.length).shift 1).around 6 (q.length + 1)

def pathCaptures : Captures := Captures.empty.around 5 parts.path.length

def authorityCaptures : Captures :=
  parts.authority.elim .empty fun a =>
    (((Captures.empty.around 4 a.length).shift 1).shift 1).around 3 (a.length + 2)

def schemeCaptures : Captures :=
  parts.scheme.elim .empty fun s =>
    ((((Captures.empty.shift 1).around 2 s.length)).union (Captures.empty.shift s.length)).around 1
      (s.length + 1)

theorem posix_fragment :
    Regex.Posix fragmentRegex parts.fragmentPart parts.fragmentCaptures := by
  cases hfragment : parts.fragment with
  | none =>
      rw [fragmentPart, fragmentCaptures, hfragment]
      exact .absent fun h => by
        obtain ⟨a, b, heq, ⟨x, rfl, -⟩, -⟩ := h
        cases heq
  | some f =>
      rw [fragmentPart, fragmentCaptures, hfragment]
      exact .present (.group (.cons rfl (.group (.many fun _ _ => rfl))))

theorem posix_query : Regex.Posix queryRegex parts.queryPart parts.queryCaptures := by
  cases hquery : parts.query with
  | none =>
      rw [queryPart, queryCaptures, hquery]
      exact .absent fun h => by
        obtain ⟨a, b, heq, ⟨x, rfl, -⟩, -⟩ := h
        cases heq
  | some q =>
      have hrun : ∀ c ∈ q, noneOf ['#'] c = true := by
        intro c hc
        have hne : c ≠ '#' := fun heq => parts.query_plain q hquery (heq ▸ hc)
        simp [noneOf, hne]
      rw [queryPart, queryCaptures, hquery]
      exact .present (.group (.cons rfl (.group (.many hrun))))

theorem posix_path : Regex.Posix pathRegex parts.path parts.pathCaptures := by
  refine .group (.many fun c hc => ?_)
  rw [noneOf, decide_eq_true_eq]
  exact parts.path_plain c hc

theorem posix_authority :
    Regex.Posix authorityRegex parts.authorityPart parts.authorityCaptures := by
  cases hauthority : parts.authority with
  | none =>
      rw [authorityPart, authorityCaptures, hauthority]
      exact .absent fun h => by
        obtain ⟨a, b, heq, ⟨x, rfl, -⟩, -⟩ := h
        cases heq
  | some a =>
      have hrun : ∀ c ∈ a, noneOf ['/', '?', '#'] c = true := by
        intro c hc
        rw [noneOf, decide_eq_true_eq]
        exact parts.authority_plain a hauthority c hc
      rw [authorityPart, authorityCaptures, hauthority]
      exact .present (.group (.cons rfl (.cons rfl (.group (.many hrun)))))

theorem posix_scheme : Regex.Posix schemeRegex parts.schemePart parts.schemeCaptures := by
  cases hscheme : parts.scheme with
  | none =>
      rw [schemePart, schemeCaptures, hscheme]
      exact .absent fun h => by
        obtain ⟨a, b, heq, ⟨c, d, rfl, ⟨x, rfl, -⟩, -⟩, -⟩ := h
        cases heq
  | some s =>
      obtain ⟨hne, hplain⟩ := parts.scheme_plain s hscheme
      have hrun : ∀ c ∈ s, noneOf [':', '/', '?', '#'] c = true := by
        intro c hc
        rw [noneOf, decide_eq_true_eq]
        exact hplain c hc
      rw [schemePart, schemeCaptures, hscheme]
      obtain ⟨c, rest, rfl⟩ := List.exists_cons_of_ne_nil hne
      have hname : Regex.Posix (.seq (.one (noneOf [':', '/', '?', '#']))
          (.many (noneOf [':', '/', '?', '#']))) (c :: rest) (Captures.empty.shift 1) :=
        .cons (hrun c (by simp)) (.many fun d hd => hrun d (by simp [hd]))
      have hscheme := Regex.Posix.concat (.group (n := 2) hname) (p := just ':') (x := ':') rfl
      have hgroup := Regex.Posix.group (n := 1) hscheme
      rw [List.length_append] at hgroup
      exact .present hgroup

/-! ## Each part takes as much as it can -/

theorem queryRegex_longest {a' b' : CString}
    (heq : a' ++ b' = parts.queryPart ++ parts.fragmentPart) (h : queryRegex.Matches a') :
    a'.length ≤ parts.queryPart.length := by
  rcases h with rfl | ⟨mark, q', rfl, ⟨x, rfl, hmark⟩, hrun⟩
  · exact Nat.zero_le _
  obtain rfl : x = '?' := by simpa [just] using hmark
  cases hquery : parts.query with
  | none =>
      rw [queryPart, hquery, Option.elim_none, List.nil_append] at heq
      have hhash := parts.head?_fragmentPart (c := '?') (by rw [← heq]; rfl)
      exact absurd hhash (by decide)
  | some q =>
      rw [queryPart, hquery, Option.elim_some, List.cons_append] at heq
      have hrest : q' ++ b' = q ++ parts.fragmentPart := by simpa using heq
      have hle := Regex.length_le_of_run hrest hrun fun c hc => by
        rw [parts.head?_fragmentPart hc]
        rfl
      simpa [queryPart, hquery] using hle

theorem pathRegex_longest {a' b' : CString}
    (heq : a' ++ b' = parts.path ++ (parts.queryPart ++ parts.fragmentPart))
    (h : pathRegex.Matches a') : a'.length ≤ parts.path.length := by
  refine Regex.length_le_of_run heq h fun c hc => ?_
  have hmem := parts.head?_afterPath hc
  rw [noneOf, decide_eq_false_iff_not, not_not]
  exact hmem

theorem authorityRegex_longest {a' b' : CString}
    (heq : a' ++ b' =
      parts.authorityPart ++ (parts.path ++ (parts.queryPart ++ parts.fragmentPart)))
    (h : authorityRegex.Matches a') : a'.length ≤ parts.authorityPart.length := by
  rcases h with rfl | ⟨first, rest, rfl, ⟨x, rfl, hx⟩, second, auth', rfl, ⟨y, rfl, hy⟩, hrun⟩
  · exact Nat.zero_le _
  obtain rfl : x = '/' := by simpa [just] using hx
  obtain rfl : y = '/' := by simpa [just] using hy
  cases hauthority : parts.authority with
  | none =>
      -- the path would begin with the two slashes
      rw [authorityPart, hauthority, Option.elim_none, List.nil_append] at heq
      have hafter := @head?_afterPath parts
      generalize parts.queryPart ++ parts.fragmentPart = after at heq hafter
      have hsingle := parts.path_single hauthority
      cases hpath : parts.path with
      | nil =>
          rw [hpath, List.nil_append] at heq
          exact absurd (hafter (c := '/') (by rw [← heq]; rfl)) (by decide)
      | cons c path =>
          rw [hpath] at heq hsingle
          obtain ⟨rfl, htail⟩ : '/' = c ∧ '/' :: (auth' ++ b') = path ++ after := by
            simpa using heq
          cases path with
          | nil =>
              rw [List.nil_append] at htail
              exact absurd (hafter (c := '/') (by rw [← htail]; rfl)) (by decide)
          | cons d path =>
              obtain ⟨rfl, -⟩ : '/' = d ∧ auth' ++ b' = path ++ after := by simpa using htail
              exact absurd rfl hsingle
  | some a =>
      rw [authorityPart, hauthority, Option.elim_some] at heq
      have hrest : auth' ++ b' = a ++ (parts.path ++ (parts.queryPart ++ parts.fragmentPart)) := by
        simpa using heq
      have hle := Regex.length_le_of_run hrest hrun fun c hc => by
        have hmem := parts.head?_afterAuthority (by rw [hauthority]; simp) hc
        rw [noneOf, decide_eq_false_iff_not, not_not]
        exact hmem
      simpa [authorityPart, hauthority] using hle

/-- Where a run of characters ends before another kind, a text has one such run. -/
theorem append_cons_of_run {p : Char → Bool} {x rest rest' : CString} {c : Char}
    {s : CString} (heq : x ++ c :: rest = s ++ rest') (hx : ∀ d ∈ x, p d = true)
    (hrest : ∀ d, rest'.head? = some d → p d = false ∧ d ≠ c) :
    ∃ y, s = x ++ c :: y := by
  have hshort : x.length ≤ s.length :=
    Regex.length_le_of_run heq hx fun d hd => (hrest d hd).1
  obtain ⟨y, rfl⟩ : x <+: s :=
    List.prefix_of_prefix_length_le ⟨c :: rest, heq⟩ ⟨rest', rfl⟩ hshort
  rw [List.append_assoc] at heq
  have hcons := List.append_cancel_left heq
  cases y with
  | nil =>
      rw [List.nil_append] at hcons
      exact absurd rfl (hrest c (by rw [← hcons]; rfl)).2
  | cons d y =>
      obtain rfl : c = d := (List.cons.inj hcons).1
      exact ⟨y, rfl⟩

/-- A scheme is a name, with none of the characters that end one, and its mark. -/
theorem schemeRegex_matches {a' : CString} (h : schemeRegex.Matches a') :
    a' = [] ∨ ∃ c name, a' = c :: name ++ [':'] ∧
      ∀ d ∈ c :: name, noneOf [':', '/', '?', '#'] d = true := by
  rcases h with rfl | ⟨name, mark, rfl, ⟨first, rest, rfl, ⟨c, rfl, hc⟩, hrest⟩, x, rfl, hx⟩
  · exact .inl rfl
  obtain rfl : x = ':' := by simpa [just] using hx
  refine .inr ⟨c, rest, rfl, fun d hd => ?_⟩
  rcases List.mem_cons.mp hd with rfl | hd
  · exact hc
  · exact hrest d hd

/-- A path that no scheme or authority comes before does not begin like a scheme. -/
theorem no_scheme_in_path (hscheme : parts.scheme = none) {c : Char} {name b' : CString}
    (heq : c :: name ++ ':' :: b' = parts.path ++ (parts.queryPart ++ parts.fragmentPart))
    (hplain : ∀ d ∈ c :: name, noneOf [':', '/', '?', '#'] d = true) : False := by
  obtain ⟨y, hy⟩ := append_cons_of_run heq hplain fun d hd => by
    have hmem := parts.head?_afterPath hd
    simp only [List.mem_cons, List.not_mem_nil, or_false] at hmem
    rcases hmem with rfl | rfl <;> decide
  have hstop : ∀ d ∈ c :: name, d ∉ [':', '/', '?', '#'] := by
    intro d hd
    simpa only [noneOf, decide_eq_true_eq] using hplain d hd
  have hfirst : parts.path.head? ≠ some ':' := by
    rw [hy, List.cons_append, List.head?_cons]
    rintro heq
    obtain rfl := Option.some.inj heq
    exact hstop ':' List.mem_cons_self List.mem_cons_self
  refine absurd ?_ ((parts.path_schemeless hscheme).resolve_left hfirst)
  have hslash : ∀ d ∈ c :: name, decide (d ≠ '/') = true := by
    intro d hd
    rw [decide_eq_true_eq]
    rintro rfl
    exact hstop '/' hd (by simp)
  rw [hy, List.takeWhile_append_of_pos hslash]
  simp

theorem schemeRegex_longest {a' b' : CString} (heq : a' ++ b' = parts.text)
    (h : schemeRegex.Matches a') : a'.length ≤ parts.schemePart.length := by
  rcases schemeRegex_matches h with rfl | ⟨c, name, rfl, hplain⟩
  · exact Nat.zero_le _
  rw [List.append_assoc, List.singleton_append] at heq
  cases hscheme : parts.scheme with
  | some s =>
      have hname : c :: name ++ ':' :: b' = s ++ ':' :: (parts.authorityPart ++
          (parts.path ++ (parts.queryPart ++ parts.fragmentPart))) := by
        simpa [text, schemePart, hscheme] using heq
      have hle := Regex.length_le_of_run hname hplain fun d hd => by
        obtain rfl : ':' = d := by simpa using hd
        rfl
      simpa [schemePart, hscheme] using hle
  | none =>
      rw [text, schemePart, hscheme, Option.elim_none, List.nil_append] at heq
      cases hauthority : parts.authority with
      | some a =>
          -- the text begins with a slash
          rw [authorityPart, hauthority, Option.elim_some] at heq
          obtain rfl : c = '/' := by simpa using congrArg List.head? heq
          exact absurd (hplain '/' List.mem_cons_self) (by decide)
      | none =>
          rw [authorityPart, hauthority, Option.elim_none, List.nil_append] at heq
          exact (parts.no_scheme_in_path hscheme heq hplain).elim

/-- The groups of the composed URI. -/
def captures : Captures :=
  (parts.schemeCaptures.union ((parts.authorityCaptures.union ((parts.pathCaptures.union
    ((parts.queryCaptures.union
      (parts.fragmentCaptures.shift parts.queryPart.length)).shift
    parts.path.length)).shift
      parts.authorityPart.length)).shift parts.schemePart.length)).around 0 parts.text.length

/-- **The pattern takes a composed URI apart** into its parts. -/
theorem posix : Regex.Posix samconfUriRegex parts.text parts.captures := by
  refine .group (.seq parts.posix_scheme (.seq parts.posix_authority (.seq parts.posix_path
    (.seq parts.posix_query parts.posix_fragment ?_) ?_) ?_) ?_)
  · exact fun a' b' heq h _ => parts.queryRegex_longest heq h
  · exact fun a' b' heq h _ => parts.pathRegex_longest heq h
  · exact fun a' b' heq h _ => parts.authorityRegex_longest heq h
  · exact fun a' b' heq h _ => parts.schemeRegex_longest heq h

theorem schemeCaptures_apply (n : ℕ) :
    parts.schemeCaptures n =
      if n = 1 then parts.scheme.map fun s => (0, s.length + 1)
      else if n = 2 then parts.scheme.map fun s => (0, s.length) else none := by
  rw [schemeCaptures]
  cases parts.scheme <;> simp

theorem authorityCaptures_apply (n : ℕ) :
    parts.authorityCaptures n =
      if n = 3 then parts.authority.map fun a => (0, a.length + 2)
      else if n = 4 then parts.authority.map fun a => (2, a.length + 2) else none := by
  rw [authorityCaptures]
  cases parts.authority with
  | none => simp
  | some a =>
      by_cases hn : n = 4
      · simp [hn, Nat.add_comm, Nat.add_left_comm]
      · simp [hn]

theorem queryCaptures_apply (n : ℕ) :
    parts.queryCaptures n =
      if n = 6 then parts.query.map fun q => (0, q.length + 1)
      else if n = 7 then parts.query.map fun q => (1, q.length + 1) else none := by
  rw [queryCaptures]
  cases parts.query with
  | none => simp
  | some q =>
      by_cases hn : n = 7
      · simp [hn, Nat.add_comm]
      · simp [hn]

theorem fragmentCaptures_apply (n : ℕ) :
    parts.fragmentCaptures n =
      if n = 8 then parts.fragment.map fun f => (0, f.length + 1)
      else if n = 9 then parts.fragment.map fun f => (1, f.length + 1) else none := by
  rw [fragmentCaptures]
  cases parts.fragment with
  | none => simp
  | some f =>
      by_cases hn : n = 9
      · simp [hn, Nat.add_comm]
      · simp [hn]

/-! ## Where the groups are -/

/-- The ends of the first three parts. -/
def schemeEnd : ℕ := parts.schemePart.length

def authorityEnd : ℕ := parts.schemeEnd + parts.authorityPart.length

def pathEnd : ℕ := parts.authorityEnd + parts.path.length

def queryEnd : ℕ := parts.pathEnd + parts.queryPart.length

/-- The spans of the groups of the pattern, of which there is no tenth. -/
def spans : Captures
  | 0 => some (0, parts.text.length)
  | 1 => parts.scheme.map fun _ => (0, parts.schemeEnd)
  | 2 => parts.scheme.map fun s => (0, s.length)
  | 3 => parts.authority.map fun _ => (parts.schemeEnd, parts.authorityEnd)
  | 4 => parts.authority.map fun _ => (parts.schemeEnd + 2, parts.authorityEnd)
  | 5 => some (parts.authorityEnd, parts.pathEnd)
  | 6 => parts.query.map fun _ => (parts.pathEnd, parts.queryEnd)
  | 7 => parts.query.map fun _ => (parts.pathEnd + 1, parts.queryEnd)
  | 8 => parts.fragment.map fun _ => (parts.queryEnd, parts.text.length)
  | _ => none

theorem captures_eq_spans : ∀ n < 9, parts.captures n = parts.spans n := by
  intro n hn
  have hs := parts.schemeCaptures_apply n
  have ha := parts.authorityCaptures_apply n
  have hq := parts.queryCaptures_apply n
  have hf := parts.fragmentCaptures_apply n
  have hp : parts.pathCaptures n = if n = 5 then some (0, parts.path.length) else none := by
    simp [pathCaptures]
  rw [captures]
  simp only [Captures.around_apply, Captures.union_apply, Captures.shift_apply, hs, ha, hp, hq,
    hf]
  match n with
  | 0 => rfl
  | 1 => cases h : parts.scheme <;> simp [spans, schemeEnd, schemePart, h]
  | 2 => simp [spans]
  | 3 => cases h : parts.authority <;> simp [spans, schemeEnd, authorityEnd, authorityPart, h]
  | 4 => cases h : parts.authority <;> simp [spans, schemeEnd, authorityEnd, authorityPart, h]
  | 5 => simp [spans, schemeEnd, authorityEnd, pathEnd, Nat.add_assoc]
  | 6 =>
      cases h : parts.query <;>
        simp [spans, schemeEnd, authorityEnd, pathEnd, queryEnd, queryPart, h, Nat.add_assoc]
  | 7 =>
      cases h : parts.query <;>
        simp [spans, schemeEnd, authorityEnd, pathEnd, queryEnd, queryPart, h, Nat.add_assoc]
  | 8 =>
      cases h : parts.fragment <;>
        simp [spans, schemeEnd, authorityEnd, pathEnd, queryEnd, fragmentPart, text, h,
          Nat.add_assoc]

/-- What is left of the text from each end on. -/
theorem drop_schemeEnd :
    parts.text.drop parts.schemeEnd =
      parts.authorityPart ++ (parts.path ++ (parts.queryPart ++ parts.fragmentPart)) := by
  rw [text, schemeEnd, List.drop_left]

theorem drop_authorityStart {a : CString} (h : parts.authority = some a) :
    parts.text.drop (parts.schemeEnd + 2) =
      a ++ (parts.path ++ (parts.queryPart ++ parts.fragmentPart)) := by
  have hdrop := parts.drop_schemeEnd
  rw [authorityPart, h, Option.elim_some] at hdrop
  rw [← List.drop_drop, hdrop]
  rfl

theorem authorityEnd_of_some {a : CString} (h : parts.authority = some a) :
    parts.authorityEnd = parts.schemeEnd + 2 + a.length := by
  simp only [authorityEnd, authorityPart, h, Option.elim_some, List.length_cons]
  omega

theorem drop_authorityEnd :
    parts.text.drop parts.authorityEnd =
      parts.path ++ (parts.queryPart ++ parts.fragmentPart) := by
  rw [authorityEnd, ← List.drop_drop, drop_schemeEnd, List.drop_left]

theorem drop_pathEnd :
    parts.text.drop parts.pathEnd = parts.queryPart ++ parts.fragmentPart := by
  rw [pathEnd, ← List.drop_drop, drop_authorityEnd, List.drop_left]

theorem drop_queryEnd : parts.text.drop parts.queryEnd = parts.fragmentPart := by
  rw [queryEnd, ← List.drop_drop, drop_pathEnd, List.drop_left]

/-- A part is the text of its span. -/
theorem matchText_of_drop {s part rest : CString} {start : ℕ} (h : s.drop start = part ++ rest) :
    matchText s (some (start, start + part.length)) = part := by
  rw [matchText, h, Nat.add_sub_cancel_left, List.take_left]

theorem matchText_plain : matchText parts.text (parts.spans 0) = parts.text := by
  simp [spans, matchText]

theorem matchText_scheme : matchText parts.text (parts.spans 2) = parts.scheme.getD [] := by
  cases h : parts.scheme with
  | none => simp [spans, h, matchText]
  | some s => simp [spans, h, matchText, text, schemePart]

theorem matchText_authority : matchText parts.text (parts.spans 4) = parts.authority.getD [] := by
  cases h : parts.authority with
  | none => simp [spans, h, matchText]
  | some a =>
      simp only [spans, h, Option.map_some, Option.getD_some, parts.authorityEnd_of_some h]
      exact matchText_of_drop (parts.drop_authorityStart h)

theorem matchText_path : matchText parts.text (parts.spans 5) = parts.path :=
  matchText_of_drop parts.drop_authorityEnd

theorem matchText_query : matchText parts.text (parts.spans 6) = parts.queryPart := by
  cases h : parts.query with
  | none => simp [spans, h, matchText, queryPart]
  | some q =>
      simp only [spans, h, Option.map_some]
      exact matchText_of_drop parts.drop_pathEnd

theorem matchText_fragment : matchText parts.text (parts.spans 8) = parts.fragmentPart := by
  cases h : parts.fragment with
  | none => simp [spans, h, matchText, fragmentPart]
  | some f =>
      have hend : parts.text.length = parts.queryEnd + parts.fragmentPart.length := by
        simp [text, queryEnd, pathEnd, authorityEnd, schemeEnd, Nat.add_assoc]
      simp only [spans, h, Option.map_some, hend]
      exact @matchText_of_drop _ _ [] _ (by rw [List.append_nil, drop_queryEnd])

end UriParts

end Samconf
