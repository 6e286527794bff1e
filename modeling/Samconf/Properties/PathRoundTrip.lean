/-
# From a node to its path and back

`samconfPathGetPath` joins the keys from the nearest `root` on with slashes, and
`samconfConfigGet` splits at slashes and drops what is empty. For a document with
the single member `root`, going from a node to its path and back leads to the
node again exactly when the keys on the way to it are non-empty and free of
slashes, and none but the first is `root`.
-/

import Samconf.Spec.Find
import Samconf.Spec.Json

namespace Samconf

open Foundation
open Exec (Yields Ensures Avoids)

/-- The path of the node is reported, and under it the node is found again. -/
def RoundTrips (config : Config) (p : List ℕ) : Prop :=
  ∃ path, HasPath config p path ∧ (samconfConfigGet config (some path)).Yields (.ok, some p)

/-- The keys on the way to a node can be told apart again in its path. -/
def PlainKeys (keys : List CString) : Prop :=
  (∀ key ∈ keys, IsPathKey key) ∧ ∀ key ∈ keys.tail, key ≠ rootKey

variable {config : Config} {p : List ℕ} {path : CString}

/-! ## The path, from the nearest root on -/

/-- A node keyed `root` is its own path. -/
theorem nodePath_of_root {above : List CString}
    (hkeys : config.keysAt p = some (above ++ [rootKey])) : nodePath config p = .ok rootKey := by
  rcases RoseTree.map_key_ancestors hkeys with ⟨-, s, hs, hkey⟩
  simp [nodePath, hs, hkey]

/-- The path of any other node starts at the nearest `root` above it. -/
theorem nodePath_of_nearest_root {above between : List CString} {key : CString}
    (hkeys : config.keysAt p = some (above ++ rootKey :: between ++ [key]))
    (hbetween : ∀ k ∈ between, IsPathKey k ∧ k ≠ rootKey) (hkey : IsPathKey key)
    (hne : key ≠ rootKey) :
    nodePath config p = .ok (['/'].intercalate (rootKey :: between ++ [key])) := by
  rcases RoseTree.map_key_ancestors hkeys with ⟨hancestors, s, hs, hself⟩
  have hsplit : (config.ancestors p).map NodeData.key =
      between.reverse.map some ++
        some rootKey :: (above.reverse.map some ++ [config.label.key]) := by
    rw [hancestors]
    simp
  have hclimb := @climbPath_eq _ _ [key] _ hsplit
    (fun k hk => hbetween k (List.mem_reverse.mp hk)) (by simp) (by simpa using hkey)
  simpa [nodePath, hs, hself, hne] using hclimb

/-- A list that has an entry splits at the last one. -/
theorem exists_last_root {keys : List CString} (h : rootKey ∈ keys) :
    ∃ above between, keys = above ++ rootKey :: between ∧ rootKey ∉ between := by
  rcases List.eq_append_cons_of_mem (List.mem_reverse.mpr h) with ⟨front, back, heq, hfree⟩
  refine ⟨back.reverse, front.reverse, ?_, by simpa using hfree⟩
  rw [← List.reverse_reverse keys, heq]
  simp

/-- The path of a node has the segments from the last `root` among its keys on. -/
theorem nodePath_of_last_root {above between : List CString}
    (hkeys : config.keysAt p = some (above ++ rootKey :: between)) (hfree : rootKey ∉ between)
    (hplain : ∀ k ∈ between, IsPathKey k) :
    nodePath config p = .ok (['/'].intercalate (rootKey :: between)) := by
  rcases List.eq_nil_or_concat between with rfl | ⟨middle, key, rfl⟩
  · simpa using nodePath_of_root hkeys
  · rw [List.concat_eq_append] at *
    have hmiddle : ∀ k ∈ middle, IsPathKey k ∧ k ≠ rootKey := by
      intro k hk
      refine ⟨hplain k (by simp [hk]), ?_⟩
      rintro rfl
      exact hfree (by simp [hk])
    have hne : key ≠ rootKey := by
      rintro rfl
      exact hfree (by simp)
    exact nodePath_of_nearest_root (by simpa using hkeys) hmiddle (hplain key (by simp)) hne

/-! ## There and back -/

theorem isPathKey_rootKey : IsPathKey rootKey := by decide

/-- What is found under a path has the path's segments as its keys. -/
theorem keysAt_of_found (hsound : config.Sound)
    (h : (samconfConfigGet config (some path)).Yields (.ok, some p)) :
    config.keysAt p = some (pathSegments path) :=
  RoseTree.keysAt_of_resolve (resolve_of_found hsound h)

/-- Plain keys below a first `root` lead there and back. -/
theorem roundTrips_of_plainKeys {rest : List CString} (hsound : config.Sound)
    (hdistinct : config.Distinct) (hkeys : config.keysAt p = some (rootKey :: rest))
    (hplain : PlainKeys (rootKey :: rest)) : RoundTrips config p := by
  have hfree : rootKey ∉ rest := fun hmem => hplain.2 rootKey hmem rfl
  have hpath := @nodePath_of_last_root _ _ [] _ hkeys hfree
    fun k hk => hplain.1 k (List.mem_cons_of_mem _ hk)
  refine ⟨_, samconfPathGetPath_yields hpath, ?_⟩
  have hsegments : pathSegments (['/'].intercalate (rootKey :: rest)) = rootKey :: rest :=
    segments_intercalate hplain.1
  have hresolve : config.resolve (rootKey :: rest) = some p :=
    RoseTree.resolve_keysAt hdistinct hkeys
  have hget := samconfConfigGet_yields (['/'].intercalate (rootKey :: rest)) hsound
    (by simp [hsegments])
  rw [hsegments, hresolve] at hget
  exact hget

/-- Only plain keys do. -/
theorem plainKeys_of_roundTrips {rest : List CString} (hsound : config.Sound)
    (hkeys : config.keysAt p = some (rootKey :: rest)) (h : RoundTrips config p) :
    PlainKeys (rootKey :: rest) := by
  rcases h with ⟨path, hpath, hfound⟩
  have hsegments : pathSegments path = rootKey :: rest := by
    have hsame := keysAt_of_found hsound hfound
    rw [hkeys] at hsame
    exact (Option.some.inj hsame).symm
  have hkeysPlain : ∀ key ∈ rootKey :: rest, IsPathKey key := by
    rw [← hsegments]
    exact fun key hkey => isSegment_of_mem_segments hkey
  refine ⟨hkeysPlain, fun key hkey hroot => ?_⟩
  -- a later root cuts the path short, so that it has too few segments
  subst hroot
  rcases exists_last_root (show rootKey ∈ rest from hkey) with ⟨above, between, rfl, hfree⟩
  have hshort := @nodePath_of_last_root _ _ (rootKey :: above) _ hkeys hfree
    fun k hk => hkeysPlain k (by simp [hk])
  have hsame := hpath.unique (samconfPathGetPath_yields hshort)
  cases hsame
  have hcut : pathSegments (['/'].intercalate (rootKey :: between)) = rootKey :: between :=
    segments_intercalate fun k hk => by
      rcases List.mem_cons.mp hk with rfl | hk
      · exact isPathKey_rootKey
      · exact hkeysPlain k (by simp [hk])
  rw [hcut] at hsegments
  have hlength := congrArg List.length hsegments
  simp at hlength
  omega

/-- **Paths round-trip** for the nodes of a document with the single member `root`
exactly when the keys on the way are plain. -/
theorem roundTrips_iff_plainKeys {body : Json} {isSigned : Bool} {config : Config}
    (hunique : (Json.object [(rootKey, body)]).UniqueKeys)
    (hload : (samconfJsonBackendLoad (.object [(rootKey, body)]) isSigned).Yields
      (.ok, some config)) {p : List ℕ} {keys : List CString} (hp : p ∈ config.descendants)
    (hkeys : config.keysAt p = some keys) :
    RoundTrips config p ↔ PlainKeys keys := by
  rcases samconfJsonBackendLoad_yields_iff.mp hload with ⟨-, rfl⟩
  have hsound := Json.sound_tree isSigned (.object [(rootKey, body)]) (some configKey)
  have hdistinct := Json.distinct_tree isSigned hunique (some configKey)
  rcases RoseTree.mem_descendants.mp hp with ⟨hne, -, -⟩
  -- the first key on the way is that of the only child of the top
  obtain ⟨rest, rfl⟩ : ∃ rest, keys = rootKey :: rest := by
    cases p with
    | nil => exact absurd rfl hne
    | cons i p =>
        rw [Config.keysAt, RoseTree.keysAt_cons] at hkeys
        rcases Option.bind_eq_some_iff.mp hkeys with ⟨child, hchild, hbelow⟩
        rcases Option.bind_eq_some_iff.mp hbelow with ⟨key, hkey, hbelow⟩
        rcases Option.map_eq_some_iff.mp hbelow with ⟨rest, -, rfl⟩
        have hmem := List.mem_of_getElem? hchild
        rw [Json.loaded, Json.tree_eq] at hmem
        obtain rfl : child = body.tree isSigned (some rootKey) := by
          simpa [Json.members] using hmem
        refine ⟨rest, ?_⟩
        have hroot : rootKey = key := by simpa using hkey
        rw [hroot]
  exact ⟨plainKeys_of_roundTrips hsound hkeys, roundTrips_of_plainKeys hsound hdistinct hkeys⟩

/-- An option below `root` is found again under its path. -/
theorem oneOption_roundTrips :
    RoundTrips ((Json.oneOption ['a'] (.int 1)).loaded false) [0, 0] := by
  have hunique : (Json.oneOption ['a'] (.int 1)).UniqueKeys :=
    Json.uniqueKeys_oneOption (Json.uniqueKeys_of_members_eq_nil rfl)
  have hload : (samconfJsonBackendLoad (Json.oneOption ['a'] (.int 1)) false).Yields
      (.ok, some ((Json.oneOption ['a'] (.int 1)).loaded false)) :=
    samconfJsonBackendLoad_yields_iff.mpr ⟨rfl, rfl⟩
  exact (roundTrips_iff_plainKeys hunique hload (by decide) rfl).mpr
    ⟨by decide, by decide⟩

/-- A slash in a key takes the path to another place. -/
theorem slash_in_key_not_roundTrips :
    (samconfJsonBackendLoad (Json.oneOption ['a', '/', 'b'] (.int 1)) false).Yields
        (.ok, some ((Json.oneOption ['a', '/', 'b'] (.int 1)).loaded false)) ∧
      [0, 0] ∈ RoseTree.descendants ((Json.oneOption ['a', '/', 'b'] (.int 1)).loaded false) ∧
      ¬ RoundTrips ((Json.oneOption ['a', '/', 'b'] (.int 1)).loaded false) [0, 0] := by
  refine ⟨samconfJsonBackendLoad_yields_iff.mpr ⟨rfl, rfl⟩, by decide, ?_⟩
  rintro ⟨path, -, hfound⟩
  have hsound := Json.sound_tree false (Json.oneOption ['a', '/', 'b'] (.int 1)) (some configKey)
  have hkeys := keysAt_of_found hsound hfound
  have hsame : Config.keysAt ((Json.oneOption ['a', '/', 'b'] (.int 1)).loaded false) [0, 0] =
      some [rootKey, ['a', '/', 'b']] := rfl
  have hsegments : pathSegments path = [rootKey, ['a', '/', 'b']] :=
    (Option.some.inj (hsame.symm.trans hkeys)).symm
  have hsegment := isSegment_of_mem_segments
    (show ['a', '/', 'b'] ∈ pathSegments path by simp [hsegments])
  exact hsegment.2 (by decide)

end Samconf
