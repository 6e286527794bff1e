/-
# What the path functions compute

`samconfPathCreateArray` stores the segments of its path, which is the
counterpart in the code of splitting at `/`. `samconfPathGetPath` joins the keys
below the nearest ancestor keyed `root`, with `root` in front. Both statements
come in two strengths: what is returned when no allocation fails, and what is
returned if anything is.
-/

import Samconf.Model.Path
import Samconf.Spec.Tree

namespace Samconf

open Foundation
open Exec (Yields Ensures Avoids)

/-- The segments of a path. -/
abbrev pathSegments (path : CString) : List CString := segments '/' path

/-! ## Splitting -/

theorem countSegmentEnds_eq (previous : Char) (rest : CString) :
    countSegmentEnds previous rest = (pathSegments (previous :: rest)).length := by
  induction rest generalizing previous with
  | nil =>
      by_cases h : previous = '/'
      · subst h
        rfl
      · have hrun : IsSegment '/' [previous] := ⟨by simp, by simpa using Ne.symm h⟩
        simp [countSegmentEnds, h, pathSegments, segments_of_isSegment hrun]
  | cons c rest ih =>
      rw [countSegmentEnds, ih]
      by_cases hp : previous = '/'
      · subst hp
        simp [pathSegments]
      · by_cases hc : c = '/'
        · subst hc
          have hrun : IsSegment '/' [previous] := ⟨by simp, by simpa using Ne.symm hp⟩
          have hsplit : segments '/' (previous :: '/' :: rest) =
              [previous] :: segments '/' rest := segments_append_sep hrun rest
          simp only [pathSegments, hsplit, segments_sep_cons, List.length_cons]
          simp [hp, Nat.add_comm]
        · simp [pathSegments, hp, hc, length_segments_cons_cons hp hc]

/-- The count of segment ends is the number of segments. -/
theorem pathGetSegmentCount_eq (path : CString) :
    pathGetSegmentCount path = (pathSegments path).length := by
  cases path with
  | nil => simp [pathGetSegmentCount, pathSegments]
  | cons c rest => exact countSegmentEnds_eq c rest

theorem collectTokens_yields {n : ℕ} {s : CString} (h : s.length < n) :
    (collectTokens n s).Yields (some (pathSegments s)) := by
  induction n generalizing s with
  | zero => omega
  | succ n ih =>
      rw [collectTokens, pathSegments, segments_eq_nextToken]
      cases htoken : nextToken '/' s with
      | none => exact Exec.yields_pure _
      | some r =>
          rcases r with ⟨token, rest⟩
          have hshort := length_lt_of_nextToken htoken
          apply (Exec.yields_allocFor token).bind
          apply (ih (s := rest) (by omega)).bind
          exact Exec.yields_pure _

theorem collectTokens_ensures (n : ℕ) (s : CString) :
    (collectTokens n s).Ensures fun r => r = none ∨ r = some (pathSegments s) := by
  induction n generalizing s with
  | zero => exact Exec.ensures_fault _
  | succ n ih =>
      rw [collectTokens, pathSegments, segments_eq_nextToken]
      cases nextToken '/' s with
      | none => exact Exec.ensures_pure (.inr rfl)
      | some r =>
          rcases r with ⟨token, rest⟩
          apply (Exec.ensures_allocFor token).bind
          rintro entry (rfl | rfl)
          · exact Exec.ensures_pure (.inl rfl)
          · apply (ih rest).bind
            rintro entries (rfl | rfl)
            · exact Exec.ensures_pure (.inl rfl)
            · exact Exec.ensures_pure (.inr rfl)

theorem collectTokens_avoids {e : Fault} {n : ℕ} {s : CString} (h : s.length < n) :
    Avoids e (collectTokens n s) := by
  induction n generalizing s with
  | zero => omega
  | succ n ih =>
      rw [collectTokens]
      cases htoken : nextToken '/' s with
      | none => exact Exec.avoids_pure _ _
      | some r =>
          rcases r with ⟨token, rest⟩
          have hshort := length_lt_of_nextToken htoken
          apply (Exec.avoids_allocFor e token).bind
          intro entry
          cases entry with
          | none => exact Exec.avoids_pure _ _
          | some entry =>
              apply (ih (s := rest) (by omega)).bind
              intro entries
              cases entries with
              | none => exact Exec.avoids_pure _ _
              | some entries => exact Exec.avoids_pure _ _

/-- Without failing allocations the array holds the segments of the path. -/
theorem samconfPathCreateArray_yields (path : CString) :
    (samconfPathCreateArray path).Yields (.ok, pathSegments path) := by
  rw [samconfPathCreateArray]
  apply (Exec.yields_allocFor path).bind
  apply Exec.yields_alloc.bind
  apply (collectTokens_yields (Nat.lt_succ_self path.length)).bind
  simpa [pathGetSegmentCount_eq] using Exec.yields_pure _

/-- An array that is returned holds the segments of the path, or the status is
ERROR and there is none. -/
theorem samconfPathCreateArray_ensures (path : CString) :
    (samconfPathCreateArray path).Ensures fun r =>
      r = (.ok, pathSegments path) ∨ r = (.error, []) := by
  rw [samconfPathCreateArray]
  apply (Exec.ensures_allocFor path).bind
  rintro pathCopy (rfl | rfl)
  · exact Exec.ensures_pure (.inr rfl)
  · apply (Exec.ensures_true _).bind
    rintro granted -
    cases granted with
    | false => exact Exec.ensures_pure (.inr rfl)
    | true =>
        apply (collectTokens_ensures _ path).bind
        rintro entries (rfl | rfl)
        · exact Exec.ensures_pure (.inr rfl)
        · simpa [pathGetSegmentCount_eq] using Exec.ensures_pure (.inl rfl)

/-- No store of the tokeniser misses the array, whatever allocations fail. -/
theorem samconfPathCreateArray_avoids (e : Fault) (path : CString) :
    Avoids e (samconfPathCreateArray path) := by
  rw [samconfPathCreateArray]
  apply (Exec.avoids_allocFor e path).bind_of (Exec.ensures_allocFor path)
  rintro pathCopy (rfl | rfl)
  · exact Exec.avoids_pure _ _
  · apply (Exec.avoids_alloc e).bind
    intro granted
    cases granted with
    | false => exact Exec.avoids_pure _ _
    | true =>
        apply (collectTokens_avoids (Nat.lt_succ_self path.length)).bind_of
          (collectTokens_ensures _ path)
        rintro entries (rfl | rfl)
        · exact Exec.avoids_pure _ _
        · simpa [pathGetSegmentCount_eq] using Exec.avoids_pure _ _

/-! ## Joining -/

theorem length_intercalate (sep : Char) (rs : List CString) :
    ([sep].intercalate rs).length = (rs.map List.length).sum + (rs.length - 1) := by
  induction rs with
  | nil => simp
  | cons r rs ih =>
      cases rs with
      | nil => simp
      | cons r' rs =>
          rw [List.intercalate_cons_cons]
          simp only [List.length_append, List.map_cons, List.sum_cons, List.length_cons,
            List.length_nil] at ih ⊢
          omega

/-- The joined path fits the buffer. -/
theorem length_pathUntil_le (patharray : List CString) (index : ℕ) :
    (['/'].intercalate (patharray.take (index + 1))).length + 1 ≤
      ((patharray.take (index + 1)).map List.length).sum + (index + 1) := by
  have hlength := length_intercalate '/' (patharray.take (index + 1))
  have htake := List.length_take_le (index + 1) patharray
  omega

theorem samconfPathGetPathUntil_eq (patharray : List CString) (index : ℕ) :
    samconfPathGetPathUntil patharray index =
      Exec.allocFor (['/'].intercalate (patharray.take (index + 1))) := by
  simp only [samconfPathGetPathUntil, length_pathUntil_le, if_true]
  rfl

/-! ## The path of a node -/

/-- Put a segment in front of a path. -/
def joinPath (segment existingPath : CString) : CString :=
  if existingPath = [] then segment else segment ++ '/' :: existingPath

/-- The buffer is large enough, so `snprintf` cuts nothing off. -/
theorem addToNewPath_eq (existingPath segment : CString) :
    addToNewPath existingPath segment = Exec.allocFor (joinPath segment existingPath) := by
  by_cases h : existingPath = []
  · have hshort := List.take_of_length_le (Nat.le_succ segment.length)
    simp [addToNewPath, Exec.allocFor, joinPath, h, hshort]
  · have hlong : (segment ++ '/' :: existingPath).length ≤
        segment.length + existingPath.length + 1 := by
      simp only [List.length_append, List.length_cons]
      omega
    simp [addToNewPath, Exec.allocFor, joinPath, h, List.take_of_length_le hlong]

/-- The path that the climb builds, or the way it faults. -/
def climbPath : CString → List NodeData → Except Fault CString
  | _, [] => .error .nullParent
  | newPath, parent :: ancestors =>
      match parent.key with
      | none => .error .nullKey
      | some key =>
          if key = rootKey then .ok (joinPath rootKey newPath)
          else climbPath (joinPath key newPath) ancestors

/-- A climb looks at keys only. -/
theorem climbPath_congr {above above' : List NodeData}
    (h : above.map NodeData.key = above'.map NodeData.key) (newPath : CString) :
    climbPath newPath above = climbPath newPath above' := by
  induction above generalizing above' newPath with
  | nil =>
      obtain rfl : above' = [] := by simpa using h
      rfl
  | cons d above ih =>
      cases above' with
      | nil => cases h
      | cons d' above' =>
          obtain ⟨hkey, hrest⟩ := List.cons.inj h
          have hrest' := ih hrest
          simp only [climbPath, hkey, hrest']

/-- A climb ends at `root`. -/
theorem climbPath_append_root {d : NodeData} (h : d.key = some rootKey)
    (below above : List NodeData) (newPath : CString) :
    climbPath newPath (below ++ d :: above) = climbPath newPath (below ++ [d]) := by
  induction below generalizing newPath with
  | nil => simp [climbPath, h]
  | cons e below ih =>
      have ih' := ih
      simp only [List.cons_append, climbPath, ih']

/-- The path of the node at a position, or the way its computation faults. -/
def nodePath (top : Config) (p : List ℕ) : Except Fault CString :=
  match top.sub? p with
  | none => .error .nullConfig
  | some node =>
      match node.label.key with
      | none => .error .nullKey
      | some key => if key = rootKey then .ok rootKey else climbPath key (top.ancestors p)

theorem climbToRoot_yields {ancestors : List NodeData} {newPath path : CString}
    (h : climbPath newPath ancestors = .ok path) :
    (climbToRoot newPath ancestors).Yields (.ok, some path) := by
  induction ancestors generalizing newPath with
  | nil => simp [climbPath] at h
  | cons parent ancestors ih =>
      cases hkey : parent.key with
      | none => simp [climbPath, hkey] at h
      | some key =>
          rw [climbPath, hkey] at h
          simp only [climbToRoot, hkey, deref_some, Exec.pure_bind, addToNewPath_eq]
          apply (Exec.yields_allocFor newPath).bind
          by_cases hroot : key = rootKey
          · obtain rfl : joinPath rootKey newPath = path := by simpa [hroot] using h
            simp only [hroot, if_true]
            apply (Exec.yields_allocFor _).bind
            exact Exec.yields_pure _
          · simp only [hroot, if_false]
            apply (Exec.yields_allocFor _).bind
            exact ih (by simpa [hroot] using h)

theorem climbToRoot_ensures (newPath : CString) (ancestors : List NodeData) :
    (climbToRoot newPath ancestors).Ensures fun r =>
      r = (.error, none) ∨
        ∃ path, climbPath newPath ancestors = .ok path ∧ r = (.ok, some path) := by
  induction ancestors generalizing newPath with
  | nil => exact Exec.ensures_fault _
  | cons parent ancestors ih =>
      cases hkey : parent.key with
      | none => simpa [climbToRoot, hkey, deref] using Exec.ensures_fault _
      | some key =>
          simp only [climbToRoot, climbPath, hkey, deref_some, Exec.pure_bind, addToNewPath_eq]
          apply (Exec.ensures_allocFor newPath).bind
          rintro existingPath (rfl | rfl)
          · exact Exec.ensures_pure (.inl rfl)
          · by_cases hroot : key = rootKey
            · simp only [hroot, if_true]
              apply (Exec.ensures_allocFor _).bind
              rintro longer (rfl | rfl)
              · exact Exec.ensures_pure (.inl rfl)
              · exact Exec.ensures_pure (.inr ⟨_, rfl, rfl⟩)
            · simp only [hroot, if_false]
              apply (Exec.ensures_allocFor _).bind
              rintro longer (rfl | rfl)
              · exact Exec.ensures_pure (.inl rfl)
              · exact ih _

/-- The climb faults only where the path it should build does. -/
theorem climbToRoot_avoids {e : Fault} {newPath : CString} {ancestors : List NodeData}
    (h : climbPath newPath ancestors ≠ .error e) : Avoids e (climbToRoot newPath ancestors) := by
  induction ancestors generalizing newPath with
  | nil => exact Exec.avoids_fault fun heq => h (by rw [climbPath, heq])
  | cons parent ancestors ih =>
      cases hkey : parent.key with
      | none =>
          simp only [climbToRoot, hkey, deref, Exec.fault_bind]
          exact Exec.avoids_fault fun heq => h (by rw [climbPath, hkey, heq])
      | some key =>
          rw [climbPath, hkey] at h
          simp only [climbToRoot, hkey, deref_some, Exec.pure_bind, addToNewPath_eq]
          apply (Exec.avoids_allocFor e newPath).bind_of (Exec.ensures_allocFor newPath)
          rintro existingPath (rfl | rfl)
          · exact Exec.avoids_pure _ _
          · by_cases hroot : key = rootKey
            · simp only [hroot, if_true]
              apply (Exec.avoids_allocFor e _).bind
              intro longer
              cases longer with
              | none => exact Exec.avoids_pure _ _
              | some longer => exact Exec.avoids_pure _ _
            · simp only [hroot, if_false] at h ⊢
              apply (Exec.avoids_allocFor e _).bind_of (Exec.ensures_allocFor _)
              rintro longer (rfl | rfl)
              · exact Exec.avoids_pure _ _
              · exact ih h

theorem samconfPathGetPath_yields {top : Config} {p : List ℕ} {path : CString}
    (h : nodePath top p = .ok path) : (samconfPathGetPath top p).Yields (.ok, some path) := by
  rw [nodePath] at h
  cases hs : top.sub? p with
  | none => simp [hs] at h
  | some node =>
      cases hkey : node.label.key with
      | none => simp [hs, hkey] at h
      | some key =>
          simp only [hs, hkey] at h
          simp only [samconfPathGetPath, hs, hkey, deref_some, Exec.pure_bind, addToNewPath_eq]
          by_cases hroot : key = rootKey
          · obtain rfl : rootKey = path := by simpa [hroot] using h
            rw [if_pos hroot]
            apply (Exec.yields_allocFor rootKey).bind
            exact Exec.yields_pure _
          · rw [if_neg hroot] at h ⊢
            apply (Exec.yields_allocFor _).bind
            exact climbToRoot_yields (by simpa [joinPath] using h)

/-- The unchecked copy of `root` makes a third outcome: success without a path. -/
theorem samconfPathGetPath_ensures (top : Config) (p : List ℕ) :
    (samconfPathGetPath top p).Ensures fun r =>
      r = (.error, none) ∨ r = (.ok, none) ∨
        ∃ path, nodePath top p = .ok path ∧ r = (.ok, some path) := by
  cases hs : top.sub? p with
  | none => simpa [samconfPathGetPath, hs, deref] using Exec.ensures_fault _
  | some node =>
      cases hkey : node.label.key with
      | none => simpa [samconfPathGetPath, hs, hkey, deref] using Exec.ensures_fault _
      | some key =>
          simp only [samconfPathGetPath, nodePath, hs, hkey, deref_some, Exec.pure_bind,
            addToNewPath_eq]
          by_cases hroot : key = rootKey
          · simp only [hroot, if_true]
            apply (Exec.ensures_allocFor rootKey).bind
            rintro path (rfl | rfl)
            · exact Exec.ensures_pure (.inr (.inl rfl))
            · exact Exec.ensures_pure (.inr (.inr ⟨_, rfl, rfl⟩))
          · simp only [hroot, if_false]
            apply (Exec.ensures_allocFor _).bind
            rintro newPath (rfl | rfl)
            · exact Exec.ensures_pure (.inl rfl)
            · refine (climbToRoot_ensures _ _).mono fun r hr => ?_
              rcases hr with hr | hr
              · exact .inl hr
              · exact .inr (.inr (by simpa [joinPath] using hr))

theorem samconfPathGetPath_avoids {e : Fault} {top : Config} {p : List ℕ}
    (h : nodePath top p ≠ .error e) : Avoids e (samconfPathGetPath top p) := by
  rw [nodePath] at h
  cases hs : top.sub? p with
  | none =>
      simp only [samconfPathGetPath, hs, deref, Exec.fault_bind]
      exact Exec.avoids_fault fun heq => h (by simp [hs, heq])
  | some node =>
      cases hkey : node.label.key with
      | none =>
          simp only [samconfPathGetPath, hs, hkey, Exec.pure_bind, deref, Exec.fault_bind]
          exact Exec.avoids_fault fun heq => h (by simp [hs, hkey, heq])
      | some key =>
          simp only [hs, hkey] at h
          simp only [samconfPathGetPath, hs, hkey, deref_some, Exec.pure_bind, addToNewPath_eq]
          by_cases hroot : key = rootKey
          · rw [if_pos hroot]
            apply (Exec.avoids_allocFor e rootKey).bind
            exact fun path => Exec.avoids_pure _ _
          · rw [if_neg hroot] at h ⊢
            apply (Exec.avoids_allocFor e _).bind_of (Exec.ensures_allocFor _)
            rintro newPath (rfl | rfl)
            · exact Exec.avoids_pure _ _
            · exact climbToRoot_avoids (by simpa [joinPath] using h)

theorem climbPath_ne {e : Fault} (hparent : .nullParent ≠ e) (hkey : .nullKey ≠ e)
    (newPath : CString) (ancestors : List NodeData) : climbPath newPath ancestors ≠ .error e := by
  induction ancestors generalizing newPath with
  | nil => simpa [climbPath] using hparent
  | cons parent ancestors ih =>
      rw [climbPath]
      split
      · simpa using hkey
      · split
        · simp
        · exact ih _

theorem nodePath_ne {e : Fault} (hconfig : .nullConfig ≠ e) (hparent : .nullParent ≠ e)
    (hkey : .nullKey ≠ e) (top : Config) (p : List ℕ) : nodePath top p ≠ .error e := by
  rw [nodePath]
  split
  · simpa using hconfig
  · split
    · simpa using hkey
    · split
      · simp
      · exact climbPath_ne hparent hkey _ _

theorem climbToRoot_faults {e : Fault} {ancestors : List NodeData} {newPath : CString}
    (h : climbPath newPath ancestors = .error e) : (climbToRoot newPath ancestors).Faults e := by
  induction ancestors generalizing newPath with
  | nil =>
      cases h
      exact Exec.faults_fault _
  | cons parent ancestors ih =>
      cases hkey : parent.key with
      | none =>
          obtain rfl : Fault.nullKey = e := by simpa [climbPath, hkey] using h
          simp only [climbToRoot, hkey, deref, Exec.fault_bind]
          exact Exec.faults_fault _
      | some key =>
          rw [climbPath, hkey] at h
          simp only [climbToRoot, hkey, deref_some, Exec.pure_bind, addToNewPath_eq]
          apply (Exec.yields_allocFor newPath).bind_faults
          by_cases hroot : key = rootKey
          · simp [hroot] at h
          · simp only [hroot, if_false] at h ⊢
            apply (Exec.yields_allocFor _).bind_faults
            exact ih h

/-- Where the path of a node faults, its computation does, even when no allocation
fails. -/
theorem samconfPathGetPath_faults {e : Fault} {top : Config} {p : List ℕ}
    (h : nodePath top p = .error e) : (samconfPathGetPath top p).Faults e := by
  rw [nodePath] at h
  cases hs : top.sub? p with
  | none =>
      obtain rfl : Fault.nullConfig = e := by simpa [hs] using h
      simp only [samconfPathGetPath, hs, deref, Exec.fault_bind]
      exact Exec.faults_fault _
  | some node =>
      cases hkey : node.label.key with
      | none =>
          obtain rfl : Fault.nullKey = e := by simpa [hs, hkey] using h
          simp only [samconfPathGetPath, hs, hkey, Exec.pure_bind, deref, Exec.fault_bind]
          exact Exec.faults_fault _
      | some key =>
          simp only [hs, hkey] at h
          simp only [samconfPathGetPath, hs, hkey, deref_some, Exec.pure_bind, addToNewPath_eq]
          by_cases hroot : key = rootKey
          · simp [hroot] at h
          · rw [if_neg hroot] at h ⊢
            apply (Exec.yields_allocFor _).bind_faults
            exact climbToRoot_faults (by simpa [joinPath] using h)

theorem intercalate_ne_nil {keys : List CString} (hne : keys ≠ [])
    (h : ∀ key ∈ keys, IsPathKey key) : ['/'].intercalate keys ≠ [] := by
  cases keys with
  | nil => exact absurd rfl hne
  | cons key keys =>
      have hkey := (h key (by simp)).1
      cases keys with
      | nil => simpa using hkey
      | cons key' keys => simp [List.intercalate_cons_cons]

theorem joinPath_intercalate (key : CString) {keys : List CString} (hne : keys ≠ [])
    (h : ∀ key ∈ keys, IsPathKey key) :
    joinPath key (['/'].intercalate keys) = ['/'].intercalate (key :: keys) := by
  rw [joinPath, if_neg (intercalate_ne_nil hne h)]
  cases keys with
  | nil => exact absurd rfl hne
  | cons key' keys => simp [List.intercalate_cons_cons]

/-- The climb joins the keys it passes until it meets `root`. -/
theorem climbPath_eq {ancestors : List NodeData} {nearer below : List CString}
    {rest : List (Option CString)}
    (hancestors : ancestors.map NodeData.key = nearer.map some ++ some rootKey :: rest)
    (hnearer : ∀ key ∈ nearer, IsPathKey key ∧ key ≠ rootKey)
    (hne : below ≠ []) (hbelow : ∀ key ∈ below, IsPathKey key) :
    climbPath (['/'].intercalate below) ancestors =
      .ok (['/'].intercalate (rootKey :: nearer.reverse ++ below)) := by
  induction nearer generalizing ancestors below with
  | nil =>
      cases ancestors with
      | nil => simp at hancestors
      | cons parent ancestors =>
          obtain ⟨hkey, -⟩ := List.cons.inj (by simpa using hancestors)
          simp [climbPath, hkey, joinPath_intercalate rootKey hne hbelow]
  | cons key nearer ih =>
      cases ancestors with
      | nil => simp at hancestors
      | cons parent ancestors =>
          obtain ⟨hkey, habove⟩ := List.cons.inj (by simpa using hancestors)
          have hself := hnearer key (by simp)
          have hlonger : ∀ k ∈ key :: below, IsPathKey k := by
            simpa using ⟨hself.1, hbelow⟩
          rw [climbPath, hkey]
          simp only [hself.2, if_false, joinPath_intercalate key hne hbelow]
          rw [ih (by simpa using habove) (fun k hk => hnearer k (by simp [hk])) (by simp) hlonger]
          simp

/-- **The path of a node** is made of the segments that name it. -/
theorem nodePath_eq {config : Config} {p : List ℕ} {segments : List CString}
    (hkeys : config.PathKeyed) (hroot : config.RootPlaced) (hp : p ≠ [])
    (hsegments : config.segmentsOf p = some segments) :
    nodePath config p = .ok (['/'].intercalate segments) := by
  obtain ⟨keys, hkeysAt⟩ : ∃ keys, config.keysAt p = some keys := by
    cases hk : config.keysAt p with
    | none => simp [Config.segmentsOf, hk] at hsegments
    | some keys => exact ⟨keys, rfl⟩
  have hpath := hkeys.isPathKey hkeysAt
  have hlength := RoseTree.length_keysAt hkeysAt
  rcases List.eq_nil_or_concat keys with rfl | ⟨above, key, rfl⟩
  · exact absurd (List.length_eq_zero_iff.mp hlength.symm) hp
  rw [List.concat_eq_append] at *
  obtain ⟨hancestors, node, hnode, hkey⟩ := RoseTree.map_key_ancestors hkeysAt
  have habove : ∀ k ∈ above, IsPathKey k := fun k hk => hpath k (by simp [hk])
  have hself : ∀ k ∈ [key], IsPathKey k := fun k hk => hpath k (by simp_all)
  have hclimb (nearer : List CString) (rest : List (Option CString))
      (hsplit : above.reverse.map some ++ [config.label.key] =
        nearer.map some ++ some rootKey :: rest)
      (hnearer : ∀ k ∈ nearer, k ∈ above ∧ k ≠ rootKey) (hne : key ≠ rootKey) :
      nodePath config p = .ok (['/'].intercalate (rootKey :: nearer.reverse ++ [key])) := by
    have hclimbs : climbPath (['/'].intercalate [key]) (config.ancestors p) = _ :=
      climbPath_eq (hancestors.trans hsplit)
        (fun k hk => ⟨habove k (hnearer k hk).1, (hnearer k hk).2⟩) (by simp) hself
    simpa [nodePath, hnode, hkey, hne] using hclimbs
  rcases hroot with ⟨htop, hfree⟩ | ⟨htop, hchildren⟩
  · -- the climb ends at the top
    obtain rfl : rootKey :: (above ++ [key]) = segments := by
      simpa [Config.segmentsOf, htop, hkeysAt] using hsegments
    have hne := hfree.ne_rootKey hkeysAt
    have hnearer : ∀ k ∈ above.reverse, k ∈ above ∧ k ≠ rootKey := fun k hk =>
      ⟨List.mem_reverse.mp hk, hne k (by simp [List.mem_reverse.mp hk])⟩
    rw [hclimb above.reverse [] (by simp [htop]) hnearer (hne key (by simp))]
    simp
  · -- the climb ends at a child of the top, unless it starts there
    obtain rfl : above ++ [key] = segments := by
      simpa [Config.segmentsOf, htop, hkeysAt] using hsegments
    cases p with
    | nil => exact absurd rfl hp
    | cons i p =>
        rw [Config.keysAt, RoseTree.keysAt_cons] at hkeysAt
        obtain ⟨child, hchild, hkeysAt⟩ := Option.bind_eq_some_iff.mp hkeysAt
        obtain ⟨hchildKey, hfree⟩ := hchildren child (List.mem_of_getElem? hchild)
        obtain ⟨first, hfirst, hkeysAt⟩ := Option.bind_eq_some_iff.mp hkeysAt
        obtain ⟨rest, hrest, heq⟩ := Option.map_eq_some_iff.mp hkeysAt
        obtain rfl : rootKey = first := by simpa [hchildKey] using hfirst
        have hne := hfree.ne_rootKey hrest
        cases above with
        | nil =>
            obtain ⟨rfl, -⟩ : rootKey = key ∧ rest = [] := by simpa using heq
            simp [nodePath, hnode, hkey]
        | cons k above =>
            obtain ⟨rfl, rfl⟩ : rootKey = k ∧ rest = above ++ [key] := by simpa using heq
            have hnearer : ∀ k ∈ above.reverse, k ∈ rootKey :: above ∧ k ≠ rootKey :=
              fun k hk => ⟨List.mem_cons_of_mem _ (List.mem_reverse.mp hk),
                hne k (by simp [List.mem_reverse.mp hk])⟩
            rw [hclimb above.reverse [config.label.key] (by simp) hnearer (hne key (by simp))]
            simp

/-! ## The segments of a path -/

theorem pathSegments_joinPath (segment existingPath : CString) :
    pathSegments (joinPath segment existingPath) =
      pathSegments segment ++ pathSegments existingPath := by
  rw [joinPath]
  split
  · simp [*]
  · exact segments_append_cons segment existingPath

/-- A climb puts segments in front, of which `root` is the first. -/
theorem climbPath_segments {ancestors : List NodeData} {newPath path : CString}
    (h : climbPath newPath ancestors = .ok path) :
    ∃ above, above ≠ [] ∧ pathSegments path = above ++ pathSegments newPath := by
  induction ancestors generalizing newPath with
  | nil => cases h
  | cons parent ancestors ih =>
      rw [climbPath] at h
      cases hkey : parent.key with
      | none => simp [hkey] at h
      | some key =>
          simp only [hkey] at h
          by_cases hroot : key = rootKey
          · obtain rfl : joinPath rootKey newPath = path := by simpa [hroot] using h
            exact ⟨pathSegments rootKey, by decide, pathSegments_joinPath _ _⟩
          · rw [if_neg hroot] at h
            obtain ⟨above, habove, heq⟩ := ih h
            refine ⟨above ++ pathSegments key, by simp [habove], ?_⟩
            rw [heq, pathSegments_joinPath, List.append_assoc]

/-- The path of a node has segments, and ends with the key of the node when that is
a path key. -/
theorem nodePath_segments {config s : Config} {p : List ℕ} {path : CString}
    (hs : config.sub? p = some s) (h : nodePath config p = .ok path) :
    pathSegments path ≠ [] ∧
      ∀ key, s.label.key = some key → IsPathKey key → (pathSegments path).getLast? = some key := by
  rw [nodePath, hs] at h
  cases hkey : s.label.key with
  | none => simp [hkey] at h
  | some key =>
      simp only [hkey] at h
      by_cases hroot : key = rootKey
      · obtain rfl : rootKey = path := by simpa [hroot] using h
        refine ⟨by decide, fun key' hsame _ => ?_⟩
        obtain rfl := Option.some.inj hsame
        rw [hroot]
        decide
      · rw [if_neg hroot] at h
        obtain ⟨above, habove, heq⟩ := climbPath_segments h
        refine ⟨by simp [heq, habove], fun key' hsame hpath => ?_⟩
        obtain rfl := Option.some.inj hsame
        rw [heq, pathSegments, segments_of_isSegment hpath]
        simp

/-- A climb past keyed nodes to one keyed `root` gives a path. -/
theorem exists_climbPath {ancestors : List NodeData} {nearer : List CString}
    {rest : List (Option CString)}
    (h : ancestors.map NodeData.key = nearer.map some ++ some rootKey :: rest)
    (newPath : CString) : ∃ path, climbPath newPath ancestors = .ok path := by
  induction nearer generalizing ancestors newPath with
  | nil =>
      cases ancestors with
      | nil => simp at h
      | cons parent ancestors =>
          obtain ⟨hkey, -⟩ := List.cons.inj (by simpa using h)
          exact ⟨joinPath rootKey newPath, by simp [climbPath, hkey]⟩
  | cons key nearer ih =>
      cases ancestors with
      | nil => simp at h
      | cons parent ancestors =>
          obtain ⟨hkey, habove⟩ := List.cons.inj (by simpa using h)
          rw [climbPath, hkey]
          by_cases hroot : key = rootKey
          · exact ⟨joinPath rootKey newPath, by simp [hroot]⟩
          · simpa [hroot] using ih (by simpa using habove) (joinPath key newPath)

/-- The top is keyed `root`, or all of its children are. -/
def Config.RootAbove (config : Config) : Prop :=
  config.label.key = some rootKey ∨ ∀ c ∈ config.children, c.label.key = some rootKey

theorem Config.RootPlaced.rootAbove {config : Config} (h : config.RootPlaced) :
    config.RootAbove :=
  h.imp And.left fun hchildren c hc => (hchildren.2 c hc).1

/-- Below `root` every keyed node has a path. -/
theorem exists_nodePath {config : Config} {p : List ℕ} (hkeyed : config.Keyed)
    (hroot : config.RootAbove) (hp : p ∈ config.descendants) :
    ∃ path, nodePath config p = .ok path := by
  obtain ⟨hne, s, hs⟩ := RoseTree.mem_descendants.mp hp
  obtain ⟨keys, hkeys⟩ := RoseTree.exists_keysAt hkeyed hs
  have hlength := RoseTree.length_keysAt hkeys
  rcases List.eq_nil_or_concat keys with rfl | ⟨above, key, rfl⟩
  · exact absurd (List.length_eq_zero_iff.mp hlength.symm) hne
  rw [List.concat_eq_append] at hkeys
  obtain ⟨hancestors, node, hnode, hkey⟩ := RoseTree.map_key_ancestors hkeys
  simp only [nodePath, hnode, hkey]
  split
  · exact ⟨rootKey, rfl⟩
  · rename_i hother
    rcases hroot with htop | hchildren
    · rw [htop] at hancestors
      exact exists_climbPath hancestors key
    · -- the climb comes to the child of the top, which is above the node
      obtain ⟨i, p, rfl⟩ := List.exists_cons_of_ne_nil hne
      rw [RoseTree.keysAt_cons] at hkeys
      obtain ⟨child, hchild, hkeys⟩ := Option.bind_eq_some_iff.mp hkeys
      obtain ⟨first, hfirst, hkeys⟩ := Option.bind_eq_some_iff.mp hkeys
      obtain ⟨below, -, heq⟩ := Option.map_eq_some_iff.mp hkeys
      have hroot := hchildren child (List.mem_of_getElem? hchild)
      obtain rfl : first = rootKey := Option.some.inj (hfirst.symm.trans hroot)
      cases above with
      | nil => exact absurd (List.cons.inj heq).1.symm hother
      | cons k above =>
          obtain rfl : rootKey = k := (List.cons.inj heq).1
          have hsplit : (config.ancestors (i :: p)).map NodeData.key =
              above.reverse.map some ++ some rootKey :: [config.label.key] := by
            rw [hancestors]
            simp
          exact exists_climbPath hsplit key

end Samconf
