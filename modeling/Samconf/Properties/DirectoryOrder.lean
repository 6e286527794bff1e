/-
# The order of a directory's files

`readdir` gives the names of a directory in any order, and `_extendWithDirectory` sorts
them with a comparison that is reversed twice. It comes to the order of the bytes, so
what is loaded and merged, and with which result, is a function of the set of names
alone. Where several admitted files give an option a value, the last of them in this
order decides.
-/

import Mathlib.Data.Char
import Mathlib.Data.List.Lex
import Samconf.Properties.LoadStatus
import Samconf.Spec.Load
import Samconf.Spec.Presence

namespace Samconf

open Foundation
open Exec (Yields)

/-! ## The comparison -/

/-- `strncmp` is negative where the first `n` characters come earlier. -/
theorem strncmp_neg_iff {s t : CString} {n : ℕ} : strncmp s t n < 0 ↔ s.take n < t.take n := by
  induction n generalizing s t with
  | zero => simp [strncmp]
  | succ n ih =>
      cases s with
      | nil => cases t <;> simp [strncmp]
      | cons a s =>
          cases t with
          | nil => simp [strncmp]
          | cons b t =>
              rw [strncmp, List.take_succ_cons, List.take_succ_cons, List.cons_lt_cons_iff, ← ih]
              by_cases heq : a = b
              · simp [heq]
              · by_cases hlt : a < b <;> simp [heq, hlt]

/-- The two reversals cancel out. -/
theorem cmp_nonpos_iff {left right : CString} :
    cmp left right ≤ 0 ↔ left.take 256 ≤ right.take 256 := by
  rw [cmp, Int.neg_nonpos_iff, ← not_lt, strncmp_neg_iff, not_lt]

/-- Whatever sorts by the comparison, distinct short names come out in ascending order. -/
theorem eq_of_sorted {names sorted : List CString} (hascending : names.Pairwise (· < ·))
    (hshort : ∀ name ∈ names, name.length ≤ 255) (hperm : sorted.Perm names)
    (hsorted : sorted.Pairwise fun left right => cmp left right ≤ 0) : sorted = names := by
  have hwhole : ∀ name ∈ names, name.take 256 = name := fun name hname =>
    List.take_of_length_le ((hshort name hname).trans (by decide))
  refine hperm.eq_of_pairwise ?_ hsorted (hascending.imp_of_mem ?_)
  · intro left right hleft hright h h'
    rw [cmp_nonpos_iff, hwhole right hright, hwhole left (hperm.mem_iff.mp hleft)] at h h'
    exact le_antisymm h h'
  · intro left right hleft hright hlt
    rw [cmp_nonpos_iff, hwhole left hleft, hwhole right hright]
    exact hlt.le

/-- **The comparison** is a total preorder, so `sortNames` sorts by it. -/
theorem sortNames_eq {names arranged : List CString} (hascending : names.Pairwise (· < ·))
    (hshort : ∀ name ∈ names, name.length ≤ 255) (harranged : arranged.Perm names) :
    sortNames arranged = names := by
  have htotal : Std.Total fun left right : CString => cmp left right ≤ 0 :=
    ⟨fun left right => by
      simpa only [cmp_nonpos_iff] using le_total (left.take 256) (right.take 256)⟩
  have htrans : IsTrans CString fun left right => cmp left right ≤ 0 :=
    ⟨fun left middle right h h' => by
      rw [cmp_nonpos_iff] at h h' ⊢
      exact h.trans h'⟩
  apply eq_of_sorted hascending hshort
  · exact (List.perm_insertionSort _ arranged).trans harranged
  · exact List.pairwise_insertionSort _ arranged

/-! ## One file after the other -/

/-- Load and merge files in the order given. The status is the highest of theirs:
INVALID_SIGNATURE, then OK, OVERWRITE_NOT_ALLOWED, SIGNATURE_NOT_FOUND, and NOT_FOUND
when there is none of these. -/
def mergeFilesInOrder (world : World) (path : CString) (enforceSignature : Bool)
    (files : List CString) (conf : Config) : Run (ConfigStatus × Config) := do
  let (attempts, conf) ← recordFiles world path enforceSignature files conf
  pure ((attempts.map Attempt.res).foldl (higher directoryRank) .notFound, conf)

/-- Without failing allocations a directory comes to its sorted files. -/
theorem extendWithDirectory_eq_sorted (world : World) (entries : List (CString × Bool))
    (enforceSignature : Bool) (path : CString) (conf : Config) :
    extendWithDirectory world entries enforceSignature path conf plenty =
      mergeFilesInOrder world path enforceSignature (sortNames (regularNames entries)) conf
        plenty := by
  have hcollect := collectNames_yields entries
  have halloc : (Exec.alloc : Run Bool) plenty = .ok (true, plenty) := rfl
  rw [extendWithDirectory, mergeFilesInOrder, Exec.bind_of_ok halloc, if_pos rfl,
    Exec.bind_of_ok (Exec.yields_iff.mp hcollect)]
  simp only [extendWithFiles_eq, directoryResult_eq]

/-! ## The admitted files -/

/-- The configuration that a location is loaded as when no allocation fails. -/
def loadedConfig (world : World) (enforceSignature : Bool) (configLocation : CString) :
    Option Config :=
  match samconfLoad world configLocation enforceSignature plenty with
  | .ok (outcome, _) => outcome.config
  | .error _ => none

/-- The configurations of the files that were admitted. -/
def admitted (world : World) (enforceSignature : Bool) (attempts : List Attempt) :
    List Config :=
  (attempts.filter fun attempt => attempt.res = .ok).filterMap fun attempt =>
    loadedConfig world enforceSignature attempt.configLocation

section Admitted

variable {world : World} {enforceSignature : Bool} {conf result : Config}

/-- A file is admitted, and its configuration merged, or it changes nothing. -/
theorem recordSinglePath_yields_cases {configLocation : CString} {attempt : Attempt}
    (hsound : conf.Sound) (htagged : conf.Tagged)
    (h : (recordSinglePath world configLocation enforceSignature conf).Yields
      (attempt, result)) :
    (attempt.res ≠ .ok ∧ result = conf) ∨
      attempt.res = .ok ∧ ∃ c, loadedConfig world enforceSignature attempt.configLocation = some c ∧
        c.Placeable ∧ result = conf.mergedByPath c := by
  rw [recordSinglePath, (samconfLoad_settles _ _ _).yields_bind_iff] at h
  obtain ⟨outcome, hload, h⟩ := h
  have hcopyable := samconfLoad_copyable hload
  have hloaded : loadedConfig world enforceSignature configLocation = outcome.config := by
    rw [loadedConfig, Exec.yields_iff.mp hload]
  by_cases hok : outcome.status = .ok
  · simp only [hok, ne_eq, not_true_eq_false, if_false] at h
    cases hconfig : outcome.config with
    | none =>
        have hrefused : (samconfConfigMergeConfig conf none).Yields (.error, conf) :=
          Exec.yields_pure _
        rw [hconfig, hrefused.bind_iff] at h
        cases h.unique (Exec.yields_pure _)
        exact .inl ⟨by simp, rfl⟩
    | some c =>
        have hc := hcopyable c hconfig
        rw [hconfig] at h
        rcases samconfConfigMergeConfig_cases hsound htagged hc with
          ⟨e, hfaults⟩ | ⟨hmerge, hplaceable⟩
        · exact absurd h (hfaults.bind _).not_yields
        · rw [hmerge.bind_iff] at h
          simp only [samconfConfigDelete_eq hc.counted hc.tagged, Exec.lift_ok_bind] at h
          cases h.unique (Exec.yields_pure _)
          cases hrule : followsMergeRule conf c with
          | false => exact .inl ⟨by simp [mergeStatus, hrule], by simp [Config.stepByPath, hrule]⟩
          | true =>
              refine .inr ⟨by simp [mergeStatus, hrule], c, hloaded.trans hconfig,
                hplaceable hrule, by simp [Config.stepByPath, hrule]⟩
  · simp only [hok, ne_eq, not_false_eq_true, if_true] at h
    cases h.unique (Exec.yields_pure _)
    exact .inl ⟨hok, rfl⟩

/-- Without failing allocations a file's turn faults or returns. -/
theorem recordSinglePath_settles (configLocation : CString) (hsound : conf.Sound)
    (htagged : conf.Tagged) :
    (recordSinglePath world configLocation enforceSignature conf).Settles := by
  rw [recordSinglePath]
  refine (samconfLoad_settles _ _ _).bind fun outcome hload => ?_
  have hcopyable := samconfLoad_copyable hload
  split
  · exact Exec.settles_pure _
  · cases hconfig : outcome.config with
    | none =>
        have hrefused : (samconfConfigMergeConfig conf none).Yields (.error, conf) :=
          Exec.yields_pure _
        exact hrefused.bind_settles (Exec.settles_pure _)
    | some c =>
        rcases samconfConfigMergeConfig_cases hsound htagged (hcopyable c hconfig) with
          ⟨e, hfaults⟩ | ⟨hmerge, -⟩
        · exact .inl ⟨e, hfaults.bind _⟩
        · exact hmerge.bind_settles ((Exec.settles_lift _).bind fun _ _ => Exec.settles_pure _)

/-- A file's turn keeps what the next one needs. -/
theorem recordSinglePath_keeps {configLocation : CString} {attempt : Attempt}
    (hsound : conf.Sound) (htagged : conf.Tagged)
    (h : (recordSinglePath world configLocation enforceSignature conf).Yields
      (attempt, result)) : result.Sound ∧ result.Tagged := by
  rcases recordSinglePath_yields_cases hsound htagged h with
    ⟨-, rfl⟩ | ⟨-, c, -, hplaceable, rfl⟩
  · exact ⟨hsound, htagged⟩
  · exact ⟨hsound.mergedByPath hplaceable.nodes,
      Config.Tagged.mergedByPath htagged hplaceable.nodes⟩

theorem recordFiles_settles (path : CString) (files : List CString) (hsound : conf.Sound)
    (htagged : conf.Tagged) : (recordFiles world path enforceSignature files conf).Settles := by
  induction files generalizing conf with
  | nil => exact Exec.settles_pure _
  | cons configFile files ih =>
      rw [recordFiles]
      apply (Exec.yields_allocFor _).bind_settles
      simp only [deref_some, Exec.pure_bind]
      refine (recordSinglePath_settles _ hsound htagged).bind fun r hr => ?_
      obtain ⟨hsound', htagged'⟩ := recordSinglePath_keeps hsound htagged hr
      exact (ih hsound' htagged').bind fun _ _ => Exec.settles_pure _

/-- **The files** leave the merges of those that were admitted. -/
theorem recordFiles_yields {path : CString} {files : List CString} {attempts : List Attempt}
    (hsound : conf.Sound) (htagged : conf.Tagged)
    (h : (recordFiles world path enforceSignature files conf).Yields (attempts, result)) :
    (∀ c ∈ admitted world enforceSignature attempts, c.Placeable) ∧
      result = (admitted world enforceSignature attempts).foldl Config.mergedByPath conf := by
  induction files generalizing conf attempts with
  | nil =>
      cases h.unique (Exec.yields_pure _)
      exact ⟨by simp [admitted], rfl⟩
  | cons configFile files ih =>
      rw [recordFiles, (Exec.yields_allocFor _).bind_iff, deref_some, Exec.pure_bind,
        (recordSinglePath_settles _ hsound htagged).yields_bind_iff] at h
      obtain ⟨⟨attempt, conf'⟩, hfile, h⟩ := h
      rw [Exec.yields_bind_pure_iff] at h
      obtain ⟨⟨later, result'⟩, hfiles, hsame⟩ := h
      obtain ⟨rfl, rfl⟩ := Prod.mk.inj hsame
      obtain ⟨hsound', htagged'⟩ := recordSinglePath_keeps hsound htagged hfile
      rcases recordSinglePath_yields_cases hsound htagged hfile with
        ⟨hres, rfl⟩ | ⟨hres, c, hloaded, hplaceable, rfl⟩
      · have hsplit : admitted world enforceSignature (attempt :: later) =
            admitted world enforceSignature later := by
          simp [admitted, hres]
        rw [hsplit]
        exact ih hsound' htagged' hfiles
      · have hsplit : admitted world enforceSignature (attempt :: later) =
            c :: admitted world enforceSignature later := by
          simp [admitted, hres, hloaded]
        rw [hsplit]
        obtain ⟨hall, hresult⟩ := ih hsound' htagged' hfiles
        exact ⟨List.forall_mem_cons.mpr ⟨hplaceable, hall⟩, hresult⟩

end Admitted

/-! ## The value that stays -/

/-- The nodes of configurations, one configuration after the other and in preorder. -/
def nodesOf (configs : List Config) : List (Config × List ℕ) :=
  configs.flatMap fun c => c.descendants.map fun p => (c, p)

theorem mem_nodesOf {configs : List Config} {c : Config} {p : List ℕ} :
    (c, p) ∈ nodesOf configs ↔ c ∈ configs ∧ p ∈ c.descendants := by
  simp [nodesOf]

/-- The last of the values that configurations have for an option is found in the end.
An option is there under its path when the path leads somewhere to begin with or a node
with the path, this one or an earlier one, has a path segment for a key. -/
def LastValueStays (conf : Config) (configs : List Config) (result : Config) : Prop :=
  ∀ before c p after path d, nodesOf configs = before ++ (c, p) :: after →
    NodeAt c p path d → d.type.IsScalar →
    (∀ w ∈ after, ∀ d', NodeAt w.1 w.2 path d' → ¬ d'.type.IsScalar) →
    (d.Plain ∨ (∃ d', Finds conf path d') ∨
      ∃ w ∈ before, ∃ d', NodeAt w.1 w.2 path d' ∧ d'.Plain) →
    ∃ d', Finds result path d' ∧ d'.type = d.type ∧ d'.value = d.content

section Values

variable {config c : Config} {e : Entry} {segments : List CString} {d : NodeData}
  {path : CString} {p : List ℕ}

/-- A configuration without a scalar under the path leaves the value. -/
theorem Config.HasValue.mergedByPath (h : config.HasValue (pathSegments path) d)
    (hne : pathSegments path ≠ []) (hmerge : c.Placeable)
    (hfree : ∀ q ∈ c.descendants, ∀ d', NodeAt c q path d' → ¬ d'.type.IsScalar) :
    (config.mergedByPath c).HasValue (pathSegments path) d := by
  refine (h.foldl_put fun e he heq => ?_).markSigned hne c
  obtain ⟨q, hq, rfl⟩ := List.mem_map.mp he
  exact hfree q hq _ (nodeAt_of_pathEntry hmerge.nodes hq heq)

theorem Config.HasValue.foldl_mergedByPath (h : config.HasValue (pathSegments path) d)
    (hne : pathSegments path ≠ []) {configs : List Config} (hmerge : ∀ c ∈ configs, c.Placeable)
    (hfree : ∀ w ∈ nodesOf configs, ∀ d', NodeAt w.1 w.2 path d' → ¬ d'.type.IsScalar) :
    Config.HasValue (configs.foldl Config.mergedByPath config) (pathSegments path) d := by
  refine List.foldlRecOn (motive := fun c : Config => c.HasValue (pathSegments path) d) configs
    Config.mergedByPath h ?_
  intro config' hconfig c hc
  have hnode : ∀ q ∈ c.descendants, ∀ d', NodeAt c q path d' → ¬ d'.type.IsScalar :=
    fun q hq => hfree (c, q) (mem_nodesOf.mpr ⟨hc, hq⟩)
  exact hconfig.mergedByPath hne (hmerge c hc) hnode

/-- What a node under a path segment has been put under is found. -/
theorem setting_ne_none_of_plain (hmerge : c.Placeable) {nodes : List (List ℕ)}
    (hnodes : ∀ q ∈ nodes, q ∈ c.descendants) (hp : p ∈ nodes) (h : NodeAt c p path d)
    (hplain : d.Plain) :
    Config.setting ((nodes.map c.pathEntry).foldl Config.put config) (pathSegments path) ≠
      none := by
  obtain ⟨before, after, rfl⟩ := List.append_of_mem hp
  obtain ⟨hentry, hkey⟩ := h.pathEntry hmerge.nodes (hnodes p hp)
  rw [List.map_append, List.map_cons, List.foldl_append, List.foldl_cons, hentry]
  apply Config.setting_foldl_put_ne_none
  rw [@Config.setting_put_self _ (pathSegments path, d) (.inr (hkey hplain))]
  exact Option.some_ne_none _

/-- One merge leaves the last value of its configuration. -/
theorem Config.hasValue_mergedByPath (hmerge : c.Placeable) {earlier later : List (List ℕ)}
    (hsplit : c.descendants = earlier ++ p :: later) (hat : NodeAt c p path d)
    (hscalar : d.type.IsScalar)
    (hlast : ∀ q ∈ later, ∀ d', NodeAt c q path d' → ¬ d'.type.IsScalar)
    (hnamed : d.Plain ∨ config.setting (pathSegments path) ≠ none ∨
      ∃ q ∈ earlier, ∃ d', NodeAt c q path d' ∧ d'.Plain) :
    (config.mergedByPath c).HasValue (pathSegments path) d := by
  have hp : p ∈ c.descendants := by simp [hsplit]
  obtain ⟨hentry, hkey⟩ := hat.pathEntry hmerge.nodes hp
  have hne : pathSegments path ≠ [] := by
    have hnonempty := (hmerge.entry hp).nonempty
    rwa [hentry] at hnonempty
  apply Config.HasValue.markSigned _ hne
  rw [Config.pathEntries, hsplit, List.map_append, List.map_cons, List.foldl_append,
    List.foldl_cons, hentry]
  apply Config.HasValue.foldl_put
  · apply @Config.hasValue_put_self _ (pathSegments path, d) hscalar
    rcases hnamed with hplain | hfound | ⟨q, hq, d', hat', hplain⟩
    · exact .inr (hkey hplain)
    · exact .inl (Config.setting_foldl_put_ne_none hfound _)
    · exact .inl (setting_ne_none_of_plain hmerge (fun r hr => by simp [hsplit, hr]) hq hat' hplain)
  · intro e he heq
    obtain ⟨q, hq, rfl⟩ := List.mem_map.mp he
    exact hlast q hq _ (nodeAt_of_pathEntry hmerge.nodes (by simp [hsplit, hq]) heq)

theorem Config.setting_foldl_mergedByPath_ne_none (hne : segments ≠ [])
    (h : config.setting segments ≠ none) (configs : List Config) :
    Config.setting (configs.foldl Config.mergedByPath config) segments ≠ none := by
  refine List.foldlRecOn (motive := fun c : Config => c.setting segments ≠ none) configs
    Config.mergedByPath h ?_
  intro config' hfound c _
  exact setting_mergedByPath_ne_none hne (setting_foldl_put_ne_none hfound _)

/-- What a node under a path segment has been merged under is found. -/
theorem setting_foldl_ne_none_of_plain {configs : List Config} (hne : pathSegments path ≠ [])
    (hmerge : ∀ c ∈ configs, c.Placeable) {w : Config × List ℕ} (hw : w ∈ nodesOf configs)
    (h : NodeAt w.1 w.2 path d) (hplain : d.Plain) :
    Config.setting (configs.foldl Config.mergedByPath config) (pathSegments path) ≠ none := by
  obtain ⟨c, q⟩ := w
  obtain ⟨hc, hq⟩ := mem_nodesOf.mp hw
  obtain ⟨before, after, rfl⟩ := List.append_of_mem hc
  rw [List.foldl_append, List.foldl_cons]
  exact Config.setting_foldl_mergedByPath_ne_none hne (Config.setting_mergedByPath_ne_none hne
    (setting_ne_none_of_plain (hmerge c hc) (fun r hr => hr) hq h hplain)) after

/-- A place among all nodes is a place among those of one configuration. -/
theorem nodesOf_split {configs : List Config} {before after : List (Config × List ℕ)}
    (h : nodesOf configs = before ++ (c, p) :: after) :
    ∃ cs ds earlier later, configs = cs ++ c :: ds ∧ c.descendants = earlier ++ p :: later ∧
      before = nodesOf cs ++ earlier.map (fun q => (c, q)) ∧
      after = later.map (fun q => (c, q)) ++ nodesOf ds := by
  induction configs generalizing before with
  | nil => simp [nodesOf] at h
  | cons first configs ih =>
      have hcut : first.descendants.map (fun q => (first, q)) ++ nodesOf configs =
          before ++ (c, p) :: after := h
      rcases List.append_eq_append_iff.mp hcut with ⟨rest, rfl, hrest⟩ | ⟨rest, hnodes, hrest⟩
      · obtain ⟨cs, ds, earlier, later, rfl, hsplit, rfl, rfl⟩ := ih hrest
        exact ⟨first :: cs, ds, earlier, later, rfl, hsplit, by simp [nodesOf], rfl⟩
      · cases rest with
        | nil =>
            -- the place is the first one behind the nodes of `first`
            obtain ⟨cs, ds, earlier, later, rfl, hsplit, hnone, rfl⟩ :=
              @ih [] (by simpa using hrest.symm)
            refine ⟨first :: cs, ds, earlier, later, rfl, hsplit, ?_, rfl⟩
            rw [List.append_nil] at hnodes
            have hall : nodesOf (first :: cs) = before ++ nodesOf cs := by
              rw [← hnodes]
              rfl
            rw [hall, List.append_assoc, ← hnone, List.append_nil]
        | cons w rest =>
            obtain ⟨rfl, rfl⟩ := List.cons.inj hrest
            obtain ⟨earlier, others, hsplit, rfl, hothers⟩ := List.map_eq_append_iff.mp hnodes
            obtain ⟨q, later, rfl, hq, rfl⟩ := List.map_eq_cons_iff.mp hothers
            obtain ⟨rfl, rfl⟩ := Prod.mk.inj hq
            exact ⟨[], configs, earlier, later, rfl, hsplit, by simp [nodesOf], rfl⟩

theorem Config.Sound.foldl_mergedByPath (h : config.Sound) {configs : List Config}
    (hmerge : ∀ c ∈ configs, c.Placeable) :
    Config.Sound (configs.foldl Config.mergedByPath config) := by
  refine List.foldlRecOn configs Config.mergedByPath h ?_
  intro config' hconfig c hc
  exact hconfig.mergedByPath (hmerge c hc).nodes

/-- **The last value** of an option stays through all merges. -/
theorem lastValueStays {configs : List Config} (hsound : config.Sound)
    (hmerge : ∀ c ∈ configs, c.Placeable) :
    LastValueStays config configs (configs.foldl Config.mergedByPath config) := by
  intro before c p after path d hnodes hat hscalar hlast hnamed
  obtain ⟨cs, ds, earlier, later, rfl, hsplit, rfl, rfl⟩ := nodesOf_split hnodes
  have hc := hmerge c (by simp)
  have hp : p ∈ c.descendants := by simp [hsplit]
  have hne : pathSegments path ≠ [] := by
    have hnonempty := (hc.entry hp).nonempty
    rwa [(hat.pathEntry hc.nodes hp).1] at hnonempty
  have hbefore : d.Plain ∨
      Config.setting (cs.foldl Config.mergedByPath config) (pathSegments path) ≠ none ∨
        ∃ q ∈ earlier, ∃ d', NodeAt c q path d' ∧ d'.Plain := by
    rcases hnamed with hplain | ⟨d', hd'⟩ | ⟨w, hw, d', hat', hplain⟩
    · exact .inl hplain
    · have hfound : config.setting (pathSegments path) ≠ none := by
        rw [hd'.setting hsound hne]
        exact Option.some_ne_none _
      exact .inr (.inl (Config.setting_foldl_mergedByPath_ne_none hne hfound cs))
    · rcases List.mem_append.mp hw with hw | hw
      · have hearlier : ∀ c' ∈ cs, c'.Placeable := fun c' hc' => hmerge c' (by simp [hc'])
        exact .inr (.inl (setting_foldl_ne_none_of_plain hne hearlier hw hat' hplain))
      · obtain ⟨q, hq, rfl⟩ := List.mem_map.mp hw
        exact .inr (.inr ⟨q, hq, d', hat', hplain⟩)
  have hmerged := Config.hasValue_mergedByPath hc hsplit hat hscalar
    (fun q hq => hlast (c, q) (by simp [hq])) hbefore
  have hlater : ∀ c' ∈ ds, c'.Placeable := fun c' hc' => hmerge c' (by simp [hc'])
  have hfree : ∀ w ∈ nodesOf ds, ∀ d', NodeAt w.1 w.2 path d' → ¬ d'.type.IsScalar :=
    fun w hw => hlast w (by simp [hw])
  obtain ⟨b, hb, htype, hvalue⟩ := hmerged.foldl_mergedByPath hne hlater hfree
  rw [← List.foldl_cons, ← List.foldl_append] at hb
  obtain ⟨d', hd', rfl⟩ := exists_finds (hsound.foldl_mergedByPath hmerge) hne hb
  exact ⟨d', hd', htype, hvalue⟩

end Values

/-! ## Directories -/

/-- **The order of enumeration** does not matter. Without failing allocations a
directory whose regular files have the given names, in whatever order they come, is
loaded and merged as its files are one after the other in ascending order; and when
that completes, every option has the last value that an admitted file has for it. -/
theorem extendWithDirectory_in_name_order (world : World) (enforceSignature : Bool)
    (path : CString) {names : List CString} {entries : List (CString × Bool)} {conf : Config}
    (hascending : names.Pairwise (· < ·)) (hshort : ∀ name ∈ names, name.length ≤ 255)
    (hregular : ((entries.filter Prod.snd).map Prod.fst).Perm names) :
    extendWithDirectory world entries enforceSignature path conf plenty =
        mergeFilesInOrder world path enforceSignature names conf plenty ∧
      (conf.Sound → conf.Tagged → ∀ status result o,
        extendWithDirectory world entries enforceSignature path conf plenty =
          .ok ((status, result), o) →
        ∃ attempts,
          (recordFiles world path enforceSignature names conf).Yields (attempts, result) ∧
            LastValueStays conf (admitted world enforceSignature attempts) result) := by
  have hcopied : regularNames entries = (entries.filter Prod.snd).map Prod.fst := by
    rw [regularNames]
    refine List.map_congr_left fun entry hentry => List.take_of_length_le ?_
    exact hshort _ (hregular.mem_iff.mp (List.mem_map_of_mem hentry))
  have hordered : extendWithDirectory world entries enforceSignature path conf plenty =
      mergeFilesInOrder world path enforceSignature names conf plenty := by
    rw [extendWithDirectory_eq_sorted, hcopied, sortNames_eq hascending hshort hregular]
  refine ⟨hordered, fun hsound htagged status result o hrun => ?_⟩
  have hsettles := @recordFiles_settles world enforceSignature _ path names hsound htagged
  have hyields := (hsettles.bind fun _ _ => Exec.settles_pure _).yields_of_run
    (hordered.symm.trans hrun)
  obtain ⟨⟨attempts, result'⟩, hfiles, hsame⟩ := Exec.yields_bind_pure_iff.mp hyields
  obtain ⟨-, rfl⟩ := Prod.mk.inj hsame
  obtain ⟨hmerge, hresult⟩ := recordFiles_yields hsound htagged hfiles
  refine ⟨attempts, hfiles, ?_⟩
  rw [hresult]
  exact lastValueStays hsound hmerge

/-- A directory with two files that give one option different values. -/
def twoValues : World :=
  .ofDocuments [("d/a.json".toList, Json.oneOption ['x'] (.int 1)),
    ("d/b.json".toList, Json.oneOption ['x'] (.int 2))]
    "d".toList [("b.json".toList, true), ("a.json".toList, true)]

/-- The value of the later name stays although `readdir` gives it first. -/
theorem later_name_decides : ∃ status result d,
    (extendWithDirectory twoValues [("b.json".toList, true), ("a.json".toList, true)] false
      "d".toList freshRoot).Yields (status, result) ∧
      Finds result "root/x".toList d ∧ d.value = .integer 2 := by
  have hordered := @extendWithDirectory_in_name_order twoValues false "d".toList
    ["a.json".toList, "b.json".toList] [("b.json".toList, true), ("a.json".toList, true)]
    freshRoot (by decide) (by decide) (by decide)
  have hrun : (extendWithDirectory twoValues [("b.json".toList, true), ("a.json".toList, true)]
      false "d".toList freshRoot).Yields (_, _) := Exec.yields_iff.mpr rfl
  obtain ⟨attempts, hfiles, hlast⟩ := hordered.2 ⟨by decide, by decide⟩ (by decide) _ _ _
    (Exec.yields_iff.mp hrun)
  obtain ⟨rfl, -⟩ := Prod.mk.inj (hfiles.unique (Exec.yields_iff.mpr rfl))
  let first := (Json.oneOption ['x'] (.int 1)).loaded false
  let second := (Json.oneOption ['x'] (.int 2)).loaded false
  obtain ⟨d, hd, -, hvalue⟩ := hlast [(first, [0]), (first, [0, 0]), (second, [0])] second [0, 0]
    [] "root/x".toList ⟨some ['x'], false, .int, .integer 2, 0⟩ rfl
    ⟨_, "root/x".toList, rfl, rfl, Exec.yields_iff.mpr rfl, rfl⟩ (by decide) (by simp)
    (.inl ⟨['x'], rfl, by decide⟩)
  exact ⟨_, _, d, hrun, hd, hvalue⟩

end Samconf
