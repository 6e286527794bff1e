/-
# What merging computes

Each node below the top of `configToMerge` contributes an entry, the segments of
its path and its label. One round of the merge loop puts one entry into the
merged tree: over the node that the segments resolve to, or as a new node with
the missing ones on the way. Without failing allocations a merge that the rule
admits puts all entries, in preorder, and then raises the flag of the root.

Where no key holds a slash, the entries are what the abstract overlay writes: read as
a map from segments to settings, one put is one write of `settingWriter`.
-/

import Samconf.Model.Merge
import Samconf.Foundation.Overlay
import Samconf.Spec.Copy
import Samconf.Spec.Insert

namespace Samconf

open Foundation
open Exec (Yields Ensures Avoids)
open RoseTree (relabel)

/-! ## Entries -/

/-- The segments that name a node and the label it has. -/
abbrev Entry := List CString × NodeData

/-- What an entry needs to be written. -/
structure Entry.Writable (e : Entry) : Prop where
  nonempty : e.1 ≠ []
  pathKeys : ∀ segment ∈ e.1, IsPathKey segment
  lastKey : e.2.key = e.1.getLast?
  tagged : e.2.Tagged
  stringSet : e.2.StringSet

/-- What an entry needs to be put into a tree, under whatever key. -/
structure Entry.Placeable (e : Entry) : Prop where
  nonempty : e.1 ≠ []
  keyed : e.2.key ≠ none
  tagged : e.2.Tagged
  stringSet : e.2.StringSet

theorem Entry.Writable.placeable {e : Entry} (h : e.Writable) : e.Placeable where
  nonempty := h.nonempty
  keyed := by simpa [h.lastKey] using h.nonempty
  tagged := h.tagged
  stringSet := h.stringSet

namespace Config

/-- The entry of the node at a position. -/
def entry (config : Config) (p : List ℕ) : Entry :=
  ((config.segmentsOf p).getD [], ((config.sub? p).map RoseTree.label).getD NodeData.init)

/-- The entries of all nodes below the top, in preorder. -/
def entries (config : Config) : List Entry := config.descendants.map config.entry

/-- Write one entry: over the node that is there, or as a new one. -/
def put (config : Config) (e : Entry) : Config :=
  match config.resolve e.1 with
  | some p => config.modify (relabel e.2.overwrite) p
  | none => grow (.node e.2.copied []) config e.1

/-- Raise the flag of the root when the merged configuration is signed. -/
def markSigned (configToMerge config : Config) : Config :=
  if !config.label.isSigned && configToMerge.label.isSigned then
    relabel (fun d => { d with isSigned := configToMerge.label.isSigned }) config
  else config

/-- The tree that a merge leaves. -/
def merged (config configToMerge : Config) : Config :=
  markSigned configToMerge (configToMerge.entries.foldl put config)

/-- The entry of the node at a position by the path that `samconfPathGetPath` reports,
which goes through the slashes of keys as well. -/
def pathEntry (config : Config) (p : List ℕ) : Entry :=
  ((nodePath config p).toOption.elim [] pathSegments,
    ((config.sub? p).map RoseTree.label).getD NodeData.init)

/-- These entries of all nodes below the top, in preorder. -/
def pathEntries (config : Config) : List Entry := config.descendants.map config.pathEntry

/-- The tree that a merge leaves, whatever the keys are. -/
def mergedByPath (config configToMerge : Config) : Config :=
  markSigned configToMerge (configToMerge.pathEntries.foldl put config)

/-- What a tree needs to be merged, whatever its keys are. -/
structure Placeable (config : Config) : Prop extends Sound config where
  tagged : config.Tagged
  stringsSet : config.Everywhere fun d _ => d.StringSet
  rootAbove : config.RootAbove

/-- What the nodes below the top need for all of them to be put into a tree: a path, and
a label that can be copied. -/
def NodesPlaceable (config : Config) : Prop :=
  ∀ p ∈ config.descendants, ∃ path s, nodePath config p = .ok path ∧ config.sub? p = some s ∧
    Entry.Placeable (pathSegments path, s.label)

/-- The same without the demand on the top: all nodes can be copied. -/
structure Copyable (config : Config) : Prop extends Sound config where
  tagged : config.Tagged
  stringsSet : config.Everywhere fun d _ => d.StringSet

variable {config : Config}

theorem Copyable.placeable (h : config.Copyable) (hroot : config.RootAbove) :
    config.Placeable where
  toSound := h.toSound
  tagged := h.tagged
  stringsSet := h.stringsSet
  rootAbove := hroot

theorem entry_eq {p : List ℕ} {segments : List CString} {s : Config}
    (hsegments : config.segmentsOf p = some segments) (hs : config.sub? p = some s) :
    config.entry p = (segments, s.label) := by
  simp [entry, hsegments, hs]

/-- The last segment of a node's path is its key. -/
theorem segmentsOf_getLast? {p : List ℕ} {segments : List CString} {s : Config} (hp : p ≠ [])
    (hsegments : config.segmentsOf p = some segments) (hs : config.sub? p = some s) :
    s.label.key = segments.getLast? := by
  have hkeys (keys : List CString) (hkeysAt : config.keysAt p = some keys) :
      keys ≠ [] ∧ s.label.key = keys.getLast? := by
    have hlength := RoseTree.length_keysAt hkeysAt
    rcases List.eq_nil_or_concat keys with rfl | ⟨above, key, rfl⟩
    · exact absurd (List.length_eq_zero_iff.mp hlength.symm) hp
    · rw [List.concat_eq_append] at *
      rcases RoseTree.map_key_ancestors hkeysAt with ⟨-, node, hnode, hkey⟩
      obtain rfl : s = node := by simpa [hs] using hnode
      simpa using hkey
  rw [segmentsOf] at hsegments
  by_cases htop : config.label.key = some rootKey
  · rw [if_pos htop] at hsegments
    obtain ⟨keys, hkeysAt, rfl⟩ := Option.map_eq_some_iff.mp hsegments
    rcases hkeys keys hkeysAt with ⟨hne, hlast⟩
    rw [hlast, List.getLast?_cons_of_ne_nil hne]
  · rw [if_neg htop] at hsegments
    exact (hkeys segments hsegments).2

theorem segmentsOf_ne_nil {p : List ℕ} {segments : List CString} (hp : p ≠ [])
    (hsegments : config.segmentsOf p = some segments) : segments ≠ [] := by
  rw [segmentsOf] at hsegments
  by_cases htop : config.label.key = some rootKey
  · rw [if_pos htop] at hsegments
    obtain ⟨keys, -, rfl⟩ := Option.map_eq_some_iff.mp hsegments
    simp
  · rw [if_neg htop] at hsegments
    have hlength := RoseTree.length_keysAt hsegments
    rintro rfl
    exact hp (List.length_eq_zero_iff.mp hlength.symm)

/-- The entries of a mergeable tree can be written. -/
theorem Mergeable.writable (h : config.Mergeable) {p : List ℕ} (hp : p ∈ config.descendants) :
    (config.entry p).Writable := by
  rcases RoseTree.mem_descendants.mp hp with ⟨hne, s, hs⟩
  rcases exists_segmentsOf h.pathKeyed.keyed hs with ⟨segments, hsegments⟩
  rw [entry_eq hsegments hs]
  exact {
    nonempty := segmentsOf_ne_nil hne hsegments
    pathKeys := h.pathKeyed.isPathKey_segmentsOf hsegments
    lastKey := segmentsOf_getLast? hne hsegments hs
    tagged := h.tagged p s hs
    stringSet := h.stringsSet p s hs }

theorem Mergeable.entries_writable (h : config.Mergeable) : ∀ e ∈ config.entries, e.Writable := by
  intro e he
  obtain ⟨p, hp, rfl⟩ := List.mem_map.mp he
  exact h.writable hp

theorem Mergeable.placeable (h : config.Mergeable) : config.Placeable where
  toSound := h.sound
  tagged := h.tagged
  stringsSet := h.stringsSet
  rootAbove := h.rootPlaced.rootAbove

theorem pathEntry_eq {p : List ℕ} {path : CString} {s : Config}
    (hpath : nodePath config p = .ok path) (hs : config.sub? p = some s) :
    config.pathEntry p = (pathSegments path, s.label) := by
  simp [pathEntry, hpath, hs, Except.toOption]

/-- Entries of the same node below ancestors with the same climb. -/
theorem pathEntry_congr {t u : Config} {p q : List ℕ} (hsub : t.sub? p = u.sub? q)
    (hclimb : ∀ s, t.sub? p = some s → s.label.key ≠ some rootKey → ∀ newPath,
      climbPath newPath (t.ancestors p) = climbPath newPath (u.ancestors q)) :
    t.pathEntry p = u.pathEntry q := by
  have hpath : nodePath t p = nodePath u q := by
    rw [nodePath, nodePath, ← hsub]
    cases hs : t.sub? p with
    | none => rfl
    | some s =>
        cases hkey : s.label.key with
        | none => simp [hkey]
        | some key =>
            by_cases hroot : key = rootKey
            · simp [hkey, hroot]
            · simpa [hkey, hroot] using hclimb s hs (by simp [hkey, hroot]) key
  rw [pathEntry, pathEntry, hpath, hsub]

/-- Below a top that is keyed `root`, children keyed so begin paths of their own. -/
theorem pathEntries_append {l l' d : NodeData} {cs ds : List Config} (hl : l.key = some rootKey)
    (hl' : l'.key = some rootKey) (hds : ∀ c ∈ ds, c.label.key = some rootKey) :
    pathEntries (.node l' (cs ++ ds)) = pathEntries (.node l cs) ++ pathEntries (.node d ds) := by
  rw [pathEntries, RoseTree.descendants, RoseTree.children_node, RoseTree.positionsFrom_append,
    List.map_append]
  congr 1
  · refine RoseTree.map_positionsFrom_congr fun k c q hc => ?_
    have hlt : k < cs.length := (List.getElem?_eq_some_iff.mp hc).1
    have hat : (cs ++ ds)[0 + k]? = cs[0 + k]? := by
      rw [Nat.zero_add, List.getElem?_append_left hlt]
    refine pathEntry_congr ?_ fun _ _ _ newPath => climbPath_congr ?_ newPath
    · rw [RoseTree.sub?_cons, RoseTree.sub?_cons, RoseTree.children_node, RoseTree.children_node,
        hat]
    · rw [RoseTree.ancestors_cons, RoseTree.ancestors_cons, RoseTree.children_node,
        RoseTree.children_node, hat]
      simp [hl, hl']
  · refine RoseTree.map_positionsFrom_congr fun k c q hc => ?_
    have hat : (cs ++ ds)[0 + cs.length + k]? = ds[0 + k]? := by
      rw [Nat.zero_add, Nat.zero_add, List.getElem?_append_right (Nat.le_add_right _ _),
        Nat.add_sub_cancel_left]
    have hc' : ds[0 + k]? = some c := by rwa [Nat.zero_add]
    refine pathEntry_congr ?_ fun s hs hother newPath => ?_
    · rw [RoseTree.sub?_cons, RoseTree.sub?_cons, RoseTree.children_node, RoseTree.children_node,
        hat]
    · rw [RoseTree.ancestors_cons, RoseTree.ancestors_cons, RoseTree.children_node,
        RoseTree.children_node, hat, hc', Option.elim_some]
      have hkey := hds c (List.mem_of_getElem? hc)
      cases q with
      | nil =>
          rw [RoseTree.sub?_cons, RoseTree.children_node, hat, hc', Option.bind_some,
            RoseTree.sub?_nil] at hs
          obtain rfl := Option.some.inj hs
          exact absurd hkey hother
      | cons i q =>
          simp only [RoseTree.ancestors_cons, List.append_assoc, List.singleton_append]
          exact (climbPath_append_root hkey _ _ _).trans (climbPath_append_root hkey _ _ _).symm

/-- Without slashes in keys the path of a node is the keys on the way to it. -/
theorem Mergeable.pathEntry_eq (h : config.Mergeable) {p : List ℕ}
    (hp : p ∈ config.descendants) : config.pathEntry p = config.entry p := by
  rcases RoseTree.mem_descendants.mp hp with ⟨hne, s, hs⟩
  rcases exists_segmentsOf h.pathKeyed.keyed hs with ⟨segments, hsegments⟩
  rw [Config.pathEntry_eq (nodePath_eq h.pathKeyed h.rootPlaced hne hsegments) hs,
    entry_eq hsegments hs, pathSegments,
    segments_intercalate (h.pathKeyed.isPathKey_segmentsOf hsegments)]

theorem Mergeable.pathEntries_eq (h : config.Mergeable) : config.pathEntries = config.entries :=
  List.map_congr_left fun _ hp => h.pathEntry_eq hp

theorem Mergeable.mergedByPath_eq {configToMerge : Config} (h : configToMerge.Mergeable) :
    config.mergedByPath configToMerge = config.merged configToMerge := by
  rw [mergedByPath, merged, h.pathEntries_eq]

/-- The path and the entry of a node. -/
theorem Placeable.exists_pathEntry (h : config.Placeable) {p : List ℕ}
    (hp : p ∈ config.descendants) : ∃ path s, nodePath config p = .ok path ∧
      config.sub? p = some s ∧ config.pathEntry p = (pathSegments path, s.label) := by
  rcases RoseTree.mem_descendants.mp hp with ⟨-, s, hs⟩
  rcases exists_nodePath h.keyed h.rootAbove hp with ⟨path, hpath⟩
  exact ⟨path, s, hpath, hs, Config.pathEntry_eq hpath hs⟩

theorem Placeable.entry (h : config.Placeable) {p : List ℕ} (hp : p ∈ config.descendants) :
    (config.pathEntry p).Placeable := by
  rcases h.exists_pathEntry hp with ⟨path, s, hpath, hs, heq⟩
  rw [heq]
  refine ⟨(nodePath_segments hs hpath).1, ?_, h.tagged p s hs, h.stringsSet p s hs⟩
  intro hnone
  have hkey : s.label.key = none := hnone
  simp [nodePath, hs, hkey] at hpath

theorem Placeable.nodes (h : config.Placeable) : config.NodesPlaceable := by
  intro p hp
  rcases h.exists_pathEntry hp with ⟨path, s, hpath, hs, heq⟩
  exact ⟨path, s, hpath, hs, heq ▸ h.entry hp⟩

theorem NodesPlaceable.entry (h : config.NodesPlaceable) {p : List ℕ}
    (hp : p ∈ config.descendants) : (config.pathEntry p).Placeable := by
  rcases h p hp with ⟨path, s, hpath, hs, hentry⟩
  rwa [Config.pathEntry_eq hpath hs]

theorem NodesPlaceable.entries (h : config.NodesPlaceable) :
    ∀ e ∈ config.pathEntries, e.Placeable := by
  intro e he
  obtain ⟨p, hp, rfl⟩ := List.mem_map.mp he
  exact h.entry hp

/-- In preorder no later entry names a prefix of what an earlier one names. -/
theorem Mergeable.ordered (h : config.Mergeable) : Writer.Ordered config.entries := by
  have hpairwise := RoseTree.positions_pairwise config
  rw [RoseTree.positions_eq, List.pairwise_cons] at hpairwise
  rw [Writer.Ordered, entries, List.pairwise_map]
  refine List.Pairwise.imp_of_mem (fun {p q} hp hq hpq hpre => hpq ?_) hpairwise.2
  rcases RoseTree.mem_descendants.mp hp with ⟨-, s, hs⟩
  rcases RoseTree.mem_descendants.mp hq with ⟨-, r, hr⟩
  rcases exists_segmentsOf h.pathKeyed.keyed hs with ⟨ks, hks⟩
  rcases exists_segmentsOf h.pathKeyed.keyed hr with ⟨ls, hls⟩
  rw [entry_eq hks hs, entry_eq hls hr] at hpre
  exact Distinct.prefix_of_segmentsOf h.distinct hks hls hpre

/-! ## What a put keeps -/

section Put

variable {e : Entry}

/-- A put keeps a property of every node that survives a write, survives one more
child, which has a new key or is the copy, and holds of intermediate nodes and of the
copy. -/
theorem Everywhere.put_of_last {Q : NodeData → List (Option CString) → Prop}
    (h : config.Everywhere Q) (hover : ∀ d keys, Q d keys → Q (e.2.overwrite d) keys)
    (hadd : ∀ d keys k, k ∈ e.1 → Q d keys → some k ∉ keys → Q d.bump (keys ++ [some k]))
    (hlast : config.resolve e.1 = none → ∀ d keys k, e.1.getLast? = some k → Q d keys →
      some k ∉ keys → Q d.bump (keys ++ [e.2.key]))
    (hblank : ∀ k ∈ e.1, Q (NodeData.blank k) []) (hleaf : Q e.2.copied []) :
    Config.Everywhere Q (config.put e) := by
  rw [Config.put]
  cases hp : config.resolve e.1 with
  | some p =>
      rcases RoseTree.exists_sub?_of_resolve hp with ⟨s, hs⟩
      exact Everywhere.modify_relabel h hs (by simp) fun keys => hover s.label keys
  | none =>
      exact RoseTree.Everywhere.grow_of_last NodeData.key_bump NodeData.key_blank hadd (hlast hp)
        hblank (RoseTree.everywhere_node.mpr ⟨hleaf, by simp⟩) h

/-- Where the copy has the last key, or nothing is added, one condition on new
children is enough. -/
theorem Everywhere.put {Q : NodeData → List (Option CString) → Prop} (h : config.Everywhere Q)
    (he : config.resolve e.1 ≠ none ∨ e.2.key = e.1.getLast?)
    (hover : ∀ d keys, Q d keys → Q (e.2.overwrite d) keys)
    (hadd : ∀ d keys k, k ∈ e.1 → Q d keys → some k ∉ keys → Q d.bump (keys ++ [some k]))
    (hblank : ∀ k ∈ e.1, Q (NodeData.blank k) []) (hleaf : Q e.2.copied []) :
    Config.Everywhere Q (config.put e) := by
  refine Everywhere.put_of_last h hover hadd (fun hnone d keys k hk hd hnew => ?_) hblank hleaf
  rw [he.resolve_left (not_not.mpr hnone), hk]
  exact hadd d keys k (List.mem_of_getLast? hk) hd hnew

theorem Counted.put (h : config.Counted) : Counted (config.put e) :=
  Everywhere.put_of_last h (fun d keys hd => by simpa using hd)
    (fun d keys k _ hd _ => by simp [NodeData.bump, hd])
    (fun _ d keys k _ hd _ => by simp [NodeData.bump, hd]) (fun k _ => rfl) rfl

theorem Keyed.put (h : config.Keyed) (he : e.Placeable) : Keyed (config.put e) :=
  Everywhere.put_of_last h (fun d keys hd => hd) (fun d keys k _ hd _ => by simpa using hd)
    (fun _ d keys k _ hd _ => by simpa [he.keyed.symm] using hd) (fun k _ => by simp) (by simp)

theorem PathKeyed.put (h : config.PathKeyed) (he : e.Writable) : PathKeyed (config.put e) := by
  refine Everywhere.put h (.inr he.lastKey) (fun d keys hd => hd)
    (fun d keys k hk hd _ k' hk' => ?_) (fun k _ => by simp) (by simp)
  rcases List.mem_append.mp hk' with hk' | hk'
  · exact hd k' hk'
  · exact ⟨k, by simpa using hk', he.pathKeys k hk⟩

theorem Distinct.put (h : config.Distinct)
    (he : config.resolve e.1 ≠ none ∨ e.2.key = e.1.getLast?) : Distinct (config.put e) :=
  Everywhere.put h he (fun d keys hd => hd)
    (fun d keys k _ hd hnew => List.nodup_append.mpr
      ⟨hd, by simp, fun a ha b hb => by rintro rfl; simp_all⟩)
    (fun k _ => by simp) (by simp)

theorem Tagged.put (h : config.Tagged) (he : e.Placeable) : Tagged (config.put e) :=
  Everywhere.put_of_last h (fun _ _ hd => he.tagged.overwrite hd) (fun _ _ _ _ hd _ => hd)
    (fun _ _ _ _ _ hd _ => hd) (fun k _ => NodeData.tagged_blank k) he.tagged.copied

theorem Sound.put (h : config.Sound) (he : e.Placeable) : Sound (config.put e) :=
  ⟨h.counted.put, h.keyed.put he⟩

theorem WellFormed.put (h : config.WellFormed) (he : e.Writable) : WellFormed (config.put e) :=
  ⟨h.counted.put, h.pathKeyed.put he, h.distinct.put (.inr he.lastKey),
    h.tagged.put he.placeable⟩

end Put

/-! ## A put as a write -/

/-- How entries are written to a map from segments to settings. A scalar sets
type and value and leaves the flag; other types leave what is there. -/
def settingWriter : Writer CString NodeData Setting where
  update d b := if d.type.IsScalar then { b with type := d.type, value := d.content } else b
  fresh d := d.copied.setting
  blank k := (NodeData.blank k).setting

theorem setting_overwrite (d target : NodeData) :
    (d.overwrite target).setting = settingWriter.update d target.setting := by
  rw [NodeData.overwrite]
  simp only [settingWriter]
  split <;> rfl

section Under

variable {e : Entry} {segments : List CString} {b : Setting}

/-- A put under other segments keeps what is found, whatever its key. -/
theorem setting_put_of_ne (h : config.setting segments = some b) (hne : e.1 ≠ segments) :
    setting (config.put e) segments = some b := by
  rw [put]
  cases hp : config.resolve e.1 with
  | some p =>
      rcases RoseTree.exists_sub?_of_resolve hp with ⟨s, hs⟩
      have hview := RoseTree.view_modify_relabel (π := NodeData.setting)
        (g := e.2.overwrite) NodeData.key_overwrite hp hs segments
      rw [setting, hview, if_neg (Ne.symm hne)]
      exact h
  | none =>
      exact RoseTree.view_grow_of_some NodeData.key_bump NodeData.setting_bump
        (.node e.2.copied []) config e.1 h

/-- What a put leaves under its own segments, when they are found before or the copy
has the last of them for a key. -/
theorem setting_put_self (he : config.resolve e.1 ≠ none ∨ e.2.key = e.1.getLast?) :
    setting (config.put e) e.1 = some (settingWriter.result e.2 (config.setting e.1)) := by
  rw [put]
  cases hp : config.resolve e.1 with
  | some p =>
      rcases RoseTree.exists_sub?_of_resolve hp with ⟨s, hs⟩
      have hview := RoseTree.view_modify_relabel (π := NodeData.setting)
        (g := e.2.overwrite) NodeData.key_overwrite hp hs e.1
      rw [setting, hview, setting_of_resolve hp hs]
      simp [Writer.result, setting_overwrite]
  | none =>
      have hkey := he.resolve_left (not_not.mpr hp)
      have hnone : config.setting e.1 = none := RoseTree.view_eq_none_iff.mpr hp
      have hnone' : RoseTree.view NodeData.key NodeData.setting config e.1 = none := hnone
      have hview := RoseTree.view_grow (π := NodeData.setting) NodeData.key_bump
        NodeData.key_blank NodeData.setting_bump (.node e.2.copied []) config rfl
        (fun k hk => hkey.trans hk) e.1
      rw [setting, grow, hview, hnone, hnone']
      simp [Writer.result, settingWriter]

/-- What is found stays found. -/
theorem setting_put_ne_none (h : config.setting segments ≠ none) (e : Entry) :
    setting (config.put e) segments ≠ none := by
  by_cases heq : e.1 = segments
  · subst heq
    have hresolve : config.resolve e.1 ≠ none := fun hnone =>
      h (RoseTree.view_eq_none_iff.mpr hnone)
    rw [setting_put_self (.inl hresolve)]
    exact Option.some_ne_none _
  · obtain ⟨b, hb⟩ := Option.ne_none_iff_exists'.mp h
    rw [setting_put_of_ne hb heq]
    exact Option.some_ne_none _

theorem setting_foldl_put_ne_none (h : config.setting segments ≠ none) (es : List Entry) :
    setting (es.foldl put config) segments ≠ none := by
  refine List.foldlRecOn (motive := fun c : Config => c.setting segments ≠ none) es put h ?_
  intro config' hfound e _
  exact setting_put_ne_none hfound e

/-- Above what is found everything is found. -/
theorem setting_ne_none_of_prefix {above : List CString} (h : config.setting segments ≠ none)
    (hpre : above <+: segments) : config.setting above ≠ none := by
  intro hnone
  obtain ⟨p, hp⟩ := Option.ne_none_iff_exists'.mp fun hresolve =>
    h (RoseTree.view_eq_none_iff.mpr hresolve)
  obtain ⟨q, hq, -⟩ := RoseTree.exists_resolve_of_prefix hp hpre
  have hunresolved := RoseTree.view_eq_none_iff.mp hnone
  rw [hq] at hunresolved
  cases hunresolved

end Under

/-- **One put is one write.** -/
theorem setting_put (config : Config) {e : Entry} (he : e.Writable) :
    setting (config.put e) = settingWriter.put config.setting e := by
  funext segments
  rw [Writer.put]
  by_cases heq : segments = e.1
  · subst heq
    rw [if_pos rfl, setting_put_self (.inr he.lastKey)]
  rw [if_neg heq]
  cases hsetting : config.setting segments with
  | some b => rw [setting_put_of_ne hsetting (Ne.symm heq), Option.some_or]
  | none =>
      rw [put, Option.none_or]
      cases hp : config.resolve e.1 with
      | some p =>
          -- what is above a node that exists exists as well
          rcases RoseTree.exists_sub?_of_resolve hp with ⟨s, hs⟩
          have hfound : config.setting e.1 ≠ none := by
            rw [setting_of_resolve hp hs]
            exact Option.some_ne_none _
          have habove : ¬ segments <+: e.1 := fun hpre =>
            setting_ne_none_of_prefix hfound hpre hsetting
          have hview := RoseTree.view_modify_relabel (π := NodeData.setting)
            (g := e.2.overwrite) NodeData.key_overwrite hp hs segments
          rw [setting, hview, if_neg heq, if_neg habove]
          exact hsetting
      | none =>
          have hview := RoseTree.view_grow (π := NodeData.setting) NodeData.key_bump
            NodeData.key_blank NodeData.setting_bump (.node e.2.copied []) config rfl
            (fun k hk => he.lastKey.trans hk) segments
          have hnone : RoseTree.view NodeData.key NodeData.setting config segments = none :=
            hsetting
          rw [setting, grow, hview, if_neg heq, hnone, Option.none_or]
          rfl

/-- All puts together are the overlay. -/
theorem setting_foldl_put (config : Config) {es : List Entry} (hes : ∀ e ∈ es, e.Writable) :
    setting (es.foldl put config) = settingWriter.overlay config.setting es := by
  induction es generalizing config with
  | nil => rfl
  | cons e es ih =>
      rw [List.foldl_cons, ih _ fun d hd => hes d (List.mem_cons_of_mem e hd),
        setting_put config (hes e List.mem_cons_self), Writer.overlay_cons]

theorem WellFormed.foldl_put (h : config.WellFormed) {es : List Entry}
    (hes : ∀ e ∈ es, e.Writable) : WellFormed (es.foldl Config.put config) := by
  refine List.foldlRecOn es Config.put h ?_
  intro config' hconfig e he
  exact hconfig.put (hes e he)

theorem Sound.foldl_put (h : config.Sound) {es : List Entry} (hes : ∀ e ∈ es, e.Placeable) :
    Sound (es.foldl Config.put config) := by
  refine List.foldlRecOn es Config.put h ?_
  intro config' hconfig e he
  exact hconfig.put (hes e he)

theorem Tagged.foldl_put (h : config.Tagged) {es : List Entry} (hes : ∀ e ∈ es, e.Placeable) :
    Tagged (es.foldl Config.put config) := by
  refine List.foldlRecOn es Config.put h ?_
  intro config' hconfig e he
  exact hconfig.put (hes e he)

/-! ## The flag of the root -/

theorem setting_markSigned (configToMerge : Config) {segments : List CString}
    (hne : segments ≠ []) : setting (markSigned configToMerge config) segments =
      config.setting segments := by
  obtain ⟨k, ks, rfl⟩ := List.exists_cons_of_ne_nil hne
  rw [markSigned]
  split
  · simp [setting, RoseTree.view_cons]
  · rfl

theorem Everywhere.markSigned {Q : NodeData → List (Option CString) → Prop}
    (h : config.Everywhere Q) (configToMerge : Config)
    (hQ : ∀ d keys b, Q d keys → Q { d with isSigned := b } keys) :
    Config.Everywhere Q (markSigned configToMerge config) := by
  rw [Config.markSigned]
  split
  · have hrelabel := Everywhere.modify_relabel (p := []) (s := config)
      (g := fun d => { d with isSigned := configToMerge.label.isSigned }) h (by simp) rfl
      fun keys hd => hQ _ keys _ hd
    simpa using hrelabel
  · exact h

theorem WellFormed.markSigned (h : config.WellFormed) (configToMerge : Config) :
    WellFormed (markSigned configToMerge config) where
  counted := h.counted.markSigned configToMerge fun _ _ _ hd => hd
  pathKeyed := h.pathKeyed.markSigned configToMerge fun _ _ _ hd => hd
  distinct := h.distinct.markSigned configToMerge fun _ _ _ hd => hd
  tagged := h.tagged.markSigned configToMerge fun _ _ _ hd => hd

theorem Sound.markSigned (h : config.Sound) (configToMerge : Config) :
    Sound (markSigned configToMerge config) where
  counted := h.counted.markSigned configToMerge fun _ _ _ hd => hd
  keyed := h.keyed.markSigned configToMerge fun _ _ _ hd => hd

theorem Sound.mergedByPath (h : config.Sound) {configToMerge : Config}
    (hmerge : configToMerge.NodesPlaceable) : Sound (config.mergedByPath configToMerge) :=
  (h.foldl_put hmerge.entries).markSigned configToMerge

theorem Tagged.mergedByPath (h : config.Tagged) {configToMerge : Config}
    (hmerge : configToMerge.NodesPlaceable) : Tagged (config.mergedByPath configToMerge) :=
  Everywhere.markSigned (h.foldl_put hmerge.entries) configToMerge fun _ _ _ hd => hd

theorem setting_mergedByPath_ne_none {configToMerge : Config} {segments : List CString}
    (hne : segments ≠ [])
    (h : setting (configToMerge.pathEntries.foldl put config) segments ≠ none) :
    (config.mergedByPath configToMerge).setting segments ≠ none := by
  rwa [mergedByPath, setting_markSigned configToMerge hne]

/-- Merging keeps trees well formed. -/
theorem WellFormed.merged (h : config.WellFormed) {configToMerge : Config}
    (hmerge : configToMerge.Mergeable) : WellFormed (config.merged configToMerge) :=
  (h.foldl_put hmerge.entries_writable).markSigned configToMerge

/-- The flag of a merged root is set when one of the two roots is signed. -/
theorem isSigned_merged {configToMerge : Config} (hmerge : configToMerge.Mergeable) :
    (config.merged configToMerge).label.isSigned =
      (config.label.isSigned || configToMerge.label.isSigned) := by
  have htop : setting (configToMerge.entries.foldl put config) [] =
      some config.label.setting := by
    rw [setting_foldl_put config hmerge.entries_writable]
    apply Writer.overlay_of_forall_ne
    · exact fun e he => (hmerge.entries_writable e he).nonempty.symm
    · exact RoseTree.view_nil config
  have hflag : (configToMerge.entries.foldl put config).label.isSigned =
      config.label.isSigned := by
    have hlabel := Option.some.inj ((RoseTree.view_nil _).symm.trans htop)
    exact congrArg Setting.isSigned hlabel
  rw [merged, markSigned, hflag]
  cases hconfig : config.label.isSigned <;>
    cases hmerged : configToMerge.label.isSigned <;> simp [hflag, hconfig]

end Config

/-- Below the root, a merged tree holds the overlay of the entries. -/
theorem Config.Mergeable.setting_merged {configToMerge : Config} (h : configToMerge.Mergeable)
    (mergedConfig : Config) {segments : List CString} (hne : segments ≠ []) :
    (mergedConfig.merged configToMerge).setting segments =
      Config.settingWriter.overlay mergedConfig.setting configToMerge.entries segments := by
  rw [Config.merged, Config.setting_markSigned configToMerge hne,
    Config.setting_foldl_put mergedConfig h.entries_writable]

/-! ## The merge loop -/

/-- Giving up on a copy that can be released reports success. -/
theorem abandon_eq {node : Config} (h : samconfConfigDelete node = .ok .ok)
    (mergedConfig : Config) : abandon node mergedConfig = pure (.stopped .ok mergedConfig) := by
  rw [abandon, h, Exec.lift_ok_bind]

/-- A round whose node has a path. -/
theorem mergeNode_yields_of_path {mergedConfig configToMerge s : Config} {p : List ℕ}
    {path : CString} (hpath : nodePath configToMerge p = .ok path)
    (hs : configToMerge.sub? p = some s) (hentry : Entry.Placeable (pathSegments path, s.label))
    (hsound : mergedConfig.Sound) (htagged : mergedConfig.Tagged) :
    (mergeNode configToMerge p mergedConfig).Yields
      (.handled (mergedConfig.put (pathSegments path, s.label))) := by
  have hget := samconfConfigGet_yields path hsound hentry.nonempty
  rw [mergeNode]
  apply samconfConfigNew_yields.bind
  simp only [hs, deref_some, Exec.pure_bind]
  apply (samconfConfigCopyConfig_yields hentry.keyed hentry.tagged hentry.stringSet).bind
  simp only [ne_eq, not_true_eq_false, if_false]
  apply (samconfPathGetPath_yields hpath).bind
  simp only [not_true_eq_false, if_false]
  apply hget.bind
  cases hresolve : mergedConfig.resolve (pathSegments path) with
  | none =>
      have hinsert := samconfInsertAt_yields path (.node s.label.copied []) hsound hentry.nonempty
      simp only [lookupResult, if_true, Option.getD_some]
      apply hinsert.bind
      simpa [Config.put, hresolve] using Exec.yields_pure _
  | some q =>
      rcases RoseTree.exists_sub?_of_resolve hresolve with ⟨t, ht⟩
      have hcopy := samconfCopyConfigValue_yields (.node s.label.copied []) t
        hentry.tagged.copied hentry.stringSet.copied (htagged q t ht)
      simp only [lookupResult, reduceCtorEq, if_false, if_true, ht, deref_some, Exec.pure_bind]
      apply hcopy.bind
      have hover : mergedConfig.modify
            (fun _ => relabel (NodeData.overwrite s.label.copied) t) q =
          mergedConfig.modify (relabel s.label.overwrite) q := by
        apply RoseTree.modify_congr ht
        rw [NodeData.overwrite_copied]
      simp only [not_true_eq_false, if_false, RoseTree.label_node]
      rw [samconfConfigDelete_of_childless hentry.tagged.copied rfl, Exec.lift_ok_bind, hover]
      simpa [Config.put, hresolve] using Exec.yields_pure _

/-- One round of the loop puts one entry. -/
theorem mergeNode_yields {mergedConfig configToMerge : Config} {p : List ℕ}
    (hmerge : configToMerge.NodesPlaceable) (hp : p ∈ configToMerge.descendants)
    (hsound : mergedConfig.Sound) (htagged : mergedConfig.Tagged) :
    (mergeNode configToMerge p mergedConfig).Yields
      (.handled (mergedConfig.put (configToMerge.pathEntry p))) := by
  rcases hmerge p hp with ⟨path, s, hpath, hs, hentry⟩
  rw [Config.pathEntry_eq hpath hs]
  exact mergeNode_yields_of_path hpath hs hentry hsound htagged

/-- The round at the last node in preorder raises the flag and ends the loop. -/
theorem mergeStep_of_last {configToMerge : Config} {state : MergeState}
    {before : List (List ℕ)} (hreadable : configToMerge.Readable)
    (hsplit : configToMerge.positions = before ++ [state.configToFind]) :
    mergeStep configToMerge state =
      pure (.inr ⟨.ok, Config.markSigned configToMerge state.mergedConfig, state.handled⟩) := by
  rcases samconfConfigNext_eq hreadable hsplit with ⟨result, hnext⟩
  rw [mergeStep, hnext, Exec.lift_ok_bind]
  rfl

/-- Every other round is that of the node that follows. -/
theorem mergeStep_of_next {configToMerge : Config} {state : MergeState} {next : List ℕ}
    {before rest : List (List ℕ)} (hreadable : configToMerge.Readable)
    (hsplit : configToMerge.positions = before ++ state.configToFind :: next :: rest) :
    mergeStep configToMerge state =
      mergeNode configToMerge next state.mergedConfig >>= fun outcome =>
        match outcome with
        | .handled config => pure (.inl ⟨config, next, state.handled ++ [next]⟩)
        | .stopped result config => pure (.inr ⟨result, config, state.handled⟩) := by
  rcases samconfConfigNext_eq hreadable hsplit with ⟨result, hnext⟩
  rw [mergeStep, hnext, Exec.lift_ok_bind]
  rfl

/-- The loop from any point on puts the entries of the nodes still ahead. -/
theorem mergeRounds_yields {mergedConfig configToMerge : Config} {configToFind : List ℕ}
    {before rest : List (List ℕ)} (handled : List (List ℕ)) {n : ℕ}
    (hreadable : configToMerge.Readable) (hmerge : configToMerge.NodesPlaceable)
    (hsplit : configToMerge.positions = before ++ configToFind :: rest)
    (hrest : ∀ p ∈ rest, p ∈ configToMerge.descendants) (hn : rest.length < n)
    (hsound : mergedConfig.Sound) (htagged : mergedConfig.Tagged) :
    (Exec.loop .endless (mergeStep configToMerge) n ⟨mergedConfig, configToFind, handled⟩).Yields
      ⟨.ok, Config.markSigned configToMerge
        ((rest.map configToMerge.pathEntry).foldl Config.put mergedConfig), handled ++ rest⟩ := by
  induction rest generalizing mergedConfig configToFind before handled n with
  | nil =>
      obtain ⟨n, rfl⟩ := Nat.exists_eq_succ_of_ne_zero (Nat.ne_of_gt hn)
      rw [Exec.loop, mergeStep_of_last hreadable hsplit]
      simpa using Exec.yields_pure _
  | cons p rest ih =>
      cases n with
      | zero => omega
      | succ n =>
          have hp := hrest p List.mem_cons_self
          have hround := mergeNode_yields hmerge hp hsound htagged
          have hsplit' : configToMerge.positions = (before ++ [configToFind]) ++ p :: rest := by
            simpa using hsplit
          have hlater := ih (handled ++ [p]) hsplit'
            (fun q hq => hrest q (List.mem_cons_of_mem p hq)) (Nat.lt_of_succ_lt_succ hn)
            (hsound.put (hmerge.entry hp)) (htagged.put (hmerge.entry hp))
          rw [Exec.loop, mergeStep_of_next hreadable hsplit, Exec.bind_assoc]
          apply hround.bind
          simpa using hlater

/-- **The merge.** When the rule admits it, a merge without failing allocations
returns OK, has handled every node below the top, and leaves the merged tree. -/
theorem mergeConfig_yields_of_nodes {mergedConfig configToMerge : Config}
    (hreadable : configToMerge.Readable) (hmerge : configToMerge.NodesPlaceable)
    (hsound : mergedConfig.Sound) (htagged : mergedConfig.Tagged)
    (hrule : followsMergeRule mergedConfig configToMerge = true) :
    (mergeConfig mergedConfig (some configToMerge)).Yields
      ⟨.ok, mergedConfig.mergedByPath configToMerge, configToMerge.descendants⟩ := by
  have hsplit : configToMerge.positions = [] ++ [] :: configToMerge.descendants :=
    RoseTree.positions_eq configToMerge
  have hrounds := mergeRounds_yields [] (n := configToMerge.positions.length) hreadable hmerge
    hsplit (fun p hp => hp) (by simp [hsplit]) hsound htagged
  simpa [mergeConfig, hrule, Config.mergedByPath, Config.pathEntries] using hrounds

/-- The rule refuses only unsigned configurations, and only to signed trees. -/
theorem followsMergeRule_eq_false_iff {config configToMerge : Config} :
    followsMergeRule config configToMerge = false ↔
      config.label.isSigned = true ∧ configToMerge.label.isSigned = false := by
  rw [followsMergeRule]
  cases config.label.isSigned <;> cases configToMerge.label.isSigned <;> decide

/-- A merge that the rule does not admit changes nothing. -/
theorem mergeConfig_of_not_rule {mergedConfig configToMerge : Config}
    (hrule : followsMergeRule mergedConfig configToMerge = false) :
    mergeConfig mergedConfig (some configToMerge) =
      pure ⟨.overwriteNotAllowed, mergedConfig, []⟩ := by
  simp [mergeConfig, hrule]

/-- Without failing allocations an admitted merge returns OK and the merged tree. -/
theorem samconfConfigMergeConfig_yields_of_placeable {mergedConfig configToMerge : Config}
    (hmerge : configToMerge.Placeable) (hsound : mergedConfig.Sound)
    (htagged : mergedConfig.Tagged)
    (hrule : followsMergeRule mergedConfig configToMerge = true) :
    (samconfConfigMergeConfig mergedConfig (some configToMerge)).Yields
      (.ok, mergedConfig.mergedByPath configToMerge) := by
  rw [samconfConfigMergeConfig]
  apply (mergeConfig_yields_of_nodes hmerge.counted.readable hmerge.nodes hsound htagged hrule).bind
  exact Exec.yields_pure _

theorem samconfConfigMergeConfig_yields {mergedConfig configToMerge : Config}
    (hmerge : configToMerge.Mergeable) (hsound : mergedConfig.Sound)
    (htagged : mergedConfig.Tagged)
    (hrule : followsMergeRule mergedConfig configToMerge = true) :
    (samconfConfigMergeConfig mergedConfig (some configToMerge)).Yields
      (.ok, mergedConfig.merged configToMerge) := by
  rw [← hmerge.mergedByPath_eq]
  exact samconfConfigMergeConfig_yields_of_placeable hmerge.placeable hsound htagged hrule

/-- A merge that succeeds without failing allocations leaves the merged tree. -/
theorem eq_mergedByPath_of_run {mergedConfig configToMerge result : Config} {o : Supply}
    (hsound : mergedConfig.Sound) (htagged : mergedConfig.Tagged)
    (hmerge : configToMerge.Placeable)
    (h : samconfConfigMergeConfig mergedConfig (some configToMerge) plenty =
      .ok ((.ok, result), o)) :
    followsMergeRule mergedConfig configToMerge = true ∧
      result = mergedConfig.mergedByPath configToMerge := by
  cases hrule : followsMergeRule mergedConfig configToMerge with
  | true =>
      have hyields := samconfConfigMergeConfig_yields_of_placeable hmerge hsound htagged hrule
      rw [Exec.yields_iff, h] at hyields
      cases hyields
      exact ⟨rfl, rfl⟩
  | false =>
      rw [samconfConfigMergeConfig, mergeConfig_of_not_rule hrule] at h
      cases h

theorem eq_merged_of_run {mergedConfig configToMerge result : Config} {o : Supply}
    (hsound : mergedConfig.Sound) (htagged : mergedConfig.Tagged)
    (hmerge : configToMerge.Mergeable)
    (h : samconfConfigMergeConfig mergedConfig (some configToMerge) plenty =
      .ok ((.ok, result), o)) :
    followsMergeRule mergedConfig configToMerge = true ∧
      result = mergedConfig.merged configToMerge := by
  rw [← hmerge.mergedByPath_eq]
  exact eq_mergedByPath_of_run hsound htagged hmerge.placeable h

end Samconf
