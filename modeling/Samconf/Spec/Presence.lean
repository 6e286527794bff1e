/-
# What a merge leaves of a node

A node of `configToMerge` is in the merged tree when its path leads to a node with its
value. A key that is empty or holds a slash takes the path elsewhere: the copy keeps the
key and hangs where the rest of the path leads, and no lookup finds it there.

Each put leaves its own entry, and it stays until the entry of a scalar goes to the same
segments.
-/

import Samconf.Spec.Find

namespace Samconf

open Foundation
open Exec (Yields)
open RoseTree (HasChild)

/-- The node at a position has the label, and a path of the same segments. -/
def NodeAt (config : Config) (p : List ℕ) (path : CString) (d : NodeData) : Prop :=
  ∃ s path', config.sub? p = some s ∧ s.label = d ∧ HasPath config p path' ∧
    pathSegments path' = pathSegments path

/-- The key of the node is a path segment. -/
def NodeData.Plain (d : NodeData) : Prop := ∃ key, d.key = some key ∧ IsPathKey key

/-- The tree has a node for a label under a path: `samconfConfigGet` finds one there, or,
when no path segment is the key of the label, one with this key hangs where the path but
for its last segment leads. For a scalar it has the type and the value. -/
def Holds (root : Config) (path : CString) (d : NodeData) : Prop :=
  (∃ found, Finds root path found ∧
      (d.type.IsScalar → found.type = d.type ∧ found.value = d.content)) ∨
    ¬ d.Plain ∧ HasChild NodeData.key root (pathSegments path).dropLast fun l =>
      l.key = d.key ∧ (d.type.IsScalar → l.type = d.type ∧ l.value = d.content)

/-- The type and the value of an option are found under the segments. -/
def Config.HasValue (config : Config) (segments : List CString) (d : NodeData) : Prop :=
  ∃ b, config.setting segments = some b ∧ b.type = d.type ∧ b.value = d.content

section Nodes

variable {c : Config} {d : NodeData} {path : CString} {p : List ℕ}

/-- The entry of a node with the path. -/
theorem NodeAt.pathEntry (h : NodeAt c p path d) (hmerge : c.NodesPlaceable)
    (hp : p ∈ c.descendants) :
    c.pathEntry p = (pathSegments path, d) ∧ (d.Plain → d.key = (pathSegments path).getLast?) := by
  rcases h with ⟨s, path', hs, rfl, hpath, hsegments⟩
  rcases hmerge p hp with ⟨path'', s', hnode, hs', -⟩
  obtain rfl := Option.some.inj (hs.symm.trans hs')
  obtain rfl : path' = path'' := by
    have hsame := hpath.unique (samconfPathGetPath_yields hnode)
    cases hsame
    rfl
  rw [Config.pathEntry_eq hnode hs, hsegments]
  refine ⟨rfl, ?_⟩
  rintro ⟨key, hkey, hplain⟩
  rw [← hsegments, hkey]
  exact ((nodePath_segments hs hnode).2 key hkey hplain).symm

/-- A node whose entry goes to the segments has the path. -/
theorem nodeAt_of_pathEntry (hmerge : c.NodesPlaceable) (hp : p ∈ c.descendants)
    (h : (c.pathEntry p).1 = pathSegments path) : NodeAt c p path (c.pathEntry p).2 := by
  rcases hmerge p hp with ⟨path', s, hnode, hs, -⟩
  rw [Config.pathEntry_eq hnode hs] at h ⊢
  exact ⟨s, path', hs, rfl, samconfPathGetPath_yields hnode, h⟩

end Nodes

namespace Config

variable {config : Config} {e e' : Entry} {segments : List CString} {d : NodeData}

/-! ## Values -/

/-- A put elsewhere, or of no scalar, leaves the value. -/
theorem HasValue.put (h : config.HasValue segments d)
    (he : e.1 = segments → ¬ e.2.type.IsScalar) : Config.HasValue (config.put e) segments d := by
  rcases h with ⟨b, hb, htype, hvalue⟩
  by_cases heq : e.1 = segments
  · have hcontainer := he heq
    subst heq
    have hresolve : config.resolve e.1 ≠ none := fun hnone => by
      rw [Config.setting, RoseTree.view_eq_none_iff.mpr hnone] at hb
      cases hb
    refine ⟨b, ?_, htype, hvalue⟩
    rw [setting_put_self (.inl hresolve), hb]
    simp [Writer.result, settingWriter, hcontainer]
  · exact ⟨b, setting_put_of_ne hb heq, htype, hvalue⟩

/-- A put of a scalar leaves its value, when the path leads somewhere or ends with the
key. -/
theorem hasValue_put_self (hscalar : e.2.type.IsScalar)
    (h : config.setting e.1 ≠ none ∨ e.2.key = e.1.getLast?) :
    Config.HasValue (config.put e) e.1 e.2 := by
  have hplace : config.resolve e.1 ≠ none ∨ e.2.key = e.1.getLast? :=
    h.imp_left fun hfound hnone => hfound (RoseTree.view_eq_none_iff.mpr hnone)
  refine ⟨_, setting_put_self hplace, ?_⟩
  cases config.setting e.1 with
  | none => simp [Writer.result, settingWriter, NodeData.setting, NodeData.copied, hscalar]
  | some b => simp [Writer.result, settingWriter, hscalar]

theorem HasValue.foldl_put (h : config.HasValue segments d) {es : List Entry}
    (hes : ∀ e ∈ es, e.1 = segments → ¬ e.2.type.IsScalar) :
    Config.HasValue (es.foldl Config.put config) segments d := by
  refine List.foldlRecOn (motive := fun c : Config => c.HasValue segments d) es Config.put h ?_
  intro config' hconfig e he
  exact hconfig.put (hes e he)

theorem HasValue.markSigned (h : config.HasValue segments d) (hne : segments ≠ [])
    (configToMerge : Config) :
    Config.HasValue (Config.markSigned configToMerge config) segments d := by
  rwa [HasValue, setting_markSigned configToMerge hne]

/-! ## Entries -/

/-- The tree has a node for an entry. -/
def HoldsEntry (config : Config) (e : Entry) : Prop :=
  (config.setting e.1 ≠ none ∧ (e.2.type.IsScalar → config.HasValue e.1 e.2)) ∨
    ¬ e.2.Plain ∧ HasChild NodeData.key config e.1.dropLast fun l =>
      l.key = e.2.key ∧ (e.2.type.IsScalar → l.type = e.2.type ∧ l.value = e.2.content)

/-- A later put leaves it there, unless it writes a scalar under the same segments. -/
theorem HoldsEntry.put (h : config.HoldsEntry e) (hkeys : ∀ k ∈ e'.1, IsPathKey k)
    (he' : e'.1 = e.1 → ¬ e'.2.type.IsScalar) : HoldsEntry (config.put e') e := by
  rcases h with ⟨hfound, hvalue⟩ | ⟨hplain, hhung⟩
  · exact .inl ⟨setting_put_ne_none hfound e', fun hscalar => (hvalue hscalar).put he'⟩
  · refine .inr ⟨hplain, ?_⟩
    rw [Config.put]
    cases hresolve : config.resolve e'.1 with
    | some p =>
        obtain ⟨s, hs⟩ := RoseTree.exists_sub?_of_resolve hresolve
        refine hhung.modify_relabel hresolve hs NodeData.key_overwrite ?_
        intro l hl k hk hkeyed
        exact hplain ⟨k, hl.1.symm.trans hkeyed, hkeys k hk⟩
    | none => exact hhung.grow NodeData.key_bump fun l hl => hl

theorem HoldsEntry.markSigned (h : config.HoldsEntry e) (hne : e.1 ≠ [])
    (configToMerge : Config) : HoldsEntry (Config.markSigned configToMerge config) e := by
  rcases h with ⟨hfound, hvalue⟩ | ⟨hplain, hhung⟩
  · refine .inl ⟨?_, fun hscalar => (hvalue hscalar).markSigned hne configToMerge⟩
    rwa [setting_markSigned configToMerge hne]
  · refine .inr ⟨hplain, ?_⟩
    rw [Config.markSigned]
    split
    · have hkept (g : NodeData → NodeData) (hg : (g config.label).key = config.label.key) :=
        hhung.modify_relabel (RoseTree.resolve_nil config) (RoseTree.sub?_nil config) hg (by simp)
      simpa using hkept (fun d => { d with isSigned := configToMerge.label.isSigned }) rfl
    · exact hhung

/-- On sound trees lookups find the settings. -/
theorem HoldsEntry.holds {path : CString} (h : config.HoldsEntry (pathSegments path, d))
    (hsound : config.Sound) (hne : pathSegments path ≠ []) : Holds config path d := by
  refine h.imp_left ?_
  rintro ⟨hfound, hvalue⟩
  obtain ⟨b, hb⟩ := Option.ne_none_iff_exists'.mp hfound
  obtain ⟨found, hfinds, rfl⟩ := exists_finds hsound hne hb
  refine ⟨found, hfinds, fun hscalar => ?_⟩
  obtain ⟨b', hb', htype, hval⟩ := hvalue hscalar
  obtain rfl : found.setting = b' := Option.some.inj (hb.symm.trans hb')
  exact ⟨htype, hval⟩

end Config

end Samconf
