/-
# Well-formed configuration trees

The properties of trees that the operations rely on and keep. Each is a
statement about every node's label and the keys of its children, so one rule
carries all of them through an insertion and another through the rewriting of a
single label.

`RootPlaced` is the promise that makes paths work: the key `root` sits at the
top, or on the children of the top, and nowhere else.
-/

import Samconf.Model.Types
import Samconf.Foundation.Segments

namespace Samconf

open Foundation
open RoseTree (relabel addChild)

/-- A key that can be found again as one segment of a path. -/
abbrev IsPathKey (key : CString) : Prop := IsSegment '/' key

/-- The union was last written through the member that the type names, or not
at all. Types without a value of their own put no bound on it. -/
def Value.Fits : ConfigValueType → Value → Prop
  | .none, _ => True
  | .array, _ => True
  | .object, _ => True
  | _, .zero => True
  | .string, .string _ => True
  | .int, .integer _ => True
  | .boolean, .boolean _ => True
  | .real, .real _ => True
  | _, _ => False

instance : ∀ type value, Decidable (Value.Fits type value)
  | .none, _ | .array, _ | .object, _ => .isTrue trivial
  | .string, .zero | .int, .zero | .boolean, .zero | .real, .zero => .isTrue trivial
  | .string, .string _ | .int, .integer _ | .boolean, .boolean _ | .real, .real _ =>
      .isTrue trivial
  | .string, .integer _ | .string, .boolean _ | .string, .real _ => .isFalse id
  | .int, .string _ | .int, .boolean _ | .int, .real _ => .isFalse id
  | .boolean, .string _ | .boolean, .integer _ | .boolean, .real _ => .isFalse id
  | .real, .string _ | .real, .integer _ | .real, .boolean _ => .isFalse id

/-- The union as read through the member that the type names. -/
def Value.read : ConfigValueType → Value → Value
  | .string, .zero => .string none
  | .int, .zero => .integer 0
  | .boolean, .zero => .boolean false
  | .real, .zero => .real ⟨0⟩
  | _, value => value

namespace NodeData

/-- The value of an option, read by its type. -/
def content (d : NodeData) : Value := d.value.read d.type

/-- The union fits the type. -/
def Tagged (d : NodeData) : Prop := d.value.Fits d.type

instance (d : NodeData) : Decidable d.Tagged := inferInstanceAs (Decidable (Value.Fits _ _))

/-- A node of type STRING holds a string pointer or zero. -/
def Lawful (d : NodeData) : Prop := d.type = .string → d.value.Fits .string

instance (d : NodeData) : Decidable d.Lawful := inferInstanceAs (Decidable (_ → _))

/-- A STRING node points to a string. -/
def StringSet (d : NodeData) : Prop := d.type = .string → d.content ≠ .string none

instance (d : NodeData) : Decidable d.StringSet := inferInstanceAs (Decidable (_ → _))

@[simp]
theorem tagged_bump (d : NodeData) : d.bump.Tagged ↔ d.Tagged := Iff.rfl

@[simp]
theorem tagged_init : init.Tagged := trivial

@[simp]
theorem tagged_blank (key : CString) : (blank key).Tagged := trivial

end NodeData

namespace Config

/-- Every count is the number of children. -/
abbrev Counted (config : Config) : Prop :=
  config.Everywhere fun d keys => d.childCount = keys.length

/-- Every array of children has as many entries as are counted. A lost array may
leave its count behind. -/
abbrev Readable (config : Config) : Prop :=
  config.Everywhere fun d keys => keys ≠ [] → d.childCount = keys.length

/-- Every node below the top has a key. -/
abbrev Keyed (config : Config) : Prop := config.Everywhere fun _ keys => none ∉ keys

/-- Every node below the top has a non-empty key without slashes. -/
abbrev PathKeyed (config : Config) : Prop :=
  config.Everywhere fun _ keys => ∀ k ∈ keys, ∃ key ∈ k, IsPathKey key

/-- Siblings have different keys. -/
abbrev Distinct (config : Config) : Prop := config.Everywhere fun _ keys => keys.Nodup

/-- Every union fits its type. -/
abbrev Tagged (config : Config) : Prop := config.Everywhere fun d _ => d.Tagged

/-- No node below the top is keyed `root`. -/
abbrev RootFree (config : Config) : Prop := config.Everywhere fun _ keys => some rootKey ∉ keys

/-- `root` occurs only as the key of the top, or only as the key of the children
of the top. -/
def RootPlaced (config : Config) : Prop :=
  (config.label.key = some rootKey ∧ config.RootFree) ∨
    (config.label.key ≠ some rootKey ∧
      ∀ c ∈ config.children, c.label.key = some rootKey ∧ Config.RootFree c)

/-- What a tree needs for lookups and insertions to be defined. -/
structure Sound (config : Config) : Prop where
  counted : config.Counted
  keyed : config.Keyed

/-- A tree whose options are named by their paths. -/
structure WellFormed (config : Config) : Prop where
  counted : config.Counted
  pathKeyed : config.PathKeyed
  distinct : config.Distinct
  tagged : config.Tagged

/-- A tree that can be merged into another one. -/
structure Mergeable (config : Config) : Prop extends WellFormed config where
  stringsSet : config.Everywhere fun d _ => d.StringSet
  rootPlaced : config.RootPlaced

instance (config : Config) : Decidable config.RootPlaced := inferInstanceAs (Decidable (_ ∨ _))

instance (config : Config) : Decidable config.WellFormed :=
  decidable_of_iff (config.Counted ∧ config.PathKeyed ∧ config.Distinct ∧ config.Tagged)
    ⟨fun ⟨hc, hk, hd, ht⟩ => ⟨hc, hk, hd, ht⟩,
      fun h => ⟨h.counted, h.pathKeyed, h.distinct, h.tagged⟩⟩

instance (config : Config) : Decidable config.Mergeable :=
  decidable_of_iff
    (config.WellFormed ∧ (config.Everywhere fun d _ => d.StringSet) ∧ config.RootPlaced)
    ⟨fun ⟨hw, hs, hr⟩ => ⟨hw, hs, hr⟩, fun h => ⟨h.toWellFormed, h.stringsSet, h.rootPlaced⟩⟩

variable {config : Config}

theorem Counted.readable (h : config.Counted) : config.Readable :=
  RoseTree.Everywhere.mono h fun _ _ hcount _ => hcount

theorem PathKeyed.keyed (h : config.PathKeyed) : config.Keyed :=
  RoseTree.Everywhere.mono h fun _ keys hkeys hmem => by
    obtain ⟨key, hkey, -⟩ := hkeys none hmem
    cases hkey

theorem WellFormed.sound (h : config.WellFormed) : config.Sound := ⟨h.counted, h.pathKeyed.keyed⟩

/-- The keys on the way to a position. -/
def keysAt (config : Config) (p : List ℕ) : Option (List CString) :=
  RoseTree.keysAt NodeData.key config p

/-- The segments that name a node: the keys on the way to it, after `root` when
that is the key of the top. -/
def segmentsOf (config : Config) (p : List ℕ) : Option (List CString) :=
  if config.label.key = some rootKey then (config.keysAt p).map (rootKey :: ·)
  else config.keysAt p

/-- The keys on the way to a position are path keys. -/
theorem PathKeyed.isPathKey {p : List ℕ} {keys : List CString} (h : config.PathKeyed)
    (hkeys : config.keysAt p = some keys) : ∀ key ∈ keys, IsPathKey key := by
  refine RoseTree.forall_mem_keysAt (RoseTree.Everywhere.mono h ?_) hkeys
  intro d keys hall k hk
  obtain ⟨key, heq, hpath⟩ := hall (some k) hk
  cases heq
  exact hpath

/-- No key on the way to a position is `root` when no node below the top has it. -/
theorem RootFree.ne_rootKey {p : List ℕ} {keys : List CString} (h : config.RootFree)
    (hkeys : config.keysAt p = some keys) : ∀ key ∈ keys, key ≠ rootKey := by
  refine RoseTree.forall_mem_keysAt (RoseTree.Everywhere.mono h ?_) hkeys
  rintro d keys hfree k hk rfl
  exact hfree hk

theorem PathKeyed.isPathKey_segmentsOf {p : List ℕ} {segments : List CString}
    (h : config.PathKeyed) (hsegments : config.segmentsOf p = some segments) :
    ∀ segment ∈ segments, IsPathKey segment := by
  rw [segmentsOf] at hsegments
  by_cases htop : config.label.key = some rootKey
  · rw [if_pos htop] at hsegments
    obtain ⟨keys, hkeys, rfl⟩ := Option.map_eq_some_iff.mp hsegments
    have hroot : IsPathKey rootKey := by decide
    simpa using ⟨hroot, h.isPathKey hkeys⟩
  · rw [if_neg htop] at hsegments
    exact h.isPathKey hsegments

theorem exists_segmentsOf {p : List ℕ} {s : Config} (h : config.Keyed)
    (hs : config.sub? p = some s) : ∃ segments, config.segmentsOf p = some segments := by
  obtain ⟨keys, hkeys⟩ := RoseTree.exists_keysAt h hs
  by_cases htop : config.label.key = some rootKey
  · exact ⟨rootKey :: keys, by simp [segmentsOf, htop, keysAt, hkeys]⟩
  · exact ⟨keys, by simp [segmentsOf, htop, keysAt, hkeys]⟩

/-- In a tree with distinct siblings a prefix among the names of nodes is a
prefix among their positions. -/
theorem Distinct.prefix_of_segmentsOf {p q : List ℕ} {ks ls : List CString}
    (h : config.Distinct) (hp : config.segmentsOf p = some ks)
    (hq : config.segmentsOf q = some ls) (hpre : ls <+: ks) : q <+: p := by
  rw [segmentsOf] at hp hq
  by_cases htop : config.label.key = some rootKey
  · rw [if_pos htop] at hp hq
    obtain ⟨ks', hks, rfl⟩ := Option.map_eq_some_iff.mp hp
    obtain ⟨ls', hls, rfl⟩ := Option.map_eq_some_iff.mp hq
    exact RoseTree.prefix_of_keysAt_prefix h hks hls (List.cons_prefix_cons.mp hpre).2
  · rw [if_neg htop] at hp hq
    exact RoseTree.prefix_of_keysAt_prefix h hp hq hpre

/-- In a tree with distinct siblings, segments that go on with `k` lead through a
child with the key `k`. -/
theorem Distinct.exists_child_of_segmentsOf {p q : List ℕ} {ks ls : List CString} {k : CString}
    (h : config.Distinct) (hp : config.segmentsOf p = some ks)
    (hq : config.segmentsOf q = some ls) (hpre : ks ++ [k] <+: ls) :
    ∃ i r s c, q = p ++ i :: r ∧ config.sub? p = some s ∧ s.children[i]? = some c ∧
      c.label.key = some k := by
  rw [segmentsOf] at hp hq
  by_cases htop : config.label.key = some rootKey
  · rw [if_pos htop] at hp hq
    obtain ⟨ks', hks, rfl⟩ := Option.map_eq_some_iff.mp hp
    obtain ⟨ls', hls, rfl⟩ := Option.map_eq_some_iff.mp hq
    exact RoseTree.exists_child_of_keysAt h hks hls (List.cons_prefix_cons.mp hpre).2
  · rw [if_neg htop] at hp hq
    exact RoseTree.exists_child_of_keysAt h hp hq hpre

/-- The segments of a child are those of its parent and its key. -/
theorem segmentsOf_child {p : List ℕ} {s c : Config} {ks : List CString} {k : CString} {i : ℕ}
    (hp : config.segmentsOf p = some ks) (hs : config.sub? p = some s)
    (hc : s.children[i]? = some c) (hk : c.label.key = some k) :
    config.segmentsOf (p ++ [i]) = some (ks ++ [k]) := by
  have hchild : config.keysAt (p ++ [i]) = (config.keysAt p).map (· ++ [k]) := by
    rw [keysAt, RoseTree.keysAt_append, ← keysAt]
    cases config.keysAt p with
    | none => rfl
    | some keys => simp [hs, hc, hk]
  rw [segmentsOf] at hp ⊢
  by_cases htop : config.label.key = some rootKey
  · rw [if_pos htop] at hp ⊢
    obtain ⟨keys, hkeys, rfl⟩ := Option.map_eq_some_iff.mp hp
    rw [hchild, hkeys]
    rfl
  · rw [if_neg htop] at hp ⊢
    rw [hchild, hp]
    rfl

/-- The setting under the segments is that of the node they resolve to. -/
theorem setting_of_resolve {s : Config} {segments : List CString} {p : List ℕ}
    (hp : config.resolve segments = some p) (hs : config.sub? p = some s) :
    config.setting segments = some s.label.setting := by
  have hlookup := RoseTree.lookup_eq_some_iff.mpr ⟨p, hp, hs⟩
  simp [Config.setting, RoseTree.view, hlookup]

/-! ## Rewriting one label -/

/-- Rewriting one label keeps a property that the new label has as well. -/
theorem Everywhere.modify_relabel {Q : NodeData → List (Option CString) → Prop}
    {g : NodeData → NodeData} {p : List ℕ} {s : Config} (h : config.Everywhere Q)
    (hs : config.sub? p = some s) (hkey : (g s.label).key = s.label.key)
    (hg : ∀ keys, Q s.label keys → Q (g s.label) keys) :
    Config.Everywhere Q (config.modify (relabel g) p) := by
  refine RoseTree.Everywhere.modify h hs (by simpa using hkey) ?_
  have hself := RoseTree.Everywhere.sub h hs
  cases s with
  | node l cs =>
      rw [RoseTree.everywhere_node] at hself
      exact RoseTree.everywhere_node.mpr ⟨hg _ hself.1, hself.2⟩

end Config

/-- The root that `samconfLoadAndMerge` makes when it is given none. -/
def freshRoot : Config := .node { NodeData.init with type := .object } []

end Samconf
