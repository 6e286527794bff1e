/-
# The shape of trees

Below an OBJECT there may be anything, below an ARRAY its elements under the keys
`0`, `1` and so on in order, and below other nodes nothing. A new child keeps this
when it enters an OBJECT, or an ARRAY under the next index. A scalar written over
a node keeps it when the node has no children. Both can be read off the map of
settings, since an ARRAY of this shape has as many elements as indices are found.
-/

import Samconf.Spec.Create
import Samconf.Spec.Json
import Samconf.Spec.Merge

namespace Samconf

open Foundation
open RoseTree (relabel addChild childIdx?)

/-- The keys of the children suit the type of the node. -/
structure NodeData.Shaped (d : NodeData) (keys : List (Option CString)) : Prop where
  container : keys ≠ [] → d.type = .object ∨ d.type = .array
  indices : d.type = .array → keys = (List.range keys.length).map fun i => some (indexKey i)

/-- Every node has children that suit its type. -/
abbrev Config.Shaped (config : Config) : Prop := config.Everywhere NodeData.Shaped

/-- What is found at `ks` takes a new child with the key `k`: it is an OBJECT, or
an ARRAY whose next index is `k`. -/
def TakesChild (setting : List CString → Option Setting) (ks : List CString) (k : CString) :
    Prop :=
  ∃ b, setting ks = some b ∧
    (b.type = .object ∨
      b.type = .array ∧ ∃ i, k = indexKey i ∧ ∀ j < i, setting (ks ++ [indexKey j]) ≠ none)

/-- Where the segments lead on from what is found, it takes a new child. -/
def GrowsInShape (setting : List CString → Option Setting) (segments : List CString) : Prop :=
  ∀ ks k, ks ++ [k] <+: segments → setting ks ≠ none → setting (ks ++ [k]) = none →
    TakesChild setting ks k

/-- An entry is written in shape: what is missing is grown in shape, and a scalar
goes over a node without children. -/
structure WritesInShape (setting : List CString → Option Setting) (e : Entry) : Prop where
  grows : GrowsInShape setting e.1
  leaf : e.2.type.IsScalar → ∀ k, setting (e.1 ++ [k]) = none

namespace NodeData.Shaped

variable {d : NodeData} {keys : List (Option CString)}

theorem childless (d : NodeData) : d.Shaped [] := ⟨fun h => absurd rfl h, fun _ => rfl⟩

theorem object (h : d.type = .object) (keys : List (Option CString)) : d.Shaped keys where
  container _ := .inl h
  indices harray := by
    rw [h] at harray
    cases harray

/-- One more child with a key that is new. -/
theorem add {k : CString} (h : d.Shaped keys) (hnew : some k ∉ keys)
    (htakes : d.type = .object ∨
      d.type = .array ∧ ∃ i, k = indexKey i ∧ ∀ j < i, some (indexKey j) ∈ keys) :
    d.bump.Shaped (keys ++ [some k]) := by
  rcases htakes with hobject | ⟨harray, i, rfl, hbelow⟩
  · exact object (d := d.bump) hobject _
  · refine ⟨fun _ => .inr harray, fun _ => ?_⟩
    -- the indices found are those below the length, so `i` is the length
    have hmem (j : ℕ) : some (indexKey j) ∈ keys ↔ j < keys.length := by
      rw [h.indices harray]
      simp [Json.indexKey_injective.eq_iff]
    have hlength : i = keys.length := by
      rw [hmem] at hnew
      by_contra hne
      have hlt : keys.length < i := by omega
      exact absurd ((hmem keys.length).mp (hbelow _ hlt)) (lt_irrefl _)
    rw [List.length_append, List.length_singleton, List.range_succ, List.map_append, hlength,
      ← h.indices harray, List.map_singleton]

end NodeData.Shaped

/-- The keys of the elements of an ARRAY are their indices. -/
theorem key_of_array {s c : Config} (h : s.Shaped) (harray : s.label.type = .array) {i : ℕ}
    (hc : s.children[i]? = some c) : c.label.key = some (indexKey i) := by
  have hindices := (RoseTree.Everywhere.self h).indices harray
  have hhere := congrArg (fun keys => keys[i]?) hindices
  have hlt := (List.getElem?_eq_some_iff.mp hc).1
  simp only [List.getElem?_map, hc, Option.map_some, List.length_map,
    List.getElem?_range hlt] at hhere
  exact Option.some.inj hhere

section Grow

variable {config : Config}

theorem setting_cons_of_some {c : Config} {k : CString} {i : ℕ}
    (hi : childIdx? NodeData.key k config.children = some i) (hc : config.children[i]? = some c)
    (ks : List CString) : config.setting (k :: ks) = c.setting ks := by
  rw [Config.setting, RoseTree.view_cons, hi, Option.bind_some, hc, Option.bind_some]
  rfl

theorem setting_singleton_ne_none {k : CString} :
    config.setting [k] ≠ none ↔ some k ∈ config.children.map fun c => c.label.key := by
  cases hi : childIdx? NodeData.key k config.children with
  | none =>
      have hnone : config.setting [k] = none := by
        rw [Config.setting, RoseTree.view_cons, hi, Option.bind_none]
      simpa [hnone] using RoseTree.childIdx?_eq_none.mp hi
  | some i =>
      rcases RoseTree.childIdx?_eq_some.mp hi with ⟨c, hc, hkey, -⟩
      have hsome : config.setting [k] = some c.label.setting := by
        rw [setting_cons_of_some hi hc]
        exact RoseTree.view_nil c
      simpa [hsome] using ⟨c, List.mem_of_getElem? hc, hkey⟩

/-- A chain of OBJECTs down to a childless node has the shape. -/
theorem shaped_chain (d : NodeData) (k : CString) (ks : List CString) :
    Config.Shaped (RoseTree.chain NodeData.blank NodeData.bump (.node d []) k ks) := by
  induction ks generalizing k with
  | nil => exact RoseTree.everywhere_node.mpr ⟨.childless d, by simp⟩
  | cons k' ks ih =>
      refine RoseTree.everywhere_node.mpr ⟨.object rfl _, fun c hc => ?_⟩
      obtain rfl := List.mem_singleton.mp hc
      exact ih k'

/-- Growing along the segments grows the child that the first one leads to. -/
theorem GrowsInShape.child {c : Config} {k : CString} {ks : List CString} {i : ℕ}
    (h : GrowsInShape config.setting (k :: ks))
    (hi : childIdx? NodeData.key k config.children = some i)
    (hc : config.children[i]? = some c) : GrowsInShape (Config.setting c) ks := by
  have hbelow (ls : List CString) : config.setting (k :: ls) = Config.setting c ls :=
    setting_cons_of_some hi hc ls
  intro ls l hpre hsome hnone
  have hhere := h (k :: ls) l (by simpa using hpre)
  rw [List.cons_append, hbelow, hbelow] at hhere
  rcases hhere hsome hnone with ⟨b, hb, htakes⟩
  rw [hbelow] at hb
  refine ⟨b, hb, htakes.imp_right fun ⟨harray, i, hl, hfound⟩ => ⟨harray, i, hl, ?_⟩⟩
  intro j hj
  have hthere := hfound j hj
  rwa [List.cons_append, hbelow] at hthere

/-- **Growing in shape** keeps the shape. -/
theorem Config.Shaped.grow (h : config.Shaped) {d : NodeData} {segments : List CString}
    (hkey : d.key = segments.getLast?) (hgrows : GrowsInShape config.setting segments) :
    Config.Shaped (Config.grow (.node d []) config segments) := by
  induction segments generalizing config with
  | nil => simpa [Config.grow] using h
  | cons k ks ih =>
      cases hi : childIdx? NodeData.key k config.children with
      | none =>
          have hnew : some k ∉ config.children.map fun c => c.label.key := by
            simpa using RoseTree.childIdx?_eq_none.mp hi
          have hnone : config.setting [k] = none := by
            by_contra hsome
            exact hnew (setting_singleton_ne_none.mp hsome)
          have hchainKey :
              (RoseTree.chain NodeData.blank NodeData.bump (.node d []) k ks).label.key = some k :=
            RoseTree.key_chain NodeData.key_bump NodeData.key_blank fun k' hk' => hkey.trans hk'
          rcases hgrows [] k (by simp) (by simp [Config.setting]) hnone with ⟨b, hb, htakes⟩
          obtain rfl : config.label.setting = b := by simpa [Config.setting] using hb
          rw [Config.grow, RoseTree.grow_cons_of_none hi]
          apply h.addChild (shaped_chain d k ks)
          rw [hchainKey]
          apply h.self.add hnew
          rcases htakes with htakes | ⟨harray, i, hk, hbelow⟩
          · exact .inl htakes
          · exact .inr ⟨harray, i, hk, fun j hj => setting_singleton_ne_none.mp (hbelow j hj)⟩
      | some i =>
          rcases RoseTree.childIdx?_eq_some.mp hi with ⟨c, hc, -, -⟩
          have hbelow := hgrows.child hi hc
          have hchild : Config.Shaped (Config.grow (.node d []) c ks) := by
            cases ks with
            | nil => simpa [Config.grow] using h.child (List.mem_of_getElem? hc)
            | cons k' ks =>
                exact ih (h.child (List.mem_of_getElem? hc)) (by simpa using hkey) hbelow
          have hone := h.modify (p := [i])
            (f := fun c =>
              RoseTree.grow NodeData.key NodeData.blank NodeData.bump (.node d []) c ks)
            (s := c) (by simp [hc]) (RoseTree.key_grow NodeData.key_bump _ c ks) hchild
          rw [Config.grow, RoseTree.grow_cons_of_some hi]
          simpa using hone

end Grow

/-! ## Writing over a node -/

section Overwrite

variable {config : Config}

/-- A node with nothing found below has no children. -/
theorem childless_of_setting {s : Config} {ks : List CString} {p : List ℕ}
    (hkeyed : config.Keyed) (hp : config.resolve ks = some p) (hs : config.sub? p = some s)
    (h : ∀ k, config.setting (ks ++ [k]) = none) : s.children = [] := by
  cases hchildren : s.children with
  | nil => rfl
  | cons c cs =>
      have hkeys := RoseTree.Everywhere.self (RoseTree.Everywhere.sub hkeyed hs)
      have hkey : c.label.key ≠ none := by
        intro hnone
        exact hkeys (by simp [hchildren, hnone])
      obtain ⟨k, hk⟩ := Option.ne_none_iff_exists'.mp hkey
      have hlookup : RoseTree.lookup NodeData.key config ks = some s :=
        RoseTree.lookup_eq_some_iff.mpr ⟨p, hp, hs⟩
      have hbelow : config.setting (ks ++ [k]) = Config.setting s [k] := by
        simp [Config.setting, RoseTree.view, RoseTree.lookup_append, hlookup]
      have hfound : Config.setting s [k] ≠ none :=
        setting_singleton_ne_none.mpr (by simp [hchildren, hk])
      rw [← hbelow, h k] at hfound
      exact absurd rfl hfound

/-- **An entry written in shape** keeps the shape. -/
theorem Config.Shaped.put (h : config.Shaped) (hkeyed : config.Keyed) {e : Entry}
    (he : e.Writable) (hwrites : WritesInShape config.setting e) : Shaped (config.put e) := by
  rw [Config.put]
  cases hp : config.resolve e.1 with
  | none => exact h.grow (d := e.2.copied) he.lastKey hwrites.grows
  | some p =>
      rcases RoseTree.exists_sub?_of_resolve hp with ⟨s, hs⟩
      refine RoseTree.Everywhere.modify h hs (by simp) ?_
      have hself := RoseTree.Everywhere.sub h hs
      by_cases hscalar : e.2.type.IsScalar
      · have hempty := childless_of_setting hkeyed hp hs (hwrites.leaf hscalar)
        rw [← RoseTree.node_eta s, hempty]
        exact RoseTree.everywhere_node.mpr ⟨.childless _, by simp⟩
      · have hover : e.2.overwrite s.label = s.label := by
          rw [NodeData.overwrite, if_neg hscalar]
        rw [← RoseTree.node_eta s] at hself ⊢
        rw [relabel, hover]
        exact hself

end Overwrite

/-! ## Loaded documents -/

/-- The tree of a document has the shape. -/
theorem Json.shaped_tree (isSigned : Bool) (json : Json) (key : Option CString) :
    Config.Shaped (json.tree isSigned key) := by
  refine everywhere_tree_of_within fun sub key _ => ?_
  cases sub with
  | object entries => exact .object rfl _
  | array elements =>
      refine ⟨fun _ => .inr rfl, fun _ => ?_⟩
      apply List.ext_getElem
      · simp
      · simp [members]
  | _ => exact .childless _

/-! ## Intact trees -/

namespace Config

/-- A tree whose nodes all have a key, a count, a value and children as their types
ask for. -/
structure Intact (config : Config) : Prop extends Sound config where
  distinct : config.Distinct
  tagged : config.Tagged
  stringsSet : config.Everywhere fun d _ => d.StringSet
  shaped : config.Shaped

variable {config : Config}

/-- A childless node is intact. -/
theorem intact_leaf {d : NodeData} (hcount : d.childCount = 0) (htagged : d.Tagged)
    (hset : d.StringSet) : Intact (.node d []) where
  counted := RoseTree.everywhere_node.mpr ⟨hcount, by simp⟩
  keyed := RoseTree.everywhere_node.mpr ⟨by simp, by simp⟩
  distinct := RoseTree.everywhere_node.mpr ⟨List.nodup_nil, by simp⟩
  tagged := RoseTree.everywhere_node.mpr ⟨htagged, by simp⟩
  stringsSet := RoseTree.everywhere_node.mpr ⟨hset, by simp⟩
  shaped := RoseTree.everywhere_node.mpr ⟨.childless d, by simp⟩

theorem Intact.sub {s : Config} {p : List ℕ} (h : config.Intact) (hs : config.sub? p = some s) :
    Intact s where
  counted := RoseTree.Everywhere.sub h.counted hs
  keyed := RoseTree.Everywhere.sub h.keyed hs
  distinct := RoseTree.Everywhere.sub h.distinct hs
  tagged := RoseTree.Everywhere.sub h.tagged hs
  stringsSet := RoseTree.Everywhere.sub h.stringsSet hs
  shaped := RoseTree.Everywhere.sub h.shaped hs

theorem Intact.child {c : Config} (h : config.Intact) (hc : c ∈ config.children) : Intact c := by
  obtain ⟨i, hi⟩ := List.mem_iff_getElem?.mp hc
  have hs : config.sub? [i] = some c := by simp [hi]
  exact h.sub hs

/-- An intact tree can be merged when its options are named by paths below `root`. -/
theorem Intact.mergeable (h : config.Intact) (hkeys : config.PathKeyed)
    (hroot : config.RootPlaced) : config.Mergeable where
  counted := h.counted
  pathKeyed := hkeys
  distinct := h.distinct
  tagged := h.tagged
  stringsSet := h.stringsSet
  rootPlaced := hroot

theorem stringSet_blank (k : CString) : (NodeData.blank k).StringSet := by
  intro htype
  cases htype

/-- A new option keeps a tree intact when it grows in shape. -/
theorem Intact.grow (h : config.Intact) {d : NodeData} {segments : List CString}
    (hkey : d.key = segments.getLast?) (hcount : d.childCount = 0) (htagged : d.Tagged)
    (hset : d.StringSet) (hgrows : GrowsInShape config.setting segments) :
    Intact (Config.grow (.node d []) config segments) := by
  have hleaf := intact_leaf hcount htagged hset
  have hkey' : ∀ k, segments.getLast? = some k → d.key = some k := fun k hk => hkey.trans hk
  exact {
    toSound := h.toSound.grow hkey hcount
    distinct := h.distinct.grow hkey
    tagged := RoseTree.Everywhere.grow NodeData.key_bump NodeData.key_blank hkey'
      (fun l keys k _ hl _ => hl) (fun k _ => NodeData.tagged_blank k) hleaf.tagged h.tagged
    stringsSet := RoseTree.Everywhere.grow NodeData.key_bump NodeData.key_blank hkey'
      (fun l keys k _ hl _ => hl) (fun k _ => stringSet_blank k) hleaf.stringsSet h.stringsSet
    shaped := h.shaped.grow hkey hgrows }

/-- An entry keeps a tree intact when it is written in shape. -/
theorem Intact.put (h : config.Intact) {e : Entry} (he : e.Writable)
    (hwrites : WritesInShape config.setting e) : Intact (config.put e) where
  toSound := h.toSound.put he.placeable
  distinct := h.distinct.put (.inr he.lastKey)
  tagged := h.tagged.put he.placeable
  stringsSet := Everywhere.put h.stringsSet (.inr he.lastKey)
    (fun _ _ hd => he.stringSet.overwrite hd) (fun _ _ _ _ hd _ => hd)
    (fun k _ => stringSet_blank k) he.stringSet.copied
  shaped := h.shaped.put h.keyed he hwrites

theorem Intact.markSigned (h : config.Intact) (configToMerge : Config) :
    Intact (markSigned configToMerge config) where
  counted := h.counted.markSigned configToMerge fun _ _ _ hd => hd
  keyed := h.keyed.markSigned configToMerge fun _ _ _ hd => hd
  distinct := h.distinct.markSigned configToMerge fun _ _ _ hd => hd
  tagged := h.tagged.markSigned configToMerge fun _ _ _ hd => hd
  stringsSet := h.stringsSet.markSigned configToMerge fun _ _ _ hd => hd
  shaped := h.shaped.markSigned configToMerge fun _ _ _ hd => ⟨hd.container, hd.indices⟩

end Config

theorem intact_freshRoot : freshRoot.Intact := Config.intact_leaf rfl trivial (by decide)

/-- The tree of a document with unique names is intact. -/
theorem Json.intact_tree (isSigned : Bool) {json : Json} (h : json.UniqueKeys)
    (key : Option CString) : Config.Intact (json.tree isSigned key) where
  toSound := sound_tree isSigned json key
  distinct := distinct_tree isSigned h key
  tagged := tagged_tree isSigned json key
  stringsSet := everywhere_tree_of_within fun sub key _ => stringSet_label isSigned sub key
  shaped := shaped_tree isSigned json key

end Samconf
