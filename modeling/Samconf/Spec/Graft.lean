/-
# Merging by structure

The merge goes through the paths of nodes: each node's path is put together from the
keys above it, taken apart again and looked up from the top of the merged tree. What
this comes to is a recursion on the two trees that never forms a path: a node that
meets a sibling with its key is written over it, one that meets none is appended.

The top of `configToMerge` takes part by its key alone. When that is `root`, the
paths of the nodes begin with it, and the recursion starts one level lower.
-/

import Samconf.Foundation.Graft
import Samconf.Spec.MergeList

namespace Samconf

open Foundation
open RoseTree (relabel addChild childIdx?)

/-! ## How labels are written -/

namespace NodeData

/-- Scalars write their type and value, other types write nothing. -/
def grafting : Grafting NodeData CString where
  key := NodeData.key
  write := NodeData.overwrite
  copy := NodeData.copied
  bump := NodeData.bump

theorem overwrite_overwrite (l m d : NodeData) :
    (l.overwrite m).overwrite d = l.overwrite (m.overwrite d) := by
  by_cases hl : l.type.IsScalar
  · have hover : (l.overwrite m).type.IsScalar := by simp [overwrite, hl]
    rw [overwrite, if_pos hover]
    by_cases hm : m.type.IsScalar <;> simp [overwrite, content, hl, hm]
  · simp [overwrite, hl]

theorem copied_overwrite (l m : NodeData) :
    (l.overwrite m).copied = l.overwrite m.copied := by
  by_cases hl : l.type.IsScalar <;> simp [overwrite, copied, content, hl]

theorem copied_copied (l : NodeData) : l.copied.copied = l.copied := by
  by_cases hl : l.type.IsScalar <;> simp [copied, content, hl]

theorem overwrite_self (l d : NodeData) : l.overwrite (l.overwrite d) = l.overwrite d := by
  by_cases hl : l.type.IsScalar <;> simp [overwrite, hl]

theorem overwrite_own_copy (l : NodeData) : l.overwrite l.copied = l.copied := by
  by_cases hl : l.type.IsScalar <;> simp [overwrite, copied, hl]

theorem overwrite_bump (l d : NodeData) : l.overwrite d.bump = (l.overwrite d).bump := by
  by_cases hl : l.type.IsScalar <;> simp [overwrite, bump, hl]

/-- Writing options is lawful. -/
theorem lawful_grafting : grafting.Lawful where
  key_write _ _ := key_overwrite
  key_copy _ := rfl
  key_bump _ := rfl
  write_bump := overwrite_bump
  write_of_bump _ := rfl
  copy_bump _ := rfl
  write_write := overwrite_overwrite
  copy_write := copied_overwrite
  write_copy := overwrite_copied
  copy_copy := copied_copied
  write_self := overwrite_self
  write_own_copy := overwrite_own_copy

/-- An OBJECT without a value writes nothing. -/
theorem overwrite_blank (k : CString) (d : NodeData) : (blank k).overwrite d = d := by
  have hobject : ¬ ConfigValueType.object.IsScalar := by decide
  exact if_neg hobject

end NodeData

/-! ## What the rule lets through -/

/-- Of a list of configurations the rule lets through the unsigned ones before the
first signed one, unless the tree is signed, and all signed ones. -/
def letThrough {α : Type} (flag : α → Bool) (isSigned : Bool) (items : List α) : List α :=
  (if isSigned then [] else items.takeWhile fun a => !flag a) ++ items.filter flag

theorem letThrough_map {α β : Type} (flag : β → Bool) (f : α → β) (isSigned : Bool)
    (items : List α) :
    letThrough flag isSigned (items.map f) =
      (letThrough (fun a => flag (f a)) isSigned items).map f := by
  cases isSigned <;> simp [letThrough, List.takeWhile_map, List.filter_map, Function.comp_def]

theorem mem_of_mem_letThrough {α : Type} {flag : α → Bool} {isSigned : Bool} {items : List α}
    {a : α} (h : a ∈ letThrough flag isSigned items) : a ∈ items := by
  rcases List.mem_append.mp h with h | h
  · cases isSigned with
    | true => cases h
    | false => exact (List.takeWhile_prefix _).subset h
  · exact List.mem_of_mem_filter h

namespace Config

open NodeData (grafting lawful_grafting)

/-! ## Entries -/

variable {config : Config}

theorem put_eq (config : Config) (e : Entry) :
    config.put e = grafting.put NodeData.blank config e := rfl

theorem entryAt_eq (h : config.Keyed) {p : List ℕ} (hp : p ∈ config.descendants) :
    ∃ keys s, config.keysAt p = some keys ∧ config.sub? p = some s ∧
      grafting.entryAt config p = some (keys, s.label) := by
  rcases RoseTree.mem_descendants.mp hp with ⟨-, s, hs⟩
  obtain ⟨keys, hkeys⟩ := RoseTree.exists_keysAt h hs
  have hkeys' : RoseTree.keysAt grafting.key config p = some keys := hkeys
  exact ⟨keys, s, hkeys, hs, by simp [Grafting.entryAt, hkeys', hs]⟩

/-- The entries of a tree, after the key of the top when that is `root`. -/
theorem entries_eq (h : config.Keyed) :
    config.entries =
      if config.label.key = some rootKey then
        (grafting.entriesAll config.children).map fun e => (rootKey :: e.1, e.2)
      else grafting.entriesAll config.children := by
  have hentry (f : Entry → Entry)
      (hf : ∀ p keys s, config.keysAt p = some keys → config.sub? p = some s →
        config.entry p = f (keys, s.label)) :
      config.entries = (grafting.entriesAll config.children).map f := by
    rw [Grafting.entriesAll_children, List.map_filterMap, entries, ← List.filterMap_eq_map]
    apply List.filterMap_congr
    intro p hp
    rcases entryAt_eq h hp with ⟨keys, s, hkeys, hs, hat⟩
    rw [hat, Function.comp_apply, Option.map_some, hf p keys s hkeys hs]
  by_cases htop : config.label.key = some rootKey
  · rw [if_pos htop]
    refine hentry _ fun p keys s hkeys hs => entry_eq ?_ hs
    rw [segmentsOf, if_pos htop, hkeys, Option.map_some]
  · rw [if_neg htop]
    have hall := hentry id fun p keys s hkeys hs => entry_eq (by rwa [segmentsOf, if_neg htop]) hs
    rwa [List.map_id] at hall

/-! ## The tree that is grafted -/

/-- A configuration with `root` as a node below the top, if it has any nodes there. -/
def body (config : Config) : Config :=
  if config.label.key = some rootKey then
    .node NodeData.init
      (if config.children = [] then [] else [.node (NodeData.blank rootKey) config.children])
  else config

/-- Putting the empty OBJECT that something is put below changes nothing. -/
theorem put_below_blank (config : Config) (k k' : CString) (ks : List CString) (l : NodeData) :
    Config.put (config.put ([k], NodeData.blank k)) (k :: k' :: ks, l) =
      config.put (k :: k' :: ks, l) := by
  simp only [put_eq]
  cases hi : childIdx? NodeData.key k config.children with
  | some i =>
      rw [Grafting.put_cons_of_some (G := grafting) hi]
      have hnothing : (fun d : Config => grafting.put NodeData.blank d ([], NodeData.blank k)) =
          id := by
        funext d
        rcases d with ⟨d, ds⟩
        rw [Grafting.put_nil]
        simp [relabel, grafting, NodeData.overwrite_blank]
      rw [hnothing, List.modify_id, RoseTree.node_eta]
  | none =>
      have hlast : childIdx? NodeData.key k
          (addChild NodeData.bump (.node (NodeData.blank k) []) config).children =
            some config.children.length := by
        simp [RoseTree.childIdx?_append_singleton, hi]
      have hgrow := @RoseTree.modify_addChild_last _ NodeData.bump
        (fun d => grafting.put NodeData.blank d (k' :: ks, l)) (.node (NodeData.blank k) []) config
      have hput : grafting.put NodeData.blank (.node (NodeData.blank k) []) (k' :: ks, l) =
          RoseTree.chain NodeData.blank NodeData.bump (.node l.copied []) k (k' :: ks) := by
        rw [Grafting.put, RoseTree.resolve_cons]
        exact RoseTree.grow_blank _ k (List.cons_ne_nil k' ks)
      have hmissing : config.resolve (k :: k' :: ks) = none := by
        rw [resolve, RoseTree.resolve_cons, hi, Option.bind_none]
      have hfirst : grafting.put NodeData.blank config ([k], NodeData.blank k) =
          addChild NodeData.bump (.node (NodeData.blank k) []) config :=
        Grafting.put_singleton_of_none hi _
      rw [hfirst, Grafting.put_cons_of_some (G := grafting) hlast, ← put_eq config, Config.put,
        hmissing, grow, RoseTree.grow_cons_of_none hi, ← hput, ← hgrow]
      simp

/-- The tree with another one grafted onto it. -/
def grafted (config configToMerge : Config) : Config :=
  grafting.graft configToMerge.body config

/-- **Merging is grafting.** -/
theorem foldl_put_entries (h : config.Keyed) (mergedConfig : Config) :
    config.entries.foldl put mergedConfig = mergedConfig.grafted config := by
  have hgraft (c mergedConfig : Config) : (grafting.entriesAll c.children).foldl put mergedConfig =
      grafting.graft c mergedConfig := lawful_grafting.foldl_put_entries c mergedConfig
  rw [entries_eq h, grafted, body]
  by_cases htop : config.label.key = some rootKey
  · rw [if_pos htop, if_pos htop, ← hgraft]
    rcases config with ⟨l, children⟩
    cases children with
    | nil => rfl
    | cons c cs =>
        have hkey : c.label.key ≠ none := fun hnone =>
          h.self (List.mem_map.mpr ⟨c, List.mem_cons_self, hnone⟩)
        obtain ⟨k, hkey⟩ := Option.ne_none_iff_exists'.mp hkey
        have hkey' : grafting.key c.label = some k := hkey
        have hfirst : grafting.entriesAll (c :: cs) = ([k], c.label) ::
            ((grafting.entries c).map (fun e => (k :: e.1, e.2)) ++ grafting.entriesAll cs) := by
          simp [Grafting.entriesAll, hkey']
        rw [RoseTree.children_node, if_neg (List.cons_ne_nil c cs), RoseTree.children_node,
          Grafting.entriesOne (c := .node (NodeData.blank rootKey) (c :: cs)) rfl,
          RoseTree.children_node, hfirst]
        simp only [List.map_cons, List.foldl_cons, RoseTree.label_node, put_below_blank]
  · rw [if_neg htop, if_neg htop, hgraft]

/-! ## The flag -/

/-- Raise the flag of the top if asked to. -/
def signedBy (isSigned : Bool) (config : Config) : Config :=
  relabel (fun d => { d with isSigned := d.isSigned || isSigned }) config

theorem signedBy_false (config : Config) : config.signedBy false = config := by
  rcases config with ⟨d, children⟩
  simp [signedBy, relabel]

theorem signedBy_signedBy (b c : Bool) (config : Config) :
    signedBy b (config.signedBy c) = config.signedBy (c || b) := by
  rcases config with ⟨d, children⟩
  simp [signedBy, relabel, Bool.or_assoc]

@[simp]
theorem isSigned_signedBy (b : Bool) (config : Config) :
    (config.signedBy b).label.isSigned = (config.label.isSigned || b) := by
  rw [signedBy, RoseTree.label_relabel]

theorem signedBy_of_isSigned {config : Config} (h : config.label.isSigned = true) (b : Bool) :
    config.signedBy b = config := by
  rcases config with ⟨d, children⟩
  have hd : d.isSigned = true := h
  rw [signedBy, relabel, hd, Bool.true_or, ← hd]

theorem markSigned_eq (configToMerge config : Config) :
    markSigned configToMerge config = config.signedBy configToMerge.label.isSigned := by
  rcases config with ⟨⟨key, isSigned, type, value, childCount⟩, children⟩
  cases isSigned <;> cases h : configToMerge.label.isSigned <;>
    simp [markSigned, signedBy, relabel, h]

theorem grafted_signedBy (config : Config) (b : Bool) (c : Config) :
    (config.signedBy b).grafted c = (config.grafted c).signedBy b :=
  Grafting.graft_relabel_target (G := grafting)
    (g := fun d => { d with isSigned := d.isSigned || b }) (fun _ => rfl) c.body config

@[simp]
theorem isSigned_grafted (config c : Config) :
    (config.grafted c).label.isSigned = config.label.isSigned :=
  Grafting.apply_label_graft (f := NodeData.isSigned) (fun _ => rfl) c.body config

theorem merged_eq (mergedConfig : Config) {configToMerge : Config} (h : configToMerge.Keyed) :
    mergedConfig.merged configToMerge =
      (mergedConfig.grafted configToMerge).signedBy configToMerge.label.isSigned := by
  rw [merged, foldl_put_entries h, markSigned_eq]

/-! ## Many configurations -/

theorem foldl_grafted_signedBy (b : Bool) (config : Config) (configs : List Config) :
    configs.foldl grafted (config.signedBy b) = (configs.foldl grafted config).signedBy b := by
  induction configs generalizing config with
  | nil => rfl
  | cons c configs ih => rw [List.foldl_cons, grafted_signedBy, ih, List.foldl_cons]

theorem isSigned_foldl_grafted (config : Config) (configs : List Config) :
    (configs.foldl grafted config).label.isSigned = config.label.isSigned := by
  induction configs generalizing config with
  | nil => rfl
  | cons c configs ih => rw [List.foldl_cons, ih, isSigned_grafted]

theorem foldl_grafted_idem (config : Config) (configs : List Config) :
    configs.foldl grafted (configs.foldl grafted config) = configs.foldl grafted config := by
  have hbodies (config : Config) : configs.foldl grafted config =
      (configs.map body).foldl (fun config c => grafting.graft c config) config := by
    rw [List.foldl_map]
    rfl
  rw [hbodies, hbodies, lawful_grafting.foldl_graft_idem]

theorem stepByPath_eq_grafted (config : Config) {configToMerge : Config}
    (h : configToMerge.Mergeable) :
    config.stepByPath configToMerge =
      if followsMergeRule config configToMerge then
        (config.grafted configToMerge).signedBy configToMerge.label.isSigned
      else config := by
  rw [stepByPath, h.mergedByPath_eq, merged_eq config h.pathKeyed.keyed]

/-- The configurations that the rule lets through are grafted, and the flag is raised
when one of them is signed. -/
theorem foldl_stepByPath (config : Config) {configs : List Config}
    (hmerge : ∀ c ∈ configs, c.Mergeable) :
    configs.foldl stepByPath config =
      ((letThrough (fun c => c.label.isSigned) config.label.isSigned configs).foldl grafted
        config).signedBy
        (configs.any fun c => c.label.isSigned) := by
  induction configs generalizing config with
  | nil => cases h : config.label.isSigned <;> simp [letThrough, signedBy_false]
  | cons c configs ih =>
      rw [List.foldl_cons, ih _ fun c hc => hmerge c (List.mem_cons_of_mem _ hc),
        stepByPath_eq_grafted config (hmerge c List.mem_cons_self)]
      cases hconfig : config.label.isSigned <;> cases hc : c.label.isSigned <;>
        simp [followsMergeRule, letThrough, hconfig, hc, foldl_grafted_signedBy, signedBy_signedBy,
          signedBy_false]

/-- Merging the same list of configurations again changes nothing. -/
theorem foldl_stepByPath_again (config : Config) {configs : List Config}
    (hmerge : ∀ c ∈ configs, c.Mergeable) :
    configs.foldl stepByPath (configs.foldl stepByPath config) =
      configs.foldl stepByPath config := by
  rw [foldl_stepByPath _ hmerge, foldl_stepByPath config hmerge, isSigned_signedBy,
    isSigned_foldl_grafted, foldl_grafted_signedBy, signedBy_signedBy, Bool.or_self]
  congr 1
  cases hsigned : config.label.isSigned || configs.any fun c => c.label.isSigned with
  | true =>
      -- only the signed ones are let through, which were let through last
      have hagain : letThrough (fun c : Config => c.label.isSigned) true configs =
          configs.filter fun c => c.label.isSigned := rfl
      rw [hagain, letThrough, List.foldl_append, foldl_grafted_idem]
  | false =>
      rw [Bool.or_eq_false_iff] at hsigned
      rw [hsigned.1, foldl_grafted_idem]

/-! ## Grafting what was grafted -/

variable {a b : Config}

theorem body_eq_self (h : a.label.key ≠ some rootKey) : a.body = a := if_neg h

/-- The key of the top and what is below it decide. -/
theorem grafted_of_signedBy (config : Config) (b : Bool) (c : Config) :
    config.grafted (c.signedBy b) = config.grafted c := by
  have hkey : (c.signedBy b).label.key = c.label.key := by rw [signedBy, RoseTree.label_relabel]
  have hchildren : (c.signedBy b).children = c.children := RoseTree.children_relabel _ _
  rw [grafted, grafted, body, body, hkey, hchildren]
  split
  · rfl
  · exact Grafting.graft_relabel _ c config

@[simp]
theorem key_grafted (config c : Config) : (config.grafted c).label.key = config.label.key :=
  Grafting.apply_label_graft (f := NodeData.key) (fun _ => rfl) c.body config

@[simp]
theorem key_graft (c config : Config) :
    (grafting.graft c config).label.key = config.label.key :=
  lawful_grafting.key_graft c config

/-- Grafting two trees is grafting the second one onto the first. -/
theorem grafted_grafted (ha : a.Distinct) (htop : a.label.key ≠ some rootKey)
    (config b : Config) : config.grafted (a.grafted b) = (config.grafted a).grafted b := by
  rw [grafted, body_eq_self (by rwa [key_grafted]), grafted, grafted, grafted, body_eq_self htop]
  exact lawful_grafting.graft_graft b.body ha config

/-- The nodes directly below the top of what is grafted are keyed `root`. -/
theorem RootPlaced.body (h : a.RootPlaced) :
    ∀ c ∈ a.body.children, c.label.key = some rootKey ∧ Config.RootFree c := by
  rcases h with ⟨htop, hfree⟩ | ⟨htop, hbelow⟩
  · rw [Config.body, if_pos htop, RoseTree.children_node]
    split
    · simp
    · intro c hc
      obtain rfl := List.mem_singleton.mp hc
      exact ⟨rfl, RoseTree.everywhere_node.mpr ⟨hfree.self, fun d hd => hfree.child hd⟩⟩
  · rwa [body_eq_self htop]

/-- What holds of the keys of all children holds of the key of every node below. -/
theorem Everywhere.below {R : Option CString → Prop}
    (h : a.Everywhere fun _ keys => ∀ k ∈ keys, R k) :
    ∀ c ∈ a.children, Config.Everywhere (fun d _ => R d.key) c := by
  induction a using RoseTree.induct with
  | node d children ih =>
      intro c hc
      have hchild := RoseTree.Everywhere.child h hc
      rw [← RoseTree.node_eta c]
      refine RoseTree.everywhere_node.mpr ⟨?_, ih c hc hchild⟩
      exact RoseTree.Everywhere.self h _ (List.mem_map_of_mem hc)

theorem RootFree.graft (hb : b.RootFree) (ha : a.RootFree) :
    Config.RootFree (grafting.graft b a) := by
  have hkeys : b.Everywhere fun _ keys => ∀ k ∈ keys, k ≠ some rootKey :=
    RoseTree.Everywhere.mono hb fun _ keys hfree k hk heq => hfree (heq ▸ hk)
  refine lawful_grafting.everywhere_graft (P := fun d => d.key ≠ some rootKey)
    (fun _ _ _ _ hfree => hfree) (fun l _ keys k hl hk hfree _ hmem => ?_) (fun _ _ => by simp)
    (Everywhere.below hkeys) ha
  rcases List.mem_append.mp hmem with hmem | hmem
  · exact hfree hmem
  · exact hl (hk.trans (List.mem_singleton.mp hmem).symm)

/-- Siblings keyed `root` with nothing keyed so below go on a tree like that. -/
theorem rootPlaced_graftAll {bs : List Config}
    (hbs : ∀ b ∈ bs, b.label.key = some rootKey ∧ Config.RootFree b) {a : Config}
    (ha : ∀ c ∈ a.children, c.label.key = some rootKey ∧ Config.RootFree c) :
    ∀ c ∈ (grafting.graftAll bs a).children,
      c.label.key = some rootKey ∧ Config.RootFree c := by
  induction bs generalizing a with
  | nil => exact ha
  | cons b bs ih =>
      rw [Grafting.graftAll_cons]
      apply ih fun b' hb' => hbs b' (List.mem_cons_of_mem b hb')
      rcases hbs b List.mem_cons_self with ⟨hkey, hfree⟩
      have hkey' : grafting.key b.label = some rootKey := hkey
      cases hi : childIdx? grafting.key rootKey a.children with
      | some i =>
          rw [Grafting.graftOne_of_some hkey' hi, RoseTree.children_node]
          intro c hc
          obtain ⟨j, hj⟩ := List.getElem?_of_mem hc
          rw [List.getElem?_modify] at hj
          obtain ⟨d, hd, rfl⟩ := Option.map_eq_some_iff.mp hj
          rcases ha d (List.mem_of_getElem? hd) with ⟨hdkey, hdfree⟩
          split
          · refine ⟨?_, hfree.graft ?_⟩
            · rw [key_graft, RoseTree.label_relabel, ← hdkey]
              exact NodeData.key_overwrite
            · rcases d with ⟨d, ds⟩
              exact RoseTree.everywhere_node.mpr ⟨hdfree.self, fun c hc => hdfree.child hc⟩
          · exact ⟨hdkey, hdfree⟩
      | none =>
          rw [Grafting.graftOne_of_none hkey' hi, RoseTree.children_addChild]
          intro c hc
          rcases List.mem_append.mp hc with hc | hc
          · exact ha c hc
          · obtain rfl := List.mem_singleton.mp hc
            refine ⟨?_, hfree.graft (RoseTree.everywhere_node.mpr ⟨by simp, by simp⟩)⟩
            rw [key_graft, RoseTree.label_node]
            exact hkey

theorem key_stepByPath (hb : b.Mergeable) : (a.stepByPath b).label.key = a.label.key := by
  rw [stepByPath_eq_grafted a hb]
  split
  · rw [signedBy, RoseTree.label_relabel, key_grafted]
  · rfl

/-- A merge leaves no STRING without a string. -/
theorem stringsSet_stepByPath (ha : a.Everywhere fun d _ => d.StringSet) (hb : b.Mergeable) :
    Config.Everywhere (fun d _ => d.StringSet) (a.stepByPath b) := by
  rw [Config.stepByPath]
  split
  · rw [hb.mergedByPath_eq]
    refine Everywhere.markSigned ?_ b fun _ _ _ hd => hd
    refine List.foldlRecOn b.entries Config.put ha fun config hconfig e he => ?_
    have hset := (hb.entries_writable e he).stringSet
    exact Everywhere.put hconfig (.inr (hb.entries_writable e he).lastKey)
      (fun _ _ hd => hset.overwrite hd) (fun _ _ _ _ hd _ => hd) (fun _ _ h => by cases h)
      hset.copied
  · exact ha

/-- A merge leaves a tree that can be merged in its turn, with every node where the code
looks for it, unless its top is `root`. -/
theorem Mergeable.stepByPath (ha : a.Mergeable) (htop : a.label.key ≠ some rootKey)
    (hb : b.Mergeable) : Config.Mergeable (a.stepByPath b) := by
  refine ⟨?_, stringsSet_stepByPath ha.stringsSet hb, .inr ⟨by rwa [key_stepByPath hb], ?_⟩⟩
  · rw [Config.stepByPath, hb.mergedByPath_eq]
    split
    · exact ha.toWellFormed.merged hb
    · exact ha.toWellFormed
  · have hchildren : ∀ c ∈ a.children, c.label.key = some rootKey ∧ Config.RootFree c := by
      rcases ha.rootPlaced with ⟨hkey, -⟩ | ⟨-, hbelow⟩
      · exact absurd hkey htop
      · exact hbelow
    rw [stepByPath_eq_grafted a hb]
    split
    · rw [signedBy, RoseTree.children_relabel, grafted, Grafting.graft_eq]
      exact rootPlaced_graftAll hb.rootPlaced.body hchildren
    · exact hchildren

/-- A merge leaves a tree that can be put into another one, also when its top is `root`. -/
theorem Mergeable.placeable_stepByPath (ha : a.Mergeable) (hb : b.Mergeable) :
    Placeable (a.stepByPath b) := by
  by_cases htop : a.label.key = some rootKey
  · refine ⟨ha.sound.stepByPath hb.placeable, ?_, stringsSet_stepByPath ha.stringsSet hb, ?_⟩
    · exact Tagged.stepByPath ha.tagged hb.placeable
    · exact .inl ((key_stepByPath hb).trans htop)
  · exact (ha.stepByPath htop hb).placeable

/-! ### Below `root` -/

/-- What is merged into a new node can be merged in its turn. -/
theorem Mergeable.stepByPath_init (hb : b.Mergeable) :
    Config.Mergeable (samconfConfigInit.stepByPath b) :=
  (by decide : samconfConfigInit.Mergeable).stepByPath (by decide) hb

theorem followsMergeRule_init (b : Config) : followsMergeRule samconfConfigInit b = true := by
  simp [followsMergeRule, samconfConfigInit, NodeData.init]

/-- A configuration that is merged into a new node first is the same to graft. -/
theorem grafted_stepByPath_init (hb : b.Mergeable) (config : Config) :
    config.grafted (samconfConfigInit.stepByPath b) = config.grafted b := by
  rw [stepByPath_eq_grafted samconfConfigInit hb, if_pos (followsMergeRule_init b),
    grafted_of_signedBy, grafted_grafted (by decide) (by decide)]
  rfl

/-- Below a top that is keyed `root`, what is merged hangs beside what was there. -/
theorem children_stepByPath_of_root (ha : a.Mergeable) (htop : a.label.key = some rootKey)
    (hb : b.Mergeable) (hrule : followsMergeRule a b = true) :
    (a.stepByPath b).children = a.children ++ (samconfConfigInit.stepByPath b).children := by
  have hfree : a.RootFree := by
    rcases ha.rootPlaced with ⟨-, hfree⟩ | ⟨hother, -⟩
    · exact hfree
    · exact absurd htop hother
  have hfront : ∀ c ∈ b.body.children, ∀ k, grafting.key c.label = some k →
      childIdx? grafting.key k a.children = none := by
    intro c hc k hk
    obtain rfl : rootKey = k := Option.some.inj ((hb.rootPlaced.body c hc).1.symm.trans hk)
    refine RoseTree.childIdx?_eq_none.mpr fun d hd hkey => ?_
    exact hfree.self (List.mem_map.mpr ⟨d, hd, hkey⟩)
  have happend : a.children = a.children ++ samconfConfigInit.children :=
    (List.append_nil _).symm
  rw [stepByPath_eq_grafted a hb, if_pos hrule, stepByPath_eq_grafted samconfConfigInit hb,
    if_pos (followsMergeRule_init b), signedBy, signedBy, RoseTree.children_relabel,
    RoseTree.children_relabel, grafted, grafted, Grafting.graft_eq, Grafting.graft_eq,
    Grafting.children_graftAll_of_front hfront happend]

/-! ### A group -/

/-- **Merging a merge** is merging the two. When the first one's top is keyed `root`, the
second one hangs below it, and its nodes have the paths that they had. -/
theorem foldl_put_pathEntries_stepByPath (ha : a.Mergeable) (hb : b.Mergeable)
    (hrule : followsMergeRule a b = true) (config : Config) :
    (pathEntries (a.stepByPath b)).foldl put config = (config.grafted a).grafted b := by
  by_cases htop : a.label.key = some rootKey
  · have hinit := hb.stepByPath_init
    have hgraft {t : Config} (h : t.Mergeable) (config : Config) :
        t.pathEntries.foldl put config = config.grafted t := by
      rw [h.pathEntries_eq, foldl_put_entries h.pathKeyed.keyed]
    have hroots : ∀ c ∈ (samconfConfigInit.stepByPath b).children,
        c.label.key = some rootKey := by
      have hnone : (samconfConfigInit.stepByPath b).label.key = none := key_stepByPath hb
      rcases hinit.rootPlaced with ⟨hkey, -⟩ | ⟨-, hbelow⟩
      · rw [hnone] at hkey
        cases hkey
      · exact fun c hc => (hbelow c hc).1
    have hkey : (a.stepByPath b).label.key = some rootKey := (key_stepByPath hb).trans htop
    have hentries : pathEntries (a.stepByPath b) =
        a.pathEntries ++ pathEntries (samconfConfigInit.stepByPath b) := by
      rw [← RoseTree.node_eta (a.stepByPath b), children_stepByPath_of_root ha htop hb hrule,
        pathEntries_append (d := (samconfConfigInit.stepByPath b).label) htop hkey hroots,
        RoseTree.node_eta, RoseTree.node_eta]
    rw [hentries, List.foldl_append, hgraft ha, hgraft hinit, grafted_stepByPath_init hb]
  · have hgroup := ha.stepByPath htop hb
    rw [hgroup.pathEntries_eq, foldl_put_entries hgroup.pathKeyed.keyed,
      stepByPath_eq_grafted a hb, if_pos hrule, grafted_of_signedBy,
      grafted_grafted ha.distinct htop]

/-- A group that is let through. -/
theorem stepByPath_group (ha : a.Mergeable) (hb : b.Mergeable)
    (hrule : followsMergeRule a b = true) {config : Config}
    (hgroup : followsMergeRule config (a.stepByPath b) = true) :
    config.stepByPath (a.stepByPath b) =
      ((config.grafted a).grafted b).signedBy (a.label.isSigned || b.label.isSigned) := by
  rw [Config.stepByPath, if_pos hgroup, mergedByPath, markSigned_eq, isSigned_stepByPath,
    foldl_put_pathEntries_stepByPath ha hb hrule]

/-- Two configurations can be merged with each other first, unless the rule would have
refused the first of them but not the second. -/
theorem stepByPath_stepByPath (ha : a.Mergeable) (hb : b.Mergeable) (config : Config)
    (hrule : ¬ (config.label.isSigned = true ∧ a.label.isSigned = false ∧
      b.label.isSigned = true)) :
    config.stepByPath (a.stepByPath b) = (config.stepByPath a).stepByPath b := by
  cases hab : followsMergeRule a b with
  | false =>
      -- the second one is refused by the first, and by what the first leaves
      obtain ⟨hsigned, hunsigned⟩ := followsMergeRule_eq_false_iff.mp hab
      have hrefused : followsMergeRule (config.stepByPath a) b = false :=
        followsMergeRule_eq_false_iff.mpr
          ⟨by rw [isSigned_stepByPath, hsigned, Bool.or_true], hunsigned⟩
      have hfirst : a.stepByPath b = a := by simp [Config.stepByPath, hab]
      rw [hfirst, stepByPath_eq_grafted (config.stepByPath a) hb, hrefused,
        if_neg Bool.false_ne_true]
  | true =>
      cases hgroup : followsMergeRule config (a.stepByPath b) with
      | false =>
          obtain ⟨hsigned, hunsigned⟩ := followsMergeRule_eq_false_iff.mp hgroup
          have hrefused {c : Config} (hc : c.label.isSigned = false) :
              config.stepByPath c = config := by
            simp [Config.stepByPath, followsMergeRule, hsigned, hc]
          have hboth := hunsigned
          rw [isSigned_stepByPath, Bool.or_eq_false_iff] at hboth
          rw [hrefused hunsigned, hrefused hboth.1, hrefused hboth.2]
      | true =>
          rw [stepByPath_group ha hb hab hgroup, stepByPath_eq_grafted (config.stepByPath a) hb,
            stepByPath_eq_grafted config ha]
          rw [followsMergeRule, isSigned_stepByPath] at hgroup
          cases hc : config.label.isSigned <;> cases hsa : a.label.isSigned <;>
            cases hsb : b.label.isSigned <;>
            simp_all [followsMergeRule, grafted_signedBy, signedBy_signedBy, signedBy_false]

/-- What the rule would have refused is let through in the group. -/
theorem stepByPath_of_group (ha : a.Mergeable) (hb : b.Mergeable) {config : Config}
    (hconfig : config.label.isSigned = true) (hasigned : a.label.isSigned = false)
    (hbsigned : b.label.isSigned = true) :
    config.stepByPath a = config ∧ config.stepByPath b = config.grafted b ∧
      config.stepByPath (a.stepByPath b) = (config.grafted a).grafted b := by
  have hraised {c : Config} (h : c.label.isSigned = true) : c.signedBy true = c :=
    signedBy_of_isSigned h true
  have hfirst : followsMergeRule config a = false := by
    simp [followsMergeRule, hconfig, hasigned]
  have hsecond : followsMergeRule config b = true := by
    simp [followsMergeRule, hbsigned]
  have hpair : followsMergeRule a b = true := by simp [followsMergeRule, hasigned]
  have hgroup : followsMergeRule config (a.stepByPath b) = true := by
    simp [followsMergeRule, isSigned_stepByPath a b, hbsigned]
  refine ⟨?_, ?_, ?_⟩
  · rw [stepByPath_eq_grafted config ha, hfirst, if_neg Bool.false_ne_true]
  · rw [stepByPath_eq_grafted config hb, hsecond, if_pos rfl, hbsigned,
      hraised (by rw [isSigned_grafted, hconfig])]
  · rw [stepByPath_group ha hb hpair hgroup, hbsigned, Bool.or_true,
      hraised (by rw [isSigned_grafted, isSigned_grafted, hconfig])]

end Config

end Samconf
