/-
# Loading and dumping documents

A document in which no NULL occurs is loaded, and the tree that the load leaves in
memory stands for the document: a dump gives the document back, the nodes carry the
given flag and are linked in both directions, and the elements of an array have
their indices for keys. Every other document is refused, at whatever depth the
NULL is.
-/

import Samconf.Properties.Provenance
import Samconf.Spec.Document
import Samconf.Spec.Heap

namespace Samconf

open Foundation

/-- The tree stands for the document. -/
structure StandsFor (isSigned : Bool) (config : Config) (json : Json) : Prop where
  /-- Without failing allocations the dump of the tree is the document. -/
  dumped : (samconfDumpJsonConfig config).Yields json
  /-- Every node has the flag. -/
  flagged : config.Uniform isSigned
  /-- The key of an element of an array spells its index. -/
  indexed : config.Everywhere fun d keys => d.type = .array →
    ∀ i < keys.length, keys[i]? = some (some (indexKey i))

variable {json : Json}

/-- The elements of a loaded array are numbered. -/
theorem Json.indexed_tree (isSigned : Bool) (json : Json) (key : Option CString) :
    Config.Everywhere (fun d keys => d.type = .array →
      ∀ i < keys.length, keys[i]? = some (some (indexKey i))) (json.tree isSigned key) := by
  refine everywhere_tree_of_within fun sub key _ htype i hi => ?_
  cases sub with
  | array elements =>
      have hlt : i < elements.length := by simpa [members] using hi
      simp [members, hlt]
  | _ => cases htype

theorem standsFor_loaded (isSigned : Bool) (hfree : json.NullFree) (hunique : json.UniqueKeys)
    (hints : json.IntsFit) (hstrings : json.PlainStrings) :
    StandsFor isSigned (json.loaded isSigned) json where
  dumped := by
    have hdump := samconfDumpJsonConfig_yields (Json.intact_tree isSigned hunique (some configKey))
    rwa [Json.toJson_tree isSigned hfree, Json.kept_eq_self hints hstrings] at hdump
  flagged := Json.uniform_tree isSigned json (some configKey)
  indexed := Json.indexed_tree isSigned json (some configKey)

/-- **Load and dump are inverse.** Without failing allocations a document other than
NULL is loaded exactly when no NULL occurs in it, and refused with PARSE_ERROR
otherwise. The tree of a loaded document stands for it, and lies linked in memory,
whatever was there before. -/
theorem samconfJsonBackendLoad_standsFor (hnull : json ≠ .null) (hunique : json.UniqueKeys)
    (hints : json.IntsFit) (hstrings : json.PlainStrings) (isSigned : Bool) (heap : Heap) :
    (json.NullFree → ∃ config top heap',
      (samconfJsonBackendLoad json isSigned).Yields (.ok, some config) ∧
      (heap.samconfJsonBackendLoad json isSigned).Yields (.ok, some top, heap') ∧
      heap'.Holds top config ∧ StandsFor isSigned config json) ∧
    (¬ json.NullFree → ∃ partly top heap',
      (samconfJsonBackendLoad json isSigned).Yields (.parseError, some partly) ∧
      (heap.samconfJsonBackendLoad json isSigned).Yields (.parseError, some top, heap')) := by
  constructor
  · intro hfree
    have hcomplete := (Json.nullFree_iff.mp hfree).2
    obtain ⟨heap', hload, hholds⟩ := heap.samconfJsonBackendLoad_yields isSigned hcomplete
    exact ⟨_, _, heap', samconfJsonBackendLoad_of_complete isSigned hcomplete, hload, hholds,
      standsFor_loaded isSigned hfree hunique hints hstrings⟩
  · intro hfree
    have hcomplete : json.complete = false := by
      rw [Json.nullFree_iff] at hfree
      simpa [hnull] using hfree
    obtain ⟨partly, hrefused⟩ := samconfJsonBackendLoad_of_not_complete isSigned hcomplete
    obtain ⟨heap', hload⟩ := heap.samconfJsonBackendLoad_refuses isSigned hcomplete
    exact ⟨partly, _, heap', hrefused, hload⟩

/-- An option that is an array of an integer and a string. -/
def arrayOption : Json := Json.oneOption ['a'] (.array [.int 1, .string ['x']])

/-- What occurs in it. -/
theorem within_arrayOption {sub : Json} (h : Json.Within sub arrayOption) :
    sub = arrayOption ∨ sub = .object [(['a'], .array [.int 1, .string ['x']])] ∨
      sub = .array [.int 1, .string ['x']] ∨ sub = .int 1 ∨ sub = .string ['x'] := by
  rcases Json.within_oneOption h with h | h | h
  · exact .inl h
  · exact .inr (.inl h)
  · cases h with
    | self => exact .inr (.inr (.inl rfl))
    | member hm h =>
        simp only [Json.members, List.mapIdx_cons, List.mapIdx_nil, List.mem_cons,
          List.not_mem_nil, or_false] at hm
        rcases hm with rfl | rfl
        · cases h with
          | self => exact .inr (.inr (.inr (.inl rfl)))
          | member hm _ => cases hm
        · cases h with
          | self => exact .inr (.inr (.inr (.inr rfl)))
          | member hm _ => cases hm

theorem arrayOption_stands : ∃ config top heap',
    (samconfJsonBackendLoad arrayOption true).Yields (.ok, some config) ∧
    (Heap.samconfJsonBackendLoad arrayOption true []).Yields (.ok, some top, heap') ∧
    heap'.Holds top config ∧ StandsFor true config arrayOption := by
  have hunique : Json.UniqueKeys (.array [.int 1, .string ['x']]) := by
    refine Json.uniqueKeys_iff.mpr ⟨by simp, fun m hm => ?_⟩
    apply Json.uniqueKeys_of_members_eq_nil
    simp only [Json.members, List.mapIdx_cons, List.mapIdx_nil, List.mem_cons,
      List.not_mem_nil, or_false] at hm
    rcases hm with rfl | rfl <;> rfl
  refine (samconfJsonBackendLoad_standsFor (by simp [Json.oneOption])
    (Json.uniqueKeys_oneOption hunique) (fun n hn => ?_) (fun s hs => ?_) true []).1 ?_
  · rcases within_arrayOption hn with h | h | h | h | h <;> cases h
    decide
  · rcases within_arrayOption hs with h | h | h | h | h <;> cases h
    decide
  · exact Json.nullFree_iff.mpr ⟨by simp [Json.oneOption], rfl⟩

end Samconf
