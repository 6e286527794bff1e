/-
# Documents and their trees, place by place

A place of a document is the list of the entries and elements taken on the way to
it, so that a document and the tree it is loaded as have the same places. Between
them stands what the backend keeps of a document: integers are clamped to 32 bits
and strings end at their first NUL. The tree of a document without a NULL stands
for exactly that.
-/

import Samconf.Spec.Dump

namespace Samconf

open Foundation

namespace Json

variable {json sub : Json}

/-! ## Places -/

/-- The value at a place of a document. -/
def sub? : Json → List ℕ → Option Json
  | json, [] => some json
  | json, i :: p => json.members[i]?.bind fun m => m.2.sub? p

@[simp]
theorem sub?_nil (json : Json) : json.sub? [] = some json := by
  rw [sub?]

@[simp]
theorem sub?_cons (json : Json) (i : ℕ) (p : List ℕ) :
    json.sub? (i :: p) = json.members[i]?.bind fun m => m.2.sub? p := by
  rw [sub?]

/-- What occurs in a document has a place there. -/
theorem within_iff : Within sub json ↔ ∃ p, json.sub? p = some sub := by
  constructor
  · intro h
    induction h with
    | self => exact ⟨[], sub?_nil sub⟩
    | member hm _ ih =>
        rcases ih with ⟨p, hp⟩
        rcases List.getElem_of_mem hm with ⟨i, hi, rfl⟩
        exact ⟨i :: p, by simp [hi, hp]⟩
  · rintro ⟨p, hp⟩
    induction p generalizing json with
    | nil =>
        obtain rfl : json = sub := by simpa using hp
        exact .self json
    | cons i p ih =>
        rw [sub?_cons] at hp
        rcases Option.bind_eq_some_iff.mp hp with ⟨m, hm, hp⟩
        exact .member (List.mem_of_getElem? hm) (ih hp)

/-- The tree of a document has the same places, and at each the tree of what stands
there. -/
theorem sub?_tree (isSigned : Bool) (json : Json) (key : Option CString) (p : List ℕ) :
    Option.Rel (fun sub s => ∃ key, s = sub.tree isSigned key) (json.sub? p)
      ((json.tree isSigned key).sub? p) := by
  induction p generalizing json key with
  | nil =>
      rw [sub?_nil, RoseTree.sub?_nil]
      exact .some ⟨key, rfl⟩
  | cons i p ih =>
      rw [sub?_cons, RoseTree.sub?_cons, tree_eq, RoseTree.children_node, List.getElem?_map]
      cases json.members[i]? with
      | none => exact .none
      | some m => exact ih m.2 (some m.1)

/-! ## Documents without a NULL -/

/-- No value of the document is NULL. -/
def NullFree (json : Json) : Prop := ∀ sub, Within sub json → sub ≠ null

theorem NullFree.member (h : json.NullFree) {m : CString × Json} (hm : m ∈ json.members) :
    m.2.NullFree :=
  fun sub hsub => h sub (.member hm hsub)

/-- What occurs in the document of one option. -/
theorem within_oneOption {key : CString} {value : Json} (h : Within sub (oneOption key value)) :
    sub = oneOption key value ∨ sub = object [(key, value)] ∨ Within sub value := by
  cases h with
  | self => exact .inl rfl
  | @member _ m hm h =>
      obtain rfl : m = (rootKey, object [(key, value)]) := by
        simpa [oneOption, members] using hm
      cases h with
      | self => exact .inr (.inl rfl)
      | @member _ m hm h =>
          obtain rfl : m = (key, value) := by simpa [members] using hm
          exact .inr (.inr h)

theorem completeEntries_iff (entries : List (CString × Json)) :
    completeEntries entries = true ↔
      ∀ e ∈ entries, e.2.isNull = false ∧ e.2.complete = true := by
  induction entries with
  | nil => simp [completeEntries]
  | cons e entries ih => simp [completeEntries, ih, and_assoc]

theorem completeElements_iff (elements : List Json) :
    completeElements elements = true ↔
      ∀ element ∈ elements, element.isNull = false ∧ element.complete = true := by
  induction elements with
  | nil => simp [completeElements]
  | cons element elements ih => simp [completeElements, ih, and_assoc]

/-- A document is complete when its members are, and none of them is NULL. -/
theorem complete_iff :
    json.complete = true ↔ ∀ m ∈ json.members, m.2.isNull = false ∧ m.2.complete = true := by
  cases json with
  | object entries => exact completeEntries_iff entries
  | array elements =>
      rw [complete, completeElements_iff]
      constructor
      · intro h m hm
        rcases List.mem_mapIdx.mp hm with ⟨idx, hidx, rfl⟩
        exact h _ (List.getElem_mem hidx)
      · exact fun h => forall_elements h
  | _ => simp [complete, members]

theorem isNull_eq_false_iff : json.isNull = false ↔ json ≠ null := by
  cases json <;> simp [isNull]

/-- **Complete documents** are those in which no NULL occurs. -/
theorem nullFree_iff : json.NullFree ↔ json ≠ null ∧ json.complete = true := by
  induction json using Json.induct with
  | step json ih =>
      constructor
      · intro h
        refine ⟨h json (.self json), complete_iff.mpr fun m hm => ?_⟩
        have hmember := (ih m hm).mp (h.member hm)
        exact ⟨isNull_eq_false_iff.mpr hmember.1, hmember.2⟩
      · rintro ⟨hnull, hcomplete⟩ sub hsub
        cases hsub with
        | self => exact hnull
        | member hm hbelow =>
            have hmember := complete_iff.mp hcomplete _ hm
            exact (ih _ hm).mpr ⟨isNull_eq_false_iff.mp hmember.1, hmember.2⟩ sub hbelow

/-! ## What the backend keeps -/

mutual

/-- A document as the backend keeps it. -/
def kept : Json → Json
  | object entries => object (keptEntries entries)
  | array elements => array (keptElements elements)
  | string value => string (cutAtNul value)
  | int value => int (jsonGetInt value).toInt32.toInt
  | boolean value => boolean value
  | double value => double value
  | null => null

/-- The members of an object. -/
def keptEntries : List (CString × Json) → List (CString × Json)
  | [] => []
  | (key, value) :: entries => (key, kept value) :: keptEntries entries

/-- The elements of an array. -/
def keptElements : List Json → List Json
  | [] => []
  | element :: elements => kept element :: keptElements elements

end

theorem keptEntries_eq (entries : List (CString × Json)) :
    keptEntries entries = entries.map fun e => (e.1, e.2.kept) := by
  induction entries with
  | nil => rfl
  | cons e entries ih => rw [keptEntries, ih, List.map_cons]

theorem keptElements_eq (elements : List Json) : keptElements elements = elements.map kept := by
  induction elements with
  | nil => rfl
  | cons element elements ih => rw [keptElements, ih, List.map_cons]

theorem members_kept (json : Json) :
    json.kept.members = json.members.map fun m => (m.1, m.2.kept) := by
  cases json with
  | object entries => exact keptEntries_eq entries
  | array elements =>
      rw [kept, members, members, keptElements_eq]
      exact List.ext_getElem (by simp) (by simp)
  | _ => rfl

/-- What is kept of a document stands at the same places. -/
theorem sub?_kept (json : Json) (p : List ℕ) : json.kept.sub? p = (json.sub? p).map kept := by
  induction p generalizing json with
  | nil => simp
  | cons i p ih =>
      rw [sub?_cons, sub?_cons, members_kept, List.getElem?_map]
      cases json.members[i]? with
      | none => rfl
      | some m => exact ih m.2

/-- The tree of a document without a NULL stands for what is kept of it. -/
theorem toJson_tree (isSigned : Bool) (h : json.NullFree) (key : Option CString) :
    Config.toJson (json.tree isSigned key) = json.kept := by
  induction json using Json.induct generalizing key with
  | step json ih =>
      cases json with
      | object entries =>
          rw [tree_eq, Config.toJson]
          simp only [label, members, Config.toEntries_eq, List.map_map, kept, keptEntries_eq,
            object.injEq]
          apply List.map_congr_left
          intro e he
          simp [ih e he (h.member he)]
      | array elements =>
          rw [tree_eq, Config.toJson]
          simp only [label, members, Config.toElements_eq, List.map_map, kept, keptElements_eq,
            array.injEq]
          refine List.ext_getElem (by simp) fun idx hidx _ => ?_
          have hlt : idx < elements.length := by simpa using hidx
          have hmem : (indexKey idx, elements[idx]) ∈ (array elements).members :=
            List.mem_mapIdx.mpr ⟨idx, hlt, rfl⟩
          simpa using ih _ hmem (h.member hmem) (some (indexKey idx))
      | null => exact absurd rfl (h null (.self null))
      | _ => rfl

/-! ## What is lost -/

/-- The integer fits an `int32_t`. -/
def FitsInt32 (n : ℤ) : Prop := Int32.minValue.toInt ≤ n ∧ n ≤ Int32.maxValue.toInt

instance (n : ℤ) : Decidable (FitsInt32 n) := inferInstanceAs (Decidable (_ ∧ _))

/-- `json_object_get_int` gives the nearest integer that fits. -/
theorem toInt_jsonGetInt (n : ℤ) :
    (jsonGetInt n).toInt = max Int32.minValue.toInt (min n Int32.maxValue.toInt) := by
  have hmin : Int32.minValue.toInt = -2147483648 := rfl
  have hmax : Int32.maxValue.toInt = 2147483647 := rfl
  rw [jsonGetInt, hmin, hmax]
  split
  · rw [Int64.toInt_ofInt_of_le (by omega) (by omega)]
    omega
  · split
    · rw [Int64.toInt_ofInt_of_le (by omega) (by omega)]
      omega
    · rw [Int64.toInt_ofInt_of_le (by omega) (by omega)]
      omega

/-- An integer is loaded as it is exactly when it fits. -/
theorem toInt_jsonGetInt_iff (n : ℤ) : (jsonGetInt n).toInt = n ↔ FitsInt32 n := by
  have hmin : Int32.minValue.toInt = -2147483648 := rfl
  have hmax : Int32.maxValue.toInt = 2147483647 := rfl
  rw [toInt_jsonGetInt, FitsInt32, hmin, hmax]
  omega

/-- What was loaded is dumped as it is. -/
theorem toInt_toInt32_jsonGetInt (n : ℤ) :
    (jsonGetInt n).toInt32.toInt = (jsonGetInt n).toInt := by
  have hmin : Int32.minValue.toInt = -2147483648 := rfl
  have hmax : Int32.maxValue.toInt = 2147483647 := rfl
  rw [Int64.toInt_toInt32, toInt_jsonGetInt, hmin, hmax, Int.bmod_def]
  omega

/-- Every integer of the document fits an `int32_t`. -/
def IntsFit (json : Json) : Prop := ∀ n, Within (int n) json → FitsInt32 n

/-- No string of the document holds a NUL. -/
def PlainStrings (json : Json) : Prop := ∀ s, Within (string s) json → '\x00' ∉ s

theorem cutAtNul_eq_self {s : List Char} (h : '\x00' ∉ s) : cutAtNul s = s := by
  rw [cutAtNul, List.takeWhile_eq_self_iff]
  intro c hc
  simp only [decide_eq_true_eq]
  rintro rfl
  exact h hc

/-- Of a document with small integers and plain strings everything is kept. -/
theorem kept_eq_self (hints : json.IntsFit) (hstrings : json.PlainStrings) : json.kept = json := by
  induction json using Json.induct with
  | step json ih =>
      have hmembers : ∀ m ∈ json.members, m.2.kept = m.2 := fun m hm =>
        ih m hm (fun n hn => hints n (.member hm hn)) fun s hs => hstrings s (.member hm hs)
      cases json with
      | object entries =>
          rw [kept, keptEntries_eq]
          congr 1
          conv_rhs => rw [← List.map_id entries]
          apply List.map_congr_left
          intro e he
          rw [hmembers e he]
          rfl
      | array elements =>
          rw [kept, keptElements_eq]
          congr 1
          refine List.ext_getElem (by simp) fun idx hidx hlt => ?_
          have hmem : (indexKey idx, elements[idx]) ∈ (array elements).members :=
            List.mem_mapIdx.mpr ⟨idx, hlt, rfl⟩
          simpa using hmembers _ hmem
      | int n =>
          rw [kept, toInt_toInt32_jsonGetInt, (toInt_jsonGetInt_iff n).mpr (hints n (.self _))]
      | string s => rw [kept, cutAtNul_eq_self (hstrings s (.self _))]
      | _ => rfl

end Json

end Samconf
