/-
# The type of a value given as text

`samconfConfigSetValueFromString` tells the type of a text by where the conversion
functions stop. Two kinds of texts are told wrongly. Of the empty text nothing is left
either, so it becomes the integer 0 where the documentation promises the empty string.
And `strtoll` reads a numeral beyond `int64_t` to its end too, so the node gets the
nearest limit as its integer. All other texts get the type and the value that they
spell, as long as the copy of a string is granted.
-/

import Samconf.Spec.Numeral

namespace Samconf

open Foundation
open RoseTree (relabel)

/-- A node has the type that the text spells, and a value with it. -/
structure TypedExactly (strtod : CString → Double × CString) (s : CString) (d : NodeData) :
    Prop where
  /-- BOOLEAN for the two words only. -/
  boolean : d.type = .boolean ↔ IsFlag s
  /-- INT for the numerals in range only. -/
  int : d.type = .int ↔ ∃ n, DecimalNumeral s n ∧ FitsInt64 n
  /-- The integer is the value of the numeral. -/
  integer : ∀ n, DecimalNumeral s n → FitsInt64 n →
    ∃ integer, d.value = .integer integer ∧ integer.toInt = n
  /-- REAL for what `strtod` consumes, and no other numeral or nothing at all. -/
  real : d.type = .real →
    (¬ ∃ n, DecimalNumeral s n ∧ FitsInt64 n) ∧ s ≠ [] ∧ (strtod s).2 = []
  /-- Everything else is kept as it is. -/
  string : d.type ≠ .boolean → d.type ≠ .int → d.type ≠ .real →
    d.type = .string ∧ d.value = .string (some s)

/-- The text is no word for a flag and spells no number. -/
def IsPlainText (strtod : CString → Double × CString) (s : CString) : Prop :=
  ¬ IsFlag s ∧ (¬ ∃ n, DecimalNumeral s n) ∧ (strtod s).2 ≠ []

variable {strtod : CString → Double × CString} {s : CString} {n : ℤ}

section Stored

variable {d : NodeData} {granted : Bool} (htype : d.type = (typedValue strtod s).1)
include htype

theorem typedExactly_of_flag (hflag : IsFlag s) : TypedExactly strtod s d := by
  obtain ⟨flag, htyped⟩ := @typedValue_of_flag strtod s hflag
  rw [htyped] at htype
  have hnumeral : ∀ n, ¬ DecimalNumeral s n := fun n hn => hn.not_isFlag hflag
  exact ⟨by simpa [htype] using hflag, by simp [htype, hnumeral],
    fun n hn => absurd hn (hnumeral n), by simp [htype], by simp [htype]⟩

variable (hvalue : d.value = storedValue strtod s granted)
include hvalue

theorem typedExactly_of_numeral (hn : DecimalNumeral s n) (hfits : FitsInt64 n) :
    TypedExactly strtod s d := by
  have hflag : ¬ IsFlag s := hn.not_isFlag
  have htyped := @typedValue_of_numeral strtod s n hn
  rw [storedValue, htyped, if_neg (by simp)] at hvalue
  rw [htyped] at htype
  refine ⟨by simpa [htype] using hflag, ?_, fun m hm _ => ?_, by simp [htype], by simp [htype]⟩
  · simpa [htype] using ⟨n, hn, hfits⟩
  · rw [hm.unique hn]
    exact ⟨saturate n, hvalue, toInt_saturate hfits⟩

theorem typedExactly_of_not_numeral (hflag : ¬ IsFlag s) (hne : s ≠ [])
    (hnumeral : ¬ ∃ n, DecimalNumeral s n) (hgranted : IsPlainText strtod s → granted = true) :
    TypedExactly strtod s d := by
  have hint : ¬ ∃ n, DecimalNumeral s n ∧ FitsInt64 n := by
    rintro ⟨n, hn, -⟩
    exact hnumeral ⟨n, hn⟩
  have hinteger : ∀ n, DecimalNumeral s n → FitsInt64 n →
      ∃ integer, d.value = .integer integer ∧ integer.toInt = n :=
    fun n hn _ => absurd ⟨n, hn⟩ hnumeral
  have htyped := @typedValue_of_not_numeral strtod s hflag hne hnumeral
  by_cases hreal : (strtod s).2 = []
  case pos =>
    rw [if_pos hreal] at htyped
    rw [htyped] at htype
    exact ⟨by simpa [htype] using hflag, by simpa [htype] using hint, hinteger,
      fun _ => ⟨hint, hne, hreal⟩, by simp [htype]⟩
  case neg =>
    rw [if_neg hreal] at htyped
    rw [storedValue, htyped, if_neg (by simp [hgranted ⟨hflag, hnumeral, hreal⟩])] at hvalue
    rw [htyped] at htype
    exact ⟨by simpa [htype] using hflag, by simpa [htype] using hint, hinteger,
      by simp [htype], fun _ _ _ => ⟨htype, hvalue⟩⟩

/-- The texts that come out right, with or without memory for a copy. -/
theorem typedExactly_iff_of_stored :
    TypedExactly strtod s d ↔
      s ≠ [] ∧ (∀ n, DecimalNumeral s n → FitsInt64 n) ∧
        (IsPlainText strtod s → granted = true) := by
  constructor
  · intro h
    have hne : s ≠ [] := by
      rintro rfl
      obtain ⟨n, hn, -⟩ := h.int.mp htype
      exact hn.ne_nil rfl
    refine ⟨hne, fun n hn => ?_, fun htext => ?_⟩
    · rw [typedValue_of_numeral hn] at htype
      obtain ⟨m, hm, hfits⟩ := h.int.mp htype
      rwa [hn.unique hm]
    · obtain ⟨hflag, hnumeral, hreal⟩ := htext
      have htyped : typedValue strtod s = (.string, .string (some s)) := by
        rw [typedValue_of_not_numeral hflag hne hnumeral, if_neg hreal]
      rw [htyped] at htype
      have hstring := (h.string (by simp [htype]) (by simp [htype]) (by simp [htype])).2
      by_contra hgranted
      rw [hvalue, storedValue, htyped, if_pos ⟨rfl, by simpa using hgranted⟩] at hstring
      cases hstring
  · rintro ⟨hne, hfits, hgranted⟩
    by_cases hflag : IsFlag s
    · exact typedExactly_of_flag htype hflag
    · by_cases hnumeral : ∃ n, DecimalNumeral s n
      · obtain ⟨n, hn⟩ := hnumeral
        exact typedExactly_of_numeral htype hvalue hn (hfits n hn)
      · exact typedExactly_of_not_numeral htype hvalue hflag hne hnumeral hgranted

end Stored

/-- **Exactly typed texts.** The setter gives the node the type and the value that the
text spells exactly when the text is not empty, is no numeral outside of `int64_t`, and
gets the memory for its copy if it is kept as a string. -/
theorem samconfConfigSetValueFromString_exact_iff (strtod : CString → Double × CString)
    (config : Config) (s : CString) (o : Supply) :
    (∃ r o', samconfConfigSetValueFromString strtod config (some s) o = .ok (r, o') ∧
        TypedExactly strtod s r.2.label) ↔
      s ≠ [] ∧ (∀ n, DecimalNumeral s n → FitsInt64 n) ∧
        (IsPlainText strtod s → o 0 = true) := by
  obtain ⟨o', hrun⟩ := samconfConfigSetValueFromString_run strtod config s o
  rw [hrun]
  rw [← typedExactly_iff_of_stored (d := (relabel (fun d => { d with
    type := (typedValue strtod s).1, value := storedValue strtod s (o 0) }) config).label)
    (by cases config; rfl) (by cases config; rfl)]
  constructor
  · rintro ⟨r, o'', heq, h⟩
    cases heq
    exact h
  · exact fun h => ⟨_, _, rfl, h⟩

/-- The empty text becomes the integer 0, and a numeral that is one too large becomes
the largest integer. -/
theorem empty_text_is_zero :
    ¬ (∃ r o', samconfConfigSetValueFromString noNumber samconfConfigInit (some []) plenty =
        .ok (r, o') ∧ TypedExactly noNumber [] r.2.label) ∧
    ¬ (∃ r o', samconfConfigSetValueFromString noNumber samconfConfigInit
        (some "9223372036854775808".toList) plenty = .ok (r, o') ∧
          TypedExactly noNumber "9223372036854775808".toList r.2.label) := by
  rw [samconfConfigSetValueFromString_exact_iff, samconfConfigSetValueFromString_exact_iff]
  refine ⟨fun h => h.1 rfl, fun h => ?_⟩
  have hnumeral : DecimalNumeral "9223372036854775808".toList 9223372036854775808 :=
    ⟨[], [], "9223372036854775808".toList, rfl, by simp, by decide, by simp,
      .none 9223372036854775808⟩
  exact absurd (h.2.1 _ hnumeral) (by decide)

end Samconf
