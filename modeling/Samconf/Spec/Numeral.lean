/-
# Decimal numerals

What `strtoll` reads as a whole: blanks, an optional sign and at least one digit. On
such a text it returns the value, saturated, and nothing is left. The only other text
of which nothing is left is the empty one, where the end pointer is the start. From
this follows which of the four types a text is given.
-/

import Samconf.Spec.Create

namespace Samconf

open Foundation
open RoseTree (relabel)

/-- The sign of a numeral, and the value with it. -/
inductive SignedValue : CString → ℕ → ℤ → Prop
  | none (n : ℕ) : SignedValue [] n n
  | plus (n : ℕ) : SignedValue ['+'] n n
  | minus (n : ℕ) : SignedValue ['-'] n (-n)

/-- The text is a decimal numeral with the value `n`. -/
def DecimalNumeral (s : CString) (n : ℤ) : Prop :=
  ∃ blanks sign digits, s = blanks ++ sign ++ digits ∧ (∀ c ∈ blanks, isSpace c = true) ∧
    digits ≠ [] ∧ (∀ c ∈ digits, c.isDigit = true) ∧ SignedValue sign (decimalValue digits) n

/-- The value is one of `int64_t`. -/
def FitsInt64 (n : ℤ) : Prop := Int64.minValue.toInt ≤ n ∧ n ≤ Int64.maxValue.toInt

instance (n : ℤ) : Decidable (FitsInt64 n) := inferInstanceAs (Decidable (_ ∧ _))

theorem fitsInt64_toInt (i : Int64) : FitsInt64 i.toInt :=
  ⟨Int64.minValue_le_toInt i, Int64.toInt_le i⟩

/-- Saturation changes nothing in range. -/
theorem toInt_saturate {n : ℤ} (h : FitsInt64 n) : (saturate n).toInt = n := by
  have hlow : ¬ n < Int64.minValue.toInt := Int.not_lt.mpr h.1
  have hhigh : ¬ Int64.maxValue.toInt < n := Int.not_lt.mpr h.2
  unfold saturate
  simp only [if_neg hlow, if_neg hhigh]
  exact Int64.toInt_ofInt_of_le h.1 (Int.lt_of_le_of_lt h.2 (by decide))

/-! ## The characters of a numeral -/

/-- A digit is no blank. -/
theorem isSpace_of_isDigit {c : Char} (h : c.isDigit = true) : isSpace c = false := by
  rw [Bool.eq_false_iff]
  intro hspace
  simp only [isSpace, Bool.or_eq_true, decide_eq_true_eq] at hspace
  rcases hspace with ((((rfl | rfl) | rfl) | rfl) | rfl) | rfl <;> exact absurd h (by decide)

/-- A digit is no sign. -/
theorem splitSign_of_isDigit {c : Char} {s : CString} (h : c.isDigit = true) :
    splitSign (c :: s) = (false, c :: s) := by
  have hminus : c ≠ '-' := by
    rintro rfl
    exact absurd h (by decide)
  have hplus : c ≠ '+' := by
    rintro rfl
    exact absurd h (by decide)
  rw [splitSign]
  · intro rest heq
    exact hminus (List.cons.inj heq).1
  · intro rest heq
    exact hplus (List.cons.inj heq).1

/-- A digit has no case. -/
theorem toLower_of_isDigit {c : Char} (h : c.isDigit = true) : c.toLower = c := by
  have hdigit := Char.isDigit_iff_toNat.mp h
  refine dif_neg ?_
  rintro ⟨hlow, -⟩
  have : 'A'.toNat ≤ c.toNat := hlow
  have hnine : '9'.toNat < 'A'.toNat := by decide
  omega

/-- A numeral is no spelling of a word without digits. -/
theorem DecimalNumeral.not_sameIgnoringCase {s word : CString} {n : ℤ} (h : DecimalNumeral s n)
    (hword : ∀ c ∈ word, c.toLower.isDigit = false) : sameIgnoringCase s word = false := by
  rcases h with ⟨blanks, sign, digits, rfl, -, hne, hdigits, -⟩
  obtain ⟨c, hc⟩ := List.exists_mem_of_ne_nil digits hne
  rw [sameIgnoringCase, decide_eq_false_iff_not]
  intro heq
  have hmem : c ∈ word.map Char.toLower := by
    rw [← heq, List.mem_map]
    exact ⟨c, by simp [hc], toLower_of_isDigit (hdigits c hc)⟩
  obtain ⟨c', hc', hlower⟩ := List.mem_map.mp hmem
  have hfalse := hword c' hc'
  rw [hlower, hdigits c hc] at hfalse
  cases hfalse

/-! ## Reading a numeral -/

/-- The blanks before a sign or a digit are skipped. -/
theorem dropWhile_blanks {blanks rest : CString} (hblanks : ∀ c ∈ blanks, isSpace c = true)
    (hrest : ∀ c, rest.head? = some c → isSpace c = false) :
    (blanks ++ rest).dropWhile isSpace = rest := by
  rw [List.dropWhile_append_of_pos hblanks]
  cases rest with
  | nil => rfl
  | cons c rest => exact List.dropWhile_cons_of_neg (by simp [hrest c rfl])

/-- The sign and the digits of a numeral are where `strtoll` looks for them. -/
theorem DecimalNumeral.split {s : CString} {n : ℤ} (h : DecimalNumeral s n) :
    ∃ negative digits, splitSign (s.dropWhile isSpace) = (negative, digits) ∧ digits ≠ [] ∧
      (∀ c ∈ digits, c.isDigit = true) ∧
      n = if negative then -(decimalValue digits : ℤ) else decimalValue digits := by
  rcases h with ⟨blanks, sign, digits, rfl, hblanks, hne, hdigits, hsign⟩
  obtain ⟨d, ds, rfl⟩ := List.exists_cons_of_ne_nil hne
  have hd : d.isDigit = true := hdigits d (by simp)
  have hskip : (blanks ++ sign ++ d :: ds).dropWhile isSpace = sign ++ d :: ds := by
    rw [List.append_assoc]
    apply dropWhile_blanks hblanks
    intro c hc
    cases hsign with
    | none =>
        obtain rfl : d = c := Option.some.inj hc
        exact isSpace_of_isDigit hd
    | plus =>
        obtain rfl : '+' = c := Option.some.inj hc
        decide
    | minus =>
        obtain rfl : '-' = c := Option.some.inj hc
        decide
  rw [hskip]
  cases hsign with
  | none => exact ⟨false, d :: ds, splitSign_of_isDigit hd, hne, hdigits, rfl⟩
  | plus => exact ⟨false, d :: ds, rfl, hne, hdigits, rfl⟩
  | minus => exact ⟨true, d :: ds, rfl, hne, hdigits, rfl⟩

/-- **A numeral is read whole**, and its value is saturated. -/
theorem DecimalNumeral.strtoll_eq {s : CString} {n : ℤ} (h : DecimalNumeral s n) :
    strtoll s = (saturate n, []) := by
  rcases h.split with ⟨negative, digits, hsplit, hne, hdigits, rfl⟩
  have htake : digits.takeWhile Char.isDigit = digits := List.takeWhile_eq_self_iff.mpr hdigits
  have hdrop : digits.dropWhile Char.isDigit = [] := List.dropWhile_eq_nil_iff.mpr hdigits
  rw [strtoll, hsplit]
  simp only [htake, hdrop, if_neg hne]

/-- A text is a numeral of one value. -/
theorem DecimalNumeral.unique {s : CString} {n m : ℤ} (hn : DecimalNumeral s n)
    (hm : DecimalNumeral s m) : n = m := by
  rcases hn.split with ⟨negative, digits, hsplit, -, -, rfl⟩
  rcases hm.split with ⟨negative', digits', hsplit', -, -, rfl⟩
  rw [hsplit] at hsplit'
  cases hsplit'
  rfl

/-- What follows the sign, if there is one. -/
theorem splitSign_spec (s : CString) :
    ∃ sign, s = sign ++ (splitSign s).2 ∧
      ∀ n : ℕ, SignedValue sign n (if (splitSign s).1 then -n else n) := by
  unfold splitSign
  split
  · exact ⟨['-'], rfl, fun n => .minus n⟩
  · exact ⟨['+'], rfl, fun n => .plus n⟩
  · exact ⟨[], rfl, fun n => .none n⟩

/-- **Nothing is left** of numerals and of the empty text only. -/
theorem strtoll_consumes_iff {s : CString} :
    (strtoll s).2 = [] ↔ s = [] ∨ ∃ n, DecimalNumeral s n := by
  constructor
  · intro h
    obtain ⟨sign, hsplit, hsign⟩ := splitSign_spec (s.dropWhile isSpace)
    simp only [strtoll] at h
    split at h
    case isTrue => exact .inl h
    case isFalse hne =>
      have hdigits := List.dropWhile_eq_nil_iff.mp h
      rw [List.takeWhile_eq_self_iff.mpr hdigits] at hne
      refine .inr ⟨_, s.takeWhile isSpace, sign, (splitSign (s.dropWhile isSpace)).2, ?_, ?_, hne,
        hdigits, hsign _⟩
      · rw [List.append_assoc, ← hsplit, List.takeWhile_append_dropWhile]
      · exact fun c hc => List.mem_takeWhile_imp hc
  · rintro (rfl | ⟨n, hn⟩)
    · rfl
    · rw [hn.strtoll_eq]

/-- A numeral is not empty. -/
theorem DecimalNumeral.ne_nil {s : CString} {n : ℤ} (h : DecimalNumeral s n) : s ≠ [] := by
  rcases h with ⟨blanks, sign, digits, rfl, -, hne, -, -⟩
  simp [hne]

/-! ## Writing a number -/

/-- The usual spelling of an integer: no blanks, no plus and no leading zeros. -/
def decimalSpelling (n : ℤ) : CString :=
  if n < 0 then '-' :: Nat.toDigits 10 n.natAbs else Nat.toDigits 10 n.natAbs

theorem decimalValue_append (digits : List Char) (c : Char) :
    decimalValue (digits ++ [c]) = 10 * decimalValue digits + (c.toNat - '0'.toNat) := by
  simp [decimalValue]

theorem decimalValue_toDigits (n : ℕ) : decimalValue (Nat.toDigits 10 n) = n := by
  induction n using Nat.strong_induction_on with
  | _ n ih =>
    rcases Nat.lt_or_ge n 10 with hlt | hge
    · rw [Nat.toDigits_of_lt_base hlt]
      simp [decimalValue, Nat.toNat_digitChar_sub_48_of_lt_ten hlt]
    · rw [Nat.toDigits_of_base_le (by decide) hge, decimalValue_append, ih (n / 10) (by omega)]
      have hdigit := Nat.toNat_digitChar_sub_48_of_lt_ten (Nat.mod_lt n (by decide : 0 < 10))
      have hzero : '0'.toNat = 48 := rfl
      rw [hzero, hdigit]
      omega

theorem decimalNumeral_spelling (n : ℤ) : DecimalNumeral (decimalSpelling n) n := by
  have hdigits : ∀ c ∈ Nat.toDigits 10 n.natAbs, c.isDigit = true :=
    fun c hc => Nat.isDigit_of_mem_toDigits (by decide) (by decide) hc
  unfold decimalSpelling
  split
  case isTrue hneg =>
    refine ⟨[], ['-'], Nat.toDigits 10 n.natAbs, rfl, by simp, Nat.toDigits_ne_nil, hdigits, ?_⟩
    rw [decimalValue_toDigits]
    convert SignedValue.minus n.natAbs using 1
    omega
  case isFalse hpos =>
    refine ⟨[], [], Nat.toDigits 10 n.natAbs, rfl, by simp, Nat.toDigits_ne_nil, hdigits, ?_⟩
    rw [decimalValue_toDigits]
    convert SignedValue.none n.natAbs using 1
    omega

/-! ## The kinds of texts -/

section Typing

/-- The text is one of the words for a flag. -/
def IsFlag (s : CString) : Prop :=
  sameIgnoringCase s "true".toList = true ∨ sameIgnoringCase s "false".toList = true

variable {strtod : CString → Double × CString} {s : CString} {n : ℤ}

/-- A numeral is no word for a flag. -/
theorem DecimalNumeral.not_isFlag (h : DecimalNumeral s n) : ¬ IsFlag s := by
  rintro (htrue | hfalse)
  · rw [h.not_sameIgnoringCase (by simp)] at htrue
    cases htrue
  · rw [h.not_sameIgnoringCase (by simp)] at hfalse
    cases hfalse

theorem typedValue_of_flag (h : IsFlag s) :
    ∃ flag, typedValue strtod s = (.boolean, .boolean flag) := by
  by_cases htrue : sameIgnoringCase s "true".toList = true
  · exact ⟨true, by rw [typedValue, if_pos htrue]⟩
  · exact ⟨false, by rw [typedValue, if_neg htrue, if_pos (h.resolve_left htrue)]⟩

theorem typedValue_of_not_flag (h : ¬ IsFlag s) :
    typedValue strtod s =
      if (strtoll s).2 = [] then (.int, .integer (strtoll s).1)
      else if (strtod s).2 = [] then (.real, .real (strtod s).1)
      else (.string, .string (some s)) := by
  rw [typedValue, if_neg fun htrue => h (.inl htrue), if_neg fun hfalse => h (.inr hfalse)]

theorem typedValue_of_numeral (h : DecimalNumeral s n) :
    typedValue strtod s = (.int, .integer (saturate n)) := by
  rw [typedValue_of_not_flag h.not_isFlag, h.strtoll_eq, if_pos rfl]

/-- Neither empty nor a numeral, so that `strtoll` stops before the end. -/
theorem typedValue_of_not_numeral (hflag : ¬ IsFlag s) (hne : s ≠ [])
    (hnumeral : ¬ ∃ n, DecimalNumeral s n) :
    typedValue strtod s =
      if (strtod s).2 = [] then (.real, .real (strtod s).1) else (.string, .string (some s)) := by
  have hrest : (strtoll s).2 ≠ [] := by
    rw [Ne, strtoll_consumes_iff]
    rintro (hempty | hnum)
    · exact hne hempty
    · exact hnumeral hnum
  rw [typedValue_of_not_flag hflag, if_neg hrest]

/-! ## What a run leaves in the node -/

/-- The value of a text when its copy is granted or not. -/
def storedValue (strtod : CString → Double × CString) (s : CString) (granted : Bool) : Value :=
  if (typedValue strtod s).1 = .string ∧ granted = false then .string none
  else (typedValue strtod s).2

/-- Only the copy of a string asks for memory, and its failure is not reported. -/
theorem samconfConfigSetValueFromString_run (strtod : CString → Double × CString)
    (config : Config) (s : CString) (o : Supply) :
    ∃ o', samconfConfigSetValueFromString strtod config (some s) o =
      .ok ((.ok, relabel (fun d => { d with
        type := (typedValue strtod s).1, value := storedValue strtod s (o 0) }) config), o') := by
  rw [samconfConfigSetValueFromString, storedValue, typedValue]
  split
  · exact ⟨o, rfl⟩
  · split
    · exact ⟨o, rfl⟩
    · split
      · exact ⟨o, rfl⟩
      · split
        · exact ⟨o, rfl⟩
        · refine ⟨fun n => o (n + 1), ?_⟩
          cases hgrant : o 0 <;>
            simp [strdup, Exec.allocFor, Exec.alloc, Exec.bind_apply, hgrant]

end Typing

end Samconf
