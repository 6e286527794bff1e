/-
# Base64

Three bytes are four groups of six bits, each written as a character of the alphabet.
What is missing of the last three bytes is filled up with zero bits, and a group of such
bits only is written as `=`. A decoder that takes `=` for zero bits gives the bytes and
one zero byte for each `=` behind them.
-/

import Mathlib.Data.List.Basic

namespace Foundation.Base64

/-- The characters of the numbers below 64. -/
def alphabet : List Char :=
  "ABCDEFGHIJKLMNOPQRSTUVWXYZabcdefghijklmnopqrstuvwxyz0123456789+/".toList

/-- The character of a number. -/
def letter (n : ℕ) : Char := alphabet.getD n '='

/-- The number of a character. Padding stands for zero bits. -/
def sextet? (c : Char) : Option ℕ := if c = '=' then some 0 else alphabet.idxOf? c

/-- The encoding with padding. -/
def encode : List UInt8 → List Char
  | [] => []
  | [a] => [letter (a.toNat / 4), letter (a.toNat % 4 * 16), '=', '=']
  | [a, b] =>
      [letter (a.toNat / 4), letter (a.toNat % 4 * 16 + b.toNat / 16),
        letter (b.toNat % 16 * 4), '=']
  | a :: b :: c :: rest =>
      letter (a.toNat / 4) :: letter (a.toNat % 4 * 16 + b.toNat / 16) ::
        letter (b.toNat % 16 * 4 + c.toNat / 64) :: letter (c.toNat % 64) :: encode rest

/-- The three bytes of four numbers. -/
def bytes (w x y z : ℕ) : List UInt8 :=
  [UInt8.ofNat (w * 4 + x / 16), UInt8.ofNat (x % 16 * 16 + y / 4), UInt8.ofNat (y % 4 * 64 + z)]

/-- Decode four characters at a time, `none` for another character or a text of another
length. -/
def decode : List Char → Option (List UInt8)
  | [] => some []
  | c₀ :: c₁ :: c₂ :: c₃ :: rest => do
      let w ← sextet? c₀
      let x ← sextet? c₁
      let y ← sextet? c₂
      let z ← sextet? c₃
      let decoded ← decode rest
      some (bytes w x y z ++ decoded)
  | _ => none

/-- The number of `=` behind that many bytes. -/
def padding (length : ℕ) : ℕ := (3 - length % 3) % 3

theorem padding_le (length : ℕ) : padding length ≤ 2 := by
  have hlt := Nat.mod_lt (3 - length % 3) (by decide : 0 < 3)
  rw [padding]
  omega

theorem padding_eq_zero_iff (length : ℕ) : padding length = 0 ↔ 3 ∣ length := by
  rw [padding]
  omega

theorem padding_add_three (length : ℕ) : padding (length + 3) = padding length := by
  rw [padding, padding, Nat.add_mod_right]

/-! ## Letters -/

theorem sextet?_letter_all : ∀ n < 64, sextet? (letter n) = some n := by decide +kernel

theorem sextet?_letter {n : ℕ} (h : n < 64) : sextet? (letter n) = some n :=
  sextet?_letter_all n h

theorem letter_ne_pad_all : ∀ n < 64, letter n ≠ '=' := by decide +kernel

theorem letter_ne_pad {n : ℕ} (h : n < 64) : letter n ≠ '=' := letter_ne_pad_all n h

@[simp]
theorem sextet?_pad : sextet? '=' = some 0 := rfl

/-! ## Round trip -/

/-- The bits of three bytes, cut into four numbers and put together again. -/
theorem bytes_of_toNat (a b c : UInt8) :
    bytes (a.toNat / 4) (a.toNat % 4 * 16 + b.toNat / 16) (b.toNat % 16 * 4 + c.toNat / 64)
      (c.toNat % 64) = [a, b, c] := by
  have ha := a.toNat_lt
  have hb := b.toNat_lt
  have hc := c.toNat_lt
  have hfirst : a.toNat / 4 * 4 + (a.toNat % 4 * 16 + b.toNat / 16) / 16 = a.toNat := by omega
  have hsecond : (a.toNat % 4 * 16 + b.toNat / 16) % 16 * 16 +
      (b.toNat % 16 * 4 + c.toNat / 64) / 4 = b.toNat := by omega
  have hthird : (b.toNat % 16 * 4 + c.toNat / 64) % 4 * 64 + c.toNat % 64 = c.toNat := by omega
  rw [bytes, hfirst, hsecond, hthird, UInt8.ofNat_toNat, UInt8.ofNat_toNat, UInt8.ofNat_toNat]

/-- Four characters are decoded together. -/
theorem decode_quad {w x y z : ℕ} {c₂ c₃ : Char} (hw : w < 64) (hx : x < 64)
    (hy : sextet? c₂ = some y) (hz : sextet? c₃ = some z) (rest : List Char) :
    decode (letter w :: letter x :: c₂ :: c₃ :: rest) =
      (decode rest).map fun decoded => bytes w x y z ++ decoded := by
  rw [decode, sextet?_letter hw, sextet?_letter hx, hy, hz]
  cases decode rest <;> rfl

/-- **Decoding undoes encoding**, up to the zero bytes of the padding. -/
theorem decode_encode (b : List UInt8) :
    decode (encode b) = some (b ++ List.replicate (padding b.length) 0) := by
  induction b using encode.induct with
  | case1 => rfl
  | case2 a =>
      have ha := a.toNat_lt
      have hbytes := bytes_of_toNat a 0 0
      rw [encode, decode_quad (by omega) (by omega) sextet?_pad sextet?_pad]
      simpa [decode, padding] using hbytes
  | case3 a b =>
      have ha := a.toNat_lt
      have hb := b.toNat_lt
      have hbytes := bytes_of_toNat a b 0
      rw [encode, decode_quad (by omega) (by omega) (sextet?_letter (by omega)) sextet?_pad]
      simpa [decode, padding] using hbytes
  | case4 a b c rest ih =>
      have ha := a.toNat_lt
      have hb := b.toNat_lt
      have hc := c.toNat_lt
      rw [encode, decode_quad (by omega) (by omega) (sextet?_letter (by omega))
        (sextet?_letter (by omega)), ih, bytes_of_toNat]
      simp [padding_add_three]

/-- Some bytes are at least four characters. -/
theorem three_le_length_encode {b : List UInt8} (hne : b ≠ []) : 3 ≤ (encode b).length := by
  cases b using encode.induct with
  | case1 => exact absurd rfl hne
  | case2 a => simp [encode]
  | case3 a b => simp [encode]
  | case4 a b c rest => simp [encode]

/-- The padding stands behind a letter. -/
theorem encode_eq_append {b : List UInt8} (hne : b ≠ []) :
    ∃ body c, encode b = body ++ [c] ++ List.replicate (padding b.length) '=' ∧ c ≠ '=' := by
  induction b using encode.induct with
  | case1 => exact absurd rfl hne
  | case2 a =>
      have ha := a.toNat_lt
      exact ⟨[letter (a.toNat / 4)], _, rfl, letter_ne_pad (by omega)⟩
  | case3 a b =>
      have hb := b.toNat_lt
      exact ⟨[letter (a.toNat / 4), letter (a.toNat % 4 * 16 + b.toNat / 16)], _, rfl,
        letter_ne_pad (by omega)⟩
  | case4 a b c rest ih =>
      have hc := c.toNat_lt
      by_cases hrest : rest = []
      · subst hrest
        refine ⟨[letter (a.toNat / 4), letter (a.toNat % 4 * 16 + b.toNat / 16),
          letter (b.toNat % 16 * 4 + c.toNat / 64)], letter (c.toNat % 64), ?_,
          letter_ne_pad (by omega)⟩
        simp [encode, padding]
      · obtain ⟨body, d, hbody, hd⟩ := ih hrest
        refine ⟨letter (a.toNat / 4) :: letter (a.toNat % 4 * 16 + b.toNat / 16) ::
          letter (b.toNat % 16 * 4 + c.toNat / 64) :: letter (c.toNat % 64) :: body, d, ?_, hd⟩
        rw [encode, hbody]
        simp [padding_add_three]

/-- Every character is a letter or padding. -/
theorem mem_encode {b : List UInt8} {x : Char} (h : x ∈ encode b) :
    (∃ n < 64, x = letter n) ∨ x = '=' := by
  induction b using encode.induct with
  | case1 => cases h
  | case2 a =>
      have ha := a.toNat_lt
      simp only [encode, List.mem_cons, List.not_mem_nil, or_false] at h
      rcases h with rfl | rfl | rfl | rfl
      · exact .inl ⟨_, by omega, rfl⟩
      · exact .inl ⟨_, by omega, rfl⟩
      · exact .inr rfl
      · exact .inr rfl
  | case3 a b =>
      have ha := a.toNat_lt
      have hb := b.toNat_lt
      simp only [encode, List.mem_cons, List.not_mem_nil, or_false] at h
      rcases h with rfl | rfl | rfl | rfl
      · exact .inl ⟨_, by omega, rfl⟩
      · exact .inl ⟨_, by omega, rfl⟩
      · exact .inl ⟨_, by omega, rfl⟩
      · exact .inr rfl
  | case4 a b c rest ih =>
      have ha := a.toNat_lt
      have hb := b.toNat_lt
      have hc := c.toNat_lt
      rw [encode] at h
      simp only [List.mem_cons] at h
      rcases h with rfl | rfl | rfl | rfl | h
      · exact .inl ⟨_, by omega, rfl⟩
      · exact .inl ⟨_, by omega, rfl⟩
      · exact .inl ⟨_, by omega, rfl⟩
      · exact .inl ⟨_, by omega, rfl⟩
      · exact ih h

end Foundation.Base64
