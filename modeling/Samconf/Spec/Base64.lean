/-
# What decoding a signature computes

`samconfBase64Decode` lets `EVP_DecodeBlock` decode the text and then takes one byte off
for every `=` at its end. The library works on the text without the blanks around it,
and the loop on the text as it is.
-/

import Samconf.Foundation.Base64
import Samconf.Model.Signature
import Mathlib.Data.List.DropRight

namespace Samconf

open Foundation
open Exec (Yields Ensures Avoids Faults)

/-- What `EVP_DecodeBlock` passes over in front of a text. -/
def isBlank (c : Char) : Bool := c = ' ' || c = '\t'

/-- What `EVP_DecodeBlock` takes off behind a text: blanks, line ends and the mark of the
end of a file. -/
def isTrailing (c : Char) : Bool := isBlank c || c = '\n' || c = '\r' || c = '-'

/-- A text without what is taken off behind it. The first three characters stay. -/
def stripTrailing (text : CString) : CString :=
  text.take (max (text.rdropWhile isTrailing).length (min 3 text.length))

/-- `EVP_DecodeBlock` of OpenSSL: the text is trimmed at both ends, and the rest is decoded
with `=` as zero bits. -/
def evpDecodeBlock (text : CString) : Option (List UInt8) :=
  Base64.decode (stripTrailing (text.dropWhile isBlank))

/-! ## What stands behind a text -/

/-- No character of the encoding is taken off. -/
theorem isTrailing_of_mem_encode {b : List UInt8} {c : Char} (h : c ∈ Base64.encode b) :
    isTrailing c = false := by
  rcases Base64.mem_encode h with ⟨n, hn, rfl⟩ | rfl
  · have hall : ∀ n < 64, isTrailing (Base64.letter n) = false := by decide +kernel
    exact hall n hn
  · rfl

/-- From behind a text of at least three characters that are kept, everything else is taken
off. -/
theorem stripTrailing_append {text ws : CString} (htext : ∀ c ∈ text, isTrailing c = false)
    (hlength : 3 ≤ text.length) (hws : ∀ c ∈ ws, isTrailing c = true) :
    stripTrailing (text ++ ws) = text := by
  have htrailing : ∀ c ∈ ws.reverse, isTrailing c = true :=
    fun c hc => hws c (List.mem_reverse.mp hc)
  have hdrop : (text ++ ws).rdropWhile isTrailing = text := by
    rw [List.rdropWhile, List.reverse_append, List.dropWhile_append_of_pos htrailing,
      ← List.rdropWhile, List.rdropWhile_eq_self_iff]
    intro hlast
    simp [htext _ (List.getLast_mem hlast)]
  have hkept : max text.length (min 3 (text ++ ws).length) = text.length :=
    Nat.max_eq_left ((Nat.min_le_left _ _).trans hlength)
  rw [stripTrailing, hdrop, hkept, List.take_left]

/-- The library decodes an encoding whatever is taken off behind it. -/
theorem evpDecodeBlock_encode {b : List UInt8} (hne : b ≠ []) {ws : CString}
    (hws : ∀ c ∈ ws, isTrailing c = true) :
    evpDecodeBlock (Base64.encode b ++ ws) =
      some (b ++ List.replicate (Base64.padding b.length) 0) := by
  have htext : ∀ c ∈ Base64.encode b, isTrailing c = false := fun c => isTrailing_of_mem_encode
  have hfront : (Base64.encode b ++ ws).dropWhile isBlank = Base64.encode b ++ ws := by
    have hpos : 0 < (Base64.encode b).length :=
      Nat.lt_of_lt_of_le (by decide) (Base64.three_le_length_encode hne)
    obtain ⟨c, rest, hcons⟩ := List.exists_cons_of_length_pos hpos
    have hc : ¬ isBlank c = true := by
      intro hblank
      have hkept := htext c (by simp [hcons])
      simp [isTrailing, hblank] at hkept
    rw [hcons, List.cons_append, List.dropWhile_cons_of_neg hc]
  rw [evpDecodeBlock, hfront, stripTrailing_append htext (Base64.three_le_length_encode hne) hws,
    Base64.decode_encode]

/-! ## The padding loop -/

/-- At a character that is no `=` the loop ends. -/
theorem scanPadding_of_ne {front : CString} {c : Char} (hc : c ≠ '=') (rest : CString)
    (outLen : ℤ) (padding : ℕ) :
    scanPadding (front ++ c :: rest) (front.length + 1) outLen padding =
      pure (outLen, padding) := by
  simp [scanPadding, hc]

/-- From behind a run of at most two `=` the loop counts each of them. -/
theorem scanPadding_of_run {front : CString} {c : Char} (hc : c ≠ '=') (rest : CString)
    {count : ℕ} (outLen : ℤ) {padding : ℕ} (hcount : padding + count ≤ 2) :
    scanPadding (front ++ c :: (List.replicate count '=' ++ rest))
        (front.length + 1 + count) outLen padding =
      pure (outLen - count, padding + count) := by
  induction count generalizing outLen padding rest with
  | zero => simpa using scanPadding_of_ne hc rest outLen padding
  | succ n ih =>
      have hread : (front ++ c :: (List.replicate (n + 1) '=' ++ rest))[front.length + 1 + n]? =
          some '=' := by
        simp [Nat.add_assoc, Nat.add_comm 1 n]
      have hfew : ¬ padding + 1 > 2 := by omega
      have hshift : List.replicate (n + 1) '=' ++ rest =
          List.replicate n '=' ++ ('=' :: rest) := by
        rw [List.replicate_succ', List.append_assoc, List.singleton_append]
      rw [← Nat.add_assoc, scanPadding, if_pos hread, if_neg hfew, hshift,
        ih ('=' :: rest) (outLen - 1) (by omega)]
      congr 2
      · push_cast
        omega
      · omega

/-- What the loop leaves behind an encoding: the padding is counted only where no blank
hides it. -/
theorem scanPadding_encode {b : List UInt8} (hne : b ≠ []) (before : CString) {ws : CString}
    (hws : ∀ c ∈ ws, isTrailing c = true) (outLen : ℤ) :
    scanPadding (before ++ (Base64.encode b ++ ws))
        (before.length + (Base64.encode b ++ ws).length) outLen 0 =
      if ws = [] then pure (outLen - Base64.padding b.length, Base64.padding b.length)
      else pure (outLen, 0) := by
  by_cases hempty : ws = []
  · subst hempty
    obtain ⟨body, c, hencode, hc⟩ := Base64.encode_eq_append hne
    have hfew : 0 + Base64.padding b.length ≤ 2 := by
      simpa using Base64.padding_le b.length
    have hrun := @scanPadding_of_run (before ++ body) c hc [] _ outLen _ hfew
    simp only [List.append_nil, List.append_assoc, List.length_append, Nat.zero_add] at hrun
    simp only [hencode, List.append_nil, List.append_assoc, List.length_append, List.length_cons,
      List.length_replicate, List.singleton_append, if_true]
    rw [← hrun]
    congr 1
    omega
  · obtain ⟨front, c, rfl⟩ := (List.eq_nil_or_concat' ws).resolve_left hempty
    have hc : c ≠ '=' := by
      rintro rfl
      exact absurd (hws '=' (by simp)) (by decide)
    have hstop := @scanPadding_of_ne (before ++ (Base64.encode b ++ front)) c hc [] outLen 0
    simp only [List.append_assoc, List.length_append] at hstop
    rw [if_neg hempty, ← hstop]
    simp only [List.length_append, List.length_singleton]
    congr 1

/-- OpenSSL decodes encodings with newlines and spaces behind them as it is documented to. -/
def Crypto.DecodesEncodings (crypto : Crypto) : Prop :=
  ∀ (b : List UInt8) (ws : CString), (∀ c ∈ ws, c = '\n' ∨ c = ' ') →
    crypto.decodeBlock (Base64.encode b ++ ws) = evpDecodeBlock (Base64.encode b ++ ws)

/-- **What decoding returns** for an encoding with newlines and spaces behind it. -/
theorem samconfBase64Decode_encode {crypto : Crypto} (hdecode : crypto.DecodesEncodings)
    {b : List UInt8} (hne : b ≠ []) (before : CString) {ws : CString}
    (hws : ∀ c ∈ ws, c = '\n' ∨ c = ' ') :
    samconfBase64Decode crypto (before ++ (Base64.encode b ++ ws)) before.length = (do
      if ← Exec.alloc then
        pure (.ok, some (if ws = [] then b
          else b ++ List.replicate (Base64.padding b.length) 0))
      else pure (.error, none)) := by
  have htrailing : ∀ c ∈ ws, isTrailing c = true := by
    intro c hc
    rcases hws c hc with rfl | rfl <;> rfl
  have hstart : ¬ (before ++ (Base64.encode b ++ ws)).length < before.length := by simp
  have hfew := Base64.padding_le b.length
  simp only [samconfBase64Decode, hstart, if_false, List.drop_left, hdecode b ws hws,
    evpDecodeBlock_encode hne htrailing, scanPadding_encode hne before htrailing]
  congr 1
  funext granted
  by_cases hempty : ws = []
  · simp [hempty, hfew]
  · simp only [if_neg hempty, Exec.pure_bind, Int.toNat_natCast, List.take_length]
    simp

end Samconf
