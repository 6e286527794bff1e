/-
# Decoding a signature

A signature is written in base64, and its file may end with a newline. OpenSSL's decoder
takes such blanks off and gives a zero byte for every `=`, which `samconfBase64Decode`
takes off again by counting the `=` at the end of the text. It looks for them behind the
blanks, so that a single newline after a padded text leaves the zero bytes in the
signature. Lengths are those of texts shorter than 2^31 characters.
-/

import Samconf.Spec.Base64

namespace Samconf

open Foundation
open Exec (Yields Ensures)

/-- Decoding the encoding of `b` with blanks behind it, wherever in a buffer it stands,
returns nothing else than `b`, and without the blanks it does return it. -/
def DecodesExactly (crypto : Crypto) (before : CString) (b : List UInt8) (ws : CString) : Prop :=
  (samconfBase64Decode crypto (before ++ (Base64.encode b ++ ws)) before.length).Ensures
      (fun r => r.1 = .ok → r.2 = some b) ∧
    (ws = [] →
      (samconfBase64Decode crypto (before ++ (Base64.encode b ++ ws)) before.length).Yields
        (.ok, some b))

/-- Nothing is appended exactly when there is nothing to count or nothing hides it. -/
theorem decoded_eq_iff {α : Type} {b : List UInt8} {ws : List α} :
    (if ws = [] then b else b ++ List.replicate (Base64.padding b.length) 0) = b ↔
      ws = [] ∨ 3 ∣ b.length := by
  by_cases hempty : ws = []
  · simp [hempty]
  · simp [hempty, ← Base64.padding_eq_zero_iff]

/-- **Decoding is exact** for a text without blanks behind it, and behind a blank for a
text without padding. -/
theorem samconfBase64Decode_exact_iff {crypto : Crypto} (hdecode : crypto.DecodesEncodings)
    (before : CString) {b : List UInt8} (hne : b ≠ []) {ws : CString}
    (hws : ∀ c ∈ ws, c = '\n' ∨ c = ' ') :
    DecodesExactly crypto before b ws ↔ ws = [] ∨ 3 ∣ b.length := by
  have hrun := samconfBase64Decode_encode hdecode hne before hws
  have hyields : (samconfBase64Decode crypto (before ++ (Base64.encode b ++ ws))
      before.length).Yields (.ok, some (if ws = [] then b
        else b ++ List.replicate (Base64.padding b.length) 0)) := by
    rw [hrun]
    exact Exec.yields_alloc.bind (Exec.yields_pure _)
  rw [DecodesExactly, ← decoded_eq_iff]
  constructor
  · rintro ⟨hexact, -⟩
    have hsame := Exec.ensures_iff.mp hexact _ _ _ (Exec.yields_iff.mp hyields) rfl
    exact Option.some.inj hsame
  · intro hsame
    rw [hsame] at hyields hrun
    refine ⟨?_, fun _ => hyields⟩
    rw [hrun]
    refine (Exec.ensures_true Exec.alloc).bind fun granted _ => ?_
    cases granted with
    | false => exact Exec.ensures_pure fun h => by cases h
    | true => exact Exec.ensures_pure fun _ => rfl

/-- OpenSSL with a decoder, and no public key. -/
def Crypto.ofDecoder (decodeBlock : CString → Option (List UInt8)) : Crypto where
  PublicKey := Unit
  Digest := Unit
  keyPath := none
  readPublicKey := fun _ => none
  decodeBlock := decodeBlock
  digestByName := fun _ => none
  digestVerifyInit := fun _ _ => false
  digestUpdate := fun _ _ _ => false
  digestVerifyFinal := fun _ _ _ _ => false

/-- A newline does no harm behind three bytes. -/
theorem decodesExactly_unpadded :
    DecodesExactly (Crypto.ofDecoder evpDecodeBlock) "/".toList [83, 97, 109] ['\n'] :=
  (samconfBase64Decode_exact_iff (fun _ _ _ => rfl) "/".toList (by decide) (by simp)).mpr
    (.inr (by decide))

/-- Behind a single byte a newline leaves two zero bytes. -/
theorem not_decodesExactly_padded :
    ¬ DecodesExactly (Crypto.ofDecoder evpDecodeBlock) "/".toList [83] ['\n'] := by
  rintro ⟨hexact, -⟩
  have hrun := @samconfBase64Decode_encode (Crypto.ofDecoder evpDecodeBlock) (fun _ _ _ => rfl)
    [83] (by decide) "/".toList ['\n'] (by simp)
  rw [hrun] at hexact
  have hsame := Exec.ensures_iff.mp hexact plenty _ plenty rfl rfl
  revert hsame
  decide

end Samconf
