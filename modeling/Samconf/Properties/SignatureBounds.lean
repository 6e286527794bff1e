/-
# Reading a hostile signature

A signature file may hold any text. `samconfCryptoUtilsVerify` takes the path of the URI
in it without its first character, decodes the rest and counts the `=` at its end from
the back. With an empty path it begins behind the terminator, which is where the examples
of the documentation, with an authority and no path, already lead. With the path `=`
nothing is left to decode, and the count goes on through the first character to the one
before it. Any other path is read between its ends: a text that the decoder takes is
either too long to be counted through, or holds a character that stops the count.
-/

import Samconf.Spec.Base64
import Samconf.Spec.Lookup
import Samconf.Spec.UriInit

namespace Samconf

open Foundation
open Exec (Yields Ensures Avoids Faults)

/-- The path of the URI that a text is. -/
def pathOf (uriString : CString) : CString :=
  match samconfUriPattern uriString with
  | none => []
  | some pmatch => matchText uriString (pmatch 5)

theorem pathOf_text (parts : UriParts) : pathOf parts.text = parts.path := by
  rw [pathOf, parts.samconfUriPattern_text]
  exact parts.matchText_path

/-! ## The count of the padding -/

/-- What stops the count before it leaves the buffer: a character that is no `=`, or
enough of them to be refused. -/
def Bounded (buffer : CString) (index padding : ℕ) : Prop :=
  (∃ i < index, buffer[i]? ≠ some '=') ∨ 3 ≤ index + padding

/-- The count stays in the buffer when something stops it. -/
theorem scanPadding_avoids {buffer : CString} {index padding : ℕ} (outLen : ℤ)
    (hfew : padding ≤ 2) (h : Bounded buffer index padding) :
    Avoids .outOfBounds (scanPadding buffer index outLen padding) := by
  induction index generalizing outLen padding with
  | zero =>
      rcases h with ⟨i, hi, -⟩ | hmany
      · exact absurd hi (Nat.not_lt_zero i)
      · omega
  | succ index ih =>
      rw [scanPadding]
      by_cases hpad : buffer[index]? = some '='
      · rw [if_pos hpad]
        by_cases hmore : padding + 1 > 2
        · rw [if_pos hmore]
          exact Exec.avoids_pure _ _
        · rw [if_neg hmore]
          refine ih (outLen - 1) (by omega) ?_
          rcases h with ⟨i, hi, hne⟩ | hmany
          · have hother : i ≠ index := by
              rintro rfl
              exact hne hpad
            exact .inl ⟨i, by omega, hne⟩
          · exact .inr (by omega)
      · rw [if_neg hpad]
        exact Exec.avoids_pure _ _

/-- A path stops the count when neither it nor what follows its first character is a single
`=`. -/
theorem bounded_of_ne {path : CString} (hne : path ≠ []) (hpad : path ≠ ['='])
    (hrest : path.drop 1 ≠ ['=']) : Bounded path path.length 0 := by
  match path with
  | [] => exact absurd rfl hne
  | [c] =>
      refine .inl ⟨0, Nat.one_pos, ?_⟩
      simpa using hpad
  | [c, d] =>
      refine .inl ⟨1, Nat.one_lt_two, ?_⟩
      have hd : d ≠ '=' := by
        rintro rfl
        exact hrest rfl
      simpa using hd
  | _ :: _ :: _ :: rest => exact .inr (by simp)

/-! ## Decoding the path -/

variable {crypto : Crypto}

/-- Decoding all but the first character of a path stays inside the path. -/
theorem samconfBase64Decode_avoids (hrefused : crypto.decodeBlock ['='] = none)
    {path : CString} (hne : path ≠ []) (hpad : path ≠ ['=']) :
    Avoids .outOfBounds (samconfBase64Decode crypto path 1) := by
  have hpos : 0 < path.length := List.length_pos_iff.mpr hne
  have hlength : 1 + (path.drop 1).length = path.length := by
    rw [List.length_drop]
    omega
  have hstart : ¬ path.length < 1 := Nat.not_lt.mpr hpos
  simp only [samconfBase64Decode, if_neg hstart]
  refine (Exec.avoids_alloc _).bind fun granted => ?_
  cases granted with
  | false => exact Exec.avoids_pure _ _
  | true =>
      cases hdecoded : crypto.decodeBlock (path.drop 1) with
      | none => exact Exec.avoids_pure _ _
      | some decoded =>
          have hrest : path.drop 1 ≠ ['='] := by
            intro heq
            rw [heq, hrefused] at hdecoded
            cases hdecoded
          simp only [if_true, hlength]
          refine (scanPadding_avoids _ (Nat.zero_le 2)
            (bounded_of_ne hne hpad hrest)).bind fun scan => ?_
          by_cases hfew : scan.2 ≤ 2
          · simp only [if_pos hfew]
            exact Exec.avoids_pure _ _
          · simp only [if_neg hfew]
            exact Exec.avoids_pure _ _

/-- Decoding all but the first character of the other two paths leaves them. -/
theorem samconfBase64Decode_faults (hnothing : crypto.decodeBlock [] = some [])
    {path : CString} (h : path = [] ∨ path = ['=']) :
    Faults (samconfBase64Decode crypto path 1) .outOfBounds := by
  rcases h with rfl | rfl
  · exact Exec.faults_fault _
  · refine Exec.yields_alloc.bind_faults ?_
    simp only [if_true, List.drop_one, List.tail_cons, hnothing]
    exact (Exec.faults_fault _).bind _

/-! ## The whole check -/

/-- What follows the decoding touches no buffer. -/
theorem verifyWithUri_avoids {data : List Char} {uri : Uri}
    (hdecode : ∀ path, uri.path = some path →
      Avoids .outOfBounds (samconfBase64Decode crypto path 1)) :
    Avoids .outOfBounds (verifyWithUri crypto data uri) := by
  rw [verifyWithUri]
  rcases samconfLoadPublicKey crypto with ⟨status, _ | pKey⟩
  · exact Exec.avoids_pure _ _
  refine (Exec.avoids_alloc _).bind fun granted => ?_
  cases granted with
  | false => exact Exec.avoids_pure _ _
  | true =>
      cases hpath : uri.path with
      | none =>
          rw [if_pos rfl, deref, Exec.fault_bind]
          exact Exec.avoids_fault (by decide)
      | some path =>
          refine (hdecode path hpath).bind fun r => ?_
          by_cases hok : r.1 = .ok
          · simp only [if_pos hok]
            refine (deref_avoids (by decide) uri.scheme).bind fun scheme => ?_
            cases crypto.digestByName (digestName scheme) with
            | none => exact Exec.avoids_pure _ _
            | some sigAlg =>
                by_cases hinit : crypto.digestVerifyInit sigAlg pKey = true
                · simp only [if_pos hinit]
                  by_cases hupdate : crypto.digestUpdate sigAlg pKey data = true
                  · simp only [if_pos hupdate]
                    by_cases hfinal :
                        crypto.digestVerifyFinal sigAlg pKey data (r.2.getD []) = true
                    · simp only [if_pos hfinal]
                      exact Exec.avoids_pure _ _
                    · simp only [if_neg hfinal]
                      exact Exec.avoids_pure _ _
                  · simp only [if_neg hupdate]
                    exact Exec.avoids_pure _ _
                · simp only [if_neg hinit]
                  exact Exec.avoids_pure _ _
          · simp only [if_neg hok]
            exact Exec.avoids_pure _ _

/-- With a public key the decoding of the path is reached. -/
theorem verifyWithUri_faults {data : List Char} {uri : Uri} {path : CString}
    (hkey : (samconfLoadPublicKey crypto).2 ≠ none) (hpath : uri.path = some path)
    (hfaults : Faults (samconfBase64Decode crypto path 1) .outOfBounds) :
    Faults (verifyWithUri crypto data uri) .outOfBounds := by
  rw [verifyWithUri]
  rcases hload : samconfLoadPublicKey crypto with ⟨status, _ | pKey⟩
  · rw [hload] at hkey
    exact absurd rfl hkey
  refine Exec.yields_alloc.bind_faults ?_
  simp only [if_true, hpath, deref_some, Exec.pure_bind]
  exact hfaults.bind _

/-- **Signatures are read in bounds** exactly where no public key lets the check get as far
as the path, or the path is neither empty nor a single `=`. Of the decoder it matters that
it decodes the empty text to nothing, and refuses a `=` alone. -/
theorem samconfCryptoUtilsVerify_inBounds_iff {regexec : Regexec}
    (hposix : samconfUriRegex.SearchedBy 9 regexec) {crypto : Crypto}
    (hnothing : crypto.decodeBlock [] = some []) (hrefused : crypto.decodeBlock ['='] = none)
    (data signature : List Char) :
    Avoids .outOfBounds (samconfCryptoUtilsVerify regexec crypto data signature) ↔
      (samconfLoadPublicKey crypto).2 = none ∨
        pathOf (cutAtNul signature) ≠ [] ∧ pathOf (cutAtNul signature) ≠ ['='] := by
  obtain ⟨parts, hparts⟩ := exists_uriParts (cutAtNul signature)
  rw [samconfCryptoUtilsVerify, ← hparts, pathOf_text]
  constructor
  · intro hsafe
    by_contra hbad
    rw [not_or, not_and_or, not_not, not_not] at hbad
    refine Faults.not_avoids ?_ hsafe
    refine (samconfUriNew_yields parts hposix).bind_faults ?_
    exact verifyWithUri_faults hbad.1 rfl (samconfBase64Decode_faults hnothing hbad.2)
  · intro hgood
    refine (samconfUriNew_avoids _ regexec parts.text).bind_of
      (samconfUriNew_ensures parts hposix) ?_
    rintro ⟨status, uri⟩ hparsed
    cases uri with
    | none => exact Exec.avoids_pure _ _
    | some uri =>
        obtain ⟨rfl, hcopied⟩ : status = .ok ∧ uri.CopiedFrom parts.uri := hparsed uri rfl
        simp only [if_true]
        rcases hgood with hkey | ⟨hne, hpad⟩
        · rw [verifyWithUri]
          rcases hload : samconfLoadPublicKey crypto with ⟨status, _ | pKey⟩
          · exact Exec.avoids_pure _ _
          · rw [hload] at hkey
            cases hkey
        · refine verifyWithUri_avoids fun path hpath => ?_
          have hsame : some path = some parts.path :=
            hpath.symm.trans (hcopied.path.resolve_left (by simp [hpath]))
          cases hsame
          exact samconfBase64Decode_avoids hrefused hne hpad

/-- OpenSSL with a public key and a decoder, and no digests. -/
def Crypto.withKey (decodeBlock : CString → Option (List UInt8)) : Crypto where
  PublicKey := Unit
  Digest := Unit
  keyPath := some "key.pem".toList
  readPublicKey := fun _ => some ()
  decodeBlock := decodeBlock
  digestByName := fun _ => none
  digestVerifyInit := fun _ _ => false
  digestUpdate := fun _ _ _ => false
  digestVerifyFinal := fun _ _ _ _ => false

/-- A signature with its payload in the path is read in bounds. -/
theorem payload_in_path_inBounds :
    Avoids .outOfBounds (samconfCryptoUtilsVerify samconfUriPattern
      (Crypto.withKey evpDecodeBlock) [] "RSA-SHA2-256:///U2Ft".toList) :=
  (samconfCryptoUtilsVerify_inBounds_iff searchedBy_samconfUriPattern rfl rfl []
    "RSA-SHA2-256:///U2Ft".toList).mpr (.inr (by decide))

/-- A signature as the documentation writes it, with its payload in the authority, is read
out of bounds. -/
theorem payload_in_authority_outOfBounds :
    ¬ Avoids .outOfBounds (samconfCryptoUtilsVerify samconfUriPattern
      (Crypto.withKey evpDecodeBlock) [] "x509://RHVtbXkgY2VydCA6KQo=".toList) :=
  Faults.not_avoids (Exec.faults_iff.mpr rfl)

end Samconf
