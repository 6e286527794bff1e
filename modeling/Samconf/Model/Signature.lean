/-
# Signatures

Finding the signature of a file and checking it with the public key. OpenSSL,
the matching of URIs and the file system are parameters, gathered in two
records. File contents are lists of characters, one for each byte.
-/

import Samconf.Model.Uri

namespace Samconf

open Foundation

/-- What the code asks of the files it can see. -/
structure FileSystem where
  /-- `access(path, R_OK | F_OK) == 0`. -/
  readable : CString → Bool
  /-- `safuReadFileToString(path, -1, &buf)`, `none` for a negative length. -/
  readFile : CString → Option (List Char)

/-- What the code asks of OpenSSL and of the public key's file. -/
structure Crypto where
  PublicKey : Type
  Digest : Type
  /-- The `SAMCONF_SIGNATURE_KEY` variable. -/
  keyPath : Option CString
  /-- `fopen` and `PEM_read_PUBKEY`, `none` when either fails. -/
  readPublicKey : CString → Option PublicKey
  /-- `EVP_DecodeBlock`, `none` for a negative length. -/
  decodeBlock : CString → Option (List UInt8)
  /-- `EVP_get_digestbyname`. -/
  digestByName : CString → Option Digest
  /-- `EVP_DigestVerifyInit(..) == 1`. -/
  digestVerifyInit : Digest → PublicKey → Bool
  /-- `EVP_DigestUpdate(..) == 1`. -/
  digestUpdate : Digest → PublicKey → List Char → Bool
  /-- `EVP_DigestVerifyFinal(..) == 1`, for the data of the update. -/
  digestVerifyFinal : Digest → PublicKey → List Char → List UInt8 → Bool

/-- `samconfSigSuffix`. -/
def samconfSigSuffix : CString := ".sig".toList

/-- The file that holds the signature of a file. -/
def signatureFile (file : CString) : CString := file ++ samconfSigSuffix

/-- `samconfSignatureLoaderGetSignatureFor`: the status and `*signature`. -/
def samconfSignatureLoaderGetSignatureFor (files : FileSystem) (file : CString) :
    Run (ConfigStatus × Option (List Char)) := do
  if ← Exec.alloc then
    if files.readable (signatureFile file) then
      match files.readFile (signatureFile file) with
      | some signature => pure (.ok, some signature)
      | none => pure (.error, none)
    else pure (.signatureNotFound, none)
  else pure (.error, none)

/-- `samconfLoadPublicKey`. -/
def samconfLoadPublicKey (crypto : Crypto) : ConfigStatus × Option crypto.PublicKey :=
  match crypto.keyPath with
  | none => (.error, none)
  | some keyPath =>
      match crypto.readPublicKey keyPath with
      | some key => (.ok, some key)
      | none => (.error, none)

/-- The padding loop of `samconfBase64Decode`. The first number is one more than
the index that is read next in the buffer the text lies in. -/
def scanPadding (buffer : CString) : ℕ → ℤ → ℕ → Run (ℤ × ℕ)
  | 0, _, _ => Exec.fault .outOfBounds
  | index + 1, outLen, padding =>
      if buffer[index]? = some '=' then
        if padding + 1 > 2 then pure (outLen - 1, padding + 1)
        else scanPadding buffer index (outLen - 1) (padding + 1)
      else pure (outLen, padding)

/-- `samconfBase64Decode` for the text that starts at index `start` of a buffer. A
start past the terminator is outside the buffer. -/
def samconfBase64Decode (crypto : Crypto) (buffer : CString) (start : ℕ) :
    Run (ConfigStatus × Option (List UInt8)) :=
  if buffer.length < start then Exec.fault .outOfBounds
  else do
    let base64 := buffer.drop start
    if ← Exec.alloc then
      match crypto.decodeBlock base64 with
      | none => pure (.error, none)
      | some decoded =>
          let (outLen, padding) ← scanPadding buffer (start + base64.length) decoded.length 0
          if padding ≤ 2 then pure (.ok, some (decoded.take outLen.toNat))
          else pure (.error, none)
    else pure (.error, none)

/-- The digest that a signature's scheme names. -/
def digestName (scheme : CString) : CString :=
  if scheme = "RSA-SHA2-256".toList then "SHA256".toList else scheme

/-- The nested checks of `samconfCryptoUtilsVerify` once the URI is there. -/
def verifyWithUri (crypto : Crypto) (data : List Char) (uri : Uri) : Run ConfigStatus :=
  match samconfLoadPublicKey crypto with
  | (_, none) => pure .error
  | (_, some pKey) => do
      -- EVP_MD_CTX_new
      if ← Exec.alloc then
        let path ← deref .nullString uri.path
        let (secStatus, rawSig) ← samconfBase64Decode crypto path 1
        if secStatus = .ok then
          let rawSig := rawSig.getD []
          let scheme ← deref .nullString uri.scheme
          match crypto.digestByName (digestName scheme) with
          | none => pure .error
          | some sigAlg =>
              if crypto.digestVerifyInit sigAlg pKey then
                if crypto.digestUpdate sigAlg pKey data then
                  if crypto.digestVerifyFinal sigAlg pKey data rawSig then pure .ok
                  else pure .invalidSignature
                else pure .error
              else pure .error
        else pure .error
      else pure .error

/-- `samconfCryptoUtilsVerify` for data and a signature that are not NULL. The
signature is used as a C string. -/
def samconfCryptoUtilsVerify (regexec : Regexec) (crypto : Crypto) (data signature : List Char) :
    Run ConfigStatus := do
  let (secStatus, uri) ← samconfUriNew regexec (cutAtNul signature)
  match uri with
  | none => pure .error
  | some uri => if secStatus = .ok then verifyWithUri crypto data uri else pure .error

/-- `samconfVerifySignature`. When the location cannot be read, `status` is still
that of the search for the signature. -/
def samconfVerifySignature (files : FileSystem) (regexec : Regexec) (crypto : Crypto)
    (location : CString) : Run ConfigStatus := do
  let (status, signature) ← samconfSignatureLoaderGetSignatureFor files location
  if status = .ok then
    match files.readFile location with
    | some data => samconfCryptoUtilsVerify regexec crypto data (signature.getD [])
    | none => pure status
  else pure status

end Samconf
