import EviceChain.Foundation.Loop
import EviceChain.Sequencer.Genesis

/-!
# The keystore (`keystore.rs`)

A private key is kept in a file, encrypted under a key that `scrypt` derives from a
password. `Keystore.new` writes such a file and `Keystore.decrypt` reads it.

A call returns, fails with a `KeystoreError`, or panics (`Abort`). Two conversions of
`decrypt` can panic: `copy_from_slice` into the nonce, and the logarithm of `n`.
`scrypt` and the cipher are parameters (`KeystoreCiphers`); `hex`, `serde` and the
random numbers are not modelled further, and an error of `hex` is kept without its
position.

Results:
1. `decrypt_new`: what was written is read back;
2. `decrypt_returns_iff`: `decrypt` does not panic if and only if the nonce has 24
   bytes and `n` is not 0, unless it has failed before it gets there;
3. `decrypt_panics`: a nonce of 23 bytes, and `n = 0`.
-/

namespace EviceChain.Sequencer

open Foundation

def privateKeySize : Nat := 2560

/-! ## The file -/

structure KdfParams where
  dklen : UInt32
  n : UInt32
  p : UInt32
  r : UInt32
  salt : Text

structure CipherParams where
  nonce : Text

structure KeystoreCrypto where
  cipher : Text
  ciphertext : Text
  cipherparams : CipherParams
  kdf : Text
  kdfparams : KdfParams
  mac : Text

structure Keystore where
  address : Text
  publicKey : Text
  crypto : KeystoreCrypto
  id : Text
  version : UInt8

/-- The errors of `new` and `decrypt`. -/
inductive KeystoreError
  | hex
  | scryptParams
  | scryptOutputLen
  | invalidPassword
  | invalidKeyLength
  | unsupportedVersion (version : UInt8)
  | aeadError
deriving DecidableEq, Repr

inductive Panic
  /-- `copy_from_slice` with a source of another length. -/
  | copyFromSlice
  /-- `ilog2` of 0. -/
  | ilog2
deriving DecidableEq, Repr

/-- How a call can end without a result. -/
inductive Abort
  | err (error : KeystoreError)
  | panic (cause : Panic)
deriving DecidableEq, Repr

/-! ## Reading and writing -/

abbrev DerivedKey := { key : Bytes // key.length = 32 }

abbrev XNonce := { nonce : Bytes // nonce.length = 24 }

/-- `scrypt` and XChaCha20-Poly1305. -/
structure KeystoreCiphers where
  ScryptParams : Type
  /-- `Params::new`. -/
  scryptParams : UInt8 → UInt32 → UInt32 → Nat → Option ScryptParams
  /-- `scrypt` into a buffer of 32 bytes. -/
  scrypt : Bytes → Bytes → ScryptParams → Option DerivedKey
  encrypt : DerivedKey → XNonce → Bytes → Option Bytes
  decrypt : DerivedKey → XNonce → Bytes → Option Bytes
  decrypt_encrypt : ∀ key nonce plain cipher,
    encrypt key nonce plain = some cipher → decrypt key nonce cipher = some plain

/-- `?` on a result whose error becomes `e`. -/
def orErr {α : Type} (e : KeystoreError) : Option α → Except Abort α
  | some a => .ok a
  | none => .error (.err e)

/-- `nonce_array.copy_from_slice(bytes)`. -/
def copyNonce (bytes : Bytes) : Except Abort XNonce :=
  if h : bytes.length = 24 then .ok ⟨bytes, h⟩ else .error (.panic .copyFromSlice)

/-- `u32::ilog2`. -/
def ilog2 (n : UInt32) : Except Abort UInt8 :=
  if n = 0 then .error (.panic .ilog2) else .ok (UInt8.ofNat n.toNat.log2)

variable (L : Libraries) (P : KeystoreCiphers)

/-- The code over the second half of the key and the ciphertext. -/
def keystoreMac (key : DerivedKey) (ciphertext : Bytes) : Text :=
  hexEncode (L.keccak256 ((key.1.drop 16).take 16 ++ ciphertext))

namespace Keystore

/-- The salt, the nonce and the id are drawn at random. -/
def new (salt : Bytes) (nonce : XNonce) (id : Text) (privateKey password publicKey : Bytes) :
    Except Abort Keystore := do
  let params ← orErr .scryptParams (P.scryptParams 18 8 1 32)
  let derivedKey ← orErr .scryptOutputLen (P.scrypt password salt params)
  let ciphertext ← orErr .aeadError (P.encrypt derivedKey nonce privateKey)
  return {
    address := hexEncode (publicKeyToAddress L publicKey).1
    publicKey := hexEncode publicKey
    crypto := {
      cipher := "xchacha20poly1305".toList
      ciphertext := hexEncode ciphertext
      cipherparams := ⟨hexEncode nonce.1⟩
      kdf := "scrypt".toList
      kdfparams := { dklen := 32, n := 262144, p := 1, r := 8, salt := hexEncode salt }
      mac := keystoreMac L derivedKey ciphertext }
    id
    version := 4 }

/-- The second half of `decrypt`: from the parameters of `scrypt` on. -/
def unlock (keystore : Keystore) (password salt : Bytes) (nonce : XNonce) (ciphertext : Bytes)
    (logN : UInt8) : Except Abort Bytes := do
  let params ← orErr .scryptParams
    (P.scryptParams logN keystore.crypto.kdfparams.r keystore.crypto.kdfparams.p 32)
  let derivedKey ← orErr .scryptOutputLen (P.scrypt password salt params)
  if keystoreMac L derivedKey ciphertext ≠ keystore.crypto.mac then
    .error (.err .invalidPassword)
  else do
    let decrypted ← orErr .aeadError (P.decrypt derivedKey nonce ciphertext)
    if decrypted.length ≠ privateKeySize then .error (.err .invalidKeyLength)
    else return decrypted

def decrypt (keystore : Keystore) (password : Bytes) : Except Abort Bytes :=
  if keystore.version < 4 then .error (.err (.unsupportedVersion keystore.version))
  else do
    let salt ← orErr .hex (hexDecode keystore.crypto.kdfparams.salt)
    let nonceBytes ← orErr .hex (hexDecode keystore.crypto.cipherparams.nonce)
    let nonce ← copyNonce nonceBytes
    let ciphertext ← orErr .hex (hexDecode keystore.crypto.ciphertext)
    let logN ← ilog2 keystore.crypto.kdfparams.n
    keystore.unlock L P password salt nonce ciphertext logN

end Keystore

/-! ## Writing and reading back -/

namespace KeystoreLemmas

variable {α β : Type} {e : KeystoreError}

theorem orErr_eq_ok {x : Option α} {a : α} : orErr e x = .ok a ↔ x = some a := by
  cases x <;> simp [orErr]

@[simp] theorem orErr_some (a : α) : orErr e (some a) = .ok a := rfl

theorem copyNonce_nonce (nonce : XNonce) : copyNonce nonce.1 = .ok nonce := dif_pos nonce.2

end KeystoreLemmas

open KeystoreLemmas

/-- A keystore gives back the private key for the password it was made with. -/
theorem decrypt_new {L : Libraries} {P : KeystoreCiphers} {salt : Bytes} {nonce : XNonce}
    {id : Text} {privateKey password publicKey : Bytes} {keystore : Keystore}
    (hlength : privateKey.length = privateKeySize)
    (h : Keystore.new L P salt nonce id privateKey password publicKey = .ok keystore) :
    keystore.decrypt L P password = .ok privateKey := by
  obtain ⟨params, hparams, h⟩ := bind_eq_ok.mp h
  obtain ⟨key, hkey, h⟩ := bind_eq_ok.mp h
  obtain ⟨cipher, hcipher, h⟩ := bind_eq_ok.mp h
  cases h
  rw [orErr_eq_ok] at hparams hkey hcipher
  have hlog : ilog2 262144 = .ok 18 := rfl
  have hdecrypt := P.decrypt_encrypt _ _ _ _ hcipher
  simp only [Keystore.decrypt, Keystore.unlock, hexDecode_hexEncode, orErr_some, bind, Except.bind,
    copyNonce_nonce, hlog, hparams, hkey, hdecrypt, hlength]
  rw [if_neg (by decide), if_neg (not_not.mpr rfl), if_neg (not_not.mpr rfl)]
  rfl

/-! ## Malformed files -/

/-- The call ends with a result or an error, and not in a panic. -/
def Returns {α : Type} (r : Except Abort α) : Prop :=
  (∃ a, r = .ok a) ∨ ∃ e, r = .error (.err e)

namespace KeystoreLemmas

variable {f : α → Except Abort β}

theorem returns_ok (a : α) : Returns (.ok a) := .inl ⟨a, rfl⟩

theorem returns_err : Returns (.error (.err e) : Except Abort α) := .inr ⟨e, rfl⟩

theorem not_returns_panic (cause : Panic) : ¬Returns (.error (.panic cause) : Except Abort α) := by
  rintro (⟨a, h⟩ | ⟨e, h⟩)
  · cases h
  · cases h

theorem returns_orErr_bind {x : Option α} :
    Returns (orErr e x >>= f) ↔ ∀ a, x = some a → Returns (f a) := by
  cases x with
  | none => exact ⟨fun _ _ h => (by cases h), fun _ => returns_err⟩
  | some a =>
    refine ⟨fun h b hb => ?_, fun h => h a rfl⟩
    cases hb
    exact h

theorem returns_copyNonce_bind {bytes : Bytes} {f : XNonce → Except Abort β} :
    Returns (copyNonce bytes >>= f) ↔ ∃ h : bytes.length = 24, Returns (f ⟨bytes, h⟩) := by
  by_cases h : bytes.length = 24
  · rw [copyNonce, dif_pos h]
    exact ⟨fun hf => ⟨h, hf⟩, fun ⟨_, hf⟩ => hf⟩
  · rw [copyNonce, dif_neg h]
    exact ⟨fun hpanic => (not_returns_panic _ hpanic).elim, fun ⟨hlength, _⟩ => (h hlength).elim⟩

theorem returns_ilog2_bind {n : UInt32} {f : UInt8 → Except Abort β} (hf : ∀ k, Returns (f k)) :
    Returns (ilog2 n >>= f) ↔ n ≠ 0 := by
  by_cases h : n = 0
  · rw [ilog2, if_pos h]
    exact ⟨fun hpanic => (not_returns_panic _ hpanic).elim, fun hn => (hn h).elim⟩
  · rw [ilog2, if_neg h]
    exact ⟨fun _ => h, fun _ => hf _⟩

/-- Behind the two conversions nothing panics. -/
theorem returns_unlock {L : Libraries} {P : KeystoreCiphers} (keystore : Keystore)
    (password salt : Bytes) (nonce : XNonce) (ciphertext : Bytes) (logN : UInt8) :
    Returns (keystore.unlock L P password salt nonce ciphertext logN) := by
  refine returns_orErr_bind.mpr fun params _ => returns_orErr_bind.mpr fun key _ => ?_
  split
  · exact returns_err
  · refine returns_orErr_bind.mpr fun decrypted _ => ?_
    split
    · exact returns_err
    · exact returns_ok _

end KeystoreLemmas

/-- `decrypt` returns a key or an error, for any password, if and only if the version is
too old, or the nonce has 24 bytes and `n` is not 0, as far as the hexadecimal texts that
are read before can be read. -/
theorem decrypt_returns_iff (L : Libraries) (P : KeystoreCiphers) (keystore : Keystore)
    (password : Bytes) :
    Returns (keystore.decrypt L P password) ↔
      keystore.version < 4 ∨
        ∀ salt nonce, hexDecode keystore.crypto.kdfparams.salt = some salt →
          hexDecode keystore.crypto.cipherparams.nonce = some nonce →
          nonce.length = 24 ∧ ∀ ciphertext,
            hexDecode keystore.crypto.ciphertext = some ciphertext →
            keystore.crypto.kdfparams.n ≠ 0 := by
  unfold Keystore.decrypt
  split
  · next hversion => exact ⟨fun _ => .inl hversion, fun _ => returns_err⟩
  · next hversion =>
    simp only [returns_orErr_bind, returns_copyNonce_bind,
      returns_ilog2_bind (returns_unlock _ _ _ _ _), hversion, false_or, exists_prop]
    exact ⟨fun h salt nonce hsalt => h salt hsalt nonce,
      fun h salt hsalt nonce => h salt nonce hsalt⟩

def toyCiphers : KeystoreCiphers where
  ScryptParams := Unit
  scryptParams _ _ _ _ := some ()
  scrypt _ _ _ := some ⟨List.replicate 32 0, List.length_replicate⟩
  encrypt _ _ plain := some plain
  decrypt _ _ cipher := some cipher
  decrypt_encrypt _ _ _ _ h := h.symm

/-- A file with the given nonce and parameter `n`. -/
def keystoreFile (nonce : Text) (n : UInt32) : Keystore where
  address := []
  publicKey := []
  crypto := ⟨[], [], ⟨nonce⟩, [], ⟨32, n, 1, 8, []⟩, []⟩
  id := []
  version := 4

/-- A nonce of 23 bytes, and `n = 0` with a nonce of 24 bytes. -/
theorem decrypt_panics :
    (keystoreFile (List.replicate 46 '0') 262144).decrypt toyLibraries toyCiphers [] =
        .error (.panic .copyFromSlice) ∧
      (keystoreFile (List.replicate 48 '0') 0).decrypt toyLibraries toyCiphers [] =
        .error (.panic .ilog2) :=
  ⟨rfl, rfl⟩

end EviceChain.Sequencer
