import Arxia.Core.Error
import Arxia.Rust.Outcome
import Arxia.Rust.Text

/-!
# Cryptographic primitives

The `hex`, `blake3` and `ed25519-dalek` crates are not part of the repository; `Crypto` takes the
functions it calls as fields. Nothing is assumed of the hash or of the signature scheme here:
collision-freedom is a hypothesis of the results that need it, and a key holder can sign anything.
Only `hex::decode` comes with its documented behaviour, since several results turn on which strings
it accepts.

`verify` and `validatePubkeyStrict` are the repository's own wrappers from `arxia-crypto`.
-/

namespace Arxia

open Rust

/-- Ed25519 public key (32 bytes). -/
abbrev AccountId := Vector UInt8 32

/-- Blake3 hash output (32 bytes). -/
abbrev BlockHash := Vector UInt8 32

/-- Ed25519 signature (64 bytes). -/
abbrev SignatureBytes := Vector UInt8 64

/-- An Ed25519 signing key: the key it is verified with, and the signatures it makes. -/
structure SigningKey where
  verifyingKey : AccountId
  sign : List UInt8 → SignatureBytes

/-- `bytes.try_into()` for an array of length `n`. -/
def toArray (n : ℕ) (bs : List UInt8) : Option (Vector UInt8 n) :=
  if h : bs.length = n then some ⟨bs.toArray, by rw [List.size_toArray, h]⟩ else none

theorem toArray_eq_some {n : ℕ} {bs : List UInt8} {v : Vector UInt8 n} :
    toArray n bs = some v ↔ v.toList = bs := by
  rw [toArray]
  split
  · rw [Option.some_inj]
    constructor
    · rintro rfl
      rfl
    · rintro rfl
      rfl
  · rename_i h
    simp only [reduceCtorEq, false_iff]
    rintro rfl
    exact h (by simp)

/-- The external functions the cryptographic code calls. Errors are their `Display` texts. -/
structure Crypto where
  /-- `hex::decode`. -/
  hexDecode : String → Except String (List UInt8)
  /-- It accepts exactly the strings of digit pairs, in either case, and returns their bytes. -/
  hexDecode_eq_ok : ∀ s bs, hexDecode s = .ok bs ↔ Hex.decode s.toList = some bs
  /-- `blake3::hash`. -/
  blake3 : List UInt8 → BlockHash
  /-- `VerifyingKey::from_bytes`; the key is determined by its bytes. -/
  fromBytes : AccountId → Except String Unit
  /-- `VerifyingKey::is_weak`. -/
  isWeak : AccountId → Bool
  /-- `VerifyingKey::verify_strict`. -/
  verifyStrict : AccountId → List UInt8 → SignatureBytes → Except String Unit

namespace Crypto

variable (K : Crypto)

/-- Verify an Ed25519 signature over raw bytes. -/
def verify (pubkey : AccountId) (data : List UInt8) (signature : SignatureBytes) :
    Except ArxiaError Unit := do
  (K.fromBytes pubkey).mapError .invalidKey
  (K.verifyStrict pubkey data signature).mapError .signatureInvalid

/-- Strict parse-time validation of a 32-byte Ed25519 public key. -/
def validatePubkeyStrict (pubkey : AccountId) : Except ArxiaError Unit := do
  (K.fromBytes pubkey).mapError fun e ↦ .invalidKey ("not a valid Ed25519 point: " ++ e)
  ensure (K.isWeak pubkey = false)
    (.invalidKey "low-order Ed25519 public key (weak / small-subgroup point)")

/-- The key an account string names: `hex::decode` followed by the conversion to 32 bytes, as
`compute_hash` and `verify_block` both spell it out. -/
def accountKey (account : String) : Except ArxiaError AccountId := do
  let bytes ← (K.hexDecode account).mapError .invalidKey
  okOr (toArray 32 bytes) (.invalidKey "bad key length")

variable {K}

theorem accountKey_eq_ok {account : String} {key : AccountId} :
    K.accountKey account = .ok key ↔ Hex.decode account.toList = some key.toList := by
  rw [accountKey, bind_eq_ok]
  simp only [mapError_eq_ok, K.hexDecode_eq_ok, okOr_eq_ok, toArray_eq_some]
  constructor
  · rintro ⟨bs, hbs, rfl⟩
    exact hbs
  · exact fun h ↦ ⟨_, h, rfl⟩

/-- A decodable account string is 64 single-byte characters. -/
theorem length_of_accountKey {account : String} {key : AccountId}
    (h : K.accountKey account = .ok key) :
    account.toList.length = 64 ∧ ∀ c ∈ account.toList, c.utf8Size = 1 := by
  obtain ⟨hlen, hall⟩ := Hex.decode_eq_some (accountKey_eq_ok.mp h)
  rw [Vector.length_toList] at hlen
  exact ⟨hlen, fun c hc ↦ Hex.utf8Size_of_digit (hall c hc)⟩

end Crypto

end Arxia

/-! ## A reference instance

Hexadecimal as the `hex` crate reads it, and stand-ins for the two primitives: a checksum for
Blake3, and a signature that joins the key to the checksum of the message. The stand-ins are not
secure and nothing pretends they are; what matters is that a key holder can sign every message, as
with the real scheme, and that is `verify_sign`. Concrete runs of the other files are runs of this
instance. -/

namespace Arxia.Reference

open Rust

/-- A 32-byte checksum: the message read as a number in base 257. -/
def checksum (bs : List UInt8) : BlockHash :=
  let n := bs.foldl (fun acc b ↦ (257 * acc + b.toNat + 1) % 2 ^ 256) 0
  Vector.ofFn fun i ↦ UInt8.ofNat (n / 256 ^ i.val)

def hexDecode (s : String) : Except String (List UInt8) :=
  match Hex.decode s.toList with
  | some bs => .ok bs
  | none => .error "Invalid hexadecimal string"

theorem hexDecode_eq_ok (s : String) (bs : List UInt8) :
    hexDecode s = .ok bs ↔ Hex.decode s.toList = some bs := by
  rw [hexDecode]
  cases Hex.decode s.toList <;> simp

/-- The signature of a message. -/
def sign (key : AccountId) (data : List UInt8) : SignatureBytes := key ++ checksum data

/-- The instance. -/
def crypto : Crypto where
  hexDecode := hexDecode
  hexDecode_eq_ok := hexDecode_eq_ok
  blake3 := checksum
  fromBytes := fun _ ↦ .ok ()
  isWeak := fun _ ↦ false
  verifyStrict := fun key data sig ↦
    if sig = sign key data then .ok () else .error "signature error"

theorem verifyStrict_sign (key : AccountId) (data : List UInt8) :
    crypto.verifyStrict key data (sign key data) = .ok () := by
  simp only [crypto, if_true]

/-- **A key holder can sign every message.** -/
theorem verify_sign (key : AccountId) (data : List UInt8) :
    crypto.verify key data (sign key data) = .ok () := by
  rw [Crypto.verify, bind_eq_ok]
  exact ⟨(), rfl, mapError_eq_ok.mpr (verifyStrict_sign key data)⟩

end Arxia.Reference
