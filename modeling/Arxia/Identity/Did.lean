import Arxia.Core.Crypto
import Arxia.Rust.Base58
import Arxia.Rust.Bytes

/-!
# Decentralized identifiers

A DID is the prefix `did:arxia:` and the base58 spelling of the Blake3 hash of a public key. The
key cannot be read off it, so a DID that arrives as text is paired with a key that arrives
separately, and the question is whether the DID could have been issued to that key. It can be
answered because the notation has no slack: a hash has one DID, and the strict parser accepts
nothing else.

The `bs58` crate is not part of the repository. `Bs58` takes its two functions with their
documented behaviour; the error texts are its own.
-/

namespace Arxia

open Rust

/-- The `bs58` crate in its default alphabet. Errors are their `Display` texts. -/
structure Bs58 where
  /-- `bs58::encode(bytes).into_string()`. -/
  encode : List UInt8 → String
  encode_eq : ∀ bs, encode bs = Base58.encode bs
  /-- `bs58::decode(s).into_vec()`. -/
  decode : String → Except String (List UInt8)
  decode_eq_ok : ∀ s bs, decode s = .ok bs ↔ Base58.decode s.toList = some bs

/-- The crate with one error text. -/
def Reference.bs58 : Bs58 where
  encode := Base58.encode
  encode_eq := fun _ ↦ rfl
  decode := fun s ↦ okOr (Base58.decode s.toList) "provided string contained invalid character"
  decode_eq_ok := fun _ _ ↦ okOr_eq_ok

/-- Required prefix for every Arxia DID string. -/
def DID_PREFIX : String := "did:arxia:"

/-- Length in bytes of the decoded identifier of a DID. -/
def DID_IDENTIFIER_BYTE_LEN : ℕ := 32

/-- An Arxia decentralized identifier built from a validated public key. -/
structure ArxiaDid where
  did : String
  publicKey : AccountId
  deriving DecidableEq

/-- The error of a string without the prefix. -/
def missingPrefix : ArxiaError :=
  .invalidKey ("DID missing required prefix '" ++ DID_PREFIX ++ "'")

namespace ArxiaDid

/-- Create a new DID from an Ed25519 public key. -/
def fromPublicKey (K : Crypto) (B : Bs58) (publicKey : AccountId) : Except ArxiaError ArxiaDid := do
  K.validatePubkeyStrict publicKey
  let hash := K.blake3 publicKey.toList
  let encoded := B.encode hash.toList
  pure { did := DID_PREFIX ++ encoded, publicKey }

/-- The identifier portion, or the whole string where the prefix is absent. -/
def identifier (d : ArxiaDid) : String := (stripPrefix DID_PREFIX d.did).getD d.did

/-- The identifier portion, or an error where the prefix is absent. -/
def identifierStrict (d : ArxiaDid) : Except ArxiaError String :=
  okOr (stripPrefix DID_PREFIX d.did) missingPrefix

end ArxiaDid

/-- A DID parsed from an external string, with the decoded identifier hash. -/
structure ParsedArxiaDid where
  did : String
  identifierHash : BlockHash
  deriving DecidableEq

namespace ParsedArxiaDid

/-- The identifier portion. `none` is the panic of `expect`. -/
def identifier (d : ParsedArxiaDid) : Option String := stripPrefix DID_PREFIX d.did

/-- Whether the hash of `pubkey` is the one in the DID. -/
def matchesPubkey (K : Crypto) (d : ParsedArxiaDid) (pubkey : AccountId) : Bool :=
  d.identifierHash = K.blake3 pubkey.toList

end ParsedArxiaDid

/-- Parse a DID string. -/
def parseDid (B : Bs58) (s : String) : Except ArxiaError ParsedArxiaDid := do
  let identifierB58 ← okOr (stripPrefix DID_PREFIX s) missingPrefix
  let bytes ← (B.decode identifierB58).mapError fun e ↦
    .invalidKey ("DID identifier is not valid base58: " ++ e)
  let identifierHash ← okOr (toArray DID_IDENTIFIER_BYTE_LEN bytes) (.invalidKey
    ("DID identifier must decode to " ++ toString DID_IDENTIFIER_BYTE_LEN ++ " bytes, got " ++
      toString bytes.length))
  pure { did := s, identifierHash }

variable {K : Crypto} {B : Bs58} {s : String}

/-! ## One spelling -/

theorem Bs58.decode_eq_ok_iff {t : String} {bs : List UInt8} :
    B.decode t = .ok bs ↔ t = B.encode bs := by
  rw [B.decode_eq_ok, Base58.decode_eq_some, B.encode_eq, Base58.encode, ← String.toList_inj,
    String.toList_ofList, eq_comm]

/-- The DID of a hash. -/
def didOf (B : Bs58) (hash : BlockHash) : String := DID_PREFIX ++ B.encode hash.toList

theorem parseDid_eq_ok {p : ParsedArxiaDid} :
    parseDid B s = .ok p ↔ p.did = s ∧ s = didOf B p.identifierHash := by
  simp only [parseDid, bind_eq_ok, okOr_eq_ok, mapError_eq_ok, toArray_eq_some, pure, Except.pure,
    Except.ok.injEq, stripPrefix_eq_some, Bs58.decode_eq_ok_iff, didOf]
  constructor
  · rintro ⟨t, rfl, bs, rfl, hash, rfl, rfl⟩
    exact ⟨rfl, rfl⟩
  · rintro ⟨rfl, h⟩
    exact ⟨_, h, _, rfl, _, rfl, rfl⟩

/-- No two hashes share a DID. -/
theorem didOf_injective (B : Bs58) : Function.Injective (didOf B) := by
  intro hash hash' h
  have hp : parseDid B (didOf B hash) = .ok ⟨didOf B hash, hash⟩ := parseDid_eq_ok.mpr ⟨rfl, rfl⟩
  have hp' : parseDid B (didOf B hash) = .ok ⟨didOf B hash, hash'⟩ := parseDid_eq_ok.mpr ⟨rfl, h⟩
  exact congrArg ParsedArxiaDid.identifierHash (Except.ok.inj (hp.symm.trans hp'))

/-- A DID has the prefix and 32 to 44 characters of base58, all of them single bytes. -/
theorem length_didOf (B : Bs58) (hash : BlockHash) :
    42 ≤ (asBytes (didOf B hash)).length ∧ (asBytes (didOf B hash)).length ≤ 54 := by
  have hbytes : hash.toList.length = 32 := Vector.length_toList
  have hprefix : (asBytes DID_PREFIX).length = 10 := by decide +kernel
  have hle := Base58.length_le_length_encodeChars hash.toList
  have hge : (Base58.encodeChars hash.toList).length ≤ 44 :=
    Base58.length_encodeChars_le (by rw [hbytes]; decide)
  rw [didOf, asBytes_append, List.length_append, hprefix, B.encode_eq,
    Base58.length_asBytes_encode]
  omega

/-! ## What is refused, and why -/

theorem parseDid_of_no_prefix (h : stripPrefix DID_PREFIX s = none) :
    parseDid B s = .error missingPrefix := by
  rw [parseDid, h]
  rfl

/-- What follows the prefix is not base58, and one of its characters shows it. -/
theorem parseDid_of_not_base58 {t e : String} (h : B.decode t = .error e) :
    parseDid B (DID_PREFIX ++ t) =
        .error (.invalidKey ("DID identifier is not valid base58: " ++ e)) ∧
      ∃ c ∈ t.toList, c ∉ Base58.alphabet := by
  constructor
  · rw [parseDid, stripPrefix_eq_some.mpr rfl]
    change ((B.decode t).mapError _ >>= _) = _
    rw [h]
    rfl
  · by_contra hc
    push Not at hc
    obtain ⟨bs, hbs⟩ := Base58.exists_decode.mpr hc
    rw [(B.decode_eq_ok t bs).mpr hbs] at h
    cases h

/-- What follows the prefix spells something of another length. -/
theorem parseDid_of_length_ne {bs : List UInt8} (h : bs.length ≠ 32) :
    parseDid B (DID_PREFIX ++ B.encode bs) = .error (.invalidKey
      ("DID identifier must decode to 32 bytes, got " ++ toString bs.length)) := by
  rw [parseDid, stripPrefix_eq_some.mpr rfl]
  change ((B.decode (B.encode bs)).mapError _ >>= _) = _
  rw [Bs58.decode_eq_ok_iff.mpr rfl]
  change (okOr (toArray 32 bs) _ >>= _) = _
  rw [toArray, dif_neg h]
  rfl

/-- **Every string is a DID, or fails on the first of the three checks it does not pass.** A DID is
42 to 54 bytes long and yields its identifier without a panic. -/
theorem parseDid_cases (B : Bs58) (s : String) :
    (∃ hash, s = didOf B hash ∧ parseDid B s = .ok ⟨s, hash⟩ ∧
        (⟨s, hash⟩ : ParsedArxiaDid).identifier = some (B.encode hash.toList) ∧
        42 ≤ (asBytes s).length ∧ (asBytes s).length ≤ 54) ∨
      ((∀ t, s ≠ DID_PREFIX ++ t) ∧ parseDid B s = .error missingPrefix) ∨
      (∃ t c e, s = DID_PREFIX ++ t ∧ c ∈ t.toList ∧ c ∉ Base58.alphabet ∧
        parseDid B s = .error (.invalidKey ("DID identifier is not valid base58: " ++ e))) ∨
      ∃ bs, s = DID_PREFIX ++ B.encode bs ∧ bs.length ≠ 32 ∧
        parseDid B s = .error (.invalidKey
          ("DID identifier must decode to 32 bytes, got " ++ toString bs.length)) := by
  cases hprefix : stripPrefix DID_PREFIX s with
  | none =>
    refine .inr (.inl ⟨fun t ht ↦ ?_, parseDid_of_no_prefix hprefix⟩)
    rw [stripPrefix_eq_some.mpr ht] at hprefix
    cases hprefix
  | some t =>
    obtain rfl := stripPrefix_eq_some.mp hprefix
    cases hdecode : B.decode t with
    | error e =>
      obtain ⟨herror, c, hc, halphabet⟩ := parseDid_of_not_base58 hdecode
      exact .inr (.inr (.inl ⟨t, c, e, rfl, hc, halphabet, herror⟩))
    | ok bs =>
      obtain rfl := Bs58.decode_eq_ok_iff.mp hdecode
      by_cases hlength : bs.length = 32
      · obtain ⟨hash, rfl⟩ : ∃ hash : BlockHash, hash.toList = bs := exists_vector hlength
        exact .inl ⟨hash, rfl, parseDid_eq_ok.mpr ⟨rfl, rfl⟩, stripPrefix_eq_some.mpr rfl,
          length_didOf B hash⟩
      · exact .inr (.inr (.inr ⟨bs, rfl, hlength, parseDid_of_length_ne hlength⟩))

/-! ## Issued and parsed -/

theorem ArxiaDid.fromPublicKey_eq_ok {key : AccountId} {d : ArxiaDid} :
    fromPublicKey K B key = .ok d ↔
      K.validatePubkeyStrict key = .ok () ∧ d = ⟨didOf B (K.blake3 key.toList), key⟩ := by
  simp only [fromPublicKey, bind_eq_ok, pure, Except.pure, Except.ok.injEq, didOf]
  constructor
  · rintro ⟨_, hvalid, rfl⟩
    exact ⟨hvalid, rfl⟩
  · rintro ⟨hvalid, rfl⟩
    exact ⟨(), hvalid, rfl⟩

/-- On what `fromPublicKey` builds the two accessors agree; the lenient one needs no fallback. -/
theorem ArxiaDid.identifier_of_issued {key : AccountId} {d : ArxiaDid}
    (h : fromPublicKey K B key = .ok d) :
    d.identifier = B.encode (K.blake3 key.toList).toList ∧
      d.identifierStrict = .ok d.identifier := by
  obtain ⟨_, rfl⟩ := fromPublicKey_eq_ok.mp h
  have hstrip : stripPrefix DID_PREFIX (didOf B (K.blake3 key.toList)) =
      some (B.encode (K.blake3 key.toList).toList) := stripPrefix_eq_some.mpr rfl
  rw [identifierStrict, identifier, hstrip]
  exact ⟨rfl, rfl⟩

/-- **A DID that arrives as text is the one issued to a key exactly when it parses and matches the
key.** -/
theorem issued_iff_matches (K : Crypto) (B : Bs58) (s : String) (key : AccountId) :
    ArxiaDid.fromPublicKey K B key = .ok ⟨s, key⟩ ↔
      K.validatePubkeyStrict key = .ok () ∧
        ∃ p, parseDid B s = .ok p ∧ p.matchesPubkey K key = true := by
  rw [ArxiaDid.fromPublicKey_eq_ok]
  refine and_congr_right fun _ ↦ ?_
  simp only [ArxiaDid.mk.injEq, and_true, ParsedArxiaDid.matchesPubkey, decide_eq_true_iff,
    parseDid_eq_ok]
  constructor
  · rintro rfl
    exact ⟨⟨_, _⟩, ⟨rfl, rfl⟩, rfl⟩
  · rintro ⟨p, ⟨_, rfl⟩, hmatch⟩
    rw [hmatch]

example : parseDid Reference.bs58 "did:arxia:12y9CMs2JMjmEbbyHnQ8FwGCXuQfrPd5SYXYQeCVswrg" =
    .ok ⟨"did:arxia:12y9CMs2JMjmEbbyHnQ8FwGCXuQfrPd5SYXYQeCVswrg",
      Reference.checksum (List.replicate 32 7)⟩ := by
  decide +kernel

end Arxia
