import Arxia.Core.Crypto
import Arxia.Rust.Bytes
import Arxia.Rust.UInt64

/-!
# Signed transport messages

The signed bytes of a message are a domain prefix, the key of the sender, and the other fields, with
the lengths of the two that vary before them. They determine the key, but not the string that
`«from»` spells it with: `hex::decode` reads either case. And a length that does not fit 32 bits has
no bytes at all, which `sign` does not expect.
-/

namespace Arxia

open Rust

/-- Domain-separation prefix for the signature on a `SignedTransportMessage`. -/
def TRANSPORT_MESSAGE_DOMAIN : List UInt8 := asBytes "arxia-transport-msg-v1"

/-- A message sent over the transport layer. -/
structure TransportMessage where
  /-- Sender identifier (hex-encoded public key). -/
  «from» : String
  /-- Recipient identifier (hex-encoded public key, or empty for broadcast). -/
  «to» : String
  /-- Raw payload bytes. -/
  payload : List UInt8
  /-- Timestamp when the message was created (ms since epoch). -/
  timestamp : UInt64
  deriving DecidableEq

/-- A `TransportMessage` with a signature that authenticates the `«from»` field. -/
structure SignedTransportMessage where
  message : TransportMessage
  signature : SignatureBytes
  deriving DecidableEq

/-- Errors of `SignedTransportMessage`. -/
inductive TransportError
  | invalidFromField
  | signatureInvalid
  deriving DecidableEq

namespace SignedTransportMessage

/-- Build the canonical signed bytes for a transport message. -/
def canonicalBytes (K : Crypto) (msg : TransportMessage) : Except TransportError (List UInt8) := do
  let fromPkVec ← (K.hexDecode msg.«from»).mapError fun _ ↦ .invalidFromField
  ensure (fromPkVec.length = 32) .invalidFromField
  ensure ((asBytes msg.«to»).length ≤ u32Max) .invalidFromField
  ensure (msg.payload.length ≤ u32Max) .invalidFromField
  .ok (TRANSPORT_MESSAGE_DOMAIN ++ fromPkVec ++ leBytes 4 (asBytes msg.«to»).length ++
    asBytes msg.«to» ++ leBytes 4 msg.payload.length ++ msg.payload ++ msg.timestamp.toBeBytes)

/-- Sign a transport message: `none` is the panic of `expect`. -/
def sign (K : Crypto) (signingKey : SigningKey) («to» : String) (payload : List UInt8)
    (timestamp : UInt64) : Option SignedTransportMessage := do
  let pk := signingKey.verifyingKey
  let message : TransportMessage := { «from» := Hex.encode pk.toList, «to», payload, timestamp }
  let canonical ← (canonicalBytes K message).toOption
  some { message, signature := signingKey.sign canonical }

/-- Verify the signature on a received transport message. -/
def verify (K : Crypto) (signed : SignedTransportMessage) : Except TransportError Unit := do
  let fromPkVec ← (K.hexDecode signed.message.«from»).mapError fun _ ↦ .invalidFromField
  let fromPk ← okOr (toArray 32 fromPkVec) .invalidFromField
  let canonical ← canonicalBytes K signed.message
  (K.verify fromPk canonical signed.signature).mapError fun _ ↦ .signatureInvalid

/-! ## The signed bytes -/

/-- The string is the notation of a public key: 64 lowercase digits. -/
def IsPubkeyHex (s : String) : Prop := s.length = 64 ∧ ∀ c ∈ s.toList, Hex.IsLower c

/-- What follows the prefix. -/
def encode (key : AccountId) (msg : TransportMessage) : List UInt8 :=
  key.toList ++ (leBytes 4 (asBytes msg.«to»).length ++ (asBytes msg.«to» ++
    (leBytes 4 msg.payload.length ++ (msg.payload ++ msg.timestamp.toBeBytes))))

variable {K : Crypto} {m m' : TransportMessage} {bytes : List UInt8} {key key' : AccountId}

theorem canonicalBytes_eq_ok : canonicalBytes K m = .ok bytes ↔
    ∃ key : AccountId, Hex.decode m.«from».toList = some key.toList ∧
      (asBytes m.«to»).length ≤ u32Max ∧ m.payload.length ≤ u32Max ∧
      bytes = TRANSPORT_MESSAGE_DOMAIN ++ encode key m := by
  simp only [canonicalBytes, bind_eq_ok, mapError_eq_ok, ensure_eq_ok, K.hexDecode_eq_ok]
  constructor
  · rintro ⟨pk, hdecode, ⟨⟩, hlength, ⟨⟩, hto, ⟨⟩, hpayload, hbytes⟩
    obtain ⟨key, rfl⟩ := exists_vector hlength
    cases hbytes
    exact ⟨key, hdecode, hto, hpayload, by simp [encode]⟩
  · rintro ⟨key, hdecode, hto, hpayload, rfl⟩
    exact ⟨_, hdecode, ⟨⟩, Vector.length_toList, ⟨⟩, hto, ⟨⟩, hpayload, by simp [encode]⟩

/-- A field with its length before it ends where it ends. -/
theorem length_prefix_inj {field field' rest rest' : List UInt8} (h : field.length ≤ u32Max)
    (h' : field'.length ≤ u32Max)
    (heq : leBytes 4 field.length ++ (field ++ rest) =
      leBytes 4 field'.length ++ (field' ++ rest')) : field = field' ∧ rest = rest' := by
  have hmax : u32Max < 256 ^ 4 := by decide
  obtain ⟨hlength, hrest⟩ := List.append_inj heq (by rw [length_leBytes, length_leBytes])
  exact List.append_inj hrest (leBytes_inj (by omega) (by omega) hlength)

/-- **The signed bytes** determine the key of the sender and the other fields. -/
theorem encode_inj (hto : (asBytes m.«to»).length ≤ u32Max) (hpayload : m.payload.length ≤ u32Max)
    (hto' : (asBytes m'.«to»).length ≤ u32Max) (hpayload' : m'.payload.length ≤ u32Max)
    (h : encode key m = encode key' m') :
    key = key' ∧ m.«to» = m'.«to» ∧ m.payload = m'.payload ∧ m.timestamp = m'.timestamp := by
  obtain ⟨hkey, hrest⟩ := List.append_inj h (by rw [Vector.length_toList, Vector.length_toList])
  obtain ⟨hto, hrest⟩ := length_prefix_inj hto hto' hrest
  obtain ⟨hpayload, hrest⟩ := length_prefix_inj hpayload hpayload' hrest
  exact ⟨Vector.toList_inj.mp hkey, asBytes_inj.mp hto, hpayload,
    UInt64.toBeBytes_injective hrest⟩

/-! ## The notation of the key -/

/-- Of a string that is read as a key, the notation is the lowercase one exactly when there is no
uppercase letter in it. -/
theorem isPubkeyHex_iff {s : String} (h : Hex.decode s.toList = some key.toList) :
    IsPubkeyHex s ↔ ∀ c ∈ s.toList, c.isUpper = false := by
  obtain ⟨hlength, hdigits⟩ := Hex.decode_eq_some h
  rw [Vector.length_toList, String.length_toList] at hlength
  rw [IsPubkeyHex, and_iff_right hlength]
  exact forall₂_congr fun c hc ↦ Hex.isLower_iff_isUpper_eq_false (hdigits c hc)

theorem eq_encode_of_isPubkeyHex {s : String} (h : Hex.decode s.toList = some key.toList)
    (hlower : IsPubkeyHex s) : s = Hex.encode key.toList := by
  have hlength : s.toList.length = 2 * 32 := String.length_toList.trans hlower.1
  obtain ⟨bs, -, hchars⟩ := Hex.exists_encodeChars hlength hlower.2
  rw [hchars, Hex.decode_encodeChars, Option.some_inj] at h
  rw [← h, Hex.encode, ← hchars, String.ofList_toList]

/-- Of two messages with the same signed bytes, both have their key in the notation for it exactly
when there is no uppercase letter in either; and then they are the same message. -/
theorem eq_and_isPubkeyHex_iff (h : canonicalBytes K m = .ok bytes)
    (h' : canonicalBytes K m' = .ok bytes) :
    (m = m' ∧ IsPubkeyHex m.«from» ∧ IsPubkeyHex m'.«from») ↔
      (∀ c ∈ m.«from».toList, c.isUpper = false) ∧
        ∀ c ∈ m'.«from».toList, c.isUpper = false := by
  obtain ⟨key, hkey, hto, hpayload, rfl⟩ := canonicalBytes_eq_ok.mp h
  obtain ⟨key', hkey', hto', hpayload', heq⟩ := canonicalBytes_eq_ok.mp h'
  obtain ⟨rfl, hrest⟩ := encode_inj hto hpayload hto' hpayload' (List.append_cancel_left heq)
  rw [← isPubkeyHex_iff hkey, ← isPubkeyHex_iff hkey', and_iff_right_iff_imp]
  rintro ⟨hlower, hlower'⟩
  have hfrom := eq_encode_of_isPubkeyHex hkey hlower
  rw [← eq_encode_of_isPubkeyHex hkey' hlower'] at hfrom
  obtain ⟨sender, recipient, payload, timestamp⟩ := m
  obtain ⟨sender', recipient', payload', timestamp'⟩ := m'
  obtain ⟨rfl, rfl, rfl⟩ := hrest
  obtain rfl := hfrom
  rfl

/-! ## Signing -/

variable {signingKey : SigningKey} {recipient : String} {payload : List UInt8} {timestamp : UInt64}

/-- **What is signed**: the message under the key, if its lengths fit. -/
theorem sign_eq_some {signed : SignedTransportMessage} :
    sign K signingKey recipient payload timestamp = some signed ↔
      ((asBytes recipient).length ≤ u32Max ∧ payload.length ≤ u32Max) ∧
        ∃ bytes, canonicalBytes K signed.message = .ok bytes ∧ signed =
          ⟨⟨Hex.encode signingKey.verifyingKey.toList, recipient, payload, timestamp⟩,
            signingKey.sign bytes⟩ := by
  have hdecode := Hex.decode_encode signingKey.verifyingKey.toList
  simp only [sign, Option.bind_eq_bind, Option.bind_eq_some_iff, Option.some_inj]
  constructor
  · rintro ⟨bytes, hbytes, rfl⟩
    have hok : canonicalBytes K _ = .ok bytes := toOption_eq_some.mp hbytes
    obtain ⟨-, -, hto, hpayload, -⟩ := canonicalBytes_eq_ok.mp hok
    exact ⟨⟨hto, hpayload⟩, bytes, hok, rfl⟩
  · rintro ⟨-, bytes, hok, rfl⟩
    exact ⟨bytes, toOption_eq_some.mpr hok, rfl⟩

theorem sign_eq_none (h : u32Max < payload.length) :
    sign K signingKey recipient payload timestamp = none := by
  refine Option.eq_none_iff_forall_ne_some.mpr fun signed hsigned ↦ ?_
  exact absurd (sign_eq_some.mp hsigned).1.2 (Nat.not_le_of_lt h)

/-- It verifies. -/
theorem exists_sign_iff (hsign : ∀ data,
      K.verify signingKey.verifyingKey data (signingKey.sign data) = .ok ()) :
    (∃ signed, sign K signingKey recipient payload timestamp = some signed ∧
      signed.verify K = .ok ()) ↔
        (asBytes recipient).length ≤ u32Max ∧ payload.length ≤ u32Max := by
  constructor
  · rintro ⟨signed, hsigned, -⟩
    exact (sign_eq_some.mp hsigned).1
  · rintro ⟨hto, hpayload⟩
    let message : TransportMessage :=
      ⟨Hex.encode signingKey.verifyingKey.toList, recipient, payload, timestamp⟩
    have hdecode := Hex.decode_encode signingKey.verifyingKey.toList
    have hbytes : canonicalBytes K message =
        .ok (TRANSPORT_MESSAGE_DOMAIN ++ encode signingKey.verifyingKey message) :=
      canonicalBytes_eq_ok.mpr ⟨signingKey.verifyingKey, hdecode, hto, hpayload, rfl⟩
    refine ⟨⟨message, _⟩, sign_eq_some.mpr ⟨⟨hto, hpayload⟩, _, hbytes, rfl⟩, ?_⟩
    simp only [verify, bind_eq_ok, mapError_eq_ok, okOr_eq_ok, toArray_eq_some, K.hexDecode_eq_ok]
    exact ⟨_, hdecode, signingKey.verifyingKey, rfl, _, hbytes, hsign _⟩

/-- **Transport signatures bind the whole message** when its key is in lowercase: of two messages
with the same signed bytes, both are in the notation for it and they are the same, exactly when
neither `«from»` has an uppercase letter in it. And signing makes a message that verifies exactly
when the lengths fit 32 bits. -/
theorem binds_iff_lowercase (K : Crypto) :
    (∀ m m' bytes, canonicalBytes K m = .ok bytes → canonicalBytes K m' = .ok bytes →
      ((m = m' ∧ IsPubkeyHex m.«from» ∧ IsPubkeyHex m'.«from») ↔
        (∀ c ∈ m.«from».toList, c.isUpper = false) ∧
          ∀ c ∈ m'.«from».toList, c.isUpper = false)) ∧
    ∀ signingKey recipient payload timestamp,
      (∀ data, K.verify signingKey.verifyingKey data (signingKey.sign data) = .ok ()) →
      ((∃ signed, sign K signingKey recipient payload timestamp = some signed ∧
        signed.verify K = .ok ()) ↔
          (asBytes recipient).length ≤ u32Max ∧ payload.length ≤ u32Max) :=
  ⟨fun _ _ _ ↦ eq_and_isPubkeyHex_iff, fun _ _ _ _ ↦ exists_sign_iff⟩

/-- The key of all ones. -/
def sampleKey : SigningKey where
  verifyingKey := Vector.replicate 32 0xff
  sign := Reference.sign (Vector.replicate 32 0xff)

/-- A message of it, with its key in this digit. -/
def sampleMessage (c : Char) : TransportMessage :=
  ⟨String.ofList (List.replicate 64 c), "bob", [1, 2, 3], 42⟩

theorem canonicalBytes_sampleMessage {c : Char}
    (h : Hex.decode (List.replicate 64 c) = some (List.replicate 32 0xff)) :
    canonicalBytes Reference.crypto (sampleMessage c) =
      .ok (TRANSPORT_MESSAGE_DOMAIN ++ encode sampleKey.verifyingKey (sampleMessage c)) := by
  have hto : (asBytes "bob").length ≤ u32Max := by decide
  have hpayload : ([1, 2, 3] : List UInt8).length ≤ u32Max := by decide
  refine canonicalBytes_eq_ok.mpr ⟨sampleKey.verifyingKey, ?_, hto, hpayload, rfl⟩
  rw [sampleMessage, String.toList_ofList, h]
  rfl

theorem binds_iff_lowercase_sample :
    IsPubkeyHex (sampleMessage 'f').«from» ∧
      ∃ signed, sign Reference.crypto sampleKey "bob" [1, 2, 3] 42 = some signed ∧
        signed.verify Reference.crypto = .ok () := by
  have hbytes := canonicalBytes_sampleMessage (c := 'f') (by decide +kernel)
  obtain ⟨hbinds, hsign⟩ := binds_iff_lowercase Reference.crypto
  have hlower : ∀ c ∈ (sampleMessage 'f').«from».toList, c.isUpper = false := fun c hc ↦ by
    rw [sampleMessage, String.toList_ofList] at hc
    rw [List.eq_of_mem_replicate hc]
    decide
  refine ⟨((hbinds _ _ _ hbytes hbytes).mpr ⟨hlower, hlower⟩).2.1, ?_⟩
  exact (hsign sampleKey "bob" [1, 2, 3] 42 (Reference.verify_sign _)).mpr (by decide)

/-- Uppercase letters are signed too, and a long payload makes `sign` panic. -/
theorem not_binds :
    (∃ m m' bytes, canonicalBytes Reference.crypto m = .ok bytes ∧
      canonicalBytes Reference.crypto m' = .ok bytes ∧ m ≠ m') ∧
    sign Reference.crypto sampleKey "bob" (List.replicate (u32Max + 1) 0) 42 = none := by
  constructor
  · refine ⟨sampleMessage 'f', sampleMessage 'F', _,
      canonicalBytes_sampleMessage (by decide +kernel),
      canonicalBytes_sampleMessage (by decide +kernel), by decide⟩
  · refine sign_eq_none ?_
    rw [List.length_replicate]
    exact Nat.lt_succ_self _

end SignedTransportMessage

end Arxia
