import Arxia.Core.Crypto
import Arxia.Rust.Bytes

/-!
# Receipts and slashing proofs

The two signed statements that a relay is scored by. A receipt is the relay's own: that it has
forwarded a message. A slashing proof is an observer's: that a relay has misbehaved. Each names the
relay in hexadecimal and is signed over bytes that have the decoded names, so letter case does not
matter.
-/

namespace Arxia

open Rust

/-- Domain-separation prefix for the signature on a `RelayReceipt`. -/
def RELAY_RECEIPT_DOMAIN : List UInt8 := asBytes "arxia-relay-receipt-v1"

/-- Domain-separation prefix for the signature on a `SlashingProof`. -/
def SLASHING_PROOF_DOMAIN : List UInt8 := asBytes "arxia-relay-slash-v1"

/-- Maximum number of hops a receipt may declare. -/
def MAX_HOPS_PER_RECEIPT : UInt8 := 16

/-- Errors returned by `RelayReceipt.verify` and the scoring calls that wrap it. -/
inductive RelayReceiptError
  | invalidRelayId
  | invalidMessageHash
  | invalidSignatureLength
  | invalidPublicKey
  | signatureInvalid
  | wrongRelayId
  | duplicateReceipt
  | hopCountTooHigh (got max : UInt8)
  deriving DecidableEq

/-- Errors returned by `SlashingProof.verify` and `RelayScore.slash`. -/
inductive SlashingError
  | invalidTargetRelayId
  | signatureInvalid
  | invalidObserverPubkey
  | invalidSignatureLength
  | targetMismatch
  | negativePenalty
  deriving DecidableEq

/-- A receipt proving that a relay node forwarded a message. -/
structure RelayReceipt where
  relayId : String
  messageHash : String
  timestamp : UInt64
  signature : List UInt8
  hopCount : UInt8

/-- Signed attestation that a relay misbehaved. -/
structure SlashingProof where
  observerPubkey : AccountId
  targetRelayId : String
  reason : String
  signature : List UInt8

/-- Decode a hex string into a 32-byte array. -/
def decodeHex32 (K : Crypto) (s : String) : Option (Vector UInt8 32) :=
  (K.hexDecode s).toOption.bind (toArray 32)

theorem decodeHex32_eq_some {K : Crypto} {s : String} {bytes : Vector UInt8 32} :
    decodeHex32 K s = some bytes ↔ Hex.decode s.toList = some bytes.toList := by
  simp only [decodeHex32, Option.bind_eq_some_iff, toOption_eq_some, K.hexDecode_eq_ok,
    toArray_eq_some]
  constructor
  · rintro ⟨bs, hbs, rfl⟩
    exact hbs
  · exact fun h ↦ ⟨_, h, rfl⟩

namespace RelayReceipt

/-- The bytes that the relay node signs. -/
def canonicalMessage (K : Crypto) (receipt : RelayReceipt) :
    Except RelayReceiptError (List UInt8) := do
  let relayPub ← okOr (decodeHex32 K receipt.relayId) .invalidRelayId
  let msgHash ← okOr (decodeHex32 K receipt.messageHash) .invalidMessageHash
  pure (RELAY_RECEIPT_DOMAIN ++ relayPub.toList ++ msgHash.toList ++
    receipt.timestamp.toBeBytes ++ [receipt.hopCount])

/-- Verify the signature on this receipt. -/
def verify (K : Crypto) (receipt : RelayReceipt) : Except RelayReceiptError Unit := do
  ensure (receipt.hopCount ≤ MAX_HOPS_PER_RECEIPT)
    (.hopCountTooHigh receipt.hopCount MAX_HOPS_PER_RECEIPT)
  let msg ← receipt.canonicalMessage K
  let pk ← okOr (decodeHex32 K receipt.relayId) .invalidRelayId
  let sig ← okOr (toArray 64 receipt.signature) .invalidSignatureLength
  (K.verify pk msg sig).mapError fun e ↦ match e with
    | .invalidKey _ => .invalidPublicKey
    | _ => .signatureInvalid

end RelayReceipt

namespace SlashingProof

/-- The bytes that the observer signs. -/
def canonicalMessage (K : Crypto) (proof : SlashingProof) : Except SlashingError (List UInt8) := do
  let target ← okOr (decodeHex32 K proof.targetRelayId) .invalidTargetRelayId
  pure (SLASHING_PROOF_DOMAIN ++ proof.observerPubkey.toList ++ target.toList ++
    (UInt64.ofNat (asBytes proof.reason).length).toBeBytes ++ asBytes proof.reason)

/-- Verify the observer's signature. -/
def verify (K : Crypto) (proof : SlashingProof) : Except SlashingError Unit := do
  let msg ← proof.canonicalMessage K
  let sig ← okOr (toArray 64 proof.signature) .invalidSignatureLength
  (K.verify proof.observerPubkey msg sig).mapError fun e ↦ match e with
    | .invalidKey _ => .invalidObserverPubkey
    | _ => .signatureInvalid

end SlashingProof

end Arxia
