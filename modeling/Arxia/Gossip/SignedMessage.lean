import Arxia.Core.Crypto
import Arxia.Rust.Bytes

/-!
# Signed gossip messages

The bytes that the sender of a message signs are a domain prefix, its key, a tag for the variant and
the fields. Whatever precedes a field of variable length has a fixed one, each variant has at most
one such field, and it comes last. The length prefixes are therefore not what makes the encoding
injective: it would be so without them, and is so for payloads of any length.
-/

namespace Arxia

open Rust

/-- Domain-separation prefix for the signature on a `SignedGossipMessage`. -/
def GOSSIP_MESSAGE_DOMAIN : List UInt8 := asBytes "arxia-gossip-msg-v1"

/-- Maximum length in bytes of the block data of an announcement. -/
def MAX_BLOCK_ANNOUNCE_BYTES : ℕ := 193 * 64

/-- Maximum initial hop count of an announcement. -/
def MAX_BLOCK_ANNOUNCE_HOPS : UInt8 := 16

/-- Maximum number of entries in a registry response. -/
def MAX_NONCE_SYNC_RESPONSE_ENTRIES : ℕ := 10_000

/-- Errors produced by `GossipMessage.validate`. -/
inductive MessageError
  | blockAnnounceTooLarge (size max : ℕ)
  | nonceSyncResponseTooLarge (count max : ℕ)
  | blockAnnounceHopsExceeded (hops max : UInt8)
  deriving DecidableEq

/-- A gossip message exchanged between peers. -/
inductive GossipMessage
  /-- A new block to propagate. -/
  | blockAnnounce (blockData : List UInt8) (hops : UInt8)
  /-- Request nonce registry synchronization. -/
  | nonceSyncRequest («from» : String)
  /-- Nonce registry entries: block hash, nonce, account. -/
  | nonceSyncResponse (entries : List (BlockHash × UInt64 × AccountId))
  /-- Heartbeat. -/
  | ping (nodeId : String) (timestamp : UInt64)
  deriving DecidableEq

/-- Errors returned by `SignedGossipMessage.verify`. -/
inductive SignedGossipMessageError
  | invalidSignatureLength
  | invalidPublicKey
  | signatureInvalid
  | messageInvalid (e : MessageError)
  deriving DecidableEq

/-- A gossip message with sender authentication. -/
structure SignedGossipMessage where
  message : GossipMessage
  senderPubkey : AccountId
  signature : List UInt8

namespace GossipMessage

/-- Run cheap structural validation on the message. -/
def validate : GossipMessage → Except MessageError Unit
  | blockAnnounce blockData hops => do
    ensure (hops ≤ MAX_BLOCK_ANNOUNCE_HOPS)
      (.blockAnnounceHopsExceeded hops MAX_BLOCK_ANNOUNCE_HOPS)
    ensure (blockData.length ≤ MAX_BLOCK_ANNOUNCE_BYTES)
      (.blockAnnounceTooLarge blockData.length MAX_BLOCK_ANNOUNCE_BYTES)
  | nonceSyncResponse entries =>
    ensure (entries.length ≤ MAX_NONCE_SYNC_RESPONSE_ENTRIES)
      (.nonceSyncResponseTooLarge entries.length MAX_NONCE_SYNC_RESPONSE_ENTRIES)
  | nonceSyncRequest _ | ping _ _ => pure ()

/-- The tag byte of the variant. -/
def variantTag : GossipMessage → UInt8
  | blockAnnounce _ _ => 0x01
  | nonceSyncRequest _ => 0x02
  | nonceSyncResponse _ => 0x03
  | ping _ _ => 0x04

/-- `(len as u64).to_be_bytes()`. -/
def lengthBytes (len : ℕ) : List UInt8 := (UInt64.ofNat len).toBeBytes

/-- One entry of a registry response. -/
def encodeEntry (e : BlockHash × UInt64 × AccountId) : List UInt8 :=
  e.1.toList ++ e.2.1.toBeBytes ++ e.2.2.toList

/-- The encoding of the fields of a message. -/
def encodeFields : GossipMessage → List UInt8
  | blockAnnounce blockData hops => hops :: (lengthBytes blockData.length ++ blockData)
  | nonceSyncRequest sender => lengthBytes (asBytes sender).length ++ asBytes sender
  | nonceSyncResponse entries => lengthBytes entries.length ++ entries.flatMap encodeEntry
  | ping nodeId timestamp =>
    timestamp.toBeBytes ++ (lengthBytes (asBytes nodeId).length ++ asBytes nodeId)

/-- The canonical encoding of a message. -/
def encodeMessage (m : GossipMessage) : List UInt8 := m.variantTag :: m.encodeFields

end GossipMessage

namespace SignedGossipMessage

open GossipMessage

/-- The bytes that the sender signs. -/
def canonicalBytes (message : GossipMessage) (senderPubkey : AccountId) : List UInt8 :=
  GOSSIP_MESSAGE_DOMAIN ++ senderPubkey.toList ++ message.encodeMessage

/-- Verify the signature on this envelope. -/
def verify (K : Crypto) (signed : SignedGossipMessage) :
    Except SignedGossipMessageError Unit := do
  signed.message.validate.mapError .messageInvalid
  ensure (signed.signature.length = 64) .invalidSignatureLength
  let sig ← okOr (toArray 64 signed.signature) .invalidSignatureLength
  (K.verify signed.senderPubkey (canonicalBytes signed.message signed.senderPubkey) sig).mapError
    fun e ↦ match e with
      | .invalidKey _ => .invalidPublicKey
      | _ => .signatureInvalid

/-- **What is verified**: the message is within the caps, and the signature is one of its bytes. -/
theorem verify_eq_ok {K : Crypto} {signed : SignedGossipMessage} :
    signed.verify K = .ok () ↔ signed.message.validate = .ok () ∧
      ∃ sig : SignatureBytes, sig.toList = signed.signature ∧
        K.verify signed.senderPubkey (canonicalBytes signed.message signed.senderPubkey) sig =
          .ok () := by
  rw [verify]
  simp only [bind_eq_ok, mapError_eq_ok, ensure_eq_ok, okOr_eq_ok, toArray_eq_some]
  constructor
  · rintro ⟨_, hvalid, _, -, sig, hsig, hverify⟩
    exact ⟨hvalid, sig, hsig, hverify⟩
  · rintro ⟨hvalid, sig, hsig, hverify⟩
    refine ⟨(), hvalid, (), ?_, sig, hsig, hverify⟩
    rw [← hsig, Vector.length_toList]

end SignedGossipMessage

/-! ## The encoding is injective -/

namespace GossipMessage

theorem length_lengthBytes (len : ℕ) : (lengthBytes len).length = 8 := UInt64.length_toBeBytes _

theorem length_encodeEntry (e : BlockHash × UInt64 × AccountId) : (encodeEntry e).length = 72 := by
  rw [encodeEntry, List.length_append, List.length_append, Vector.length_toList,
    UInt64.length_toBeBytes, Vector.length_toList]

theorem encodeEntry_injective : Function.Injective encodeEntry := by
  rintro ⟨hash, nonce, account⟩ ⟨hash', nonce', account'⟩ h
  rw [encodeEntry, encodeEntry] at h
  obtain ⟨h, haccount⟩ := List.append_inj' h (by rw [Vector.length_toList, Vector.length_toList])
  obtain ⟨hhash, hnonce⟩ := List.append_inj' h (by simp)
  exact Prod.ext (Vector.toList_inj.mp hhash)
    (Prod.ext (UInt64.toBeBytes_injective hnonce) (Vector.toList_inj.mp haccount))

/-- What follows a length of eight bytes. -/
theorem eq_of_lengthBytes_append {m n : ℕ} {bs bs' : List UInt8}
    (h : lengthBytes m ++ bs = lengthBytes n ++ bs') : bs = bs' :=
  (List.append_inj h (by rw [length_lengthBytes, length_lengthBytes])).2

theorem encodeMessage_injective : Function.Injective encodeMessage := by
  intro m m' h
  obtain ⟨htag, hfields⟩ := List.cons.inj h
  -- the tags of different variants are different
  rcases m with ⟨data, hops⟩ | sender | entries | ⟨nodeId, timestamp⟩ <;>
    rcases m' with ⟨data', hops'⟩ | sender' | entries' | ⟨nodeId', timestamp'⟩ <;>
    simp [variantTag] at htag
  · obtain ⟨rfl, hrest⟩ := List.cons.inj hfields
    rw [eq_of_lengthBytes_append hrest]
  · rw [asBytes_inj.mp (eq_of_lengthBytes_append hfields)]
  · rw [flatMap_injective_of_length (by decide) length_encodeEntry encodeEntry_injective
      (eq_of_lengthBytes_append hfields)]
  · obtain ⟨htimestamp, hrest⟩ := List.append_inj hfields (by simp)
    rw [asBytes_inj.mp (eq_of_lengthBytes_append hrest), UInt64.toBeBytes_injective htimestamp]

end GossipMessage

/-- **The signed bytes are unambiguous**: they determine the message and the sender. -/
theorem SignedGossipMessage.canonicalBytes_eq_iff {message message' : GossipMessage}
    {senderPubkey senderPubkey' : AccountId} :
    canonicalBytes message senderPubkey = canonicalBytes message' senderPubkey' ↔
      message = message' ∧ senderPubkey = senderPubkey' := by
  constructor
  · intro h
    rw [canonicalBytes, canonicalBytes, List.append_assoc, List.append_assoc,
      List.append_cancel_left_eq] at h
    obtain ⟨hkey, hmessage⟩ := List.append_inj h (by
      rw [Vector.length_toList, Vector.length_toList])
    exact ⟨GossipMessage.encodeMessage_injective hmessage, Vector.toList_inj.mp hkey⟩
  · rintro ⟨rfl, rfl⟩
    rfl

end Arxia
