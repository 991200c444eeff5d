import Arxia.Consensus.Delegation
import Arxia.Finality.Assess
import Arxia.Gossip.SignedMessage
import Arxia.Relay.Evidence
import Arxia.Signing.Preimages
import Arxia.Transport.Reassembly
import Arxia.Transport.SignedMessage

/-!
# Signing domains

Ten kinds of object are signed. Eight of them are signed over bytes that begin with a prefix of
their own, none of which is a prefix of another. The other two are signed over 32 bytes, which is
less than the eight ever have, and are told apart by what has been hashed.

`signedBytes` collects the encoders under one name. It is `none` where an object cannot be signed,
because a hexadecimal field does not decode or a length does not fit.
-/

namespace Arxia

open Rust

/-- The kinds of object that are signed. -/
inductive Kind
  | gossipMessage
  | relayReceipt
  | slashingProof
  | confirmation
  | validatorVote
  | revocation
  | transportMessage
  | fragment
  | block
  | orvVote
  deriving DecidableEq

/-- The prefix of what is signed, for the kinds that have one. -/
def Kind.domain : Kind → Option (List UInt8)
  | .gossipMessage => some GOSSIP_MESSAGE_DOMAIN
  | .relayReceipt => some RELAY_RECEIPT_DOMAIN
  | .slashingProof => some SLASHING_PROOF_DOMAIN
  | .confirmation => some FINALITY_CONFIRMATION_DOMAIN
  | .validatorVote => some FINALITY_VALIDATOR_VOTE_DOMAIN
  | .revocation => some DELEGATION_REVOCATION_DOMAIN
  | .transportMessage => some TRANSPORT_MESSAGE_DOMAIN
  | .fragment => some FRAGMENT_DOMAIN
  | .block => none
  | .orvVote => none

/-- What is signed of an object, by its kind. -/
inductive SignedObject
  | gossipMessage (message : GossipMessage) (senderPubkey : AccountId)
  | relayReceipt (receipt : RelayReceipt)
  | slashingProof (proof : SlashingProof)
  | confirmation (confirmerPubkey : AccountId) (blockHash : BlockHash)
  | validatorVote (validatorPubkey : AccountId) (blockHash : BlockHash)
  | revocation (delegatorPubkey : AccountId) (delegator representative : String) (nonce : UInt64)
  | transportMessage (msg : TransportMessage)
  | fragment (peerPubkey : AccountId) (messageId : MessageId) (seq total : UInt16)
      (payload : List UInt8)
  | block (b : Block)
  | orvVote (blockHash : BlockHash) (voterPubkey : AccountId) (delegatedStake nonce : UInt64)

namespace SignedObject

def kind : SignedObject → Kind
  | gossipMessage _ _ => .gossipMessage
  | relayReceipt _ => .relayReceipt
  | slashingProof _ => .slashingProof
  | confirmation _ _ => .confirmation
  | validatorVote _ _ => .validatorVote
  | revocation _ _ _ _ => .revocation
  | transportMessage _ => .transportMessage
  | fragment _ _ _ _ _ => .fragment
  | block _ => .block
  | orvVote _ _ _ _ => .orvVote

/-- The hash preimage of a block that `compute_hash` accepts, and of a vote. -/
def preimage (K : Crates) : SignedObject → Option (List UInt8)
  | block b =>
    match K.accountKey b.account with
    | .ok _ => (b.preimage K).map asBytes
    | .error _ => none
  | orvVote blockHash voterPubkey delegatedStake nonce =>
    some (VoteORV.hashData blockHash voterPubkey delegatedStake nonce)
  | _ => none

/-- The byte string that is signed. -/
def signedBytes (K : Crates) : SignedObject → Option (List UInt8)
  | gossipMessage message senderPubkey =>
    some (SignedGossipMessage.canonicalBytes message senderPubkey)
  | relayReceipt receipt => (receipt.canonicalMessage K.toCrypto).toOption
  | slashingProof proof => (proof.canonicalMessage K.toCrypto).toOption
  | confirmation confirmerPubkey blockHash =>
    some (SignedConfirmation.canonicalBytes confirmerPubkey blockHash)
  | validatorVote validatorPubkey blockHash =>
    some (SignedValidatorVote.canonicalBytes validatorPubkey blockHash)
  | revocation delegatorPubkey delegator representative nonce =>
    some (Revocation.canonicalBytes delegatorPubkey delegator representative nonce)
  | transportMessage msg => (SignedTransportMessage.canonicalBytes K.toCrypto msg).toOption
  | fragment peerPubkey messageId seq total payload =>
    some (Fragment.canonicalBytes peerPubkey messageId seq total payload)
  | block b => ((block b).preimage K).map fun bytes ↦ (K.blake3 bytes).toList
  | orvVote blockHash voterPubkey delegatedStake nonce =>
    some (VoteORV.computeVoteHash K.toCrypto blockHash voterPubkey delegatedStake nonce).toList

end SignedObject

/-! ## Prefixes -/

/-- **No prefix is a prefix of another.** -/
theorem Kind.eq_of_domain_prefix {k k' : Kind} {d d' : List UInt8} (h : k.domain = some d)
    (h' : k'.domain = some d') (hpre : d <+: d') : k = k' := by
  have hall : ∀ e ∈ k.domain, ∀ e' ∈ k'.domain, e <+: e' → k = k' := by
    cases k <;> cases k' <;> decide +kernel
  exact hall d h d' h' hpre

namespace SignedObject

variable {K : Crates} {o o' : SignedObject} {bytes bytes' d : List UInt8}

/-- What is signed under a prefix is a key and some more. -/
theorem domain_append (hdomain : o.kind.domain = some d) (hbytes : o.signedBytes K = some bytes) :
    ∃ (key : AccountId) (rest : List UInt8), bytes = d ++ (key.toList ++ rest) := by
  cases o with
  | gossipMessage message senderPubkey =>
    cases hdomain
    cases hbytes
    exact ⟨senderPubkey, _, List.append_assoc _ _ _⟩
  | relayReceipt receipt =>
    cases hdomain
    have hok := toOption_eq_some.mp hbytes
    simp only [RelayReceipt.canonicalMessage, bind_eq_ok, okOr_eq_ok] at hok
    obtain ⟨relayPub, -, msgHash, -, hok⟩ := hok
    cases hok
    exact ⟨relayPub, msgHash.toList ++ receipt.timestamp.toBeBytes ++ [receipt.hopCount],
      by simp only [List.append_assoc]⟩
  | slashingProof proof =>
    cases hdomain
    have hok := toOption_eq_some.mp hbytes
    simp only [SlashingProof.canonicalMessage, bind_eq_ok, okOr_eq_ok] at hok
    obtain ⟨target, -, hok⟩ := hok
    cases hok
    exact ⟨proof.observerPubkey, target.toList ++
      (UInt64.ofNat (asBytes proof.reason).length).toBeBytes ++ asBytes proof.reason,
      by simp only [List.append_assoc]⟩
  | confirmation confirmerPubkey blockHash =>
    cases hdomain
    cases hbytes
    exact ⟨confirmerPubkey, _, List.append_assoc _ _ _⟩
  | validatorVote validatorPubkey blockHash =>
    cases hdomain
    cases hbytes
    exact ⟨validatorPubkey, _, List.append_assoc _ _ _⟩
  | revocation delegatorPubkey delegator representative nonce =>
    cases hdomain
    cases hbytes
    exact ⟨delegatorPubkey, asBytes delegator ++ asBytes representative ++ leBytes 8 nonce.toNat,
      by simp only [Revocation.canonicalBytes, List.append_assoc]⟩
  | transportMessage msg =>
    cases hdomain
    have hok := SignedTransportMessage.canonicalBytes_eq_ok.mp (toOption_eq_some.mp hbytes)
    obtain ⟨key, -, -, -, rfl⟩ := hok
    exact ⟨key, _, rfl⟩
  | fragment peerPubkey messageId seq total payload =>
    cases hdomain
    cases hbytes
    exact ⟨peerPubkey, messageId.toList ++ seq.toBeBytes ++ total.toBeBytes ++ payload,
      by simp only [Fragment.canonicalBytes, List.append_assoc]⟩
  | block b => cases hdomain
  | orvVote blockHash voterPubkey delegatedStake nonce => cases hdomain

/-- It is longer than a digest. -/
theorem lt_length_signedBytes (hdomain : o.kind.domain = some d)
    (hbytes : o.signedBytes K = some bytes) : 32 < bytes.length := by
  obtain ⟨key, rest, rfl⟩ := domain_append hdomain hbytes
  have hpos : 0 < d.length := by
    have hall : ∀ k : Kind, ∀ e ∈ k.domain, 0 < e.length := by
      intro k
      cases k <;> decide +kernel
    exact hall _ _ hdomain
  rw [List.length_append, List.length_append, Vector.length_toList]
  omega

/-- **The prefix tells the kind.** -/
theorem kind_eq_of_signedBytes {d' : List UInt8} (hdomain : o.kind.domain = some d)
    (hdomain' : o'.kind.domain = some d') (hbytes : o.signedBytes K = some bytes)
    (hbytes' : o'.signedBytes K = some bytes) : o.kind = o'.kind := by
  obtain ⟨key, rest, rfl⟩ := domain_append hdomain hbytes
  obtain ⟨key', rest', heq⟩ := domain_append hdomain' hbytes'
  have hpre : d <+: d ++ (key.toList ++ rest) := List.prefix_append _ _
  have hpre' : d' <+: d ++ (key.toList ++ rest) := heq ▸ List.prefix_append _ _
  rcases List.prefix_or_prefix_of_prefix hpre hpre' with h | h
  · exact Kind.eq_of_domain_prefix hdomain hdomain' h
  · exact (Kind.eq_of_domain_prefix hdomain' hdomain h).symm

/-! ## Digests -/

/-- Without a prefix it is a digest that is signed. -/
theorem exists_preimage (hdomain : o.kind.domain = none) (hbytes : o.signedBytes K = some bytes) :
    ∃ data, o.preimage K = some data ∧ bytes = (K.blake3 data).toList := by
  cases o with
  | block b =>
    obtain ⟨data, hdata, rfl⟩ := Option.map_eq_some_iff.mp hbytes
    exact ⟨data, hdata, rfl⟩
  | orvVote blockHash voterPubkey delegatedStake nonce =>
    cases hbytes
    exact ⟨_, rfl, rfl⟩
  | _ => cases hdomain

/-- **No block is hashed over the bytes of a vote.** -/
theorem preimage_block_ne (hserde : Serde K) {b : Block} {data : List UInt8}
    (h : (block b).preimage K = some data) (blockHash : BlockHash) (voterPubkey : AccountId)
    (delegatedStake nonce : UInt64) :
    data ≠ VoteORV.hashData blockHash voterPubkey delegatedStake nonce := by
  rw [preimage] at h
  split at h
  · rename_i key hkey
    obtain ⟨s, hs, rfl⟩ := Option.map_eq_some_iff.mp h
    obtain ⟨btJson, hjson, rfl⟩ := Block.preimage_eq_some.mp hs
    rw [hserde, Except.ok.injEq] at hjson
    subst hjson
    intro heq
    have hlt := Block.lt_length_content b.previous b.blockType b.balance b.nonce b.timestamp
      (Crypto.accountKey_eq_ok.mp hkey)
    rw [heq, VoteORV.length_hashData] at hlt
    exact absurd hlt (Nat.lt_irrefl _)
  · cases h

/-- Of two kinds without a prefix, what is hashed is different. -/
theorem preimage_ne (hserde : Serde K) (hkind : o.kind ≠ o'.kind) {data data' : List UInt8}
    (h : o.preimage K = some data) (h' : o'.preimage K = some data') : data ≠ data' := by
  cases o with
  | block b =>
    cases o' with
    | block b' => exact absurd rfl hkind
    | orvVote blockHash voterPubkey delegatedStake nonce =>
      cases h'
      exact preimage_block_ne hserde h _ _ _ _
    | _ => cases h'
  | orvVote blockHash voterPubkey delegatedStake nonce =>
    cases o' with
    | block b' =>
      cases h
      exact (preimage_block_ne hserde h' _ _ _ _).symm
    | orvVote => exact absurd rfl hkind
    | _ => cases h'
  | _ => cases h

/-- **What is signed of objects of different kinds is different**, unless the two have been hashed
to the same digest. -/
theorem signedBytes_ne (hserde : Serde K) (hkind : o.kind ≠ o'.kind)
    (hbytes : o.signedBytes K = some bytes) (hbytes' : o'.signedBytes K = some bytes')
    (hcf : ∀ data data', o.preimage K = some data → o'.preimage K = some data' →
      K.blake3 data = K.blake3 data' → data = data') : bytes ≠ bytes' := by
  rintro rfl
  cases hdomain : o.kind.domain with
  | some d =>
    cases hdomain' : o'.kind.domain with
    | some d' => exact hkind (kind_eq_of_signedBytes hdomain hdomain' hbytes hbytes')
    | none =>
      have hlt := lt_length_signedBytes hdomain hbytes
      obtain ⟨data, -, rfl⟩ := exists_preimage hdomain' hbytes'
      rw [Vector.length_toList] at hlt
      exact absurd hlt (Nat.lt_irrefl _)
  | none =>
    obtain ⟨data, hdata, rfl⟩ := exists_preimage hdomain hbytes
    cases hdomain' : o'.kind.domain with
    | some d' =>
      have hlt := lt_length_signedBytes hdomain' hbytes'
      rw [Vector.length_toList] at hlt
      exact absurd hlt (Nat.lt_irrefl _)
    | none =>
      obtain ⟨data', hdata', heq⟩ := exists_preimage hdomain' hbytes'
      exact preimage_ne hserde hkind hdata hdata'
        (hcf data data' hdata hdata' (Vector.toList_inj.mp heq))

/-! ## Signatures -/

/-- The signature is one of the object, under this key. -/
def VerifiesAs (K : Crates) (o : SignedObject) (key : AccountId) (signature : SignatureBytes) :
    Prop :=
  ∃ bytes, o.signedBytes K = some bytes ∧ K.verify key bytes signature = .ok ()

/-- Blake3 has no collision between what is hashed of the two objects. -/
def NoCollision (K : Crates) (o o' : SignedObject) : Prop :=
  ∀ data data', o.preimage K = some data → o'.preimage K = some data' →
    K.blake3 data = K.blake3 data' → data = data'

/-- Under this key the signature is one of at most one byte string. -/
def Binds (K : Crates) (key : AccountId) (signature : SignatureBytes) : Prop :=
  ∀ data data', K.verify key data signature = .ok () → K.verify key data' signature = .ok () →
    data = data'

/-- `verify_block` verifies a signature of the block. -/
theorem verifiesAs_of_verified {b : Block} (h : Verified K b) :
    ∃ key signature, K.accountKey b.account = .ok key ∧ signature.toList = b.signature ∧
      (block b).VerifiesAs K key signature := by
  obtain ⟨data, hdata, hhash⟩ := h.hashed.digest
  rw [Verified, verifyBlock] at h
  simp only [bind_eq_ok, okOr_eq_ok, mapError_eq_ok, toArray_eq_some] at h
  obtain ⟨_, -, _, -, key, hkey, _, -, signature, hsignature, hashBytes, hdecode, hverify⟩ := h
  have hbytes : (K.blake3 (asBytes data)).toList = hashBytes := by
    rw [K.hexDecode_eq_ok, hhash, Hex.decode_encode] at hdecode
    exact Option.some_inj.mp hdecode
  refine ⟨key, signature, hkey, hsignature, hashBytes, ?_, hverify⟩
  rw [signedBytes, preimage, hkey, hdata, ← hbytes]
  rfl

/-- **No signature is valid in two protocols.** The byte strings that are signed under a prefix are
different between kinds, and none of them has the length of a digest; no block is hashed over the
bytes of a vote; so a signature of an object is not one of an object of another kind. -/
theorem verifies_as_one_kind (hserde : Serde K) :
    (∀ o o' : SignedObject, ∀ bytes d d', o.kind.domain = some d → o'.kind.domain = some d' →
      o.signedBytes K = some bytes → o'.signedBytes K = some bytes → o.kind = o'.kind) ∧
    (∀ o : SignedObject, ∀ bytes d, o.kind.domain = some d → o.signedBytes K = some bytes →
      bytes.length ≠ 32) ∧
    (∀ b data blockHash voterPubkey delegatedStake nonce, (block b).preimage K = some data →
      data ≠ VoteORV.hashData blockHash voterPubkey delegatedStake nonce) ∧
    ∀ o o' : SignedObject, ∀ key signature, o.kind ≠ o'.kind → NoCollision K o o' →
      Binds K key signature → o.VerifiesAs K key signature → ¬ o'.VerifiesAs K key signature := by
  refine ⟨fun o o' bytes d d' ↦ kind_eq_of_signedBytes,
    fun o bytes d hdomain hbytes ↦ (lt_length_signedBytes hdomain hbytes).ne', ?_, ?_⟩
  · exact fun b data blockHash voterPubkey delegatedStake nonce h ↦
      preimage_block_ne hserde h blockHash voterPubkey delegatedStake nonce
  · rintro o o' key signature hkind hcf hbinds ⟨bytes, hbytes, hverify⟩ ⟨bytes', hbytes', hverify'⟩
    exact signedBytes_ne hserde hkind hbytes hbytes' hcf (hbinds _ _ hverify hverify')

/-! ### A vote that is not a block -/

/-- The reference instance with a signature that is the 32 bytes which are signed, twice. -/
def doubling : Crates :=
  { Reference.serde with
    verifyStrict := fun _ data signature ↦
      if signature.toList = data ++ data then .ok () else .error "signature error" }

theorem verify_doubling {key : AccountId} {data : List UInt8} {signature : SignatureBytes} :
    doubling.verify key data signature = .ok () ↔ signature.toList = data ++ data := by
  rw [Crypto.verify, bind_eq_ok]
  simp only [mapError_eq_ok, doubling]
  constructor
  · rintro ⟨_, -, h⟩
    by_contra hne
    rw [if_neg hne] at h
    cases h
  · intro h
    exact ⟨(), rfl, if_pos h⟩

theorem binds_doubling (key : AccountId) (signature : SignatureBytes) :
    Binds doubling key signature := by
  intro data data' h h'
  have heq := (verify_doubling.mp h).symm.trans (verify_doubling.mp h')
  have hlength := congrArg List.length heq
  rw [List.length_append, List.length_append] at hlength
  exact (List.append_inj heq (by omega)).1

def sampleVote : SignedObject := .orvVote (Vector.replicate 32 1) (Vector.replicate 32 2) 300 4

def sampleBlock : SignedObject :=
  .block ⟨Reference.alice, "", .open 100, 100, 1, 1, "", []⟩

/-- A signature of the vote. -/
def sampleSignature : SignatureBytes :=
  let digest := VoteORV.computeVoteHash doubling.toCrypto (Vector.replicate 32 1)
    (Vector.replicate 32 2) 300 4
  digest ++ digest

theorem noCollision_sample : NoCollision doubling sampleVote sampleBlock := by
  intro data data' h h' hdigest
  cases h
  cases h'
  exact absurd hdigest (by decide +kernel)

theorem verifies_as_one_kind_sample :
    ¬ sampleBlock.VerifiesAs doubling (Vector.replicate 32 2) sampleSignature :=
  (verifies_as_one_kind (K := doubling) fun _ ↦ rfl).2.2.2 sampleVote sampleBlock _ _ (by decide)
    noCollision_sample (binds_doubling _ _) ⟨_, rfl, verify_doubling.mpr Vector.toList_append⟩

end SignedObject

end Arxia
