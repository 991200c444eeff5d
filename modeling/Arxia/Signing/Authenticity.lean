import Arxia.Signing.Domains

/-!
# What a signature authenticates

Whoever is shown an object with a valid signature wants to know what the holder of the key has
signed. By the separation of the domains it is an object of the same kind, and by the encoding of
that kind it has the same fields, up to what the encoding leaves out: the letter case of a decoded
name, the boundary between the two names of a revocation, and the hash of a block.

`Accepts` is the check that the program makes of each kind of object, and `Same` is what is left of
the object once it has been signed. Nothing is assumed of the signature scheme but that a signature
which is shown under the key of an honest holder, and is valid, is one that the holder has made.
-/

namespace Arxia

open Rust

namespace SignedObject

variable {K : Crates} {o o' : SignedObject} {bytes : List UInt8}

/-! ## What is bound -/

/-- The two objects agree on all that is signed of them. -/
def Same (K : Crates) : SignedObject → SignedObject → Prop
  | gossipMessage message senderPubkey, gossipMessage message' senderPubkey' =>
    message = message' ∧ senderPubkey = senderPubkey'
  | relayReceipt receipt, relayReceipt receipt' =>
    decodeHex32 K.toCrypto receipt.relayId = decodeHex32 K.toCrypto receipt'.relayId ∧
      decodeHex32 K.toCrypto receipt.messageHash = decodeHex32 K.toCrypto receipt'.messageHash ∧
      receipt.timestamp = receipt'.timestamp ∧ receipt.hopCount = receipt'.hopCount
  | slashingProof proof, slashingProof proof' =>
    proof.observerPubkey = proof'.observerPubkey ∧
      decodeHex32 K.toCrypto proof.targetRelayId = decodeHex32 K.toCrypto proof'.targetRelayId ∧
      proof.reason = proof'.reason
  | confirmation confirmerPubkey blockHash, confirmation confirmerPubkey' blockHash' =>
    confirmerPubkey = confirmerPubkey' ∧ blockHash = blockHash'
  | validatorVote validatorPubkey blockHash, validatorVote validatorPubkey' blockHash' =>
    validatorPubkey = validatorPubkey' ∧ blockHash = blockHash'
  | revocation delegatorPubkey delegator representative nonce,
      revocation delegatorPubkey' delegator' representative' nonce' =>
    -- the two names are signed without a boundary between them
    delegatorPubkey = delegatorPubkey' ∧
      delegator ++ representative = delegator' ++ representative' ∧ nonce = nonce'
  | transportMessage msg, transportMessage msg' =>
    decodeHex32 K.toCrypto msg.«from» = decodeHex32 K.toCrypto msg'.«from» ∧
      msg.«to» = msg'.«to» ∧ msg.payload = msg'.payload ∧ msg.timestamp = msg'.timestamp
  | fragment peerPubkey messageId seq total payload,
      fragment peerPubkey' messageId' seq' total' payload' =>
    peerPubkey = peerPubkey' ∧ messageId = messageId' ∧ seq = seq' ∧ total = total' ∧
      payload = payload'
  | block b, block b' => b.SameContents b'
  | orvVote blockHash voterPubkey delegatedStake nonce,
      orvVote blockHash' voterPubkey' delegatedStake' nonce' =>
    blockHash = blockHash' ∧ voterPubkey = voterPubkey' ∧ delegatedStake = delegatedStake' ∧
      nonce = nonce'
  | _, _ => False

theorem Same.kind_eq (h : Same K o o') : o.kind = o'.kind := by
  cases o <;> cases o' <;> first | rfl | exact h.elim

/-! ## The encoding of each kind -/

theorem same_relayReceipt {receipt receipt' : RelayReceipt}
    (h : (relayReceipt receipt).signedBytes K = some bytes)
    (h' : (relayReceipt receipt').signedBytes K = some bytes) :
    Same K (relayReceipt receipt) (relayReceipt receipt') := by
  have hok := toOption_eq_some.mp h
  have hok' := toOption_eq_some.mp h'
  simp only [RelayReceipt.canonicalMessage, bind_eq_ok, okOr_eq_ok] at hok hok'
  obtain ⟨relay, hrelay, hash, hhash, hok⟩ := hok
  obtain ⟨relay', hrelay', hash', hhash', hok'⟩ := hok'
  have heq := Except.ok.inj (hok.trans hok'.symm)
  simp only [List.append_assoc, List.append_cancel_left_eq] at heq
  obtain ⟨hkeys, heq⟩ := List.append_inj heq (by simp)
  obtain ⟨hhashes, heq⟩ := List.append_inj heq (by simp)
  obtain ⟨htimestamp, hhops⟩ := List.append_inj heq (by simp)
  refine ⟨?_, ?_, UInt64.toBeBytes_injective htimestamp, List.singleton_inj.mp hhops⟩
  · rw [hrelay, hrelay', Vector.toList_inj.mp hkeys]
  · rw [hhash, hhash', Vector.toList_inj.mp hhashes]

theorem same_slashingProof {proof proof' : SlashingProof}
    (h : (slashingProof proof).signedBytes K = some bytes)
    (h' : (slashingProof proof').signedBytes K = some bytes) :
    Same K (slashingProof proof) (slashingProof proof') := by
  have hok := toOption_eq_some.mp h
  have hok' := toOption_eq_some.mp h'
  simp only [SlashingProof.canonicalMessage, bind_eq_ok, okOr_eq_ok] at hok hok'
  obtain ⟨target, htarget, hok⟩ := hok
  obtain ⟨target', htarget', hok'⟩ := hok'
  have heq := Except.ok.inj (hok.trans hok'.symm)
  simp only [List.append_assoc, List.append_cancel_left_eq] at heq
  obtain ⟨hobserver, heq⟩ := List.append_inj heq (by simp)
  obtain ⟨htargets, heq⟩ := List.append_inj heq (by simp)
  refine ⟨Vector.toList_inj.mp hobserver, ?_, ?_⟩
  · rw [htarget, htarget', Vector.toList_inj.mp htargets]
  · exact asBytes_inj.mp (List.append_inj heq (by simp)).2

theorem same_revocation {key key' : AccountId} {delegator delegator' : String}
    {representative representative' : String} {nonce nonce' : UInt64}
    (h : (revocation key delegator representative nonce).signedBytes K = some bytes)
    (h' : (revocation key' delegator' representative' nonce').signedBytes K = some bytes) :
    Same K (revocation key delegator representative nonce)
      (revocation key' delegator' representative' nonce') := by
  have heq := Option.some.inj (h.trans h'.symm)
  simp only [Revocation.canonicalBytes, List.append_assoc, List.append_cancel_left_eq] at heq
  obtain ⟨hkey, heq⟩ := List.append_inj heq (by simp)
  rw [← List.append_assoc, ← List.append_assoc, ← asBytes_append, ← asBytes_append] at heq
  obtain ⟨hnames, hnonce⟩ := List.append_inj' heq (by simp)
  exact ⟨Vector.toList_inj.mp hkey, asBytes_inj.mp hnames,
    UInt64.toNat_inj.mp (leBytes_inj nonce.toNat_lt nonce'.toNat_lt hnonce)⟩

theorem same_transportMessage {msg msg' : TransportMessage}
    (h : (transportMessage msg).signedBytes K = some bytes)
    (h' : (transportMessage msg').signedBytes K = some bytes) :
    Same K (transportMessage msg) (transportMessage msg') := by
  obtain ⟨key, hkey, hto, hpayload, rfl⟩ :=
    SignedTransportMessage.canonicalBytes_eq_ok.mp (toOption_eq_some.mp h)
  obtain ⟨key', hkey', hto', hpayload', heq⟩ :=
    SignedTransportMessage.canonicalBytes_eq_ok.mp (toOption_eq_some.mp h')
  obtain ⟨rfl, hfields⟩ := SignedTransportMessage.encode_inj hto hpayload hto' hpayload'
    (List.append_cancel_left heq)
  exact ⟨(decodeHex32_eq_some.mpr hkey).trans (decodeHex32_eq_some.mpr hkey').symm, hfields⟩

theorem same_fragment {peer peer' : AccountId} {messageId messageId' : MessageId}
    {seq seq' total total' : UInt16} {payload payload' : List UInt8}
    (h : (fragment peer messageId seq total payload).signedBytes K = some bytes)
    (h' : (fragment peer' messageId' seq' total' payload').signedBytes K = some bytes) :
    Same K (fragment peer messageId seq total payload)
      (fragment peer' messageId' seq' total' payload') := by
  have heq := Option.some.inj (h.trans h'.symm)
  simp only [Fragment.canonicalBytes, List.append_assoc, List.append_cancel_left_eq] at heq
  obtain ⟨hpeer, heq⟩ := List.append_inj heq (by simp)
  obtain ⟨hid, heq⟩ := List.append_inj heq (by simp)
  obtain ⟨hseq, heq⟩ := List.append_inj heq (by simp)
  obtain ⟨htotal, hpayload⟩ := List.append_inj heq (by simp)
  exact ⟨Vector.toList_inj.mp hpeer, Vector.toList_inj.mp hid, UInt16.toBeBytes_injective hseq,
    UInt16.toBeBytes_injective htotal, hpayload⟩

/-- A key and a hash after a prefix. -/
theorem eq_of_key_hash {d : List UInt8} {key key' : AccountId} {hash hash' : BlockHash}
    (h : d ++ key.toList ++ hash.toList = d ++ key'.toList ++ hash'.toList) :
    key = key' ∧ hash = hash' := by
  rw [List.append_assoc, List.append_assoc, List.append_cancel_left_eq] at h
  obtain ⟨hkey, hhash⟩ := List.append_inj h (by simp)
  exact ⟨Vector.toList_inj.mp hkey, Vector.toList_inj.mp hhash⟩

theorem same_block (hserde : Serde K) {b b' : Block} {data : List UInt8}
    (h : (block b).preimage K = some data) (h' : (block b').preimage K = some data) :
    Same K (block b) (block b') := by
  rw [preimage] at h h'
  split at h
  · split at h'
    · rename_i key hkey _ key' hkey'
      obtain ⟨s, hs, rfl⟩ := Option.map_eq_some_iff.mp h
      obtain ⟨s', hs', heq⟩ := Option.map_eq_some_iff.mp h'
      obtain rfl := asBytes_inj.mp heq
      exact Block.sameContents_of_preimage hserde
        (Hex.colon_notMem_of_decode (Crypto.accountKey_eq_ok.mp hkey))
        (Hex.colon_notMem_of_decode (Crypto.accountKey_eq_ok.mp hkey')) hs hs'
    · cases h'
  · cases h

theorem same_orvVote {hash hash' : BlockHash} {voter voter' : AccountId}
    {stake stake' nonce nonce' : UInt64}
    (h : VoteORV.hashData hash voter stake nonce = VoteORV.hashData hash' voter' stake' nonce') :
    Same K (orvVote hash voter stake nonce) (orvVote hash' voter' stake' nonce') := by
  simp only [VoteORV.hashData, List.append_assoc] at h
  obtain ⟨hhash, h⟩ := List.append_inj h (by simp)
  obtain ⟨hvoter, h⟩ := List.append_inj h (by simp)
  obtain ⟨hstake, hnonce⟩ := List.append_inj h (by simp)
  exact ⟨Vector.toList_inj.mp hhash, Vector.toList_inj.mp hvoter,
    UInt64.toNat_inj.mp (leBytes_inj stake.toNat_lt stake'.toNat_lt hstake),
    UInt64.toNat_inj.mp (leBytes_inj nonce.toNat_lt nonce'.toNat_lt hnonce)⟩

/-- **What is signed determines the object**, up to `Same`. -/
theorem same_of_signedBytes (hserde : Serde K) (hcf : NoCollision K o o')
    (h : o.signedBytes K = some bytes) (h' : o'.signedBytes K = some bytes) : Same K o o' := by
  have hkind : o.kind = o'.kind := by
    by_contra hne
    exact signedBytes_ne hserde hne h h' hcf rfl
  cases o <;> cases o' <;> cases hkind
  case gossipMessage =>
    exact SignedGossipMessage.canonicalBytes_eq_iff.mp (Option.some.inj (h.trans h'.symm))
  case relayReceipt => exact same_relayReceipt h h'
  case slashingProof => exact same_slashingProof h h'
  case confirmation => exact eq_of_key_hash (Option.some.inj (h.trans h'.symm))
  case validatorVote => exact eq_of_key_hash (Option.some.inj (h.trans h'.symm))
  case revocation => exact same_revocation h h'
  case transportMessage => exact same_transportMessage h h'
  case fragment => exact same_fragment h h'
  case block =>
    obtain ⟨data, hdata, rfl⟩ := exists_preimage rfl h
    obtain ⟨data', hdata', heq⟩ := exists_preimage rfl h'
    obtain rfl := hcf data data' hdata hdata' (Vector.toList_inj.mp heq)
    exact same_block hserde hdata hdata'
  case orvVote =>
    obtain ⟨data, hdata, rfl⟩ := exists_preimage rfl h
    obtain ⟨data', hdata', heq⟩ := exists_preimage rfl h'
    obtain rfl := hcf data data' hdata hdata' (Vector.toList_inj.mp heq)
    exact same_orvVote (Option.some.inj (hdata.trans hdata'.symm))

/-- Nothing else is signed. -/
theorem signedBytes_eq_of_same (h : Same K o o') : o.signedBytes K = o'.signedBytes K := by
  have hkind := h.kind_eq
  cases o <;> cases o' <;> cases hkind
  case gossipMessage | confirmation | validatorVote =>
    obtain ⟨rfl, rfl⟩ := h
    rfl
  case relayReceipt receipt receipt' =>
    obtain ⟨hrelay, hhash, htimestamp, hhops⟩ := h
    simp only [signedBytes, RelayReceipt.canonicalMessage, hrelay, hhash, htimestamp, hhops]
  case slashingProof proof proof' =>
    obtain ⟨hobserver, htarget, hreason⟩ := h
    simp only [signedBytes, SlashingProof.canonicalMessage, hobserver, htarget, hreason]
  case revocation =>
    obtain ⟨rfl, hnames, rfl⟩ := h
    simp only [signedBytes, Revocation.canonicalBytes, List.append_assoc, Option.some_inj,
      List.append_cancel_left_eq]
    rw [← List.append_assoc, ← List.append_assoc, ← asBytes_append, ← asBytes_append, hnames]
  case transportMessage msg msg' =>
    obtain ⟨hfrom, hto, hpayload, htimestamp⟩ := h
    refine Option.ext fun bytes ↦ ?_
    simp only [signedBytes, toOption_eq_some, SignedTransportMessage.canonicalBytes_eq_ok,
      ← decodeHex32_eq_some (K := K.toCrypto), SignedTransportMessage.encode, hfrom, hto, hpayload,
      htimestamp]
  case fragment =>
    obtain ⟨rfl, rfl, rfl, rfl, rfl⟩ := h
    rfl
  case block b b' =>
    obtain ⟨hacc, hprev, htype, hbal, hnonce, htime⟩ := h
    simp only [signedBytes, preimage, Block.preimage, hacc, hprev, htype, hbal, hnonce, htime]
  case orvVote =>
    obtain ⟨rfl, rfl, rfl, rfl⟩ := h
    rfl

/-! ## Signing and checking -/

/-- The key that a signature of the object is checked against. -/
def signer (K : Crates) : SignedObject → Option AccountId
  | gossipMessage _ senderPubkey => some senderPubkey
  | relayReceipt receipt => decodeHex32 K.toCrypto receipt.relayId
  | slashingProof proof => some proof.observerPubkey
  | confirmation confirmerPubkey _ => some confirmerPubkey
  | validatorVote validatorPubkey _ => some validatorPubkey
  | revocation delegatorPubkey _ _ _ => some delegatorPubkey
  | transportMessage msg => decodeHex32 K.toCrypto msg.«from»
  | fragment peerPubkey _ _ _ _ => some peerPubkey
  | block b => (K.accountKey b.account).toOption
  | orvVote _ voterPubkey _ _ => some voterPubkey

/-- The check that the program makes of the object, with this signature. -/
def Accepts (K : Crates) (signature : SignatureBytes) : SignedObject → Prop
  | gossipMessage message senderPubkey =>
    SignedGossipMessage.verify K.toCrypto ⟨message, senderPubkey, signature.toList⟩ = .ok ()
  | relayReceipt receipt =>
    RelayReceipt.verify K.toCrypto { receipt with signature := signature.toList } = .ok ()
  | slashingProof proof =>
    SlashingProof.verify K.toCrypto { proof with signature := signature.toList } = .ok ()
  | confirmation confirmerPubkey blockHash =>
    SignedConfirmation.verify K.toCrypto ⟨confirmerPubkey, blockHash, signature.toList⟩ = .ok ()
  | validatorVote validatorPubkey blockHash =>
    SignedValidatorVote.verify K.toCrypto ⟨validatorPubkey, blockHash, signature.toList⟩ = .ok ()
  | revocation delegatorPubkey delegator representative nonce =>
    Revocation.verify K.toCrypto ⟨delegatorPubkey, delegator, representative, nonce, signature⟩ =
      .ok ()
  | transportMessage msg => SignedTransportMessage.verify K.toCrypto ⟨msg, signature⟩ = .ok ()
  | fragment peerPubkey messageId seq total payload =>
    Fragment.verify K.toCrypto ⟨⟨peerPubkey, messageId, seq, total, signature⟩, payload⟩ = .ok ()
  | block b => Verified K { b with signature := signature.toList }
  | orvVote blockHash voterPubkey delegatedStake nonce =>
    VoteORV.verify K.toCrypto ⟨blockHash, voterPubkey, delegatedStake, nonce, signature⟩ = .ok ()

theorem verify_of_verifySignature {key : AccountId} {canonical : List UInt8}
    {signature : SignatureBytes}
    (h : verifySignature K.toCrypto key canonical signature.toList = .ok ()) :
    K.verify key canonical signature = .ok () := by
  simp only [verifySignature, bind_eq_ok, mapError_eq_ok, okOr_eq_ok, toArray_eq_some] at h
  obtain ⟨_, -, sig, hsig, hverify⟩ := h
  obtain rfl := Vector.toList_inj.mp hsig
  exact hverify

/-- **The checks verify what is signed**, under the key of the signer. -/
theorem verifiesAs_of_accepts {signature : SignatureBytes} (h : o.Accepts K signature) :
    ∃ key, o.signer K = some key ∧ o.VerifiesAs K key signature := by
  cases o with
  | gossipMessage message senderPubkey =>
    obtain ⟨-, sig, hsig, hverify⟩ := SignedGossipMessage.verify_eq_ok.mp h
    obtain rfl := Vector.toList_inj.mp hsig
    exact ⟨senderPubkey, rfl, _, rfl, hverify⟩
  | relayReceipt receipt =>
    simp only [Accepts, RelayReceipt.verify, bind_eq_ok, mapError_eq_ok, okOr_eq_ok,
      toArray_eq_some] at h
    obtain ⟨_, -, bytes, hbytes, key, hkey, sig, hsig, hverify⟩ := h
    obtain rfl := Vector.toList_inj.mp hsig
    exact ⟨key, hkey, bytes, toOption_eq_some.mpr hbytes, hverify⟩
  | slashingProof proof =>
    simp only [Accepts, SlashingProof.verify, bind_eq_ok, mapError_eq_ok, okOr_eq_ok,
      toArray_eq_some] at h
    obtain ⟨bytes, hbytes, sig, hsig, hverify⟩ := h
    obtain rfl := Vector.toList_inj.mp hsig
    exact ⟨_, rfl, bytes, toOption_eq_some.mpr hbytes, hverify⟩
  | confirmation confirmerPubkey blockHash => exact ⟨_, rfl, _, rfl, verify_of_verifySignature h⟩
  | validatorVote validatorPubkey blockHash => exact ⟨_, rfl, _, rfl, verify_of_verifySignature h⟩
  | revocation => exact ⟨_, rfl, _, rfl, mapError_eq_ok.mp h⟩
  | transportMessage msg =>
    simp only [Accepts, SignedTransportMessage.verify, bind_eq_ok, mapError_eq_ok, okOr_eq_ok,
      toArray_eq_some, K.hexDecode_eq_ok] at h
    obtain ⟨_, hdecode, key, rfl, bytes, hbytes, hverify⟩ := h
    exact ⟨key, decodeHex32_eq_some.mpr hdecode, bytes, toOption_eq_some.mpr hbytes, hverify⟩
  | fragment => exact ⟨_, rfl, _, rfl, mapError_eq_ok.mp h⟩
  | block b =>
    obtain ⟨key, sig, hkey, hsig, hverify⟩ := verifiesAs_of_verified h
    obtain rfl := Vector.toList_inj.mp hsig
    exact ⟨key, toOption_eq_some.mpr hkey, hverify⟩
  | orvVote => exact ⟨_, rfl, _, rfl, h⟩

/-! ## Runs -/

/-- The holder of a key signs an object, or somebody shows an object with a signature. -/
inductive Act
  | signed (key : AccountId) (o : SignedObject) (signature : SignatureBytes)
  | shown (o : SignedObject) (signature : SignatureBytes)

/-- A signature under this key that is shown, and valid, is one that its holder has made of these
bytes. -/
def Unforged (K : Crates) (key : AccountId) (acts : List Act) : Prop :=
  ∀ before after o signature, acts = before ++ .shown o signature :: after →
    ∀ bytes, o.signedBytes K = some bytes → K.verify key bytes signature = .ok () →
      ∃ o', .signed key o' signature ∈ before ∧ o'.signedBytes K = some bytes

/-- What is not signed by its digest collides with nothing. -/
theorem noCollision_of_preimage_eq_none (h : o.preimage K = none) : NoCollision K o' o := by
  intro data data' _ hdata
  rw [h] at hdata
  cases hdata

namespace Unforged

variable {key : AccountId} {acts : List Act}

theorem nil : Unforged K key [] := by
  intro before after o signature hacts
  cases before <;> cases hacts

theorem signed (h : Unforged K key acts) (key' : AccountId) (o : SignedObject)
    (signature : SignatureBytes) : Unforged K key (acts ++ [.signed key' o signature]) := by
  intro before after o' signature' hacts
  rcases List.eq_nil_or_concat after with rfl | ⟨after, a, rfl⟩
  · cases List.singleton_inj.mp (List.append_inj' hacts rfl).2
  · rw [List.concat_eq_append, ← List.cons_append, ← List.append_assoc] at hacts
    exact h before after o' signature' (List.append_inj' hacts rfl).1

/-- An object can be shown when it has been signed, or when its signature is not valid. -/
theorem shown (h : Unforged K key acts) {o : SignedObject} {signature : SignatureBytes}
    (hsigned : ∀ bytes, o.signedBytes K = some bytes → K.verify key bytes signature = .ok () →
      ∃ o', .signed key o' signature ∈ acts ∧ o'.signedBytes K = some bytes) :
    Unforged K key (acts ++ [.shown o signature]) := by
  intro before after o' signature' hacts
  rcases List.eq_nil_or_concat after with rfl | ⟨after, a, rfl⟩
  · obtain ⟨rfl, hlast⟩ := List.append_inj' hacts rfl
    obtain ⟨rfl, rfl⟩ := Act.shown.inj (List.singleton_inj.mp hlast)
    exact hsigned
  · rw [List.concat_eq_append, ← List.cons_append, ← List.append_assoc] at hacts
    exact h before after o' signature' (List.append_inj' hacts rfl).1

end Unforged

/-- Blake3 has no collision between what is shown and what is signed. -/
def CollisionFree (K : Crates) (acts : List Act) : Prop :=
  ∀ o signature key o' signature', .shown o signature ∈ acts → .signed key o' signature' ∈ acts →
    NoCollision K o' o

/-- What verifies under an unforged key is what its holder has signed. -/
theorem Unforged.exists_signed {key : AccountId} {acts before after : List Act}
    (hunforged : Unforged K key acts) (hserde : Serde K) {signature : SignatureBytes}
    (hacts : acts = before ++ .shown o signature :: after) (hverify : o.VerifiesAs K key signature)
    (hcf : ∀ o' signature', .signed key o' signature' ∈ acts → NoCollision K o' o) :
    ∃ o', .signed key o' signature ∈ before ∧ Same K o' o := by
  obtain ⟨bytes, hbytes, hverify⟩ := hverify
  obtain ⟨o', hsigned, hbytes'⟩ := hunforged before after o signature hacts bytes hbytes hverify
  have hmem : .signed key o' signature ∈ acts := hacts ▸ List.mem_append_left _ hsigned
  exact ⟨o', hsigned, same_of_signedBytes hserde (hcf o' signature hmem) hbytes' hbytes⟩

/-- **Authenticity.** Two objects without a collision are signed by the same bytes exactly when they
agree on all that `Same` compares. And in any run in which the holders of keys sign objects, and
anybody shows objects with signatures, an object that passes its check under an unforged key is the
same as one that the holder has signed before. -/
theorem signed_of_accepts (hserde : Serde K) :
    (∀ o o' : SignedObject, NoCollision K o o' → (o.signedBytes K).isSome →
      (o.signedBytes K = o'.signedBytes K ↔ Same K o o')) ∧
    ∀ acts before after o signature, CollisionFree K acts →
      acts = before ++ Act.shown o signature :: after → o.Accepts K signature →
      ∃ key, o.signer K = some key ∧ (Unforged K key acts →
        ∃ o', .signed key o' signature ∈ before ∧ Same K o' o) := by
  refine ⟨fun o o' hcf hsome ↦ ⟨fun heq ↦ ?_, signedBytes_eq_of_same⟩, ?_⟩
  · obtain ⟨bytes, hbytes⟩ := Option.isSome_iff_exists.mp hsome
    exact same_of_signedBytes hserde hcf hbytes (heq.symm.trans hbytes)
  · intro acts before after o signature hcf hacts haccepts
    obtain ⟨key, hkey, hverify⟩ := verifiesAs_of_accepts haccepts
    have hshown : .shown o signature ∈ acts :=
      hacts ▸ List.mem_append_right _ List.mem_cons_self
    exact ⟨key, hkey, fun hunforged ↦ hunforged.exists_signed hserde hacts hverify
      fun o' signature' ↦ hcf o signature key o' signature' hshown⟩

/-- A vote that is signed and then shown. -/
def votedOnce : List Act :=
  [.signed (Vector.replicate 32 2) sampleVote sampleSignature, .shown sampleVote sampleSignature]

theorem unforged_votedOnce : Unforged doubling (Vector.replicate 32 2) votedOnce :=
  .shown (.signed .nil _ _ _) fun _ hbytes _ ↦ ⟨sampleVote, List.mem_singleton_self _, hbytes⟩

theorem collisionFree_votedOnce : CollisionFree doubling votedOnce := by
  intro o signature key o' signature' hshown hsigned
  obtain ⟨rfl, -⟩ : o = sampleVote ∧ signature = sampleSignature := by
    simpa [votedOnce] using hshown
  obtain ⟨-, rfl, -⟩ : key = Vector.replicate 32 2 ∧ o' = sampleVote ∧
      signature' = sampleSignature := by simpa [votedOnce] using hsigned
  intro data data' h h' _
  exact Option.some_inj.mp (h.symm.trans h')

theorem signed_of_accepts_vote :
    ∃ o', Act.signed (Vector.replicate 32 2) o' sampleSignature ∈ votedOnce ∧
      Same doubling o' sampleVote := by
  have haccepts : sampleVote.Accepts doubling sampleSignature :=
    verify_doubling.mpr Vector.toList_append
  obtain ⟨key, hkey, h⟩ := (signed_of_accepts (K := doubling) fun _ ↦ rfl).2 votedOnce
    [.signed (Vector.replicate 32 2) sampleVote sampleSignature] [] sampleVote sampleSignature
    collisionFree_votedOnce rfl haccepts
  obtain rfl := Option.some_inj.mp hkey
  obtain ⟨o', hmem, hsame⟩ := h unforged_votedOnce
  exact ⟨o', List.mem_append_left [_] hmem, hsame⟩

end SignedObject

end Arxia
