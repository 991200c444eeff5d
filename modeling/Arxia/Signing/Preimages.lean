import Arxia.Consensus.Conflict
import Arxia.Lattice.ReferenceNetwork
import Arxia.Rust.Bytes

/-!
# What is signed by its digest

Blocks and votes are signed over a Blake3 hash, without a domain prefix. What tells them apart is
what is hashed. The content of a block is text that determines all of its fields, and it is longer
than the 80 bytes of a vote whatever the fields are: the account alone is 64 characters, and the
JSON of the block type and the five separators make up for the rest.
-/

namespace Arxia

open Rust Reference

namespace VoteORV

/-- The content of a vote. -/
def hashData (blockHash : BlockHash) (voterPubkey : AccountId) (delegatedStake nonce : UInt64) :
    List UInt8 :=
  blockHash.toList ++ voterPubkey.toList ++ leBytes 8 delegatedStake.toNat ++
    leBytes 8 nonce.toNat

/-- Computes the Blake3 hash of a vote content. -/
def computeVoteHash (K : Crypto) (blockHash : BlockHash) (voterPubkey : AccountId)
    (delegatedStake nonce : UInt64) : BlockHash :=
  K.blake3 (hashData blockHash voterPubkey delegatedStake nonce)

/-- Verifies the cryptographic signature on a vote. -/
def verify (K : Crypto) (vote : VoteORV) : Except ArxiaError Unit :=
  K.verify vote.voterPubkey
    (computeVoteHash K vote.blockHash vote.voterPubkey vote.delegatedStake vote.nonce).toList
    vote.signature

theorem length_hashData (blockHash : BlockHash) (voterPubkey : AccountId)
    (delegatedStake nonce : UInt64) :
    (hashData blockHash voterPubkey delegatedStake nonce).length = 80 := by
  simp [hashData]

end VoteORV

namespace Block

variable {K : Crates}

/-! ## Unambiguous contents -/

/-- **Hash preimages are unambiguous**: two tuples of fields that `compute_hash` accepts, and of
which the contents are equal, are equal. -/
theorem content_inj_of_computeHash (hserde : Serde K) {account account' previous previous' : String}
    {blockType blockType' : BlockType} {balance balance' nonce nonce' timestamp timestamp' : UInt64}
    {hash hash' btJson btJson' : String}
    (h : computeHash K account previous blockType balance nonce timestamp = .ok hash)
    (h' : computeHash K account' previous' blockType' balance' nonce' timestamp' = .ok hash')
    (hjson : K.blockTypeJson blockType = .ok btJson)
    (hjson' : K.blockTypeJson blockType' = .ok btJson')
    (hcontent : content account previous btJson balance nonce timestamp =
      content account' previous' btJson' balance' nonce' timestamp') :
    account = account' ∧ previous = previous' ∧ blockType = blockType' ∧ balance = balance' ∧
      nonce = nonce' ∧ timestamp = timestamp' := by
  let b : Block := ⟨account, previous, blockType, balance, nonce, timestamp, hash, []⟩
  let b' : Block := ⟨account', previous', blockType', balance', nonce', timestamp', hash', []⟩
  have hv : b.Hashed K := computeHash_eq_ok.mp h
  have hv' : b'.Hashed K := computeHash_eq_ok.mp h'
  obtain ⟨ha, hp, ht, hb, hn, hs⟩ := sameContents_of_preimage hserde hv.colon_notMem
    hv'.colon_notMem (preimage_eq_some.mpr ⟨btJson, hjson, rfl⟩)
    (preimage_eq_some.mpr ⟨btJson', hjson', hcontent.symm⟩)
  exact ⟨ha, hp, ht, hb, hn, hs⟩

/-- The reference instance hashes what its users write. -/
theorem exists_computeHash_alice (previous : String) (t : BlockType) :
    ∃ hash, computeHash serde alice previous t 5 1 0 = .ok hash :=
  ⟨_, computeHash_eq_ok (b := ⟨alice, previous, t, 5, 1, 0, Hex.encode (checksum (asBytes
    (content alice previous (String.ofList t.json) 5 1 0))).toList, []⟩) |>.mpr
      ⟨⟨_, Crypto.accountKey_eq_ok.mpr decode_alice, rfl⟩, ⟨_, rfl, rfl⟩⟩⟩

/-- A separator can be in `previous`, or in a field of the block type. -/
theorem content_inj_of_computeHash_sample :
    content alice ":" (String.ofList (BlockType.receive "").json) 5 1 0 ≠
      content alice "" (String.ofList (BlockType.receive ":").json) 5 1 0 := by
  obtain ⟨hash, h⟩ := exists_computeHash_alice ":" (.receive "")
  obtain ⟨hash', h'⟩ := exists_computeHash_alice "" (.receive ":")
  intro heq
  exact absurd (content_inj_of_computeHash serde_serde h h' rfl rfl heq).2.1 (by decide)

/-! ## Contents and votes -/

theorem length_json (t : BlockType) : 11 ≤ t.json.length := by
  cases t
  · exact Json.length_le_length_variant "Open" _
  · exact Json.length_le_length_variant "Send" _
  · exact (by decide : 11 ≤ 14).trans (Json.length_le_length_variant "Receive" _)
  · exact (by decide : 11 ≤ 13).trans (Json.length_le_length_variant "Revoke" _)

/-- **The content of a block is longer than that of a vote.** -/
theorem lt_length_content {account : String} {key : AccountId} (previous : String) (t : BlockType)
    (balance nonce timestamp : UInt64)
    (hkey : Hex.decode account.toList = some key.toList) :
    80 < (asBytes
      (content account previous (String.ofList t.json) balance nonce timestamp)).length := by
  have haccount := (Hex.decode_eq_some hkey).1
  rw [Vector.length_toList, String.length_toList] at haccount
  have hjson := length_json t
  have hnumber := Nat.length_repr_pos (n := timestamp.toNat)
  have hlength := length_le_length_asBytes
    (content account previous (String.ofList t.json) balance nonce timestamp)
  have hcolon : ":".length = 1 := rfl
  simp only [content, String.length_append, String.length_ofList, hcolon, haccount] at hlength
  simp only [content]
  omega

end Block

end Arxia
