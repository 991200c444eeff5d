import Arxia.Consensus.Votes
import Arxia.Finality.Safety

/-!
# Nodes that decide a conflict differently

Every node decides a conflict by the votes that have come to it. It admits those with a valid
signature and a known target, lists them with their blocks, and adds up what the eligible
representatives among them have. Votes that are late can make two nodes decide differently, and
nobody is to blame. Once they have heard the same representatives it takes votes that contradict
each other: of the stake that two nodes count between them, a twentieth is listed in votes of
representatives that have signed for both blocks, or have signed two stakes, or in whose name others
have signed.
-/

namespace Arxia

open Lists Rust SignedObject

/-- The vote as it is signed. -/
def VoteORV.object (v : VoteORV) : SignedObject :=
  .orvVote v.blockHash v.voterPubkey v.delegatedStake v.nonce

instance (block : Block) (v : VoteORV) : Decidable (v.Misfiled block) :=
  inferInstanceAs (Decidable (_ ≠ _))

/-- A node has admitted these votes for two blocks. -/
structure Admitted (K : Crates) (acts : List Act) (knownBlocks : Finset BlockHash)
    (blockA blockB : Block) (votes : List VoteORV) : Prop where
  concerned : ∀ v ∈ votes, ¬ v.Misfiled blockA ∨ ¬ v.Misfiled blockB
  verified : ∀ v ∈ votes, v.verifyKnown K.toCrypto knownBlocks = .ok ()
  shown : ∀ v ∈ votes, Act.shown v.object v.signature ∈ acts

variable {K : Crates} {acts : List Act} {knownBlocks knownBlocks' : Finset BlockHash}
  {votes votes' : List VoteORV} {v v' : VoteORV} {totalSupply : UInt64}
  {blockA blockB : Block} {faulty : Finset AccountId}

/-- **An admitted vote has been signed** by its representative. -/
theorem Admitted.signed (h : Admitted K acts knownBlocks blockA blockB votes) (hserde : Serde K)
    (hcf : CollisionFree K acts) (hv : v ∈ votes) (hunforged : Unforged K v.voterPubkey acts) :
    Act.signed v.voterPubkey v.object v.signature ∈ acts := by
  have hshown := h.shown v hv
  obtain ⟨before, after, hacts⟩ := List.append_of_mem hshown
  have hverify : v.object.VerifiesAs K v.voterPubkey v.signature :=
    ⟨_, rfl, (verifyKnown_eq_ok.mp (h.verified v hv)).1⟩
  obtain ⟨o, hsigned, hsame⟩ := hunforged.exists_signed hserde hacts hverify
    fun o' signature' ↦ hcf _ _ _ o' signature' hshown
  cases o with
  | orvVote =>
    obtain ⟨rfl, rfl, rfl, rfl⟩ := hsame
    exact hacts ▸ List.mem_append_left _ hsigned
  | _ => exact hsame.elim

/-- Who votes, for what, and with what stake. -/
def VoteORV.ballot (v : VoteORV) : AccountId × BlockHash × UInt64 :=
  (v.voterPubkey, v.blockHash, v.delegatedStake)

/-- A vote with this block and this stake counts for the block. -/
def Counts (totalSupply : UInt64) (block : Block) (ballot : AccountId × BlockHash × UInt64) :
    Bool :=
  Hex.encode ballot.2.1.toList = block.hash ∧
    totalSupply / MIN_REPRESENTATIVE_STAKE_DENOM ≤ ballot.2.2

namespace Reference

/-- The bytes of a block hash, or of a key. -/
def filled (byte : UInt8) : BlockHash := Vector.replicate 32 byte

end Reference

end Arxia
