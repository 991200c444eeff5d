import Arxia.Consensus.Decision
import Arxia.Signing.Preimages

/-!
# Casting, admitting and collecting votes

A representative casts a vote by signing it. A node that receives one checks the signature and that
it knows the block the vote is for, and only then may the vote be counted. Of the votes it counts
those of representatives with a thousandth of the supply delegated to them.
-/

namespace Arxia

open Rust

/-- The errors of `VoteORV.verifyKnown`: those of `VoteORV.verify`, and the one of a vote for a
block that has not been seen. -/
inductive VoteError
  | arxia (e : ArxiaError)
  | unknownVoteTarget (blockHash : String)
  deriving DecidableEq

/-- Ingress validation of a received vote: its signature and its target. -/
def VoteORV.verifyKnown (K : Crypto) (knownBlocks : Finset BlockHash) (vote : VoteORV) :
    Except VoteError Unit := do
  (vote.verify K).mapError .arxia
  ensure (vote.blockHash ∈ knownBlocks) (.unknownVoteTarget (Hex.encode vote.blockHash.toList))

/-- Minimum stake denominator for representative eligibility. -/
def MIN_REPRESENTATIVE_STAKE_DENOM : UInt64 := 1_000

variable {K : Crypto} {vote : VoteORV}

/-! ## Ingress -/

theorem verifyKnown_eq_ok {knownBlocks : Finset BlockHash} :
    vote.verifyKnown K knownBlocks = .ok () ↔
      vote.verify K = .ok () ∧ vote.blockHash ∈ knownBlocks := by
  simp only [VoteORV.verifyKnown, bind_eq_ok, mapError_eq_ok, ensure_eq_ok]
  constructor
  · rintro ⟨_, hverify, hknown⟩
    exact ⟨hverify, hknown⟩
  · rintro ⟨hverify, hknown⟩
    exact ⟨(), hverify, hknown⟩

/-! ## Collecting -/

end Arxia
