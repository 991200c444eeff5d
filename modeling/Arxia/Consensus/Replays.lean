import Arxia.Consensus.Conflict
import Arxia.Lists.Edits
import Mathlib.Algebra.Order.BigOperators.Group.List

/-!
# Votes that are counted again

The stakes on both sides are sums over the lists as they are given. A vote that comes twice counts
twice, and a vote for some other block counts like one for the block it is listed with. Whatever the
lists are, a few votes for other blocks change the outcome, except where adding up the stakes panics
already.
-/

namespace Arxia

open Rust Lists

/-- The vote is for another block than the one it is listed with. -/
def VoteORV.Misfiled (block : Block) (vote : VoteORV) : Prop :=
  Hex.encode vote.blockHash.toList ≠ block.hash

/-- Neither repeated nor misfiled votes make a difference. -/
def OneVoteEach (m : Overflow) (blockA blockB : Block) (votesA votesB : List VoteORV) : Prop :=
  ∀ votesA' votesB', Padded (VoteORV.Misfiled blockA) votesA votesA' →
    Padded (VoteORV.Misfiled blockB) votesB votesB' →
    (resolveConflictOrv m blockA blockB votesA' votesB').exec =
      (resolveConflictOrv m blockA blockB votesA votesB).exec

/-- There are votes for other blocks, of any stake. -/
theorem exists_misfiled (block : Block) (stake : UInt64) :
    ∃ vote : VoteORV, vote.Misfiled block ∧ vote.delegatedStake = stake := by
  by_contra hnone
  push Not at hnone
  have hhash : ∀ blockHash : BlockHash, Hex.encode blockHash.toList = block.hash := by
    intro blockHash
    by_contra hne
    exact hnone ⟨blockHash, Vector.replicate 32 0, stake, 0, Vector.replicate 64 0⟩ hne rfl
  have heq := Hex.encode_injective
    ((hhash (Vector.replicate 32 0)).trans (hhash (Vector.replicate 32 1)).symm)
  exact absurd heq (by decide)

/-- What the votes of a list add up to. -/
def listedStake (votes : List VoteORV) : ℕ :=
  UInt64.exactSum (votes.map VoteORV.delegatedStake)

theorem listedStake_cons (vote : VoteORV) (votes : List VoteORV) :
    listedStake (vote :: votes) = vote.delegatedStake.toNat + listedStake votes := by
  rw [listedStake, List.map_cons, UInt64.exactSum_cons, listedStake]

theorem listedStake_mono {votes votes' : List VoteORV} (h : votes.Sublist votes') :
    listedStake votes ≤ listedStake votes' := by
  rw [listedStake, listedStake, UInt64.exactSum, UInt64.exactSum]
  exact ((h.map _).map _).sum_le_sum fun _ _ ↦ Nat.zero_le _

/-- With overflow checks, a few misfiled votes make adding up panic. -/
theorem exists_padded_panics (block : Block) (votes : List VoteORV) :
    ∃ votes', Padded (VoteORV.Misfiled block) votes votes' ∧ u64Max < listedStake votes' := by
  obtain ⟨vote, hmisfiled, hstake⟩ := exists_misfiled block (UInt64.ofNat u64Max)
  refine ⟨vote :: vote :: votes, ((Padded.refl _ votes).cons hmisfiled).cons hmisfiled, ?_⟩
  rw [listedStake_cons, listedStake_cons, hstake, UInt64.toNat_ofNat_u64Max, u64Max]
  omega

/-- Without them, one misfiled vote makes the sum anything. -/
theorem exists_padded_wraps (block : Block) (votes : List VoteORV) (stake : UInt64) :
    ∃ votes', Padded (VoteORV.Misfiled block) votes votes' ∧
      stakeOf .wraps ⟨block, votes'⟩ = some stake := by
  obtain ⟨vote, hmisfiled, hstake⟩ :=
    exists_misfiled block (stake - UInt64.ofNat (listedStake votes))
  refine ⟨vote :: votes, (Padded.refl _ votes).cons hmisfiled, ?_⟩
  rw [stakeOf, UInt64.sum_wraps, ← listedStake, listedStake_cons, hstake, UInt64.ofNat_add,
    UInt64.ofNat_toNat, UInt64.sub_add_cancel]

section OneVoteEach

variable {m : Overflow} {blockA blockB : Block} {votesA votesB : List VoteORV}

theorem exec_eq_none_iff (ha : isEligibleForOrv blockA = true)
    (hb : isEligibleForOrv blockB = true) :
    (resolveConflictOrv m blockA blockB votesA votesB).exec = none ↔
      m = .panics ∧ (u64Max < listedStake votesA ∨ u64Max < listedStake votesB) := by
  have hnone : stakeOf m ⟨blockA, votesA⟩ = none ∨ stakeOf m ⟨blockB, votesB⟩ = none ↔
      m = .panics ∧ (u64Max < listedStake votesA ∨ u64Max < listedStake votesB) := by
    rw [stakeOf_eq_none, stakeOf_eq_none, ← and_or_left]
    rfl
  rw [← hnone]
  constructor
  · intro hexec
    by_contra hsome
    rw [not_or] at hsome
    obtain ⟨stakeA, hsa⟩ := Option.ne_none_iff_exists'.mp hsome.1
    obtain ⟨stakeB, hsb⟩ := Option.ne_none_iff_exists'.mp hsome.2
    exact absurd ((exec_of_stakeOf ha hb hsa hsb).symm.trans hexec) (by simp)
  · exact exec_resolveConflictOrv_eq_none ha hb

/-- **When repeated and misfiled votes make no difference**: only where the call panics, with them
or without. -/
theorem oneVoteEach_iff (ha : isEligibleForOrv blockA = true)
    (hb : isEligibleForOrv blockB = true) : OneVoteEach m blockA blockB votesA votesB ↔
      m = .panics ∧ (u64Max < listedStake votesA ∨ u64Max < listedStake votesB) := by
  constructor
  · intro h
    rcases m with _ | _
    · rw [← exec_eq_none_iff ha hb]
      obtain ⟨votesA', hpadded, hoverflow⟩ := exists_padded_panics blockA votesA
      rw [← h votesA' votesB hpadded (Padded.refl _ votesB), exec_eq_none_iff ha hb]
      exact ⟨rfl, Or.inl hoverflow⟩
    · -- no stake at all leaves it to the hash, and the least stake does not
      obtain ⟨votesA₀, hpaddedA₀, hsa₀⟩ := exists_padded_wraps blockA votesA 0
      obtain ⟨votesA₁, hpaddedA₁, hsa₁⟩ := exists_padded_wraps blockA votesA 1
      obtain ⟨votesB₀, hpaddedB₀, hsb₀⟩ := exists_padded_wraps blockB votesB 0
      have hhash := exec_of_stakeOf ha hb hsa₀ hsb₀
      have hstake := exec_of_stakeOf ha hb hsa₁ hsb₀
      rw [h votesA₀ votesB₀ hpaddedA₀ hpaddedB₀, if_neg (by decide)] at hhash
      rw [h votesA₁ votesB₀ hpaddedA₁ hpaddedB₀, if_pos (by decide), hhash] at hstake
      simp at hstake
  · rintro ⟨rfl, hoverflow⟩ votesA' votesB' hpaddedA hpaddedB
    have hoverflow' : u64Max < listedStake votesA' ∨ u64Max < listedStake votesB' :=
      hoverflow.imp (fun h ↦ h.trans_le (listedStake_mono hpaddedA.sublist))
        fun h ↦ h.trans_le (listedStake_mono hpaddedB.sublist)
    rw [(exec_eq_none_iff ha hb).mpr ⟨rfl, hoverflow⟩,
      (exec_eq_none_iff ha hb).mpr ⟨rfl, hoverflow'⟩]

end OneVoteEach

theorem oneVoteEach_iff_pair :
    OneVoteEach .panics (candidate "01" 100).block (candidate "02" 106).block
        (candidate "01" 100).votes (candidate "02" 106).votes ↔
      Overflow.panics = .panics ∧ (u64Max < listedStake (candidate "01" 100).votes ∨
        u64Max < listedStake (candidate "02" 106).votes) :=
  oneVoteEach_iff (by decide) (by decide)

/-- The two stakes are within a twentieth of each other until one of the votes comes twice. -/
theorem not_forall_oneVoteEach :
    ¬ ∀ (m : Overflow) (blockA blockB : Block) (votesA votesB : List VoteORV),
      isEligibleForOrv blockA = true → isEligibleForOrv blockB = true →
      OneVoteEach m blockA blockB votesA votesB := by
  intro h
  let hashA : BlockHash := Vector.replicate 32 1
  let hashB : BlockHash := Vector.replicate 32 2
  let blockA := (candidate (Hex.encode hashA.toList) 0).block
  let blockB := (candidate (Hex.encode hashB.toList) 0).block
  let voteA : VoteORV := ⟨hashA, Vector.replicate 32 5, 100, 1, Vector.replicate 64 0⟩
  let voteB : VoteORV := ⟨hashB, Vector.replicate 32 6, 106, 1, Vector.replicate 64 0⟩
  have honce : (resolveConflictOrv .panics blockA blockB [voteA] [voteB]).exec =
      some (.ok (blockA, "hash_tiebreaker")) := by decide +kernel
  have htwice : (resolveConflictOrv .panics blockA blockB [voteA] [voteB, voteB]).exec =
      some (.ok (blockB, "stake_weighted")) := by decide +kernel
  have hsame := h .panics blockA blockB [voteA] [voteB] (by decide) (by decide) [voteA]
    [voteB, voteB] (Padded.refl _ _) (Padded.again _ voteB [])
  rw [honce, htwice] at hsame
  simp at hsame

end Arxia
