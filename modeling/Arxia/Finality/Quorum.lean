import Arxia.Core.Crypto
import Arxia.Finality.Assess
import Mathlib.Algebra.BigOperators.Intervals

/-!
# The two-thirds quorum in exact arithmetic

The vote loop adds the stake of each distinct registered voter once, and the comparison that decides
L2 is `100 * accepted ≥ 67 * total`. Both sides saturate. Saturating the sums is harmless, because
the products saturate anyway; saturating the products is not. Once `100 * accepted` reaches
`u64::MAX` the comparison holds whatever the total is, and with a total of more than
`u64::MAX / 67` a hundredth of it is already enough to get there.
-/

namespace Arxia

open Rust Finset

/-! ## What the loop adds up -/

/-- The distinct registered validators having a vote for the block. -/
def voters (registry : ValidatorRegistry) (blockHash : BlockHash)
    (votes : List SignedValidatorVote) : Finset AccountId :=
  ((votes.filter fun vote ↦ decide (vote.blockHash = blockHash) &&
    registry.contains vote.validatorPubkey).map SignedValidatorVote.validatorPubkey).toFinset

namespace ValidatorRegistry

/-- The stake of a key as an exact integer. -/
def stake (registry : ValidatorRegistry) (pubkey : AccountId) : ℕ :=
  ((registry.stakeOf pubkey).getD 0).toNat

/-- The exact sum of the registered stakes. -/
def exactTotal (registry : ValidatorRegistry) : ℕ :=
  HashMap.total (fun _ stake ↦ stake.toNat) registry.validators

theorem toNat_totalStake (registry : ValidatorRegistry) :
    registry.totalStake.toNat = min registry.exactTotal u64Max := by
  rw [totalStake, UInt64.toNat_foldl_saturatingAdd, UInt64.toNat_zero, Nat.zero_add,
    UInt64.exactSum, List.map_map]
  rfl

end ValidatorRegistry

/-- The exact sum of the stakes of the voters. -/
def votedStake (registry : ValidatorRegistry) (blockHash : BlockHash)
    (votes : List SignedValidatorVote) : ℕ :=
  ∑ pubkey ∈ voters registry blockHash votes, registry.stake pubkey

/-- Every vote for the block from a registered key carries a valid signature. -/
def VotesVerify (K : Crypto) (registry : ValidatorRegistry) (blockHash : BlockHash)
    (votes : List SignedValidatorVote) : Prop :=
  ∀ vote ∈ votes, vote.blockHash = blockHash →
    registry.contains vote.validatorPubkey = true → vote.verify K = .ok ()

section Loop

variable {K : Crypto} {registry : ValidatorRegistry} {blockHash : BlockHash}

theorem voters_cons_of_ignored {vote : SignedValidatorVote} {votes : List SignedValidatorVote}
    (h : ¬ (vote.blockHash = blockHash ∧ registry.contains vote.validatorPubkey = true)) :
    voters registry blockHash (vote :: votes) = voters registry blockHash votes := by
  rw [voters, List.filter_cons_of_neg (by simpa using h), ← voters]

theorem voters_cons_of_counts {vote : SignedValidatorVote} {votes : List SignedValidatorVote}
    (hhash : vote.blockHash = blockHash) (hreg : registry.contains vote.validatorPubkey = true) :
    voters registry blockHash (vote :: votes) =
      insert vote.validatorPubkey (voters registry blockHash votes) := by
  rw [voters, List.filter_cons_of_pos (by simp [hhash, hreg]), List.map_cons, List.toFinset_cons,
    ← voters]

/-- **The vote loop.** It returns the stake counted before plus the stakes of the voters not
counted before, capped at the end. -/
theorem exists_countVotes {votes : List SignedValidatorVote}
    (hverify : VotesVerify K registry blockHash votes) :
    ∀ counted acceptedStake, ∃ accepted,
      countVotes K registry blockHash votes counted acceptedStake = .ok accepted ∧
        accepted.toNat = min (acceptedStake.toNat +
          ∑ pubkey ∈ voters registry blockHash votes \ counted, registry.stake pubkey) u64Max := by
  induction votes with
  | nil =>
    intro counted acceptedStake
    refine ⟨acceptedStake, rfl, ?_⟩
    rw [voters, List.filter_nil, List.map_nil, List.toFinset_nil, empty_sdiff, sum_empty,
      Nat.add_zero, min_eq_left acceptedStake.toNat_le_u64Max]
  | cons vote votes ih =>
    intro counted acceptedStake
    have hrest := ih fun v hv ↦ hverify v (List.mem_cons_of_mem vote hv)
    rw [countVotes]
    by_cases hhash : vote.blockHash = blockHash
    · rw [if_neg (not_not.mpr hhash)]
      cases hreg : registry.contains vote.validatorPubkey with
      | false =>
        rw [if_pos rfl, voters_cons_of_ignored (by simp [hreg])]
        exact hrest counted acceptedStake
      | true =>
        rw [if_neg (by simp), hverify vote List.mem_cons_self hhash hreg,
          voters_cons_of_counts hhash hreg]
        by_cases hseen : vote.validatorPubkey ∈ counted
        · rw [insert_sdiff_of_mem _ hseen]
          obtain ⟨accepted, hcount, hsum⟩ := hrest counted acceptedStake
          exact ⟨accepted, by rw [← hcount]; exact if_pos hseen, hsum⟩
        · -- a new voter: its stake moves from the remaining sum to the accumulator
          obtain ⟨accepted, hcount, hsum⟩ := hrest (insert vote.validatorPubkey counted)
            (acceptedStake.saturatingAdd ((registry.stakeOf vote.validatorPubkey).getD 0))
          refine ⟨accepted, by rw [← hcount]; exact if_neg hseen, ?_⟩
          have hsplit : ∑ pubkey ∈ insert vote.validatorPubkey (voters registry blockHash votes) \
              counted, registry.stake pubkey = registry.stake vote.validatorPubkey +
                ∑ pubkey ∈ voters registry blockHash votes \ insert vote.validatorPubkey counted,
                  registry.stake pubkey := by
            rw [insert_sdiff_of_notMem _ hseen, ← sum_insert (by simp)]
            congr 1
            ext pubkey
            by_cases hkey : pubkey = vote.validatorPubkey <;> simp [hkey]
          rw [hsum, hsplit, UInt64.toNat_saturatingAdd, ← ValidatorRegistry.stake]
          omega
    · rw [if_pos hhash, voters_cons_of_ignored (fun h ↦ hhash h.1)]
      exact hrest counted acceptedStake

/-- A loop that ends has verified every vote that counts. -/
theorem votesVerify_of_countVotes {votes : List SignedValidatorVote} :
    ∀ counted acceptedStake accepted,
      countVotes K registry blockHash votes counted acceptedStake = .ok accepted →
        VotesVerify K registry blockHash votes := by
  induction votes with
  | nil =>
    intro _ _ _ _ vote hmem
    exact absurd hmem List.not_mem_nil
  | cons vote votes ih =>
    intro counted acceptedStake accepted hcount
    rw [countVotes] at hcount
    refine List.forall_mem_cons.mpr ⟨fun hhash hreg ↦ ?_, ?_⟩
    · rw [if_neg (not_not.mpr hhash), if_neg (by simp [hreg]), bind_eq_ok] at hcount
      obtain ⟨_, hverify, -⟩ := hcount
      exact hverify
    · split at hcount
      · exact ih _ _ _ hcount
      split at hcount
      · exact ih _ _ _ hcount
      obtain ⟨_, -, hcount⟩ := bind_eq_ok.mp hcount
      split at hcount
      · exact ih _ _ _ hcount
      · exact ih _ _ _ hcount

end Loop

/-! ## The comparison -/

theorem totalStake_pos {registry : ValidatorRegistry} :
    0 < registry.totalStake ↔ 0 < registry.exactTotal := by
  rw [UInt64.lt_iff_toNat_lt, registry.toNat_totalStake, UInt64.toNat_zero, u64Max]
  omega

theorem quorumReached_eq {K : Crypto} {blockHash : BlockHash} {votes : List SignedValidatorVote}
    {registry : ValidatorRegistry} (hverify : VotesVerify K registry blockHash votes) :
    quorumReached K blockHash votes registry = .ok (decide (0 < registry.exactTotal ∧
      min (67 * registry.exactTotal) u64Max ≤
        min (100 * votedStake registry blockHash votes) u64Max)) := by
  rw [quorumReached]
  by_cases htotal : 0 < registry.exactTotal
  · obtain ⟨accepted, hcount, hsum⟩ := exists_countVotes hverify ∅ 0
    rw [sdiff_empty, UInt64.toNat_zero, Nat.zero_add, ← votedStake] at hsum
    rw [if_pos (totalStake_pos.mpr htotal), hcount]
    refine congrArg Except.ok (decide_eq_decide.mpr ?_)
    rw [UInt64.le_iff_toNat_le, UInt64.toNat_saturatingMul, UInt64.toNat_saturatingMul, hsum,
      registry.toNat_totalStake]
    have h67 : (67 : UInt64).toNat = 67 := rfl
    have h100 : (100 : UInt64).toNat = 100 := rfl
    rw [h67, h100]
    omega
  · rw [if_neg (mt totalStake_pos.mp htotal)]
    exact congrArg Except.ok (decide_eq_false fun h ↦ htotal h.1).symm

/-- A registry with stake has every vote that counts verified. -/
theorem votesVerify_of_quorumReached {K : Crypto} {blockHash : BlockHash}
    {votes : List SignedValidatorVote} {registry : ValidatorRegistry}
    (htotal : 0 < registry.exactTotal) {reached : Bool}
    (h : quorumReached K blockHash votes registry = .ok reached) :
    VotesVerify K registry blockHash votes := by
  rw [quorumReached, if_pos (totalStake_pos.mpr htotal), bind_eq_ok] at h
  obtain ⟨accepted, hcount, -⟩ := h
  exact votesVerify_of_countVotes ∅ 0 accepted hcount

/-- When every vote that counts verifies, L2 is decided by the saturated products. -/
theorem assessFinality_eq_L2 {K : Crypto} {amountMicroArx : UInt64} {blockHash : BlockHash}
    {confirmations : List SignedConfirmation} {syncResult : SyncResult}
    {votes : List SignedValidatorVote} {registry : ValidatorRegistry}
    (hverify : VotesVerify K registry blockHash votes) :
    assessFinality K amountMicroArx blockHash confirmations syncResult votes registry = .ok .L2 ↔
      0 < registry.exactTotal ∧ min (67 * registry.exactTotal) u64Max ≤
        min (100 * votedStake registry blockHash votes) u64Max := by
  rw [assessFinality, bind_eq_ok]
  simp only [quorumReached_eq hverify, Except.ok.injEq, exists_eq_left']
  split
  · rename_i h
    exact iff_of_true rfl (of_decide_eq_true h)
  · rename_i h
    refine iff_of_false (fun hL2 ↦ ?_) (mt decide_eq_true h)
    -- the levels below return something else
    split at hL2
    · cases hL2
    split at hL2
    · obtain ⟨found, -, hL2⟩ := bind_eq_ok.mp hL2
      cases found <;> cases hL2
    · cases hL2

namespace Reference

/-- The signed vote of a key holder. -/
def vote (key : AccountId) (blockHash : BlockHash) : SignedValidatorVote :=
  ⟨key, blockHash, (sign key (SignedValidatorVote.canonicalBytes key blockHash)).toList⟩

theorem verifySignature_sign (key : AccountId) (data : List UInt8) :
    verifySignature crypto key data (sign key data).toList = .ok () := by
  rw [verifySignature]
  simp only [bind_eq_ok, ensure_eq_ok, okOr_eq_ok, mapError_eq_ok, toArray_eq_some]
  exact ⟨(), Vector.length_toList, sign key data, rfl, verify_sign key data⟩

theorem verify_vote (key : AccountId) (blockHash : BlockHash) :
    (vote key blockHash).verify crypto = .ok () := by
  simp only [SignedValidatorVote.verify, vote]
  exact verifySignature_sign key _

/-- The key of all this byte. -/
def validator (byte : UInt8) : AccountId := Vector.replicate 32 byte

/-- Two fifths of the stake, and three tenths each. -/
def threeValidators : ValidatorRegistry :=
  ⟨((AList.singleton (validator 3) 30).insert (validator 2) 30).insert (validator 1) 40⟩

/-- The first validator votes twice and another one once; what a stranger sends is not signed. -/
def ballots (second : AccountId) (blockHash : BlockHash) : List SignedValidatorVote :=
  [vote (validator 1) blockHash, ⟨validator 7, blockHash, []⟩, vote (validator 1) blockHash,
    vote second blockHash]

theorem votesVerify_ballots (second : AccountId) (blockHash : BlockHash) :
    VotesVerify crypto threeValidators blockHash (ballots second blockHash) := by
  simp only [VotesVerify, ballots, List.forall_mem_cons]
  have hstranger : threeValidators.contains (validator 7) ≠ true := by decide
  exact ⟨fun _ _ ↦ verify_vote _ _, fun _ hreg ↦ absurd hreg hstranger,
    fun _ _ ↦ verify_vote _ _, fun _ _ ↦ verify_vote _ _, by simp⟩

end Reference

/-- **When the L2 decision is exact**: unless the voted product saturates below two thirds. -/
theorem assessFinality_eq_L2_exact_iff {K : Crypto} {amountMicroArx : UInt64}
    {blockHash : BlockHash} {confirmations : List SignedConfirmation} {syncResult : SyncResult}
    {votes : List SignedValidatorVote} {registry : ValidatorRegistry}
    (hverify : VotesVerify K registry blockHash votes) :
    (assessFinality K amountMicroArx blockHash confirmations syncResult votes registry = .ok .L2 ↔
      0 < registry.exactTotal ∧
        67 * registry.exactTotal ≤ 100 * votedStake registry blockHash votes) ↔
      ¬ (u64Max ≤ 100 * votedStake registry blockHash votes ∧
        100 * votedStake registry blockHash votes < 67 * registry.exactTotal) := by
  rw [assessFinality_eq_L2 hverify]
  omega

theorem assessFinality_eq_L2_exact_ballots :
    0 < Reference.threeValidators.exactTotal ∧ 67 * Reference.threeValidators.exactTotal ≤
      100 * votedStake Reference.threeValidators (Reference.validator 8)
        (Reference.ballots (Reference.validator 2) (Reference.validator 8)) := by
  have hL2 : assessFinality Reference.crypto 0 (Reference.validator 8) [] .noNeighbors
      (Reference.ballots (Reference.validator 2) (Reference.validator 8))
      Reference.threeValidators = .ok .L2 := by decide +kernel
  have hsmall : ¬ u64Max ≤ 100 * votedStake Reference.threeValidators (Reference.validator 8)
      (Reference.ballots (Reference.validator 2) (Reference.validator 8)) := by decide +kernel
  exact ((assessFinality_eq_L2_exact_iff (Reference.votesVerify_ballots _ _)).mpr fun h ↦
    hsmall h.1).mp hL2

/-- Two validators; the first, with under two percent of the stake, votes alone. -/
theorem not_assessFinality_eq_L2_exact :
    ¬ ∀ (amountMicroArx : UInt64) (blockHash : BlockHash)
      (confirmations : List SignedConfirmation) (syncResult : SyncResult)
      (votes : List SignedValidatorVote) (registry : ValidatorRegistry),
      VotesVerify Reference.crypto registry blockHash votes →
      (assessFinality Reference.crypto amountMicroArx blockHash confirmations syncResult votes
        registry = .ok .L2 ↔ 0 < registry.exactTotal ∧
          67 * registry.exactTotal ≤ 100 * votedStake registry blockHash votes) := by
  intro h
  let small : AccountId := Vector.replicate 32 1
  let large : AccountId := Vector.replicate 32 2
  let blockHash : BlockHash := Vector.replicate 32 3
  let votes := [Reference.vote small blockHash]
  let registry : ValidatorRegistry := ⟨(AList.singleton small 184467440737095517).insert large
    10000000000000000000⟩
  have hverify : VotesVerify Reference.crypto registry blockHash votes := by
    intro v hv _ _
    rw [List.mem_singleton.mp hv]
    exact Reference.verify_vote small blockHash
  have htotal : registry.exactTotal = 10184467440737095517 := by decide +kernel
  have hvoted : votedStake registry blockHash votes = 184467440737095517 := by decide +kernel
  have hexact := h 0 blockHash [] .noNeighbors votes registry hverify
  rw [assessFinality_eq_L2 hverify, htotal, hvoted, u64Max] at hexact
  omega

end Arxia
