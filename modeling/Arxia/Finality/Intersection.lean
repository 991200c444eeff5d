import Arxia.Core.Error
import Arxia.Finality.Quorum
import Arxia.Rust.Counters
import Mathlib.Algebra.Order.BigOperators.Group.Finset

/-!
# Two quorums intersect

An assessment that returns L2 has verified every vote that counts, and with a total of at most the
whole supply nothing saturates. Two thirds of the stake stand behind each of two such blocks, then,
and a third of it behind both.
-/

namespace Arxia

open Rust Finset

/-- Sets of weights in a common one overlap in what they have too much. -/
theorem sum_add_sum_le {ι : Type} [DecidableEq ι] {A B S : Finset ι} (hA : A ⊆ S) (hB : B ⊆ S)
    (w : ι → ℕ) : ∑ i ∈ A, w i + ∑ i ∈ B, w i ≤ ∑ i ∈ S, w i + ∑ i ∈ A ∩ B, w i := by
  have hunion : ∑ i ∈ A ∪ B, w i ≤ ∑ i ∈ S, w i := sum_le_sum_of_subset (union_subset hA hB)
  rw [← sum_union_inter]
  exact Nat.add_le_add_right hunion _

/-- The registered validators. -/
def ValidatorRegistry.members (registry : ValidatorRegistry) : Finset AccountId :=
  registry.validators.keys.toFinset

/-- The validator has a valid vote for the block in the list. -/
def HasValidVote (K : Crypto) (pubkey : AccountId) (blockHash : BlockHash)
    (votes : List SignedValidatorVote) : Prop :=
  ∃ vote ∈ votes, vote.validatorPubkey = pubkey ∧ vote.blockHash = blockHash ∧
    vote.verify K = .ok ()

instance (K : Crypto) (pubkey : AccountId) (blockHash : BlockHash)
    (votes : List SignedValidatorVote) : Decidable (HasValidVote K pubkey blockHash votes) :=
  inferInstanceAs (Decidable (∃ vote ∈ votes, _))

/-- The stake of the registered validators that have a valid vote for each of two blocks. -/
def doubleVotedStake (K : Crypto) (registry : ValidatorRegistry) (blockHash blockHash' : BlockHash)
    (votes votes' : List SignedValidatorVote) : ℕ :=
  ∑ pubkey ∈ registry.members with
    HasValidVote K pubkey blockHash votes ∧ HasValidVote K pubkey blockHash' votes',
    registry.stake pubkey

variable {K : Crypto} {registry : ValidatorRegistry} {blockHash blockHash' : BlockHash}
  {votes votes' : List SignedValidatorVote}

theorem mem_voters {pubkey : AccountId} : pubkey ∈ voters registry blockHash votes ↔
    ∃ vote ∈ votes, vote.validatorPubkey = pubkey ∧ vote.blockHash = blockHash ∧
      registry.contains pubkey = true := by
  simp only [voters, List.mem_toFinset, List.mem_map, List.mem_filter, Bool.and_eq_true,
    decide_eq_true_eq]
  constructor
  · rintro ⟨vote, ⟨hmem, hhash, hreg⟩, rfl⟩
    exact ⟨vote, hmem, rfl, hhash, hreg⟩
  · rintro ⟨vote, hmem, rfl, hhash, hreg⟩
    exact ⟨vote, ⟨hmem, hhash, hreg⟩, rfl⟩

theorem mem_members {pubkey : AccountId} :
    pubkey ∈ registry.members ↔ registry.contains pubkey = true := by
  rw [ValidatorRegistry.members, List.mem_toFinset, ValidatorRegistry.contains,
    decide_eq_true_iff]
  exact AList.mem_keys.symm

theorem voters_subset_members (registry : ValidatorRegistry) (blockHash : BlockHash)
    (votes : List SignedValidatorVote) : voters registry blockHash votes ⊆ registry.members := by
  intro pubkey h
  obtain ⟨-, -, -, -, hreg⟩ := mem_voters.mp h
  exact mem_members.mpr hreg

/-- Where every vote that counts verifies, the voters have valid votes. -/
theorem hasValidVote_of_mem_voters (hverify : VotesVerify K registry blockHash votes)
    {pubkey : AccountId} (h : pubkey ∈ voters registry blockHash votes) :
    HasValidVote K pubkey blockHash votes := by
  obtain ⟨vote, hmem, rfl, hhash, hreg⟩ := mem_voters.mp h
  exact ⟨vote, hmem, rfl, hhash, hverify vote hmem hhash hreg⟩

theorem exactTotal_eq_sum : registry.exactTotal = ∑ pubkey ∈ registry.members,
    registry.stake pubkey :=
  HashMap.total_eq_sum fun _ hk ↦ List.mem_toFinset.mpr (AList.mem_keys.mpr hk)

theorem votesVerify_of_assessFinality {amountMicroArx : UInt64}
    {confirmations : List SignedConfirmation} {syncResult : SyncResult} {level : FinalityLevel}
    (htotal : 0 < registry.exactTotal) (h : assessFinality K amountMicroArx blockHash confirmations
      syncResult votes registry = .ok level) : VotesVerify K registry blockHash votes := by
  rw [assessFinality, bind_eq_ok] at h
  obtain ⟨reached, hreached, -⟩ := h
  exact votesVerify_of_quorumReached htotal hreached

/-- **L2 is two thirds of the stake**, where nothing saturates. -/
theorem two_thirds_of_assessFinality {amountMicroArx : UInt64}
    {confirmations : List SignedConfirmation} {syncResult : SyncResult}
    (htotal : 0 < registry.exactTotal)
    (hsupply : registry.exactTotal ≤ TOTAL_SUPPLY_MICRO_ARX.toNat)
    (h : assessFinality K amountMicroArx blockHash confirmations syncResult votes registry =
      .ok .L2) : 67 * registry.exactTotal ≤ 100 * votedStake registry blockHash votes := by
  have hsupply' : TOTAL_SUPPLY_MICRO_ARX.toNat = 1000000000000000 := by decide
  obtain ⟨-, hproducts⟩ :=
    (assessFinality_eq_L2 (votesVerify_of_assessFinality htotal h)).mp h
  rw [u64Max] at hproducts
  omega

/-- **Quorum intersection.** Behind two blocks that are both L2-final a third of the stake has
voted twice. -/
theorem le_doubleVotedStake {amountMicroArx amountMicroArx' : UInt64}
    {confirmations confirmations' : List SignedConfirmation} {syncResult syncResult' : SyncResult}
    (htotal : 0 < registry.exactTotal)
    (hsupply : registry.exactTotal ≤ TOTAL_SUPPLY_MICRO_ARX.toNat)
    (h : assessFinality K amountMicroArx blockHash confirmations syncResult votes registry =
      .ok .L2)
    (h' : assessFinality K amountMicroArx' blockHash' confirmations' syncResult' votes' registry =
      .ok .L2) :
    34 * registry.exactTotal ≤
        100 * doubleVotedStake K registry blockHash blockHash' votes votes' ∧
      registry.exactTotal < 3 * doubleVotedStake K registry blockHash blockHash' votes votes' := by
  have hquorum := two_thirds_of_assessFinality htotal hsupply h
  have hquorum' := two_thirds_of_assessFinality htotal hsupply h'
  have hoverlap := sum_add_sum_le (voters_subset_members registry blockHash votes)
    (voters_subset_members registry blockHash' votes') registry.stake
  have hdouble : ∑ pubkey ∈ voters registry blockHash votes ∩ voters registry blockHash' votes',
      registry.stake pubkey ≤ doubleVotedStake K registry blockHash blockHash' votes votes' := by
    refine sum_le_sum_of_subset fun pubkey hboth ↦ ?_
    obtain ⟨hleft, hright⟩ := mem_inter.mp hboth
    refine mem_filter.mpr ⟨voters_subset_members _ _ _ hleft, ?_, ?_⟩
    · exact hasValidVote_of_mem_voters (votesVerify_of_assessFinality htotal h) hleft
    · exact hasValidVote_of_mem_voters (votesVerify_of_assessFinality htotal h') hright
  -- two times two thirds are a third more than all of the stake
  rw [← exactTotal_eq_sum, ← votedStake, ← votedStake] at hoverlap
  omega

theorem le_doubleVotedStake_ballots :
    34 * Reference.threeValidators.exactTotal ≤ 100 * doubleVotedStake Reference.crypto
        Reference.threeValidators (Reference.validator 8) (Reference.validator 9)
        (Reference.ballots (Reference.validator 2) (Reference.validator 8))
        (Reference.ballots (Reference.validator 3) (Reference.validator 9)) ∧
      Reference.threeValidators.exactTotal < 3 * doubleVotedStake Reference.crypto
        Reference.threeValidators (Reference.validator 8) (Reference.validator 9)
        (Reference.ballots (Reference.validator 2) (Reference.validator 8))
        (Reference.ballots (Reference.validator 3) (Reference.validator 9)) := by
  have hfirst : assessFinality Reference.crypto 0 (Reference.validator 8) [] .noNeighbors
      (Reference.ballots (Reference.validator 2) (Reference.validator 8))
      Reference.threeValidators = .ok .L2 := by decide +kernel
  have hsecond : assessFinality Reference.crypto 0 (Reference.validator 9) [] .noNeighbors
      (Reference.ballots (Reference.validator 3) (Reference.validator 9))
      Reference.threeValidators = .ok .L2 := by decide +kernel
  exact le_doubleVotedStake (by decide +kernel) (by decide +kernel) hfirst hsecond

end Arxia
