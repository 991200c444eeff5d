import Arxia.Finality.Intersection
import Arxia.Finality.Latch
import Arxia.Lattice.ReferenceNetwork
import Arxia.Signing.Authenticity

/-!
# Safety of finality

Every node has a latch of its own, and assesses blocks with the votes that have come to it. What two
latches hold for two blocks goes back to two assessments, each with two thirds of the stake behind
it, and every vote that counted there has been signed by its validator. So unless a third of the
stake belongs to validators that have voted for both blocks, or have lost their keys, no two nodes
have the blocks of a double spend at L2, whenever each of them looks.
-/

namespace Arxia

open Rust Finset SignedObject

variable {K : Crates} {acts : List Act} {registry : ValidatorRegistry}
  {blockHash blockHash' : BlockHash} {votes votes' : List SignedValidatorVote} {key : AccountId}

/-- The votes have been shown with their signatures. -/
def VotesShown (acts : List Act) (votes : List SignedValidatorVote) : Prop :=
  ∀ vote ∈ votes, ∀ signature : SignatureBytes, signature.toList = vote.signature →
    Act.shown (.validatorVote vote.validatorPubkey vote.blockHash) signature ∈ acts

/-- Nobody but the validator votes in its name, and it does not vote for both blocks. -/
structure VotesForOne (K : Crates) (acts : List Act) (blockHash blockHash' : BlockHash)
    (key : AccountId) : Prop where
  unforged : Unforged K key acts
  once : ∀ signature signature', Act.signed key (.validatorVote key blockHash) signature ∈ acts →
    Act.signed key (.validatorVote key blockHash') signature' ∉ acts

/-- **A valid vote has been signed.** -/
theorem HasValidVote.exists_signed (h : HasValidVote K.toCrypto key blockHash votes)
    (hserde : Serde K) (hshown : VotesShown acts votes) (hunforged : Unforged K key acts) :
    ∃ signature, Act.signed key (.validatorVote key blockHash) signature ∈ acts := by
  obtain ⟨vote, hmem, rfl, rfl, hverify⟩ := h
  simp only [SignedValidatorVote.verify, verifySignature, bind_eq_ok, mapError_eq_ok, okOr_eq_ok,
    toArray_eq_some] at hverify
  obtain ⟨_, -, signature, hsignature, hverify⟩ := hverify
  obtain ⟨before, after, hacts⟩ := List.append_of_mem (hshown vote hmem signature hsignature)
  obtain ⟨o, hsigned, hsame⟩ := hunforged.exists_signed hserde hacts ⟨_, rfl, hverify⟩
    fun o' signature' _ ↦ noCollision_of_preimage_eq_none rfl
  cases o with
  | validatorVote pubkey hash =>
    obtain ⟨rfl, rfl⟩ := hsame
    exact ⟨signature, hacts ▸ List.mem_append_left _ hsigned⟩
  | _ => exact hsame.elim

/-- Validators that vote for one of the blocks only are not behind both quorums. -/
theorem inter_voters_subset (hserde : Serde K) {faulty : Finset AccountId}
    (hone : ∀ key ∈ registry.members, key ∉ faulty → VotesForOne K acts blockHash blockHash' key)
    (hverify : VotesVerify K.toCrypto registry blockHash votes)
    (hverify' : VotesVerify K.toCrypto registry blockHash' votes')
    (hshown : VotesShown acts votes) (hshown' : VotesShown acts votes') :
    voters registry blockHash votes ∩ voters registry blockHash' votes' ⊆
      registry.members ∩ faulty := by
  intro key hboth
  obtain ⟨hleft, hright⟩ := mem_inter.mp hboth
  have hmember := voters_subset_members _ _ _ hleft
  refine mem_inter.mpr ⟨hmember, ?_⟩
  by_contra hhonest
  have honest := hone key hmember hhonest
  obtain ⟨signature, hsigned⟩ := (hasValidVote_of_mem_voters hverify hleft).exists_signed hserde
    hshown honest.unforged
  obtain ⟨signature', hsigned'⟩ := (hasValidVote_of_mem_voters hverify' hright).exists_signed hserde
    hshown' honest.unforged
  exact honest.once signature signature' hsigned hsigned'

namespace FinalityLatch

variable {tr tr' : List Assessed} {latch latch' : FinalityLatch}

/-- What a latch holds is what some assessment has found. -/
theorem exists_snapshot_of_get {C : Crypto} (run : (system C).Run tr latch) {level : FinalityLevel}
    (h : latch.get blockHash = some level) :
    ∃ a ∈ tr, a.request.blockHash = blockHash ∧ a.request.snapshot C = .ok level := by
  rw [(latched_of_run run blockHash).get_eq] at h
  have hmem : level ∈ snapshots C blockHash tr := List.max?_mem h
  obtain ⟨a, ha, hsnapshot⟩ := List.mem_filterMap.mp hmem
  split at hsnapshot
  · rename_i hhash
    exact ⟨a, ha, hhash, toOption_eq_some.mp hsnapshot⟩
  · cases hsnapshot

/-- **Safety.** Of two latches, one holds L2 for one block and the other L2 for another one, after
any runs of assessments under one registry, with votes that have been shown. Then more than a third
of the stake belongs to validators that have signed votes for both blocks, or in whose name others
have. -/
theorem lt_faulty_of_final (hserde : Serde K) (run : (system K.toCrypto).Run tr latch)
    (run' : (system K.toCrypto).Run tr' latch') (htotal : 0 < registry.exactTotal)
    (hsupply : registry.exactTotal ≤ TOTAL_SUPPLY_MICRO_ARX.toNat)
    (hregistry : ∀ a ∈ tr ++ tr', a.request.registry = registry)
    (hshown : ∀ a ∈ tr ++ tr', VotesShown acts a.request.votes)
    (h : latch.get blockHash = some .L2) (h' : latch'.get blockHash' = some .L2)
    (faulty : Finset AccountId)
    (hone : ∀ key ∈ registry.members, key ∉ faulty → VotesForOne K acts blockHash blockHash' key) :
    registry.exactTotal < 3 * ∑ key ∈ registry.members ∩ faulty, registry.stake key := by
  obtain ⟨a, ha, rfl, hsnapshot⟩ := exists_snapshot_of_get run h
  obtain ⟨a', ha', rfl, hsnapshot'⟩ := exists_snapshot_of_get run' h'
  have hmem := List.mem_append_left tr' ha
  have hmem' := List.mem_append_right tr ha'
  rw [AssessmentRequest.snapshot, hregistry a hmem] at hsnapshot
  rw [AssessmentRequest.snapshot, hregistry a' hmem'] at hsnapshot'
  have hquorum := two_thirds_of_assessFinality htotal hsupply hsnapshot
  have hquorum' := two_thirds_of_assessFinality htotal hsupply hsnapshot'
  have hoverlap := sum_add_sum_le
    (voters_subset_members registry a.request.blockHash a.request.votes)
    (voters_subset_members registry a'.request.blockHash a'.request.votes) registry.stake
  have hfaulty := sum_le_sum_of_subset (f := registry.stake) (inter_voters_subset hserde hone
    (votesVerify_of_assessFinality htotal hsnapshot)
    (votesVerify_of_assessFinality htotal hsnapshot') (hshown a hmem) (hshown a' hmem'))
  -- two times two thirds are a third more than all of the stake
  rw [← exactTotal_eq_sum, ← votedStake, ← votedStake] at hoverlap
  omega

/-! ### Three validators, one of which votes twice -/

/-- A signature of one key is not valid under another. -/
theorem eq_of_verify_sign {key' : AccountId} {data bytes : List UInt8}
    (h : Reference.crypto.verify key' bytes (Reference.sign key data) = .ok ()) : key = key' := by
  rw [Crypto.verify, bind_eq_ok] at h
  obtain ⟨_, -, h⟩ := h
  have hstrict := mapError_eq_ok.mp h
  simp only [Reference.crypto] at hstrict
  split at hstrict
  · rename_i heq
    have hlists := congrArg Vector.toList heq
    rw [Reference.sign, Reference.sign, Vector.toList_append, Vector.toList_append] at hlists
    exact Vector.toList_inj.mp (List.append_inj hlists (by simp)).1
  · cases hstrict

/-- The holder of a key signs an object and sends it. -/
def sent (key : AccountId) (o : SignedObject) (signature : SignatureBytes) : List Act :=
  [.signed key o signature, .shown o signature]

theorem unforged_sent {key' : AccountId} {o : SignedObject} {data : List UInt8}
    (h : Unforged Reference.serde key' acts) :
    Unforged Reference.serde key' (acts ++ sent key o (Reference.sign key data)) := by
  have hsigned := h.signed key o (Reference.sign key data)
  rw [sent, List.append_cons]
  refine hsigned.shown fun bytes hbytes hverify ↦ ?_
  obtain rfl := eq_of_verify_sign hverify
  exact ⟨_, List.mem_append_right _ (List.mem_singleton_self _), hbytes⟩

/-- A validator signs a vote and sends it. -/
def ballot (key : AccountId) (blockHash : BlockHash) : List Act :=
  sent key (.validatorVote key blockHash)
    (Reference.sign key (SignedValidatorVote.canonicalBytes key blockHash))

theorem shown_ballot (hballot : ballot key blockHash ⊆ acts) {signature : SignatureBytes}
    (h : signature.toList = (Reference.vote key blockHash).signature) :
    Act.shown (.validatorVote key blockHash) signature ∈ acts := by
  simp only [Reference.vote] at h
  rw [Vector.toList_inj.mp h]
  exact hballot (List.mem_cons_of_mem _ List.mem_cons_self)

theorem eq_of_signed_mem_ballot {key' : AccountId} {signature : SignatureBytes}
    (h : Act.signed key' (.validatorVote key' blockHash') signature ∈ ballot key blockHash) :
    key' = key ∧ blockHash' = blockHash := by
  simp only [ballot, sent, List.mem_cons, Act.signed.injEq, SignedObject.validatorVote.injEq,
    reduceCtorEq, List.not_mem_nil, or_false] at h
  exact ⟨h.1, h.2.1.2⟩

open Reference (validator threeValidators)

/-- The first one votes for both blocks, and each of the others for one. -/
def split : List Act :=
  ballot (validator 1) (validator 8) ++ ballot (validator 2) (validator 8) ++
    ballot (validator 1) (validator 9) ++ ballot (validator 3) (validator 9)

/-- The first validator and another one vote for a block. -/
def assessment (second : AccountId) (blockHash : BlockHash) : AssessmentRequest :=
  ⟨0, blockHash, [], .noNeighbors,
    [Reference.vote (validator 1) blockHash, Reference.vote second blockHash], threeValidators⟩

theorem votesShown_assessment {second : AccountId}
    (hfirst : ballot (validator 1) blockHash ⊆ acts) (hsecond : ballot second blockHash ⊆ acts) :
    VotesShown acts (assessment second blockHash).votes := by
  intro vote hvote signature hsignature
  rcases List.mem_cons.mp hvote with rfl | hvote
  · exact shown_ballot hfirst hsignature
  · obtain rfl := List.mem_singleton.mp hvote
    exact shown_ballot hsecond hsignature

/-- A latch after one assessment. -/
theorem run_assessment {r : AssessmentRequest} (h : r.snapshot Reference.crypto = .ok .L2) :
    (system Reference.serde.toCrypto).Run [⟨r, .ok .L2⟩] ⟨AList.insert r.blockHash .L2 ∅⟩ :=
  .step (.start rfl) (exec_assessMonotonic.trans (by
    rw [show r.snapshot Reference.serde.toCrypto = .ok .L2 from h]
    rfl))

theorem votesShown_split :
    ∀ a ∈ [(⟨assessment (validator 2) (validator 8), .ok .L2⟩ : Assessed)] ++
      [⟨assessment (validator 3) (validator 9), .ok .L2⟩], VotesShown split a.request.votes := by
  intro a ha
  rcases List.mem_cons.mp ha with rfl | ha
  · exact votesShown_assessment (fun _ h ↦ by simp [split, h]) fun _ h ↦ by simp [split, h]
  · rw [List.mem_singleton.mp ha]
    exact votesShown_assessment (fun _ h ↦ by simp [split, h]) fun _ h ↦ by simp [split, h]

/-- Only the first validator votes for both. -/
theorem votesForOne_split (hne : key ≠ validator 1) :
    VotesForOne Reference.serde split (validator 8) (validator 9) key := by
  have hsplit : Unforged Reference.serde key split :=
    unforged_sent (unforged_sent (unforged_sent (unforged_sent .nil)))
  refine ⟨hsplit, fun signature signature' hsigned hsigned' ↦ ?_⟩
  simp only [split, List.mem_append] at hsigned hsigned'
  have hbytes : validator 8 ≠ validator 9 := by decide
  have hkeys : validator 2 ≠ validator 3 := by decide
  rcases hsigned with ((h | h) | h) | h
  · exact hne (eq_of_signed_mem_ballot h).1
  · obtain rfl := (eq_of_signed_mem_ballot h).1
    rcases hsigned' with ((h' | h') | h') | h'
    · exact hne (eq_of_signed_mem_ballot h').1
    · exact hbytes (eq_of_signed_mem_ballot h').2.symm
    · exact hne (eq_of_signed_mem_ballot h').1
    · exact hkeys (eq_of_signed_mem_ballot h').1
  · exact hne (eq_of_signed_mem_ballot h).1
  · exact hbytes (eq_of_signed_mem_ballot h).2

theorem lt_faulty_of_final_split : threeValidators.exactTotal <
    3 * ∑ key ∈ threeValidators.members ∩ {validator 1}, threeValidators.stake key := by
  have hfirst : (assessment (validator 2) (validator 8)).snapshot Reference.crypto = .ok .L2 := by
    decide +kernel
  have hsecond : (assessment (validator 3) (validator 9)).snapshot Reference.crypto = .ok .L2 := by
    decide +kernel
  refine lt_faulty_of_final Reference.serde_serde (run_assessment hfirst) (run_assessment hsecond)
    (by decide +kernel) (by decide +kernel) ?_ votesShown_split (AList.lookup_insert _)
    (AList.lookup_insert _) {validator 1} fun key _ hne ↦ votesForOne_split fun heq ↦
      hne (Finset.mem_singleton.mpr heq)
  intro a ha
  rcases List.mem_cons.mp ha with rfl | ha
  · rfl
  · rw [List.mem_singleton.mp ha]
    rfl

end FinalityLatch

end Arxia
