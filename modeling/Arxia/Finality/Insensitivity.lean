import Arxia.Finality.Intersection
import Arxia.Lists.Edits

/-!
# What an assessment depends on

Of the votes it depends on which ones count, and on nothing else: the loop goes through all of them
and counts no voter twice. The loop over the confirmations ends with the first that counts. Where
all that count verify, or none does, it makes no difference which one that is. Otherwise the order
of the list decides between L0 and an error, and a registered key whose signature does not verify
goes unnoticed behind one whose signature does.
-/

namespace Arxia

open Rust Lists

/-- The vote is for the block, and from a registered key. -/
def SignedValidatorVote.Counts (registry : ValidatorRegistry) (blockHash : BlockHash)
    (vote : SignedValidatorVote) : Prop :=
  vote.blockHash = blockHash ∧ registry.contains vote.validatorPubkey = true

/-- The confirmation is for the block, and from a registered key. -/
def SignedConfirmation.Counts (registry : ValidatorRegistry) (blockHash : BlockHash)
    (conf : SignedConfirmation) : Prop :=
  conf.blockHash = blockHash ∧ registry.contains conf.confirmerPubkey = true

instance (registry : ValidatorRegistry) (blockHash : BlockHash) (conf : SignedConfirmation) :
    Decidable (conf.Counts registry blockHash) :=
  inferInstanceAs (Decidable (_ ∧ _))

/-- The votes verify and have no quorum, there was no synchronization, and the amount is small. -/
structure ConfirmationsReached (K : Crypto) (amountMicroArx : UInt64) (blockHash : BlockHash)
    (syncResult : SyncResult) (votes : List SignedValidatorVote) (registry : ValidatorRegistry) :
    Prop where
  votes : 0 < registry.exactTotal → VotesVerify K registry blockHash votes ∧
    min (100 * votedStake registry blockHash votes) u64Max < min (67 * registry.exactTotal) u64Max
  sync : syncResult ≠ .success
  amount : amountMicroArx ≤ L0_CAP_MICRO_ARX

/-- The outcome of the call does not depend on order, on repetitions or on entries that do not
count, and an entry that counts and does not verify is an error if its kind is reached. -/
structure Insensitive (K : Crypto) (amountMicroArx : UInt64) (blockHash : BlockHash)
    (confirmations : List SignedConfirmation) (syncResult : SyncResult)
    (votes : List SignedValidatorVote) (registry : ValidatorRegistry) : Prop where
  unchanged : ∀ confirmations' votes',
    Edited (fun conf ↦ ¬ conf.Counts registry blockHash) confirmations confirmations' →
    Edited (fun vote ↦ ¬ vote.Counts registry blockHash) votes votes' →
    (assessFinality K amountMicroArx blockHash confirmations' syncResult votes' registry).toOption =
      (assessFinality K amountMicroArx blockHash confirmations syncResult votes registry).toOption
  voteFails : 0 < registry.totalStake →
    (∃ vote ∈ votes, vote.Counts registry blockHash ∧ vote.verify K ≠ .ok ()) →
    (assessFinality K amountMicroArx blockHash confirmations syncResult votes registry).toOption =
      none
  confirmationFails : ConfirmationsReached K amountMicroArx blockHash syncResult votes registry →
    (∃ conf ∈ confirmations, conf.Counts registry blockHash ∧ conf.verify K ≠ .ok ()) →
    (assessFinality K amountMicroArx blockHash confirmations syncResult votes registry).toOption =
      none

variable {K : Crypto} {amountMicroArx : UInt64} {blockHash : BlockHash}
  {confirmations confirmations' : List SignedConfirmation} {syncResult : SyncResult}
  {votes votes' : List SignedValidatorVote} {registry : ValidatorRegistry}

/-! ## The votes -/

theorem votesVerify_iff : VotesVerify K registry blockHash votes ↔
    ∀ vote ∈ votes, vote.Counts registry blockHash → vote.verify K = .ok () :=
  forall₂_congr fun _ _ ↦ and_imp.symm

/-- Lists with the same votes that count. -/
theorem voters_eq (h : ∀ vote, vote.Counts registry blockHash → (vote ∈ votes' ↔ vote ∈ votes)) :
    voters registry blockHash votes' = voters registry blockHash votes := by
  ext pubkey
  rw [mem_voters, mem_voters]
  constructor
  · rintro ⟨vote, hmem, rfl, hcounts⟩
    exact ⟨vote, (h vote hcounts).mp hmem, rfl, hcounts⟩
  · rintro ⟨vote, hmem, rfl, hcounts⟩
    exact ⟨vote, (h vote hcounts).mpr hmem, rfl, hcounts⟩

theorem votesVerify_congr
    (h : ∀ vote, vote.Counts registry blockHash → (vote ∈ votes' ↔ vote ∈ votes)) :
    VotesVerify K registry blockHash votes' ↔ VotesVerify K registry blockHash votes := by
  rw [votesVerify_iff, votesVerify_iff]
  refine forall_congr' fun vote ↦ ⟨fun hverify hmem hcounts ↦ ?_, fun hverify hmem hcounts ↦ ?_⟩
  · exact hverify ((h vote hcounts).mpr hmem) hcounts
  · exact hverify ((h vote hcounts).mp hmem) hcounts

theorem quorumReached_of_exactTotal_eq (h : ¬ 0 < registry.exactTotal) :
    quorumReached K blockHash votes registry = .ok false := by
  rw [quorumReached, if_neg (mt totalStake_pos.mp h)]
  rfl

theorem toOption_eq_none {ε α : Type} {x : Except ε α} (h : ∀ a, x ≠ .ok a) :
    x.toOption = none := by
  rcases x with e | a
  · rfl
  · exact absurd rfl (h a)

theorem quorumReached_of_not_votesVerify (htotal : 0 < registry.exactTotal)
    (h : ¬ VotesVerify K registry blockHash votes) :
    (quorumReached K blockHash votes registry).toOption = none :=
  toOption_eq_none fun _ hok ↦ h (votesVerify_of_quorumReached htotal hok)

/-- **The quorum depends on the votes that count.** -/
theorem quorumReached_congr
    (h : ∀ vote, vote.Counts registry blockHash → (vote ∈ votes' ↔ vote ∈ votes)) :
    (quorumReached K blockHash votes' registry).toOption =
      (quorumReached K blockHash votes registry).toOption := by
  by_cases htotal : 0 < registry.exactTotal
  · by_cases hverify : VotesVerify K registry blockHash votes
    · rw [quorumReached_eq ((votesVerify_congr h).mpr hverify), quorumReached_eq hverify,
        votedStake, voters_eq h, ← votedStake]
    · rw [quorumReached_of_not_votesVerify htotal (mt (votesVerify_congr h).mp hverify),
        quorumReached_of_not_votesVerify htotal hverify]
  · rw [quorumReached_of_exactTotal_eq htotal, quorumReached_of_exactTotal_eq htotal]

/-! ## The confirmations -/

theorem find?_cons_of_counts {conf : SignedConfirmation}
    (h : conf.Counts registry blockHash) (confirmations : List SignedConfirmation) :
    ((conf :: confirmations).find? fun conf ↦ decide (conf.Counts registry blockHash)) =
      some conf :=
  List.find?_cons_of_pos (decide_eq_true h)

/-- **The loop over the confirmations** returns with the first that counts. -/
theorem findConfirmation_eq (confirmations : List SignedConfirmation) :
    findConfirmation K registry blockHash confirmations ∅ =
      match confirmations.find? fun conf ↦ decide (conf.Counts registry blockHash) with
      | none => .ok false
      | some conf => (conf.verify K).map fun _ ↦ true := by
  induction confirmations with
  | nil => rfl
  | cons conf confirmations ih =>
    rw [findConfirmation]
    by_cases hcounts : conf.Counts registry blockHash
    · rw [if_neg (not_not.mpr hcounts.1), if_neg (by simp [hcounts.2]),
        find?_cons_of_counts hcounts]
      change _ = (conf.verify K).map fun _ ↦ true
      rcases conf.verify K with e | _ <;> rfl
    · rw [List.find?_cons_of_neg (by simpa using hcounts), ← ih]
      split
      · rfl
      split
      · rfl
      · rename_i hhash hreg
        exact absurd ⟨not_not.mp hhash, by simpa using hreg⟩ hcounts

/-- All confirmations that count verify, or none does. -/
def OneKind (K : Crypto) (registry : ValidatorRegistry) (blockHash : BlockHash)
    (confirmations : List SignedConfirmation) : Prop :=
  ∀ conf ∈ confirmations, ∀ conf' ∈ confirmations, conf.Counts registry blockHash →
    conf'.Counts registry blockHash → conf.verify K = .ok () → conf'.verify K = .ok ()

theorem oneKind_iff : OneKind K registry blockHash confirmations ↔
    ¬ ((∃ conf ∈ confirmations, conf.Counts registry blockHash ∧ conf.verify K = .ok ()) ∧
      ∃ conf ∈ confirmations, conf.Counts registry blockHash ∧ conf.verify K ≠ .ok ()) := by
  constructor
  · rintro h ⟨⟨conf, hmem, hcounts, hverify⟩, conf', hmem', hcounts', hfails⟩
    exact hfails (h conf hmem conf' hmem' hcounts hcounts' hverify)
  · intro h conf hmem conf' hmem' hcounts hcounts' hverify
    by_contra hfails
    exact h ⟨⟨conf, hmem, hcounts, hverify⟩, conf', hmem', hcounts', hfails⟩

theorem findConfirmation_of_forall_not (h : ∀ conf ∈ confirmations,
    ¬ conf.Counts registry blockHash) :
    findConfirmation K registry blockHash confirmations ∅ = .ok false := by
  rw [findConfirmation_eq, List.find?_eq_none.mpr fun conf hmem ↦ by simpa using h conf hmem]

/-- **Confirmations of one kind.** Any that counts shows what the loop returns. -/
theorem findConfirmation_of_mem (hkind : OneKind K registry blockHash confirmations)
    {conf : SignedConfirmation} (hmem : conf ∈ confirmations)
    (hcounts : conf.Counts registry blockHash) :
    (findConfirmation K registry blockHash confirmations ∅).toOption =
      if conf.verify K = .ok () then some true else none := by
  rw [findConfirmation_eq]
  split
  · rename_i hnone
    exact absurd hcounts (by simpa using List.find?_eq_none.mp hnone conf hmem)
  · rename_i first hfirst
    have hmem' := List.mem_of_find?_eq_some hfirst
    have hcounts' : first.Counts registry blockHash := by simpa using List.find?_some hfirst
    by_cases hverify : conf.verify K = .ok ()
    · rw [if_pos hverify, hkind conf hmem first hmem' hcounts hcounts' hverify]
      rfl
    · rw [if_neg hverify]
      refine toOption_eq_none fun found hok ↦ hverify ?_
      apply hkind first hmem' conf hmem hcounts' hcounts
      rcases hfails : first.verify K with e | _
      · rw [hfails] at hok
        cases hok
      · rfl

theorem findConfirmation_congr (h : ∀ conf, conf.Counts registry blockHash →
      (conf ∈ confirmations' ↔ conf ∈ confirmations))
    (hkind : OneKind K registry blockHash confirmations) :
    (findConfirmation K registry blockHash confirmations' ∅).toOption =
      (findConfirmation K registry blockHash confirmations ∅).toOption := by
  have hkind' : OneKind K registry blockHash confirmations' :=
    fun conf hmem conf' hmem' hcounts hcounts' ↦ hkind conf ((h conf hcounts).mp hmem) conf'
      ((h conf' hcounts').mp hmem') hcounts hcounts'
  by_cases hexists : ∃ conf ∈ confirmations, conf.Counts registry blockHash
  · obtain ⟨conf, hmem, hcounts⟩ := hexists
    rw [findConfirmation_of_mem hkind hmem hcounts,
      findConfirmation_of_mem hkind' ((h conf hcounts).mpr hmem) hcounts]
  · push Not at hexists
    rw [findConfirmation_of_forall_not hexists, findConfirmation_of_forall_not]
    exact fun conf hmem hcounts ↦ hexists conf ((h conf hcounts).mp hmem) hcounts

/-! ## The call -/

/-- What the assessment returns when there is no quorum. -/
def lowerLevel (K : Crypto) (amountMicroArx : UInt64) (blockHash : BlockHash)
    (confirmations : List SignedConfirmation) (syncResult : SyncResult)
    (registry : ValidatorRegistry) : Except FinalityError FinalityLevel :=
  if syncResult = .success then pure .L1
  else if amountMicroArx ≤ L0_CAP_MICRO_ARX then do
    if ← findConfirmation K registry blockHash confirmations ∅ then pure .L0 else pure .pending
  else pure .pending

theorem toOption_bind {ε α β : Type} (x : Except ε α) (f : α → Except ε β) :
    (x >>= f).toOption = x.toOption.bind fun a ↦ (f a).toOption := by
  rcases x with e | a <;> rfl

theorem toOption_assessFinality :
    (assessFinality K amountMicroArx blockHash confirmations syncResult votes registry).toOption =
      (quorumReached K blockHash votes registry).toOption.bind fun reached ↦
        if reached then some .L2
        else (lowerLevel K amountMicroArx blockHash confirmations syncResult
          registry).toOption := by
  rw [assessFinality, toOption_bind]
  congr 1
  funext reached
  rcases reached <;> rfl

theorem confirmationsReached_iff :
    ConfirmationsReached K amountMicroArx blockHash syncResult votes registry ↔
      quorumReached K blockHash votes registry = .ok false ∧ syncResult ≠ .success ∧
        amountMicroArx ≤ L0_CAP_MICRO_ARX := by
  constructor
  · rintro ⟨hvotes, hsync, hamount⟩
    refine ⟨?_, hsync, hamount⟩
    by_cases htotal : 0 < registry.exactTotal
    · obtain ⟨hverify, hlt⟩ := hvotes htotal
      rw [quorumReached_eq hverify, decide_eq_false fun h ↦ hlt.not_ge h.2]
    · exact quorumReached_of_exactTotal_eq htotal
  · rintro ⟨hquorum, hsync, hamount⟩
    refine ⟨fun htotal ↦ ?_, hsync, hamount⟩
    have hverify := votesVerify_of_quorumReached htotal hquorum
    rw [quorumReached_eq hverify] at hquorum
    have hnot := of_decide_eq_false (Except.ok.inj hquorum)
    exact ⟨hverify, not_le.mp fun hle ↦ hnot ⟨htotal, hle⟩⟩

/-- Where the confirmations are reached they decide. -/
theorem toOption_of_confirmationsReached
    (h : ConfirmationsReached K amountMicroArx blockHash syncResult votes registry) :
    (assessFinality K amountMicroArx blockHash confirmations syncResult votes registry).toOption =
      (findConfirmation K registry blockHash confirmations ∅).toOption.map fun found ↦
        if found then .L0 else .pending := by
  obtain ⟨hquorum, hsync, hamount⟩ := confirmationsReached_iff.mp h
  rw [toOption_assessFinality, hquorum, lowerLevel, if_neg hsync, if_pos hamount]
  rcases findConfirmation K registry blockHash confirmations ∅ with e | found
  · rfl
  · rcases found <;> rfl

/-- Where they are not reached they do not matter. -/
theorem toOption_of_not_confirmationsReached
    (h : ¬ ConfirmationsReached K amountMicroArx blockHash syncResult votes registry) :
    (assessFinality K amountMicroArx blockHash confirmations' syncResult votes registry).toOption =
      (assessFinality K amountMicroArx blockHash confirmations syncResult votes
        registry).toOption := by
  rw [toOption_assessFinality, toOption_assessFinality]
  rw [confirmationsReached_iff] at h
  rcases hquorum : quorumReached K blockHash votes registry with e | reached
  · rfl
  rcases reached with _ | _
  · by_cases hsync : syncResult = .success
    · rw [lowerLevel, if_pos hsync, lowerLevel, if_pos hsync]
    · have hamount : ¬ amountMicroArx ≤ L0_CAP_MICRO_ARX := fun hle ↦ h ⟨hquorum, hsync, hle⟩
      rw [lowerLevel, if_neg hsync, if_neg hamount, lowerLevel, if_neg hsync, if_neg hamount]
  · rfl

/-- A confirmation that verifies, in front of one that does not. -/
theorem not_insensitive
    (hreached : ConfirmationsReached K amountMicroArx blockHash syncResult votes registry)
    (hvalid : ∃ conf ∈ confirmations, conf.Counts registry blockHash ∧ conf.verify K = .ok ())
    (hfails : ∃ conf ∈ confirmations, conf.Counts registry blockHash ∧ conf.verify K ≠ .ok ()) :
    ¬ Insensitive K amountMicroArx blockHash confirmations syncResult votes registry := by
  intro h
  obtain ⟨conf, hmem, hcounts, hverify⟩ := hvalid
  obtain ⟨l₁, l₂, rfl⟩ := List.append_of_mem hmem
  have hfront : Edited (fun conf ↦ ¬ conf.Counts registry blockHash) (l₁ ++ conf :: l₂)
      (conf :: (l₁ ++ l₂)) := Edited.of_perm List.perm_middle
  have hunchanged := h.unchanged _ votes hfront (Edited.refl _ _)
  rw [h.confirmationFails hreached hfails, toOption_of_confirmationsReached hreached,
    findConfirmation_eq, find?_cons_of_counts hcounts] at hunchanged
  simp only [hverify] at hunchanged
  cases hunchanged

/-- **When the outcome is insensitive**: unless the confirmations are reached, and of those that
count one verifies and another does not. -/
theorem insensitive_iff :
    Insensitive K amountMicroArx blockHash confirmations syncResult votes registry ↔
      ¬ (ConfirmationsReached K amountMicroArx blockHash syncResult votes registry ∧
        (∃ conf ∈ confirmations, conf.Counts registry blockHash ∧ conf.verify K = .ok ()) ∧
        ∃ conf ∈ confirmations, conf.Counts registry blockHash ∧ conf.verify K ≠ .ok ()) := by
  constructor
  · rintro h ⟨hreached, hvalid, hfails⟩
    exact not_insensitive hreached hvalid hfails h
  · intro h
    rw [not_and, ← oneKind_iff] at h
    refine ⟨fun confirmations' votes' hconfs hvotes ↦ ?_, fun htotal hfails ↦ ?_,
      fun hreached hfails ↦ ?_⟩
    · have hquorum := quorumReached_congr (K := K) fun vote hcounts ↦
        hvotes.mem_iff (not_not.mpr hcounts)
      have hvotes' : (assessFinality K amountMicroArx blockHash confirmations' syncResult votes'
          registry).toOption = (assessFinality K amountMicroArx blockHash confirmations' syncResult
            votes registry).toOption := by
        rw [toOption_assessFinality, toOption_assessFinality, hquorum]
      rw [hvotes']
      by_cases hreached :
          ConfirmationsReached K amountMicroArx blockHash syncResult votes registry
      · rw [toOption_of_confirmationsReached hreached, toOption_of_confirmationsReached hreached,
          findConfirmation_congr (fun conf hcounts ↦ hconfs.mem_iff (not_not.mpr hcounts))
            (h hreached)]
      · exact toOption_of_not_confirmationsReached hreached
    · obtain ⟨vote, hmem, hcounts, hfails⟩ := hfails
      have hverify : ¬ VotesVerify K registry blockHash votes := fun hverify ↦
        hfails (votesVerify_iff.mp hverify vote hmem hcounts)
      rw [toOption_assessFinality,
        quorumReached_of_not_votesVerify (totalStake_pos.mp htotal) hverify]
      rfl
    · obtain ⟨conf, hmem, hcounts, hfails⟩ := hfails
      rw [toOption_of_confirmationsReached hreached,
        findConfirmation_of_mem (h hreached) hmem hcounts, if_neg hfails]
      rfl

namespace Reference

/-- The signed confirmation of a key holder. -/
def confirmation (key : AccountId) (blockHash : BlockHash) : SignedConfirmation :=
  ⟨key, blockHash, (sign key (SignedConfirmation.canonicalBytes key blockHash)).toList⟩

theorem verify_confirmation (key : AccountId) (blockHash : BlockHash) :
    (confirmation key blockHash).verify crypto = .ok () := by
  simp only [SignedConfirmation.verify, confirmation]
  exact verifySignature_sign key _

end Reference

/-- Two validators; the second has confirmed with an empty signature. -/
theorem not_forall_insensitive :
    ¬ ∀ (amountMicroArx : UInt64) (blockHash : BlockHash) (confirmations : List SignedConfirmation)
      (syncResult : SyncResult) (votes : List SignedValidatorVote) (registry : ValidatorRegistry),
      Insensitive Reference.crypto amountMicroArx blockHash confirmations syncResult votes
        registry := by
  intro h
  let first : AccountId := Vector.replicate 32 1
  let second : AccountId := Vector.replicate 32 2
  let blockHash : BlockHash := Vector.replicate 32 3
  let registry : ValidatorRegistry := ⟨(AList.singleton first 1).insert second 1⟩
  let valid := Reference.confirmation first blockHash
  let unsigned : SignedConfirmation := ⟨second, blockHash, []⟩
  refine not_insensitive ⟨fun _ ↦ ⟨fun _ hv ↦ absurd hv List.not_mem_nil, ?_⟩, ?_, ?_⟩
    ⟨valid, List.mem_cons_self, ⟨rfl, ?_⟩, Reference.verify_confirmation first blockHash⟩
    ⟨unsigned, List.mem_cons_of_mem _ List.mem_cons_self, ⟨rfl, ?_⟩, ?_⟩
    (h 0 blockHash [valid, unsigned] .noNeighbors [] registry)
  · decide +kernel
  · decide
  · decide
  · decide +kernel
  · decide +kernel
  · exact fun hok ↦ nomatch hok

end Arxia
