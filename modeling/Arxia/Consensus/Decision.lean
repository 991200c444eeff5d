import Arxia.Consensus.Replays

/-!
# The decision in exact arithmetic

By the rule, the block with more stake wins if the gap exceeds a twentieth of the total, and
otherwise the block with the smaller hash does. The code adds the stakes with a plain `+`, their
total with a saturating one, and scales the gap with a saturating product.

The scaled gap may saturate: it only has to exceed the total. The total may not. At `u64::MAX`
nothing exceeds it, and the stake tier is off. So the code decides by the rule exactly when the
stake of each side fits a word and, where the gap is large enough, the total is below `u64::MAX`.
-/

namespace Arxia

open Rust

/-- The gap between the stakes exceeds a twentieth of their total. -/
def GapDecides (votesA votesB : List VoteORV) : Prop :=
  listedStake votesA + listedStake votesB <
    20 * ((listedStake votesA - listedStake votesB) + (listedStake votesB - listedStake votesA))

instance (votesA votesB : List VoteORV) : Decidable (GapDecides votesA votesB) :=
  inferInstanceAs (Decidable (_ < _))

/-- The decision by the rule, with stakes of any size. -/
def exactDecision (blockA blockB : Block) (votesA votesB : List VoteORV) : Block × String :=
  if GapDecides votesA votesB then
    (if listedStake votesB < listedStake votesA then blockA else blockB, "stake_weighted")
  else (if blockA.hash ≤ blockB.hash then blockA else blockB, "hash_tiebreaker")

/-- In every build the code returns the decision by the rule, on whichever side the blocks are. -/
def DecidedExactly (blockA blockB : Block) (votesA votesB : List VoteORV) : Prop :=
  ∀ m, (resolveConflictOrv m blockA blockB votesA votesB).exec =
      some (.ok (exactDecision blockA blockB votesA votesB)) ∧
    (resolveConflictOrv m blockB blockA votesB votesA).exec =
      some (.ok (exactDecision blockA blockB votesA votesB))

section Decision

variable {blockA blockB : Block} {votesA votesB : List VoteORV}

theorem gapDecides_comm : GapDecides votesB votesA ↔ GapDecides votesA votesB := by
  rw [GapDecides, GapDecides]
  omega

/-- The rule does not mind the sides. -/
theorem exactDecision_comm (hhash : blockA.hash ≠ blockB.hash) :
    exactDecision blockB blockA votesB votesA = exactDecision blockA blockB votesA votesB := by
  rw [exactDecision, exactDecision]
  by_cases hgap : GapDecides votesA votesB
  · rw [if_pos hgap, if_pos (gapDecides_comm.mpr hgap)]
    rw [GapDecides] at hgap
    rcases lt_or_gt_of_ne (show listedStake votesA ≠ listedStake votesB by omega) with hlt | hlt
    · rw [if_pos hlt, if_neg hlt.not_gt]
    · rw [if_pos hlt, if_neg hlt.not_gt]
  · rw [if_neg hgap, if_neg (mt gapDecides_comm.mp hgap)]
    rcases lt_or_gt_of_ne hhash with hlt | hlt
    · rw [if_pos hlt.le, if_neg hlt.not_ge]
    · rw [if_pos hlt.le, if_neg hlt.not_ge]

theorem stakeOf_of_le (m : Overflow) {c : BlockCandidate} (h : listedStake c.votes ≤ u64Max) :
    stakeOf m c = some (UInt64.ofNat (listedStake c.votes)) :=
  UInt64.sum_of_le m h

private theorem toNat_stake {votes : List VoteORV} (h : listedStake votes ≤ u64Max) :
    (UInt64.ofNat (listedStake votes)).toNat = listedStake votes :=
  UInt64.toNat_ofNat_of_lt' (Nat.lt_of_le_of_lt h (by decide))

/-- On stakes that fit, the code decides like the rule, except that the stake tier is off once the
total saturates. -/
theorem exec_of_listedStake_le (m : Overflow) (ha : isEligibleForOrv blockA = true)
    (hb : isEligibleForOrv blockB = true) (hfitA : listedStake votesA ≤ u64Max)
    (hfitB : listedStake votesB ≤ u64Max) :
    (resolveConflictOrv m blockA blockB votesA votesB).exec = some (.ok (
      if listedStake votesA + listedStake votesB < u64Max ∧ GapDecides votesA votesB then
        (if listedStake votesB < listedStake votesA then blockA else blockB, "stake_weighted")
      else (if blockA.hash ≤ blockB.hash then blockA else blockB, "hash_tiebreaker"))) := by
  have hstake : StakeDecides (UInt64.ofNat (listedStake votesA))
      (UInt64.ofNat (listedStake votesB)) ↔
      listedStake votesA + listedStake votesB < u64Max ∧ GapDecides votesA votesB := by
    rw [StakeDecides, GapDecides, toNat_stake hfitA, toNat_stake hfitB]
  have hhigher : UInt64.ofNat (listedStake votesB) < UInt64.ofNat (listedStake votesA) ↔
      listedStake votesB < listedStake votesA := by
    rw [UInt64.lt_iff_toNat_lt, toNat_stake hfitA, toNat_stake hfitB]
  rw [exec_of_stakeOf (a := ⟨blockA, votesA⟩) (b := ⟨blockB, votesB⟩) ha hb
    (stakeOf_of_le m hfitA) (stakeOf_of_le m hfitB)]
  simp only [hstake, hhigher]

/-- The code decides by the rule if the total is below `u64::MAX` where the gap decides. -/
theorem exec_eq_exactDecision (m : Overflow) (ha : isEligibleForOrv blockA = true)
    (hb : isEligibleForOrv blockB = true) (hfitA : listedStake votesA ≤ u64Max)
    (hfitB : listedStake votesB ≤ u64Max)
    (htotal : GapDecides votesA votesB → listedStake votesA + listedStake votesB < u64Max) :
    (resolveConflictOrv m blockA blockB votesA votesB).exec =
      some (.ok (exactDecision blockA blockB votesA votesB)) := by
  have hdecides : listedStake votesA + listedStake votesB < u64Max ∧ GapDecides votesA votesB ↔
      GapDecides votesA votesB := and_iff_right_of_imp htotal
  rw [exec_of_listedStake_le m ha hb hfitA hfitB, exactDecision]
  simp only [hdecides]

/-- **The decision is the exact one** as long as each stake fits, and the total is below `u64::MAX`
where the gap decides. -/
theorem decidedExactly_iff (ha : isEligibleForOrv blockA = true)
    (hb : isEligibleForOrv blockB = true) (hhash : blockA.hash ≠ blockB.hash) :
    DecidedExactly blockA blockB votesA votesB ↔
      listedStake votesA ≤ u64Max ∧ listedStake votesB ≤ u64Max ∧
        (GapDecides votesA votesB → listedStake votesA + listedStake votesB < u64Max) := by
  constructor
  · intro hexact
    have hexec := (hexact .panics).1
    by_cases hover : u64Max < listedStake votesA ∨ u64Max < listedStake votesB
    · rw [(exec_eq_none_iff ha hb).mpr ⟨rfl, hover⟩] at hexec
      cases hexec
    · rw [not_or, Nat.not_lt, Nat.not_lt] at hover
      refine ⟨hover.1, hover.2, fun hgap ↦ ?_⟩
      rw [exec_of_listedStake_le .panics ha hb hover.1 hover.2, exactDecision, if_pos hgap] at hexec
      by_contra htotal
      -- the two tiers differ in the reason they give
      rw [if_neg fun h ↦ htotal h.1] at hexec
      simp at hexec
  · rintro ⟨hfitA, hfitB, htotal⟩ m
    refine ⟨exec_eq_exactDecision m ha hb hfitA hfitB htotal, ?_⟩
    rw [← exactDecision_comm hhash]
    refine exec_eq_exactDecision m hb ha hfitB hfitA fun hgap ↦ ?_
    rw [Nat.add_comm]
    exact htotal (gapDecides_comm.mp hgap)

end Decision

/-- The stakes 100 and 106, between which the hash decides. -/
theorem decidedExactly_pair :
    DecidedExactly (candidate "01" 100).block (candidate "02" 106).block
        (candidate "01" 100).votes (candidate "02" 106).votes ↔
      listedStake (candidate "01" 100).votes ≤ u64Max ∧
        listedStake (candidate "02" 106).votes ≤ u64Max ∧
        (GapDecides (candidate "01" 100).votes (candidate "02" 106).votes →
          listedStake (candidate "01" 100).votes + listedStake (candidate "02" 106).votes <
            u64Max) :=
  decidedExactly_iff (by decide) (by decide) (by decide)

/-- All stake is on the second block, and the first wins. -/
theorem not_decidedExactly :
    ¬ ∀ (blockA blockB : Block) (votesA votesB : List VoteORV), isEligibleForOrv blockA = true →
      isEligibleForOrv blockB = true → blockA.hash ≠ blockB.hash →
      DecidedExactly blockA blockB votesA votesB := by
  intro h
  let a := candidate "01" 0
  let b := candidate "02" (UInt64.ofNat u64Max)
  have hexact := (h a.block b.block a.votes b.votes (by decide) (by decide) (by decide) .wraps).1
  have hcode : (resolveConflictOrv .wraps a.block b.block a.votes b.votes).exec =
      some (.ok (a.block, "hash_tiebreaker")) := by decide +kernel
  have hrule : exactDecision a.block b.block a.votes b.votes = (b.block, "stake_weighted") := by
    decide +kernel
  rw [hcode, hrule] at hexact
  simp at hexact

end Arxia
