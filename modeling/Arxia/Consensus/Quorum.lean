import Arxia.Rust.UInt64
import Mathlib.Algebra.Order.Field.Rat

/-!
# The quorum of a round

A quorum is two thirds of the representatives and a fifth of the stake. The code cross-multiplies:
`voted_reps * 3 ≥ total_reps * 2` and `voted_stake * 5 ≥ total_supply`. The products of the
representatives are plain: with overflow checks they panic, without them they wrap. The product of
the stake is checked, and one that does not fit counts as too little, although it is more than any
supply.
-/

namespace Arxia

open Rust

/-- Result of a quorum check. -/
structure QuorumResult where
  /-- Whether the quorum requirements were met. -/
  reached : Bool
  /-- Number of representatives who voted. -/
  votedReps : UInt64
  /-- Total number of eligible representatives. -/
  totalReps : UInt64
  /-- Total stake represented by votes (micro-ARX). -/
  votedStake : UInt64
  /-- Total circulating supply (micro-ARX). -/
  totalSupply : UInt64
  deriving DecidableEq

/-- Whether enough representatives voted. A `usize` converts to `u64` unchanged. -/
def repQuorum (m : Overflow) (votedReps totalReps : UInt64) : Option Bool :=
  if totalReps = 0 then some false
  else do
    let votedScaled ← votedReps.times m 3
    let totalScaled ← totalReps.times m 2
    some (decide (totalScaled ≤ votedScaled))

/-- Whether enough stake voted. -/
def stakeQuorum (votedStake totalSupply : UInt64) : Bool :=
  if totalSupply = 0 then false
  else (votedStake.checkedMul 5).any fun fivex ↦ decide (totalSupply ≤ fivex)

/-- Checks whether quorum requirements are met. -/
def checkQuorum (m : Overflow) (votedReps totalReps votedStake totalSupply : UInt64) :
    Option QuorumResult := do
  let repQuorum ← repQuorum m votedReps totalReps
  let stakeQuorum := stakeQuorum votedStake totalSupply
  some
    { reached := repQuorum && stakeQuorum, votedReps, totalReps, votedStake, totalSupply }

/-! ## The two thresholds as rationals -/

/-- A threshold `p / q` on `a / b`, cross-multiplied. -/
theorem ratio_le_iff {p q a b : ℕ} (hq : 0 < q) (hb : 0 < b) :
    (p / q : ℚ) ≤ a / b ↔ p * b ≤ a * q := by
  rw [div_le_div_iff₀ (Nat.cast_pos.mpr hq) (Nat.cast_pos.mpr hb)]
  exact_mod_cast Iff.rfl

section Quorum

variable {votedReps totalReps votedStake totalSupply : UInt64}

variable (votedReps totalReps votedStake totalSupply) in
/-- The quorum in exact arithmetic. -/
def ExactQuorum : Prop :=
  0 < totalReps.toNat ∧ 0 < totalSupply.toNat ∧
    (2 / 3 : ℚ) ≤ votedReps.toNat / totalReps.toNat ∧
    (1 / 5 : ℚ) ≤ votedStake.toNat / totalSupply.toNat

theorem exactQuorum_iff :
    ExactQuorum votedReps totalReps votedStake totalSupply ↔
      (0 < totalReps.toNat ∧ 2 * totalReps.toNat ≤ 3 * votedReps.toNat) ∧
        0 < totalSupply.toNat ∧ totalSupply.toNat ≤ 5 * votedStake.toNat := by
  have hreps := @ratio_le_iff 2 3 votedReps.toNat totalReps.toNat (by decide)
  have hstake := @ratio_le_iff 1 5 votedStake.toNat totalSupply.toNat (by decide)
  push_cast at hreps hstake
  rw [ExactQuorum]
  constructor
  · rintro ⟨hr, hs, hvr, hvs⟩
    have hvr := (hreps hr).mp hvr
    have hvs := (hstake hs).mp hvs
    omega
  · rintro ⟨⟨hr, hvr⟩, hs, hvs⟩
    exact ⟨hr, hs, (hreps hr).mpr (by omega), (hstake hs).mpr (by omega)⟩

/-- More votes are still a quorum. -/
theorem ExactQuorum.mono {votedReps' votedStake' : UInt64}
    (h : ExactQuorum votedReps totalReps votedStake totalSupply)
    (hreps : votedReps ≤ votedReps') (hstake : votedStake ≤ votedStake') :
    ExactQuorum votedReps' totalReps votedStake' totalSupply := by
  rw [UInt64.le_iff_toNat_le] at hreps hstake
  rw [exactQuorum_iff] at h ⊢
  omega

/-! ## What the code computes -/

variable (votedReps totalReps) in
/-- The products of the representatives fit, or are not taken. -/
def RepsFit : Prop :=
  totalReps = 0 ∨ 3 * votedReps.toNat ≤ u64Max ∧ 2 * totalReps.toNat ≤ u64Max

private theorem mul_two (a : UInt64) : a.toNat * (2 : UInt64).toNat = 2 * a.toNat :=
  Nat.mul_comm _ 2

private theorem mul_three (a : UInt64) : a.toNat * (3 : UInt64).toNat = 3 * a.toNat :=
  Nat.mul_comm _ 3

private theorem mul_five (a : UInt64) : a.toNat * (5 : UInt64).toNat = 5 * a.toNat :=
  Nat.mul_comm _ 5

theorem repQuorum_of_fit (m : Overflow) (hfit : RepsFit votedReps totalReps) :
    repQuorum m votedReps totalReps =
      some (decide (0 < totalReps.toNat ∧ 2 * totalReps.toNat ≤ 3 * votedReps.toNat)) := by
  rw [repQuorum]
  split
  · rename_i hzero
    simp [hzero]
  · rename_i hpos
    rw [← UInt64.toNat_inj, UInt64.toNat_zero] at hpos
    rcases hfit with hzero | ⟨hvoted, htotal⟩
    · simp [hzero] at hpos
    rw [← mul_three] at hvoted
    rw [← mul_two] at htotal
    rw [UInt64.times_of_le m hvoted, UInt64.times_of_le m htotal]
    simp only [Option.bind_eq_bind, Option.bind_some, UInt64.le_iff_toNat_le]
    rw [UInt64.toNat_mul_of_le hvoted, UInt64.toNat_mul_of_le htotal, mul_three, mul_two]
    simp [Nat.pos_of_ne_zero hpos]

/-- With overflow checks, a product that does not fit panics. -/
theorem repQuorum_of_not_fit (hfit : ¬ RepsFit votedReps totalReps) :
    repQuorum .panics votedReps totalReps = none := by
  rw [RepsFit, not_or, not_and_or, Nat.not_le, Nat.not_le] at hfit
  obtain ⟨hpos, hlarge⟩ := hfit
  rw [← mul_three, ← mul_two] at hlarge
  rw [repQuorum, if_neg hpos]
  by_cases hvoted : u64Max < votedReps.toNat * (3 : UInt64).toNat
  · rw [UInt64.times_panics_of_lt hvoted]
    rfl
  · rw [UInt64.times_of_le _ (Nat.not_lt.mp hvoted),
      UInt64.times_panics_of_lt (hlarge.resolve_left hvoted)]
    rfl

theorem stakeQuorum_iff :
    stakeQuorum votedStake totalSupply = true ↔
      5 * votedStake.toNat ≤ u64Max ∧ 0 < totalSupply.toNat ∧
        totalSupply.toNat ≤ 5 * votedStake.toNat := by
  rw [stakeQuorum]
  split
  · rename_i hzero
    simp [hzero]
  · rename_i hpos
    rw [← UInt64.toNat_inj, UInt64.toNat_zero] at hpos
    rw [UInt64.checkedMul]
    split
    · rename_i hfit
      rw [Option.any_some, decide_eq_true_iff, UInt64.le_iff_toNat_le,
        UInt64.toNat_mul_of_le hfit]
      rw [mul_five] at hfit ⊢
      omega
    · rename_i hlarge
      rw [mul_five] at hlarge
      simp only [Option.any_none, Bool.false_eq_true, false_iff]
      omega

theorem checkQuorum_of_repQuorum {m : Overflow} {reps : Bool}
    (h : repQuorum m votedReps totalReps = some reps) :
    checkQuorum m votedReps totalReps votedStake totalSupply =
      some ⟨reps && stakeQuorum votedStake totalSupply, votedReps, totalReps, votedStake,
        totalSupply⟩ := by
  rw [checkQuorum, h]
  rfl

/-- Where the products of the representatives fit, the quorum is the exact one with a fifth product
that fits too. -/
theorem checkQuorum_of_fit (m : Overflow) (hfit : RepsFit votedReps totalReps) :
    ∃ r, checkQuorum m votedReps totalReps votedStake totalSupply = some r ∧
      (r.reached = true ↔ ExactQuorum votedReps totalReps votedStake totalSupply ∧
        5 * votedStake.toNat ≤ u64Max) := by
  refine ⟨_, checkQuorum_of_repQuorum (repQuorum_of_fit m hfit), ?_⟩
  rw [exactQuorum_iff, Bool.and_eq_true, decide_eq_true_iff, stakeQuorum_iff]
  tauto

/-! ## Exactness -/

variable (votedReps totalReps votedStake totalSupply) in
/-- In every build the check returns, finds a quorum exactly where there is one, and does not lose
one that fewer votes had reached. -/
def QuorumExact : Prop :=
  ∀ m, ∃ r, checkQuorum m votedReps totalReps votedStake totalSupply = some r ∧
    (r.reached = true ↔ ExactQuorum votedReps totalReps votedStake totalSupply) ∧
    ∀ votedReps' votedStake' r', votedReps' ≤ votedReps → votedStake' ≤ votedStake →
      checkQuorum m votedReps' totalReps votedStake' totalSupply = some r' →
      r'.reached = true → r.reached = true

variable (votedReps totalReps votedStake) in
/-- The products of the representatives fit, and the one of the stake does unless the
representatives are too few anyway. -/
def ProductsFit : Prop :=
  totalReps = 0 ∨ 3 * votedReps.toNat ≤ u64Max ∧ 2 * totalReps.toNat ≤ u64Max ∧
    (3 * votedReps.toNat < 2 * totalReps.toNat ∨ 5 * votedStake.toNat ≤ u64Max)

theorem ProductsFit.repsFit (h : ProductsFit votedReps totalReps votedStake) :
    RepsFit votedReps totalReps :=
  h.imp_right fun h ↦ ⟨h.1, h.2.1⟩

/-- With fewer votes the products still fit. -/
theorem ProductsFit.mono {votedReps' votedStake' : UInt64}
    (h : ProductsFit votedReps totalReps votedStake) (hreps : votedReps' ≤ votedReps)
    (hstake : votedStake' ≤ votedStake) : ProductsFit votedReps' totalReps votedStake' := by
  rw [UInt64.le_iff_toNat_le] at hreps hstake
  refine h.imp_right fun ⟨hvoted, htotal, hlast⟩ ↦ ⟨by omega, htotal, ?_⟩
  omega

variable (totalSupply) in
/-- On products that fit, there is a quorum exactly where the exact one is. -/
theorem checkQuorum_of_productsFit (m : Overflow)
    (h : ProductsFit votedReps totalReps votedStake) :
    ∃ r, checkQuorum m votedReps totalReps votedStake totalSupply = some r ∧
      (r.reached = true ↔ ExactQuorum votedReps totalReps votedStake totalSupply) := by
  obtain ⟨r, hr, hreached⟩ := checkQuorum_of_fit m h.repsFit
  refine ⟨r, hr, hreached.trans (and_iff_left_of_imp fun hexact ↦ ?_)⟩
  obtain ⟨⟨hpos, hreps⟩, -⟩ := exactQuorum_iff.mp hexact
  rcases h with hzero | ⟨-, -, hfew | hfit⟩
  · simp [hzero] at hpos
  · omega
  · exact hfit

/-- **The quorum is exact and monotone** as long as the products fit. -/
theorem quorumExact_iff (hstake : votedStake ≤ totalSupply) :
    QuorumExact votedReps totalReps votedStake totalSupply ↔
      ProductsFit votedReps totalReps votedStake := by
  constructor
  · intro hexact
    obtain ⟨r, hr, hiff, -⟩ := hexact .panics
    by_cases hfit : RepsFit votedReps totalReps
    · obtain ⟨r', hr', hiff'⟩ := checkQuorum_of_fit .panics hfit
      cases hr.symm.trans hr'
      refine or_iff_not_imp_left.mpr fun hpos ↦ ?_
      obtain ⟨hvoted, htotal⟩ := hfit.resolve_left hpos
      refine ⟨hvoted, htotal, or_iff_not_imp_left.mpr fun henough ↦ ?_⟩
      rw [← UInt64.toNat_inj, UInt64.toNat_zero] at hpos
      rw [UInt64.le_iff_toNat_le] at hstake
      -- a fifth product that does not fit is more than the supply
      by_contra hlarge
      have hsupply := totalSupply.toNat_le_u64Max
      have hquorum : ExactQuorum votedReps totalReps votedStake totalSupply :=
        exactQuorum_iff.mpr (by omega)
      exact hlarge (hiff'.mp (hiff.mpr hquorum)).2
    · rw [checkQuorum, repQuorum_of_not_fit hfit] at hr
      cases hr
  · intro hfit m
    obtain ⟨r, hr, hiff⟩ := checkQuorum_of_productsFit totalSupply m hfit
    refine ⟨r, hr, hiff, fun votedReps' votedStake' r' hreps' hstake' hr' hreached ↦ ?_⟩
    obtain ⟨s, hs, hiff'⟩ := checkQuorum_of_productsFit totalSupply m
      (hfit.mono hreps' hstake')
    cases hs.symm.trans hr'
    exact hiff.mpr ((hiff'.mp hreached).mono hreps' hstake')

end Quorum

theorem quorumExact_seven_of_ten :
    QuorumExact 7 10 200000000 1000000000 ↔ ProductsFit 7 10 200000000 :=
  quorumExact_iff (by decide)

/-- Seven of ten representatives with all of the stake are no quorum. -/
theorem not_quorumExact :
    ¬ ∀ votedReps totalReps votedStake totalSupply : UInt64, votedReps ≤ totalReps →
      votedStake ≤ totalSupply → QuorumExact votedReps totalReps votedStake totalSupply := by
  intro h
  let stake := UInt64.ofNat u64Max
  obtain ⟨r, hr, hiff, -⟩ := h 7 10 stake stake (by decide) (by decide) .panics
  have hcode : checkQuorum .panics 7 10 stake stake = some ⟨false, 7, 10, stake, stake⟩ := by
    decide
  have hquorum : ExactQuorum 7 10 stake stake := exactQuorum_iff.mpr (by decide)
  have hreached := hiff.mpr hquorum
  cases hr.symm.trans hcode
  cases hreached

end Arxia
