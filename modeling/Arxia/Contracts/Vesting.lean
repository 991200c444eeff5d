import Arxia.Rust.Outcome
import Arxia.Rust.UInt64
import Arxia.Transition.Runs
import Mathlib.Algebra.Order.Floor.Semifield
import Mathlib.Data.Rat.Floor

/-!
# Vesting

A schedule pays out an amount over time: nothing before the cliff, then in proportion to the time
that has passed since the start, and all of it from the end on. `exactVested` is that curve on the
natural numbers, and `vestedAt` follows it without any of its intermediate values being cut off.

A call of `claim` pays the difference to what has been claimed. Since the curve does not fall, what
has been claimed is at any time the most that it has come to at one of the calls.
-/

namespace Arxia

open Rust Transition

/-- Errors returned by `VestingSchedule` operations. -/
inductive VestingError
  | nothingToClaim
  | invalidSchedule
  deriving DecidableEq

/-- A linear vesting schedule with cliff. -/
structure VestingSchedule where
  /-- Owner account (hex-encoded pubkey or label). -/
  owner : String
  /-- Total amount that vests over the schedule (micro-ARX). -/
  totalAmount : UInt64
  /-- Vesting epoch start (unix ms). -/
  startAt : UInt64
  /-- Cliff timestamp (unix ms). -/
  cliffAt : UInt64
  /-- End of vesting (unix ms). -/
  endAt : UInt64
  /-- Amount already claimed by the owner. -/
  claimed : UInt64
  deriving DecidableEq

namespace VestingSchedule

/-- Construct a schedule without validation. -/
def new (owner : String) (totalAmount startAt cliffAt endAt : UInt64) : VestingSchedule where
  owner := owner
  totalAmount := totalAmount
  startAt := startAt
  cliffAt := cliffAt
  endAt := endAt
  claimed := 0

/-- Construct a schedule with parameter validation. -/
def newChecked (owner : String) (totalAmount startAt cliffAt endAt : UInt64) :
    Except VestingError VestingSchedule :=
  if cliffAt < startAt ∨ cliffAt > endAt ∨ endAt ≤ startAt then .error .invalidSchedule
  else .ok (new owner totalAmount startAt cliffAt endAt)

/-- Total amount vested at `currentTime`. The product and the quotient are taken in `u128`. -/
def vestedAt (s : VestingSchedule) (currentTime : UInt64) : UInt64 :=
  if currentTime < s.cliffAt then 0
  else if currentTime ≥ s.endAt then s.totalAmount
  else
    let elapsed := currentTime.saturatingSub s.startAt
    let duration := s.endAt.saturatingSub s.startAt
    if duration = 0 then s.totalAmount
    else
      let result := min (s.totalAmount.toNat * elapsed.toNat) u128Max / duration.toNat
      if result ≤ u64Max then UInt64.ofNat result else UInt64.ofNat u64Max

/-- Amount claimable now. -/
def claimableAt (s : VestingSchedule) (currentTime : UInt64) : UInt64 :=
  (s.vestedAt currentTime).saturatingSub s.claimed

/-- Claim all currently-claimable tokens. -/
def claim (currentTime : UInt64) : Call VestingSchedule VestingError UInt64 := do
  let s ← get
  let claimable := s.claimableAt currentTime
  Call.ofExcept (ensure (claimable ≠ 0) .nothingToClaim)
  set { s with claimed := s.claimed.saturatingAdd claimable }
  pure claimable

/-- A call of `claim` and what it returned. -/
structure Claimed where
  currentTime : UInt64
  result : Except VestingError UInt64
  deriving DecidableEq

/-- Claims against a schedule. -/
def system (s₀ : VestingSchedule) : System VestingSchedule Claimed where
  init := fun s ↦ s = s₀
  step := fun s a s' ↦ (claim a.currentTime).exec s = some (a.result, s')

/-- The amounts that have been paid out. -/
def payouts (tr : List Claimed) : List UInt64 := tr.filterMap fun a ↦ a.result.toOption

/-! ## The curve -/

/-- The amount vested at a time, for natural numbers. -/
def exactVested (total start cliff finish t : ℕ) : ℕ :=
  if t < cliff then 0
  else if finish ≤ t then total
  else total * (t - start) / (finish - start)

section Curve

variable {total start cliff finish t t' : ℕ}

theorem mul_div_le (h : t ≤ finish) : total * (t - start) / (finish - start) ≤ total :=
  Nat.div_le_of_le_mul (by
    rw [Nat.mul_comm (finish - start)]
    exact Nat.mul_le_mul_left _ (Nat.sub_le_sub_right h _))

theorem exactVested_le (total start cliff finish t : ℕ) :
    exactVested total start cliff finish t ≤ total := by
  rw [exactVested]
  split
  · exact Nat.zero_le _
  · split
    · exact Nat.le_refl _
    · rename_i h
      exact mul_div_le (Nat.le_of_not_le h)

theorem exactVested_of_le (hcliff : cliff ≤ finish) (h : finish ≤ t) :
    exactVested total start cliff finish t = total := by
  rw [exactVested, if_neg (Nat.not_lt_of_le (hcliff.trans h)), if_pos h]

/-- **The curve does not fall.** -/
theorem exactVested_mono (hcliff : cliff ≤ finish) (h : t ≤ t') :
    exactVested total start cliff finish t ≤ exactVested total start cliff finish t' := by
  by_cases hfinish : finish ≤ t'
  · rw [exactVested_of_le hcliff hfinish]
    exact exactVested_le _ _ _ _ _
  · by_cases hstart : t < cliff
    · rw [exactVested, if_pos hstart]
      exact Nat.zero_le _
    · rw [exactVested, exactVested, if_neg hstart, if_neg (by omega), if_neg (by omega),
        if_neg hfinish]
      exact Nat.div_le_div_right (Nat.mul_le_mul_left _ (Nat.sub_le_sub_right h _))

end Curve

/-! ## Vested amounts -/

variable {s s' s₀ : VestingSchedule} {t t' : UInt64}

/-- What `newChecked` makes sure of. -/
structure Checked (s : VestingSchedule) : Prop where
  start_le : s.startAt ≤ s.cliffAt
  cliff_le : s.cliffAt ≤ s.endAt
  start_lt : s.startAt < s.endAt

theorem checked_of_newChecked {owner : String} {totalAmount startAt cliffAt endAt : UInt64}
    (h : newChecked owner totalAmount startAt cliffAt endAt = .ok s) :
    s.Checked ∧ s.claimed = 0 := by
  rw [newChecked] at h
  split at h
  · cases h
  · rename_i hparams
    cases h
    simp only [not_or, UInt64.not_lt, UInt64.not_le] at hparams
    exact ⟨⟨hparams.1, hparams.2.1, hparams.2.2⟩, rfl⟩

/-- Between the start and the end nothing is cut off: neither the difference to the start, nor the
product, nor the quotient. -/
theorem Checked.no_overflow (h : s.Checked) (hcliff : s.cliffAt ≤ t) (hend : t < s.endAt) :
    s.startAt ≤ t ∧ s.totalAmount.toNat * (t.toNat - s.startAt.toNat) ≤ u128Max ∧
      s.totalAmount.toNat * (t.toNat - s.startAt.toNat) / (s.endAt.toNat - s.startAt.toNat) ≤
        u64Max := by
  refine ⟨UInt64.le_trans h.start_le hcliff, ?_, ?_⟩
  · have helapsed : t.toNat - s.startAt.toNat ≤ u64Max := (Nat.sub_le _ _).trans t.toNat_le_u64Max
    exact (Nat.mul_le_mul s.totalAmount.toNat_le_u64Max helapsed).trans (by decide)
  · exact (mul_div_le (UInt64.lt_iff_toNat_lt.mp hend).le).trans s.totalAmount.toNat_le_u64Max

/-- **The amount vested** follows the curve. -/
theorem Checked.toNat_vestedAt (h : s.Checked) (t : UInt64) :
    (s.vestedAt t).toNat = exactVested s.totalAmount.toNat s.startAt.toNat s.cliffAt.toNat
      s.endAt.toNat t.toNat := by
  rw [vestedAt, exactVested]
  by_cases hcliff : t < s.cliffAt
  · rw [if_pos hcliff, if_pos (UInt64.lt_iff_toNat_lt.mp hcliff)]
    rfl
  · rw [if_neg hcliff, if_neg (mt UInt64.lt_iff_toNat_lt.mpr hcliff)]
    by_cases hend : s.endAt ≤ t
    · rw [if_pos hend, if_pos (UInt64.le_iff_toNat_le.mp hend)]
    · have hstart := UInt64.lt_iff_toNat_lt.mp h.start_lt
      have hduration : s.endAt.saturatingSub s.startAt ≠ 0 := fun hzero ↦ by
        have hsub := congrArg UInt64.toNat hzero
        rw [UInt64.toNat_saturatingSub, UInt64.toNat_zero] at hsub
        omega
      obtain ⟨-, hproduct, hquotient⟩ := h.no_overflow (UInt64.not_lt.mp hcliff)
        (UInt64.not_le.mp hend)
      rw [if_neg hend, if_neg (mt UInt64.le_iff_toNat_le.mpr hend)]
      dsimp only
      rw [if_neg hduration, UInt64.toNat_saturatingSub, UInt64.toNat_saturatingSub,
        min_eq_left hproduct, if_pos hquotient]
      exact UInt64.toNat_ofNat_of_lt' (Nat.lt_of_le_of_lt hquotient (by decide))

theorem Checked.vestedAt_le (h : s.Checked) (t : UInt64) :
    (s.vestedAt t).toNat ≤ s.totalAmount.toNat := by
  rw [h.toNat_vestedAt]
  exact exactVested_le _ _ _ _ _

theorem Checked.vestedAt_of_end_le (h : s.Checked) (hend : s.endAt ≤ t) :
    (s.vestedAt t).toNat = s.totalAmount.toNat := by
  rw [h.toNat_vestedAt]
  exact exactVested_of_le (UInt64.le_iff_toNat_le.mp h.cliff_le) (UInt64.le_iff_toNat_le.mp hend)

theorem Checked.vestedAt_mono (h : s.Checked) (hle : t ≤ t') : s.vestedAt t ≤ s.vestedAt t' := by
  rw [UInt64.le_iff_toNat_le, h.toNat_vestedAt, h.toNat_vestedAt]
  exact exactVested_mono (UInt64.le_iff_toNat_le.mp h.cliff_le) (UInt64.le_iff_toNat_le.mp hle)

/-- In exact arithmetic. -/
theorem Checked.vestedAt_eq_floor (h : s.Checked) (hcliff : s.cliffAt ≤ t) (hend : t < s.endAt) :
    (s.vestedAt t).toNat = ⌊(s.totalAmount.toNat : ℚ) * (t.toNat - s.startAt.toNat) /
      (s.endAt.toNat - s.startAt.toNat)⌋₊ := by
  have hstart := UInt64.le_iff_toNat_le.mp (h.no_overflow hcliff hend).1
  have hend' := UInt64.lt_iff_toNat_lt.mp hend
  rw [h.toNat_vestedAt, exactVested,
    if_neg (Nat.not_lt_of_le (UInt64.le_iff_toNat_le.mp hcliff)), if_neg (Nat.not_le_of_lt hend'),
    ← Nat.floor_div_eq_div (K := ℚ), Nat.cast_mul, Nat.cast_sub hstart,
    Nat.cast_sub (hstart.trans hend'.le)]

/-! ## Claims -/

/-- **What a call does**: it pays what is missing, if anything is. -/
theorem claim_cases {out : Except VestingError UInt64} (hexec : (claim t).exec s = some (out, s')) :
    (out = .error .nothingToClaim ∧ s' = s ∧ (s.vestedAt t).toNat ≤ s.claimed.toNat) ∨
      ∃ amount, out = .ok amount ∧ s' = { s with claimed := s.vestedAt t } ∧
        amount.toNat + s.claimed.toNat = (s.vestedAt t).toNat := by
  rw [claim, Call.exec_bind_ok (Call.exec_get s)] at hexec
  dsimp only at hexec
  have hclaimable : (s.claimableAt t).toNat = (s.vestedAt t).toNat - s.claimed.toNat :=
    UInt64.toNat_saturatingSub _ _
  by_cases hzero : s.claimableAt t = 0
  · rw [Call.exec_ensure_error (not_not_intro hzero), Option.some_inj, Prod.mk.injEq] at hexec
    obtain ⟨rfl, rfl⟩ := hexec
    rw [hzero, UInt64.toNat_zero] at hclaimable
    exact .inl ⟨rfl, rfl, by omega⟩
  · rw [Call.exec_ensure_ok hzero, Call.exec_bind_ok (Call.exec_set _ _), Call.exec_pure,
      Option.some_inj, Prod.mk.injEq] at hexec
    obtain ⟨rfl, rfl⟩ := hexec
    have hpos : (s.claimableAt t).toNat ≠ 0 := fun h ↦ hzero (UInt64.toNat_inj.mp h)
    have hclaimed : s.claimed.saturatingAdd (s.claimableAt t) = s.vestedAt t := by
      have hmax := (s.vestedAt t).toNat_le_u64Max
      rw [← UInt64.toNat_inj, UInt64.toNat_saturatingAdd, hclaimable]
      omega
    exact .inr ⟨_, rfl, by rw [hclaimed], by omega⟩

theorem exec_claim (s : VestingSchedule) (t : UInt64) :
    (claim t).exec s = some (
      if s.claimableAt t = 0 then (.error .nothingToClaim, s)
      else (.ok (s.claimableAt t),
        { s with claimed := s.claimed.saturatingAdd (s.claimableAt t) })) := by
  rw [claim, Call.exec_bind_ok (Call.exec_get s)]
  dsimp only
  by_cases hzero : s.claimableAt t = 0
  · rw [Call.exec_ensure_error (not_not_intro hzero), if_pos hzero]
  · rw [Call.exec_ensure_ok hzero, Call.exec_bind_ok (Call.exec_set _ _), Call.exec_pure,
      if_neg hzero]

/-- The most that has vested at one of the calls. -/
def mostVested (s : VestingSchedule) (tr : List Claimed) : ℕ :=
  (tr.map fun a ↦ (s.vestedAt a.currentTime).toNat).foldl max 0

theorem mostVested_concat (s : VestingSchedule) (tr : List Claimed) (a : Claimed) :
    s.mostVested (tr ++ [a]) = max (s.mostVested tr) (s.vestedAt a.currentTime).toNat := by
  rw [mostVested, List.map_append, List.foldl_append]
  rfl

theorem le_mostVested {tr : List Claimed} {a : Claimed} (h : a ∈ tr) :
    (s.vestedAt a.currentTime).toNat ≤ s.mostVested tr := by
  induction tr using List.reverseRecOn with
  | nil => cases h
  | append_singleton tr b ih =>
    rw [mostVested_concat]
    rcases List.mem_append.mp h with h | h
    · exact (ih h).trans (le_max_left _ _)
    · rw [List.mem_singleton.mp h]
      exact le_max_right _ _

theorem mostVested_le (h : s.Checked) (tr : List Claimed) :
    s.mostVested tr ≤ s.totalAmount.toNat := by
  induction tr using List.reverseRecOn with
  | nil => exact Nat.zero_le _
  | append_singleton tr b ih =>
    rw [mostVested_concat]
    exact max_le ih (h.vestedAt_le _)

/-- Only what has been claimed changes. -/
theorem exists_claimed {tr : List Claimed} (run : (system s₀).Run tr s) :
    ∃ claimed, s = { s₀ with claimed } := by
  refine run.invariant (I := fun _ s ↦ ∃ claimed, s = { s₀ with claimed }) ?_ ?_
  · rintro s rfl
    exact ⟨s.claimed, rfl⟩
  · rintro tr s a s' - ⟨claimed, rfl⟩ hstep
    rcases claim_cases hstep with ⟨-, rfl, -⟩ | ⟨amount, -, rfl, -⟩
    · exact ⟨claimed, rfl⟩
    · exact ⟨_, rfl⟩

/-- **Over a run** what has been paid is what has been claimed, which is the most that has vested at
one of the calls. -/
theorem claimed_of_run (hclaimed : s₀.claimed = 0) {tr : List Claimed}
    (run : (system s₀).Run tr s) :
    UInt64.exactSum (payouts tr) = s.claimed.toNat ∧ s.claimed.toNat = s₀.mostVested tr := by
  refine run.invariant (I := fun tr s ↦ UInt64.exactSum (payouts tr) = s.claimed.toNat ∧
    s.claimed.toNat = s₀.mostVested tr) ?_ ?_
  · rintro s rfl
    rw [hclaimed]
    exact ⟨rfl, rfl⟩
  · rintro tr s a s' run ⟨hsum, hmost⟩ hstep
    have hvested : s.vestedAt a.currentTime = s₀.vestedAt a.currentTime := by
      obtain ⟨claimed, rfl⟩ := exists_claimed run
      rfl
    have hpayouts : payouts (tr ++ [a]) = payouts tr ++ a.result.toOption.toList :=
      filterMap_concat _ tr a
    rw [mostVested_concat, hpayouts, ← hvested, ← hmost]
    rcases claim_cases hstep with ⟨hout, rfl, hle⟩ | ⟨amount, hout, rfl, hamount⟩
    · rw [hout, max_eq_left hle]
      exact ⟨by simpa [Except.toOption] using hsum, rfl⟩
    · have hlast : UInt64.exactSum (payouts tr ++
          (Except.toOption (.ok amount : Except VestingError UInt64)).toList) =
            UInt64.exactSum (payouts tr) + amount.toNat := by
        simp [UInt64.exactSum, Except.toOption]
      have hle : s.claimed.toNat ≤ (s.vestedAt a.currentTime).toNat := by omega
      rw [hout, hlast, hsum, max_eq_right hle, Nat.add_comm]
      exact ⟨hamount, rfl⟩

/-- **Payouts do not depend on when claims are made.** After any calls, at any times, what has been
paid out is what has been claimed, which is the most that has vested at one of them; it does not
exceed the total amount, and is all of it once a call has come at or after the end. The amount
vested does not fall, and between the cliff and the end it is the exact proportion rounded down,
where no difference, product, quotient or sum leaves its word. -/
theorem payouts_eq_mostVested {owner : String} {totalAmount startAt cliffAt endAt : UInt64}
    (h : newChecked owner totalAmount startAt cliffAt endAt = .ok s₀) :
    (∀ tr s, (system s₀).Run tr s →
      UInt64.exactSum (payouts tr) = s.claimed.toNat ∧ s.claimed.toNat = s₀.mostVested tr ∧
        UInt64.exactSum (payouts tr) ≤ s₀.totalAmount.toNat ∧
        ((∃ a ∈ tr, s₀.endAt ≤ a.currentTime) →
          UInt64.exactSum (payouts tr) = s₀.totalAmount.toNat) ∧
        ∀ t, s.claimed.toNat + (s.claimableAt t).toNat ≤ u64Max) ∧
    (∀ t t', t ≤ t' → s₀.vestedAt t ≤ s₀.vestedAt t') ∧
    ∀ t, s₀.cliffAt ≤ t → t < s₀.endAt →
      (s₀.vestedAt t).toNat = ⌊(s₀.totalAmount.toNat : ℚ) * (t.toNat - s₀.startAt.toNat) /
        (s₀.endAt.toNat - s₀.startAt.toNat)⌋₊ ∧
      s₀.startAt ≤ t ∧ s₀.totalAmount.toNat * (t.toNat - s₀.startAt.toNat) ≤ u128Max ∧
      s₀.totalAmount.toNat * (t.toNat - s₀.startAt.toNat) /
        (s₀.endAt.toNat - s₀.startAt.toNat) ≤ u64Max := by
  obtain ⟨hchecked, hclaimed⟩ := checked_of_newChecked h
  refine ⟨fun tr s run ↦ ?_, fun t t' ↦ hchecked.vestedAt_mono, fun t hcliff hend ↦
    ⟨hchecked.vestedAt_eq_floor hcliff hend, hchecked.no_overflow hcliff hend⟩⟩
  obtain ⟨hsum, hmost⟩ := claimed_of_run hclaimed run
  have hle := mostVested_le hchecked tr
  refine ⟨hsum, hmost, by omega, ?_, fun t ↦ ?_⟩
  · rintro ⟨a, ha, hend⟩
    have hvested := hchecked.vestedAt_of_end_le hend
    have hmem := le_mostVested (s := s₀) ha
    omega
  · have hclaimable : (s.claimableAt t).toNat = (s.vestedAt t).toNat - s.claimed.toNat :=
      UInt64.toNat_saturatingSub _ _
    have hvested := (s.vestedAt t).toNat_le_u64Max
    have hmax := s.claimed.toNat_le_u64Max
    omega

/-- A schedule that starts at the epoch. -/
def sample : VestingSchedule := new "alice" 1000 0 100 900

theorem exec_sample :
    (claim 500).exec sample = some (.ok 555, { sample with claimed := 555 }) ∧
      (claim 200).exec { sample with claimed := 555 } =
        some (.error .nothingToClaim, { sample with claimed := 555 }) ∧
      (claim 900).exec { sample with claimed := 555 } =
        some (.ok 445, { sample with claimed := 1000 }) := by
  decide +kernel

/-- Three claims, the second one at an earlier time than the first. -/
theorem payouts_eq_mostVested_sample : ∃ tr s, (system sample).Run tr s ∧
    tr.map Claimed.currentTime = [500, 200, 900] ∧ UInt64.exactSum (payouts tr) = 1000 := by
  obtain ⟨hfirst, hsecond, hthird⟩ := exec_sample
  have run : (system sample).Run [⟨500, .ok 555⟩] { sample with claimed := 555 } :=
    .step (.start rfl) hfirst
  have run₂ : (system sample).Run [⟨500, .ok 555⟩, ⟨200, .error .nothingToClaim⟩]
      { sample with claimed := 555 } := .step run hsecond
  have run₃ : (system sample).Run
      [⟨500, .ok 555⟩, ⟨200, .error .nothingToClaim⟩, ⟨900, .ok 445⟩]
      { sample with claimed := 1000 } := .step run₂ hthird
  have hnew : newChecked "alice" 1000 0 100 900 = .ok sample := rfl
  refine ⟨_, _, run₃, rfl, ((payouts_eq_mostVested hnew).1 _ _ run₃).2.2.2.1 ?_⟩
  exact ⟨⟨900, .ok 445⟩, by decide, UInt64.le_refl _⟩

end VestingSchedule

end Arxia
