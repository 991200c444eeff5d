import Arxia.Contracts.Vesting

/-!
# Token locks

A lock pays out the whole amount from a deadline on, once. It is older than the vesting schedule
and kept beside it as a contract of its own. Seen from outside it is the schedule whose cliff is its
end: `Same` relates the two, and each call of `claim` answers alike from related states, except that
the lock has two errors where the schedule has one. Only an empty lock is different. It pays out
its nothing, where the schedule says that there is nothing to claim.
-/

namespace Arxia

open Rust Transition

/-- A token lock entry. -/
structure TokenLock where
  /-- Owner account. -/
  owner : String
  /-- Amount locked (micro-ARX). -/
  amount : UInt64
  /-- Unlock timestamp (unix ms). -/
  unlockAt : UInt64
  claimed : Bool
  deriving DecidableEq

namespace TokenLock

/-- Create a new token lock. -/
def new (owner : String) (amount unlockAt : UInt64) : TokenLock where
  owner := owner
  amount := amount
  unlockAt := unlockAt
  claimed := false

/-- Attempt to claim the locked tokens. -/
def claim (currentTime : UInt64) : Call TokenLock String UInt64 := do
  let l ← get
  Call.ofExcept (ensure (l.claimed = false) "tokens already claimed")
  Call.ofExcept (ensure (¬ currentTime < l.unlockAt) "lock period has not elapsed")
  set { l with claimed := true }
  pure l.amount

/-- Check if the lock has expired. -/
def isUnlocked (l : TokenLock) (currentTime : UInt64) : Bool := currentTime ≥ l.unlockAt

/-- A call of `claim` and what it returned. -/
structure Claimed where
  currentTime : UInt64
  result : Except String UInt64
  deriving DecidableEq

/-- Claims against a lock. -/
def system (l₀ : TokenLock) : System TokenLock Claimed where
  init := fun l ↦ l = l₀
  step := fun l a l' ↦ (claim a.currentTime).exec l = some (a.result, l')

variable {l l' l₀ : TokenLock} {s s₀ : VestingSchedule} {t : UInt64}

/-! ## One call -/

/-- What `claim` answers. -/
def answer (l : TokenLock) (t : UInt64) : Except String UInt64 :=
  if l.claimed then .error "tokens already claimed"
  else if l.isUnlocked t then .ok l.amount else .error "lock period has not elapsed"

/-- **What a call does**: an unlocked lock is claimed afterwards. -/
theorem exec_claim (l : TokenLock) (t : UInt64) :
    (claim t).exec l = some (l.answer t, { l with claimed := l.claimed || l.isUnlocked t }) := by
  rw [claim, Call.exec_bind_ok (Call.exec_get l), answer, isUnlocked]
  by_cases hclaimed : l.claimed = true
  · rw [Call.exec_ensure_error (by rw [hclaimed]; decide), if_pos hclaimed, hclaimed, Bool.true_or,
      ← hclaimed]
  · rw [Bool.not_eq_true] at hclaimed
    rw [Call.exec_ensure_ok hclaimed, hclaimed, Bool.false_or, if_neg (by decide)]
    by_cases htime : t < l.unlockAt
    · have hlocked : decide (t ≥ l.unlockAt) = false :=
        decide_eq_false (UInt64.not_le.mpr htime)
      rw [Call.exec_ensure_error (not_not_intro htime), hlocked, if_neg (by decide), ← hclaimed]
    · have hunlocked : decide (t ≥ l.unlockAt) = true := decide_eq_true (UInt64.not_lt.mp htime)
      rw [Call.exec_ensure_ok htime, Call.exec_bind_ok (Call.exec_set _ _), Call.exec_pure,
        hunlocked, if_pos rfl]

/-- A lock is claimed once a call has come from the deadline on. -/
theorem lock_of_run {tr : List Claimed} (run : (system l₀).Run tr l) :
    l = { l₀ with claimed := l₀.claimed || tr.any fun a ↦ l₀.isUnlocked a.currentTime } := by
  refine run.invariant (I := fun tr l ↦
    l = { l₀ with claimed := l₀.claimed || tr.any fun a ↦ l₀.isUnlocked a.currentTime }) ?_ ?_
  · rintro l rfl
    rw [List.any_nil, Bool.or_false]
  · rintro tr l a l' - rfl hstep
    obtain ⟨-, rfl⟩ := Prod.mk.inj (Option.some_inj.mp ((exec_claim _ _).symm.trans hstep))
    rw [List.any_append, List.any_cons, List.any_nil, Bool.or_false, ← Bool.or_assoc]
    rfl

/-- **The first call from the deadline on is paid**, and no other one. -/
theorem result_of_run {owner : String} {amount unlockAt : UInt64} {tr tr' : List Claimed}
    {a : Claimed} (run : (system (new owner amount unlockAt)).Run (tr ++ a :: tr') l) :
    a.result =
      if ∃ b ∈ tr, unlockAt ≤ b.currentTime then .error "tokens already claimed"
      else if unlockAt ≤ a.currentTime then .ok amount
      else .error "lock period has not elapsed" := by
  obtain ⟨l₁, l₂, run₁, hstep, -⟩ := run.exists_step
  have hanswer := congrArg Prod.fst (Option.some_inj.mp ((exec_claim _ _).symm.trans hstep))
  rw [← show l₁.answer a.currentTime = a.result from hanswer, lock_of_run run₁, answer]
  simp only [new, isUnlocked, Bool.false_or, List.any_eq_true, decide_eq_true_iff, ge_iff_le]

/-! ## The lock as a schedule -/

/-- The schedule whose cliff and end are the deadline, as much claimed of it as of the lock. -/
structure Same (l : TokenLock) (s : VestingSchedule) : Prop where
  total : s.totalAmount = l.amount
  cliff : s.cliffAt = l.unlockAt
  finish : s.endAt = l.unlockAt
  claimed : s.claimed = if l.claimed then l.amount else 0

/-- The schedule has one error for the two of the lock. -/
def Claimed.asVesting (a : Claimed) : VestingSchedule.Claimed where
  currentTime := a.currentTime
  result := a.result.mapError fun _ ↦ .nothingToClaim

theorem Same.vestedAt_eq (h : Same l s) (t : UInt64) :
    s.vestedAt t = if l.isUnlocked t then l.amount else 0 := by
  rw [VestingSchedule.vestedAt, h.cliff, h.finish, h.total, isUnlocked]
  by_cases htime : t < l.unlockAt
  · rw [if_pos htime, decide_eq_false (UInt64.not_le.mpr htime), if_neg (by decide)]
  · have hle : t ≥ l.unlockAt := UInt64.not_lt.mp htime
    rw [if_neg htime, if_pos hle, decide_eq_true hle, if_pos rfl]

/-- Claimed or locked, there is nothing to claim. -/
theorem Same.claimableAt_eq (h : Same l s) (t : UInt64) :
    s.claimableAt t = if l.claimed then 0 else if l.isUnlocked t then l.amount else 0 := by
  rw [VestingSchedule.claimableAt, h.vestedAt_eq, h.claimed, ← UInt64.toNat_inj,
    UInt64.toNat_saturatingSub]
  cases l.claimed <;> cases l.isUnlocked t <;> simp

/-- **From related states the answers are alike**, and the states they leave are related. -/
theorem Same.exec_claim (h : Same l s) (hamount : l.amount ≠ 0) (t : UInt64) :
    ∃ s', (VestingSchedule.claim t).exec s =
        some ((l.answer t).mapError fun _ ↦ .nothingToClaim, s') ∧
      Same { l with claimed := l.claimed || l.isUnlocked t } s' := by
  rw [VestingSchedule.exec_claim, h.claimableAt_eq, answer]
  cases hclaimed : l.claimed
  · cases hunlocked : l.isUnlocked t
    · exact ⟨s, rfl, h.total, h.cliff, h.finish, by rw [h.claimed, hclaimed]; rfl⟩
    · refine ⟨{ s with claimed := s.claimed.saturatingAdd l.amount }, ?_, h.total, h.cliff,
        h.finish, ?_⟩
      · simp only [Bool.false_eq_true, if_false, if_true, if_neg hamount]
        rfl
      have hzero : s.claimed = 0 := by rw [h.claimed, hclaimed]; rfl
      have hmax := l.amount.toNat_le_u64Max
      dsimp only
      rw [hzero, ← UInt64.toNat_inj, UInt64.toNat_saturatingAdd, UInt64.toNat_zero, Nat.zero_add,
        min_eq_left hmax]
      rfl
  · exact ⟨s, rfl, h.total, h.cliff, h.finish, by rw [h.claimed, hclaimed]; rfl⟩

section Traces

variable {owner : String} {amount startAt unlockAt : UInt64}

theorem same_new (h : VestingSchedule.newChecked owner amount startAt unlockAt unlockAt = .ok s₀) :
    Same (new owner amount unlockAt) s₀ := by
  rw [VestingSchedule.newChecked] at h
  split at h
  · cases h
  · cases h
    exact ⟨rfl, rfl, rfl, rfl⟩

/-- The states in which a lock and its schedule are side by side. -/
def Beside (amount : UInt64) (l : TokenLock) (s : VestingSchedule) : Prop :=
  Same l s ∧ l.amount = amount

theorem lock_simulates (hamount : amount ≠ 0) (hstart : Beside amount l₀ s₀) {tr : List Claimed}
    (run : (system l₀).Run tr l) :
    ∃ s, (VestingSchedule.system s₀).Run (tr.map Claimed.asVesting) s := by
  have hstep : ∀ l s a l', Beside amount l s → (system l₀).step l a l' →
      ∃ b s', a.asVesting = b ∧ (VestingSchedule.system s₀).step s b s' ∧ Beside amount l' s' := by
    rintro l s a l' ⟨hsame, rfl⟩ hstep
    obtain ⟨s', hexec, hsame'⟩ := hsame.exec_claim hamount a.currentTime
    obtain ⟨hanswer, rfl⟩ := Prod.mk.inj (Option.some_inj.mp ((exec_claim _ _).symm.trans hstep))
    rw [hanswer] at hexec
    exact ⟨a.asVesting, s', rfl, hexec, hsame', rfl⟩
  obtain ⟨tr', s, hmatch, run', -⟩ := run.simulates (fun l hl ↦ ⟨s₀, rfl, hl ▸ hstart⟩) hstep
  rw [← List.forall₂_map_left_iff, List.forall₂_eq_eq_eq] at hmatch
  exact ⟨s, hmatch ▸ run'⟩

theorem schedule_simulates (hamount : amount ≠ 0) (hstart : Beside amount l₀ s₀)
    {tr' : List VestingSchedule.Claimed} (run : (VestingSchedule.system s₀).Run tr' s) :
    ∃ tr l, tr.map Claimed.asVesting = tr' ∧ (system l₀).Run tr l := by
  have hstep : ∀ s l b s', Beside amount l s → (VestingSchedule.system s₀).step s b s' →
      ∃ a l', b = Claimed.asVesting a ∧ (system l₀).step l a l' ∧ Beside amount l' s' := by
    rintro s l b s' ⟨hsame, rfl⟩ hstep
    obtain ⟨s₁, hexec, hsame'⟩ := hsame.exec_claim hamount b.currentTime
    obtain ⟨hanswer, rfl⟩ := Prod.mk.inj (Option.some_inj.mp (hexec.symm.trans hstep))
    exact ⟨⟨b.currentTime, l.answer b.currentTime⟩, _,
      congrArg (VestingSchedule.Claimed.mk _) hanswer.symm, exec_claim _ _, hsame', rfl⟩
  obtain ⟨tr, l, hmatch, run', -⟩ := run.simulates (fun s hs ↦ ⟨l₀, rfl, hs ▸ hstart⟩) hstep
  rw [← List.forall₂_map_right_iff, List.forall₂_eq_eq_eq] at hmatch
  exact ⟨tr, l, hmatch.symm, run'⟩

/-- An empty lock pays out nothing from its deadline on, and the schedule refuses. -/
theorem exec_claim_empty
    (h : VestingSchedule.newChecked owner 0 startAt unlockAt unlockAt = .ok s₀)
    (htime : unlockAt ≤ t) :
    (claim t).exec (new owner 0 unlockAt) =
        some (.ok 0, { new owner 0 unlockAt with claimed := true }) ∧
      (VestingSchedule.claim t).exec s₀ = some (.error .nothingToClaim, s₀) := by
  have hunlocked : (new owner 0 unlockAt).isUnlocked t = true := decide_eq_true htime
  have hnone : s₀.claimableAt t = 0 := by
    rw [(same_new h).claimableAt_eq]
    exact ite_self _
  constructor
  · rw [exec_claim, answer, hunlocked]
    rfl
  · rw [VestingSchedule.exec_claim, if_pos hnone]

/-- **A lock is the schedule with its cliff at its end.** The sequences of calls and answers that
the lock can show are those of the schedule, its two errors taken for one, exactly when something
is locked. An empty lock pays out nothing where the schedule has nothing to claim. -/
theorem sameTraces_iff
    (h : VestingSchedule.newChecked owner amount startAt unlockAt unlockAt = .ok s₀) :
    ((∀ tr', (∃ s, (VestingSchedule.system s₀).Run tr' s) ↔
      ∃ tr l, tr.map Claimed.asVesting = tr' ∧ (system (new owner amount unlockAt)).Run tr l) ↔
      amount ≠ 0) ∧
    (amount = 0 → ∀ t, unlockAt ≤ t →
      (∃ l, (claim t).exec (new owner amount unlockAt) = some (.ok 0, l)) ∧
        (VestingSchedule.claim t).exec s₀ = some (.error .nothingToClaim, s₀)) := by
  have hstart : Beside amount (new owner amount unlockAt) s₀ := ⟨same_new h, rfl⟩
  refine ⟨⟨?_, fun hamount tr' ↦ ⟨?_, ?_⟩⟩, ?_⟩
  · rintro htraces rfl
    obtain ⟨hpaid, hrefused⟩ := exec_claim_empty h (UInt64.le_refl unlockAt)
    have run : (system (new owner 0 unlockAt)).Run [⟨unlockAt, .ok 0⟩] _ :=
      .step (.start rfl) hpaid
    obtain ⟨s, run'⟩ := (htraces _).mpr ⟨_, _, rfl, run⟩
    obtain ⟨s₁, s₂, run₁, hstep, -⟩ := System.Run.exists_step
      (show (VestingSchedule.system s₀).Run ([] ++ _ :: _) s from run')
    rw [show s₁ = s₀ from run₁.init_of_nil] at hstep
    cases hrefused.symm.trans hstep
  · rintro ⟨s, run⟩
    exact schedule_simulates hamount hstart run
  · rintro ⟨tr, l, rfl, run⟩
    exact lock_simulates hamount hstart run
  · rintro rfl t htime
    obtain ⟨hpaid, hrefused⟩ := exec_claim_empty h htime
    exact ⟨⟨_, hpaid⟩, hrefused⟩

/-- A lock of a hundred units that opens at time ten, and an empty one. -/
theorem sameTraces_iff_hundred :
    ((∀ tr', (∃ s, (VestingSchedule.system (.new "alice" 100 0 10 10)).Run tr' s) ↔
      ∃ tr l, tr.map Claimed.asVesting = tr' ∧ (system (new "alice" 100 10)).Run tr l) ↔
      (100 : UInt64) ≠ 0) ∧
    (∃ l, (claim 10).exec (new "alice" 0 10) = some (.ok 0, l)) ∧
      (VestingSchedule.claim 10).exec (.new "alice" 0 0 10 10) =
        some (.error .nothingToClaim, .new "alice" 0 0 10 10) := by
  have hnew : ∀ amount, VestingSchedule.newChecked "alice" amount 0 10 10 =
      .ok (.new "alice" amount 0 10 10) := fun _ ↦ rfl
  exact ⟨(sameTraces_iff (hnew 100)).1, (sameTraces_iff (hnew 0)).2 rfl 10 (by decide)⟩

end Traces

end TokenLock

end Arxia
