import Arxia.Lattice.Block
import Arxia.Order.Tournament
import Arxia.Rust.UInt64
import Mathlib.Data.String.Basic

/-!
# Conflict resolution by stake and hash

`resolve_conflict_orv` decides between two blocks: the one with more stake wins if the gap exceeds a
twentieth of the total, otherwise the one with the smaller hash. A larger group is resolved by
keeping the winner with its votes and comparing it with the next candidate.

The pairwise decision is not transitive. Three candidates can each beat the next, with two stakes
inside the band and the third comparison outside it, and then the order of the fold decides. The
fold is a knockout tournament, so the result about those applies: the outcome does not depend on the
order exactly when one candidate beats every other one directly.
-/

namespace Arxia

open Rust Tournament

/-- A single ORV vote from a representative. -/
structure VoteORV where
  blockHash : BlockHash
  voterPubkey : AccountId
  delegatedStake : UInt64
  nonce : UInt64
  signature : SignatureBytes
  deriving DecidableEq

/-- A block candidate paired with its supporting votes. -/
structure BlockCandidate where
  block : Block
  votes : List VoteORV
  deriving DecidableEq

/-- The variant tag of a block type. -/
def blockTypeTag (block : Block) : String :=
  match block.blockType with
  | .open _ => "Open"
  | .send _ _ => "Send"
  | .receive _ => "Receive"
  | .revoke _ => "Revoke"

/-- Whether the block's type is eligible to enter the ORV cascade. -/
def isEligibleForOrv (block : Block) : Bool :=
  match block.blockType with
  | .open _ | .send _ _ | .receive _ => true
  | .revoke _ => false

/-- Resolves a conflict between two competing blocks. -/
def resolveConflictOrv (m : Overflow) (blockA blockB : Block) (votesA votesB : List VoteORV) :
    Fallible ArxiaError (Block × String) := do
  Fallible.ofExcept (ensure (isEligibleForOrv blockA = true)
    (.ineligibleConflictBlockType blockA.hash (blockTypeTag blockA)))
  Fallible.ofExcept (ensure (isEligibleForOrv blockB = true)
    (.ineligibleConflictBlockType blockB.hash (blockTypeTag blockB)))
  let stakeA ← Fallible.orPanic (UInt64.sum m (votesA.map VoteORV.delegatedStake))
  let stakeB ← Fallible.orPanic (UInt64.sum m (votesB.map VoteORV.delegatedStake))
  let totalStake := stakeA.saturatingAdd stakeB
  if 0 < totalStake ∧ totalStake < (stakeA.absDiff stakeB).saturatingMul 20 then
    if stakeB < stakeA then pure (blockA, "stake_weighted") else pure (blockB, "stake_weighted")
  else if blockA.hash ≤ blockB.hash then pure (blockA, "hash_tiebreaker")
  else pure (blockB, "hash_tiebreaker")

/-- Resolve a group: keep the winner with its votes and compare it with the next candidate. -/
def resolveGroup (m : Overflow) (first : BlockCandidate) (rest : List BlockCandidate) :
    Fallible ArxiaError BlockCandidate :=
  rest.foldlM (fun winner next ↦ do
    let (block, _) ← resolveConflictOrv m winner.block next.block winner.votes next.votes
    pure (if block = winner.block then winner else next)) first

/-! ## The pairwise decision -/

/-- The stake tier decides. At saturation it is switched off. -/
def StakeDecides (stakeA stakeB : UInt64) : Prop :=
  stakeA.toNat + stakeB.toNat < u64Max ∧ stakeA.toNat + stakeB.toNat <
    20 * ((stakeA.toNat - stakeB.toNat) + (stakeB.toNat - stakeA.toNat))

instance (stakeA stakeB : UInt64) : Decidable (StakeDecides stakeA stakeB) :=
  inferInstanceAs (Decidable (_ ∧ _))

theorem stakeDecides_iff {stakeA stakeB : UInt64} :
    (0 < stakeA.saturatingAdd stakeB ∧
      stakeA.saturatingAdd stakeB < (stakeA.absDiff stakeB).saturatingMul 20) ↔
      StakeDecides stakeA stakeB := by
  have h20 : (20 : UInt64).toNat = 20 := rfl
  rw [UInt64.lt_iff_toNat_lt, UInt64.lt_iff_toNat_lt, UInt64.toNat_saturatingMul,
    UInt64.toNat_saturatingAdd, UInt64.toNat_absDiff, UInt64.toNat_zero, h20, StakeDecides]
  omega

theorem stakeDecides_comm {stakeA stakeB : UInt64} :
    StakeDecides stakeA stakeB ↔ StakeDecides stakeB stakeA := by
  rw [StakeDecides, StakeDecides]
  omega

/-- The stake behind a candidate, `none` when adding it up panics. -/
def stakeOf (m : Overflow) (c : BlockCandidate) : Option UInt64 :=
  UInt64.sum m (c.votes.map VoteORV.delegatedStake)

/-- It panics only in a build with overflow checks, on votes for more than `u64::MAX`. -/
theorem stakeOf_eq_none {m : Overflow} {c : BlockCandidate} :
    stakeOf m c = none ↔
      m = .panics ∧ u64Max < UInt64.exactSum (c.votes.map VoteORV.delegatedStake) :=
  UInt64.sum_eq_none

/-- `a` wins the comparison with `b` on stake or hash. -/
def Beats (m : Overflow) (a b : BlockCandidate) : Prop :=
  if StakeDecides ((stakeOf m a).getD 0) ((stakeOf m b).getD 0) then
    (stakeOf m b).getD 0 < (stakeOf m a).getD 0
  else a.block.hash ≤ b.block.hash

instance (m : Overflow) : DecidableRel (Beats m) := fun _ _ ↦
  inferInstanceAs (Decidable (ite _ _ _))

/-- Of two candidates with different hashes exactly one beats the other. -/
theorem beats_iff_not {m : Overflow} {a b : BlockCandidate} (h : a.block.hash ≠ b.block.hash) :
    Beats m a b ↔ ¬ Beats m b a := by
  rw [Beats, Beats]
  by_cases hdecides : StakeDecides ((stakeOf m a).getD 0) ((stakeOf m b).getD 0)
  · rw [if_pos hdecides, if_pos (stakeDecides_comm.mp hdecides), UInt64.lt_iff_toNat_lt,
      UInt64.lt_iff_toNat_lt]
    rw [StakeDecides] at hdecides
    omega
  · rw [if_neg hdecides, if_neg (mt stakeDecides_comm.mp hdecides)]
    exact ⟨fun hle hge ↦ h (le_antisymm hle hge), fun hnot ↦ (not_le.mp hnot).le⟩

section Pair

variable {m : Overflow} {a b : BlockCandidate}

/-- On eligible blocks whose stakes add up, stake decides or the hash does. -/
theorem exec_of_stakeOf {stakeA stakeB : UInt64} (ha : isEligibleForOrv a.block = true)
    (hb : isEligibleForOrv b.block = true) (hsa : stakeOf m a = some stakeA)
    (hsb : stakeOf m b = some stakeB) :
    (resolveConflictOrv m a.block b.block a.votes b.votes).exec = some (.ok (
      if StakeDecides stakeA stakeB then
        (if stakeB < stakeA then a.block else b.block, "stake_weighted")
      else (if a.block.hash ≤ b.block.hash then a.block else b.block, "hash_tiebreaker"))) := by
  rw [resolveConflictOrv, Fallible.exec_bind_ok (a := ()) (by simpa using ha),
    Fallible.exec_bind_ok (a := ()) (by simpa using hb), ← stakeOf, ← stakeOf, hsa, hsb,
    Fallible.exec_bind_ok (a := stakeA) (by simp), Fallible.exec_bind_ok (a := stakeB) (by simp)]
  simp only [stakeDecides_iff]
  split
  · split <;> rfl
  · split <;> rfl

/-- On eligible blocks whose stakes add up, the code returns the block that beats the other. -/
theorem exec_resolveConflictOrv (ha : isEligibleForOrv a.block = true)
    (hb : isEligibleForOrv b.block = true) (hsa : (stakeOf m a).isSome)
    (hsb : (stakeOf m b).isSome) :
    ∃ reason, (resolveConflictOrv m a.block b.block a.votes b.votes).exec =
      some (.ok (if Beats m a b then a.block else b.block, reason)) := by
  obtain ⟨stakeA, hsa⟩ := Option.isSome_iff_exists.mp hsa
  obtain ⟨stakeB, hsb⟩ := Option.isSome_iff_exists.mp hsb
  rw [exec_of_stakeOf ha hb hsa hsb]
  simp only [Beats, hsa, hsb, Option.getD_some]
  split
  · exact ⟨_, rfl⟩
  · exact ⟨_, rfl⟩

/-- It panics when one of the two stakes does not add up. -/
theorem exec_resolveConflictOrv_eq_none (ha : isEligibleForOrv a.block = true)
    (hb : isEligibleForOrv b.block = true) (h : stakeOf m a = none ∨ stakeOf m b = none) :
    (resolveConflictOrv m a.block b.block a.votes b.votes).exec = none := by
  rw [resolveConflictOrv, Fallible.exec_bind_ok (a := ()) (by simpa using ha),
    Fallible.exec_bind_ok (a := ()) (by simpa using hb), ← stakeOf, ← stakeOf]
  cases hsa : stakeOf m a with
  | none => rfl
  | some stakeA =>
    have hsb : stakeOf m b = none := h.resolve_left (by simp [hsa])
    rw [hsb, Fallible.exec_bind_ok (a := stakeA) (by simp)]
    rfl

end Pair

/-! ## Groups -/

section Group

variable {m : Overflow}

/-- While the stakes add up, resolving a group is the knockout tournament of `Beats`. -/
theorem exec_resolveGroup {first : BlockCandidate} {rest : List BlockCandidate}
    (heligible : ∀ c ∈ first :: rest, isEligibleForOrv c.block = true)
    (hstake : ∀ c ∈ first :: rest, (stakeOf m c).isSome)
    (hhash : ((first :: rest).map fun c ↦ c.block.hash).Nodup) :
    (resolveGroup m first rest).exec = some (.ok (knockout (Beats m) first rest)) := by
  induction rest generalizing first with
  | nil => rfl
  | cons next rest ih =>
    have hnext : next ∈ first :: next :: rest := List.mem_cons_of_mem _ List.mem_cons_self
    obtain ⟨reason, hpair⟩ := exec_resolveConflictOrv
      (heligible first List.mem_cons_self) (heligible next hnext)
      (hstake first List.mem_cons_self) (hstake next hnext)
    have hne : next.block ≠ first.block := by
      intro heq
      have hfirst := (List.nodup_cons.mp hhash).1
      rw [List.map_cons, heq] at hfirst
      exact hfirst List.mem_cons_self
    have hstep : (if (if Beats m first next then first.block else next.block) = first.block then
        first else next) = play (Beats m) first next := by
      rw [play]
      by_cases hbeats : Beats m first next
      · rw [if_pos hbeats, if_pos hbeats, if_pos rfl]
      · rw [if_neg hbeats, if_neg hbeats, if_neg hne]
    -- the winner and the rest are a sublist of what was there
    have hsub : (play (Beats m) first next :: rest).Sublist (first :: next :: rest) := by
      rcases play_eq_or (Beats m) first next with hplay | hplay <;> rw [hplay]
      · exact (List.sublist_cons_self next rest).cons_cons first
      · exact List.sublist_cons_self first (next :: rest)
    rw [resolveGroup, List.foldlM_cons, Fallible.exec_bind_ok (a := play (Beats m) first next),
      ← resolveGroup, ih (fun c hc ↦ heligible c (hsub.subset hc))
        (fun c hc ↦ hstake c (hsub.subset hc)) ((hsub.map _).nodup hhash), knockout, knockout,
      List.foldl_cons]
    rw [Fallible.exec_bind_ok hpair, ← hstep]
    rfl

/-- A candidate whose stake does not add up makes every order panic. -/
theorem exec_resolveGroup_eq_none {first : BlockCandidate} {rest : List BlockCandidate}
    (heligible : ∀ c ∈ first :: rest, isEligibleForOrv c.block = true) (hrest : rest ≠ [])
    (hbad : ∃ c ∈ first :: rest, stakeOf m c = none) :
    (resolveGroup m first rest).exec = none := by
  induction rest generalizing first with
  | nil => exact absurd rfl hrest
  | cons next rest ih =>
    have hfirst := heligible first List.mem_cons_self
    have hnext := heligible next (List.mem_cons_of_mem _ List.mem_cons_self)
    rw [resolveGroup, List.foldlM_cons, Fallible.exec_bind, Fallible.exec_bind]
    by_cases hpair : stakeOf m first = none ∨ stakeOf m next = none
    · rw [exec_resolveConflictOrv_eq_none hfirst hnext hpair]
      rfl
    · rw [not_or] at hpair
      obtain ⟨reason, hexec⟩ := exec_resolveConflictOrv hfirst hnext
        (Option.isSome_iff_ne_none.mpr hpair.1) (Option.isSome_iff_ne_none.mpr hpair.2)
      -- both of the pair add up, so the culprit is still to come
      obtain ⟨c, hc, hnone⟩ := hbad
      have hc : c ∈ rest := by
        rcases List.mem_cons.mp hc with rfl | hc
        · exact absurd hnone hpair.1
        rcases List.mem_cons.mp hc with rfl | hc
        · exact absurd hnone hpair.2
        · exact hc
      rw [hexec]
      simp only [Option.bind_some, Fallible.exec_pure]
      rw [← resolveGroup]
      refine ih (fun c' hc' ↦ ?_) (List.ne_nil_of_mem hc) ⟨c, List.mem_cons_of_mem _ hc, hnone⟩
      rcases List.mem_cons.mp hc' with rfl | hc'
      · split_ifs <;> assumption
      · exact heligible c' (List.mem_cons_of_mem _ (List.mem_cons_of_mem _ hc'))

/-- `a` wins its comparison with `b`. -/
def Outranks (m : Overflow) (a b : BlockCandidate) : Prop :=
  ∃ reason, (resolveConflictOrv m a.block b.block a.votes b.votes).exec =
    some (.ok (a.block, reason))

theorem outranks_iff {a b : BlockCandidate} (ha : isEligibleForOrv a.block = true)
    (hb : isEligibleForOrv b.block = true) (hne : a.block.hash ≠ b.block.hash) :
    Outranks m a b ↔ (stakeOf m a).isSome ∧ (stakeOf m b).isSome ∧ Beats m a b := by
  rw [Outranks]
  by_cases hpair : stakeOf m a = none ∨ stakeOf m b = none
  · -- a sum that overflows ends the call
    rw [exec_resolveConflictOrv_eq_none ha hb hpair]
    refine iff_of_false (by simp) fun ⟨hsa, hsb, _⟩ ↦ ?_
    rcases hpair with hnone | hnone
    · simp [hnone] at hsa
    · simp [hnone] at hsb
  · rw [not_or] at hpair
    have hsa := Option.isSome_iff_ne_none.mpr hpair.1
    have hsb := Option.isSome_iff_ne_none.mpr hpair.2
    obtain ⟨reason, hexec⟩ := exec_resolveConflictOrv ha hb hsa hsb
    rw [hexec]
    simp only [Option.some_inj, Except.ok.injEq, Prod.mk.injEq, hsa, hsb, true_and]
    constructor
    · rintro ⟨_, hwin, -⟩
      by_contra hnot
      rw [if_neg hnot] at hwin
      exact hne (congrArg Block.hash hwin.symm)
    · intro hbeats
      exact ⟨reason, if_pos hbeats, rfl⟩

/-- **Order independence.** Every order of a group has the same winner exactly when one candidate
wins its comparison with each of the others. -/
theorem resolveGroup_order_independent_iff {l : List BlockCandidate} (hlen : 2 ≤ l.length)
    (heligible : ∀ c ∈ l, isEligibleForOrv c.block = true)
    (hhash : (l.map fun c ↦ c.block.hash).Nodup) :
    (∃ w, ∀ first rest, (first :: rest).Perm l →
      (resolveGroup m first rest).exec = some (.ok w)) ↔
      ∃ c ∈ l, ∀ x ∈ l, x ≠ c → Outranks m c x := by
  have hnodup : l.Nodup := hhash.of_map _
  have hne : ∀ a ∈ l, ∀ b ∈ l, a ≠ b → a.block.hash ≠ b.block.hash := fun a ha b hb hab heq ↦
    hab (List.inj_on_of_nodup_map hhash ha hb heq)
  obtain ⟨a, b, tl, rfl⟩ : ∃ a b tl, l = a :: b :: tl := by
    match l, hlen with
    | a :: b :: tl, _ => exact ⟨a, b, tl, rfl⟩
  by_cases hstake : ∀ c ∈ a :: b :: tl, (stakeOf m c).isSome
  · -- every comparison returns: this is the tournament of `Beats`
    have hasymm : ∀ x ∈ a :: b :: tl, ∀ y ∈ a :: b :: tl, x ≠ y → (Beats m x y ↔ ¬ Beats m y x) :=
      fun x hx y hy hxy ↦ beats_iff_not (hne x hx y hy hxy)
    have hfold : ∀ first rest, (first :: rest).Perm (a :: b :: tl) →
        (resolveGroup m first rest).exec = some (.ok (knockout (Beats m) first rest)) := by
      intro first rest hperm
      exact exec_resolveGroup (fun c hc ↦ heligible c (hperm.subset hc))
        (fun c hc ↦ hstake c (hperm.subset hc)) ((hperm.map _).nodup_iff.mpr hhash)
    have hleft : (∃ w, ∀ first rest, (first :: rest).Perm (a :: b :: tl) →
        (resolveGroup m first rest).exec = some (.ok w)) ↔
        ∃ w, ∀ first rest, (first :: rest).Perm (a :: b :: tl) →
          knockout (Beats m) first rest = w := by
      refine exists_congr fun w ↦ forall_congr' fun first ↦ forall_congr' fun rest ↦
        forall_congr' fun hperm ↦ ?_
      rw [hfold first rest hperm, Option.some_inj, Except.ok.injEq]
    rw [hleft, knockout_order_independent_iff (List.cons_ne_nil _ _) hnodup hasymm]
    refine exists_congr fun c ↦ and_congr_right fun hc ↦ forall_congr' fun x ↦
      forall_congr' fun hx ↦ forall_congr' fun hxc ↦ ?_
    rw [outranks_iff (heligible c hc) (heligible x hx) (hne c hc x hx (Ne.symm hxc))]
    simp only [hstake c hc, hstake x hx, true_and]
  · -- some stake does not add up: no order has a winner, and no candidate beats that one
    push Not at hstake
    obtain ⟨bad, hbad, hnone⟩ := hstake
    have hnone : stakeOf m bad = none := Option.not_isSome_iff_eq_none.mp hnone
    refine iff_of_false ?_ ?_
    · rintro ⟨w, hw⟩
      have hpanic := exec_resolveGroup_eq_none heligible (List.cons_ne_nil b tl) ⟨bad, hbad, hnone⟩
      rw [hw a (b :: tl) (List.Perm.refl _)] at hpanic
      simp at hpanic
    · rintro ⟨c, hc, hwins⟩
      -- `bad` takes part in some comparison with `c`
      have hother : ∃ x ∈ a :: b :: tl, x ≠ c := by
        by_contra hall
        push Not at hall
        have hab : a = b := (hall a List.mem_cons_self).trans
          (hall b (List.mem_cons_of_mem _ List.mem_cons_self)).symm
        exact (List.nodup_cons.mp hnodup).1 (hab ▸ List.mem_cons_self)
      by_cases hbc : bad = c
      · obtain ⟨x, hx, hxc⟩ := hother
        have hout := (outranks_iff (heligible c hc) (heligible x hx)
          (hne c hc x hx (Ne.symm hxc))).mp (hwins x hx hxc)
        rw [← hbc, hnone] at hout
        simp at hout
      · have hout := (outranks_iff (heligible c hc) (heligible bad hbad)
          (hne c hc bad hbad (Ne.symm hbc))).mp (hwins bad hbad hbc)
        rw [hnone] at hout
        simp at hout

end Group

/-! ## Three candidates in a circle -/

/-- A Send with this hash and one vote of this stake. -/
def candidate (hash : String) (stake : UInt64) : BlockCandidate where
  block :=
    { account := "", previous := "", blockType := .send "" 1, balance := 0, nonce := 2
      timestamp := 0, hash, signature := [] }
  votes := [⟨Vector.replicate 32 0, Vector.replicate 32 0, stake, 1, Vector.replicate 64 0⟩]

theorem resolveGroup_order_independent_pair :
    (∃ w, ∀ first rest, (first :: rest).Perm [candidate "01" 100, candidate "02" 200] →
      (resolveGroup .panics first rest).exec = some (.ok w)) ↔
      ∃ c ∈ [candidate "01" 100, candidate "02" 200],
        ∀ x ∈ [candidate "01" 100, candidate "02" 200], x ≠ c → Outranks .panics c x :=
  resolveGroup_order_independent_iff (by decide) (by decide) (by decide)

/-- The first beats the second and the second the third on the hash, and the third beats the first
on stake. -/
theorem not_resolveGroup_order_independent :
    ¬ ∀ l : List BlockCandidate, 2 ≤ l.length →
      (∀ c ∈ l, isEligibleForOrv c.block = true) → (l.map fun c ↦ c.block.hash).Nodup →
      ∃ w, ∀ first rest, (first :: rest).Perm l →
        (resolveGroup .panics first rest).exec = some (.ok w) := by
  intro h
  let a := candidate "01" 100
  let b := candidate "02" 106
  let c := candidate "03" 112
  obtain ⟨w, hw⟩ := h [a, b, c] (by decide) (by decide) (by decide)
  have habc : (resolveGroup .panics a [b, c]).exec = some (.ok c) := by decide +kernel
  have hbca : (resolveGroup .panics b [c, a]).exec = some (.ok a) := by decide +kernel
  have hc := (hw a [b, c] (List.Perm.refl _)).symm.trans habc
  have ha := (hw b [c, a] (List.perm_append_singleton a [b, c])).symm.trans hbca
  have hca : c = a := by
    simpa using hc.symm.trans ha
  exact absurd hca (by decide)

end Arxia
