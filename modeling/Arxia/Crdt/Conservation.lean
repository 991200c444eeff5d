import Arxia.Crdt.Refinement
import Arxia.Lattice.Reference
import Mathlib.Algebra.BigOperators.Ring.Finset

/-!
# Conservation in a reconciliation

Summed over all accounts, what a settlement credits is what the Opens issue plus the amount of every
Send as often as a Receive credits it. When no Send is credited twice, that is the issued amount
less the Sends still in flight, up to what the saturating counters drop.

The code looks a Receive's source up and never marks it as used. Two Receives of one account that
cite the same Send are both credited, so the sum of the balances can exceed everything ever issued.
`conserves_iff` says that this and saturation are the only ways for conservation to fail.
-/

namespace Arxia

open Rust

namespace Settlement

open Entry Reconciliation

variable (W : Finset Entry)

/-- The initial balances of the winning Opens at nonce 1. -/
def genesis : ℕ := ∑ e ∈ W, e.issued

/-- The winning Receives that credit a Send. -/
def creditors (s : Entry) : Finset Entry := W.filter fun r ↦ Credits r s

/-- The amounts of the winning Sends that no Receive credits. -/
def uncredited : ℕ := ∑ s ∈ W with creditors W s = ∅, s.sent

/-- No two winning Receives credit the same Send. -/
def DistinctSources : Prop := ∀ s ∈ W, ∀ r ∈ W, ∀ r' ∈ W, Credits r s → Credits r' s → r = r'

instance : DecidablePred DistinctSources := fun W ↦
  inferInstanceAs (Decidable (∀ s ∈ W, ∀ r ∈ W, ∀ r' ∈ W, Credits r s → Credits r' s → r = r'))

/-! ## Summing over the accounts -/

variable {W}

/-- An amount that only touching entries have, collected account by account. -/
theorem sum_accounts {g : Entry → ℕ} (hg : ∀ e, ¬ Touches W e → g e = 0) :
    ∑ a ∈ accounts W, ∑ e ∈ W with e.account = a, g e = ∑ e ∈ W, g e := by
  have htouch : ∀ e, g e ≠ 0 → Touches W e := fun e hne ↦ by
    by_contra hnot
    exact hne (hg e hnot)
  calc ∑ a ∈ accounts W, ∑ e ∈ W with e.account = a, g e
      = ∑ a ∈ accounts W, ∑ e ∈ W.filter (Touches W) with e.account = a, g e := by
        refine Finset.sum_congr rfl fun a _ ↦ ?_
        rw [Finset.filter_comm]
        exact (Finset.sum_filter_of_ne fun e _ ↦ htouch e).symm
    _ = ∑ e ∈ W with Touches W e, g e :=
        Finset.sum_fiberwise_of_maps_to (fun e he ↦ Finset.mem_image_of_mem _ he) g
    _ = ∑ e ∈ W, g e := Finset.sum_filter_of_ne fun e _ ↦ htouch e

theorem sum_debits : ∑ a ∈ accounts W, debits W a = ∑ e ∈ W, e.sent :=
  sum_accounts fun _ h ↦ (credit_sent_of_not_touches h).2

theorem sum_credits : ∑ a ∈ accounts W, credits W a = genesis W + ∑ e ∈ W, received W e := by
  have hsum : ∑ a ∈ accounts W, credits W a = ∑ e ∈ W, credit W e :=
    sum_accounts fun _ h ↦ (credit_sent_of_not_touches h).1
  rw [hsum, genesis, ← Finset.sum_add_distrib]
  rfl

/-- **Every Send counts once for each Receive that credits it.** -/
theorem sum_received : ∑ e ∈ W, received W e = ∑ s ∈ W, (creditors W s).card * s.sent := by
  simp only [received, Finset.sum_filter]
  rw [Finset.sum_comm]
  refine Finset.sum_congr rfl fun s _ ↦ ?_
  rw [← Finset.sum_filter, Finset.sum_const, Nat.nsmul_eq_mul, creditors]

theorem card_creditors_le_one (h : DistinctSources W) {s : Entry} (hs : s ∈ W) :
    (creditors W s).card ≤ 1 := by
  refine Finset.card_le_one.mpr fun r hr r' hr' ↦ ?_
  obtain ⟨hr, hc⟩ := Finset.mem_filter.mp hr
  obtain ⟨hr', hc'⟩ := Finset.mem_filter.mp hr'
  exact h s hs r hr r' hr' hc hc'

theorem distinctSources_of_card
    (h : ∀ s ∈ W, s.blockType.isSend = true → (creditors W s).card ≤ 1) : DistinctSources W := by
  intro s hs r hr r' hr' hc hc'
  exact Finset.card_le_one.mp (h s hs hc.isSend) r (Finset.mem_filter.mpr ⟨hr, hc⟩) r'
    (Finset.mem_filter.mpr ⟨hr', hc'⟩)

/-- When no Send is credited twice, each is either credited or in flight. -/
theorem sum_received_add_uncredited (h : DistinctSources W) :
    ∑ e ∈ W, received W e + uncredited W = ∑ e ∈ W, e.sent := by
  rw [sum_received, uncredited, Finset.sum_filter, ← Finset.sum_add_distrib]
  refine Finset.sum_congr rfl fun s hs ↦ ?_
  by_cases hempty : creditors W s = ∅
  · rw [if_pos hempty, hempty, Finset.card_empty, Nat.zero_mul, Nat.zero_add]
  · have hcard : (creditors W s).card = 1 :=
      le_antisymm (card_creditors_le_one h hs)
        (Finset.card_pos.mpr (Finset.nonempty_iff_ne_empty.mpr hempty))
    rw [if_neg hempty, hcard, Nat.one_mul, Nat.add_zero]

/-! ## Saturation -/

variable (W)

/-- The credits of an account beyond `u64::MAX`. -/
def lostCredits (a : String) : ℕ := credits W a - u64Max

/-- The debits of an account beyond `u64::MAX`. -/
def lostDebits (a : String) : ℕ := debits W a - u64Max

/-- The part of the difference of the two totals beyond `i64::MAX`. -/
def capped (a : String) : ℕ :=
  min (credits W a) u64Max - min (debits W a) u64Max - i64Max.toNat

/-- Over all accounts, the counters drop as much from the credits as from the debits. -/
def SaturationCancels : Prop :=
  ∑ a ∈ accounts W, (lostCredits W a + capped W a) = ∑ a ∈ accounts W, lostDebits W a

instance : DecidablePred SaturationCancels := fun _ ↦ inferInstanceAs (Decidable (_ = _))

variable {W}

/-- Totals within range lose nothing. -/
theorem saturationCancels_of_le (h : ∀ a ∈ accounts W, credits W a ≤ u64Max ∧
    debits W a ≤ u64Max ∧ credits W a - debits W a ≤ i64Max.toNat) : SaturationCancels W := by
  rw [SaturationCancels]
  refine Finset.sum_congr rfl fun a ha ↦ ?_
  obtain ⟨hc, hd, hdiff⟩ := h a ha
  rw [lostCredits, lostDebits, capped, min_eq_left hc, min_eq_left hd]
  omega

/-- A balance that is not negative is the exact one, up to what the counters dropped. -/
theorem balance_add_lost {a : String} (h : 0 ≤ balance W a) :
    balance W a + (lostCredits W a + capped W a : ℕ) + debits W a =
      credits W a + (lostDebits W a : ℕ) := by
  have hmin : i64Min < 0 := by decide
  have hmax : 0 ≤ i64Max := by decide
  rw [balance, clampI64] at h ⊢
  rw [lostCredits, lostDebits, capped]
  omega

theorem sum_balance (hsolvent : Solvent W) :
    ∑ a ∈ accounts W, balance W a + (∑ a ∈ accounts W, (lostCredits W a + capped W a) : ℕ) +
        (∑ e ∈ W, e.sent : ℕ) =
      (genesis W + ∑ e ∈ W, received W e : ℕ) + (∑ a ∈ accounts W, lostDebits W a : ℕ) := by
  rw [← sum_debits, ← sum_credits]
  push_cast
  rw [← Finset.sum_add_distrib, ← Finset.sum_add_distrib, ← Finset.sum_add_distrib]
  refine Finset.sum_congr rfl fun a ha ↦ ?_
  have hlost := balance_add_lost (hsolvent a ha)
  push_cast at hlost
  exact hlost

/-! ## The report -/

/-- The sum of the balances of a report. -/
def balanceSum (report : ReconciliationReport) : ℤ :=
  (report.balances.entries.map fun e ↦ e.2).sum

theorem balanceSum_eq {E : Finset Entry} {report : ReconciliationReport} (h : Settles E report) :
    balanceSum report = ∑ a ∈ accounts (winners E), balance (winners E) a := by
  have hvalue : ∀ e ∈ report.balances.entries,
      e.1 ∈ accounts (winners E) ∧ e.2 = balance (winners E) e.1 := fun e he ↦ by
    have hlookup := AList.mem_lookup_iff.mpr he
    rw [Option.mem_def, h.balances] at hlookup
    split at hlookup
    · rename_i ha
      exact ⟨ha, (Option.some_inj.mp hlookup).symm⟩
    · simp at hlookup
  have hkeys : report.balances.entries.keys.toFinset = accounts (winners E) := by
    ext a
    rw [List.mem_toFinset, List.keys, List.mem_map]
    constructor
    · rintro ⟨e, he, rfl⟩
      exact (hvalue e he).1
    · intro ha
      have hlookup := h.balances a
      rw [if_pos ha] at hlookup
      exact ⟨_, AList.mem_lookup_iff.mp hlookup, rfl⟩
  rw [← hkeys, List.sum_toFinset _ report.balances.nodupKeys, List.keys, List.map_map,
    balanceSum]
  exact congrArg List.sum (List.map_congr_left fun e he ↦ (hvalue e he).2)

/-- The winning Receives citing a Send that the report does not reject: the code credits these. -/
def creditedBy (W : Finset Entry) (report : ReconciliationReport) (s : Entry) : Finset Entry :=
  W.filter fun r ↦ r.blockType = .receive s.hash ∧
    ∀ x ∈ report.rejectedReceives, x.receiveHash ≠ r.hash

/-- The amounts of the winning Sends that the report credits to nobody. -/
def notCredited (W : Finset Entry) (report : ReconciliationReport) : ℕ :=
  ∑ s ∈ W with creditedBy W report s = ∅, s.sent

/-- Nothing is created by reconciling: the balances are what was issued less what is in flight. -/
structure Conserves (W : Finset Entry) (report : ReconciliationReport) : Prop where
  /-- The balances and the Sends nobody received add up to the genesis supply. -/
  total : balanceSum report = genesis W - notCredited W report
  /-- Each winning Send is credited at most once, however many Receives cite its hash. -/
  once : ∀ s ∈ W, s.blockType.isSend = true → (creditedBy W report s).card ≤ 1
  /-- The balances do not exceed the genesis supply. -/
  bounded : balanceSum report ≤ genesis W

section Credited

variable {E : Finset Entry} {report : ReconciliationReport}

theorem receiveHash_of_rejectReceive {W : Finset Entry} {e : Entry} {x : RejectedReceive}
    (h : rejectReceive W e = some x) : x.receiveHash = e.hash := by
  rw [rejectReceive] at h
  split at h
  · split at h
    · cases h
    · rw [← Option.some_inj.mp h]
  · cases h

/-- **A Receive is rejected** unless it credits a winning Send. -/
theorem forall_receiveHash_ne_iff (hinj : Set.InjOn Entry.hash E) (h : Settles E report) {r : Entry}
    (hr : r ∈ winners E) {x : String} (htype : r.blockType = .receive x) :
    (∀ y ∈ report.rejectedReceives, y.receiveHash ≠ r.hash) ↔ ∃ s ∈ winners E, Credits r s := by
  constructor
  · intro hnone
    by_contra hcredits
    have hreject : rejectReceive (winners E) r =
        some ⟨r.account, r.nonce, r.hash, x, rejectReason (winners E) x⟩ := by
      rw [rejectReceive, htype]
      exact if_neg hcredits
    exact hnone _ ((h.rejectedReceives _).mpr ⟨r, hr, hreject⟩) rfl
  · rintro hcredits y hy hhash
    obtain ⟨w, hw, hreject⟩ := (h.rejectedReceives y).mp hy
    -- the rejection carries the hash of `w`, so it is about `r` itself
    have hwr : w = r := by
      refine hinj (winners_subset E hw) (winners_subset E hr) ?_
      rw [← hhash, receiveHash_of_rejectReceive hreject]
    rw [hwr, rejectReceive, htype] at hreject
    simp [hcredits] at hreject

/-- What the report credits is what the winners do. -/
theorem creditedBy_eq (hinj : Set.InjOn Entry.hash E) (h : Settles E report) {s : Entry}
    (hs : s ∈ winners E) : creditedBy (winners E) report s = creditors (winners E) s := by
  ext r
  rw [creditedBy, creditors, Finset.mem_filter, Finset.mem_filter]
  refine and_congr_right fun hr ↦ ⟨fun ⟨htype, hkept⟩ ↦ ?_, fun hc ↦ ⟨hc.1, ?_⟩⟩
  · obtain ⟨s', hs', hc⟩ := (forall_receiveHash_ne_iff hinj h hr htype).mp hkept
    have hhash : s'.hash = s.hash := BlockType.receive.inj (hc.1.symm.trans htype)
    rwa [hinj (winners_subset E hs') (winners_subset E hs) hhash] at hc
  · exact (forall_receiveHash_ne_iff hinj h hr hc.1).mpr ⟨s, hs, hc⟩

theorem notCredited_eq (hinj : Set.InjOn Entry.hash E) (h : Settles E report) :
    notCredited (winners E) report = uncredited (winners E) := by
  rw [notCredited, uncredited]
  refine Finset.sum_congr (Finset.filter_congr fun s hs ↦ ?_) fun _ _ ↦ rfl
  rw [creditedBy_eq hinj h hs]

end Credited

theorem exists_report {o : Option (Except ArxiaError ReconciliationReport)} {v : ℤ}
    (h : (o.bind fun r ↦ r.toOption.map balanceSum) = some v) :
    ∃ report, o = some (.ok report) ∧ balanceSum report = v := by
  obtain ⟨r, rfl, hr⟩ := Option.bind_eq_some_iff.mp h
  obtain ⟨report, hreport, hsum⟩ := Option.map_eq_some_iff.mp hr
  cases r with
  | ok report' =>
    obtain rfl := Option.some_inj.mp hreport
    exact ⟨_, rfl, hsum⟩
  | error e => cases hreport

/-- **Conservation.** A reported settlement is conserving exactly when no Send is credited twice and
saturation cancels out. -/
theorem conserves_iff {σ : Orders} {partitionA partitionB : List Block}
    {report : ReconciliationReport}
    (h : (reconcilePartitions σ partitionA partitionB).exec = some (.ok report)) :
    Conserves (winners (entries (partitionA ++ partitionB))) report ↔
      DistinctSources (winners (entries (partitionA ++ partitionB))) ∧
        SaturationCancels (winners (entries (partitionA ++ partitionB))) := by
  have houtcome := outcome_reconcilePartitions σ partitionA partitionB
  rw [h] at houtcome
  cases houtcome with
  | settled _ hsolvent _ hsettles =>
    have hbalance := balanceSum_eq hsettles
    have hsum := sum_balance hsolvent
    rw [← hbalance] at hsum
    have hinj := injOn_hash_entries (partitionA ++ partitionB)
    have hflight := notCredited_eq hinj hsettles
    have hcredited := fun s ↦ creditedBy_eq hinj hsettles (s := s)
    set W := winners (entries (partitionA ++ partitionB))
    -- what is received in all is what is sent less what is not credited, each source being one
    constructor
    · intro hconserves
      have hdistinct : DistinctSources W := distinctSources_of_card fun s hs hsend ↦
        hcredited s hs ▸ hconserves.once s hs hsend
      refine ⟨hdistinct, ?_⟩
      have hin := sum_received_add_uncredited hdistinct
      have htotal := hconserves.total
      rw [hflight] at htotal
      rw [SaturationCancels]
      omega
    · rintro ⟨hdistinct, hcancels⟩
      have hin := sum_received_add_uncredited hdistinct
      rw [SaturationCancels] at hcancels
      have htotal : balanceSum report = genesis W - notCredited W report := by omega
      refine ⟨htotal, fun s hs _ ↦ ?_, by omega⟩
      rw [hcredited s hs]
      exact card_creditors_le_one hdistinct hs

/-- Two partitions that between them hold a transfer conserve it. -/
theorem conserves_transfer :
    ∃ report, (reconcilePartitions Orders.asListed [Reference.openAlice, Reference.sendToBob]
        [Reference.openBob, Reference.receiveFromAlice]).exec = some (.ok report) ∧
      Conserves (winners (entries ([Reference.openAlice, Reference.sendToBob] ++
        [Reference.openBob, Reference.receiveFromAlice]))) report := by
  have hsum : ((reconcilePartitions Orders.asListed [Reference.openAlice, Reference.sendToBob]
      [Reference.openBob, Reference.receiveFromAlice]).exec.bind
        fun r ↦ r.toOption.map balanceSum) = some 100 := by decide +kernel
  obtain ⟨report, hreport, -⟩ := exists_report hsum
  refine ⟨report, hreport, (conserves_iff hreport).mpr ?_⟩
  rw [winners_eq_self (by decide +kernel)]
  decide +kernel

/-- The transfer, received a second time at the next nonce. -/
def receiveAgain : Block :=
  Reference.sealBlock Reference.bob Reference.receiveFromAlice.hash
    (.receive Reference.sendToBob.hash) 80 3 5

/-- Alice spends 40 of her 100 once, and Bob is credited 80. -/
theorem not_conserves :
    ¬ ∀ (σ : Orders) (partitionA partitionB : List Block) (report : ReconciliationReport),
      (∀ b ∈ partitionA ++ partitionB, Verified Reference.crates b) →
      (reconcilePartitions σ partitionA partitionB).exec = some (.ok report) →
      Conserves (winners (entries (partitionA ++ partitionB))) report := by
  intro h
  have hrun : ((reconcilePartitions Orders.asListed Reference.transfer [receiveAgain]).exec.bind
        fun r ↦ r.toOption.map balanceSum) = some 140 ∧
      genesis (entries (Reference.transfer ++ [receiveAgain])) = 100 := by
    decide +kernel
  obtain ⟨report, hreport, hsum⟩ := exists_report hrun.1
  have hverified : ∀ b ∈ Reference.transfer ++ [receiveAgain], Verified Reference.crates b := by
    intro b hb
    rcases List.mem_append.mp hb with hb | hb
    · exact Reference.verified_transfer b hb
    · rw [List.mem_singleton.mp hb]
      exact Reference.verified_sealBlock Reference.decode_bob
  have hbounded := (h _ _ _ report hverified hreport).bounded
  rw [hsum, winners_eq_self (by decide +kernel), hrun.2] at hbounded
  omega

end Settlement

end Arxia
