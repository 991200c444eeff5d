import Arxia.Relay.Credits
import Arxia.Rust.Removals
import Mathlib.Algebra.Order.Field.Rat
import Mathlib.Data.Bool.Count
import Mathlib.Tactic.NormNum

/-!
# Targets

A relay that drops the messages of one target can keep a high score, so the successes and failures
are also counted for each target, and `flag_per_target_anomalies` reports the targets with a low
rate of success. The counts of a target are what the calls for it have come to, whatever other calls
there were; a success is counted exactly, a failure up to `u64::MAX`.

The rate is a quotient of floats. It stands here for any function of the two numbers, with values
that can be compared.
-/

namespace Arxia

open Rust Transition

namespace RelayScore

/-- A caller-supplied identifier of what is relayed. -/
abbrev Target := Vector UInt8 32

section Queries

variable {F : Type}

/-- Per-target event counts and success rate, where `rate` divides one number by the other. -/
def perTargetSuccessRate (rate : UInt64 → UInt64 → F) (target : Target) (s : RelayScore) :
    Option (UInt64 × UInt64 × F) := do
  let counts ← s.perTargetCounts.lookup target
  let total := counts.1.saturatingAdd counts.2
  if total = 0 then none else some (counts.1, counts.2, rate counts.1 total)

/-- Number of distinct targets currently tracked. -/
def perTargetCount (s : RelayScore) : ℕ := s.perTargetCounts.size

/-- The targets with at least `minSample` events and a success rate of at most `threshold`. -/
def flagPerTargetAnomalies [LE F] [DecidableLE F] (o : IterOrder Target (UInt64 × UInt64))
    (rate : UInt64 → UInt64 → F) (minSample : UInt64) (threshold : F) (s : RelayScore) :
    List Target :=
  (o.arrange s.perTargetCounts.entries).filterMap fun e ↦
    let total := e.2.1.saturatingAdd e.2.2
    if total < minSample then none
    else if rate e.2.1 total ≤ threshold then some e.1 else none

end Queries

section Flags

variable {F : Type} [LE F] [DecidableLE F]

/-- A flagged target has an entry that meets both conditions. -/
theorem mem_flagPerTargetAnomalies {o : IterOrder Target (UInt64 × UInt64)}
    {rate : UInt64 → UInt64 → F} {minSample : UInt64} {threshold : F} {s : RelayScore}
    {target : Target} : target ∈ s.flagPerTargetAnomalies o rate minSample threshold ↔
      ∃ counts, s.perTargetCounts.lookup target = some counts ∧
        minSample ≤ counts.1.saturatingAdd counts.2 ∧
        rate counts.1 (counts.1.saturatingAdd counts.2) ≤ threshold := by
  rw [flagPerTargetAnomalies, List.mem_filterMap]
  constructor
  · rintro ⟨⟨target', counts⟩, hmem, hflag⟩
    dsimp only at hflag
    split at hflag
    · cases hflag
    split at hflag
    · rename_i hsample hrate
      obtain rfl := Option.some_inj.mp hflag
      exact ⟨counts, AList.mem_lookup_iff.mpr ((o.arrange_perm _).mem_iff.mp hmem),
        UInt64.not_lt.mp hsample, hrate⟩
    · cases hflag
  · rintro ⟨counts, hcounts, hsample, hrate⟩
    refine ⟨⟨target, counts⟩, (o.arrange_perm _).mem_iff.mpr (AList.mem_lookup_iff.mp hcounts), ?_⟩
    dsimp only
    rw [if_neg (UInt64.not_lt.mpr hsample), if_pos hrate]

theorem nodup_flagPerTargetAnomalies (o : IterOrder Target (UInt64 × UInt64))
    (rate : UInt64 → UInt64 → F) (minSample : UInt64) (threshold : F) (s : RelayScore) :
    (s.flagPerTargetAnomalies o rate minSample threshold).Nodup := by
  have hkeys : ((o.arrange s.perTargetCounts.entries).map Sigma.fst).Nodup :=
    ((o.arrange_perm _).map _).nodup_iff.mpr s.perTargetCounts.keys_nodup
  refine List.Nodup.sublist ?_ hkeys
  rw [flagPerTargetAnomalies]
  induction o.arrange s.perTargetCounts.entries with
  | nil => exact List.Sublist.refl _
  | cons e l ih =>
    rw [List.filterMap_cons, List.map_cons]
    dsimp only
    split
    · rename_i hskip
      exact ih.cons _
    · rename_i target hflag
      split at hflag
      · cases hflag
      split at hflag
      · obtain rfl := Option.some_inj.mp hflag
        exact ih.cons_cons _
      · cases hflag

end Flags

/-! ## One call -/

/-- The event that a call is counted for at the target: a success or a failure. -/
def Handled.outcome (target : Target) (a : Handled) : Option Bool :=
  match a.request, a.result with
  | .recordSuccessForTarget _ target', .ok _ => if target' = target then some true else none
  | .recordFailureForTarget target', .ok _ => if target' = target then some false else none
  | _, _ => none

/-- The events of the target. -/
def outcomes (target : Target) (tr : List Handled) : List Bool :=
  tr.filterMap (Handled.outcome target)

/-- One event more. -/
def counted (success : Bool) (counts : UInt64 × UInt64) : UInt64 × UInt64 :=
  if success then (counts.1.saturatingAdd 1, counts.2) else (counts.1, counts.2.saturatingAdd 1)

variable {m : Overflow} {K : Crypto} {relayId : String} {s s' : RelayScore} {tr : List Handled}
  {target : Target} {ε : Type}

theorem lookup_countTarget (target' : Target) (f : UInt64 × UInt64 → UInt64 × UInt64)
    (s : RelayScore) : (countTarget target' f s).perTargetCounts.lookup target =
      if target' = target then some (f ((s.perTargetCounts.lookup target).getD (0, 0)))
      else s.perTargetCounts.lookup target := by
  rw [countTarget]
  dsimp only
  rw [HashMap.lookup_orInsert_self, Option.getD_some, HashMap.insert_orInsert]
  split
  · rename_i heq
    rw [heq, AList.lookup_insert]
  · rename_i hne
    rw [AList.lookup_insert_ne (Ne.symm hne)]

theorem perTargetCounts_recordSuccess {receipt : RelayReceipt}
    {result : Except RelayReceiptError Unit}
    (hexec : (recordSuccess m K receipt).exec s = some (result, s')) :
    s'.perTargetCounts = s.perTargetCounts := by
  rw [recordSuccess, Call.exec_bind_ok (Call.exec_get s)] at hexec
  rcases Call.exec_check_cases hexec with ⟨-, rfl⟩ | ⟨hash, -, hexec⟩
  · rfl
  obtain ⟨⟨fresh, credited⟩, -, hexec⟩ := Call.exec_orPanic_bind_eq_some.mp hexec
  rcases Call.exec_check_cases hexec with ⟨-, rfl⟩ | ⟨_, -, hexec⟩
  · rfl
  obtain ⟨relayed, -, hexec⟩ := Call.exec_orPanic_bind_eq_some.mp hexec
  obtain ⟨score, -, hexec⟩ := Call.exec_orPanic_bind_eq_some.mp hexec
  obtain ⟨-, rfl⟩ := Call.exec_set_eq_some.mp hexec
  rfl

theorem perTargetCounts_recordFailure {result : Except ε Unit}
    (hexec : (recordFailure m : Call RelayScore ε Unit).exec s = some (result, s')) :
    s'.perTargetCounts = s.perTargetCounts := by
  rw [recordFailure, Call.exec_bind_ok (Call.exec_get s)] at hexec
  obtain ⟨failed, -, hexec⟩ := Call.exec_orPanic_bind_eq_some.mp hexec
  obtain ⟨score, -, hexec⟩ := Call.exec_orPanic_bind_eq_some.mp hexec
  obtain ⟨-, rfl⟩ := Call.exec_set_eq_some.mp hexec
  rfl

/-- An update that follows a call which leaves the counts alone. -/
theorem perTargetCounts_modify {x : Call RelayScore ε Unit} {f : RelayScore → RelayScore}
    {result : Except ε Unit} (hframe : ∀ r s₁, x.exec s = some (r, s₁) →
      s₁.perTargetCounts = s.perTargetCounts)
    (hexec : (do x; modify f : Call RelayScore ε Unit).exec s = some (result, s')) :
    ((∃ e, result = .error e) ∧ s'.perTargetCounts = s.perTargetCounts) ∨
      ∃ s₁, result = .ok () ∧ s₁.perTargetCounts = s.perTargetCounts ∧ s' = f s₁ := by
  rcases modify_cases hexec with ⟨e, rfl, hx⟩ | ⟨s₁, rfl, hx, rfl⟩
  · exact .inl ⟨⟨e, rfl⟩, hframe _ _ hx⟩
  · exact .inr ⟨s₁, rfl, hframe _ _ hx, rfl⟩

/-- **A call is counted at its target**, if it succeeds, and nowhere else. -/
theorem lookup_of_step {a : Handled} (hexec : (handle m K a.request).exec s = some (a.result, s'))
    (target : Target) : s'.perTargetCounts.lookup target =
      match a.outcome target with
      | some success => some (counted success ((s.perTargetCounts.lookup target).getD (0, 0)))
      | none => s.perTargetCounts.lookup target := by
  obtain ⟨before, request, result⟩ := a
  dsimp only at hexec
  rcases request with receipt | ⟨receipt, nowMs⟩ | ⟨receipt, target'⟩ | _ | nowMs | target' |
    ⟨penalty, proof⟩
  case recordSuccess =>
    obtain ⟨r, hr, -⟩ := mapError_cases hexec
    exact congrArg (AList.lookup target) (perTargetCounts_recordSuccess hr)
  case recordSuccessAt =>
    obtain ⟨r, hr, -⟩ := mapError_cases hexec
    rcases perTargetCounts_modify (fun _ _ ↦ perTargetCounts_recordSuccess) hr with
      ⟨-, hsame⟩ | ⟨s₁, -, hsame, rfl⟩
    · exact congrArg (AList.lookup target) hsame
    · exact congrArg (AList.lookup target) hsame
  case recordSuccessForTarget =>
    obtain ⟨r, hr, rfl⟩ := mapError_cases hexec
    rcases perTargetCounts_modify (fun _ _ ↦ perTargetCounts_recordSuccess) hr with
      ⟨⟨e, rfl⟩, hsame⟩ | ⟨s₁, rfl, hsame, rfl⟩
    · exact congrArg (AList.lookup target) hsame
    · rw [lookup_countTarget, hsame]
      by_cases heq : target' = target
      · simp [Handled.outcome, heq, Except.mapError, counted]
      · simp [Handled.outcome, heq, Except.mapError]
  case recordFailure => exact congrArg (AList.lookup target) (perTargetCounts_recordFailure hexec)
  case recordFailureAt =>
    rcases perTargetCounts_modify (fun _ _ ↦ perTargetCounts_recordFailure) hexec with
      ⟨-, hsame⟩ | ⟨s₁, -, hsame, rfl⟩
    · exact congrArg (AList.lookup target) hsame
    · exact congrArg (AList.lookup target) hsame
  case recordFailureForTarget =>
    rcases perTargetCounts_modify (fun _ _ ↦ perTargetCounts_recordFailure) hexec with
      ⟨⟨e, rfl⟩, hsame⟩ | ⟨s₁, rfl, hsame, rfl⟩
    · exact congrArg (AList.lookup target) hsame
    · rw [lookup_countTarget, hsame]
      by_cases heq : target' = target
      · simp [Handled.outcome, heq, counted]
      · simp [Handled.outcome, heq]
  case slash =>
    obtain ⟨r, hr, -⟩ := mapError_cases hexec
    rcases slash_cases hr with ⟨-, rfl⟩ | ⟨-, -, rfl⟩
    · rfl
    · rfl

/-! ## Runs -/

/-- The entry of a target with these events. -/
structure Tallied (events : List Bool) (entry : Option (UInt64 × UInt64)) : Prop where
  none_iff : entry = none ↔ events = []
  successes : ∀ counts ∈ entry, counts.1.toNat = min (events.count true) u64Max
  failures : ∀ counts ∈ entry, counts.2.toNat = min (events.count false) u64Max

theorem tallied_nil : Tallied [] none := ⟨by simp, nofun, nofun⟩

/-- **One event.** -/
theorem Tallied.concat {events : List Bool} {entry : Option (UInt64 × UInt64)}
    (h : Tallied events entry) (success : Bool) :
    Tallied (events ++ [success]) (some (counted success (entry.getD (0, 0)))) := by
  have hold : (entry.getD (0, 0)).1.toNat = min (events.count true) u64Max ∧
      (entry.getD (0, 0)).2.toNat = min (events.count false) u64Max := by
    cases entry with
    | none =>
      rw [h.none_iff.mp rfl]
      exact ⟨rfl, rfl⟩
    | some counts => exact ⟨h.successes counts rfl, h.failures counts rfl⟩
  refine ⟨by simp, fun counts hcounts ↦ ?_, fun counts hcounts ↦ ?_⟩
  · obtain rfl := Option.mem_some_iff.mp hcounts
    cases success
    · simpa [counted] using hold.1
    · simp only [counted, if_true, UInt64.toNat_saturatingAdd, hold.1, UInt64.toNat_one,
        List.count_append, List.count_singleton_self]
      omega
  · obtain rfl := Option.mem_some_iff.mp hcounts
    cases success
    · simp only [counted, Bool.false_eq_true, if_false, UInt64.toNat_saturatingAdd, hold.2,
        UInt64.toNat_one, List.count_append, List.count_singleton_self]
      omega
    · simpa [counted] using hold.2

theorem tallied_of_run (run : (system m K relayId).Run tr s) (target : Target) :
    Tallied (outcomes target tr) (s.perTargetCounts.lookup target) := by
  refine run.invariant
    (I := fun tr s ↦ Tallied (outcomes target tr) (s.perTargetCounts.lookup target)) ?_ ?_
  · rintro s rfl
    exact tallied_nil
  · rintro tr s a s' - h ⟨-, hexec⟩
    rw [lookup_of_step hexec target, outcomes, filterMap_concat]
    cases a.outcome target with
    | none =>
      rw [Option.toList_none, List.append_nil]
      exact h
    | some success => exact h.concat success

/-- The successes of a target are among those of all targets. -/
theorem le_successes {counts : UInt64 × UInt64}
    (h : s.perTargetCounts.lookup target = some counts) : counts.1.toNat ≤ s.successes := by
  have hcounts := successes_countTarget target (fun _ ↦ (0, 0)) s
  rw [h, Option.getD_some] at hcounts
  dsimp only at hcounts
  rw [UInt64.toNat_zero] at hcounts
  omega

/-- **The counts of a target** after a run: all its successes, and its failures as far as they can
be counted. -/
theorem lookup_of_run (run : (system m K relayId).Run tr s) {counts : UInt64 × UInt64}
    (h : s.perTargetCounts.lookup target = some counts) :
    counts.1.toNat = (outcomes target tr).count true ∧
      counts.2.toNat = min ((outcomes target tr).count false) u64Max ∧
      counts.1.saturatingAdd counts.2 ≠ 0 := by
  have htallied := tallied_of_run run target
  have hbooked := booked_of_run run
  have hsuccesses := htallied.successes counts h
  have hfailures := htallied.failures counts h
  have hle := (le_successes h).trans hbooked.successes_le
  have hlt := card_credited_lt s
  have hnonempty : 0 < (outcomes target tr).length := by
    refine List.length_pos_iff.mpr fun hnil ↦ ?_
    rw [htallied.none_iff.mpr hnil] at h
    cases h
  have hlength := List.count_false_add_count_true (outcomes target tr)
  rw [hbooked.relayed] at hle
  have hexact : counts.1.toNat = (outcomes target tr).count true := by
    rw [u64Max] at hsuccesses
    omega
  refine ⟨hexact, hfailures, fun hzero ↦ ?_⟩
  have htotal := congrArg UInt64.toNat hzero
  rw [UInt64.toNat_saturatingAdd, UInt64.toNat_zero, u64Max] at htotal
  rw [u64Max] at hfailures
  omega

/-- **Targets are told apart.** After any run of calls, the success rate of a target is of the calls
for it that succeeded and no others; the targets that are tracked are those with such a call; and
what is flagged, in whatever order the table is iterated, is each target with enough events and a
low enough rate, once. -/
theorem targets_of_run {F : Type} [LE F] [DecidableLE F] (rate : UInt64 → UInt64 → F)
    (run : (system m K relayId).Run tr s) :
    (∀ target, outcomes target tr = [] → s.perTargetSuccessRate rate target = none) ∧
    (∀ target, outcomes target tr ≠ [] → ∃ successes failures,
      s.perTargetSuccessRate rate target =
        some (successes, failures, rate successes (successes.saturatingAdd failures)) ∧
      successes.toNat = (outcomes target tr).count true ∧
      failures.toNat = min ((outcomes target tr).count false) u64Max) ∧
    (∀ targets : Finset Target, (∀ target, target ∈ targets ↔ outcomes target tr ≠ []) →
      s.perTargetCount = targets.card) ∧
    ∀ o minSample threshold, (s.flagPerTargetAnomalies o rate minSample threshold).Nodup ∧
      ∀ target, target ∈ s.flagPerTargetAnomalies o rate minSample threshold ↔
        ∃ successes failures r, s.perTargetSuccessRate rate target = some (successes, failures, r) ∧
          minSample ≤ successes.saturatingAdd failures ∧ r ≤ threshold := by
  have hsome : ∀ {target counts}, s.perTargetCounts.lookup target = some counts →
      s.perTargetSuccessRate rate target =
        some (counts.1, counts.2, rate counts.1 (counts.1.saturatingAdd counts.2)) := by
    intro target counts h
    rw [perTargetSuccessRate, h]
    exact if_neg (lookup_of_run run h).2.2
  have hnone : ∀ {target}, s.perTargetCounts.lookup target = none →
      s.perTargetSuccessRate rate target = none := by
    intro target h
    rw [perTargetSuccessRate, h]
    rfl
  refine ⟨fun target hnil ↦ hnone ((tallied_of_run run target).none_iff.mpr hnil),
    fun target hne ↦ ?_, fun targets htargets ↦ ?_, fun o minSample threshold ↦ ⟨?_, ?_⟩⟩
  · obtain ⟨counts, hcounts⟩ := Option.ne_none_iff_exists'.mp
      (mt (tallied_of_run run target).none_iff.mp hne)
    obtain ⟨hsuccesses, hfailures, -⟩ := lookup_of_run run hcounts
    exact ⟨counts.1, counts.2, hsome hcounts, hsuccesses, hfailures⟩
  · have hkeys : s.perTargetCounts.keys.toFinset = targets := by
      ext target
      rw [htargets, List.mem_toFinset, ← AList.mem_keys, ← (tallied_of_run run target).none_iff.ne,
        Ne, AList.lookup_eq_none, not_not]
    rw [← hkeys, List.toFinset_card_of_nodup s.perTargetCounts.keys_nodup]
    exact HashMap.size_eq_length_keys _
  · exact nodup_flagPerTargetAnomalies o rate minSample threshold s
  · intro target
    rw [mem_flagPerTargetAnomalies]
    constructor
    · rintro ⟨counts, hcounts, hsample, hrate⟩
      exact ⟨_, _, _, hsome hcounts, hsample, hrate⟩
    · rintro ⟨successes, failures, r, hr, hsample, hrate⟩
      cases hcounts : s.perTargetCounts.lookup target with
      | none =>
        rw [hnone hcounts] at hr
        cases hr
      | some counts =>
        rw [hsome hcounts] at hr
        cases hr
        exact ⟨counts, rfl, hsample, hrate⟩

/-- The quotient of two numbers. -/
def quotient (successes total : UInt64) : ℚ := successes.toNat / total.toNat

/-- A relay that delivers to one target and drops what is for another. -/
def selective : List Request :=
  [.recordSuccessForTarget (signedReceipt (Vector.replicate 32 0x11) 1 1) (Vector.replicate 32 1),
    .recordFailureForTarget (Vector.replicate 32 2)]

/-- The other target is flagged. -/
theorem targets_of_run_selective : ∃ tr s,
    (system .panics Reference.crypto relayName).Run tr s ∧ tr.map Handled.request = selective ∧
      ∀ o, Vector.replicate 32 2 ∈ s.flagPerTargetAnomalies o quotient 1 (1 / 2) := by
  have hplay : (((handle .panics Reference.crypto (.recordSuccessForTarget
      (signedReceipt (Vector.replicate 32 0x11) 1 1) (Vector.replicate 32 1))).exec
        (new relayName)).bind fun out ↦ (handle .panics Reference.crypto
          (.recordFailureForTarget (Vector.replicate 32 2))).exec out.2).any (fun out ↦
            out.2.perTargetCounts.lookup (Vector.replicate 32 2) = some (0, 1)) = true := by
    decide +kernel
  rw [Option.any_eq_true] at hplay
  obtain ⟨⟨result', s'⟩, hboth, hcounts⟩ := hplay
  obtain ⟨⟨result, s⟩, hfirst, hsecond⟩ := Option.bind_eq_some_iff.mp hboth
  have run : (system .panics Reference.crypto relayName).Run
      ([] ++ [⟨new relayName, _, result⟩] ++ [⟨s, _, result'⟩]) s' :=
    .step (.step (.start rfl) ⟨rfl, hfirst⟩) ⟨rfl, hsecond⟩
  refine ⟨_, s', run, rfl, fun o ↦ ?_⟩
  refine (((targets_of_run quotient run).2.2.2 o 1 (1 / 2)).2 _).mpr ⟨0, 1, 0, ?_, by decide, ?_⟩
  · rw [perTargetSuccessRate, of_decide_eq_true hcounts]
    exact congrArg (fun r ↦ some (0, 1, r)) (zero_div _)
  · norm_num

end RelayScore

end Arxia
