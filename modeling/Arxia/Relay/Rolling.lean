import Arxia.Lists.Queues
import Arxia.Relay.Credits

/-!
# The rolling score

Beside the score of its whole life a relay has a score of the last thirty days, the sum of what is
logged in that time. The log is pruned whenever something is logged, and on request.

`windowSum` is that sum taken over the whole history. A pruned event is older than the window of the
call that pruned it. With a clock that does not go back it is older than the window of every later
call, so the log has all that a rolling score is asked about. The log has to fit into memory, which
keeps its sum well within the range of an `i64`.
-/

namespace Arxia.RelayScore

open Rust Transition

/-- Baseline of the rolling score. -/
def ROLLING_BASELINE : Int64 := 100

/-- Compute the rolling score from the events that are in the window. -/
def rollingScore (m : Overflow) (nowMs : UInt64) (s : RelayScore) : Option Int64 := do
  let cutoff := nowMs.saturatingSub ROLLING_WINDOW_MS
  let deltas := (s.rollingEvents.filter fun e ↦ cutoff ≤ e.1).map fun e ↦ e.2.toInt64
  let deltaSum ← Int64.sum m deltas
  pure (ROLLING_BASELINE.saturatingAdd deltaSum)

/-! ## Calls -/

/-- The calls that log or prune. -/
inductive RollingRequest
  | recordSuccessAt (receipt : RelayReceipt) (nowMs : UInt64)
  | recordFailureAt (nowMs : UInt64)
  | pruneRolling (nowMs : UInt64)

/-- The time that a call is made at. -/
def RollingRequest.nowMs : RollingRequest → UInt64
  | recordSuccessAt _ nowMs | recordFailureAt nowMs | pruneRolling nowMs => nowMs

/-- The call that a request makes. -/
def roll (m : Overflow) (K : Crypto) : RollingRequest → Call RelayScore RelayReceiptError Unit
  | .recordSuccessAt receipt nowMs => RelayScore.recordSuccessAt m K receipt nowMs
  | .recordFailureAt nowMs => RelayScore.recordFailureAt m nowMs
  | .pruneRolling nowMs => modify (RelayScore.pruneRolling nowMs)

/-- The log is a `VecDeque` of entries of 16 bytes, which cannot outgrow the address space. -/
def LogFits (s : RelayScore) : Prop := s.rollingEvents.length * 16 ≤ isizeMax

instance : DecidablePred LogFits := fun _ ↦ inferInstanceAs (Decidable (_ ≤ _))

/-- A call, and what it returned. -/
structure Rolled where
  request : RollingRequest
  result : Except RelayReceiptError Unit

/-- The score of a relay, as its log is concerned. -/
def rollingSystem (m : Overflow) (K : Crypto) (relayId : String) : System RelayScore Rolled where
  init := fun s ↦ s = new relayId
  step := fun s a s' ↦ (roll m K a.request).exec s = some (a.result, s') ∧ LogFits s'

/-! ## The history -/

/-- What a call records: a success counts one, a failure minus five. -/
def Rolled.event (a : Rolled) : Option (UInt64 × ℤ) :=
  match a.request, a.result with
  | .recordSuccessAt _ nowMs, .ok () => some (nowMs, 1)
  | .recordFailureAt nowMs, .ok () => some (nowMs, -5)
  | _, _ => none

/-- The start of the window that ends at a time. -/
def windowStart (nowMs : UInt64) : ℕ := nowMs.toNat - ROLLING_WINDOW_MS.toNat

/-- The sum of the events in the window. -/
def windowSum (nowMs : UInt64) (events : List (UInt64 × ℤ)) : ℤ :=
  ((events.filter fun e ↦ windowStart nowMs ≤ e.1.toNat ∧ e.1.toNat ≤ nowMs.toNat).map Prod.snd).sum

/-- The log, with the deltas as integers. -/
def logged (s : RelayScore) : List (UInt64 × ℤ) := s.rollingEvents.map fun e ↦ (e.1, e.2.toInt)

variable {m : Overflow} {K : Crypto} {relayId : String} {s s' : RelayScore} {ε : Type}
  {receipt : RelayReceipt} {a : Rolled} {tr : List Rolled} {nowMs : UInt64}

theorem event_eq_some {e : UInt64 × ℤ} (h : a.event = some e) :
    e.1 = a.request.nowMs ∧ (e.2 = 1 ∨ e.2 = -5) := by
  obtain ⟨request, result⟩ := a
  rcases request with ⟨receipt, nowMs⟩ | nowMs | nowMs <;> rcases result with _ | _ <;> cases h
  · exact ⟨rfl, Or.inl rfl⟩
  · exact ⟨rfl, Or.inr rfl⟩

/-! ## What a call does to the log -/

theorem toNat_cutoff (nowMs : UInt64) :
    (nowMs.saturatingSub ROLLING_WINDOW_MS).toNat = windowStart nowMs :=
  UInt64.toNat_saturatingSub _ _

theorem logged_pruneRolling (nowMs : UInt64) (s : RelayScore) :
    logged (pruneRolling nowMs s) =
      (logged s).dropWhile fun e ↦ e.1.toNat < windowStart nowMs := by
  rw [logged, pruneRolling, logged, List.dropWhile_map]
  refine congrArg (List.map _) (congrArg (List.dropWhile · s.rollingEvents) (funext fun e ↦ ?_))
  rw [Function.comp_apply, decide_eq_decide, UInt64.lt_iff_toNat_lt, toNat_cutoff]

theorem logged_logEvent (nowMs : UInt64) (delta : Int32) (s : RelayScore) :
    logged (logEvent nowMs delta s) =
      (logged s ++ [(nowMs, delta.toInt)]).dropWhile fun e ↦ e.1.toNat < windowStart nowMs := by
  rw [logEvent, logged_pruneRolling, logged, logged, List.map_append]
  rfl

theorem logged_recordSuccess {result : Except RelayReceiptError Unit}
    (hexec : (recordSuccess m K receipt).exec s = some (result, s')) : logged s' = logged s := by
  rw [recordSuccess, Call.exec_bind_ok (Call.exec_get s)] at hexec
  rcases Call.exec_check_cases hexec with ⟨-, rfl⟩ | ⟨hash, -, hexec⟩
  · rfl
  obtain ⟨⟨fresh, credited⟩, -, hexec⟩ := Call.exec_orPanic_bind_eq_some.mp hexec
  rcases Call.exec_check_cases hexec with ⟨-, rfl⟩ | ⟨_, -, hexec⟩
  · rfl
  obtain ⟨relayed, -, hexec⟩ := Call.exec_orPanic_bind_eq_some.mp hexec
  obtain ⟨score, -, hexec⟩ := Call.exec_orPanic_bind_eq_some.mp hexec
  obtain ⟨-, rfl⟩ := Call.exec_set_eq_some.mp hexec
  rfl

theorem logged_recordFailure {result : Except ε Unit}
    (hexec : (recordFailure m : Call RelayScore ε Unit).exec s = some (result, s')) :
    logged s' = logged s := by
  rw [recordFailure, Call.exec_bind_ok (Call.exec_get s)] at hexec
  obtain ⟨failed, -, hexec⟩ := Call.exec_orPanic_bind_eq_some.mp hexec
  obtain ⟨score, -, hexec⟩ := Call.exec_orPanic_bind_eq_some.mp hexec
  obtain ⟨-, rfl⟩ := Call.exec_set_eq_some.mp hexec
  rfl

/-- **A call logs what it records**, and prunes; a rejected one does neither. -/
theorem logged_roll (hexec : (roll m K a.request).exec s = some (a.result, s')) :
    (a.event = none ∧ logged s' = logged s) ∨
      logged s' = (logged s ++ a.event.toList).dropWhile
        fun e ↦ e.1.toNat < windowStart a.request.nowMs := by
  obtain ⟨request, result⟩ := a
  rcases request with ⟨receipt, nowMs⟩ | nowMs | nowMs
  · rcases modify_cases hexec with ⟨e, rfl, hrecord⟩ | ⟨s₁, rfl, hrecord, rfl⟩
    · exact .inl ⟨rfl, logged_recordSuccess hrecord⟩
    · rw [logged_logEvent, logged_recordSuccess hrecord]
      exact .inr rfl
  · rcases modify_cases hexec with ⟨e, rfl, hrecord⟩ | ⟨s₁, rfl, hrecord, rfl⟩
    · exact .inl ⟨rfl, logged_recordFailure hrecord⟩
    · rw [logged_logEvent, logged_recordFailure hrecord]
      exact .inr rfl
  · rw [roll, Call.exec_modify, Option.some_inj, Prod.mk.injEq] at hexec
    obtain ⟨rfl, rfl⟩ := hexec
    rw [logged_pruneRolling, Rolled.event, Option.toList_none, List.append_nil]
    exact .inr rfl

/-! ## Runs -/

theorem logFits_new (relayId : String) : LogFits (new relayId) := by
  rw [LogFits, new, List.length_nil, Nat.zero_mul]
  exact Nat.zero_le isizeMax

theorem logged_new (relayId : String) : logged (new relayId) = [] := rfl

/-- **The log is recent** at every time that no call was later than. -/
theorem recent_of_run (run : (rollingSystem m K relayId).Run tr s) (nowMs : UInt64) :
    LogFits s ∧ ((∀ a ∈ tr, a.request.nowMs ≤ nowMs) →
      Lists.Recent (fun e ↦ e.1.toNat) (windowStart nowMs) (tr.filterMap Rolled.event)
        (logged s)) := by
  refine run.invariant (I := fun tr s ↦ LogFits s ∧ ((∀ a ∈ tr, a.request.nowMs ≤ nowMs) →
    Lists.Recent (fun e ↦ e.1.toNat) (windowStart nowMs) (tr.filterMap Rolled.event)
      (logged s))) ?_ ?_
  · rintro s rfl
    refine ⟨logFits_new relayId, fun _ ↦ ?_⟩
    rw [logged_new, List.filterMap_nil]
    exact Lists.Recent.start _ _
  · rintro tr s a s' - ⟨-, ih⟩ ⟨hexec, hfits⟩
    refine ⟨hfits, fun hbefore ↦ ?_⟩
    have hrecent := ih fun b hb ↦ hbefore b (List.mem_append_left _ hb)
    have hle : windowStart a.request.nowMs ≤ windowStart nowMs := by
      have htime := UInt64.le_iff_toNat_le.mp (hbefore a (List.mem_append_right _ (by simp)))
      exact Nat.sub_le_sub_right htime _
    rw [filterMap_concat]
    rcases logged_roll hexec with ⟨hnone, hlog⟩ | hlog
    · rw [hnone, hlog, Option.toList_none, List.append_nil]
      exact hrecent
    · rw [hlog]
      exact (hrecent.push _).prune hle

/-- Every event was recorded by a call, at its time. -/
theorem exists_call {e : UInt64 × ℤ} (he : e ∈ tr.filterMap Rolled.event) :
    (∃ a ∈ tr, e.1 = a.request.nowMs) ∧ (e.2 = 1 ∨ e.2 = -5) := by
  obtain ⟨a, ha, hevent⟩ := List.mem_filterMap.mp he
  obtain ⟨htime, hdelta⟩ := event_eq_some hevent
  exact ⟨⟨a, ha, htime⟩, hdelta⟩

/-- With a clock that does not go back no call is later than the last one. -/
theorem le_of_getLast? (hclock : (tr.map fun a ↦ a.request.nowMs).Pairwise (· ≤ ·))
    (hnow : ∀ a, tr.getLast? = some a → a.request.nowMs ≤ nowMs) :
    ∀ a ∈ tr, a.request.nowMs ≤ nowMs := by
  rcases List.eq_nil_or_concat' tr with rfl | ⟨tr₀, b, rfl⟩
  · exact fun a ha ↦ absurd ha List.not_mem_nil
  intro a ha
  have hb := hnow b List.getLast?_concat
  rcases List.mem_append.mp ha with ha | ha
  · rw [List.map_append, List.pairwise_append] at hclock
    have hlast : b.request.nowMs ∈ [b].map fun a ↦ a.request.nowMs := List.mem_singleton_self _
    exact UInt64.le_trans (hclock.2.2 _ (List.mem_map_of_mem ha) _ hlast) hb
  · exact List.mem_singleton.mp ha ▸ hb

/-- The deltas that a rolling score adds up. -/
def recentDeltas (nowMs : UInt64) (s : RelayScore) : List Int64 :=
  (s.rollingEvents.filter fun e ↦ nowMs.saturatingSub ROLLING_WINDOW_MS ≤ e.1).map
    fun e ↦ e.2.toInt64

theorem map_toInt_recentDeltas (nowMs : UInt64) (s : RelayScore) :
    (recentDeltas nowMs s).map Int64.toInt =
      ((logged s).filter fun e ↦ windowStart nowMs ≤ e.1.toNat).map Prod.snd := by
  rw [recentDeltas, logged, List.filter_map, List.map_map, List.map_map]
  have htest : (fun e : UInt64 × Int32 ↦
        decide (nowMs.saturatingSub ROLLING_WINDOW_MS ≤ e.1)) =
      (fun e : UInt64 × ℤ ↦ decide (windowStart nowMs ≤ e.1.toNat)) ∘
        fun e : UInt64 × Int32 ↦ (e.1, e.2.toInt) := by
    funext e
    rw [Function.comp_apply, decide_eq_decide, UInt64.le_iff_toNat_le, toNat_cutoff]
  rw [htest]
  exact List.map_congr_left fun e _ ↦ Int32.toInt_toInt64 e.2

/-- **A log that fits** has deltas whose sum is in range. -/
theorem exists_deltaSum (m : Overflow) (hfits : LogFits s)
    (hdeltas : ∀ d ∈ recentDeltas nowMs s, |d.toInt| ≤ 5) :
    ∃ deltaSum, Int64.sum m (recentDeltas nowMs s) = some deltaSum ∧
      deltaSum.toInt = ((recentDeltas nowMs s).map Int64.toInt).sum ∧
      |deltaSum.toInt| ≤ i64Max - 100 := by
  have hlength : (recentDeltas nowMs s).length ≤ s.rollingEvents.length := by
    rw [recentDeltas, List.length_map]
    exact List.length_filter_le _ _
  have hroom : 5 * ((recentDeltas nowMs s).length : ℤ) ≤ i64Max - 100 := by
    rw [LogFits, isizeMax] at hfits
    rw [i64Max]
    omega
  obtain ⟨deltaSum, hsum, hexact, hbound⟩ := Int64.exists_sum (m := m) hdeltas (by omega)
  exact ⟨deltaSum, hsum, hexact, hbound.trans hroom⟩

/-- **The rolling score is the windowed sum of the whole history**, however often the log was
pruned. -/
theorem rollingScore_eq_of_run (run : (rollingSystem m K relayId).Run tr s)
    (hclock : (tr.map fun a ↦ a.request.nowMs).Pairwise (· ≤ ·)) (nowMs : UInt64)
    (hnow : ∀ a, tr.getLast? = some a → a.request.nowMs ≤ nowMs) :
    ∃ score, s.rollingScore m nowMs = some score ∧
      score.toInt = 100 + windowSum nowMs (tr.filterMap Rolled.event) := by
  have hbefore := le_of_getLast? hclock hnow
  obtain ⟨hfits, hrecent⟩ := recent_of_run run nowMs
  have hrecent := hrecent hbefore
  have hdeltas : ∀ d ∈ recentDeltas nowMs s, |d.toInt| ≤ 5 := by
    intro d hd
    have hmem : d.toInt ∈ (recentDeltas nowMs s).map Int64.toInt := List.mem_map_of_mem hd
    rw [map_toInt_recentDeltas] at hmem
    obtain ⟨e, he, hdelta⟩ := List.mem_map.mp hmem
    rcases (exists_call (hrecent.mem_history (List.mem_of_mem_filter he))).2 with h | h
    · rw [← hdelta, h]
      decide
    · rw [← hdelta, h]
      decide
  obtain ⟨deltaSum, hsum, hexact, hbound⟩ := exists_deltaSum m hfits hdeltas
  refine ⟨ROLLING_BASELINE.saturatingAdd deltaSum, ?_, ?_⟩
  · have hcode : s.rollingScore m nowMs = (Int64.sum m (recentDeltas nowMs s)).bind
        fun deltaSum ↦ some (ROLLING_BASELINE.saturatingAdd deltaSum) := rfl
    rw [hcode, hsum, Option.bind_some]
  · have hbaseline : ROLLING_BASELINE.toInt = 100 := by decide
    have hrange := abs_le.mp hbound
    have hclamp : clampI64 (100 + deltaSum.toInt) = 100 + deltaSum.toInt := by
      simp only [clampI64, i64Min, i64Max] at hrange ⊢
      omega
    have hwindow : ((tr.filterMap Rolled.event).filter fun e ↦
          windowStart nowMs ≤ e.1.toNat ∧ e.1.toNat ≤ nowMs.toNat) =
        (tr.filterMap Rolled.event).filter fun e ↦ windowStart nowMs ≤ e.1.toNat :=
      List.filter_congr fun e he ↦ decide_eq_decide.mpr (and_iff_left_of_imp fun _ ↦ by
        obtain ⟨⟨a, ha, htime⟩, -⟩ := exists_call he
        exact UInt64.le_iff_toNat_le.mp (htime ▸ hbefore a ha))
    rw [Int64.toInt_saturatingAdd, hbaseline, hclamp, hexact, map_toInt_recentDeltas, windowSum,
      hwindow, hrecent.filter_eq]

/-- A success, a pruning and, thirty days later, a failure. -/
def firstSuccess : RollingRequest :=
  .recordSuccessAt (signedReceipt (Vector.replicate 32 0x11) 2 2) 7

def earlyPruning : RollingRequest := .pruneRolling 8

def lateFailure : RollingRequest := .recordFailureAt 2_592_000_009

/-- Only the failure counts then. -/
theorem rollingScore_eq_of_run_late : ∃ tr s,
    (rollingSystem .panics Reference.crypto relayName).Run tr s ∧
      tr.map Rolled.request = [firstSuccess, earlyPruning, lateFailure] ∧
      ∃ score, s.rollingScore .panics 2_592_000_009 = some score ∧
        score.toInt = 100 + windowSum 2_592_000_009 (tr.filterMap Rolled.event) := by
  have hplay : (((roll .panics Reference.crypto firstSuccess).exec (new relayName)).bind fun out ↦
      ((roll .panics Reference.crypto earlyPruning).exec out.2).bind fun out' ↦
        ((roll .panics Reference.crypto lateFailure).exec out'.2).map fun out'' ↦
          (out, out', out'')).any
      (fun outs ↦ LogFits outs.1.2 ∧ LogFits outs.2.1.2 ∧ LogFits outs.2.2.2) = true := by
    decide +kernel
  rw [Option.any_eq_true] at hplay
  obtain ⟨⟨⟨result, s⟩, ⟨result', s'⟩, ⟨result'', s''⟩⟩, hall, hfits⟩ := hplay
  obtain ⟨hfits, hfits', hfits''⟩ := of_decide_eq_true hfits
  obtain ⟨out, hfirst, hall⟩ := Option.bind_eq_some_iff.mp hall
  obtain ⟨out', hsecond, hall⟩ := Option.bind_eq_some_iff.mp hall
  obtain ⟨out'', hthird, heq⟩ := Option.map_eq_some_iff.mp hall
  cases heq
  have run : (rollingSystem .panics Reference.crypto relayName).Run
      ([] ++ [⟨firstSuccess, result⟩] ++ [⟨earlyPruning, result'⟩] ++ [⟨lateFailure, result''⟩])
      s'' := .step (.step (.step (.start rfl) ⟨hfirst, hfits⟩) ⟨hsecond, hfits'⟩) ⟨hthird, hfits''⟩
  refine ⟨_, s'', run, rfl, rollingScore_eq_of_run run ?_ _ fun a ha ↦ ?_⟩
  · exact (by decide : ([7, 8, 2_592_000_009] : List UInt64).Pairwise (· ≤ ·))
  · obtain rfl := Option.some_inj.mp (List.getLast?_concat.symm.trans ha)
    exact (by decide : (2_592_000_009 : UInt64) ≤ 2_592_000_009)

end Arxia.RelayScore
