import Arxia.Relay.Evidence
import Arxia.Rust.Collections
import Arxia.Rust.Int64
import Arxia.Transition.Runs

/-!
# Relay node reputation scoring

A score moves by one for each message that a receipt shows to be relayed, and back by five for a
failure and by the penalty for a slash. The variants of these calls do the same and keep a buffer of
recent events, or counts for each target, on the side. A message is credited once, by its hash; the
set of the hashes has to fit into memory, so their number is well within the range of a counter.

Successes and failures use plain arithmetic, a slash saturates.
-/

namespace Arxia

open Rust Transition

/-- Relay scoring window in days. -/
def RELAY_SCORING_WINDOW_DAYS : UInt64 := 30

/-- Reputation score for a relay node. -/
structure RelayScore where
  relayId : String
  /-- Current score (higher is better). -/
  score : Int64
  messagesRelayed : UInt64
  messagesFailed : UInt64
  /-- The message hashes that have been credited. -/
  creditedMessages : HashSet BlockHash 32
  /-- Timestamps and deltas of recent events. -/
  rollingEvents : List (UInt64 × Int32)
  /-- Successes and failures for each target. -/
  perTargetCounts : HashMap (Vector UInt8 32) (UInt64 × UInt64)

namespace RelayScore

/-- Width of the rolling-score window in milliseconds. -/
def ROLLING_WINDOW_MS : UInt64 := RELAY_SCORING_WINDOW_DAYS * 86_400_000

/-- Score contribution of a successful relay. -/
def SUCCESS_DELTA : Int32 := 1

/-- Score contribution of a failed relay. -/
def FAILURE_DELTA : Int32 := -5

/-- Minimum score for a relay to be in good standing. -/
def TRUST_THRESHOLD : Int64 := 1

/-- Create a new relay score with default values. -/
def new (relayId : String) : RelayScore where
  relayId := relayId
  score := 100
  messagesRelayed := 0
  messagesFailed := 0
  creditedMessages := .empty
  rollingEvents := []
  perTargetCounts := ∅

/-- The message that a receipt is to be credited for. -/
def creditable (K : Crypto) (receipt : RelayReceipt) (s : RelayScore) :
    Except RelayReceiptError BlockHash := do
  ensure (receipt.relayId = s.relayId) .wrongRelayId
  receipt.verify K
  okOr (decodeHex32 K receipt.messageHash) .invalidMessageHash

/-- Record a successful relay, backed by a signed receipt. -/
def recordSuccess (m : Overflow) (K : Crypto) (receipt : RelayReceipt) :
    Call RelayScore RelayReceiptError Unit := do
  let s ← get
  let msgHash ← Call.ofExcept (creditable K receipt s)
  let (fresh, creditedMessages) ← Call.orPanic (s.creditedMessages.insert msgHash)
  Call.ofExcept (ensure (fresh = true) .duplicateReceipt)
  let messagesRelayed ← Call.orPanic (s.messagesRelayed.plus m 1)
  let score ← Call.orPanic (s.score.plus m 1)
  set { s with creditedMessages, messagesRelayed, score }

/-- Record a failed relay attempt. -/
def recordFailure {ε : Type} (m : Overflow) : Call RelayScore ε Unit := do
  let s ← get
  let messagesFailed ← Call.orPanic (s.messagesFailed.plus m 1)
  let score ← Call.orPanic (s.score.minus m 5)
  set { s with messagesFailed, score }

/-- Apply a slashing penalty for proven misbehavior. -/
def slash (K : Crypto) (penalty : Int64) (proof : SlashingProof) :
    Call RelayScore SlashingError Unit := do
  Call.ofExcept (ensure (0 ≤ penalty) .negativePenalty)
  let s ← get
  Call.ofExcept (ensure (proof.targetRelayId = s.relayId) .targetMismatch)
  Call.ofExcept (proof.verify K)
  set { s with score := s.score.saturatingSub penalty }

/-- Whether this relay's cumulative score is at or above `threshold`. -/
def isTrustedWithThreshold (s : RelayScore) (threshold : Int64) : Bool := threshold ≤ s.score

/-- Whether this relay is in good standing. -/
def isTrusted (s : RelayScore) : Bool := s.isTrustedWithThreshold TRUST_THRESHOLD

/-- Drop events that are older than the window, from the front. -/
def pruneRolling (nowMs : UInt64) (s : RelayScore) : RelayScore :=
  let cutoff := nowMs.saturatingSub ROLLING_WINDOW_MS
  { s with rollingEvents := s.rollingEvents.dropWhile fun e ↦ e.1 < cutoff }

/-- Append an event to the rolling-window buffer, and prune that. -/
def logEvent (nowMs : UInt64) (delta : Int32) (s : RelayScore) : RelayScore :=
  pruneRolling nowMs { s with rollingEvents := s.rollingEvents ++ [(nowMs, delta)] }

/-- Change the counts of a target. -/
def countTarget (target : Vector UInt8 32) (f : UInt64 × UInt64 → UInt64 × UInt64)
    (s : RelayScore) : RelayScore :=
  let perTargetCounts := s.perTargetCounts.orInsert target (0, 0)
  { s with perTargetCounts :=
    perTargetCounts.insert target (f ((perTargetCounts.lookup target).getD (0, 0))) }

/-- Record a successful relay and append an event. -/
def recordSuccessAt (m : Overflow) (K : Crypto) (receipt : RelayReceipt) (nowMs : UInt64) :
    Call RelayScore RelayReceiptError Unit := do
  recordSuccess m K receipt
  modify (logEvent nowMs SUCCESS_DELTA)

/-- Record a failed relay and append an event. -/
def recordFailureAt {ε : Type} (m : Overflow) (nowMs : UInt64) : Call RelayScore ε Unit := do
  recordFailure m
  modify (logEvent nowMs FAILURE_DELTA)

/-- Record a successful relay and count it for its target. -/
def recordSuccessForTarget (m : Overflow) (K : Crypto) (receipt : RelayReceipt)
    (target : Vector UInt8 32) : Call RelayScore RelayReceiptError Unit := do
  recordSuccess m K receipt
  modify (countTarget target fun entry ↦ (entry.1.saturatingAdd 1, entry.2))

/-- Record a failed relay and count it for its target. -/
def recordFailureForTarget {ε : Type} (m : Overflow) (target : Vector UInt8 32) :
    Call RelayScore ε Unit := do
  recordFailure m
  modify (countTarget target fun entry ↦ (entry.1, entry.2.saturatingAdd 1))

/-! ## Calls -/

/-- What is asked of a score. -/
inductive Request
  | recordSuccess (receipt : RelayReceipt)
  | recordSuccessAt (receipt : RelayReceipt) (nowMs : UInt64)
  | recordSuccessForTarget (receipt : RelayReceipt) (target : Vector UInt8 32)
  | recordFailure
  | recordFailureAt (nowMs : UInt64)
  | recordFailureForTarget (target : Vector UInt8 32)
  | slash (penalty : Int64) (proof : SlashingProof)

/-- The errors of the calls. -/
inductive ScoringError
  | receipt (e : RelayReceiptError)
  | slashing (e : SlashingError)

/-- The call that a request makes. -/
def handle (m : Overflow) (K : Crypto) : Request → Call RelayScore ScoringError Unit
  | .recordSuccess receipt => Call.mapError .receipt (RelayScore.recordSuccess m K receipt)
  | .recordSuccessAt receipt nowMs =>
    Call.mapError .receipt (RelayScore.recordSuccessAt m K receipt nowMs)
  | .recordSuccessForTarget receipt target =>
    Call.mapError .receipt (RelayScore.recordSuccessForTarget m K receipt target)
  | .recordFailure => RelayScore.recordFailure m
  | .recordFailureAt nowMs => RelayScore.recordFailureAt m nowMs
  | .recordFailureForTarget target => RelayScore.recordFailureForTarget m target
  | .slash penalty proof => Call.mapError .slashing (RelayScore.slash K penalty proof)

/-- The receipt of a request to record a success. -/
def Request.receipt : Request → Option RelayReceipt
  | .recordSuccess receipt | .recordSuccessAt receipt _ | .recordSuccessForTarget receipt _ =>
    some receipt
  | _ => none

/-- The request is to record a failure. -/
def Request.isFailure : Request → Bool
  | .recordFailure | .recordFailureAt _ | .recordFailureForTarget _ => true
  | _ => false

/-- A request, the score that it was made of, and what the call returned. -/
structure Handled where
  before : RelayScore
  request : Request
  result : Except ScoringError Unit

/-- The score of a relay. -/
def system (m : Overflow) (K : Crypto) (relayId : String) : System RelayScore Handled where
  init := fun s ↦ s = new relayId
  step := fun s a s' ↦ a.before = s ∧ (handle m K a.request).exec s = some (a.result, s')

/-! ## What a call does -/

/-- The successes that are counted for all targets together. -/
def successes (s : RelayScore) : ℕ :=
  HashMap.total (fun _ counts ↦ counts.1.toNat) s.perTargetCounts

/-- What a success does to the fields that its variants have in common. -/
structure Credits (m : Overflow) (hash : BlockHash) (s s' : RelayScore) : Prop where
  relayId : s'.relayId = s.relayId
  fresh : hash ∉ s.creditedMessages.toFinset
  credited : s'.creditedMessages.toFinset = insert hash s.creditedMessages.toFinset
  relayed : s.messagesRelayed.plus m 1 = some s'.messagesRelayed
  failed : s'.messagesFailed = s.messagesFailed
  score : s.score.plus m 1 = some s'.score
  successes : s'.successes ≤ s.successes + 1

/-- What a failure does to them. -/
structure Fails (m : Overflow) (s s' : RelayScore) : Prop where
  relayId : s'.relayId = s.relayId
  credited : s'.creditedMessages = s.creditedMessages
  relayed : s'.messagesRelayed = s.messagesRelayed
  failed : s.messagesFailed.plus m 1 = some s'.messagesFailed
  score : s.score.minus m 5 = some s'.score
  successes : s'.successes = s.successes

/-- The two scores differ in what is kept on the side. -/
structure SameScore (s s' : RelayScore) : Prop where
  relayId : s'.relayId = s.relayId
  credited : s'.creditedMessages = s.creditedMessages
  relayed : s'.messagesRelayed = s.messagesRelayed
  failed : s'.messagesFailed = s.messagesFailed
  score : s'.score = s.score

variable {m : Overflow} {K : Crypto} {s s' s₁ : RelayScore} {receipt : RelayReceipt}
  {hash : BlockHash} {ε : Type}

theorem sameScore_logEvent (nowMs : UInt64) (delta : Int32) (s : RelayScore) :
    SameScore s (logEvent nowMs delta s) := ⟨rfl, rfl, rfl, rfl, rfl⟩

theorem sameScore_countTarget (target : Vector UInt8 32) (f : UInt64 × UInt64 → UInt64 × UInt64)
    (s : RelayScore) : SameScore s (countTarget target f s) := ⟨rfl, rfl, rfl, rfl, rfl⟩

/-- **A target's counts** are exchanged for the new ones. -/
theorem successes_countTarget (target : Vector UInt8 32) (f : UInt64 × UInt64 → UInt64 × UInt64)
    (s : RelayScore) :
    (countTarget target f s).successes + ((s.perTargetCounts.lookup target).getD (0, 0)).1.toNat =
      s.successes + (f ((s.perTargetCounts.lookup target).getD (0, 0))).1.toNat := by
  have hentry := HashMap.lookup_orInsert_self s.perTargetCounts target (0, 0)
  have hinsert := HashMap.total_insert (fun _ counts ↦ counts.1.toNat)
    (s.perTargetCounts.orInsert target (0, 0)) target
    (f (((s.perTargetCounts.orInsert target (0, 0)).lookup target).getD (0, 0)))
  rw [hentry, Option.elim_some, Option.getD_some, HashMap.total_orInsert rfl] at hinsert
  rw [successes, countTarget]
  dsimp only
  rw [hentry, Option.getD_some]
  exact hinsert

theorem Credits.of_sameScore (h : Credits m hash s s₁) (hsame : SameScore s₁ s')
    (hsuccesses : s'.successes ≤ s.successes + 1) : Credits m hash s s' where
  relayId := hsame.relayId.trans h.relayId
  fresh := h.fresh
  credited := hsame.credited ▸ h.credited
  relayed := hsame.relayed ▸ h.relayed
  failed := hsame.failed.trans h.failed
  score := hsame.score ▸ h.score
  successes := hsuccesses

theorem Fails.of_sameScore (h : Fails m s s₁) (hsame : SameScore s₁ s')
    (hsuccesses : s'.successes = s₁.successes) : Fails m s s' where
  relayId := hsame.relayId.trans h.relayId
  credited := hsame.credited.trans h.credited
  relayed := hsame.relayed.trans h.relayed
  failed := hsame.failed ▸ h.failed
  score := hsame.score ▸ h.score
  successes := hsuccesses.trans h.successes

/-- **A success is recorded**, or rejected and nothing is written. -/
theorem recordSuccess_cases {result : Except RelayReceiptError Unit}
    (hexec : (recordSuccess m K receipt).exec s = some (result, s')) :
    ((∃ e, result = .error e) ∧ s' = s) ∨
      ∃ hash, result = .ok () ∧ creditable K receipt s = .ok hash ∧ Credits m hash s s' ∧
        s'.successes = s.successes := by
  rw [recordSuccess, Call.exec_bind_ok (Call.exec_get s)] at hexec
  rcases Call.exec_check_cases hexec with hrejected | ⟨hash, hhash, hexec⟩
  · exact .inl hrejected
  obtain ⟨⟨fresh, credited⟩, hinsert, hexec⟩ := Call.exec_orPanic_bind_eq_some.mp hexec
  rcases Call.exec_check_cases hexec with hrejected | ⟨_, hfresh, hexec⟩
  · exact .inl hrejected
  obtain rfl : fresh = true := ensure_eq_ok.mp hfresh
  obtain ⟨relayed, hrelayed, hexec⟩ := Call.exec_orPanic_bind_eq_some.mp hexec
  obtain ⟨score, hscore, hexec⟩ := Call.exec_orPanic_bind_eq_some.mp hexec
  obtain ⟨hok, rfl⟩ := Call.exec_set_eq_some.mp hexec
  obtain ⟨hfresh, hcredited⟩ := HashSet.insert_eq_true hinsert
  exact .inr ⟨hash, hok, hhash, ⟨rfl, hfresh, hcredited, hrelayed, rfl, hscore, Nat.le_succ _⟩, rfl⟩

/-- **A failure is recorded.** -/
theorem recordFailure_cases {result : Except ε Unit}
    (hexec : (recordFailure m : Call RelayScore ε Unit).exec s = some (result, s')) :
    result = .ok () ∧ Fails m s s' := by
  rw [recordFailure, Call.exec_bind_ok (Call.exec_get s)] at hexec
  obtain ⟨failed, hfailed, hexec⟩ := Call.exec_orPanic_bind_eq_some.mp hexec
  obtain ⟨score, hscore, hexec⟩ := Call.exec_orPanic_bind_eq_some.mp hexec
  obtain ⟨hok, rfl⟩ := Call.exec_set_eq_some.mp hexec
  exact ⟨hok, rfl, rfl, rfl, hfailed, hscore, rfl⟩

/-- **A penalty is applied**, or rejected. -/
theorem slash_cases {penalty : Int64} {proof : SlashingProof} {result : Except SlashingError Unit}
    (hexec : (slash K penalty proof).exec s = some (result, s')) :
    ((∃ e, result = .error e) ∧ s' = s) ∨
      result = .ok () ∧ 0 ≤ penalty ∧ s' = { s with score := s.score.saturatingSub penalty } := by
  rw [slash] at hexec
  rcases Call.exec_check_cases hexec with hrejected | ⟨_, hpenalty, hexec⟩
  · exact .inl hrejected
  rw [Call.exec_bind_ok (Call.exec_get s)] at hexec
  rcases Call.exec_check_cases hexec with hrejected | ⟨_, -, hexec⟩
  · exact .inl hrejected
  rcases Call.exec_check_cases hexec with hrejected | ⟨_, -, hexec⟩
  · exact .inl hrejected
  obtain ⟨hok, hnew⟩ := Call.exec_set_eq_some.mp hexec
  exact .inr ⟨hok, ensure_eq_ok.mp hpenalty, hnew⟩

/-- A call that is followed by an update of the receiver. -/
theorem modify_cases {x : Call RelayScore ε Unit} {f : RelayScore → RelayScore}
    {result : Except ε Unit}
    (hexec : (do x; modify f : Call RelayScore ε Unit).exec s = some (result, s')) :
    (∃ e, result = .error e ∧ x.exec s = some (.error e, s')) ∨
      ∃ s₁, result = .ok () ∧ x.exec s = some (.ok (), s₁) ∧ s' = f s₁ := by
  rcases Call.exec_bind_cases hexec with h | ⟨_, s₁, hx, hmodify⟩
  · exact .inl h
  · rw [Call.exec_modify, Option.some_inj, Prod.mk.injEq] at hmodify
    exact .inr ⟨s₁, hmodify.1.symm, hx, hmodify.2.symm⟩

/-- Recording a success is the same whatever is kept on the side, as long as that counts at most
one success more. -/
theorem recordSuccess_modify_cases {f : RelayScore → RelayScore}
    {result : Except RelayReceiptError Unit} (hsame : ∀ s, SameScore s (f s))
    (hsuccesses : ∀ s, (f s).successes ≤ s.successes + 1)
    (hexec : (do recordSuccess m K receipt; modify f : Call RelayScore RelayReceiptError Unit).exec
      s = some (result, s')) :
    ((∃ e, result = .error e) ∧ s' = s) ∨
      ∃ hash, result = .ok () ∧ creditable K receipt s = .ok hash ∧ Credits m hash s s' := by
  rcases modify_cases hexec with ⟨e, rfl, hrecord⟩ | ⟨s₁, rfl, hrecord, rfl⟩
  · rcases recordSuccess_cases hrecord with ⟨-, rfl⟩ | ⟨_, hok, -⟩
    · exact .inl ⟨⟨e, rfl⟩, rfl⟩
    · cases hok
  · rcases recordSuccess_cases hrecord with ⟨⟨_, herror⟩, -⟩ | ⟨hash, -, hhash, hcredits, hkept⟩
    · cases herror
    · exact .inr ⟨hash, rfl, hhash,
        hcredits.of_sameScore (hsame s₁) (hkept ▸ hsuccesses s₁)⟩

/-- So it is with a failure, as long as no success is counted. -/
theorem recordFailure_modify_cases {f : RelayScore → RelayScore} {result : Except ε Unit}
    (hsame : ∀ s, SameScore s (f s)) (hsuccesses : ∀ s, (f s).successes = s.successes)
    (hexec : (do recordFailure m; modify f : Call RelayScore ε Unit).exec s =
      some (result, s')) : result = .ok () ∧ Fails m s s' := by
  rcases modify_cases hexec with ⟨e, -, hrecord⟩ | ⟨s₁, hok, hrecord, rfl⟩
  · cases (recordFailure_cases hrecord).1
  · exact ⟨hok, (recordFailure_cases hrecord).2.of_sameScore (hsame s₁) (hsuccesses s₁)⟩

theorem mapError_cases {ε' : Type} {x : Call RelayScore ε Unit} {f : ε → ε'}
    {result : Except ε' Unit} (hexec : (Call.mapError f x).exec s = some (result, s')) :
    ∃ r, x.exec s = some (r, s') ∧ result = r.mapError f := by
  rw [Call.exec_mapError, Option.map_eq_some_iff] at hexec
  obtain ⟨⟨r, s₁⟩, hx, hpair⟩ := hexec
  obtain ⟨rfl, rfl⟩ := Prod.mk.inj hpair
  exact ⟨r, hx, rfl⟩

theorem Request.receipt_eq_none {request : Request} (hfailure : request.isFailure = true) :
    request.receipt = none := by
  rcases request with _ | _ | _ | _ | _ | _ | _
  case recordFailure | recordFailureAt | recordFailureForTarget => rfl
  all_goals cases hfailure

/-- A request that is neither for a success nor for a failure is for a slash. -/
theorem Request.eq_slash {request : Request} (hreceipt : request.receipt = none)
    (hfailure : ¬ request.isFailure = true) :
    ∃ penalty proof, request = .slash penalty proof := by
  rcases request with _ | _ | _ | _ | _ | _ | ⟨penalty, proof⟩
  case slash => exact ⟨penalty, proof, rfl⟩
  all_goals simp [Request.receipt, Request.isFailure] at hreceipt hfailure

/-- An update that changes nothing does not show. -/
theorem exec_modify_id (x : Call RelayScore ε Unit) (s : RelayScore) :
    (do x; modify id : Call RelayScore ε Unit).exec s = x.exec s := by
  rw [Call.exec_bind]
  rcases x.exec s with _ | ⟨_ | _, s'⟩
  · rfl
  · rfl
  · rfl

/-- **The variants of a success** are the plain call and an update on the side. -/
theorem exists_modify_success {request : Request} (hreceipt : request.receipt = some receipt) :
    ∃ f, (∀ s, SameScore s (f s)) ∧ (∀ s, (f s).successes ≤ s.successes + 1) ∧
      ∀ m K s, (handle m K request).exec s =
        (Call.mapError .receipt (do recordSuccess m K receipt; modify f)).exec s := by
  rcases request with receipt | ⟨receipt, nowMs⟩ | ⟨receipt, target⟩ | _ | _ | _ | _
  case recordSuccess =>
    obtain rfl := Option.some_inj.mp hreceipt
    refine ⟨id, fun _ ↦ ⟨rfl, rfl, rfl, rfl, rfl⟩, fun s ↦ Nat.le_succ s.successes, fun m K s ↦ ?_⟩
    rw [Call.exec_mapError, exec_modify_id, handle, Call.exec_mapError]
  case recordSuccessAt =>
    obtain rfl := Option.some_inj.mp hreceipt
    exact ⟨_, sameScore_logEvent nowMs SUCCESS_DELTA, fun s ↦ Nat.le_succ s.successes,
      fun _ _ _ ↦ rfl⟩
  case recordSuccessForTarget =>
    obtain rfl := Option.some_inj.mp hreceipt
    refine ⟨_, sameScore_countTarget target _, fun s ↦ ?_, fun _ _ _ ↦ rfl⟩
    have hcounts := successes_countTarget target
      (fun entry ↦ (entry.1.saturatingAdd 1, entry.2)) s
    rw [UInt64.toNat_saturatingAdd, UInt64.toNat_one] at hcounts
    omega
  all_goals cases hreceipt

/-- So are those of a failure. -/
theorem exists_modify_failure {request : Request} (hfailure : request.isFailure = true) :
    ∃ f, (∀ s, SameScore s (f s)) ∧ (∀ s, (f s).successes = s.successes) ∧
      ∀ m K s, (handle m K request).exec s =
        (do recordFailure m; modify f : Call RelayScore ScoringError Unit).exec s := by
  rcases request with _ | _ | _ | _ | nowMs | target | _
  case recordFailure =>
    refine ⟨id, fun _ ↦ ⟨rfl, rfl, rfl, rfl, rfl⟩, fun _ ↦ rfl, fun m K s ↦ ?_⟩
    rw [exec_modify_id, handle]
  case recordFailureAt =>
    exact ⟨_, sameScore_logEvent nowMs FAILURE_DELTA, fun _ ↦ rfl, fun _ _ _ ↦ rfl⟩
  case recordFailureForTarget =>
    exact ⟨_, sameScore_countTarget target _,
      fun s ↦ Nat.add_right_cancel (successes_countTarget target _ s), fun _ _ _ ↦ rfl⟩
  all_goals cases hfailure

/-- The requests that have a receipt credit its message, or are rejected. -/
theorem handle_success_cases {request : Request} {result : Except ScoringError Unit}
    (hreceipt : request.receipt = some receipt)
    (hexec : (handle m K request).exec s = some (result, s')) :
    ((∃ e, result = .error e) ∧ s' = s) ∨
      ∃ hash, result = .ok () ∧ creditable K receipt s = .ok hash ∧ Credits m hash s s' := by
  obtain ⟨f, hsame, hsuccesses, heq⟩ := exists_modify_success hreceipt
  rw [heq] at hexec
  obtain ⟨r, hrecord, rfl⟩ := mapError_cases hexec
  rcases recordSuccess_modify_cases hsame hsuccesses hrecord with
    ⟨⟨e, rfl⟩, hsame⟩ | ⟨hash, rfl, hcredits⟩
  · exact .inl ⟨⟨_, rfl⟩, hsame⟩
  · exact .inr ⟨hash, rfl, hcredits⟩

theorem handle_failure_cases {request : Request} {result : Except ScoringError Unit}
    (hfailure : request.isFailure = true)
    (hexec : (handle m K request).exec s = some (result, s')) :
    result = .ok () ∧ Fails m s s' := by
  obtain ⟨f, hsame, hsuccesses, heq⟩ := exists_modify_failure hfailure
  rw [heq] at hexec
  exact recordFailure_modify_cases hsame hsuccesses hexec

/-- **What a call does**: nothing if it is rejected, and otherwise it credits a message, counts a
failure or takes a penalty from the score. -/
theorem handle_cases {request : Request} {result : Except ScoringError Unit}
    (hexec : (handle m K request).exec s = some (result, s')) :
    ((∃ e, result = .error e) ∧ s' = s) ∨ result = .ok () ∧
      ((∃ receipt hash, request.receipt = some receipt ∧ creditable K receipt s = .ok hash ∧
          Credits m hash s s') ∨
        (request.receipt = none ∧ request.isFailure = true ∧ Fails m s s') ∨
        ∃ penalty proof, request = .slash penalty proof ∧ 0 ≤ penalty ∧
          s' = { s with score := s.score.saturatingSub penalty }) := by
  rcases hreceipt : request.receipt with _ | receipt
  · by_cases hfailure : request.isFailure = true
    · obtain ⟨hok, hfails⟩ := handle_failure_cases hfailure hexec
      exact .inr ⟨hok, .inr (.inl ⟨rfl, hfailure, hfails⟩)⟩
    obtain ⟨penalty, proof, rfl⟩ := Request.eq_slash hreceipt hfailure
    obtain ⟨r, hr, rfl⟩ := mapError_cases hexec
    rcases slash_cases hr with ⟨⟨e, rfl⟩, hsame⟩ | ⟨rfl, hpenalty, hnew⟩
    · exact .inl ⟨⟨_, rfl⟩, hsame⟩
    · exact .inr ⟨rfl, .inr (.inr ⟨penalty, proof, rfl, hpenalty, hnew⟩)⟩
  · refine (handle_success_cases hreceipt hexec).imp_right ?_
    rintro ⟨hash, hok, hhash, hcredits⟩
    exact ⟨hok, .inl ⟨receipt, hash, rfl, hhash, hcredits⟩⟩

end RelayScore

end Arxia
