import Arxia.Relay.Credits

/-!
# Penalties

A slash saturates, so slashes can take a score to the end of its range. A failure does not: there
its plain subtraction overflows, and without overflow checks it turns the score positive.

As long as each failure finds the five points that it takes, the score plus five for each failure is
at most a hundred and the number of credited messages. That number is bounded by memory, so neither
the score nor a counter comes near the upper end of its range.
-/

namespace Arxia

open Rust Transition

namespace RelayScore

/-- What is expected of a call. -/
structure Lawful (m : Overflow) (K : Crypto) (s : RelayScore) (request : Request) : Prop where
  /-- A failure, or a slash that succeeds, does not raise the score. -/
  penalty : ∀ s', request.receipt = none → (handle m K request).exec s = some (.ok (), s') →
    s'.score ≤ s.score
  /-- With overflow checks the call does not panic, if there is memory for its message. -/
  inRange : (∀ receipt hash, request.receipt = some receipt → creditable K receipt s = .ok hash →
      s.creditedMessages.insert hash ≠ none) →
    (handle .panics K request).exec s ≠ none
  /-- Trust is gained by successes. -/
  trust : ∀ result s', (handle m K request).exec s = some (result, s') → s.isTrusted = false →
    s'.isTrusted = true → request.receipt ≠ none ∧ result = .ok ()

/-- There is room in the score for the penalty of a failure. -/
def RoomToFail (s : RelayScore) (request : Request) : Prop :=
  request.isFailure = true → i64Min + 5 ≤ s.score.toInt

instance (s : RelayScore) (request : Request) : Decidable (RoomToFail s request) :=
  inferInstanceAs (Decidable (_ → _))

/-- What bounds the score and the counters. -/
structure Bounded (s : RelayScore) : Prop where
  score_add_le : s.score.toInt + 5 * s.messagesFailed.toNat ≤ 100 + s.messagesRelayed.toNat
  relayed_lt : s.messagesRelayed.toNat < 2 ^ 58

variable {m : Overflow} {K : Crypto} {relayId : String} {s s' : RelayScore} {tr : List Handled}
  {request : Request} {ε : Type}

/-! ## Arithmetic in range -/

/-- **A slash** leaves the score where it is or lower. -/
theorem toInt_saturatingSub_le {penalty : Int64} (hpenalty : 0 ≤ penalty) (score : Int64) :
    (score.saturatingSub penalty).toInt ≤ score.toInt := by
  have hnonneg := Int64.le_iff_toInt_le.mp hpenalty
  have hmin := score.i64Min_le_toInt
  rw [Int64.toInt_zero] at hnonneg
  rw [Int64.toInt_saturatingSub, clampI64]
  omega

/-- **A success** is within the range of the score, -/
theorem Bounded.score_le (h : Bounded s) : s.score.toInt + (1 : Int64).toInt ≤ i64Max := by
  have hscore := h.score_add_le
  have hrelayed := h.relayed_lt
  rw [Int64.toInt_one, i64Max]
  omega

/-- of the counter of successes, -/
theorem Bounded.relayed_le (h : Bounded s) :
    s.messagesRelayed.toNat + (1 : UInt64).toNat ≤ u64Max := by
  have hrelayed := h.relayed_lt
  rw [UInt64.toNat_one, u64Max]
  omega

/-- and a failure is within the range of its counter. -/
theorem Bounded.failed_le (h : Bounded s) :
    s.messagesFailed.toNat + (1 : UInt64).toNat ≤ u64Max := by
  have hscore := h.score_add_le
  have hrelayed := h.relayed_lt
  have hmin := s.score.i64Min_le_toInt
  rw [i64Min] at hmin
  rw [UInt64.toNat_one, u64Max]
  omega

theorem le_score_plus (score : Int64) : i64Min ≤ score.toInt + (1 : Int64).toInt := by
  have hmin := score.i64Min_le_toInt
  rw [Int64.toInt_one]
  omega

theorem toInt_five : (5 : Int64).toInt = 5 := by decide

theorem score_minus_le (score : Int64) : score.toInt - (5 : Int64).toInt ≤ i64Max := by
  have hmax := score.toInt_le_i64Max
  rw [toInt_five]
  omega

theorem le_score_minus (hroom : i64Min + 5 ≤ s.score.toInt) :
    i64Min ≤ s.score.toInt - (5 : Int64).toInt := by
  rw [toInt_five]
  omega

/-! ## Runs -/

/-- One step keeps the bound, if it has room. -/
theorem Bounded.step (h : Bounded s) (hroom : RoomToFail s request)
    (hrelayed : s'.messagesRelayed.toNat < 2 ^ 58) {result : Except ScoringError Unit}
    (hexec : (handle m K request).exec s = some (result, s')) : Bounded s' := by
  have hscore := h.score_add_le
  rcases handle_cases hexec with ⟨-, rfl⟩ | ⟨-, hcase⟩
  · exact h
  rcases hcase with ⟨_, _, -, -, hcredits⟩ | ⟨-, hfailure, hfails⟩ | ⟨penalty, _, -, hpenalty, rfl⟩
  · have hnew := (Int64.plus_eq_some (le_score_plus s.score) h.score_le).mp hcredits.score
    have hcount := (UInt64.plus_eq_some_of_le h.relayed_le).mp hcredits.relayed
    refine ⟨?_, hrelayed⟩
    rw [hcredits.failed, hnew, hcount, Int64.toInt_one, UInt64.toNat_one]
    push_cast
    omega
  · -- a failure takes five from the score and adds one to the failures
    have hroom' := le_score_minus (hroom hfailure)
    have hnew := (Int64.minus_eq_some hroom' (score_minus_le s.score)).mp hfails.score
    have hcount := (UInt64.plus_eq_some_of_le h.failed_le).mp hfails.failed
    refine ⟨?_, hrelayed⟩
    rw [hfails.relayed, hnew, hcount, toInt_five, UInt64.toNat_one]
    push_cast
    omega
  · -- a penalty is not in the counters, and it only lowers the score
    have hle := toInt_saturatingSub_le hpenalty s.score
    refine ⟨?_, hrelayed⟩
    dsimp only
    omega

/-- **In runs with room** the score and the counters are bounded. -/
theorem bounded_of_room (run : (system m K relayId).Run tr s)
    (hroom : ∀ call ∈ tr, RoomToFail call.before call.request) : Bounded s := by
  refine run.invariant (I := fun tr s ↦
    (∀ call ∈ tr, RoomToFail call.before call.request) → Bounded s) ?_ ?_ hroom
  · rintro s rfl -
    constructor
    · dsimp only [new]
      decide
    · dsimp only [new]
      decide
  · rintro tr _ ⟨s, request, result⟩ s' run ih ⟨rfl, hexec⟩ hroom
    have hnext := hroom _ (List.mem_append_right _ (List.mem_singleton_self _))
    refine (ih fun call hcall ↦ hroom call (List.mem_append_left _ hcall)).step hnext ?_ hexec
    have run' : (system m K relayId).Run (tr ++ [⟨s, request, result⟩]) s' :=
      run.step ⟨rfl, hexec⟩
    rw [(booked_of_run run').relayed]
    exact card_credited_lt s'

/-! ## Calls without a panic -/

theorem modify_ne_none {x : Call RelayScore ε Unit} (f : RelayScore → RelayScore)
    (h : x.exec s ≠ none) : (do x; modify f : Call RelayScore ε Unit).exec s ≠ none :=
  Call.exec_bind_ne_none h fun _ s₁ _ ↦ by
    rw [Call.exec_modify]
    exact Option.some_ne_none _

theorem mapError_ne_none {ε' : Type} {x : Call RelayScore ε Unit} (f : ε → ε')
    (h : x.exec s ≠ none) : (Call.mapError f x).exec s ≠ none := by
  rw [Call.exec_mapError]
  exact fun hnone ↦ h (Option.map_eq_none_iff.mp hnone)

theorem Bounded.recordSuccess_ne_none (h : Bounded s) {receipt : RelayReceipt}
    (hmemory : ∀ hash, creditable K receipt s = .ok hash →
      s.creditedMessages.insert hash ≠ none) : (recordSuccess m K receipt).exec s ≠ none := by
  rw [recordSuccess, Call.exec_bind_ok (Call.exec_get s)]
  rcases hhash : creditable K receipt s with e | hash
  · rw [Call.exec_check_error rfl]
    exact Option.some_ne_none _
  obtain ⟨⟨fresh, credited⟩, hinsert⟩ := Option.ne_none_iff_exists'.mp (hmemory hash hhash)
  rw [Call.exec_check_ok rfl, Call.exec_some hinsert]
  rcases fresh with _ | _
  · rw [Call.exec_ensure_error (by simp)]
    exact Option.some_ne_none _
  rw [Call.exec_ensure_ok rfl, Call.exec_some (UInt64.plus_of_le m h.relayed_le),
    Call.exec_some (Int64.plus_of_mem m (le_score_plus s.score) h.score_le), Call.exec_set]
  exact Option.some_ne_none _

theorem Bounded.recordFailure_ne_none (h : Bounded s) (hroom : i64Min + 5 ≤ s.score.toInt) :
    (recordFailure m : Call RelayScore ε Unit).exec s ≠ none := by
  rw [recordFailure, Call.exec_bind_ok (Call.exec_get s),
    Call.exec_some (UInt64.plus_of_le m h.failed_le),
    Call.exec_some (Int64.minus_of_mem m (le_score_minus hroom) (score_minus_le s.score)),
    Call.exec_set]
  exact Option.some_ne_none _

/-- A failure without room overflows. -/
theorem recordFailure_eq_none (hroom : ¬ i64Min + 5 ≤ s.score.toInt) :
    (recordFailure .panics : Call RelayScore ε Unit).exec s = none := by
  have hscore : s.score.minus .panics 5 = none := by
    apply Int64.plain_panics_eq_none
    rw [toInt_five]
    omega
  rw [recordFailure, Call.exec_bind_ok (Call.exec_get s)]
  rcases s.messagesFailed.plus .panics 1 with _ | failed
  · exact Call.exec_none rfl s
  · rw [Call.exec_some rfl, Call.exec_none hscore]

theorem slash_ne_none (K : Crypto) (penalty : Int64) (proof : SlashingProof) (s : RelayScore) :
    (slash K penalty proof).exec s ≠ none := by
  refine Call.exec_bind_ne_none (by simp) fun _ s₁ _ ↦ ?_
  refine Call.exec_bind_ne_none (by simp) fun _ s₂ _ ↦ ?_
  refine Call.exec_bind_ne_none (by simp) fun _ s₃ _ ↦ ?_
  refine Call.exec_bind_ne_none (by simp) fun _ s₄ _ ↦ ?_
  rw [Call.exec_set]
  exact Option.some_ne_none _

theorem exec_slash {penalty : Int64} {proof : SlashingProof} (hpenalty : 0 ≤ penalty)
    (htarget : proof.targetRelayId = s.relayId) (hverify : proof.verify K = .ok ()) :
    (slash K penalty proof).exec s =
      some (.ok (), { s with score := s.score.saturatingSub penalty }) := by
  rw [slash, Call.exec_ensure_ok hpenalty, Call.exec_bind_ok (Call.exec_get s),
    Call.exec_ensure_ok htarget, Call.exec_check_ok hverify, Call.exec_set]

/-- **No call panics** that has room and memory. -/
theorem Bounded.handle_ne_none (h : Bounded s) (hroom : RoomToFail s request)
    (hmemory : ∀ receipt hash, request.receipt = some receipt → creditable K receipt s = .ok hash →
      s.creditedMessages.insert hash ≠ none) : (handle m K request).exec s ≠ none := by
  rcases hreceipt : request.receipt with _ | receipt
  · by_cases hfailure : request.isFailure = true
    · obtain ⟨f, -, -, heq⟩ := exists_modify_failure hfailure
      rw [heq]
      exact modify_ne_none f (h.recordFailure_ne_none (hroom hfailure))
    · obtain ⟨penalty, proof, rfl⟩ := Request.eq_slash hreceipt hfailure
      exact mapError_ne_none _ (slash_ne_none K penalty proof s)
  · obtain ⟨f, -, -, heq⟩ := exists_modify_success hreceipt
    rw [heq]
    refine mapError_ne_none _ (modify_ne_none f (h.recordSuccess_ne_none fun hash ↦ ?_))
    exact hmemory receipt hash hreceipt

/-! ## When penalties are lawful -/

theorem Bounded.lawful (h : Bounded s) (hroom : RoomToFail s request) : Lawful m K s request := by
  have hpenalty : ∀ s', request.receipt = none → (handle m K request).exec s = some (.ok (), s') →
      s'.score ≤ s.score := by
    intro s' hreceipt hexec
    rcases handle_cases hexec with ⟨⟨_, herror⟩, -⟩ | ⟨-, hcase⟩
    · cases herror
    rcases hcase with ⟨_, _, hsome, -⟩ | ⟨-, hfailure, hfails⟩ | ⟨penalty, _, -, hpenalty, rfl⟩
    · rw [hreceipt] at hsome
      cases hsome
    · have hroom' := le_score_minus (hroom hfailure)
      have hnew := (Int64.minus_eq_some hroom' (score_minus_le s.score)).mp hfails.score
      rw [Int64.le_iff_toInt_le, hnew, toInt_five]
      omega
    · exact Int64.le_iff_toInt_le.mpr (toInt_saturatingSub_le hpenalty s.score)
  refine ⟨hpenalty, h.handle_ne_none hroom, fun result s' hexec huntrusted htrusted ↦ ?_⟩
  rcases handle_cases hexec with ⟨-, rfl⟩ | ⟨rfl, -⟩
  · rw [huntrusted] at htrusted
    cases htrusted
  · refine ⟨fun hreceipt ↦ ?_, rfl⟩
    -- a score that is not higher is not trusted either
    have hle := hpenalty s' hreceipt hexec
    rw [isTrusted, isTrustedWithThreshold, decide_eq_true_iff] at htrusted
    rw [isTrusted, isTrustedWithThreshold, decide_eq_false_iff_not] at huntrusted
    exact huntrusted (Int64.le_trans htrusted hle)

theorem Lawful.roomToFail (h : Lawful m K s request) : RoomToFail s request := by
  intro hfailure
  by_contra hroom
  refine h.inRange (fun receipt hash hreceipt ↦ ?_) ?_
  · rw [Request.receipt_eq_none hfailure] at hreceipt
    cases hreceipt
  · obtain ⟨f, -, -, heq⟩ := exists_modify_failure hfailure
    rw [heq, Call.exec_bind, recordFailure_eq_none hroom, Option.bind_none]

/-! ## Two slashes and a failure -/

/-- The attestation of an observer against the relay. -/
def signedProof : SlashingProof :=
  let observer : AccountId := Vector.replicate 32 0xbb
  let proof : SlashingProof := {
    observerPubkey := observer
    targetRelayId := relayName
    reason := "equivocation"
    signature := [] }
  { proof with
    signature := match proof.canonicalMessage Reference.crypto with
      | .ok msg => (Reference.sign observer msg).toList
      | .error _ => [] }

/-- A score that slashes have taken to the end of its range. -/
def slashed : RelayScore := { new relayName with score := Int64.minValue }

theorem exec_slash_signedProof (hrelay : s.relayId = relayName) :
    (handle m Reference.crypto (.slash Int64.maxValue signedProof)).exec s =
      some (.ok (), { s with score := s.score.saturatingSub Int64.maxValue }) := by
  have hverify : signedProof.verify Reference.crypto = .ok () := by decide +kernel
  have hslash := exec_slash (s := s) (by decide : 0 ≤ Int64.maxValue) hrelay.symm hverify
  rw [handle, Call.exec_mapError, hslash]
  rfl

/-- Two slashes are enough. -/
theorem exists_run_slashed (m : Overflow) :
    ∃ tr, (system m Reference.crypto relayName).Run tr slashed := by
  let once : RelayScore :=
    { new relayName with score := (100 : Int64).saturatingSub Int64.maxValue }
  have htwice : { once with score := once.score.saturatingSub Int64.maxValue } = slashed :=
    congrArg (fun score ↦ { new relayName with score := score })
      (by decide : ((100 : Int64).saturatingSub Int64.maxValue).saturatingSub Int64.maxValue =
        Int64.minValue)
  have run : (system m Reference.crypto relayName).Run
      ([] ++ [⟨new relayName, .slash Int64.maxValue signedProof, .ok ()⟩] ++
        [⟨once, .slash Int64.maxValue signedProof, .ok ()⟩]) slashed :=
    .step (.step (.start rfl) ⟨rfl, exec_slash_signedProof rfl⟩)
      ⟨rfl, htwice ▸ exec_slash_signedProof rfl⟩
  exact ⟨_, run⟩

/-- There is no room for the penalty of a failure then. -/
theorem not_roomToFail_slashed : ¬ RoomToFail slashed .recordFailure := by decide

/-- **Penalties are lawful** in just the runs in which each failure finds room for its penalty. -/
theorem lawful_iff (run : (system m K relayId).Run tr s) (request : Request) :
    ((∀ call ∈ tr, Lawful m K call.before call.request) ∧ Lawful m K s request) ↔
      (∀ call ∈ tr, RoomToFail call.before call.request) ∧ RoomToFail s request := by
  constructor
  · rintro ⟨hcalls, hnext⟩
    exact ⟨fun call hcall ↦ (hcalls call hcall).roomToFail, hnext.roomToFail⟩
  · rintro ⟨hcalls, hnext⟩
    refine ⟨fun call hcall ↦ ?_, (bounded_of_room run hcalls).lawful hnext⟩
    obtain ⟨before, rest, rfl⟩ := List.append_of_mem hcall
    obtain ⟨t, -, run₀, ⟨rfl, -⟩, -⟩ := run.exists_step
    have hbefore : ∀ call' ∈ before, RoomToFail call'.before call'.request := fun call' hcall' ↦
      hcalls call' (List.mem_append_left _ hcall')
    exact (bounded_of_room run₀ hbefore).lawful (hcalls call hcall)

/-- A score that has been slashed twice. -/
theorem lawful_iff_slashed : ∃ tr, (system .panics Reference.crypto relayName).Run tr slashed ∧
    ∀ request,
      ((∀ call ∈ tr, Lawful .panics Reference.crypto call.before call.request) ∧
          Lawful .panics Reference.crypto slashed request) ↔
        (∀ call ∈ tr, RoomToFail call.before call.request) ∧ RoomToFail slashed request := by
  obtain ⟨tr, run⟩ := exists_run_slashed .panics
  exact ⟨tr, run, fun request ↦ lawful_iff run request⟩

/-- After two slashes a failure panics, or it raises the score and the relay is trusted again. -/
theorem not_lawful :
    (∃ tr s, (system .panics Reference.crypto relayName).Run tr s ∧
      ¬ Lawful .panics Reference.crypto s .recordFailure ∧
      (handle .panics Reference.crypto .recordFailure).exec s = none) ∧
    ∃ tr s s', (system .wraps Reference.crypto relayName).Run tr s ∧
      ¬ Lawful .wraps Reference.crypto s .recordFailure ∧
      (handle .wraps Reference.crypto .recordFailure).exec s = some (.ok (), s') ∧
      s.score < s'.score ∧ s.isTrusted = false ∧ s'.isTrusted = true := by
  have hroom := not_roomToFail_slashed
  constructor
  · obtain ⟨tr, run⟩ := exists_run_slashed .panics
    exact ⟨tr, slashed, run, fun hlawful ↦ hroom hlawful.roomToFail,
      recordFailure_eq_none (by decide)⟩
  · obtain ⟨tr, run⟩ := exists_run_slashed .wraps
    refine ⟨tr, slashed, { slashed with messagesFailed := 0 + 1, score := Int64.minValue - 5 }, run,
      fun hlawful ↦ hroom hlawful.roomToFail, rfl, ?_, ?_, ?_⟩
    · decide
    · decide
    · decide

end RelayScore

end Arxia
