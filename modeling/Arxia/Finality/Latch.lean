import Arxia.Core.Crypto
import Arxia.Finality.Assess
import Arxia.Rust.Outcome
import Arxia.Transition.Runs
import Mathlib.Order.Basic

/-!
# The latch

A latch keeps the greatest level seen for each block. Over a run of calls that is a maximum: the
entry of a block is the greatest level an assessment of it has returned so far, and what a call
returns is the entry it leaves. So the results for a block never decrease, whatever the assessments
say. A call that fails writes nothing.
-/

namespace Arxia

open Rust Transition

namespace FinalityLevel

/-- The order of the declaration, which is the one the levels are compared in. -/
def rank : FinalityLevel → ℕ
  | pending => 0
  | L0 => 1
  | L1 => 2
  | L2 => 3

theorem rank_injective : Function.Injective rank := by
  intro a b h
  rcases a <;> rcases b <;> first | rfl | cases h

instance : LinearOrder FinalityLevel := LinearOrder.lift' rank rank_injective

theorem pending_le (level : FinalityLevel) : pending ≤ level := Nat.zero_le level.rank

theorem max?_concat (l : List FinalityLevel) (level : FinalityLevel) :
    (l ++ [level]).max? = some (max (l.max?.getD pending) level) := by
  rcases l with _ | ⟨first, l⟩
  · rw [List.nil_append, List.max?_singleton, List.max?_nil, Option.getD_none,
      max_eq_right (pending_le level)]
  · rw [List.cons_append, List.max?_cons', List.max?_cons', List.foldl_append, Option.getD_some]
    rfl

end FinalityLevel

/-- Per-block-hash cache of the highest finality seen. -/
structure FinalityLatch where
  seen : HashMap BlockHash FinalityLevel

/-- The arguments of an assessment. -/
structure AssessmentRequest where
  amountMicroArx : UInt64
  blockHash : BlockHash
  confirmations : List SignedConfirmation
  syncResult : SyncResult
  votes : List SignedValidatorVote
  registry : ValidatorRegistry

/-- What `assess_finality` returns for them. -/
def AssessmentRequest.snapshot (K : Crypto) (r : AssessmentRequest) :
    Except FinalityError FinalityLevel :=
  assessFinality K r.amountMicroArx r.blockHash r.confirmations r.syncResult r.votes r.registry

namespace FinalityLatch

/-- An empty latch. -/
def new : FinalityLatch := ⟨∅⟩

/-- The highest finality observed for a block, or `none` if it has never been assessed. -/
def get (latch : FinalityLatch) (blockHash : BlockHash) : Option FinalityLevel :=
  latch.seen.lookup blockHash

/-- Assess a block, and return the higher of the snapshot and the latched value. -/
def assessMonotonic (K : Crypto) (r : AssessmentRequest) :
    Call FinalityLatch FinalityError FinalityLevel := do
  let snapshot ← Call.ofExcept (r.snapshot K)
  let latch ← MonadState.get
  let previous := (latch.seen.lookup r.blockHash).getD .pending
  let latched := max previous snapshot
  set (⟨latch.seen.insert r.blockHash latched⟩ : FinalityLatch)
  pure latched

/-! ## One call -/

section Call

variable {K : Crypto} {r : AssessmentRequest} {latch latch' : FinalityLatch}
  {result : Except FinalityError FinalityLevel}

/-- **What a call does.** A snapshot raises the entry, which is the result; an error is passed on.
-/
theorem exec_assessMonotonic : (assessMonotonic K r).exec latch = some (match r.snapshot K with
    | .ok snapshot =>
      (.ok (max ((latch.get r.blockHash).getD .pending) snapshot),
        ⟨latch.seen.insert r.blockHash (max ((latch.get r.blockHash).getD .pending) snapshot)⟩)
    | .error e => (.error e, latch)) := by
  rcases h : r.snapshot K with e | snapshot
  · exact Call.exec_check_error h latch
  · exact Call.exec_check_ok h latch

theorem get_insert_self (blockHash : BlockHash) (level : FinalityLevel) :
    (⟨latch.seen.insert blockHash level⟩ : FinalityLatch).get blockHash = some level :=
  AList.lookup_insert _

theorem get_insert_of_ne {blockHash blockHash' : BlockHash} (h : blockHash' ≠ blockHash)
    (level : FinalityLevel) :
    (⟨latch.seen.insert blockHash level⟩ : FinalityLatch).get blockHash' = latch.get blockHash' :=
  AList.lookup_insert_ne h

end Call

/-! ## Runs -/

/-- A call, and what it returned. -/
structure Assessed where
  request : AssessmentRequest
  result : Except FinalityError FinalityLevel

/-- Calls on one latch. -/
def system (K : Crypto) : System FinalityLatch Assessed where
  init := fun latch ↦ latch = new
  step := fun latch a latch' ↦
    (assessMonotonic K a.request).exec latch = some (a.result, latch')

/-- What the calls for a block returned. -/
def results (blockHash : BlockHash) (tr : List Assessed) : List FinalityLevel :=
  tr.filterMap fun a ↦ if a.request.blockHash = blockHash then a.result.toOption else none

/-- The levels at which the calls for a block found it. -/
def snapshots (K : Crypto) (blockHash : BlockHash) (tr : List Assessed) : List FinalityLevel :=
  tr.filterMap fun a ↦
    if a.request.blockHash = blockHash then (a.request.snapshot K).toOption else none

section Runs

variable {K : Crypto} {tr : List Assessed} {latch latch' : FinalityLatch} {a : Assessed}
  {blockHash : BlockHash}

/-- A call returns. -/
theorem exists_step (K : Crypto) (latch : FinalityLatch) (r : AssessmentRequest) :
    ∃ result latch', (system K).step latch ⟨r, result⟩ latch' := by
  obtain ⟨⟨result, latch'⟩, h⟩ : ∃ out, (assessMonotonic K r).exec latch = some out :=
    ⟨_, exec_assessMonotonic⟩
  exact ⟨result, latch', h⟩

theorem step_cases (h : (system K).step latch a latch') :
    (∃ snapshot level, a.request.snapshot K = .ok snapshot ∧ a.result = .ok level ∧
      level = max ((latch.get a.request.blockHash).getD .pending) snapshot ∧
      latch' = ⟨latch.seen.insert a.request.blockHash level⟩) ∨
    ∃ e, a.request.snapshot K = .error e ∧ a.result = .error e ∧ latch' = latch := by
  have hexec : some _ = some (a.result, latch') := exec_assessMonotonic.symm.trans h
  rw [Option.some_inj] at hexec
  rcases hsnapshot : a.request.snapshot K with e | snapshot
  · rw [hsnapshot, Prod.mk.injEq] at hexec
    exact Or.inr ⟨e, rfl, hexec.1.symm, hexec.2.symm⟩
  · rw [hsnapshot, Prod.mk.injEq] at hexec
    exact Or.inl ⟨snapshot, _, rfl, hexec.1.symm, rfl, hexec.2.symm⟩

/-- A call writes the entry of its own block only. -/
theorem get_step_of_ne (h : (system K).step latch a latch')
    (hne : blockHash ≠ a.request.blockHash) : latch'.get blockHash = latch.get blockHash := by
  rcases step_cases h with ⟨snapshot, level, -, -, -, rfl⟩ | ⟨e, -, -, rfl⟩
  · exact get_insert_of_ne hne level
  · rfl

/-- A call that fails writes nothing. -/
theorem eq_of_step_error (h : (system K).step latch a latch') {e : FinalityError}
    (hresult : a.result = .error e) : latch' = latch := by
  rcases step_cases h with ⟨snapshot, level, -, hok, -⟩ | ⟨e, -, -, rfl⟩
  · rw [hresult] at hok
    cases hok
  · rfl

theorem results_concat_of_ne (hne : blockHash ≠ a.request.blockHash) :
    results blockHash (tr ++ [a]) = results blockHash tr := by
  rw [results, filterMap_concat, if_neg (Ne.symm hne), Option.toList_none, List.append_nil, results]

theorem snapshots_concat_of_ne (hne : blockHash ≠ a.request.blockHash) :
    snapshots K blockHash (tr ++ [a]) = snapshots K blockHash tr := by
  rw [snapshots, filterMap_concat, if_neg (Ne.symm hne), Option.toList_none, List.append_nil,
    snapshots]

theorem results_concat (tr : List Assessed) (a : Assessed) :
    results a.request.blockHash (tr ++ [a]) =
      results a.request.blockHash tr ++ a.result.toOption.toList := by
  rw [results, filterMap_concat, if_pos rfl, results]

theorem snapshots_concat (K : Crypto) (tr : List Assessed) (a : Assessed) :
    snapshots K a.request.blockHash (tr ++ [a]) =
      snapshots K a.request.blockHash tr ++ (a.request.snapshot K).toOption.toList := by
  rw [snapshots, filterMap_concat, if_pos rfl, snapshots]

/-- What a latch says about the calls so far. -/
structure Latched (K : Crypto) (tr : List Assessed) (latch : FinalityLatch)
    (blockHash : BlockHash) : Prop where
  /-- The entry is the greatest level seen. -/
  get_eq : latch.get blockHash = (snapshots K blockHash tr).max?
  sorted : (results blockHash tr).Pairwise (· ≤ ·)
  /-- No result exceeds the entry. -/
  le : ∀ level ∈ results blockHash tr, level ≤ (latch.get blockHash).getD .pending

/-- **A call that succeeds.** -/
theorem Latched.succ (h : Latched K tr latch a.request.blockHash) {snapshot level : FinalityLevel}
    (hsnapshot : a.request.snapshot K = .ok snapshot) (hresult : a.result = .ok level)
    (hlevel : level = max ((latch.get a.request.blockHash).getD .pending) snapshot) :
    Latched K (tr ++ [a]) ⟨latch.seen.insert a.request.blockHash level⟩ a.request.blockHash := by
  -- the new result is at the end, and none of the old ones is above it
  have hold : ∀ result ∈ results a.request.blockHash tr, result ≤ level := by
    intro result hmem
    rw [hlevel]
    exact (h.le result hmem).trans (le_max_left _ _)
  have hresults : results a.request.blockHash (tr ++ [a]) =
      results a.request.blockHash tr ++ [level] := by
    rw [results_concat, hresult]
    rfl
  refine ⟨?_, ?_, ?_⟩
  · rw [get_insert_self, snapshots_concat, hsnapshot]
    change _ = (_ ++ [snapshot]).max?
    rw [FinalityLevel.max?_concat, ← h.get_eq, hlevel]
  · rw [hresults, List.pairwise_append]
    refine ⟨h.sorted, List.pairwise_singleton _ _, fun result hmem last hlast ↦ ?_⟩
    rw [List.mem_singleton.mp hlast]
    exact hold result hmem
  · rw [hresults, get_insert_self, Option.getD_some]
    intro result hmem
    rcases List.mem_append.mp hmem with hmem | hmem
    · exact hold result hmem
    · exact (List.mem_singleton.mp hmem).le

/-- **One call.** -/
theorem Latched.step (h : Latched K tr latch blockHash) (hstep : (system K).step latch a latch') :
    Latched K (tr ++ [a]) latch' blockHash := by
  by_cases hne : blockHash = a.request.blockHash
  · subst hne
    rcases step_cases hstep with
      ⟨snapshot, level, hsnapshot, hresult, hlevel, rfl⟩ | ⟨e, hsnapshot, hresult, rfl⟩
    · exact h.succ hsnapshot hresult hlevel
    · have hresults : results a.request.blockHash (tr ++ [a]) = results a.request.blockHash tr := by
        rw [results_concat, hresult]
        exact List.append_nil _
      refine ⟨?_, hresults ▸ h.sorted, hresults ▸ h.le⟩
      rw [snapshots_concat, hsnapshot, h.get_eq]
      exact congrArg List.max? (List.append_nil _).symm
  · have hresults : results blockHash (tr ++ [a]) = results blockHash tr := results_concat_of_ne hne
    refine ⟨?_, hresults ▸ h.sorted, ?_⟩
    · rw [get_step_of_ne hstep hne, snapshots_concat_of_ne hne, h.get_eq]
    · rw [hresults, get_step_of_ne hstep hne]
      exact h.le

theorem latched_of_run (run : (system K).Run tr latch) (blockHash : BlockHash) :
    Latched K tr latch blockHash := by
  refine run.invariant (I := fun tr latch ↦ Latched K tr latch blockHash) ?_ ?_
  · rintro latch rfl
    exact ⟨rfl, List.Pairwise.nil, fun level hmem ↦ absurd hmem List.not_mem_nil⟩
  · exact fun tr latch a latch' _ h hstep ↦ h.step hstep

/-- **Latched finality is monotone.** The results for each block never decrease, its entry is the
greatest level seen, and no call writes more than the entry of its own block, or anything if it
fails. -/
theorem latch_monotone (run : (system K).Run tr latch) :
    (∀ blockHash, (results blockHash tr).Pairwise (· ≤ ·)) ∧
    (∀ blockHash, latch.get blockHash = (snapshots K blockHash tr).max?) ∧
    ∀ a latch', (system K).step latch a latch' →
      (∀ e, a.result = .error e → latch' = latch) ∧
      ∀ blockHash, blockHash ≠ a.request.blockHash → latch'.get blockHash = latch.get blockHash :=
  ⟨fun blockHash ↦ (latched_of_run run blockHash).sorted,
    fun blockHash ↦ (latched_of_run run blockHash).get_eq,
    fun _ _ hstep ↦ ⟨fun _ hresult ↦ eq_of_step_error hstep hresult,
      fun _ hne ↦ get_step_of_ne hstep hne⟩⟩

end Runs

/-- An assessment on which only synchronization has a say. -/
def synced (syncResult : SyncResult) : AssessmentRequest :=
  ⟨0, Vector.replicate 32 3, [], syncResult, [], ⟨∅⟩⟩

/-- A block that was synchronized, and then is not. -/
theorem run_glitch : (system Reference.crypto).Run
    [⟨synced .success, .ok .L1⟩, ⟨synced (.mismatch 1), .ok .L1⟩]
    ⟨(AList.insert (Vector.replicate 32 3) FinalityLevel.L1 ∅).insert (Vector.replicate 32 3)
      .L1⟩ := by
  have hsuccess : (synced .success).snapshot Reference.crypto = .ok .L1 := by decide +kernel
  have hmismatch : (synced (.mismatch 1)).snapshot Reference.crypto = .ok .pending := by
    decide +kernel
  have hfirst : (system Reference.crypto).step new ⟨synced .success, .ok .L1⟩
      ⟨AList.insert (Vector.replicate 32 3) .L1 ∅⟩ :=
    exec_assessMonotonic.trans (by rw [hsuccess]; rfl)
  have hsecond : (system Reference.crypto).step ⟨AList.insert (Vector.replicate 32 3) .L1 ∅⟩
      ⟨synced (.mismatch 1), .ok .L1⟩
      ⟨(AList.insert (Vector.replicate 32 3) .L1 ∅).insert (Vector.replicate 32 3) .L1⟩ :=
    exec_assessMonotonic.trans (by rw [hmismatch]; rfl)
  exact .step (.step (.start rfl) hfirst) hsecond

theorem latch_monotone_glitch :
    let tr : List Assessed := [⟨synced .success, .ok .L1⟩, ⟨synced (.mismatch 1), .ok .L1⟩]
    let latch : FinalityLatch :=
      ⟨(AList.insert (Vector.replicate 32 3) FinalityLevel.L1 ∅).insert (Vector.replicate 32 3)
        .L1⟩
    (∀ blockHash, (results blockHash tr).Pairwise (· ≤ ·)) ∧
    (∀ blockHash, latch.get blockHash = (snapshots Reference.crypto blockHash tr).max?) ∧
    ∀ a latch', (system Reference.crypto).step latch a latch' →
      (∀ e, a.result = .error e → latch' = latch) ∧
      ∀ blockHash, blockHash ≠ a.request.blockHash → latch'.get blockHash = latch.get blockHash :=
  latch_monotone run_glitch

end FinalityLatch

end Arxia
