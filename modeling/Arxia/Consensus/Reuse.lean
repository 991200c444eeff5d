import Arxia.Consensus.Acceptance

/-!
# Revocations that are presented again

The nonce of a revocation is signed, and nothing else is done with it: whether a revocation succeeds
is decided by its signature and by the edge. While the edge is gone that rejects the revocation. It
does not once the pair is delegated again.

What the graph is after a call is a function of the call and its result, so the graphs that a run
goes through can be read off its trace.
-/

namespace Arxia

open Rust Transition

namespace DelegationGraph

/-- The graph after a call. -/
def apply (g : DelegationGraph) (a : Handled) : DelegationGraph :=
  match a.result, a.request with
  | .error _, _ => g
  | .ok _, .delegate d => g.withDelegation d
  | .ok _, .revoke rev => g.withoutEdge rev.delegator rev.representative

/-- The graph that the calls of a trace lead to. -/
def graphAfter (tr : List Handled) : DelegationGraph := tr.foldl apply new

/-- A revocation that has succeeded is rejected from then on, and leaves the edge in place. -/
def EffectiveOnce (tr : List Handled) : Prop :=
  ∀ before between rest rev result,
    tr = before ++ ⟨.revoke rev, .ok ()⟩ :: between ++ ⟨.revoke rev, result⟩ :: rest →
    result ≠ .ok () ∧
      ((rev.delegator, rev.representative) ∈
          (graphAfter (before ++ ⟨.revoke rev, .ok ()⟩ :: between)).edges →
        (rev.delegator, rev.representative) ∈
          (graphAfter (before ++ ⟨.revoke rev, .ok ()⟩ :: between ++
            [⟨.revoke rev, result⟩])).edges)

/-- A revocation with a good signature is presented while its edge is there, the pair is delegated
again, and with the new edge still there the same revocation is presented again. -/
def Reuses (K : Crypto) (tr : List Handled) : Prop :=
  ∃ before between rest rev result result' d,
    tr = before ++ ⟨.revoke rev, result⟩ :: between ++ ⟨.revoke rev, result'⟩ :: rest ∧
    rev.verify K = .ok () ∧
    (rev.delegator, rev.representative) ∈ (graphAfter before).edges ∧
    ⟨.delegate d, .ok ()⟩ ∈ between ∧
    (d.delegator, d.representative) = (rev.delegator, rev.representative) ∧
    (rev.delegator, rev.representative) ∈
      (graphAfter (before ++ ⟨.revoke rev, result⟩ :: between)).edges

variable {K : Crypto} {g g' : DelegationGraph} {tr : List Handled}

theorem graphAfter_concat (tr : List Handled) (a : Handled) :
    graphAfter (tr ++ [a]) = (graphAfter tr).apply a := by
  rw [graphAfter, List.foldl_append, List.foldl_cons, List.foldl_nil, graphAfter]

/-- An accepted delegation adds its pair. -/
theorem mem_edges_withDelegation {d : Delegation} {pair : String × String} :
    pair ∈ (g.withDelegation d).edges ↔
      pair = (d.delegator, d.representative) ∨ pair ∈ g.edges := by
  rw [withDelegation]
  split
  · exact AList.mem_insert _
  · exact AList.mem_insert _

theorem eq_apply_of_step {a : Handled} (hstep : (system K).step g a g') : g' = g.apply a := by
  obtain ⟨request, result⟩ := a
  obtain ⟨o, hexec⟩ := hstep
  rcases result with e | _
  · exact eq_of_error hexec
  rcases request with d | rev
  · rcases delegate_eq hexec with ⟨-, -, hnew⟩ | ⟨-, herror, -⟩
    · exact hnew
    · cases herror
  · rcases revoke_cases hexec with ⟨⟨_, herror⟩, -⟩ | ⟨-, -, -, hnew⟩
    · cases herror
    · exact hnew

/-- **A run ends** in the graph that its trace says. -/
theorem eq_graphAfter_of_run (run : (system K).Run tr g) : g = graphAfter tr := by
  refine run.invariant (I := fun tr g ↦ g = graphAfter tr) (fun _ h ↦ h) ?_
  rintro tr _ a g' - rfl hstep
  rw [graphAfter_concat]
  exact eq_apply_of_step hstep

/-- **Whether a revocation succeeds** is up to its signature and the edge. -/
theorem eq_ok_iff_of_run {before rest : List Handled} {rev : Revocation}
    {result : Except DelegationError Unit}
    (run : (system K).Run (before ++ ⟨.revoke rev, result⟩ :: rest) g) :
    result = .ok () ↔ rev.verify K = .ok () ∧
      (rev.delegator, rev.representative) ∈ (graphAfter before).edges := by
  obtain ⟨h, h', run₀, ⟨_, hexec⟩, -⟩ := run.exists_step
  rw [← eq_graphAfter_of_run run₀]
  constructor
  · rintro rfl
    rcases revoke_cases hexec with ⟨⟨_, herror⟩, -⟩ | ⟨hverify, hmem, -, -⟩
    · cases herror
    · exact ⟨hverify, hmem⟩
  · rintro ⟨hverify, hmem⟩
    have hout := hexec.symm.trans (exec_revoke K h rev)
    rw [hverify] at hout
    dsimp only at hout
    rw [if_pos hmem] at hout
    exact (Prod.mk.inj (Option.some_inj.mp hout)).1

/-- An edge that appears has been delegated. -/
theorem exists_delegate_of_mem {pair : String × String}
    (hmem : pair ∈ (tr.foldl apply g).edges) (hnot : pair ∉ g.edges) :
    ∃ d, ⟨.delegate d, .ok ()⟩ ∈ tr ∧ (d.delegator, d.representative) = pair := by
  induction tr generalizing g with
  | nil => exact absurd hmem hnot
  | cons a tr ih =>
    by_cases hnext : pair ∈ (g.apply a).edges
    · obtain ⟨request, result⟩ := a
      rcases result with e | _
      · exact absurd hnext hnot
      rcases request with d | rev
      · refine ⟨d, List.mem_cons_self, ?_⟩
        rw [apply] at hnext
        dsimp only at hnext
        rw [mem_edges_withDelegation] at hnext
        exact (hnext.resolve_right hnot).symm
      · exact absurd (AList.mem_erase.mp hnext).2 hnot
    · obtain ⟨d, hd, hpair⟩ := ih hmem hnext
      exact ⟨d, List.mem_cons_of_mem _ hd, hpair⟩

/-! ## When it takes effect once -/

/-- A revocation that has succeeded has removed its edge. -/
theorem notMem_graphAfter_revoked (before : List Handled) (rev : Revocation) :
    (rev.delegator, rev.representative) ∉
      (graphAfter (before ++ [⟨.revoke rev, .ok ()⟩])).edges := by
  rw [graphAfter_concat]
  exact fun hmem ↦ (AList.mem_erase.mp hmem).1 rfl

/-- **A revocation takes effect once** in just the runs that do not present it again when the pair
has been delegated again. -/
theorem effectiveOnce_iff (run : (system K).Run tr g) :
    g = graphAfter tr ∧ (EffectiveOnce tr ↔ ¬ Reuses K tr) := by
  refine ⟨eq_graphAfter_of_run run, ?_, ?_⟩
  · rintro honce ⟨before, between, rest, rev, result, result', d, rfl, hverify, hedge, -, -, hagain⟩
    have hfirst : result = .ok () := by
      rw [List.append_assoc] at run
      exact (eq_ok_iff_of_run run).mpr ⟨hverify, hedge⟩
    subst hfirst
    exact (honce _ _ _ _ _ rfl).1 ((eq_ok_iff_of_run run).mpr ⟨hverify, hagain⟩)
  · rintro hnot before between rest rev result rfl
    have hfirst : rev.verify K = .ok () ∧
        (rev.delegator, rev.representative) ∈ (graphAfter before).edges := by
      rw [List.append_assoc] at run
      exact (eq_ok_iff_of_run run).mp rfl
    -- were the edge there, it would have been delegated since
    have hgone : (rev.delegator, rev.representative) ∉
        (graphAfter (before ++ ⟨.revoke rev, .ok ()⟩ :: between)).edges := by
      intro hmem
      have hmem' := hmem
      rw [List.append_cons, graphAfter, List.foldl_append] at hmem'
      obtain ⟨d, hd, hpair⟩ := exists_delegate_of_mem hmem' (notMem_graphAfter_revoked before rev)
      exact hnot ⟨before, between, rest, rev, _, _, d, rfl, hfirst.1, hfirst.2, hd, hpair, hmem⟩
    exact ⟨fun hok ↦ hgone ((eq_ok_iff_of_run run).mp hok).2, fun hmem ↦ absurd hmem hgone⟩

/-- Alice's revocation of her delegation to bob. -/
def goodbye : Revocation where
  delegatorPubkey := Vector.replicate 32 1
  delegator := "alice"
  representative := "bob"
  nonce := 1
  signature := Reference.sign (Vector.replicate 32 1)
    (Revocation.canonicalBytes (Vector.replicate 32 1) "alice" "bob" 1)

theorem verify_goodbye : goodbye.verify Reference.crypto = .ok () :=
  mapError_eq_ok.mpr (Reference.verify_sign _ _)

/-- Alice delegates and revokes. -/
def farewell : List Handled := [⟨.delegate aliceBob, .ok ()⟩, ⟨.revoke goodbye, .ok ()⟩]

/-- Whatever has been delegated, and this alone, can be revoked. -/
theorem run_farewell (run : (system Reference.crypto).Run tr new) :
    (system Reference.crypto).Run (tr ++ farewell) new := by
  have hrevoke : (revoke Reference.crypto goodbye).exec (new.withEdge aliceBob) =
      some (.ok (), new) := by
    rw [exec_revoke, verify_goodbye]
    rfl
  have hdelegated : (system Reference.crypto).Run (tr ++ [⟨.delegate aliceBob, .ok ()⟩])
      (new.withEdge aliceBob) :=
    .step run ⟨.ascending _ _, exec_aliceBob⟩
  have hrevoked : (system Reference.crypto).Run
      (tr ++ [⟨.delegate aliceBob, .ok ()⟩] ++ [⟨.revoke goodbye, .ok ()⟩]) new :=
    .step hdelegated ⟨.ascending _ _, hrevoke⟩
  rwa [List.append_assoc] at hrevoked

/-- Alice presents the revocation a second time. -/
def farewellTwice : List Handled :=
  farewell ++ [⟨.revoke goodbye, .error (.edgeNotFound "alice" "bob")⟩]

theorem run_farewellTwice : (system Reference.crypto).Run farewellTwice new := by
  have hagain : (revoke Reference.crypto goodbye).exec new =
      some (.error (.edgeNotFound "alice" "bob"), new) := by
    rw [exec_revoke, verify_goodbye]
    rfl
  exact .step (run_farewell (.start rfl)) ⟨.ascending _ _, hagain⟩

/-- The only delegation comes before both. -/
theorem not_reuses_farewellTwice : ¬ Reuses Reference.crypto farewellTwice := by
  rintro ⟨before, between, rest, rev, result, result', d, hsplit, -, -, hbetween, -⟩
  rcases before with _ | ⟨a, before⟩
  · cases (List.cons.inj hsplit).1
  · have hmem : (⟨.delegate d, .ok ()⟩ : Handled) ∈ farewellTwice.tail := by
      rw [hsplit]
      simp [hbetween]
    simp [farewellTwice, farewell] at hmem

theorem effectiveOnce_farewellTwice :
    new = graphAfter farewellTwice ∧ EffectiveOnce farewellTwice :=
  (effectiveOnce_iff run_farewellTwice).imp_right fun h ↦ h.mpr not_reuses_farewellTwice

/-- **An old revocation removes the new edge.** -/
theorem not_effectiveOnce : ¬ ∀ (K : Crypto) (tr : List Handled) (g : DelegationGraph),
    (system K).Run tr g → EffectiveOnce tr := by
  intro h
  have hrun : (system Reference.crypto).Run (farewell ++ farewell) new :=
    run_farewell (run_farewell (.start rfl))
  exact (h _ _ _ hrun [⟨.delegate aliceBob, .ok ()⟩] [⟨.delegate aliceBob, .ok ()⟩] [] goodbye _
    rfl).1 rfl

end DelegationGraph

end Arxia
