import Arxia.Consensus.Conflict
import Arxia.Crdt.Refinement
import Arxia.Lattice.Reference

/-!
# Reconciliation against consensus

Two crates decide between blocks of one account and nonce. Consensus folds `resolve_conflict_orv`
over them and refuses a Revoke; reconciliation keeps the smallest hash whatever its type. Where
nobody has voted the cascade comes down to the hash as well, so the two agree on every group of
blocks that can enter it.

On a group with a Revoke they cannot: the fold stops with an error, and reconciliation still records
a winner. If the Revoke has the smallest hash it is the winner, and the Send it displaces is not
applied.
-/

namespace Arxia

open Rust Tournament Settlement

namespace Reconciliation

/-- A candidate nobody has voted for. -/
def unvoted (b : Block) : BlockCandidate := ⟨b, []⟩

/-- The group of a key, as a reconciliation of these blocks forms it. -/
def groupOf (blocks : List Block) (k : Key) : List Block :=
  (firsts Block.hash blocks ∅).filter fun b ↦ key b = k

/-- The winner a reconciliation records for a key. -/
def recordedWinner (σ : Orders) (partitionA partitionB : List Block) (k : Key) : Option Block := do
  let all := firsts Block.hash (partitionA ++ partitionB) ∅
  let picked ← pickWinners (σ.byKey.arrange (group key all).entries)
  picked.winners.lookup k

/-- Consensus without votes resolves the group to the recorded winner, in every order, and the
winner is no Revoke unless the whole group is. -/
structure Agrees (m : Overflow) (group : List Block) (winner : Option Block) : Prop where
  resolved : ∀ first rest, (first :: rest).Perm group → ∃ w, winner = some w ∧
    (resolveGroup m (unvoted first) (rest.map unvoted)).exec = some (.ok (unvoted w))
  monetary : ∀ w, winner = some w → isEligibleForOrv w = false →
    ∀ b ∈ group, isEligibleForOrv b = false

theorem isEligibleForOrv_iff {b : Block} :
    isEligibleForOrv b = true ↔ ∀ x, b.blockType ≠ .revoke x := by
  rw [isEligibleForOrv]
  rcases b.blockType with _ | _ | _ | _ <;> simp

/-! ## What reconciliation records -/

section Recorded

variable {σ : Orders} {partitionA partitionB : List Block} {k : Key}

theorem mem_groupOf {blocks : List Block} {b : Block} :
    b ∈ groupOf blocks k ↔ b ∈ firsts Block.hash blocks ∅ ∧ key b = k := by
  rw [groupOf, List.mem_filter, decide_eq_true_iff]

theorem nodup_groupOf (blocks : List Block) (k : Key) :
    ((groupOf blocks k).map Block.hash).Nodup :=
  (nodup_map_firsts Block.hash blocks ∅).sublist (List.filter_sublist.map _)

/-- **The recorded winner has the smallest hash of its group**, in every order of iteration. -/
theorem recordedWinner_eq_some {w : Block} :
    recordedWinner σ partitionA partitionB k = some w ↔
      w ∈ groupOf (partitionA ++ partitionB) k ∧
        ∀ c ∈ groupOf (partitionA ++ partitionB) k, w.hash ≤ c.hash := by
  set all := firsts Block.hash (partitionA ++ partitionB) ∅ with hall
  have hperm : (σ.byKey.arrange (group key all).entries).Perm (group key all).entries :=
    σ.byKey.arrange_perm _
  have hpick := foldlM_pickWinner (fun e he ↦ ((mem_groups hperm).mp he).2) ⟨∅, []⟩
  rw [← pickWinners, List.nil_append] at hpick
  simp only [recordedWinner, ← hall, hpick, Option.bind_eq_bind, Option.bind_some]
  rw [lookup_winners (nodup_map_firsts _ _ _) hperm, Wins]
  simp only [mem_groupOf, ← hall]
  constructor
  · rintro ⟨⟨hw, hle⟩, rfl⟩
    exact ⟨⟨hw, rfl⟩, fun c hc ↦ hle c hc.1 hc.2⟩
  · rintro ⟨⟨hw, rfl⟩, hle⟩
    exact ⟨⟨hw, fun c hc hkey ↦ hle c ⟨hc, hkey⟩⟩, rfl⟩

theorem exists_recordedWinner (h : groupOf (partitionA ++ partitionB) k ≠ []) :
    ∃ w, recordedWinner σ partitionA partitionB k = some w := by
  obtain ⟨w, rest, hsort⟩ := exists_sortBy_cons h
  exact ⟨w, recordedWinner_eq_some.mpr (head_sortBy_le hsort)⟩

end Recorded

/-! ## What consensus decides without votes -/

section Unvoted

variable {m : Overflow}

theorem stakeOf_unvoted (b : Block) : stakeOf m (unvoted b) = some 0 := rfl

/-- Without votes the hash decides. -/
theorem beats_unvoted {a b : Block} : Beats m (unvoted a) (unvoted b) ↔ a.hash ≤ b.hash := by
  have hdecides : ¬ StakeDecides 0 0 := by decide
  rw [Beats, stakeOf_unvoted, stakeOf_unvoted, Option.getD_some, if_neg hdecides]
  rfl

/-- **Eligible blocks are resolved to the smallest hash.** -/
theorem exec_resolveGroup_unvoted {first w : Block} {rest : List Block}
    (heligible : ∀ b ∈ first :: rest, isEligibleForOrv b = true)
    (hnodup : ((first :: rest).map Block.hash).Nodup) (hw : w ∈ first :: rest)
    (hle : ∀ b ∈ first :: rest, w.hash ≤ b.hash) :
    (resolveGroup m (unvoted first) (rest.map unvoted)).exec = some (.ok (unvoted w)) := by
  have hmem : ∀ {c}, c ∈ unvoted first :: rest.map unvoted ↔
      ∃ b ∈ first :: rest, unvoted b = c := fun {c} ↦ by rw [← List.map_cons, List.mem_map]
  rw [exec_resolveGroup]
  · refine congrArg (fun c ↦ some (Except.ok c)) ?_
    refine @knockout_eq_champion _ (Beats m) _ (unvoted w) (unvoted first :: rest.map unvoted) ?_ ?_
      _ _ (fun c hc ↦ hc) (hmem.mpr ⟨w, hw, rfl⟩)
    · -- without votes the smaller hash beats the other
      intro c hc _
      obtain ⟨b, hb, rfl⟩ := hmem.mp hc
      exact beats_unvoted.mpr (hle b hb)
    · intro c hc hne hbeats
      obtain ⟨b, hb, rfl⟩ := hmem.mp hc
      have hhash := le_antisymm (beats_unvoted.mp hbeats) (hle b hb)
      exact hne (congrArg unvoted (List.inj_on_of_nodup_map hnodup hb hw hhash))
  · intro c hc
    obtain ⟨b, hb, rfl⟩ := hmem.mp hc
    exact heligible b hb
  · intro c hc
    obtain ⟨b, -, rfl⟩ := hmem.mp hc
    rfl
  · rw [← List.map_cons, List.map_map]
    exact hnodup

/-- **A Revoke stops the fold** it opens. -/
theorem exec_resolveGroup_revoke {first next : Block} {rest : List Block}
    (h : isEligibleForOrv first = false) :
    (resolveGroup m (unvoted first) ((next :: rest).map unvoted)).exec =
      some (.error (.ineligibleConflictBlockType first.hash (blockTypeTag first))) := by
  have hgate : (resolveConflictOrv m first next [] []).exec =
      some (.error (.ineligibleConflictBlockType first.hash (blockTypeTag first))) := by
    rw [resolveConflictOrv]
    apply Fallible.exec_bind_error
    rw [Fallible.exec_ofExcept, ensure, h]
    rfl
  rw [resolveGroup, List.map_cons, List.foldlM_cons]
  exact Fallible.exec_bind_error (Fallible.exec_bind_error hgate)

end Unvoted

/-! ## Agreement -/

/-- **Agreement without votes.** On a group of at least two hashes reconciliation records what
consensus decides, and no Revoke wins over a monetary block, exactly when the group has no
Revoke. -/
theorem agrees_iff (σ : Orders) (m : Overflow) {partitionA partitionB : List Block} {k : Key}
    (htwo : ∃ b ∈ groupOf (partitionA ++ partitionB) k, ∃ c ∈ groupOf (partitionA ++ partitionB) k,
      b.hash ≠ c.hash) :
    Agrees m (groupOf (partitionA ++ partitionB) k) (recordedWinner σ partitionA partitionB k) ↔
      ∀ b ∈ groupOf (partitionA ++ partitionB) k, ∀ x, b.blockType ≠ .revoke x := by
  simp only [← isEligibleForOrv_iff]
  set g := groupOf (partitionA ++ partitionB) k
  constructor
  · intro hagrees b hb
    by_contra hrevoke
    rw [Bool.not_eq_true] at hrevoke
    -- an order that opens with the Revoke
    obtain ⟨c, hc, hne⟩ : ∃ c ∈ g, c ≠ b := by
      obtain ⟨c, hc, d, hd, hcd⟩ := htwo
      by_cases hcb : c = b
      · exact ⟨d, hd, fun hdb ↦ hcd (by rw [hcb, hdb])⟩
      · exact ⟨c, hc, hcb⟩
    have hperm := (List.perm_cons_erase hb).symm
    obtain ⟨next, rest, hrest⟩ :=
      List.exists_cons_of_ne_nil (List.ne_nil_of_mem ((List.mem_erase_of_ne hne).mpr hc))
    rw [hrest] at hperm
    obtain ⟨w, -, hok⟩ := hagrees.resolved b (next :: rest) hperm
    rw [exec_resolveGroup_revoke hrevoke] at hok
    simp at hok
  · intro heligible
    obtain ⟨b, hb, -⟩ := htwo
    obtain ⟨w, hwinner⟩ := @exists_recordedWinner σ _ _ _ (List.ne_nil_of_mem hb)
    obtain ⟨hw, hle⟩ := recordedWinner_eq_some.mp hwinner
    refine ⟨fun first rest hperm ↦ ⟨w, hwinner, ?_⟩, fun w' hw' hrevoke ↦ ?_⟩
    · exact exec_resolveGroup_unvoted (fun b hb ↦ heligible b (hperm.subset hb))
        ((hperm.map _).nodup_iff.mpr (nodup_groupOf _ k)) (hperm.symm.subset hw)
        fun b hb ↦ hle b (hperm.subset hb)
    · rw [heligible w' (recordedWinner_eq_some.mp hw').1] at hrevoke
      simp at hrevoke

/-! ## Two blocks of one account -/

/-- A second Send that Alice signs for the nonce of her first. -/
def otherSend : Block :=
  Reference.sealBlock Reference.alice Reference.openAlice.hash (.send Reference.bob 30) 70 2 3

/-- A Revoke instead. -/
def revocation : Block :=
  Reference.sealBlock Reference.alice Reference.openAlice.hash (.revoke "00") 100 2 3

theorem agrees_otherSend :
    Agrees .panics (groupOf ([Reference.sendToBob] ++ [otherSend]) (Reference.alice, 2))
      (recordedWinner .asListed [Reference.sendToBob] [otherSend] (Reference.alice, 2)) := by
  have htwo : ∃ b ∈ groupOf ([Reference.sendToBob] ++ [otherSend]) (Reference.alice, 2),
      ∃ c ∈ groupOf ([Reference.sendToBob] ++ [otherSend]) (Reference.alice, 2),
        b.hash ≠ c.hash := by decide +kernel
  have heligible : ∀ b ∈ groupOf ([Reference.sendToBob] ++ [otherSend]) (Reference.alice, 2),
      isEligibleForOrv b = true := by decide +kernel
  exact (agrees_iff .asListed .panics htwo).mpr fun b hb ↦ isEligibleForOrv_iff.mp (heligible b hb)

/-- The Revoke has the smaller hash, and wins over the Send. -/
theorem not_agrees :
    ¬ ∀ (σ : Orders) (m : Overflow) (partitionA partitionB : List Block) (k : Key),
      (∃ b ∈ groupOf (partitionA ++ partitionB) k, ∃ c ∈ groupOf (partitionA ++ partitionB) k,
        b.hash ≠ c.hash) →
      Agrees m (groupOf (partitionA ++ partitionB) k)
        (recordedWinner σ partitionA partitionB k) := by
  intro h
  have hagrees := h .asListed .panics [Reference.sendToBob] [revocation] (Reference.alice, 2)
    (by decide +kernel)
  have hwinner : recordedWinner .asListed [Reference.sendToBob] [revocation]
      (Reference.alice, 2) = some revocation := by decide +kernel
  have hmem : Reference.sendToBob ∈
      groupOf ([Reference.sendToBob] ++ [revocation]) (Reference.alice, 2) := by decide +kernel
  exact absurd (hagrees.monetary revocation hwinner rfl _ hmem) (by decide)

end Reconciliation

end Arxia
