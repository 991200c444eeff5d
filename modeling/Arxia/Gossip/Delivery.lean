import Arxia.Gossip.Bookkeeping

/-!
# Blocks that are accepted and not stored

A block whose hash is registered is taken for one that has been stored. The registry of a peer has
hashes too, and once it is merged the blocks themselves are accepted and dropped. Otherwise a block
that is accepted is a known one, or one that was stored and has been evicted since.
-/

namespace Arxia

open Rust Transition Lists

namespace GossipNode

variable {K : Crates} {nodeId : String} {a b : ℕ} {node node' : GossipNode} {tr : List Handled}
  {block : Block}

/-- The block is known after the call, or it was stored by a call before that and has been evicted
since. -/
def Delivered (K : Crates) (tr : List Handled) (node node' : GossipNode) (block : Block) : Prop :=
  block ∈ node'.knownBlocks ∨ ∃ evicted, stored K tr = evicted ++ node.knownBlocks ∧ block ∈ evicted

/-- **An accepted block is not lost**, if its hash is not registered, or if an earlier call stored
the very block. -/
theorem delivered_iff (run : (system K nodeId a b).Run tr node)
    (hexec : (addBlock K block).exec node = some (.ok (), node')) :
    Delivered K tr node node' block ↔
      ((∃ key hash, registryEntry K block = .ok (key, hash) ∧
        node.nonceRegistry.lookup key = some hash) → block ∈ stored K tr) := by
  obtain ⟨evicted, hstored⟩ := (windows_of_run run).2.isSuffix
  rcases addBlock_cases hexec with ⟨e, -, herror, -⟩ | ⟨key, hash, hentry, hrest⟩
  · cases herror
  rcases hrest with ⟨existing, hlookup, rfl, hresult⟩ | ⟨hlookup, -, rfl⟩
  · -- nothing is stored, so the block has to be there already
    have hsame : existing = hash := by
      split at hresult
      · rename_i hsame
        exact hsame
      · cases hresult
    have hregistered : ∃ key hash, registryEntry K block = .ok (key, hash) ∧
        node'.nonceRegistry.lookup key = some hash := ⟨key, hash, hentry, hsame ▸ hlookup⟩
    constructor
    · rintro (hknown | ⟨evicted, hstored, hevicted⟩) -
      · exact hstored ▸ List.mem_append_right _ hknown
      · exact hstored ▸ List.mem_append_left _ hevicted
    · intro h
      have hmem := h hregistered
      rw [← hstored, List.mem_append] at hmem
      exact hmem.symm.imp id fun hevicted ↦ ⟨evicted, hstored.symm, hevicted⟩
  · refine iff_of_true (Or.inl ?_) ?_
    · rw [knownBlocks_store]
      exact List.mem_append_right _ List.mem_cons_self
    · rintro ⟨key', hash', hentry', hlookup'⟩
      obtain ⟨rfl, rfl⟩ := Prod.mk.inj (Except.ok.inj (hentry.symm.trans hentry'))
      cases hlookup.symm.trans hlookup'

/-- A registry with alice's first block. -/
def announced : NonceRegistry :=
  match registryEntry Reference.crates Reference.openAlice with
  | .ok (key, hash) => (∅ : NonceRegistry).insert key hash
  | .error _ => ∅

/-- A node that has heard of the block. -/
def informed : GossipNode := (mergeRegistry announced (withCapacity "node" 2 2)).2

theorem run_informed : (system Reference.crates "node" 2 2).Run [⟨withCapacity "node" 2 2,
    .mergeRegistry announced, .conflicts (mergeRegistry announced (withCapacity "node" 2 2)).1⟩]
    informed := by
  have hstart : (system Reference.crates "node" 2 2).Run [] (withCapacity "node" 2 2) := .start rfl
  exact .step hstart ⟨rfl, rfl⟩

/-- The block comes and is accepted. -/
theorem exists_exec_informed : ∃ node',
    (addBlock Reference.crates Reference.openAlice).exec informed = some (.ok (), node') ∧
      node'.knownBlocks = [] := by
  have h : ((addBlock Reference.crates Reference.openAlice).exec informed).any
      (fun out ↦ out.1.toBool && decide (out.2.knownBlocks = [])) = true := by
    decide +kernel
  obtain ⟨⟨result, node'⟩, hexec, hcheck⟩ := (Option.any_eq_true _ _).mp h
  obtain ⟨hok, hknown⟩ := Bool.and_eq_true_iff.mp hcheck
  rcases result with e | _
  · cases hok
  · exact ⟨node', hexec, of_decide_eq_true hknown⟩

theorem delivered_iff_informed : ∃ tr node', (system Reference.crates "node" 2 2).Run tr informed ∧
    (Delivered Reference.crates tr informed node' Reference.openAlice ↔
      ((∃ key hash, registryEntry Reference.crates Reference.openAlice = .ok (key, hash) ∧
        informed.nonceRegistry.lookup key = some hash) →
          Reference.openAlice ∈ stored Reference.crates tr)) := by
  obtain ⟨node', hexec, -⟩ := exists_exec_informed
  exact ⟨_, node', run_informed, delivered_iff run_informed hexec⟩

/-- **An accepted block is lost** to a node that has heard of it. -/
theorem not_delivered : ¬ ∀ (K : Crates) (nodeId : String) (a b : ℕ) (tr : List Handled)
    (node node' : GossipNode) (block : Block), (system K nodeId a b).Run tr node →
    (addBlock K block).exec node = some (.ok (), node') → Delivered K tr node node' block := by
  intro h
  obtain ⟨node', hexec, hknown⟩ := exists_exec_informed
  rcases h _ _ _ _ _ _ _ _ run_informed hexec with hmem | ⟨evicted, hstored, hmem⟩
  · rw [hknown] at hmem
    cases hmem
  · -- merging a registry stores no block
    rw [(List.append_eq_nil_iff.mp hstored.symm).1] at hmem
    cases hmem

end GossipNode

end Arxia
