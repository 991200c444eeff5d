import Arxia.Gossip.Rounds
import Arxia.Lattice.Reference
import Arxia.Lists.Queues

/-!
# The bounds of a node, and what its counters say

Both buffers of a node are windows on what the calls of its run have put into them: the blocks it
knows are the last ones that it stored, and the keys of its registry the last ones that it entered.
The dropped counters say how many are missing, unless they have come to the end of their range.
-/

namespace Arxia

open Rust Transition Lists

namespace GossipNode

variable {K : Crates} {nodeId : String} {a b : ℕ} {node node' : GossipNode} {tr : List Handled}

/-- The bounds of a node, its order tracker and its counters, after a run. -/
structure Bookkept (K : Crates) (a b : ℕ) (tr : List Handled) (node : GossipNode) : Prop where
  blocks_le : node.knownBlocks.length ≤ max a 1
  registry_le : node.nonceRegistry.entries.length ≤ max b 1
  nodup : node.nonceRegistryOrder.Nodup
  mem_iff : ∀ key, key ∈ node.nonceRegistryOrder ↔ key ∈ node.nonceRegistry
  /-- The keys are in the order in which they were inserted, and the missing ones are the oldest. -/
  order : ∃ evicted, inserted K tr = evicted ++ node.nonceRegistryOrder
  /-- So it is with the blocks. -/
  blocks : ∃ evicted, stored K tr = evicted ++ node.knownBlocks
  registryDropped : node.nonceRegistryDropped.toNat < u64Max → node.nonceRegistryDropped.toNat =
    (inserted K tr).length - node.nonceRegistry.entries.length
  blocksDropped : node.knownBlocksDropped.toNat < u64Max →
    node.knownBlocksDropped.toNat = (stored K tr).length - node.knownBlocks.length
  /-- What the next call evicts is what it leaves out, at the front. -/
  next : ∀ request response node', handle K node request = some (response, node') →
    ∃ gone, node.nonceRegistryOrder ++ insertedBy K node request =
        gone ++ node'.nonceRegistryOrder ∧
      ∀ key, key ∈ gone ↔
        (key ∈ node.nonceRegistry ∨ key ∈ insertedBy K node request) ∧ key ∉ node'.nonceRegistry

theorem inserted_concat (K : Crates) (tr : List Handled) (a : Handled) :
    inserted K (tr ++ [a]) = inserted K tr ++ insertedBy K a.before a.request := by
  rw [inserted, List.flatMap_append, List.flatMap_singleton, inserted]

theorem stored_concat (K : Crates) (tr : List Handled) (a : Handled) :
    stored K (tr ++ [a]) = stored K tr ++ storedBy K a.before a.request := by
  rw [stored, List.flatMap_append, List.flatMap_singleton, stored]

/-- **The buffers are windows** on what has been put in. -/
theorem windows_of_run (run : (system K nodeId a b).Run tr node) :
    Window u64Max (inserted K tr) node.nonceRegistryOrder node.nonceRegistryDropped.toNat ∧
      Window u64Max (stored K tr) node.knownBlocks node.knownBlocksDropped.toNat := by
  refine run.invariant (I := fun tr node ↦
    Window u64Max (inserted K tr) node.nonceRegistryOrder node.nonceRegistryDropped.toNat ∧
      Window u64Max (stored K tr) node.knownBlocks node.knownBlocksDropped.toNat) ?_ ?_
  · rintro node rfl
    exact ⟨.start u64Max, .start u64Max⟩
  · rintro tr node call node' run ⟨hkeys, hblocks⟩ ⟨rfl, hhandle⟩
    obtain ⟨⟨gone, hround⟩, goneBlocks, hround'⟩ := (kept_of_run run).round hhandle
    rw [inserted_concat, stored_concat]
    exact ⟨hkeys.advance hround.round hround.dropped, hblocks.advance hround'.round hround'.dropped⟩

theorem capacities_of_run (run : (system K nodeId a b).Run tr node) :
    node.knownBlocksCapacity = max a 1 ∧ node.nonceRegistryCapacity = max b 1 := by
  refine run.invariant (I := fun _ node ↦
    node.knownBlocksCapacity = max a 1 ∧ node.nonceRegistryCapacity = max b 1) ?_ ?_
  · rintro node rfl
    exact ⟨rfl, rfl⟩
  · rintro tr node call node' run ⟨hblocks, hkeys⟩ ⟨-, hhandle⟩
    obtain ⟨⟨_, hround⟩, _, hround'⟩ := (kept_of_run run).round hhandle
    exact ⟨hround'.capacity.trans hblocks, hround.capacity.trans hkeys⟩

/-- **The state of a node is bounded**, and its bookkeeping is exact. -/
theorem bookkept_of_run (run : (system K nodeId a b).Run tr node) : Bookkept K a b tr node := by
  have hkept := kept_of_run run
  obtain ⟨hkeys, hblocks⟩ := windows_of_run run
  obtain ⟨hblocksCapacity, hkeysCapacity⟩ := capacities_of_run run
  refine ⟨hblocksCapacity ▸ hkept.blocks_le, ?_, hkept.nodup, hkept.mem_iff, ?_, ?_, ?_, ?_, ?_⟩
  · rw [hkept.length_eq, ← hkeysCapacity]
    exact hkept.keys_le
  · obtain ⟨evicted, h⟩ := hkeys.isSuffix
    exact ⟨evicted, h.symm⟩
  · obtain ⟨evicted, h⟩ := hblocks.isSuffix
    exact ⟨evicted, h.symm⟩
  · rw [hkept.length_eq]
    exact hkeys.dropped_eq
  · exact hblocks.dropped_eq
  · intro request response node' hhandle
    obtain ⟨⟨gone, hround⟩, -⟩ := hkept.round hhandle
    refine ⟨gone, hround.round, fun key ↦ ?_⟩
    rw [mem_gone_iff hround.round (hkept.nodup_append_insertedBy K request), hkept.mem_iff,
      hround.tracked.mem_iff]

/-- Two accounts open, and the first block comes again. -/
def openings : List Request :=
  [.addBlock Reference.openAlice, .addBlock Reference.openBob, .addBlock Reference.openAlice]

/-- Both accounts are evicted from the registry in turn. -/
theorem exists_run_openings : ∃ tr node,
    (system Reference.crates "node" 2 1).Run tr node ∧ node.nonceRegistryDropped = 2 := by
  obtain ⟨tr, node, run, hdropped⟩ := exists_run Reference.crates "node" 2 1 openings
    (fun _ node ↦ node.nonceRegistryDropped = 2) (by decide +kernel)
  exact ⟨tr, node, run, of_decide_eq_true hdropped⟩

theorem bookkept_of_run_openings : ∃ tr node,
    (system Reference.crates "node" 2 1).Run tr node ∧ node.nonceRegistryDropped = 2 ∧
      Bookkept Reference.crates 2 1 tr node := by
  obtain ⟨tr, node, run, hdropped⟩ := exists_run_openings
  exact ⟨tr, node, run, hdropped, bookkept_of_run run⟩

end GossipNode

end Arxia
