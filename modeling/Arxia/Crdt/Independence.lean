import Arxia.Crdt.Refinement
import Arxia.Lattice.ReferenceNetwork

/-!
# Splitting and ordering

Which partition a block is in, where it stands there and how often, is invisible to a reconciliation
of hashed blocks. All of it enters through deduplication, which keeps the *first* block with a hash.
Without collisions the blocks with one hash agree on every hashed field, hence on their entry, so it
does not matter which of them is first: the entries are those of the set of blocks.
-/

namespace Arxia

open Rust

namespace Reconciliation

open Settlement

variable {K : Crates}

/-- Without collisions an entry is there exactly when one of the blocks has it. -/
theorem mem_entries_of_collisionFree (hserde : Serde K) {blocks : List Block}
    (hhashed : ∀ b ∈ blocks, b.Hashed K) (hcf : Block.CollisionFree K blocks) {e : Entry} :
    e ∈ entries blocks ↔ ∃ b ∈ blocks, b.entry = e := by
  rw [mem_entries, Option.map_eq_some_iff]
  constructor
  · rintro ⟨b, hfind, rfl⟩
    exact ⟨b, List.mem_of_find?_eq_some hfind, rfl⟩
  · rintro ⟨b, hb, rfl⟩
    have hsome : (blocks.find? fun c ↦ c.hash = b.hash).isSome :=
      List.find?_isSome.mpr ⟨b, hb, decide_eq_true rfl⟩
    obtain ⟨c, hfind⟩ := Option.isSome_iff_exists.mp hsome
    refine ⟨c, hfind, ?_⟩
    -- the first block with this hash has the fields of every other
    have hc := List.mem_of_find?_eq_some hfind
    have hhash : c.hash = b.hash := by simpa using List.find?_some hfind
    have hsame := hcf.sameContents hserde hc hb (hhashed c hc) (hhashed b hb) hhash
    rw [Block.entry, Block.entry, hsame.account, hsame.nonce, hsame.blockType, hhash]

theorem entries_eq_of_mem_iff (hserde : Serde K) {blocks blocks' : List Block}
    (hsame : ∀ b, b ∈ blocks ↔ b ∈ blocks') (hhashed : ∀ b ∈ blocks, b.Hashed K)
    (hcf : Block.CollisionFree K blocks) : entries blocks' = entries blocks := by
  have hhashed' : ∀ b ∈ blocks', b.Hashed K := fun b hb ↦ hhashed b ((hsame b).mpr hb)
  have hcf' : Block.CollisionFree K blocks' := hcf.mono fun b hb ↦ (hsame b).mpr hb
  ext e
  rw [mem_entries_of_collisionFree hserde hhashed' hcf',
    mem_entries_of_collisionFree hserde hhashed hcf]
  simp only [hsame]

/-- **Independence.** Two pairs of partitions that hold the same blocks, each under its own hash,
have the same outcome: errors for both or the same report, whatever the split, the order, the
repetitions and the orders of iteration. -/
theorem sameOutcome_of_mem_iff (hserde : Serde K)
    {partitionA partitionB partitionA' partitionB' : List Block}
    (hsame : ∀ b, b ∈ partitionA ++ partitionB ↔ b ∈ partitionA' ++ partitionB')
    (hhash : ∀ b ∈ partitionA ++ partitionB, Block.computeHash K b.account b.previous b.blockType
      b.balance b.nonce b.timestamp = .ok b.hash)
    (hcf : Block.CollisionFree K (partitionA ++ partitionB)) (σ σ' : Orders) :
    SameOutcome (reconcilePartitions σ partitionA partitionB).exec
      (reconcilePartitions σ' partitionA' partitionB').exec := by
  have hhashed : ∀ b ∈ partitionA ++ partitionB, b.Hashed K := fun b hb ↦
    Block.computeHash_eq_ok.mp (hhash b hb)
  have houtcome := outcome_reconcilePartitions σ partitionA partitionB
  have houtcome' := outcome_reconcilePartitions σ' partitionA' partitionB'
  rw [entries_eq_of_mem_iff hserde hsame hhashed hcf] at houtcome'
  exact houtcome.sameOutcome (sliceable_of_hashed hhashed) houtcome'

end Reconciliation

namespace Reference

open Reconciliation

/-- The transfer, with the blocks of each account on its own side or interleaved and doubled. -/
theorem sameOutcome_transfer :
    Settlement.SameOutcome
      (reconcilePartitions .asListed [openAlice, sendToBob] [openBob, receiveFromAlice]).exec
      (reconcilePartitions .asListed [receiveFromAlice, sendToBob, openBob, sendToBob]
        [openBob, openAlice]).exec := by
  have hsame : ∀ b, b ∈ [openAlice, sendToBob] ++ [openBob, receiveFromAlice] ↔
      b ∈ [receiveFromAlice, sendToBob, openBob, sendToBob] ++ [openBob, openAlice] := fun b ↦ by
    simp only [List.cons_append, List.nil_append, List.mem_cons, List.not_mem_nil, or_false]
    grind
  exact sameOutcome_of_mem_iff serde_serde hsame
    (fun b hb ↦ Block.computeHash_eq_ok.mpr (hashed_paid b hb)) collisionFree_paid .asListed
    .asListed

end Reference

end Arxia
