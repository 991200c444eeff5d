import Arxia.Crdt.Refinement
import Arxia.Lattice.Reference

/-!
# Unverified blocks in a reconciliation

`reconcile_partitions` never calls `verify_block`. Whatever a block claims enters the settlement,
unless an earlier block already has its hash. So a block that fails verification goes unnoticed
exactly as far as deduplication hides it: an insertion that changes no first entry changes nothing.

Into every pair of partitions a block can be inserted that does more. One with an empty account and
an empty hash is the first with its hash and the smallest of its key, and the slice of its account
panics.
-/

namespace Arxia

open Rust

namespace Reconciliation

open Settlement

/-- The second list is the first with blocks satisfying `p` inserted anywhere. -/
inductive Inserted (p : Block → Prop) : List Block → List Block → Prop
  | nil : Inserted p [] []
  | keep (b : Block) {l l' : List Block} (h : Inserted p l l') : Inserted p (b :: l) (b :: l')
  | insert (b : Block) (hb : p b) {l l' : List Block} (h : Inserted p l l') :
      Inserted p l (b :: l')

theorem Inserted.refl {p : Block → Prop} (l : List Block) : Inserted p l l := by
  induction l with
  | nil => exact .nil
  | cons b l ih => exact .keep b ih

/-- Blocks that fail verification change nothing, wherever they are inserted, and no call panics. -/
def Immune (K : Crates) (σ : Orders) (partitionA partitionB : List Block) : Prop :=
  ∀ partitionA' partitionB', Inserted (fun b ↦ ¬ Verified K b) partitionA partitionA' →
    Inserted (fun b ↦ ¬ Verified K b) partitionB partitionB' →
    SameOutcome (reconcilePartitions σ partitionA partitionB).exec
      (reconcilePartitions σ partitionA' partitionB').exec

/-! ## A block no partition survives -/

/-- A Send of an empty account under an empty hash. -/
def nameless : Block where
  account := ""
  previous := ""
  blockType := .send "" 0
  balance := 0
  nonce := 1
  timestamp := 0
  hash := ""
  signature := []

theorem not_verified_nameless (K : Crates) : ¬ Verified K nameless := by
  intro h
  obtain ⟨key, hkey, -⟩ := h.hashed.key
  have hdecode := Crypto.accountKey_eq_ok.mp hkey
  have hlen := (Hex.decode_eq_some hdecode).1
  rw [Vector.length_toList] at hlen
  exact absurd hlen (by decide)

theorem empty_le (s : String) : "" ≤ s := by
  rw [← not_lt, String.lt_iff_toList_lt]
  exact List.not_lt_nil _

theorem not_sliceable_nameless (blocks : List Block) :
    ¬ Sliceable (winners (entries (nameless :: blocks))) := by
  intro h
  have hmem : nameless.entry ∈ entries (nameless :: blocks) :=
    mem_entries.mpr (by rw [List.find?_cons_of_pos (by decide)]; rfl)
  have hwins : nameless.entry ∈ winners (entries (nameless :: blocks)) :=
    mem_winners.mpr ⟨hmem, fun c _ _ ↦ empty_le c.hash⟩
  have haccount : nameless.account ∈ accounts (winners (entries (nameless :: blocks))) :=
    Finset.mem_image.mpr ⟨_, Finset.mem_filter.mpr ⟨hwins, touches_send rfl⟩, rfl⟩
  exact absurd (h _ haccount) (by decide)

/-- **Unverified blocks.** No pair of partitions is immune to them: into each a block that fails
verification can be inserted that makes the call panic. A given insertion is harmless when every
account that gets a counter can be sliced and for every hash the first block that has it keeps its
account, nonce and type. -/
theorem unverified_blocks (K : Crates) (partitionA partitionB : List Block) :
    (∀ σ, ¬ Immune K σ partitionA partitionB) ∧
      ∀ partitionA' partitionB',
        Sliceable (winners (entries (partitionA ++ partitionB))) →
        (∀ hash, firstEntry (partitionA' ++ partitionB') hash =
          firstEntry (partitionA ++ partitionB) hash) →
        ∀ σ σ', SameOutcome (reconcilePartitions σ partitionA partitionB).exec
          (reconcilePartitions σ' partitionA' partitionB').exec := by
  constructor
  · intro σ himmune
    have hsame := himmune (nameless :: partitionA) partitionB
      (.insert nameless (not_verified_nameless K) (.refl _)) (.refl _)
    have hpanic : (reconcilePartitions σ (nameless :: partitionA) partitionB).exec = none :=
      exec_reconcilePartitions_eq_none.mpr (not_sliceable_nameless (partitionA ++ partitionB))
    exact hsame.ne_none hpanic
  · intro partitionA' partitionB' hslice hfirst σ σ'
    have houtcome' := outcome_reconcilePartitions σ' partitionA' partitionB'
    rw [entries_eq_of_firstEntry hfirst] at houtcome'
    exact (outcome_reconcilePartitions σ partitionA partitionB).sameOutcome hslice houtcome'

/-- A copy of a block without its signature. -/
def unsigned (b : Block) : Block := { b with signature := [] }

theorem firstEntry_unsigned (b : Block) (hash : String) :
    firstEntry ([b, unsigned b] ++ []) hash = firstEntry ([b] ++ []) hash := by
  have hhash : (unsigned b).hash = b.hash := rfl
  simp only [List.append_nil, firstEntry, List.find?_cons, List.find?_nil, hhash]
  by_cases h : b.hash = hash
  · simp only [h, decide_true]
  · simp only [h, decide_false]

/-- Behind the block it copies, it goes unnoticed. -/
theorem unverified_copy :
    ¬ Verified Reference.crates (unsigned Reference.openAlice) ∧
      SameOutcome (reconcilePartitions Orders.asListed [Reference.openAlice] []).exec
        (reconcilePartitions Orders.asListed
          [Reference.openAlice, unsigned Reference.openAlice] []).exec := by
  have hunverified : ¬ Verified Reference.crates (unsigned Reference.openAlice) := by
    decide +kernel
  have hslice : Sliceable (winners (entries ([Reference.openAlice] ++ []))) := by decide +kernel
  have hsame := (unverified_blocks Reference.crates [Reference.openAlice] []).2
    [Reference.openAlice, unsigned Reference.openAlice] [] hslice
    (firstEntry_unsigned Reference.openAlice) Orders.asListed Orders.asListed
  exact ⟨hunverified, hsame⟩

/-- An Open that nobody hashed or signed. -/
def forgedOpen : Block where
  account := Reference.alice
  previous := ""
  blockType := .open 100
  balance := 100
  nonce := 1
  timestamp := 1
  hash := "00"
  signature := []

/-- It fails verification and gives its account a balance. -/
theorem not_immune :
    ¬ ∀ (σ : Orders) (partitionA partitionB : List Block),
      Immune Reference.crates σ partitionA partitionB := by
  intro h
  have hunverified : ¬ Verified Reference.crates forgedOpen := by decide +kernel
  have hsame := h Orders.asListed [] [] [forgedOpen] []
    (.insert forgedOpen hunverified .nil) .nil
  have hbefore : reported (reconcilePartitions Orders.asListed [] []).exec Reference.alice =
      some none := by decide
  have hafter : reported (reconcilePartitions Orders.asListed [forgedOpen] []).exec
      Reference.alice = some (some 100) := by decide +kernel
  have hreported := hsame.reported_eq Reference.alice
  rw [hbefore, hafter] at hreported
  cases hreported

end Reconciliation

end Arxia
