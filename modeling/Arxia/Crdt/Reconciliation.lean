import Arxia.Crdt.PNCounter
import Arxia.Lattice.Block
import Arxia.Rust.Grouping
import Mathlib.Data.Prod.Lex
import Mathlib.Data.String.Basic

/-!
# Partition reconciliation

`reconcile_partitions` merges the blocks of two partitions: it drops repeated hashes, keeps one
block for each account and nonce, and applies the kept blocks to one counter an account. The three
hash maps it iterates may be traversed in any order; `Orders` fixes one for each.

Everything up to the balances is straight-line code that can only panic, so it lives in `Option`.
The one place that panics on some inputs is the slice `&block.account[..8]` that names the node of
a counter.
-/

namespace Arxia

open Rust

/-- Info on a conflict resolved during reconciliation. -/
structure ResolvedConflict where
  account : String
  nonce : UInt64
  /-- Hash of the block that was applied (winner). -/
  winnerHash : String
  /-- Hashes of all blocks that were rejected (losers). -/
  loserHashes : List String
  method : String
  deriving DecidableEq

/-- Info on a Receive block that was rejected. -/
structure RejectedReceive where
  account : String
  nonce : UInt64
  receiveHash : String
  /-- The `source_hash` the Receive pointed at (may be bogus). -/
  sourceHash : String
  reason : String
  deriving DecidableEq

/-- Info on an Open block that was rejected because it claimed a non-genesis nonce. -/
structure RejectedGenesis where
  account : String
  nonce : UInt64
  blockHash : String
  reason : String
  deriving DecidableEq

/-- Full outcome of a `reconcile_partitions` call. -/
structure ReconciliationReport where
  /-- Final per-account balance map. -/
  balances : HashMap String ℤ
  conflicts : List ResolvedConflict
  rejectedReceives : List RejectedReceive
  rejectedGenesis : List RejectedGenesis

namespace Reconciliation

/-- What blocks are grouped by. -/
abbrev Key := String × UInt64

/-- The key of a block. -/
def key (b : Block) : Key := (b.account, b.nonce)

/-- The order of the sorted keys: by account, then by nonce. -/
def keyOrder (k : Key) : String ×ₗ ℕ := toLex (k.1, k.2.toNat)

/-- The orders in which one call iterates its hash maps. -/
structure Orders where
  byKey : IterOrder Key (List Block)
  winners : IterOrder Key Block
  crdts : IterOrder String PNCounter

/-- Every map in the order in which the model lists it. -/
def Orders.asListed : Orders where
  byKey := .asListed _ _
  winners := .asListed _ _
  crdts := .asListed _ _

/-- The winners map and the conflicts found so far. -/
structure Picked where
  winners : HashMap Key Block
  conflicts : List ResolvedConflict

/-- The body of the loop that picks a winner for one key. `none` is an index out of bounds. -/
def pickWinner (st : Picked) (key : Key) (group : List Block) : Option Picked := do
  if group.length = 1 then
    let winner ← group[0]?
    pure { st with winners := st.winners.insert key winner }
  else
    let sorted := sortBy Block.hash group
    let winner ← sorted[0]?
    let losers := (sorted.drop 1).map Block.hash
    pure {
      winners := st.winners.insert key winner
      conflicts := st.conflicts ++ [{
        account := key.1, nonce := key.2, winnerHash := winner.hash, loserHashes := losers
        method := "hash_tiebreaker" }] }

/-- Pick a winner for each key. -/
def pickWinners (groups : List (Σ _ : Key, List Block)) : Option Picked :=
  groups.foldlM (fun st e ↦ pickWinner st e.1 e.2) ⟨∅, []⟩

/-- Index every winning Send by its hash. -/
def indexSends (winners : List (Σ _ : Key, Block)) : HashMap String Block :=
  insertAll ∅ (((winners.map fun e ↦ e.2).filter fun b ↦ b.blockType.isSend).map
    fun b ↦ (b.hash, b))

/-- The state of the loop that applies the winning blocks. -/
structure Applied where
  crdts : HashMap String PNCounter
  rejectedReceives : List RejectedReceive
  rejectedGenesis : List RejectedGenesis

/-- `crdts.entry(block.account.clone()).or_default()` updated under the node
`&block.account[..8]`: `none` is the panic of the slice. -/
def Applied.update (st : Applied) (account : String) (f : PNCounter → String → PNCounter) :
    Option Applied := do
  let node ← bytePrefix account.toList 8
  let counter := (st.crdts.lookup account).getD PNCounter.new
  pure { st with crdts := st.crdts.insert account (f counter (String.ofList node)) }

/-- Apply one winning block. -/
def applyBlock (appliedSends : HashMap String Block) (st : Applied) (block : Block) :
    Option Applied :=
  match block.blockType with
  | .open initialBalance =>
    if block.nonce ≠ 1 then
      pure { st with rejectedGenesis := st.rejectedGenesis ++ [{
        account := block.account, nonce := block.nonce, blockHash := block.hash
        reason := "open_at_non_genesis_nonce" }] }
    else st.update block.account fun c node ↦ c.increment node initialBalance
  | .send _ amount => st.update block.account fun c node ↦ c.decrement node amount
  | .receive sourceHash =>
    let reject (reason : String) : Applied :=
      { st with rejectedReceives := st.rejectedReceives ++ [{
        account := block.account, nonce := block.nonce, receiveHash := block.hash
        sourceHash := sourceHash, reason := reason }] }
    match appliedSends.lookup sourceHash with
    | none => pure (reject "source_not_found")
    | some source =>
      match source.blockType with
      | .send destination amount =>
        if destination = block.account then
          st.update block.account fun c node ↦ c.increment node amount
        else pure (reject "destination_mismatch")
      | _ => pure (reject "destination_mismatch")
  | .revoke _ => pure st

/-- Apply the winner of one key; `none` is also the failed `expect("winner recorded per key")`. -/
def applyKey (winners : HashMap Key Block) (appliedSends : HashMap String Block) (st : Applied)
    (key : Key) : Option Applied := do
  let block ← winners.lookup key
  applyBlock appliedSends st block

/-- Materialize balances and enforce the non-negative invariant. -/
def materialize : List (Σ _ : String, PNCounter) → HashMap String ℤ →
    Except ArxiaError (HashMap String ℤ)
  | [], balances => .ok balances
  | ⟨account, counter⟩ :: rest, balances =>
    let value := counter.value
    if value < 0 then .error (.negativeBalance account value)
    else materialize rest (balances.insert account value)

/-- Reconcile two partitions into merged balances. -/
def reconcilePartitions (σ : Orders) (partitionA partitionB : List Block) :
    Fallible ArxiaError ReconciliationReport := do
  let all := firsts Block.hash (partitionA ++ partitionB) ∅
  let byKey := group key all
  let groups := σ.byKey.arrange byKey.entries
  let picked ← Fallible.orPanic (pickWinners groups)
  let appliedSends := indexSends (σ.winners.arrange picked.winners.entries)
  let orderedKeys := sortBy keyOrder (groups.map fun e ↦ e.1)
  let applied ← Fallible.orPanic
    (orderedKeys.foldlM (applyKey picked.winners appliedSends) ⟨∅, [], []⟩)
  let balances ← Fallible.ofExcept (materialize (σ.crdts.arrange applied.crdts.entries) ∅)
  pure {
    balances := balances
    conflicts := picked.conflicts
    rejectedReceives := applied.rejectedReceives
    rejectedGenesis := applied.rejectedGenesis }

end Reconciliation

end Arxia
