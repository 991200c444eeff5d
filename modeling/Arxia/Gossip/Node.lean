import Arxia.Gossip.NonceRegistry
import Arxia.Lattice.Validation
import Arxia.Transition.Runs

/-!
# A gossip node

A node keeps the blocks it knows and the registry of the nonces that are taken, each up to a
capacity; beyond that the oldest entry is evicted. The registry is a map, and its order of insertion
is kept beside it, by blocks that arrive and by registries of peers that are merged.

An eviction takes the first key of that order which is still in the registry. While the order has
just the keys of the registry this is the oldest of them, and evicting until the registry is within
its capacity removes a front of the order.
-/

namespace Arxia

open Rust Transition

/-- A gossip node that participates in the mesh network. -/
structure GossipNode where
  nodeId : String
  /-- Blocks known to this node, in insertion order. -/
  knownBlocks : List Block
  nonceRegistry : NonceRegistry
  peers : Finset String
  /-- Conflicts accumulated across all merges. -/
  pendingConflicts : List NonceConflict
  /-- The keys of the registry, in insertion order. -/
  nonceRegistryOrder : List NonceKey
  knownBlocksDropped : UInt64
  nonceRegistryDropped : UInt64
  knownBlocksCapacity : ℕ
  nonceRegistryCapacity : ℕ

namespace GossipNode

/-- Create a gossip node with custom capacities, which are at least one. -/
def withCapacity (nodeId : String) (knownBlocksCapacity nonceRegistryCapacity : ℕ) :
    GossipNode where
  nodeId := nodeId
  knownBlocks := []
  nonceRegistry := ∅
  peers := ∅
  pendingConflicts := []
  nonceRegistryOrder := []
  knownBlocksDropped := 0
  nonceRegistryDropped := 0
  knownBlocksCapacity := max knownBlocksCapacity 1
  nonceRegistryCapacity := max nonceRegistryCapacity 1

/-- Pop keys until one of them is in the registry, and remove that. -/
def popOldest (registry : NonceRegistry) : List NonceKey → Option (NonceRegistry × List NonceKey)
  | [] => none
  | oldest :: order =>
    if oldest ∈ registry then some (registry.erase oldest, order) else popOldest registry order

/-- Remove the oldest key from the registry; whether there was one. -/
def evictOldestNonceEntry (node : GossipNode) : Bool × GossipNode :=
  match popOldest node.nonceRegistry node.nonceRegistryOrder with
  | some (registry, order) => (true, { node with
      nonceRegistry := registry
      nonceRegistryOrder := order
      nonceRegistryDropped := node.nonceRegistryDropped.saturatingAdd 1 })
  | none => (false, { node with nonceRegistryOrder := [] })

/-- Evict until the registry is within its capacity; the fuel is the length it starts with. -/
def evictToCapacity : ℕ → GossipNode → GossipNode
  | 0, node => node
  | fuel + 1, node =>
    if node.nonceRegistryCapacity < node.nonceRegistry.entries.length then
      match node.evictOldestNonceEntry with
      | (true, node) => evictToCapacity fuel node
      | (false, node) => node
    else node

/-- The key and the hash that a block is registered with, once it is verified. -/
def registryEntry (K : Crates) (block : Block) : Except ArxiaError (NonceKey × NonceEntry) := do
  verifyBlock K block
  let hash ← (K.hexDecode block.hash).mapError .signatureInvalid
  let hashBytes ← okOr (toArray 32 hash) .hashMismatch
  let accountBytes ← K.accountKey block.account
  pure ((accountBytes, block.nonce), hashBytes)

/-- Enter a new key, in place of the oldest one if the registry is full. -/
def register (key : NonceKey) (hash : NonceEntry) (node : GossipNode) : GossipNode :=
  let node := if node.nonceRegistryCapacity ≤ node.nonceRegistry.entries.length then
      node.evictOldestNonceEntry.2
    else node
  { node with
    nonceRegistry := node.nonceRegistry.insert key hash
    nonceRegistryOrder := node.nonceRegistryOrder ++ [key] }

/-- Store a block, in place of the oldest one if there are as many as can be. -/
def store (block : Block) (node : GossipNode) : GossipNode :=
  let node := if node.knownBlocksCapacity ≤ node.knownBlocks.length then
      { node with
        knownBlocks := node.knownBlocks.tail
        knownBlocksDropped := node.knownBlocksDropped.saturatingAdd 1 }
    else node
  { node with knownBlocks := node.knownBlocks ++ [block] }

/-- Add a block to the known set and register its (account, nonce). -/
def addBlock (K : Crates) (block : Block) : Call GossipNode ArxiaError Unit := do
  let (key, hash) ← Call.ofExcept (registryEntry K block)
  let node ← get
  match node.nonceRegistry.lookup key with
  | some existing => if existing = hash then pure () else throw (.doubleSpend block.nonce)
  | none => set (store block (register key hash node))

/-- Merge a remote nonce registry into the one of this node. -/
def mergeRegistry (remote : NonceRegistry) (node : GossipNode) : List NonceConflict × GossipNode :=
  let preKeys := node.nonceRegistry.keys.toFinset
  let (conflicts, registry) := mergeNonceRegistries node.nonceRegistry remote
  let newKeys := (registry.keysInOrder NonceKey.order).filter (· ∉ preKeys)
  (conflicts, evictToCapacity registry.entries.length { node with
    nonceRegistry := registry
    pendingConflicts := node.pendingConflicts ++ conflicts
    nonceRegistryOrder := node.nonceRegistryOrder ++ newKeys })

/-- Drain and return every conflict accumulated since the last drain. -/
def drainPendingConflicts (node : GossipNode) : List NonceConflict × GossipNode :=
  (node.pendingConflicts, { node with pendingConflicts := [] })

/-! ## Calls -/

/-- What is asked of a node. -/
inductive Request
  | addBlock (block : Block)
  | mergeRegistry (remote : NonceRegistry)
  | drainPendingConflicts

/-- What a call returns. -/
inductive Response
  | added (result : Except ArxiaError Unit)
  | conflicts (conflicts : List NonceConflict)

/-- The call that a request makes. -/
def handle (K : Crates) (node : GossipNode) : Request → Option (Response × GossipNode)
  | .addBlock block => ((addBlock K block).exec node).map fun out ↦ (.added out.1, out.2)
  | .mergeRegistry remote =>
    let out := mergeRegistry remote node
    some (.conflicts out.1, out.2)
  | .drainPendingConflicts =>
    let out := drainPendingConflicts node
    some (.conflicts out.1, out.2)

/-- A request, the node that it was made of, and what the call returned. -/
structure Handled where
  before : GossipNode
  request : Request
  response : Response

/-- A node with these capacities. -/
def system (K : Crates) (nodeId : String) (knownBlocksCapacity nonceRegistryCapacity : ℕ) :
    System GossipNode Handled where
  init := fun node ↦ node = withCapacity nodeId knownBlocksCapacity nonceRegistryCapacity
  step := fun node a node' ↦ a.before = node ∧ handle K node a.request = some (a.response, node')

/-! ## What comes in -/

/-- The keys that a call enters into the registry, one after the other. -/
def insertedBy (K : Crates) (node : GossipNode) : Request → List NonceKey
  | .addBlock block =>
    match registryEntry K block with
    | .ok (key, _) => if key ∈ node.nonceRegistry then [] else [key]
    | .error _ => []
  | .mergeRegistry remote =>
    ((remote.inOrder NonceKey.order).filter fun e ↦ e.1 ∉ node.nonceRegistry).map Prod.fst
  | .drainPendingConflicts => []

/-- The blocks that a call stores. -/
def storedBy (K : Crates) (node : GossipNode) : Request → List Block
  | .addBlock block =>
    match registryEntry K block with
    | .ok (key, _) => if key ∈ node.nonceRegistry then [] else [block]
    | .error _ => []
  | _ => []

/-- The hash that a call offers for a key. -/
def offeredBy (K : Crates) : Request → NonceKey → Option NonceEntry
  | .addBlock block, key =>
    match registryEntry K block with
    | .ok (key', hash) => if key = key' then some hash else none
    | .error _ => none
  | .mergeRegistry remote, key => remote.lookup key
  | .drainPendingConflicts, _ => none

/-- The keys that have been entered in the course of a run. -/
def inserted (K : Crates) (tr : List Handled) : List NonceKey :=
  tr.flatMap fun a ↦ insertedBy K a.before a.request

/-- The blocks that have been stored in the course of a run. -/
def stored (K : Crates) (tr : List Handled) : List Block :=
  tr.flatMap fun a ↦ storedBy K a.before a.request

variable {K : Crates} {node node' node'' : GossipNode} {key : NonceKey} {hash : NonceEntry}
  {gone gone' : List NonceKey}

/-! ## Evictions -/

/-- The order tracker lists the keys of the registry, once each. -/
structure Tracked (node : GossipNode) : Prop where
  nodup : node.nonceRegistryOrder.Nodup
  mem_iff : ∀ key, key ∈ node.nonceRegistryOrder ↔ key ∈ node.nonceRegistry

theorem Tracked.length_eq (h : Tracked node) :
    node.nonceRegistry.entries.length = node.nonceRegistryOrder.length := by
  have hperm : node.nonceRegistryOrder.Perm node.nonceRegistry.keys :=
    (List.perm_ext_iff_of_nodup h.nodup node.nonceRegistry.keys_nodup).mpr fun key ↦
      (h.mem_iff key).trans AList.mem_keys
  rw [hperm.length_eq, AList.keys, List.keys, List.length_map]

/-- These keys, the oldest, have been removed from the registry, and nothing else has changed. -/
structure Evicts (node : GossipNode) (gone : List NonceKey) (node' : GossipNode) : Prop where
  tracked : Tracked node'
  order : node.nonceRegistryOrder = gone ++ node'.nonceRegistryOrder
  lookup : ∀ key ∈ node'.nonceRegistryOrder,
    node'.nonceRegistry.lookup key = node.nonceRegistry.lookup key
  dropped : node'.nonceRegistryDropped.toNat =
    min (node.nonceRegistryDropped.toNat + gone.length) u64Max
  rest : node' = { node with
    nonceRegistry := node'.nonceRegistry
    nonceRegistryOrder := node'.nonceRegistryOrder
    nonceRegistryDropped := node'.nonceRegistryDropped }

theorem Tracked.evicts_nil (h : Tracked node) : Evicts node [] node where
  tracked := h
  order := rfl
  lookup := fun _ _ ↦ rfl
  dropped := (min_eq_left node.nonceRegistryDropped.toNat_le_u64Max).symm
  rest := rfl

theorem Evicts.trans (h : Evicts node gone node') (h' : Evicts node' gone' node'') :
    Evicts node (gone ++ gone') node'' where
  tracked := h'.tracked
  order := by rw [h.order, h'.order, List.append_assoc]
  lookup := fun key hkey ↦
    (h'.lookup key hkey).trans (h.lookup key (h'.order ▸ List.mem_append_right _ hkey))
  dropped := by
    rw [h'.dropped, h.dropped, List.length_append]
    omega
  rest := by
    rw [h'.rest, h.rest]

/-- **One eviction** removes the oldest key. -/
theorem Tracked.evictOldestNonceEntry (h : Tracked node) {order : List NonceKey}
    (horder : node.nonceRegistryOrder = key :: order) :
    ∃ node', node.evictOldestNonceEntry = (true, node') ∧ Evicts node [key] node' := by
  have hmem : key ∈ node.nonceRegistry := (h.mem_iff key).mp (horder ▸ List.mem_cons_self)
  have hnodup := h.nodup
  rw [horder, List.nodup_cons] at hnodup
  refine ⟨_, by rw [GossipNode.evictOldestNonceEntry, horder, popOldest, if_pos hmem], ?_⟩
  refine ⟨⟨hnodup.2, fun key' ↦ ?_⟩, horder, fun key' hkey' ↦ ?_, ?_, rfl⟩
  · rw [AList.mem_erase, ← h.mem_iff, horder, List.mem_cons]
    constructor
    · exact fun hkey' ↦ ⟨fun heq ↦ hnodup.1 (heq ▸ hkey'), Or.inr hkey'⟩
    · exact fun ⟨hne, hkey'⟩ ↦ hkey'.resolve_left hne
  · exact AList.lookup_erase_ne fun heq ↦ hnodup.1 (heq ▸ hkey')
  · exact UInt64.toNat_saturatingAdd _ _

/-- **Evicting to capacity**: the fuel is enough when it covers what there is too much of. -/
theorem Tracked.evictToCapacity (h : Tracked node) {fuel : ℕ}
    (hfuel : node.nonceRegistryOrder.length ≤ node.nonceRegistryCapacity + fuel) :
    ∃ gone, Evicts node gone (evictToCapacity fuel node) ∧
      (evictToCapacity fuel node).nonceRegistryOrder.length =
        min node.nonceRegistryOrder.length node.nonceRegistryCapacity := by
  induction fuel generalizing node with
  | zero => exact ⟨[], h.evicts_nil, (min_eq_left hfuel).symm⟩
  | succ fuel ih =>
    rw [GossipNode.evictToCapacity, h.length_eq]
    split
    · -- there is a key to evict, and one more is gone with it
      rename_i hover
      obtain ⟨key, order, horder⟩ := List.exists_cons_of_length_pos (Nat.zero_lt_of_lt hover)
      obtain ⟨node', hevict, hone⟩ := h.evictOldestNonceEntry horder
      have hcapacity : node'.nonceRegistryCapacity = node.nonceRegistryCapacity := by
        rw [hone.rest]
      have hlength := congrArg List.length hone.order
      rw [List.length_append, List.length_singleton] at hlength
      obtain ⟨gone, hgone, hleft⟩ := ih hone.tracked (by omega)
      rw [hevict]
      refine ⟨[key] ++ gone, hone.trans hgone, hleft.trans ?_⟩
      omega
    · rename_i hwithin
      exact ⟨[], h.evicts_nil, (min_eq_left (not_lt.mp hwithin)).symm⟩

/-! ## Blocks -/

/-- A block is registered under the key that its account names and its nonce, with its hash. -/
theorem registryEntry_eq_ok {block : Block} :
    registryEntry K block = .ok (key, hash) ↔ Verified K block ∧
      K.hexDecode block.hash = .ok hash.toList ∧ K.accountKey block.account = .ok key.1 ∧
      key.2 = block.nonce := by
  rw [registryEntry, Verified]
  simp only [bind_eq_ok, mapError_eq_ok, okOr_eq_ok, toArray_eq_some, pure, Except.pure,
    Except.ok.injEq, Prod.mk.injEq]
  constructor
  · rintro ⟨_, hverify, _, hdecode, _, rfl, _, haccount, rfl, rfl⟩
    exact ⟨hverify, hdecode, haccount, rfl⟩
  · rintro ⟨hverify, hdecode, haccount, hnonce⟩
    exact ⟨(), hverify, _, hdecode, hash, rfl, key.1, haccount, Prod.ext rfl hnonce.symm, rfl⟩

/-- **A block that verifies** can be registered. -/
theorem exists_registryEntry {block : Block} (h : Verified K block) :
    ∃ key hash, registryEntry K block = .ok (key, hash) := by
  obtain ⟨⟨account, haccount, -⟩, s, -, hhash⟩ := h.hashed
  refine ⟨(account, block.nonce), K.blake3 (asBytes s),
    registryEntry_eq_ok.mpr ⟨h, ?_, haccount, rfl⟩⟩
  rw [hhash]
  exact (K.hexDecode_eq_ok _ _).mpr (Hex.decode_encode _)

/-- **What `add_block` does.** -/
theorem exec_addBlock (K : Crates) (block : Block) (node : GossipNode) :
    (addBlock K block).exec node = some (match registryEntry K block with
      | .error e => (.error e, node)
      | .ok (key, hash) =>
        match node.nonceRegistry.lookup key with
        | some existing =>
          if existing = hash then (.ok (), node)
          else (.error (.doubleSpend block.nonce), node)
        | none => (.ok (), store block (register key hash node))) := by
  rw [addBlock]
  rcases hentry : registryEntry K block with e | ⟨key, hash⟩
  · exact Call.exec_check_error rfl node
  · rw [Call.exec_check_ok rfl, Call.exec_bind_ok (Call.exec_get node)]
    dsimp only
    rcases node.nonceRegistry.lookup key with _ | existing
    · rfl
    · dsimp only
      split <;> rfl

/-- What a call of `add_block` can have done. -/
theorem addBlock_cases {block : Block} {result : Except ArxiaError Unit}
    (hexec : (addBlock K block).exec node = some (result, node')) :
    (∃ e, registryEntry K block = .error e ∧ result = .error e ∧ node' = node) ∨
    ∃ key hash, registryEntry K block = .ok (key, hash) ∧
      ((∃ existing, node.nonceRegistry.lookup key = some existing ∧ node' = node ∧
          result = if existing = hash then .ok () else .error (.doubleSpend block.nonce)) ∨
        node.nonceRegistry.lookup key = none ∧ result = .ok () ∧
          node' = store block (register key hash node)) := by
  have hout := Option.some_inj.mp (hexec.symm.trans (exec_addBlock K block node))
  rcases hentry : registryEntry K block with e | ⟨key, hash⟩
  · rw [hentry] at hout
    obtain ⟨rfl, rfl⟩ := Prod.mk.inj hout
    exact Or.inl ⟨e, rfl, rfl, rfl⟩
  refine Or.inr ⟨key, hash, rfl, ?_⟩
  rw [hentry] at hout
  dsimp only at hout
  rcases hlookup : node.nonceRegistry.lookup key with _ | existing
  · rw [hlookup] at hout
    obtain ⟨rfl, rfl⟩ := Prod.mk.inj hout
    exact Or.inr ⟨rfl, rfl, rfl⟩
  · rw [hlookup] at hout
    dsimp only at hout
    refine Or.inl ⟨existing, rfl, ?_⟩
    split at hout
    · rename_i hsame
      obtain ⟨rfl, rfl⟩ := Prod.mk.inj hout
      exact ⟨rfl, (if_pos hsame).symm⟩
    · rename_i hne
      obtain ⟨rfl, rfl⟩ := Prod.mk.inj hout
      exact ⟨rfl, (if_neg hne).symm⟩

/-- What a call does, told from what comes in and whether it is new. -/
inductive Does (K : Crates) (node : GossipNode) : Request → Response → GossipNode → Prop
  | rejected {block : Block} {e : ArxiaError} (hentry : registryEntry K block = .error e) :
    Does K node (.addBlock block) (.added (.error e)) node
  | registered {block : Block} {key : NonceKey} {hash existing : NonceEntry}
    (hentry : registryEntry K block = .ok (key, hash))
    (hlookup : node.nonceRegistry.lookup key = some existing) :
    Does K node (.addBlock block)
      (.added (if existing = hash then .ok () else .error (.doubleSpend block.nonce))) node
  | stored {block : Block} {key : NonceKey} {hash : NonceEntry}
    (hentry : registryEntry K block = .ok (key, hash))
    (hlookup : node.nonceRegistry.lookup key = none) :
    Does K node (.addBlock block) (.added (.ok ())) (store block (register key hash node))
  | merged (remote : NonceRegistry) :
    Does K node (.mergeRegistry remote) (.conflicts (mergeRegistry remote node).1)
      (mergeRegistry remote node).2
  | drained :
    Does K node .drainPendingConflicts (.conflicts node.pendingConflicts)
      { node with pendingConflicts := [] }

theorem does_of_handle {request : Request} {response : Response}
    (hhandle : handle K node request = some (response, node')) :
    Does K node request response node' := by
  rcases request with block | remote | _
  · rw [handle, Option.map_eq_some_iff] at hhandle
    obtain ⟨⟨result, _⟩, hexec, hout⟩ := hhandle
    obtain ⟨rfl, rfl⟩ := Prod.mk.inj hout
    rcases addBlock_cases hexec with ⟨e, hentry, rfl, rfl⟩ | ⟨key, hash, hentry, hrest⟩
    · exact .rejected hentry
    rcases hrest with ⟨existing, hlookup, rfl, rfl⟩ | ⟨hlookup, rfl, rfl⟩
    · exact .registered hentry hlookup
    · exact .stored hentry hlookup
  · rw [handle, Option.some_inj] at hhandle
    obtain ⟨rfl, rfl⟩ := Prod.mk.inj hhandle
    exact .merged remote
  · rw [handle, Option.some_inj] at hhandle
    obtain ⟨rfl, rfl⟩ := Prod.mk.inj hhandle
    exact .drained

/-! ## Concrete runs -/

/-- The requests one after the other: the calls, and the node after them. -/
def play (K : Crates) : GossipNode → List Request → Option (List Handled × GossipNode)
  | node, [] => some ([], node)
  | node, request :: requests => do
    let (response, node') ← handle K node request
    let (tr, final) ← play K node' requests
    some (⟨node, request, response⟩ :: tr, final)

theorem run_of_play {nodeId : String} {a b : ℕ} {tr tr' : List Handled} {requests : List Request}
    (run : (system K nodeId a b).Run tr node) (h : play K node requests = some (tr', node')) :
    (system K nodeId a b).Run (tr ++ tr') node' := by
  induction requests generalizing tr node tr' with
  | nil =>
    obtain ⟨rfl, rfl⟩ := Prod.mk.inj (Option.some_inj.mp h)
    rwa [List.append_nil]
  | cons request requests ih =>
    rw [play, Option.bind_eq_bind, Option.bind_eq_some_iff] at h
    obtain ⟨⟨response, next⟩, hhandle, h⟩ := h
    rw [Option.bind_eq_bind, Option.bind_eq_some_iff] at h
    obtain ⟨⟨rest, final⟩, hrest, h⟩ := h
    obtain ⟨rfl, rfl⟩ := Prod.mk.inj (Option.some_inj.mp h)
    rw [List.append_cons]
    exact ih (.step run ⟨rfl, hhandle⟩) hrest

/-- What can be seen of the calls, and of the node after them, is so in a run. -/
theorem exists_run (K : Crates) (nodeId : String) (a b : ℕ) (requests : List Request)
    (check : List Handled → GossipNode → Bool)
    (h : (play K (withCapacity nodeId a b) requests).any (fun out ↦ check out.1 out.2) = true) :
    ∃ tr node, (system K nodeId a b).Run tr node ∧ check tr node = true := by
  rw [Option.any_eq_true] at h
  obtain ⟨⟨tr, node⟩, hplay, hcheck⟩ := h
  exact ⟨tr, node, run_of_play (.start rfl) hplay, hcheck⟩

end GossipNode

end Arxia
