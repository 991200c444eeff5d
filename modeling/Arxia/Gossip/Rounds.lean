import Arxia.Gossip.Node

/-!
# What a call does to a node

Whatever is asked of a node, its two buffers go through one round: new keys and new blocks come in
at the back, and old ones go out at the front, no more of them than the capacity makes necessary.
Adding a block evicts before it inserts and merging a registry after, but the rounds do not show
that. What is left after a round depends on what there was, what was offered and the capacities.
-/

namespace Arxia

open Rust Transition

namespace GossipNode

variable {K : Crates} {node node' : GossipNode} {key : NonceKey} {hash : NonceEntry}
  {gone : List NonceKey}

/-! ## Rounds -/

/-- What a call can do to the registry: new keys are entered and the oldest ones go, as far as the
capacity makes it necessary. -/
structure KeysRound (node : GossipNode) (new : List NonceKey)
    (offered : NonceKey → Option NonceEntry) (gone : List NonceKey) (node' : GossipNode) :
    Prop where
  tracked : Tracked node'
  round : node.nonceRegistryOrder ++ new = gone ++ node'.nonceRegistryOrder
  length : node'.nonceRegistryOrder.length =
    min (node.nonceRegistryOrder.length + new.length) node.nonceRegistryCapacity
  dropped : node'.nonceRegistryDropped.toNat =
    min (node.nonceRegistryDropped.toNat + gone.length) u64Max
  lookup : ∀ key ∈ node'.nonceRegistryOrder,
    node'.nonceRegistry.lookup key = (node.nonceRegistry.lookup key).or (offered key)
  capacity : node'.nonceRegistryCapacity = node.nonceRegistryCapacity

/-- What a call can do to the known blocks. -/
structure BlocksRound (node : GossipNode) (new gone : List Block) (node' : GossipNode) : Prop where
  round : node.knownBlocks ++ new = gone ++ node'.knownBlocks
  length : node'.knownBlocks.length =
    min (node.knownBlocks.length + new.length) node.knownBlocksCapacity
  dropped : node'.knownBlocksDropped.toNat =
    min (node.knownBlocksDropped.toNat + gone.length) u64Max
  capacity : node'.knownBlocksCapacity = node.knownBlocksCapacity

/-- Both buffers are within their capacities. -/
structure Kept (node : GossipNode) : Prop extends Tracked node where
  keys_le : node.nonceRegistryOrder.length ≤ node.nonceRegistryCapacity
  blocks_le : node.knownBlocks.length ≤ node.knownBlocksCapacity
  keysCapacity_pos : 0 < node.nonceRegistryCapacity
  blocksCapacity_pos : 0 < node.knownBlocksCapacity

theorem KeysRound.kept {new : List NonceKey} {offered : NonceKey → Option NonceEntry}
    {newBlocks goneBlocks : List Block} (hkeys : KeysRound node new offered gone node')
    (h : Kept node) (hblocks : BlocksRound node newBlocks goneBlocks node') : Kept node' where
  toTracked := hkeys.tracked
  keys_le := by
    rw [hkeys.capacity, hkeys.length]
    exact min_le_right _ _
  blocks_le := by
    rw [hblocks.capacity, hblocks.length]
    exact min_le_right _ _
  keysCapacity_pos := hkeys.capacity ▸ h.keysCapacity_pos
  blocksCapacity_pos := hblocks.capacity ▸ h.blocksCapacity_pos

/-- Where no key is entered the registry stays as it is. -/
theorem Kept.keysRound_nil (h : Kept node) (offered : NonceKey → Option NonceEntry)
    (hregistry : node'.nonceRegistry = node.nonceRegistry)
    (horder : node'.nonceRegistryOrder = node.nonceRegistryOrder)
    (hdropped : node'.nonceRegistryDropped = node.nonceRegistryDropped)
    (hcapacity : node'.nonceRegistryCapacity = node.nonceRegistryCapacity) :
    KeysRound node [] offered [] node' where
  tracked := ⟨horder ▸ h.nodup, fun key ↦ by rw [horder, hregistry, h.mem_iff]⟩
  round := by rw [horder, List.append_nil, List.nil_append]
  length := by
    rw [horder]
    exact (min_eq_left h.keys_le).symm
  dropped := by
    rw [hdropped]
    exact (min_eq_left node.nonceRegistryDropped.toNat_le_u64Max).symm
  lookup := fun key hkey ↦ by
    obtain ⟨hash, hlookup⟩ := HashMap.exists_lookup ((h.mem_iff key).mp (horder ▸ hkey))
    rw [hregistry, hlookup, Option.some_or]
  capacity := hcapacity

/-- Where no block is stored the blocks stay as they are. -/
theorem Kept.blocksRound_nil (h : Kept node) (hblocks : node'.knownBlocks = node.knownBlocks)
    (hdropped : node'.knownBlocksDropped = node.knownBlocksDropped)
    (hcapacity : node'.knownBlocksCapacity = node.knownBlocksCapacity) :
    BlocksRound node [] [] node' where
  round := by rw [hblocks, List.append_nil, List.nil_append]
  length := by
    rw [hblocks]
    exact (min_eq_left h.blocks_le).symm
  dropped := by
    rw [hdropped]
    exact (min_eq_left node.knownBlocksDropped.toNat_le_u64Max).symm
  capacity := hcapacity

/-- What is evicted before a key is entered, and what there is room for then. -/
theorem Kept.exists_room (h : Kept node) : ∃ gone mid, Evicts node gone mid ∧
    (if node.nonceRegistryCapacity ≤ node.nonceRegistry.entries.length then
        node.evictOldestNonceEntry.2
      else node) = mid ∧
    mid.nonceRegistryOrder.length + 1 =
      min (node.nonceRegistryOrder.length + 1) node.nonceRegistryCapacity := by
  have hle := h.keys_le
  have hpos := h.keysCapacity_pos
  rw [h.length_eq]
  split
  · obtain ⟨oldest, order, horder⟩ :=
      List.exists_cons_of_length_pos (by omega : 0 < node.nonceRegistryOrder.length)
    obtain ⟨mid, hevict, hone⟩ := h.toTracked.evictOldestNonceEntry horder
    have hcount := congrArg List.length hone.order
    rw [List.length_append, List.length_singleton] at hcount
    exact ⟨_, mid, hone, by rw [hevict], by omega⟩
  · exact ⟨[], node, h.evicts_nil, rfl, by omega⟩

/-- **A key is entered.** -/
theorem Kept.keysRound_register (h : Kept node) (hnew : key ∉ node.nonceRegistry)
    (offered : NonceKey → Option NonceEntry) (hoffered : offered key = some hash) :
    ∃ gone, KeysRound node [key] offered gone (register key hash node) := by
  obtain ⟨gone, mid, hevicts, hmid, hlength⟩ := h.exists_room
  have hnotMem : key ∉ mid.nonceRegistryOrder := fun hmem ↦
    hnew ((h.mem_iff key).mp (hevicts.order ▸ List.mem_append_right _ hmem))
  refine ⟨gone, ?_⟩
  rw [register, hmid]
  refine ⟨⟨?_, fun key' ↦ ?_⟩, ?_, ?_, ?_, fun key' hkey' ↦ ?_, ?_⟩
  · have hnodup := List.Nodup.concat hnotMem hevicts.tracked.nodup
    rwa [List.concat_eq_append] at hnodup
  · rw [List.mem_append, List.mem_singleton, AList.mem_insert, hevicts.tracked.mem_iff, or_comm]
  · rw [hevicts.order, List.append_assoc]
  · rw [List.length_append, List.length_singleton]
    exact hlength
  · exact hevicts.dropped
  · by_cases hsame : key' = key
    · rw [hsame, AList.lookup_insert, AList.lookup_eq_none.mpr hnew, hoffered, Option.none_or]
    · have hold : key' ∈ mid.nonceRegistryOrder :=
        (List.mem_append.mp hkey').resolve_right fun hmem ↦ hsame (List.mem_singleton.mp hmem)
      have hmem : key' ∈ node.nonceRegistry :=
        (h.mem_iff key').mp (hevicts.order ▸ List.mem_append_right _ hold)
      obtain ⟨hash', hlookup⟩ := HashMap.exists_lookup hmem
      rw [AList.lookup_insert_ne hsame, hevicts.lookup key' hold, hlookup, Option.some_or]
  · rw [hevicts.rest]

/-- Entering a key does not concern the blocks. -/
theorem Kept.blocks_register (h : Kept node) (key : NonceKey) (hash : NonceEntry) :
    (register key hash node).knownBlocks = node.knownBlocks ∧
      (register key hash node).knownBlocksDropped = node.knownBlocksDropped ∧
      (register key hash node).knownBlocksCapacity = node.knownBlocksCapacity ∧
      (register key hash node).pendingConflicts = node.pendingConflicts := by
  obtain ⟨gone, mid, hevicts, hmid, -⟩ := h.exists_room
  rw [register, hmid, hevicts.rest]
  exact ⟨rfl, rfl, rfl, rfl⟩

/-- Storing a block does not concern the registry. -/
theorem registry_store (block : Block) (node : GossipNode) :
    (store block node).nonceRegistry = node.nonceRegistry ∧
      (store block node).nonceRegistryOrder = node.nonceRegistryOrder ∧
      (store block node).nonceRegistryDropped = node.nonceRegistryDropped ∧
      (store block node).nonceRegistryCapacity = node.nonceRegistryCapacity ∧
      (store block node).pendingConflicts = node.pendingConflicts := by
  rw [store]
  split <;> exact ⟨rfl, rfl, rfl, rfl, rfl⟩

theorem KeysRound.store {new : List NonceKey} {offered : NonceKey → Option NonceEntry}
    (h : KeysRound node new offered gone node') (block : Block) :
    KeysRound node new offered gone (store block node') := by
  obtain ⟨hregistry, horder, hdropped, hcapacity, -⟩ := registry_store block node'
  refine ⟨⟨horder ▸ h.tracked.nodup, fun key ↦ ?_⟩, ?_, ?_, ?_, fun key hkey ↦ ?_, ?_⟩
  · rw [horder, hregistry, h.tracked.mem_iff]
  · rw [horder, h.round]
  · rw [horder, h.length]
  · rw [hdropped, h.dropped]
  · rw [hregistry, h.lookup key (horder ▸ hkey)]
  · rw [hcapacity, h.capacity]

/-- The blocks that are left when one more is stored. -/
def retained (node : GossipNode) : List Block :=
  if node.knownBlocksCapacity ≤ node.knownBlocks.length then node.knownBlocks.tail
  else node.knownBlocks

theorem knownBlocks_store (block : Block) (node : GossipNode) :
    (store block node).knownBlocks = node.retained ++ [block] := by
  rw [store, retained]
  split <;> rfl

/-- **A block is stored.** -/
theorem blocksRound_store (block : Block) (node : GossipNode)
    (hle : node.knownBlocks.length ≤ node.knownBlocksCapacity)
    (hpos : 0 < node.knownBlocksCapacity) :
    ∃ gone, BlocksRound node [block] gone (store block node) := by
  rw [store]
  split
  · rename_i hfull
    obtain ⟨oldest, rest, hblocks⟩ := List.exists_cons_of_length_pos (hpos.trans_le hfull)
    rw [hblocks, List.length_cons] at hle hfull
    refine ⟨[oldest], ?_, ?_, UInt64.toNat_saturatingAdd _ _, rfl⟩
    · rw [hblocks]
      rfl
    · dsimp only
      rw [hblocks, List.tail_cons, List.length_append, List.length_singleton, List.length_cons]
      omega
  · refine ⟨[], rfl, ?_, (min_eq_left node.knownBlocksDropped.toNat_le_u64Max).symm, rfl⟩
    dsimp only
    rw [List.length_append, List.length_singleton]
    omega

/-- The keys that a merge brings, in the order in which it enters them. -/
theorem newKeys_eq («local» remote : NonceRegistry) :
    (((mergeNonceRegistries «local» remote).2.keysInOrder NonceKey.order).filter
        fun key ↦ key ∉ «local».keys.toFinset) =
      ((remote.inOrder NonceKey.order).filter fun e ↦ e.1 ∉ «local»).map Prod.fst := by
  refine eq_of_ascending NonceKey.order
    ((HashMap.keysInOrder_pairwise NonceKey.order_injective).filter _)
    (List.pairwise_map.mpr
      ((HashMap.inOrder_pairwise NonceKey.order_injective).filter _)) fun key ↦ ?_
  have hremote : key ∈ remote ↔ ∃ hash, remote.lookup key = some hash := by
    rw [← AList.lookup_isSome, Option.isSome_iff_exists]
  -- both lists ascend, so it is enough that they have the same members
  rw [List.mem_filter, HashMap.mem_keysInOrder, mem_mergeNonceRegistries, List.mem_map, hremote]
  constructor
  · rintro ⟨hmem, hnew⟩
    have hnot : key ∉ «local» := by simpa [AList.mem_keys] using hnew
    obtain ⟨hash, hlookup⟩ := hmem.resolve_left hnot
    refine ⟨(key, hash), List.mem_filter.mpr ⟨HashMap.mem_inOrder.mpr hlookup, ?_⟩, rfl⟩
    exact decide_eq_true hnot
  · rintro ⟨e, he, rfl⟩
    obtain ⟨he, hnew⟩ := List.mem_filter.mp he
    refine ⟨Or.inr ⟨e.2, HashMap.mem_inOrder.mp he⟩, ?_⟩
    simpa [AList.mem_keys] using hnew

/-- What a call enters is new, and entered once. -/
theorem Tracked.nodup_append_insertedBy (h : Tracked node) (K : Crates) (request : Request) :
    (node.nonceRegistryOrder ++ insertedBy K node request).Nodup := by
  have hnew : (insertedBy K node request).Nodup ∧
      ∀ key ∈ insertedBy K node request, key ∉ node.nonceRegistry := by
    rcases request with block | remote | _
    · rw [insertedBy]
      split
      · split
        · exact ⟨List.nodup_nil, fun _ hkey ↦ absurd hkey List.not_mem_nil⟩
        · rename_i hmem
          exact ⟨List.nodup_singleton _, fun key' hkey' ↦ List.mem_singleton.mp hkey' ▸ hmem⟩
      · exact ⟨List.nodup_nil, fun _ hkey ↦ absurd hkey List.not_mem_nil⟩
    · refine ⟨HashMap.nodup_keysInOrder.sublist (List.filter_sublist.map Prod.fst), ?_⟩
      intro key hkey
      obtain ⟨e, he, rfl⟩ := List.mem_map.mp hkey
      exact of_decide_eq_true (List.mem_filter.mp he).2
    · exact ⟨List.nodup_nil, fun _ hkey ↦ absurd hkey List.not_mem_nil⟩
  refine List.nodup_append.mpr ⟨h.nodup, hnew.1, fun key hkey key' hkey' heq ↦ ?_⟩
  exact hnew.2 key' hkey' (heq ▸ (h.mem_iff key).mp hkey)

/-- **A registry is merged.** -/
theorem Kept.keysRound_mergeRegistry (h : Kept node) (K : Crates) (remote : NonceRegistry) :
    (∃ gone, KeysRound node (insertedBy K node (.mergeRegistry remote))
      (offeredBy K (.mergeRegistry remote)) gone (mergeRegistry remote node).2) ∧
      BlocksRound node [] [] (mergeRegistry remote node).2 ∧
      (mergeRegistry remote node).2.pendingConflicts =
        node.pendingConflicts ++ (mergeRegistry remote node).1 := by
  have hnodup := h.toTracked.nodup_append_insertedBy K (.mergeRegistry remote)
  rw [insertedBy] at hnodup ⊢
  rw [mergeRegistry]
  dsimp only
  rw [newKeys_eq]
  -- the node as it is before anything is evicted
  generalize hmid : ({ node with
    nonceRegistry := (mergeNonceRegistries node.nonceRegistry remote).2
    pendingConflicts :=
      node.pendingConflicts ++ (mergeNonceRegistries node.nonceRegistry remote).1
    nonceRegistryOrder := node.nonceRegistryOrder ++
      ((remote.inOrder NonceKey.order).filter fun e ↦ e.1 ∉ node.nonceRegistry).map Prod.fst } :
    GossipNode) = mid
  have horder : mid.nonceRegistryOrder = node.nonceRegistryOrder ++
      ((remote.inOrder NonceKey.order).filter fun e ↦ e.1 ∉ node.nonceRegistry).map Prod.fst := by
    rw [← hmid]
  have hregistry : mid.nonceRegistry = (mergeNonceRegistries node.nonceRegistry remote).2 := by
    rw [← hmid]
  have htracked : Tracked mid := by
    refine ⟨horder ▸ hnodup, fun key ↦ ?_⟩
    rw [horder, hregistry, List.mem_append, h.mem_iff, mem_mergeNonceRegistries, ← newKeys_eq,
      List.mem_filter, HashMap.mem_keysInOrder, mem_mergeNonceRegistries]
    by_cases hmem : key ∈ node.nonceRegistry
    · simp [hmem]
    · simp [hmem, ← AList.mem_keys]
  rw [← hregistry, htracked.length_eq]
  obtain ⟨gone, hevicts, hlength⟩ := htracked.evictToCapacity (Nat.le_add_left _ _)
  refine ⟨⟨gone, hevicts.tracked, ?_, ?_, ?_, fun key hkey ↦ ?_, ?_⟩, ?_, ?_⟩
  · rw [← hevicts.order, horder]
  · rw [hlength, horder, List.length_append, ← hmid]
  · rw [hevicts.dropped, ← hmid]
  · rw [hevicts.lookup key hkey, hregistry, lookup_mergeNonceRegistries]
    rfl
  · rw [hevicts.rest, ← hmid]
  · apply h.blocksRound_nil <;> rw [hevicts.rest, ← hmid]
  · rw [hevicts.rest, ← hmid]

/-- **What a call does** to the two buffers. -/
theorem Kept.round (h : Kept node) {request : Request} {response : Response}
    (hhandle : handle K node request = some (response, node')) :
    (∃ gone, KeysRound node (insertedBy K node request) (offeredBy K request) gone node') ∧
      ∃ gone, BlocksRound node (storedBy K node request) gone node' := by
  cases does_of_handle hhandle with
  | @rejected block e hentry =>
    rw [insertedBy, storedBy, hentry]
    exact ⟨⟨[], h.keysRound_nil _ rfl rfl rfl rfl⟩, ⟨[], h.blocksRound_nil rfl rfl rfl⟩⟩
  | @registered block key hash existing hentry hlookup =>
    have hmem := HashMap.mem_of_lookup hlookup
    rw [insertedBy, storedBy, hentry]
    dsimp only
    rw [if_pos hmem, if_pos hmem]
    exact ⟨⟨[], h.keysRound_nil _ rfl rfl rfl rfl⟩, ⟨[], h.blocksRound_nil rfl rfl rfl⟩⟩
  | @stored block key hash hentry hlookup =>
    have hnew := AList.lookup_eq_none.mp hlookup
    have hoffered : offeredBy K (.addBlock block) key = some hash := by
      rw [offeredBy, hentry]
      exact if_pos rfl
    rw [insertedBy, storedBy, hentry]
    dsimp only
    rw [if_neg hnew, if_neg hnew]
    -- registering the key leaves the blocks alone, and storing the block the keys
    obtain ⟨gone, hkeys⟩ := h.keysRound_register hnew _ hoffered
    obtain ⟨hblocks, hdropped, hcapacity, -⟩ := h.blocks_register key hash
    obtain ⟨goneBlocks, hround⟩ := blocksRound_store block (register key hash node)
      (by rw [hblocks, hcapacity]; exact h.blocks_le) (hcapacity ▸ h.blocksCapacity_pos)
    refine ⟨⟨gone, hkeys.store block⟩, goneBlocks, ?_, ?_, ?_, ?_⟩
    · rw [← hround.round, hblocks]
    · rw [hround.length, hblocks, hcapacity]
    · rw [hround.dropped, hdropped]
    · rw [hround.capacity, hcapacity]
  | merged remote =>
    obtain ⟨hkeys, hblocks, -⟩ := h.keysRound_mergeRegistry K remote
    exact ⟨hkeys, [], hblocks⟩
  | drained =>
    exact ⟨⟨[], h.keysRound_nil _ rfl rfl rfl rfl⟩, ⟨[], h.blocksRound_nil rfl rfl rfl⟩⟩

theorem Kept.step (h : Kept node) {request : Request} {response : Response}
    (hhandle : handle K node request = some (response, node')) : Kept node' := by
  obtain ⟨⟨_, hkeys⟩, _, hblocks⟩ := h.round hhandle
  exact hkeys.kept h hblocks

theorem kept_withCapacity (nodeId : String) (a b : ℕ) : Kept (withCapacity nodeId a b) where
  nodup := List.nodup_nil
  mem_iff := fun key ↦ iff_of_false List.not_mem_nil (AList.notMem_empty key)
  keys_le := Nat.zero_le _
  blocks_le := Nat.zero_le _
  keysCapacity_pos := Nat.lt_of_lt_of_le Nat.zero_lt_one (le_max_right _ _)
  blocksCapacity_pos := Nat.lt_of_lt_of_le Nat.zero_lt_one (le_max_right _ _)

/-- **Every reachable node** is within its capacities. -/
theorem kept_of_run {nodeId : String} {a b : ℕ} {tr : List Handled}
    (run : (system K nodeId a b).Run tr node) : Kept node := by
  refine run.invariant (I := fun _ node ↦ Kept node) ?_ ?_
  · rintro node rfl
    exact kept_withCapacity nodeId a b
  · rintro tr node a' node' - h ⟨-, hhandle⟩
    exact h.step hhandle

/-- The conflicts that are pending after a call. -/
def pendingAfter (node : GossipNode) : Request → List NonceConflict
  | .addBlock _ => node.pendingConflicts
  | .mergeRegistry remote =>
    node.pendingConflicts ++ (mergeNonceRegistries node.nonceRegistry remote).1
  | .drainPendingConflicts => []

theorem Kept.pendingConflicts_eq (h : Kept node) {request : Request} {response : Response}
    (hhandle : handle K node request = some (response, node')) :
    node'.pendingConflicts = node.pendingAfter request := by
  cases does_of_handle hhandle with
  | rejected | registered | drained => rfl
  | @stored block key hash =>
    obtain ⟨-, -, -, -, hstore⟩ := registry_store block (register key hash node)
    obtain ⟨-, -, -, hregister⟩ := h.blocks_register key hash
    exact hstore.trans hregister
  | merged remote => exact (h.keysRound_mergeRegistry K remote).2.2

/-- Where no block is stored the known blocks are the same. -/
theorem BlocksRound.eq_of_nil {goneBlocks : List Block}
    (hround : BlocksRound node [] goneBlocks node') (h : Kept node) :
    node'.knownBlocks = node.knownBlocks := by
  have hlength := hround.length
  have hle := h.blocks_le
  have hround := hround.round
  rw [List.append_nil] at hround
  have hsum := congrArg List.length hround
  rw [List.length_append] at hsum
  rw [List.length_nil] at hlength
  rw [hround, List.eq_nil_of_length_eq_zero (by omega : goneBlocks.length = 0), List.nil_append]

end GossipNode

end Arxia
