import Arxia.Gossip.Duplicates

/-!
# Double spends are reported

As long as nothing is evicted from the registry an entry that is there stays there with its hash, so
a second hash for its key is noticed whichever way it comes: a block is rejected, and a merge
reports the conflict and keeps it for the consensus layer until that asks for it.
-/

namespace Arxia

open Rust Transition

namespace GossipNode

variable {K : Crates} {nodeId : String} {a b : ℕ} {node node' : GossipNode} {tr : List Handled}
  {key key' : NonceKey} {hash hash' : NonceEntry}

/-- The response reports the conflict. -/
def Reports : Request → Response → NonceConflict → Prop
  | .addBlock _, .added result, c => result = .error (.doubleSpend c.key.2)
  | .mergeRegistry _, .conflicts conflicts, c => c ∈ conflicts
  | _, _, _ => False

/-- Nothing is silently absorbed in the course of a run. -/
structure Vigilant (K : Crates) (nodeId : String) (a b : ℕ) (tr : List Handled) : Prop where
  /-- A block that verifies offers its hash for its account and nonce. -/
  offers : ∀ block, Verified K block → ∃ key hash, K.accountKey block.account = .ok key.1 ∧
    key.2 = block.nonce ∧ K.hexDecode block.hash = .ok hash.toList ∧
    offeredBy K (.addBlock block) key = some hash
  /-- An entry of the registry never changes once it is set. -/
  fixed : ∀ tr₁ tr₂ node₁ node₂ key hash, tr₁ <+: tr₂ → tr₂ <+: tr →
    (system K nodeId a b).Run tr₁ node₁ → (system K nodeId a b).Run tr₂ node₂ →
    node₁.nonceRegistry.lookup key = some hash → node₂.nonceRegistry.lookup key = some hash
  /-- Another hash for a key that has been registered before is reported by the very call. -/
  reported : ∀ tr₁ tr₂ tr₃ call node₁ key hash hash', tr = tr₁ ++ tr₂ ++ call :: tr₃ →
    (system K nodeId a b).Run tr₁ node₁ → node₁.nonceRegistry.lookup key = some hash →
    offeredBy K call.request key = some hash' → hash' ≠ hash →
    Reports call.request call.response ⟨key, hash, hash'⟩
  /-- What a merge reports is pending until the next drain. -/
  pending : ∀ tr₁ tr₂ tr₃ call node₂ remote c, tr = tr₁ ++ call :: tr₂ ++ tr₃ →
    (system K nodeId a b).Run (tr₁ ++ call :: tr₂) node₂ → call.request = .mergeRegistry remote →
    Reports call.request call.response c →
    (∀ later ∈ tr₂, later.request ≠ .drainPendingConflicts) → c ∈ node₂.pendingConflicts

/-- A call and what it answered say what the node is like afterwards. -/
theorem deterministic (K : Crates) (nodeId : String) (a b : ℕ) :
    (system K nodeId a b).Deterministic where
  init := by
    rintro _ _ rfl rfl
    rfl
  step := by
    rintro _ call _ _ ⟨-, h⟩ ⟨-, h'⟩
    exact (Prod.mk.inj (Option.some_inj.mp (h.symm.trans h'))).2

/-- **A call that evicts nothing** keeps the entries of the registry. -/
theorem Kept.lookup_of_dropped (h : Kept node) {request : Request} {response : Response}
    (hhandle : handle K node request = some (response, node'))
    (hnone : node'.nonceRegistryDropped = 0) :
    node.nonceRegistryDropped = 0 ∧
      ∀ key hash, node.nonceRegistry.lookup key = some hash →
        node'.nonceRegistry.lookup key = some hash := by
  obtain ⟨⟨gone, hround⟩, -⟩ := h.round hhandle
  have hdropped := hround.dropped
  rw [hnone, UInt64.toNat_zero] at hdropped
  have hlimit : 0 < u64Max := by decide
  refine ⟨UInt64.toNat_inj.mp (by rw [UInt64.toNat_zero]; omega), fun key hash hlookup ↦ ?_⟩
  have horder := hround.round
  rw [List.eq_nil_of_length_eq_zero (by omega : gone.length = 0), List.nil_append] at horder
  have hmem : key ∈ node'.nonceRegistryOrder :=
    horder ▸ List.mem_append_left _ ((h.mem_iff key).mpr (HashMap.mem_of_lookup hlookup))
  rw [hround.lookup key hmem, hlookup, Option.some_or]

/-- What has not been evicted at the end had not been before. -/
theorem dropped_of_run {tr' : List Handled} (run : (system K nodeId a b).Run tr node)
    (run' : (system K nodeId a b).Run (tr ++ tr') node') (hnone : node'.nonceRegistryDropped = 0) :
    node.nonceRegistryDropped = 0 := by
  revert hnone
  refine (deterministic K nodeId a b).invariant_from
    (J := fun _ node' ↦ node'.nonceRegistryDropped = 0 → node.nonceRegistryDropped = 0) run run'
    id ?_
  rintro l node₁ call node₂ run₁ ih ⟨-, hhandle⟩ hnone
  exact ih ((kept_of_run run₁).lookup_of_dropped hhandle hnone).1

/-- **Entries never change** in a run that evicts none. -/
theorem lookup_of_run {tr' : List Handled} (run : (system K nodeId a b).Run tr node)
    (run' : (system K nodeId a b).Run (tr ++ tr') node') (hnone : node'.nonceRegistryDropped = 0)
    (hlookup : node.nonceRegistry.lookup key = some hash) :
    node'.nonceRegistry.lookup key = some hash := by
  revert hnone
  refine (deterministic K nodeId a b).invariant_from
    (J := fun _ node' ↦ node'.nonceRegistryDropped = 0 →
      node'.nonceRegistry.lookup key = some hash) run run' (fun _ ↦ hlookup) ?_
  rintro l node₁ call node₂ run₁ ih ⟨-, hhandle⟩ hnone
  obtain ⟨hbefore, hkeeps⟩ := (kept_of_run run₁).lookup_of_dropped hhandle hnone
  exact hkeeps key hash (ih hbefore)

theorem offeredBy_addBlock {block : Block} (hentry : registryEntry K block = .ok (key', hash))
    (hoffered : offeredBy K (.addBlock block) key = some hash') : key = key' ∧ hash' = hash := by
  rw [offeredBy, hentry] at hoffered
  dsimp only at hoffered
  split at hoffered
  · rename_i hkey
    exact ⟨hkey, (Option.some_inj.mp hoffered).symm⟩
  · cases hoffered

/-- **Another hash** for a key of the registry is reported. -/
theorem reports_of_lookup {request : Request} {response : Response}
    (hhandle : handle K node request = some (response, node'))
    (hlookup : node.nonceRegistry.lookup key = some hash)
    (hoffered : offeredBy K request key = some hash') (hne : hash' ≠ hash) :
    Reports request response ⟨key, hash, hash'⟩ := by
  cases does_of_handle hhandle with
  | rejected hentry =>
    rw [offeredBy, hentry] at hoffered
    cases hoffered
  | registered hentry hexisting =>
    obtain ⟨rfl, rfl⟩ := offeredBy_addBlock hentry hoffered
    obtain rfl := Option.some_inj.mp (hlookup.symm.trans hexisting)
    rw [Reports, if_neg hne.symm, (registryEntry_eq_ok.mp hentry).2.2.2]
  | stored hentry hnone =>
    obtain ⟨rfl, rfl⟩ := offeredBy_addBlock hentry hoffered
    cases hlookup.symm.trans hnone
  | merged remote => exact mem_conflicts_iff.mpr ⟨hlookup, hoffered, hne.symm⟩
  | drained => cases hoffered

/-- **Double spends are never silently absorbed** in a run that evicts no registry entry. -/
theorem vigilant_of_run (run : (system K nodeId a b).Run tr node)
    (hnone : node.nonceRegistryDropped = 0) : Vigilant K nodeId a b tr := by
  refine ⟨?_, ?_, ?_, ?_⟩
  · intro block hverified
    obtain ⟨key, hash, hentry⟩ := exists_registryEntry hverified
    obtain ⟨-, hdecode, haccount, hnonce⟩ := registryEntry_eq_ok.mp hentry
    refine ⟨key, hash, haccount, hnonce, hdecode, ?_⟩
    rw [offeredBy, hentry]
    exact if_pos rfl
  · rintro tr₁ _ node₁ node₂ key hash ⟨tr₂, rfl⟩ ⟨tr₃, rfl⟩ run₁ run₂ hlookup
    exact lookup_of_run run₁ run₂ (dropped_of_run run₂ run hnone) hlookup
  · rintro tr₁ tr₂ tr₃ call node₁ key hash hash' rfl run₁ hlookup hoffered hne
    obtain ⟨node₂, node₃, run₂, ⟨rfl, hhandle⟩, -⟩ := run.exists_step
    -- the entry is there with its hash when the other one comes
    have hstill := lookup_of_run run₁ run₂ (dropped_of_run run₂ run hnone) hlookup
    exact reports_of_lookup hhandle hstill hoffered hne
  · rintro tr₁ tr₂ tr₃ call node₂ remote c rfl run₂ hrequest hreports hkept
    obtain ⟨node₁, node', run₁, ⟨rfl, hhandle⟩, run'⟩ := run₂.exists_step
    have hpending : c ∈ node'.pendingConflicts := by
      rw [(kept_of_run run₁).pendingConflicts_eq hhandle]
      rw [hrequest, handle, Option.some_inj] at hhandle
      rw [hrequest, ← (Prod.mk.inj hhandle).1] at hreports
      rw [hrequest]
      exact List.mem_append_right _ hreports
    -- only a drain takes it away again
    rw [List.append_cons] at run₂
    revert hkept
    refine (deterministic K nodeId a b).invariant_from
      (J := fun l node ↦ (∀ later ∈ l, later.request ≠ .drainPendingConflicts) →
        c ∈ node.pendingConflicts) run' run₂ (fun _ ↦ hpending) ?_
    rintro l node₃ later node₄ run₃ ih ⟨-, hhandle⟩ hkept
    have hstill := ih fun call hcall ↦ hkept call (List.mem_append_left _ hcall)
    have hlast := hkept later (List.mem_append_right _ List.mem_cons_self)
    rw [(kept_of_run run₃).pendingConflicts_eq hhandle]
    rcases hlater : later.request with block | remote | _
    · exact hstill
    · exact List.mem_append_left _ hstill
    · exact absurd hlater hlast

/-- A registry with another hash for alice's first block. -/
def rumour : NonceRegistry :=
  (∅ : NonceRegistry).insert (Vector.replicate 32 0xaa, 1) (Vector.replicate 32 0)

/-- Alice's first block, and then another one and a registry that has yet another. -/
def rivals : List Request :=
  [.addBlock Reference.openAlice, .addBlock reopenAlice, .mergeRegistry rumour]

theorem vigilant_of_run_rivals : ∃ tr node, (system Reference.crates "node" 2 2).Run tr node ∧
    (node.knownBlocks.length = 1 ∧ node.pendingConflicts.length = 1) ∧
      Vigilant Reference.crates "node" 2 2 tr := by
  obtain ⟨tr, node, run, hcheck⟩ := exists_run Reference.crates "node" 2 2 rivals
    (fun _ node ↦ node.nonceRegistryDropped = 0 ∧ node.knownBlocks.length = 1 ∧
      node.pendingConflicts.length = 1) (by decide +kernel)
  obtain ⟨hnone, hseen⟩ := of_decide_eq_true hcheck
  exact ⟨tr, node, run, hseen, vigilant_of_run run hnone⟩

end GossipNode

end Arxia
