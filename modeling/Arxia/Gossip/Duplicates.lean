import Arxia.Gossip.Bookkeeping

/-!
# Two known blocks with one nonce

Whether a block is new is decided by the registry, and the known blocks have a capacity of their
own. A key that has been evicted lets its block in again, or another one in its place, while the
block is still known. In the runs in which that does not happen the known blocks have distinct keys.
-/

namespace Arxia

open Rust Transition

namespace GossipNode

/-- The account key and the nonce of a block. -/
def blockKey (K : Crates) (block : Block) : Option NonceKey :=
  (K.accountKey block.account).toOption.map fun account ↦ (account, block.nonce)

/-- No two known blocks have the same account key and nonce. -/
def NoDuplicates (K : Crates) (node : GossipNode) : Prop :=
  (node.knownBlocks.map (blockKey K)).Nodup

/-- If a block that verifies comes and its key is not in the registry, then no known block that will
be kept has the key. -/
def Guarded (K : Crates) (node : GossipNode) : Request → Prop
  | .addBlock block => ∀ key hash, registryEntry K block = .ok (key, hash) →
    key ∉ node.nonceRegistry → some key ∉ node.retained.map (blockKey K)
  | _ => True

variable {K : Crates} {nodeId : String} {a b : ℕ} {node node' : GossipNode} {tr : List Handled}
  {key : NonceKey} {hash : NonceEntry}

theorem blockKey_of_registryEntry {block : Block} (h : registryEntry K block = .ok (key, hash)) :
    blockKey K block = some key := by
  obtain ⟨-, -, haccount, hnonce⟩ := registryEntry_eq_ok.mp h
  rw [blockKey, haccount, ← hnonce]
  rfl

theorem retained_sublist (node : GossipNode) : node.retained.Sublist node.knownBlocks := by
  rw [retained]
  split
  · exact List.tail_sublist _
  · exact List.Sublist.refl _

/-- **One call** keeps the keys distinct just if it is guarded. -/
theorem NoDuplicates.step_iff (hdistinct : NoDuplicates K node) (hkept : Kept node)
    {request : Request} {response : Response}
    (hhandle : handle K node request = some (response, node')) :
    NoDuplicates K node' ↔ Guarded K node request := by
  have hsame : node'.knownBlocks = node.knownBlocks → NoDuplicates K node' := fun hblocks ↦ by
    rw [NoDuplicates, hblocks]
    exact hdistinct
  obtain ⟨-, _, hround⟩ := hkept.round hhandle
  cases does_of_handle hhandle with
  | rejected hentry =>
    refine iff_of_true (hsame rfl) fun key hash hentry' ↦ ?_
    cases hentry.symm.trans hentry'
  | registered hentry hlookup =>
    refine iff_of_true (hsame rfl) fun key' hash' hentry' hnew ↦ ?_
    obtain ⟨rfl, -⟩ := Prod.mk.inj (Except.ok.inj (hentry.symm.trans hentry'))
    exact absurd (HashMap.mem_of_lookup hlookup) hnew
  | @stored block key hash hentry hlookup =>
    -- the block is stored behind the blocks that are kept
    obtain ⟨hblocks, -, hcapacity, -⟩ := hkept.blocks_register key hash
    have hretained : (register key hash node).retained = node.retained := by
      rw [retained, hblocks, hcapacity, retained]
    have hrest : (node.retained.map (blockKey K)).Nodup :=
      hdistinct.sublist ((retained_sublist node).map _)
    rw [NoDuplicates, knownBlocks_store, hretained, List.map_append, List.map_singleton,
      blockKey_of_registryEntry hentry, ← List.concat_eq_append, List.nodup_concat]
    constructor
    · rintro ⟨hnot, -⟩ key' hash' hentry' -
      obtain ⟨rfl, -⟩ := Prod.mk.inj (Except.ok.inj (hentry.symm.trans hentry'))
      exact hnot
    · exact fun hguarded ↦ ⟨hguarded key hash hentry (AList.lookup_eq_none.mp hlookup), hrest⟩
  | merged | drained => exact iff_of_true (hsame (hround.eq_of_nil hkept)) trivial

/-- **A node never holds two blocks with one key** in just the runs whose calls are all guarded. -/
theorem noDuplicates_iff (run : (system K nodeId a b).Run tr node) :
    (∀ tr' node', tr' <+: tr → (system K nodeId a b).Run tr' node' → NoDuplicates K node') ↔
      ∀ call ∈ tr, Guarded K call.before call.request := by
  constructor
  · -- the keys are distinct before the call and after it
    intro h call hcall
    obtain ⟨tr₁, tr₂, rfl⟩ := List.append_of_mem hcall
    obtain ⟨node₁, node₂, run₁, ⟨rfl, hhandle⟩, run₂⟩ := run.exists_step
    have hbefore := h tr₁ _ (List.prefix_append _ _) run₁
    have hafter := h (tr₁ ++ [call]) node₂ ⟨tr₂, by rw [List.append_assoc]; rfl⟩ run₂
    exact (hbefore.step_iff (kept_of_run run₁) hhandle).mp hafter
  · intro h tr' node' hpre run'
    have hcalls : ∀ call ∈ tr', Guarded K call.before call.request := fun call hcall ↦
      h call (hpre.subset hcall)
    clear run h hpre
    revert hcalls
    refine run'.invariant (I := fun tr node ↦
      (∀ call ∈ tr, Guarded K call.before call.request) → NoDuplicates K node) ?_ ?_
    · rintro node rfl -
      exact List.nodup_nil
    · rintro tr node call node' run ih ⟨rfl, hhandle⟩ hcalls
      have hdistinct := ih fun call' hcall' ↦ hcalls call' (List.mem_append_left _ hcall')
      exact (hdistinct.step_iff (kept_of_run run) hhandle).mpr
        (hcalls call (List.mem_append_right _ List.mem_cons_self))

theorem noDuplicates_iff_openings : ∃ tr node,
    (system Reference.crates "node" 2 1).Run tr node ∧
      ((∀ tr' node', tr' <+: tr → (system Reference.crates "node" 2 1).Run tr' node' →
          NoDuplicates Reference.crates node') ↔
        ∀ call ∈ tr, Guarded Reference.crates call.before call.request) := by
  obtain ⟨tr, node, run, -⟩ := exists_run_openings
  exact ⟨tr, node, run, noDuplicates_iff run⟩

/-- Another block that opens alice's account. -/
def reopenAlice : Block := Reference.sealBlock Reference.alice "" (.open 7) 7 1 1

/-- Bob's block evicts the key of alice's, and then the other one of hers is accepted too. -/
def reopening : List Request :=
  [.addBlock Reference.openAlice, .addBlock Reference.openBob, .addBlock reopenAlice]

/-- **A double spend is stored.** -/
theorem not_noDuplicates : ¬ ∀ (K : Crates) (nodeId : String) (a b : ℕ) (tr : List Handled)
    (node : GossipNode), (system K nodeId a b).Run tr node → NoDuplicates K node := by
  intro h
  obtain ⟨tr, node, run, hduplicates⟩ := exists_run Reference.crates "node" 3 1 reopening
    (fun _ node ↦ ¬ (node.knownBlocks.map (blockKey Reference.crates)).Nodup) (by decide +kernel)
  exact of_decide_eq_true hduplicates (h _ _ _ _ _ _ run)

end GossipNode

end Arxia
