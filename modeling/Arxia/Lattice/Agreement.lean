import Arxia.Lattice.History
import Arxia.Lattice.Reference

/-!
# Incremental and post-hoc validation

`add_block` checks one block against its account's chain, `verify_chain_integrity` a whole list
against itself, and the documentation of the first says it enforces incrementally what the second
enforces post-hoc. On the blocks of one account they do agree, in both directions.

The second never reads the `account` field. A linked list of verified blocks by several signers is
one chain to it and several to the ledger, and those lists are all the disagreement there is.
-/

namespace Arxia

open Rust History

namespace Ledger

/-- Fed to a fresh ledger, the blocks are all accepted and form its only chain. -/
def FormsChain (m : Overflow) (K : Crates) (chain : Vec Block) : Prop :=
  ∃ l account, feed m K new chain.toList = some (chain.toList.map fun _ ↦ .ok (), l) ∧
    l.chains = AList.singleton account chain

theorem feed_concat {m : Overflow} {K : Crates} {l l' l'' : Ledger} {bs : List Block} {b : Block}
    {rs : List (Except ArxiaError Unit)} {r : Except ArxiaError Unit}
    (h : feed m K l bs = some (rs, l')) (hstep : (addBlock m K b).exec l' = some (r, l'')) :
    feed m K l (bs ++ [b]) = some (rs ++ [r], l'') := by
  induction bs generalizing l rs with
  | nil =>
    obtain ⟨rfl, rfl⟩ := Prod.mk.inj (Option.some_inj.mp h)
    exact feed_cons_eq_some.mpr ⟨r, l'', [], hstep, rfl, rfl⟩
  | cons b₀ bs ih =>
    obtain ⟨r₀, l₀, rs₀, hfirst, hrest, rfl⟩ := feed_cons_eq_some.mp h
    exact feed_cons_eq_some.mpr ⟨r₀, l₀, rs₀ ++ [r], hfirst, ih hrest, rfl⟩

theorem zip_map_ok (bs : List Block) :
    bs.zip (bs.map fun _ ↦ .ok ()) = (bs.map fun b ↦ (b, .ok ()) : List Attempt) := by
  induction bs with
  | nil => rfl
  | cons b bs ih => rw [List.map_cons, List.zip_cons_cons, ih, List.map_cons]

/-- Blocks that a fresh ledger accepts without exception are a history, and it is theirs. -/
theorem represents_of_feed {m : Overflow} {K : Crates} {bs : List Block} {l : Ledger}
    (h : feed m K new bs = some (bs.map fun _ ↦ .ok (), l)) : Valid K bs ∧ l.Represents bs := by
  have run := run_append_feed (.start rfl) h
  rw [List.nil_append, zip_map_ok] at run
  have hrep := run_represents run
  rwa [accepted_map_ok] at hrep

/-- A list the ledger takes as one chain is linked and has one account. -/
theorem FormsChain.wellLinked {m : Overflow} {K : Crates} {chain : Vec Block}
    (h : FormsChain m K chain) : WellLinked chain.toList ∧
      ∃ account, ∀ b ∈ chain.toList, b.account = account := by
  obtain ⟨l, account, hfeed, hchains⟩ := h
  obtain ⟨hv, hrep⟩ := represents_of_feed hfeed
  have hall : History.chain chain.toList account = chain.toList := by
    rw [← hrep.blocks, blocks, getChain, hchains, ← AList.insert_empty, AList.lookup_insert]
    rfl
  refine ⟨hall ▸ hv.wellLinked account, account, fun b hb ↦ ?_⟩
  rw [← hall] at hb
  exact (mem_chain.mp hb).2

/-- The ledger takes a linked list of one account's verified blocks, one by one, without Receives
and under the ceiling, as a chain. -/
theorem exists_feed {m : Overflow} {K : Crates} {account : String} {c : List Block}
    (hlen : c.length ≤ isizeMax) (hver : ∀ b ∈ c, Verified K b)
    (hreceive : ∀ b ∈ c, b.blockType.isReceive = false)
    (hcap : minted c ≤ TOTAL_SUPPLY_MICRO_ARX.toNat) (hacc : ∀ b ∈ c, b.account = account)
    (hc : WellLinked c) :
    ∃ l, feed m K new c = some (c.map fun _ ↦ .ok (), l) ∧
      (l.chains = ∅ ∨ ∃ w, l.chains = AList.singleton account w) := by
  induction c using List.reverseRecOn with
  | nil => exact ⟨new, rfl, Or.inl rfl⟩
  | append_singleton c b ih =>
    rw [List.length_append, List.length_singleton] at hlen
    rw [minted_concat] at hcap
    have hsub : ∀ b' ∈ c, b' ∈ c ++ [b] := fun b' hb' ↦ List.mem_append_left _ hb'
    have hmem : b ∈ c ++ [b] := List.mem_append_right _ (List.mem_singleton_self b)
    obtain ⟨l, hfeed, hchains⟩ := ih (by omega) (fun b' hb' ↦ hver b' (hsub b' hb'))
      (fun b' hb' ↦ hreceive b' (hsub b' hb')) (by omega) (fun b' hb' ↦ hacc b' (hsub b' hb'))
      (WellLinked.of_isPrefix (List.prefix_append c [b]) hc)
    obtain ⟨hv, hrep⟩ := represents_of_feed hfeed
    have hall : History.chain c b.account = c := by
      rw [History.chain, List.filter_eq_self]
      intro b' hb'
      rw [hacc b' (hsub b' hb'), hacc b hmem, decide_eq_true rfl]
    -- nothing but the link is left to check
    have hadm : Admissible K c b :=
      .of_not_receive (hver b hmem) hcap (hreceive b hmem) (hall.symm ▸ hc)
    have hroom : (l.blocks b.account).length < isizeMax := by
      rw [hrep.blocks, hall]
      omega
    obtain ⟨l', hstep⟩ := exec_addBlock_of_admits ((hrep.admits_iff hv).mpr hadm) hroom
    obtain ⟨w, -, hinsert⟩ := (exec_addBlock_ok hstep).2.chains
    rw [hacc b hmem] at hinsert
    refine ⟨l', by simpa using feed_concat hfeed hstep, Or.inr ⟨w, ?_⟩⟩
    rcases hchains with hempty | ⟨w₀, hsingle⟩
    · rw [hinsert, hempty, AList.insert_empty]
    · rw [hinsert, hsingle, AList.insert_singleton_eq]

/-- On one account, the ledger takes exactly the linked lists as chains. -/
theorem formsChain_iff {m : Overflow} {K : Crates} {chain : Vec Block} (hne : chain.toList ≠ [])
    (hver : ∀ b ∈ chain.toList, Verified K b)
    (hreceive : ∀ b ∈ chain.toList, b.blockType.isReceive = false)
    (hcap : minted chain.toList ≤ TOTAL_SUPPLY_MICRO_ARX.toNat) :
    FormsChain m K chain ↔ WellLinked chain.toList ∧
      ∃ account, ∀ b ∈ chain.toList, b.account = account := by
  refine ⟨FormsChain.wellLinked, ?_⟩
  rintro ⟨hc, account, hacc⟩
  obtain ⟨l, hfeed, hchains⟩ := exists_feed (m := m) chain.length_le hver hreceive hcap hacc hc
  have hrep := (represents_of_feed hfeed).2
  have hblocks : l.blocks account = chain.toList := by
    rw [hrep.blocks, History.chain, List.filter_eq_self]
    intro b hb
    rw [hacc b hb, decide_eq_true rfl]
  -- the ledger has this chain and no other
  rcases hchains with hempty | ⟨w, hsingle⟩
  · rw [blocks, getChain, hempty] at hblocks
    exact absurd hblocks.symm hne
  · refine ⟨l, account, hfeed, ?_⟩
    rw [blocks, getChain, hsingle, ← AList.insert_empty, AList.lookup_insert,
      Option.elim_some] at hblocks
    rw [hsingle, Vec.ext hblocks]

/-- **When the two validators agree**: on the lists of one account, and on those that are not
linked, which neither accepts. -/
theorem validators_agree_iff {m : Overflow} {K : Crates} (chain : Vec Block)
    (hne : chain.toList ≠ []) (hver : ∀ b ∈ chain.toList, Verified K b)
    (hreceive : ∀ b ∈ chain.toList, b.blockType.isReceive = false)
    (hcap : minted chain.toList ≤ TOTAL_SUPPLY_MICRO_ARX.toNat) :
    ((verifyChainIntegrity m K chain.toList).exec = some (.ok ()) ↔ FormsChain m K chain) ↔
      (∃ account, ∀ b ∈ chain.toList, b.account = account) ∨ ¬ WellLinked chain.toList := by
  rw [exec_verifyChainIntegrity_eq_ok, and_iff_left hver, formsChain_iff hne hver hreceive hcap]
  tauto

/-- A credential that Alice revokes after she has sent to Bob. -/
def revokeNext : Block :=
  Reference.sealBlock Reference.alice Reference.sendToBob.hash (.revoke "diploma") 60 3 4

/-- Both validators take the three blocks of Alice. -/
theorem validators_agree_three :
    (verifyChainIntegrity .panics Reference.crates
        [Reference.openAlice, Reference.sendToBob, revokeNext]).exec = some (.ok ()) ∧
      FormsChain .panics Reference.crates
        ⟨[Reference.openAlice, Reference.sendToBob, revokeNext], by decide⟩ := by
  have hver : ∀ b ∈ [Reference.openAlice, Reference.sendToBob, revokeNext],
      Verified Reference.crates b := by
    simp only [List.forall_mem_cons]
    exact ⟨Reference.verified_sealBlock Reference.decode_alice,
      Reference.verified_sealBlock Reference.decode_alice,
      Reference.verified_sealBlock Reference.decode_alice, by simp⟩
  have hlinked : WellLinked [Reference.openAlice, Reference.sendToBob, revokeNext] :=
    (wellLinked_concat (l := [Reference.openAlice, Reference.sendToBob]) rfl).mpr
      ⟨wellLinked_pair.mpr ⟨⟨rfl, rfl, rfl⟩, rfl, rfl⟩, rfl, rfl⟩
  have hagree := validators_agree_iff (m := .panics)
    ⟨[Reference.openAlice, Reference.sendToBob, revokeNext], by decide⟩ (List.cons_ne_nil _ _)
    hver (by decide) (by decide)
  have hintegrity := (exec_verifyChainIntegrity_eq_ok (m := .panics)
    ⟨[Reference.openAlice, Reference.sendToBob, revokeNext], by decide⟩).mpr ⟨hlinked, hver⟩
  exact ⟨hintegrity, (hagree.mpr (Or.inl ⟨Reference.alice, by decide⟩)).mp hintegrity⟩

/-- The genesis of one key, continued by another. -/
theorem not_validators_agree :
    ¬ ∀ chain : Vec Block, chain.toList ≠ [] →
      (∀ b ∈ chain.toList, Verified Reference.crates b) →
      (∀ b ∈ chain.toList, b.blockType.isReceive = false) →
      minted chain.toList ≤ TOTAL_SUPPLY_MICRO_ARX.toNat →
      ((verifyChainIntegrity .panics Reference.crates chain.toList).exec = some (.ok ()) ↔
        FormsChain .panics Reference.crates chain) := by
  intro h
  let first := Reference.sealBlock Reference.alice "" (.open 100) 100 1 1
  let next := Reference.sealBlock Reference.bob first.hash (.revoke "") 0 2 2
  have hver : ∀ b ∈ [first, next], Verified Reference.crates b := by
    simp only [List.forall_mem_cons]
    exact ⟨Reference.verified_sealBlock Reference.decode_alice,
      Reference.verified_sealBlock Reference.decode_bob, by simp⟩
  have hlinked : WellLinked [first, next] :=
    wellLinked_pair.mpr ⟨⟨rfl, rfl, rfl⟩, rfl, rfl⟩
  have hagree := h ⟨[first, next], by decide⟩ (List.cons_ne_nil _ _) hver (by decide) (by decide)
  obtain ⟨-, account, hacc⟩ :=
    (hagree.mp (exec_verifyChainIntegrity_eq_ok ⟨[first, next], by decide⟩ |>.mpr
      ⟨hlinked, hver⟩)).wellLinked
  have hsame : Reference.alice = Reference.bob :=
    (hacc first (by simp)).trans (hacc next (by simp)).symm
  exact absurd hsame (by decide)

end Ledger

end Arxia
