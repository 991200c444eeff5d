import Arxia.Lattice.Ledger
import Arxia.Lattice.Reference

/-!
# What a rejected block leaves behind

The documentation of `add_block` promises that every check fires before the ledger is mutated. The
indices and the supply are indeed out of reach of a refusal. The map of chains is not: the account's
entry is created before the continuity checks run, so a refusal by one of those leaves an empty
chain under an account the ledger did not know.
-/

namespace Arxia

open Rust

namespace Ledger

/-- No query tells the two ledgers apart, `chains` being a public field. -/
structure Unchanged (l l' : Ledger) : Prop where
  getChain : ∀ account, l'.getChain account = l.getChain account
  sendIndex : ∀ x, l'.sendIndex.lookup x = l.sendIndex.lookup x
  consumedSends : l'.consumedSends = l.consumedSends
  totalSupply : l'.totalSupply = l.totalSupply

theorem Unchanged.refl (l : Ledger) : Unchanged l l :=
  ⟨fun _ ↦ rfl, fun _ ↦ rfl, rfl, rfl⟩

/-- Creating an entry shows exactly when there was none. -/
theorem unchanged_touch_iff {l : Ledger} {a : String} :
    Unchanged l (l.touch a) ↔ a ∈ l.chains := by
  constructor
  · intro h
    have hlookup := h.getChain a
    rw [getChain, getChain, touch, HashMap.lookup_orInsert_self] at hlookup
    exact AList.lookup_isSome.mp (hlookup ▸ rfl)
  · intro hmem
    rw [touch, HashMap.orInsert_of_mem _ hmem]
    exact Unchanged.refl l

/-- On an account without an entry, the continuity check is the genesis check. -/
theorem continues_of_notMem {m : Overflow} {l : Ledger} {b : Block} (h : b.account ∉ l.chains) :
    Continues m (l.blocks b.account) b ↔ Genesis b := by
  rw [blocks, getChain, AList.lookup_eq_none.mpr h]
  rfl

/-- The genesis check cannot panic, so the refusal does happen. -/
theorem exec_addBlock_of_not_genesis {m : Overflow} {K : Crates} {l : Ledger} {b : Block}
    (hmem : b.account ∉ l.chains) (hpass : Passes K l b) (hgen : ¬ Genesis b) :
    ∃ e, (addBlock m K b).exec l = some (.error e, l.touch b.account) := by
  have hnil : (((l.touch b.account).getChain b.account).getD Vec.empty).toList = [] := by
    rw [toList_getChain_touch, blocks, getChain, AList.lookup_eq_none.mpr hmem]
    rfl
  rw [exec_addBlock_of_passes hpass]
  generalize ((l.touch b.account).getChain b.account).getD Vec.empty = chain at hnil
  have hcheck : ∃ r, (checkContinuity m chain b).exec = some r := by
    rw [checkContinuity, hnil]
    simp only [List.getLast?_nil, Fallible.ofExcept_bind]
    exact ⟨_, rfl⟩
  obtain ⟨r, hr⟩ := hcheck
  cases r with
  | error e =>
    rw [hr]
    exact ⟨e, rfl⟩
  | ok u =>
    rw [exec_checkContinuity_eq_ok, hnil] at hr
    exact absurd hr hgen

/-- **When rejection is atomic.** A rejected block leaves the ledger as it was, except for a block
of an unknown account that gets past the hash, key, signature, supply and source checks and is not
a genesis: that one leaves an empty chain. -/
theorem unchanged_of_error_iff {m : Overflow} {K : Crates} {l : Ledger} {b : Block} :
    (∀ e l', (addBlock m K b).exec l = some (.error e, l') → Unchanged l l') ↔
      b.account ∈ l.chains ∨ ¬ Passes K l b ∨ Genesis b := by
  constructor
  · intro h
    by_contra hbad
    push Not at hbad
    obtain ⟨hmem, hpass, hgen⟩ := hbad
    obtain ⟨e, he⟩ := exec_addBlock_of_not_genesis (m := m) hmem hpass hgen
    exact hmem (unchanged_touch_iff.mp (h e _ he))
  · intro h e l' hexec
    obtain ⟨hadm, rfl⟩ := exec_addBlock_error hexec
    split
    · rename_i hpass
      rw [unchanged_touch_iff]
      by_contra hmem
      rcases h with h | h | h
      · exact hmem h
      · exact h hpass
      · exact hadm ⟨hpass, (continues_of_notMem hmem).mpr h⟩
    · exact Unchanged.refl l

/-- A signed Open at nonce 2 is refused and leaves an empty chain behind. -/
theorem not_unchanged_of_error :
    ¬ ∀ (l : Ledger) (b : Block) (e : ArxiaError) (l' : Ledger),
      (system .panics Reference.crates).Reachable l →
      (addBlock .panics Reference.crates b).exec l = some (.error e, l') → Unchanged l l' := by
  intro h
  let b := Reference.sealBlock Reference.alice "" (.open 100) 100 2 1
  have hmem : b.account ∉ new.chains := AList.notMem_empty _
  have hpass : Passes Reference.crates new b :=
    passes_iff.mpr ⟨Reference.verified_sealBlock Reference.decode_alice, by decide, rfl⟩
  have hgen : ¬ Genesis b := fun hgen ↦ absurd hgen.nonce (by decide)
  obtain ⟨e, he⟩ := exec_addBlock_of_not_genesis hmem hpass hgen
  exact hmem (unchanged_touch_iff.mp (h new b e _ ⟨[], .start rfl⟩ he))

end Ledger

end Arxia
