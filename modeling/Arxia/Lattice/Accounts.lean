import Arxia.Lattice.History
import Arxia.Lattice.Reference

/-!
# Accounts: one chain per key, one opening per chain

Two per-account rules that the ledger enforces on one path and not on another.

An account is a string, and its key is what the string decodes to. Hexadecimal has two spellings for
most bytes, so one key has many strings, and the ledger gives each its own chain. Everything is as
it should be as long as no block opens a chain under a second spelling of a key already in use.

A chain must start with an Open. Nothing keeps a later block from being an Open as well: the check
on the first block and the checks on later ones sit on separate branches, and only the first looks
at the block type. Everything is as it should be as long as the Opens have nonce 1.
-/

namespace Arxia

open Rust History

/-! ## One chain per key -/

namespace Ledger

/-- The chains in use have distinct keys, and no key signs two blocks at one nonce. -/
structure OneChainPerKey (K : Crates) (l : Ledger) (h : List Block) : Prop where
  chains : ∀ a a' key, l.blocks a ≠ [] → l.blocks a' ≠ [] → K.accountKey a = .ok key →
    K.accountKey a' = .ok key → a = a'
  nonces : h.Pairwise fun b b' ↦ ∀ key, K.accountKey b.account = .ok key →
    K.accountKey b'.account = .ok key → b.nonce ≠ b'.nonce

/-- The block does not open a chain under a second spelling of a key in use. -/
def NoRespelling (K : Crates) (l : Ledger) (b : Block) : Prop :=
  l.blocks b.account = [] → ∀ a key, l.blocks a ≠ [] → K.accountKey a = .ok key →
    K.accountKey b.account ≠ .ok key

theorem Represents.blocks_ne_nil {l : Ledger} {h : List Block} (hrep : l.Represents h)
    {a : String} : l.blocks a ≠ [] ↔ ∃ b ∈ h, b.account = a := by
  rw [hrep.blocks]
  constructor
  · intro hne
    obtain ⟨b, hb⟩ := List.exists_mem_of_ne_nil _ hne
    exact ⟨b, mem_chain.mp hb⟩
  · rintro ⟨b, hb⟩
    exact List.ne_nil_of_mem (mem_chain.mpr hb)

/-- Every key of the history has one spelling. -/
def OneSpelling (K : Crates) (h : List Block) : Prop :=
  ∀ b ∈ h, ∀ b' ∈ h, ∀ key, K.accountKey b.account = .ok key → K.accountKey b'.account = .ok key →
    b.account = b'.account

theorem OneSpelling.concat {K : Crates} {l : Ledger} {h : List Block} {b : Block}
    (hspell : OneSpelling K h) (hrep : l.Represents h) (hnew : NoRespelling K l b) :
    OneSpelling K (h ++ [b]) := by
  -- a block of the history and the new one
  have hcross : ∀ b₁ ∈ h, ∀ key, K.accountKey b₁.account = .ok key →
      K.accountKey b.account = .ok key → b₁.account = b.account := by
    intro b₁ hb₁ key hkey₁ hkey
    by_cases hempty : l.blocks b.account = []
    · exact absurd hkey (hnew hempty _ key (hrep.blocks_ne_nil.mpr ⟨b₁, hb₁, rfl⟩) hkey₁)
    · obtain ⟨b₂, hb₂, hacc⟩ := hrep.blocks_ne_nil.mp hempty
      rw [← hacc] at hkey ⊢
      exact hspell b₁ hb₁ b₂ hb₂ key hkey₁ hkey
  intro b₁ hb₁ b₂ hb₂ key hkey₁ hkey₂
  rcases List.mem_append.mp hb₁ with hold₁ | hlast₁ <;>
    rcases List.mem_append.mp hb₂ with hold₂ | hlast₂
  · exact hspell b₁ hold₁ b₂ hold₂ key hkey₁ hkey₂
  · rw [List.mem_singleton.mp hlast₂] at hkey₂ ⊢
    exact hcross b₁ hold₁ key hkey₁ hkey₂
  · rw [List.mem_singleton.mp hlast₁] at hkey₁ ⊢
    exact (hcross b₂ hold₂ key hkey₂ hkey₁).symm
  · rw [List.mem_singleton.mp hlast₁, List.mem_singleton.mp hlast₂]

theorem oneChainPerKey_of_oneSpelling {K : Crates} {l : Ledger} {h : List Block}
    (hv : Valid K h) (hrep : l.Represents h) (hspell : OneSpelling K h) :
    l.OneChainPerKey K h := by
  refine ⟨fun a a' key ha ha' hkey hkey' ↦ ?_, ?_⟩
  · obtain ⟨b, hb, rfl⟩ := hrep.blocks_ne_nil.mp ha
    obtain ⟨b', hb', rfl⟩ := hrep.blocks_ne_nil.mp ha'
    exact hspell b hb b' hb' key hkey hkey'
  · exact hv.pairwise_account_nonce.imp_of_mem fun hb hb' hne key hkey hkey' ↦
      hne (hspell _ hb _ hb' key hkey hkey')

/-- Lowercase accounts have one spelling. -/
theorem oneSpelling_of_lowercase {K : Crates} {h : List Block}
    (hlower : ∀ b ∈ h, ∃ bs, b.account = Hex.encode bs) : OneSpelling K h := by
  intro b hb b' hb' key hkey hkey'
  obtain ⟨bs, hbs⟩ := hlower b hb
  obtain ⟨bs', hbs'⟩ := hlower b' hb'
  rw [Crypto.accountKey_eq_ok, hbs, Hex.decode_encode] at hkey
  rw [Crypto.accountKey_eq_ok, hbs', Hex.decode_encode] at hkey'
  rw [hbs, hbs', Option.some_inj.mp hkey, Option.some_inj.mp hkey']

/-- Callers that lowercase the account never respell a key. -/
theorem run_of_lowercase {m : Overflow} {K : Crates} {attempts : List Attempt} {l : Ledger}
    (run : (system m K).Run attempts l)
    (hlower : ∀ c ∈ attempts, ∃ bs, c.1.account = Hex.encode bs) :
    ((system m K).restrict fun l c ↦ Admits m K l c.1 → NoRespelling K l c.1).Run attempts l := by
  refine run.restrict_of_steps fun tr s c hrun hpre _ hempty a key hne hkey hkey' ↦ ?_
  obtain ⟨b, hb, rfl⟩ := (run_represents hrun).2.blocks_ne_nil.mp hne
  -- the block's account and the old one are both lowercase, hence equal
  have hmem : ∀ b' ∈ accepted tr ++ [c.1], ∃ bs, b'.account = Hex.encode bs := by
    intro b' hb'
    rcases List.mem_append.mp hb' with hold | hlast
    · obtain ⟨c', hc', rfl⟩ := exists_of_mem_accepted hold
      exact hlower c' (hpre.subset (List.mem_append_left _ hc'))
    · rw [List.mem_singleton.mp hlast]
      exact hlower c (hpre.subset (List.mem_append_right _ (List.mem_singleton_self c)))
  have heq := oneSpelling_of_lowercase (K := K) hmem b (List.mem_append_left _ hb) c.1
    (List.mem_append_right _ (List.mem_singleton_self _)) key hkey hkey'
  exact hne (heq ▸ hempty)

/-- **One chain per key**, when no block opens a chain under a second spelling. -/
theorem oneChainPerKey_of_run {m : Overflow} {K : Crates} {attempts : List Attempt} {l : Ledger}
    (run : ((system m K).restrict fun l c ↦ Admits m K l c.1 → NoRespelling K l c.1).Run
      attempts l) :
    l.OneChainPerKey K (accepted attempts) := by
  obtain ⟨hv, hrep⟩ := run_represents run.of_restrict
  apply oneChainPerKey_of_oneSpelling hv hrep
  refine restrict_invariant (J := fun h _ ↦ OneSpelling K h) run ?_ (fun _ _ _ h ↦ h) ?_
  · intro b hb
    simp at hb
  · intro h b l l' _ hrep _ hnew hspell
    exact hspell.concat hrep hnew

theorem oneChainPerKey_transfer :
    ∃ l : Ledger, l.OneChainPerKey Reference.crates Reference.transfer := by
  obtain ⟨l, run⟩ := Reference.run_transfer
  refine ⟨l, oneChainPerKey_of_run (run_of_lowercase run fun c hc ↦ ?_)⟩
  obtain ⟨b, hb, rfl⟩ := List.mem_map.mp hc
  exact Reference.lowercase_transfer b hb

/-- The key of a lowercase account opens a second chain under the uppercase spelling. -/
theorem not_oneChainPerKey :
    ¬ ∀ (attempts : List Attempt) (l : Ledger),
      (system .panics Reference.crates).Run attempts l →
      l.OneChainPerKey Reference.crates (accepted attempts) := by
  intro h
  let lower := Reference.sealBlock Reference.alice "" (.open 100) 100 1 1
  let upper := Reference.sealBlock (String.ofList (List.replicate 64 'A')) "" (.open 100) 100 1 1
  have hdecode : Hex.decode upper.account.toList =
      some (Vector.replicate 32 (0xaa : UInt8)).toList := by decide +kernel
  have hchain : chain [lower] upper.account = [] := chain_concat_of_ne [] (by decide +kernel)
  have hlower : Valid Reference.crates [lower] := .concat .nil (.of_not_receive
    (Reference.verified_sealBlock Reference.decode_alice) (by decide) rfl
    (wellLinked_singleton.mpr ⟨rfl, rfl, rfl⟩))
  have hboth : Valid Reference.crates [lower, upper] := .concat hlower (.of_not_receive
    (Reference.verified_sealBlock hdecode) (by decide) rfl
    (hchain ▸ wellLinked_singleton.mpr ⟨rfl, rfl, rfl⟩))
  obtain ⟨l, run⟩ := exists_run_of_valid (m := .panics) hboth (by decide)
  have hpair := (h _ l run).nonces
  rw [accepted_map_ok] at hpair
  obtain ⟨hfirst, -⟩ := List.pairwise_cons.mp hpair
  exact hfirst upper (List.mem_singleton_self upper) _
    (Crypto.accountKey_eq_ok.mpr Reference.decode_alice) (Crypto.accountKey_eq_ok.mpr hdecode) rfl

end Ledger

/-! ## One opening per chain -/

namespace Ledger

/-- Every chain in use has exactly one Open, its first block, and the supply is what those mint. -/
structure SingleOpening (l : Ledger) : Prop where
  opens : ∀ a, l.blocks a ≠ [] → ∃ first rest, l.blocks a = first :: rest ∧ Genesis first ∧
    ∀ b ∈ rest, b.blockType.isOpen = false
  totalSupply : l.totalSupply.toNat = l.sumChains fun chain ↦ chain.head?.elim 0 Block.minted

/-- In a chain whose Opens have nonce 1, only the first block is one. -/
theorem exists_first_of_wellLinked {c : List Block} (hne : c ≠ []) (hc : WellLinked c)
    (hopen : ∀ b ∈ c, b.blockType.isOpen = true → b.nonce = 1) :
    ∃ first rest, c = first :: rest ∧ Genesis first ∧ ∀ b ∈ rest, b.blockType.isOpen = false := by
  obtain ⟨first, rest, rfl⟩ := List.exists_cons_of_ne_nil hne
  refine ⟨first, rest, rfl, hc.1, fun b hb ↦ ?_⟩
  rw [Bool.eq_false_iff]
  intro hb'
  have hone := hopen b (List.mem_cons_of_mem first hb) hb'
  obtain ⟨i, hi, rfl⟩ := List.mem_iff_getElem.mp hb
  -- the nonces count the blocks, so a later block has a nonce above 1
  have hcount := hc.nonce_getElem (Nat.succ_lt_succ hi)
  rw [List.getElem_cons_succ, hone, UInt64.toNat_one] at hcount
  omega

/-- The supply is what the first blocks mint, as long as no later block mints. -/
theorem Extends.minted_first {l l' : Ledger} {b : Block} (hext : Extends l b l')
    (hlinked : WellLinked (l.blocks b.account ++ [b]))
    (hopen : b.blockType.isOpen = true → b.nonce = 1) :
    l'.sumChains (fun chain ↦ chain.head?.elim 0 Block.minted) =
      l.sumChains (fun chain ↦ chain.head?.elim 0 Block.minted) + b.minted := by
  have hsum := hext.sumChains (g := fun chain ↦ chain.head?.elim 0 Block.minted) rfl
  cases hchain : l.blocks b.account with
  | nil =>
    rw [hchain] at hsum
    exact hsum
  | cons first rest =>
    -- the nonce of a later block is greater than that of an Open
    have hlater : b.blockType.isOpen = false := by
      rw [Bool.eq_false_iff]
      intro hb
      have hcount := hlinked.nonce_getLast List.getLast?_concat
      rw [hopen hb, hchain, UInt64.toNat_one] at hcount
      simp at hcount
    rw [hchain] at hsum
    rw [Block.minted_of_not_open hlater]
    exact Nat.add_right_cancel hsum

/-- **A single opening per account**, when every Open that is admitted has nonce 1. -/
theorem singleOpening_of_run {m : Overflow} {K : Crates} {attempts : List Attempt} {l : Ledger}
    (run : ((system m K).restrict fun l c ↦ Admits m K l c.1 →
      c.1.blockType.isOpen = true → c.1.nonce = 1).Run attempts l) : l.SingleOpening := by
  obtain ⟨hv, hrep⟩ := run_represents run.of_restrict
  obtain ⟨hopen, hminted⟩ : (∀ b ∈ accepted attempts, b.blockType.isOpen = true → b.nonce = 1) ∧
      l.sumChains (fun chain ↦ chain.head?.elim 0 Block.minted) = minted (accepted attempts) := by
    refine restrict_invariant (C := fun _ b ↦ b.blockType.isOpen = true → b.nonce = 1)
      (J := fun h l ↦ (∀ b ∈ h, b.blockType.isOpen = true → b.nonce = 1) ∧
        l.sumChains (fun chain ↦ chain.head?.elim 0 Block.minted) = minted h) run ?_ ?_ ?_
    · exact ⟨fun b hb ↦ by simp at hb, rfl⟩
    · rintro h l a ⟨hopen, hsum⟩
      exact ⟨hopen, by rw [sumChains_touch rfl, hsum]⟩
    · rintro h b l l' hv hrep hext hb ⟨hopen, hsum⟩
      have hlinked : WellLinked (l.blocks b.account ++ [b]) := by
        rw [hrep.blocks]
        exact hv.of_concat.2.linked
      refine ⟨fun b' hb' ↦ ?_, by rw [hext.minted_first hlinked hb, hsum, minted_concat]⟩
      rcases List.mem_append.mp hb' with hold | hlast
      · exact hopen b' hold
      · rwa [List.mem_singleton.mp hlast]
  refine ⟨fun a hne ↦ ?_, by rw [hrep.totalSupply, hminted]⟩
  rw [hrep.blocks] at hne ⊢
  exact exists_first_of_wellLinked hne (hv.wellLinked a) fun b hb ↦ hopen b (mem_chain.mp hb).1

theorem singleOpening_transfer :
    ∃ l, (system .panics Reference.crates).Run
      (Reference.transfer.map fun b ↦ (b, .ok ())) l ∧ l.SingleOpening := by
  obtain ⟨l, run⟩ := Reference.run_transfer
  have hopen : ∀ b ∈ Reference.transfer, b.blockType.isOpen = true → b.nonce = 1 := by decide
  refine ⟨l, run, singleOpening_of_run (run.restrict_of_steps fun tr s c _ hpre _ ↦ ?_)⟩
  obtain ⟨b, hb, rfl⟩ := List.mem_map.mp
    (hpre.subset (List.mem_append_right tr (List.mem_singleton_self c)))
  exact hopen b hb

/-- An account opens twice. -/
theorem not_singleOpening :
    ¬ ∀ (attempts : List Attempt) (l : Ledger),
      (system .panics Reference.crates).Run attempts l → l.SingleOpening := by
  intro h
  let first := Reference.sealBlock Reference.alice "" (.open 100) 100 1 1
  let again := Reference.sealBlock Reference.alice first.hash (.open 50) 150 2 2
  have hfirst : Valid Reference.crates [first] := .concat .nil (.of_not_receive
    (Reference.verified_sealBlock Reference.decode_alice) (by decide) rfl
    (wellLinked_singleton.mpr ⟨rfl, rfl, rfl⟩))
  have hchain : chain [first] Reference.alice = [first] := chain_concat_self [] first
  have hlinked : WellLinked (chain [first] Reference.alice ++ [again]) := by
    rw [hchain]
    exact wellLinked_pair.mpr ⟨⟨rfl, rfl, rfl⟩, rfl, rfl⟩
  have hboth : Valid Reference.crates [first, again] := .concat hfirst (.of_not_receive
    (Reference.verified_sealBlock Reference.decode_alice) (by decide) rfl hlinked)
  obtain ⟨l, run⟩ := exists_run_of_valid (m := .panics) hboth (by decide)
  have hblocks : l.blocks Reference.alice = [first, again] := by
    rw [(run_represents run).2.blocks, accepted_map_ok]
    exact (chain_concat_self [first] again).trans (congrArg (· ++ [again]) hchain)
  obtain ⟨_, _, hsplit, -, hrest⟩ := (h _ l run).opens Reference.alice (by simp [hblocks])
  obtain ⟨-, rfl⟩ := List.cons_eq_cons.mp (hblocks.symm.trans hsplit)
  exact absurd (hrest again (List.mem_singleton_self again)) (by decide)

end Ledger

end Arxia
