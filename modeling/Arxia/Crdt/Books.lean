import Arxia.Crdt.Independence
import Arxia.Lattice.Totals

/-!
# Reconciliation and the accounts' own books

An account keeps its balance call by call; a reconciliation recomputes it from the blocks alone.
Given the blocks of a whole network both arrive at the same number, because a block keeps enough of
the call that returned it: an Open and a Send show their amount, and the hash a Receive cites finds
the one Send that carries its own.

No entry has a rival, since account and nonce identify a block, so all of them win; none is
rejected, since Opens are at nonce 1 and the Send a Receive was given is on the chain of its sender.
-/

namespace Arxia

open Rust Transition AccountChain Network Settlement

namespace Reconciliation

/-- The blocks of all chains, each at least once. -/
def Covers {ι : Type} (s : State ι) (blocks : List Block) : Prop :=
  ∀ b, b ∈ blocks ↔ ∃ i, b ∈ (s.accounts i).chain.toList

section Network

variable {ι : Type} {m : Overflow} {K : Crates} {keys : ι → SigningKey} {tr : List (Event ι)}
  {s : State ι} {blocks : List Block} {i : ι} {b : Block}

/-- What the results of this section share: a run of a network with distinct valid keys, and the
blocks it has produced, free of collisions. -/
structure Produced (K : Crates) (m : Overflow) (keys : ι → SigningKey) (tr : List (Event ι))
    (s : State ι) (blocks : List Block) : Prop where
  serde : Serde K
  valid : ∀ i, (keys i).Valid K
  injective : Function.Injective fun i ↦ (keys i).verifyingKey
  run : (system m K keys).Run tr s
  covers : Covers s blocks
  collisionFree : Block.CollisionFree K blocks

/-- Of the entries, a Receive credits only that of the Send whose hash it cites. -/
theorem credits_iff_eq_entry {r c : Block} {v : UInt64}
    (htype : r.blockType = .receive c.hash) (hsend : c.blockType = .send r.account v)
    (hc : c.entry ∈ entries blocks) {e : Entry} (he : e ∈ entries blocks) :
    r.entry.Credits e ↔ e = c.entry := by
  constructor
  · intro hcredits
    have hhash : c.hash = e.hash := BlockType.receive.inj (htype.symm.trans hcredits.1)
    exact injOn_hash_entries blocks he hc hhash.symm
  · rintro rfl
    exact ⟨htype, Entry.destination_eq_some.mpr ⟨v, hsend⟩⟩

variable (h : Produced K m keys tr s blocks)
include h

theorem Produced.hashed : ∀ b ∈ blocks, b.Hashed K := by
  intro b hb
  obtain ⟨i, hi⟩ := (h.covers b).mp hb
  exact ((sound_of_run h.serde h.valid h.run i).own b hi).2.hashed

theorem Produced.mem_entries {e : Entry} :
    e ∈ entries blocks ↔ ∃ i, ∃ b ∈ (s.accounts i).chain.toList, b.entry = e := by
  rw [mem_entries_of_collisionFree h.serde h.hashed h.collisionFree]
  simp only [h.covers _, exists_and_right.symm, exists_comm (α := Block)]

theorem Produced.entry_mem (hb : b ∈ (s.accounts i).chain.toList) : b.entry ∈ entries blocks :=
  h.mem_entries.mpr ⟨i, b, hb, rfl⟩

/-- **No rivals.** -/
theorem Produced.eq_of_key_eq {e c : Entry} (he : e ∈ entries blocks) (hc : c ∈ entries blocks)
    (hkey : c.key = e.key) : c = e := by
  obtain ⟨i, b, hb, rfl⟩ := h.mem_entries.mp he
  obtain ⟨j, d, hd, rfl⟩ := h.mem_entries.mp hc
  obtain ⟨haccount, hnonce⟩ := Prod.mk.inj hkey
  rw [eq_of_account_nonce h.serde h.valid h.injective h.run hd hb haccount hnonce]

theorem Produced.winners_eq : winners (entries blocks) = entries blocks :=
  winners_eq_self fun _ he _ hc hkey ↦ h.eq_of_key_eq he hc hkey

theorem Produced.conflictOf_eq_none {w : Entry} (hw : w ∈ entries blocks) :
    conflictOf (entries blocks) w = none := by
  apply if_pos
  have hgroup : (entries blocks).filter (fun e ↦ e.key = w.key) = {w} := by
    ext e
    rw [Finset.mem_filter, Finset.mem_singleton]
    constructor
    · exact fun ⟨he, hkey⟩ ↦ h.eq_of_key_eq hw he hkey
    · rintro rfl
      exact ⟨hw, rfl⟩
  rw [losers, hgroup, Finset.image_singleton, Finset.erase_singleton]
  exact Finset.sort_empty _

/-! ## What a block settles -/

/-- The settlement of a block is the effect of the call that returned it. -/
structure Books (W : Finset Entry) (e : Event ι) (w : Entry) : Prop where
  touches : Touches W w
  credit : credit W w = e.credit
  sent : w.sent = e.debit
  genesis : rejectGenesis w = none
  receive : rejectReceive W w = none

theorem Produced.books_receive {e : Event ι} {r c : Block} {v : UInt64} (hop : e.op = .receive c)
    (hresult : e.result = .ok r) (htype : r.blockType = .receive c.hash) (hfed : c ∈ s.sends)
    (hsend : c.blockType = .send r.account v) : Books (entries blocks) e r.entry := by
  obtain ⟨j, hj, -⟩ := exists_sender h.serde h.valid h.run c hfed
  have hmem := h.entry_mem hj
  have hiff : ∀ d ∈ entries blocks, r.entry.Credits d ↔ d = c.entry := fun d hd ↦
    credits_iff_eq_entry htype hsend hmem hd
  have hcredits : ∃ d ∈ entries blocks, r.entry.Credits d := ⟨_, hmem, (hiff _ hmem).mpr rfl⟩
  have hkind : r.entry.blockType = .receive c.hash := htype
  refine ⟨(touches_receive hkind).mpr hcredits, ?_, ?_, ?_, ?_⟩
  · rw [credit_of_receive hkind hiff hmem, Entry.sent, Block.blockType_entry, hsend, Event.credit,
      hop, hresult]
    exact (Block.sentAmount_of_send hsend).symm
  · rw [Entry.sent_of_not_isSend (by rw [hkind]; rfl), Event.debit, hop]
  · exact rejectGenesis_of_not_isOpen (by rw [hkind]; rfl)
  · rw [rejectReceive, hkind]
    exact if_pos hcredits

/-- **Every block settles as it was booked.** -/
theorem Produced.books {e : Event ι} (he : e ∈ tr) (hresult : e.result = .ok b) :
    Books (entries blocks) e b.entry := by
  have hanswers := answers_of_run h.run e he b hresult
  rcases hop : e.op with v | ⟨d, v⟩ | c <;> rw [hop] at hanswers
  · rcases hanswers with ⟨htype, hnonce⟩
    have hkind : b.entry.blockType = .open v := htype
    refine ⟨(touches_open hkind).mpr hnonce, ?_, ?_, ?_, ?_⟩
    · rw [credit_of_open hkind hnonce, Event.credit, hop, hresult]
    · rw [Entry.sent_of_not_isSend (by rw [hkind]; rfl), Event.debit, hop]
    · exact if_neg fun hreject ↦ hreject.2 hnonce
    · exact rejectReceive_of_not_isReceive (by rw [hkind]; rfl)
  · rcases hanswers with _ | htype
    have hkind : b.entry.blockType = .send d v := htype
    refine ⟨touches_send hkind, ?_, ?_, ?_, ?_⟩
    · rw [credit_of_send hkind, Event.credit, hop]
    · rw [Entry.sent, hkind, Event.debit, hop, hresult]
    · exact rejectGenesis_of_not_isOpen (by rw [hkind]; rfl)
    · exact rejectReceive_of_not_isReceive (by rw [hkind]; rfl)
  · rcases hanswers with _ | _ | ⟨htype, hfed, hsend⟩
    exact h.books_receive hop hresult htype hfed hsend

theorem Produced.exists_books {w : Entry} (hw : w ∈ entries blocks) :
    ∃ e ∈ tr, Books (entries blocks) e w := by
  classical
  obtain ⟨i, b, hb, rfl⟩ := h.mem_entries.mp hw
  rw [chain_of_run h.serde h.valid h.run] at hb
  obtain ⟨e, he, hrecorded⟩ := List.mem_filterMap.mp hb
  exact ⟨e, he, h.books he (Event.recorded_eq_some.mp hrecorded).2⟩

/-! ## The accounts -/

theorem Produced.account_eq_iff {j : ι} (hb : b ∈ (s.accounts j).chain.toList) :
    b.account = (s.accounts i).publicKeyHex ↔ j = i := by
  rw [((sound_of_run h.serde h.valid h.run j).own b hb).1,
    publicKeyHex_inj h.serde h.valid h.injective h.run]

/-- The entries of an account are those of its chain, each once. -/
theorem Produced.sum_account (g : Entry → ℕ) (i : ι) :
    ∑ e ∈ entries blocks with e.account = (s.accounts i).publicKeyHex, g e =
      ((s.accounts i).chain.toList.map fun b ↦ g b.entry).sum := by
  have hfilter : (entries blocks).filter (fun e ↦ e.account = (s.accounts i).publicKeyHex) =
      ((s.accounts i).chain.toList.map Block.entry).toFinset := by
    ext e
    rw [Finset.mem_filter, h.mem_entries, List.mem_toFinset, List.mem_map]
    constructor
    · rintro ⟨⟨j, b, hb, rfl⟩, haccount⟩
      obtain rfl := (h.account_eq_iff hb).mp haccount
      exact ⟨b, hb, rfl⟩
    · rintro ⟨b, hb, rfl⟩
      exact ⟨⟨i, b, hb, rfl⟩, (h.account_eq_iff hb).mpr rfl⟩
  have hnodup : ((s.accounts i).chain.toList.map Block.entry).Nodup := by
    apply List.Nodup.of_map Entry.nonce
    rw [List.map_map]
    exact (sound_of_run h.serde h.valid h.run i).continuous.nodup_nonce
  rw [hfilter, List.sum_toFinset _ hnodup, List.map_map]
  rfl

/-- **Credits and debits are the cumulative ones.** -/
theorem Produced.credits_debits_eq [DecidableEq ι] (i : ι) :
    credits (entries blocks) (s.accounts i).publicKeyHex = cumulative Event.credit i tr ∧
      debits (entries blocks) (s.accounts i).publicKeyHex = cumulative Event.debit i tr := by
  rw [credits, debits, h.sum_account, h.sum_account, chain_of_run h.serde h.valid h.run]
  constructor
  · refine sum_recorded _ (fun e he _ b hresult ↦ (h.books he hresult).credit)
      fun e _ err hresult ↦ (Event.credit_debit_of_error hresult).1
  · refine sum_recorded _ (fun e he _ b hresult ↦ (h.books he hresult).sent)
      fun e _ err hresult ↦ (Event.credit_debit_of_error hresult).2

/-- Within the range of the counters, the recomputed balance is the account's. -/
theorem Produced.balance_eq [DecidableEq ι]
    (hcredit : cumulative Event.credit i tr < 2 ^ 63)
    (hdebit : cumulative Event.debit i tr < 2 ^ 63) :
    balance (entries blocks) (s.accounts i).publicKeyHex = (s.accounts i).balance.toNat := by
  obtain ⟨hcredits, hdebits⟩ := h.credits_debits_eq i
  have hbalance := balance_of_run h.serde h.valid h.run i
  rw [Settlement.balance, hcredits, hdebits, clampI64]
  simp only [u64Max, i64Max, i64Min]
  omega

theorem Produced.mem_accounts_iff {a : String} :
    a ∈ accounts (entries blocks) ↔
      ∃ i, (s.accounts i).chain.toList ≠ [] ∧ a = (s.accounts i).publicKeyHex := by
  rw [accounts, Finset.mem_image]
  constructor
  · rintro ⟨w, hw, rfl⟩
    obtain ⟨i, b, hb, rfl⟩ := h.mem_entries.mp (Finset.mem_filter.mp hw).1
    exact ⟨i, List.ne_nil_of_mem hb, (h.account_eq_iff hb).mpr rfl⟩
  · rintro ⟨i, hne, rfl⟩
    obtain ⟨b, hb⟩ := List.exists_mem_of_ne_nil _ hne
    obtain ⟨e, -, hbooks⟩ := h.exists_books (h.entry_mem hb)
    exact ⟨b.entry, Finset.mem_filter.mpr ⟨h.entry_mem hb, hbooks.touches⟩,
      (h.account_eq_iff hb).mpr rfl⟩

end Network

/-! ## The call -/

/-- A list collected from entries that give nothing is empty. -/
theorem eq_nil_of_forall_none {β : Type} {l : List β} {W : Finset Entry} {f : Entry → Option β}
    (hl : ∀ x, x ∈ l ↔ ∃ w ∈ W, f w = some x) (hnone : ∀ w ∈ W, f w = none) : l = [] := by
  refine List.eq_nil_iff_forall_not_mem.mpr fun x hx ↦ ?_
  obtain ⟨w, hw, hfw⟩ := (hl x).mp hx
  rw [hnone w hw] at hfw
  simp at hfw

section

variable {ι : Type} [DecidableEq ι] {m : Overflow} {K : Crates} {keys : ι → SigningKey}
  {tr : List (Event ι)} {s : State ι}

/-- **Agreement.** On the blocks of a network whose accounts have each moved less than the counters
hold, a reconciliation finds no conflict, rejects nothing and reports the balance of every account
that has made a block. -/
theorem reconciles_of_run (hserde : Serde K) (hvalid : ∀ i, (keys i).Valid K)
    (hkeys : Function.Injective fun i ↦ (keys i).verifyingKey) (run : (system m K keys).Run tr s)
    (hbound : ∀ i, cumulative Event.credit i tr < 2 ^ 63 ∧ cumulative Event.debit i tr < 2 ^ 63)
    {partitionA partitionB : List Block} (hcovers : Covers s (partitionA ++ partitionB))
    (hcf : Block.CollisionFree K (partitionA ++ partitionB)) (σ : Orders) :
    ∃ report, (reconcilePartitions σ partitionA partitionB).exec = some (.ok report) ∧
      report.conflicts = [] ∧ report.rejectedReceives = [] ∧ report.rejectedGenesis = [] ∧
      ∀ i, (s.accounts i).chain.toList ≠ [] → report.balances.lookup (s.accounts i).publicKeyHex =
        some ((s.accounts i).balance.toNat : ℤ) := by
  have h : Produced K m keys tr s (partitionA ++ partitionB) :=
    ⟨hserde, hvalid, hkeys, run, hcovers, hcf⟩
  have hbalance := fun i ↦ h.balance_eq (hbound i).1 (hbound i).2
  have hwinners := h.winners_eq
  have hsolvent : Solvent (winners (entries (partitionA ++ partitionB))) := by
    -- a chain never owes anything
    intro a ha
    rw [hwinners] at ha ⊢
    obtain ⟨i, -, rfl⟩ := h.mem_accounts_iff.mp ha
    rw [hbalance]
    exact Int.natCast_nonneg _
  obtain ⟨report, hexec, hreport⟩ := exists_settles (sliceable_of_hashed h.hashed) hsolvent σ
  refine ⟨report, hexec, eq_nil_of_forall_none hreport.conflicts fun w hw ↦ ?_,
    eq_nil_of_forall_none hreport.rejectedReceives fun w hw ↦ ?_,
    eq_nil_of_forall_none hreport.rejectedGenesis fun w hw ↦ ?_, fun i hne ↦ ?_⟩
  · rw [hwinners] at hw
    exact h.conflictOf_eq_none hw
  · rw [hwinners] at hw ⊢
    obtain ⟨e, -, hbooks⟩ := h.exists_books hw
    exact hbooks.receive
  · rw [hwinners] at hw
    obtain ⟨e, -, hbooks⟩ := h.exists_books hw
    exact hbooks.genesis
  · rw [hreport.balances, hwinners, if_pos (h.mem_accounts_iff.mpr ⟨i, hne, rfl⟩), hbalance]

end

end Reconciliation

namespace Reference

open Reconciliation

theorem covers_paid {s : State Bool} (run : (system .panics serde keys).Run paid s) :
    Covers s ([openAlice, sendToBob] ++ [openBob, receiveFromAlice]) := by
  intro b
  rw [Bool.exists_bool, chain_of_run serde_serde valid_keys run,
    chain_of_run serde_serde valid_keys run]
  exact List.mem_append

/-- After the payment. -/
theorem reconciles_paid : ∃ s, (system .panics serde keys).Run paid s ∧
    ∃ report, (reconcilePartitions .asListed [openAlice, sendToBob]
        [openBob, receiveFromAlice]).exec = some (.ok report) ∧
      report.conflicts = [] ∧ report.rejectedReceives = [] ∧ report.rejectedGenesis = [] ∧
      ∀ i, (s.accounts i).chain.toList ≠ [] → report.balances.lookup (s.accounts i).publicKeyHex =
        some ((s.accounts i).balance.toNat : ℤ) := by
  obtain ⟨s, run⟩ := run_paid
  exact ⟨s, run, reconciles_of_run serde_serde valid_keys injective_keys run (by decide +kernel)
    (covers_paid run) collisionFree_paid .asListed⟩

end Reference

end Arxia
