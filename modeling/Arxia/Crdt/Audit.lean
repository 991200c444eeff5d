import Arxia.Crdt.Refinement
import Arxia.Lattice.Gathering
import Arxia.Lattice.Supply

/-!
# Reconciling what a ledger has accepted

A ledger and a reconciliation apply different rules. The ledger checks where a block stands and what
a Receive cites, and never looks at an amount; the reconciliation looks at amounts, drops rivals and
Receives without a source, and ignores the hash chain. On the blocks a ledger has accepted the rules
that both have agree: there are no rivals, and every Receive has its Send. What is left for the
reconciliation to do is what the ledger does not do, to reject the Opens after the first and to find
the accounts that have spent more than they had.

The balances it reports are sums over the ledger's own chains and its own index.
-/

namespace Arxia

open Rust History Settlement Reconciliation

namespace Ledger

/-- What a block brings its account, by the index of the ledger. -/
def income (l : Ledger) (b : Block) : ℕ :=
  match b.blockType with
  | .open initialBalance => if b.nonce = 1 then initialBalance.toNat else 0
  | .receive sourceHash => (l.sendIndex.lookup sourceHash).elim 0 fun info ↦ info.amount.toNat
  | _ => 0

theorem income_of_open {l : Ledger} {b : Block} {v : UInt64} (h : b.blockType = .open v) :
    l.income b = if b.nonce = 1 then v.toNat else 0 := by rw [income, h]

theorem income_of_receive {l : Ledger} {b : Block} {x : String} (h : b.blockType = .receive x) :
    l.income b = (l.sendIndex.lookup x).elim 0 fun info ↦ info.amount.toNat := by rw [income, h]

theorem income_of_send {l : Ledger} {b : Block} {d : String} {v : UInt64}
    (h : b.blockType = .send d v) : l.income b = 0 := by rw [income, h]

theorem income_of_revoke {l : Ledger} {b : Block} {x : String} (h : b.blockType = .revoke x) :
    l.income b = 0 := by rw [income, h]

/-- What an account has, as far as the counters of a reconciliation can tell. -/
def net (l : Ledger) (a : String) : ℤ :=
  clampI64 ((min ((l.blocks a).map l.income).sum u64Max : ℕ) -
    (min ((l.blocks a).map Block.sentAmount).sum u64Max : ℕ))

/-- The rejection of an Open that is not at nonce 1. -/
def lateOpen (b : Block) : RejectedGenesis where
  account := b.account
  nonce := b.nonce
  blockHash := b.hash
  reason := "open_at_non_genesis_nonce"

/-- The outcomes of a reconciliation that are in line with the ledger. -/
inductive Audits (l : Ledger) : Option (Except ArxiaError ReconciliationReport) → Prop
  /-- An account that has overspent is reported. -/
  | overspent (a : String) (hneg : l.net a < 0) :
      Audits l (some (.error (.negativeBalance a (l.net a))))
  /-- Without one the balances are. -/
  | balanced (report : ReconciliationReport) (hsolvent : ∀ a, 0 ≤ l.net a)
      (hconflicts : report.conflicts = []) (hreceives : report.rejectedReceives = [])
      (hgenesis : ∀ x, x ∈ report.rejectedGenesis ↔
        ∃ a, ∃ b ∈ l.blocks a, b.blockType.isOpen = true ∧ b.nonce ≠ 1 ∧ lateOpen b = x)
      (hbalances : ∀ a, report.balances.lookup a =
        if l.blocks a = [] then none else some (l.net a)) :
      Audits l (some (.ok report))

/-! ## Entries of a history -/

/-- What the results of this section share: a reachable ledger, its history, and a list with the
same blocks. -/
structure Audited (K : Crates) (l : Ledger) (h blocks : List Block) : Prop where
  valid : Valid K h
  collisionFree : Block.CollisionFree K h
  represents : l.Represents h
  covers : ∀ b, b ∈ blocks ↔ b ∈ h

variable {K : Crates} {l : Ledger} {h blocks : List Block} {b : Block} {e : Entry}

section Audited

variable (ha : Audited K l h blocks)
include ha

theorem Audited.eq_of_hash_eq {b' : Block} (hb : b ∈ h) (hb' : b' ∈ h) (hhash : b.hash = b'.hash) :
    b = b' :=
  ha.valid.eq_of_hash_eq ha.valid (ha.collisionFree.mono fun c hc ↦ by simpa using hc)
    ha.valid.noFork_self hb hb' hhash

/-- The entries are those of the accepted blocks. -/
theorem Audited.mem_entries : e ∈ entries blocks ↔ ∃ b ∈ h, b.entry = e := by
  rw [Reconciliation.mem_entries, Option.map_eq_some_iff]
  constructor
  · rintro ⟨b, hfind, rfl⟩
    exact ⟨b, (ha.covers b).mp (List.mem_of_find?_eq_some hfind), rfl⟩
  · rintro ⟨b, hb, rfl⟩
    have hsome : (blocks.find? fun c ↦ c.hash = b.hash).isSome :=
      List.find?_isSome.mpr ⟨b, (ha.covers b).mpr hb, decide_eq_true rfl⟩
    obtain ⟨c, hfind⟩ := Option.isSome_iff_exists.mp hsome
    have hhash : c.hash = b.hash := by simpa using List.find?_some hfind
    refine ⟨c, hfind, ?_⟩
    rw [ha.eq_of_hash_eq ((ha.covers c).mp (List.mem_of_find?_eq_some hfind)) hb hhash]

theorem Audited.entry_mem (hb : b ∈ h) : b.entry ∈ entries blocks := ha.mem_entries.mpr ⟨b, hb, rfl⟩

/-- **No rivals.** -/
theorem Audited.eq_of_key_eq {c : Entry} (he : e ∈ entries blocks) (hc : c ∈ entries blocks)
    (hkey : c.key = e.key) : c = e := by
  obtain ⟨b, hb, rfl⟩ := ha.mem_entries.mp he
  obtain ⟨d, hd, rfl⟩ := ha.mem_entries.mp hc
  obtain ⟨haccount, hnonce⟩ := Prod.mk.inj hkey
  rw [ha.valid.noFork_self d hd b hb haccount hnonce]

theorem Audited.winners_eq : winners (entries blocks) = entries blocks :=
  winners_eq_self fun _ he _ hc hkey ↦ ha.eq_of_key_eq he hc hkey

theorem Audited.conflictOf_eq_none (he : e ∈ entries blocks) :
    conflictOf (entries blocks) e = none := by
  apply if_pos
  have hgroup : (entries blocks).filter (fun c ↦ c.key = e.key) = {e} := by
    ext c
    rw [Finset.mem_filter, Finset.mem_singleton]
    constructor
    · exact fun ⟨hc, hkey⟩ ↦ ha.eq_of_key_eq he hc hkey
    · rintro rfl
      exact ⟨he, rfl⟩
  rw [losers, hgroup, Finset.image_singleton, Finset.erase_singleton]
  exact Finset.sort_empty _

/-! ## What a block settles -/

/-- A Receive credits one entry, that of the Send in the index. -/
theorem Audited.credits_receive {x : String} (hb : b ∈ h) (htype : b.blockType = .receive x) :
    ∃ s ∈ h, (∀ c ∈ entries blocks, b.entry.Credits c ↔ c = s.entry) ∧
      ∃ v : UInt64, l.sendIndex.lookup x = some ⟨b.account, v⟩ ∧ s.entry.sent = v.toNat := by
  obtain ⟨pre, post, hsplit⟩ := List.append_of_mem hb
  obtain ⟨s, hs, rfl, v, hsend⟩ := ha.valid.exists_send hsplit htype
  have hmem : s ∈ h := hsplit ▸ List.mem_append_left _ hs
  refine ⟨s, hmem, fun c hc ↦ ⟨fun hcredits ↦ ?_, ?_⟩, v, ?_, ?_⟩
  · have heq : s.hash = c.hash := BlockType.receive.inj (htype.symm.trans hcredits.1)
    exact injOn_hash_entries blocks hc (ha.entry_mem hmem) heq.symm
  · rintro rfl
    exact ⟨htype, Entry.destination_eq_some.mpr ⟨v, hsend⟩⟩
  · rw [ha.represents.sendIndex, ha.valid.sent_eq_some ha.collisionFree]
    exact ⟨s, hmem, rfl, hsend⟩
  · rw [Entry.sent, Block.blockType_entry, hsend]

/-- **The credit of a block is its income**, and its debit the amount it sends. -/
theorem Audited.credit_eq (hb : b ∈ h) :
    credit (entries blocks) b.entry = l.income b ∧ b.entry.sent = b.sentAmount := by
  cases htype : b.blockType with
  | «open» v =>
    have hkind : b.entry.blockType = .open v := htype
    rw [income_of_open htype, Entry.sent_of_not_isSend (by rw [hkind]; rfl),
      Block.sentAmount_of_not_send (by rw [htype]; rfl)]
    refine ⟨?_, rfl⟩
    by_cases hnonce : b.nonce = 1
    · rw [if_pos hnonce]
      exact credit_of_open hkind hnonce
    · rw [if_neg hnonce]
      refine (credit_sent_of_not_touches ?_).1
      rw [touches_open hkind]
      exact hnonce
  | send d v =>
    have hkind : b.entry.blockType = .send d v := htype
    rw [credit_of_send hkind, income_of_send htype, Entry.sent, hkind,
      Block.sentAmount_of_send htype]
    exact ⟨rfl, rfl⟩
  | receive x =>
    have hkind : b.entry.blockType = .receive x := htype
    obtain ⟨s, hs, hiff, v, hlookup, hsent⟩ := ha.credits_receive hb htype
    rw [credit_of_receive hkind hiff (ha.entry_mem hs), income_of_receive htype, hlookup, hsent,
      Entry.sent_of_not_isSend (by rw [hkind]; rfl),
      Block.sentAmount_of_not_send (by rw [htype]; rfl)]
    exact ⟨rfl, rfl⟩
  | revoke x =>
    have hkind : b.entry.blockType = .revoke x := htype
    obtain ⟨hcredit, hsent⟩ :=
      credit_sent_of_not_touches (not_touches_revoke (W := entries blocks) hkind)
    rw [hcredit, hsent, income_of_revoke htype, Block.sentAmount_of_not_send (by rw [htype]; rfl)]
    exact ⟨rfl, rfl⟩

/-- No Receive is rejected. -/
theorem Audited.rejectReceive_eq_none (he : e ∈ entries blocks) :
    rejectReceive (entries blocks) e = none := by
  obtain ⟨b, hb, rfl⟩ := ha.mem_entries.mp he
  rw [rejectReceive]
  split
  · rename_i x htype
    obtain ⟨s, hs, hiff, -⟩ := ha.credits_receive hb htype
    exact if_pos ⟨_, ha.entry_mem hs, (hiff _ (ha.entry_mem hs)).mpr rfl⟩
  · rfl

/-! ## The accounts -/

/-- The accounts that get a balance are those that have blocks. -/
theorem Audited.mem_accounts_iff {a : String} :
    a ∈ accounts (entries blocks) ↔ l.blocks a ≠ [] := by
  rw [ha.represents.blocks, accounts, Finset.mem_image]
  constructor
  · rintro ⟨e, he, rfl⟩
    obtain ⟨b, hb, rfl⟩ := ha.mem_entries.mp (Finset.mem_filter.mp he).1
    exact List.ne_nil_of_mem (mem_chain.mpr ⟨hb, rfl⟩)
  · intro hne
    obtain ⟨first, rest, hchain⟩ := List.exists_cons_of_ne_nil hne
    have hlinked := ha.valid.wellLinked a
    obtain ⟨hfirst, hacc⟩ := mem_chain.mp (hchain ▸ List.mem_cons_self : first ∈ chain h a)
    rw [hchain, WellLinked] at hlinked
    obtain ⟨v, htype⟩ := BlockType.isOpen_iff.mp hlinked.1.isOpen
    have hkind : first.entry.blockType = .open v := htype
    exact ⟨first.entry, Finset.mem_filter.mpr ⟨ha.entry_mem hfirst,
      (touches_open hkind).mpr hlinked.1.nonce⟩, hacc⟩

/-- The entries of an account are those of its chain, each once. -/
theorem Audited.sum_account (g : Entry → ℕ) (a : String) :
    ∑ e ∈ entries blocks with e.account = a, g e = ((l.blocks a).map fun b ↦ g b.entry).sum := by
  rw [ha.represents.blocks]
  have hfilter : (entries blocks).filter (fun e ↦ e.account = a) =
      ((chain h a).map Block.entry).toFinset := by
    ext e
    rw [Finset.mem_filter, ha.mem_entries, List.mem_toFinset, List.mem_map]
    constructor
    · rintro ⟨⟨b, hb, rfl⟩, haccount⟩
      exact ⟨b, mem_chain.mpr ⟨hb, haccount⟩, rfl⟩
    · rintro ⟨b, hb, rfl⟩
      exact ⟨⟨b, (mem_chain.mp hb).1, rfl⟩, (mem_chain.mp hb).2⟩
  have hnodup : ((chain h a).map Block.entry).Nodup := by
    apply List.Nodup.of_map Entry.nonce
    rw [List.map_map]
    exact (wellLinked_iff.mp (ha.valid.wellLinked a)).1.nodup_nonce
  rw [hfilter, List.sum_toFinset _ hnodup, List.map_map]
  rfl

/-- **The balance of an account is its net worth.** -/
theorem Audited.balance_eq (a : String) : balance (entries blocks) a = l.net a := by
  have hcredits : credits (entries blocks) a = ((l.blocks a).map l.income).sum := by
    rw [credits, ha.sum_account]
    refine congrArg List.sum (List.map_congr_left fun b hb ↦ (ha.credit_eq ?_).1)
    exact (mem_chain.mp (ha.represents.blocks a ▸ hb)).1
  have hdebits : debits (entries blocks) a = ((l.blocks a).map Block.sentAmount).sum := by
    rw [debits, ha.sum_account]
    refine congrArg List.sum (List.map_congr_left fun b hb ↦ (ha.credit_eq ?_).2)
    exact (mem_chain.mp (ha.represents.blocks a ▸ hb)).1
  rw [balance, hcredits, hdebits, net]

theorem Audited.mem_rejectedGenesis {x : RejectedGenesis} :
    (∃ e ∈ entries blocks, rejectGenesis e = some x) ↔
      ∃ a, ∃ b ∈ l.blocks a, b.blockType.isOpen = true ∧ b.nonce ≠ 1 ∧ lateOpen b = x := by
  constructor
  · rintro ⟨e, he, hreject⟩
    obtain ⟨b, hb, rfl⟩ := ha.mem_entries.mp he
    rw [rejectGenesis] at hreject
    split at hreject
    · rename_i hlate
      refine ⟨b.account, b, ?_, hlate.1, hlate.2, Option.some_inj.mp hreject⟩
      rw [ha.represents.blocks]
      exact mem_chain.mpr ⟨hb, rfl⟩
    · cases hreject
  · rintro ⟨a, b, hb, hopen, hnonce, rfl⟩
    rw [ha.represents.blocks] at hb
    exact ⟨b.entry, ha.entry_mem (mem_chain.mp hb).1, if_pos ⟨hopen, hnonce⟩⟩

end Audited

/-! ## The call -/

/-- An account without blocks has nothing. -/
theorem net_of_nil {a : String} (hnil : l.blocks a = []) : l.net a = 0 := by
  rw [net, hnil]
  rfl

/-- **Audit.** Reconciling the blocks a ledger has accepted, however they are split, ordered and
repeated, finds no conflict and no Receive to reject. It rejects the Opens after the first, and it
reports what every account has by the ledger's own index, or an account that has overspent. -/
theorem audits_of_run {m : Overflow} {attempts : List Attempt}
    (run : (system m K).Run attempts l) (hcf : Block.CollisionFree K (accepted attempts))
    {partitionA partitionB : List Block}
    (hcovers : ∀ b, b ∈ partitionA ++ partitionB ↔ b ∈ accepted attempts) (σ : Orders) :
    l.Audits (reconcilePartitions σ partitionA partitionB).exec := by
  obtain ⟨hv, hrep⟩ := run_represents run
  have ha : Audited K l (accepted attempts) (partitionA ++ partitionB) := ⟨hv, hcf, hrep, hcovers⟩
  have hslice : Sliceable (winners (entries (partitionA ++ partitionB))) :=
    sliceable_of_hashed fun b hb ↦ (hv.verified b ((hcovers b).mp hb)).hashed
  have houtcome := outcome_reconcilePartitions σ partitionA partitionB
  generalize (reconcilePartitions σ partitionA partitionB).exec = o at houtcome
  have hwinners := ha.winners_eq
  rcases houtcome with hpanic | ⟨-, a, -, hneg⟩ | ⟨-, hsolvent, report, hreport⟩
  · exact absurd hslice hpanic
  · rw [hwinners, ha.balance_eq] at hneg ⊢
    exact .overspent a hneg
  · rw [hwinners] at hsolvent
    refine .balanced report (fun a ↦ ?_) ?_ ?_ (fun x ↦ ?_) fun a ↦ ?_
    · by_cases hnil : l.blocks a = []
      · rw [net_of_nil hnil]
      · rw [← ha.balance_eq]
        exact hsolvent a (ha.mem_accounts_iff.mpr hnil)
    · refine List.eq_nil_iff_forall_not_mem.mpr fun x hx ↦ ?_
      obtain ⟨w, hw, hconflict⟩ := (hreport.conflicts x).mp hx
      rw [ha.conflictOf_eq_none (hwinners ▸ hw)] at hconflict
      cases hconflict
    · refine List.eq_nil_iff_forall_not_mem.mpr fun x hx ↦ ?_
      obtain ⟨w, hw, hreject⟩ := (hreport.rejectedReceives x).mp hx
      rw [hwinners] at hw hreject
      rw [ha.rejectReceive_eq_none hw] at hreject
      cases hreject
    · rw [hreport.rejectedGenesis, hwinners]
      exact ha.mem_rejectedGenesis
    · rw [hreport.balances, hwinners, ha.balance_eq]
      by_cases hnil : l.blocks a = []
      · rw [if_pos hnil, if_neg fun hmem ↦ ha.mem_accounts_iff.mp hmem hnil]
      · rw [if_neg hnil, if_pos (ha.mem_accounts_iff.mpr hnil)]

/-- After the transfer, with some blocks on both sides. -/
theorem audits_transfer : ∃ l, (system .panics Reference.crates).Run
    (Reference.transfer.map fun b ↦ (b, .ok ())) l ∧ l.Audits
      (reconcilePartitions .asListed Reference.transfer [Reference.openBob]).exec := by
  obtain ⟨l, run⟩ := Reference.run_transfer
  have haccepted := accepted_map_ok Reference.transfer
  refine ⟨l, run, audits_of_run run (by rw [haccepted]; exact Reference.collisionFree_transfer)
    (fun b ↦ ?_) .asListed⟩
  rw [haccepted, List.mem_append, or_iff_left_of_imp]
  intro hb
  rw [List.mem_singleton.mp hb]
  exact List.mem_cons_of_mem _ List.mem_cons_self

end Ledger

end Arxia
