import Arxia.Lattice.Receives

/-!
# Supply conservation

The ledger bounds what is minted and never lets a Send be received twice. Whether money is conserved
also depends on the `balance` fields, which the blocks carry and nobody checks: `verify_block` signs
off on any balance its signer wrote, and `add_block` does not look at it.

`BalanceFollows` is the missing check, on one block and the state it meets. As long as every block
that is admitted passes it, the balances and the Sends in flight add up to the supply.
-/

namespace Arxia

open Rust History

/-! ## Balances and Sends in flight -/

/-- The balance of a chain, as its last block states it. -/
def lastBalance (c : List Block) : ℕ := c.getLast?.elim 0 fun b ↦ b.balance.toNat

@[simp] theorem lastBalance_nil : lastBalance [] = 0 := rfl

@[simp] theorem lastBalance_concat (c : List Block) (b : Block) :
    lastBalance (c ++ [b]) = b.balance.toNat := by
  rw [lastBalance, List.getLast?_concat, Option.elim_some]

/-- The amount a Send sends. -/
def Block.sentAmount (b : Block) : ℕ := b.sendInfo.elim 0 fun info ↦ info.amount.toNat

theorem Block.sentAmount_of_send {b : Block} {d : String} {v : UInt64}
    (h : b.blockType = .send d v) : b.sentAmount = v.toNat := by
  rw [sentAmount, sendInfo, h, Option.elim_some]

theorem Block.sentAmount_of_not_send {b : Block} (h : b.blockType.isSend = false) :
    b.sentAmount = 0 := by
  rw [sentAmount, sendInfo]
  split
  · rename_i d v htype
    rw [htype] at h
    cases h
  · rfl

namespace History

instance (h : List Block) (x : String) : Decidable (Consumed h x) :=
  inferInstanceAs (Decidable (∃ r ∈ h, r.blockType = .receive x))

/-- The amounts of the Sends no Receive has cited. -/
def inFlight (h : List Block) : ℕ :=
  (h.map fun s ↦ if Consumed h s.hash then 0 else s.sentAmount).sum

/-- Only a Receive takes Sends out of flight. -/
theorem inFlight_concat_of_not_receive {h : List Block} {b : Block}
    (hb : b.blockType.isReceive = false) (hnew : ¬ Consumed h b.hash) :
    inFlight (h ++ [b]) = inFlight h + b.sentAmount := by
  have hconsumed : ∀ x, Consumed (h ++ [b]) x ↔ Consumed h x := by
    intro x
    rw [consumed_concat, or_iff_right]
    intro hx
    rw [hx] at hb
    cases hb
  rw [inFlight, List.map_append, List.sum_append, List.map_singleton, List.sum_singleton, inFlight]
  simp only [hconsumed, if_neg hnew]

/-- A Receive takes the Send it cites out of flight. -/
theorem inFlight_concat_of_receive {h : List Block} {b s : Block} {x : String}
    (hb : b.blockType = .receive x) (hs : s ∈ h) (hx : s.hash = x) (hfresh : ¬ Consumed h x)
    (hnodup : (h.map Block.hash).Nodup) : inFlight h = inFlight (h ++ [b]) + s.sentAmount := by
  have hzero : b.sentAmount = 0 := Block.sentAmount_of_not_send (by rw [hb]; rfl)
  -- the blocks other than `s` have other hashes, so nothing changes for them
  have hother : ∀ b' ∈ h.erase s, (if Consumed (h ++ [b]) b'.hash then 0 else b'.sentAmount) =
      if Consumed h b'.hash then 0 else b'.sentAmount := by
    intro b' hb'
    obtain ⟨hne, hmem⟩ := (hnodup.of_map Block.hash).mem_erase_iff.mp hb'
    have hhash : b'.hash ≠ x := fun heq ↦
      hne (List.inj_on_of_nodup_map hnodup hmem hs (heq.trans hx.symm))
    have hcongr : Consumed (h ++ [b]) b'.hash ↔ Consumed h b'.hash := by
      rw [consumed_concat, hb, or_iff_right]
      intro heq
      exact hhash (BlockType.receive.inj heq).symm
    simp only [hcongr]
  have hgone : Consumed (h ++ [b]) s.hash := consumed_concat.mpr (Or.inl (hx ▸ hb))
  rw [inFlight, inFlight, List.map_append, List.sum_append, List.map_singleton, List.sum_singleton,
    hzero, ← List.sum_map_erase _ hs, ← List.sum_map_erase _ hs, List.map_congr_left hother,
    if_pos hgone, hx, if_neg hfresh, ite_self]
  omega

end History

/-! ## Conservation -/

namespace Ledger

/-- The balances and the Sends in flight make up the supply, which is under the ceiling. -/
def Conserved (l : Ledger) (h : List Block) : Prop :=
  l.sumChains lastBalance + inFlight h = l.totalSupply.toNat ∧
    l.totalSupply.toNat ≤ TOTAL_SUPPLY_MICRO_ARX.toNat

/-- A block of this type takes an account from `balance` to `after`. -/
def Follows (balance : ℕ) (sent : String → Option SendInfo) (after : ℕ) : BlockType → Prop
  | .open initialBalance => after = balance + initialBalance.toNat
  | .send _ amount => after + amount.toNat = balance
  | .receive sourceHash =>
    after = balance + (sent sourceHash).elim 0 fun info ↦ info.amount.toNat
  | .revoke _ => after = balance

instance (balance : ℕ) (sent : String → Option SendInfo) (after : ℕ) :
    DecidablePred (Follows balance sent after)
  | .open _ => inferInstanceAs (Decidable (_ = _))
  | .send _ _ => inferInstanceAs (Decidable (_ = _))
  | .receive _ => inferInstanceAs (Decidable (_ = _))
  | .revoke _ => inferInstanceAs (Decidable (_ = _))

/-- The balance the block states is the one its account had, moved by what the block does. -/
def BalanceFollows (l : Ledger) (b : Block) : Prop :=
  Follows (lastBalance (l.blocks b.account)) l.sendIndex.lookup b.balance.toNat b.blockType

/-- **One block.** Each block type moves balance, Sends in flight and supply in step. -/
theorem BalanceFollows.step {K : Crates} {l : Ledger} {h : List Block} {b : Block}
    (hfollows : BalanceFollows l b) (hv : Valid K (h ++ [b])) (hrep : l.Represents h)
    (hcf : Block.CollisionFree K (h ++ [b])) :
    b.balance.toNat + inFlight (h ++ [b]) + minted h =
      lastBalance (l.blocks b.account) + inFlight h + minted (h ++ [b]) := by
  obtain ⟨hold, hadm⟩ := hv.of_concat
  have hdistinct := hv.pairwise_hash hcf
  -- whatever is consumed was sent before, so the hash of the new block is not
  have hnew : ¬ Consumed h b.hash := by
    rintro ⟨r, hr, hx⟩
    obtain ⟨pre, post, hsplit⟩ := List.append_of_mem hr
    obtain ⟨s, hs, hhash, -⟩ := hold.exists_send hsplit hx
    have hmem : s ∈ h := hsplit ▸ List.mem_append_left _ hs
    exact (List.pairwise_append.mp hdistinct).2.2 s hmem b (List.mem_singleton_self b) hhash
  rw [minted_concat]
  cases htype : b.blockType with
  | «open» v =>
    simp only [BalanceFollows, Follows, htype] at hfollows
    rw [inFlight_concat_of_not_receive (by rw [htype]; rfl) hnew, hfollows,
      Block.sentAmount_of_not_send (by rw [htype]; rfl), Block.minted_of_open htype]
    omega
  | send d v =>
    simp only [BalanceFollows, Follows, htype] at hfollows
    rw [inFlight_concat_of_not_receive (by rw [htype]; rfl) hnew, ← hfollows,
      Block.sentAmount_of_send htype, Block.minted_of_not_open (by rw [htype]; rfl)]
    omega
  | receive x =>
    obtain ⟨info, hinfo, -, hfresh⟩ := hadm.source x htype
    obtain ⟨s, hs, hhash, hsend⟩ := exists_of_sent hinfo
    simp only [BalanceFollows, Follows, htype, hrep.sendIndex, hinfo, Option.elim_some] at hfollows
    have hnodup : (h.map Block.hash).Nodup :=
      List.pairwise_map.mpr (List.pairwise_append.mp hdistinct).1
    rw [inFlight_concat_of_receive htype hs hhash hfresh hnodup, hfollows,
      Block.sentAmount_of_send hsend, Block.minted_of_not_open (by rw [htype]; rfl)]
    omega
  | revoke x =>
    simp only [BalanceFollows, Follows, htype] at hfollows
    rw [inFlight_concat_of_not_receive (by rw [htype]; rfl) hnew, hfollows,
      Block.sentAmount_of_not_send (by rw [htype]; rfl),
      Block.minted_of_not_open (by rw [htype]; rfl)]
    omega

/-- **Conservation**, when every block that is admitted states the balance that follows. -/
theorem conserved_of_run {m : Overflow} {K : Crates} {attempts : List Attempt} {l : Ledger}
    (run : ((system m K).restrict fun l c ↦ Admits m K l c.1 → BalanceFollows l c.1).Run
      attempts l) (hcf : Block.CollisionFree K (accepted attempts)) :
    l.Conserved (accepted attempts) := by
  obtain ⟨hv, hrep⟩ := run_represents run.of_restrict
  have hsum : Block.CollisionFree K (accepted attempts) →
      l.sumChains lastBalance + inFlight (accepted attempts) = minted (accepted attempts) := by
    refine restrict_invariant (C := BalanceFollows) (J := fun h l ↦ Block.CollisionFree K h →
      l.sumChains lastBalance + inFlight h = minted h) run ?_ ?_ ?_
    · exact fun _ ↦ rfl
    · intro h l a ih hcf
      rw [sumChains_touch rfl, ih hcf]
    · intro h b l l' hv hrep hext hfollows ih hcf
      have hbefore := ih (hcf.mono fun b hb ↦ List.mem_append_left _ hb)
      have hchains := hext.sumChains (g := lastBalance) rfl
      rw [lastBalance_concat] at hchains
      have hblock := hfollows.step hv hrep hcf
      omega
  exact ⟨by rw [hrep.totalSupply, hsum hcf], by rw [hrep.totalSupply]; exact hv.minted_le⟩

theorem conserved_transfer :
    ∃ l, (system .panics Reference.crates).Run
      (Reference.transfer.map fun b ↦ (b, .ok ())) l ∧ l.Conserved Reference.transfer := by
  obtain ⟨l, run⟩ := Reference.run_transfer
  have hfollows : ∀ i (hi : i < Reference.transfer.length), Follows
      (lastBalance (chain (Reference.transfer.take i) Reference.transfer[i].account))
      (sent (Reference.transfer.take i)) Reference.transfer[i].balance.toNat
      Reference.transfer[i].blockType := by decide +kernel
  have hrun := restrict_of_represents (C := BalanceFollows) run fun i hi s hrep ↦ by
    have hsent : s.sendIndex.lookup = sent (Reference.transfer.take i) := funext hrep.sendIndex
    rw [BalanceFollows, hrep.blocks, hsent]
    exact hfollows i hi
  have hconserved := conserved_of_run hrun (by
    rw [accepted_map_ok]
    exact Reference.collisionFree_transfer)
  rw [accepted_map_ok] at hconserved
  exact ⟨l, run, hconserved⟩

/-- An Open of nothing states a balance of 1000. -/
theorem not_conserved :
    ¬ ∀ (attempts : List Attempt) (l : Ledger),
      (system .panics Reference.crates).Run attempts l →
      Block.CollisionFree Reference.crates (accepted attempts) →
      l.Conserved (accepted attempts) := by
  intro h
  let b := Reference.sealBlock Reference.alice "" (.open 0) 1000 1 1
  have hfeed : (feed .panics Reference.crates new [b]).map
      (fun r ↦ (r.1, r.2.sumChains lastBalance, r.2.totalSupply)) = some ([.ok ()], 1000, 0) := by
    decide +kernel
  obtain ⟨⟨rs, l⟩, hfeed, hresult⟩ := Option.map_eq_some_iff.mp hfeed
  obtain ⟨rfl, hsum, hsupply⟩ : rs = [.ok ()] ∧ l.sumChains lastBalance = 1000 ∧
    l.totalSupply = 0 := by simpa using hresult
  have hcf : Block.CollisionFree Reference.crates [b] := by
    refine Block.collisionFree_of_nodup (fun b' hb' ↦ ?_) (List.nodup_singleton _)
    rw [List.mem_singleton.mp hb']
    exact (Reference.verified_sealBlock Reference.decode_alice).hashed
  have hconserved := (h _ l (run_append_feed (.start rfl) hfeed) hcf).1
  rw [hsum, hsupply, UInt64.toNat_zero] at hconserved
  omega

end Ledger

end Arxia
