import Arxia.Lattice.Receives
import Arxia.Lists.Numbered

/-!
# Histories of the same blocks

Two ledgers that take the same blocks in different orders have different histories. What they have
in common is stated here on the histories alone: the blocks of an account are numbered by their
nonces, so a history is determined by its blocks as far as any query can tell, a block that one
history has and another one lacks can be added to the second as soon as that has the blocks before
it, and two histories without a fork have a common continuation.
-/

namespace Arxia

open Rust Lists

namespace History

variable {K : Crates} {h h' k : List Block} {b : Block}

/-- Of one account and one nonce the two histories have the same block, if each has one. -/
def NoFork (h h' : List Block) : Prop :=
  ∀ b ∈ h, ∀ b' ∈ h', b.account = b'.account → b.nonce = b'.nonce → b = b'

instance : DecidableRel NoFork := fun h h' ↦
  inferInstanceAs (Decidable (∀ b ∈ h, ∀ b' ∈ h', b.account = b'.account → b.nonce = b'.nonce →
    b = b'))

/-- What the second history adds to the first. -/
def missing (h h' : List Block) : List Block := h'.filter fun b ↦ decide (b ∉ h)

theorem mem_missing : b ∈ missing h h' ↔ b ∈ h' ∧ b ∉ h := by
  rw [missing, List.mem_filter, decide_eq_true_iff]

theorem missing_concat_of_mem (hb : b ∈ h) : missing h (h' ++ [b]) = missing h h' := by
  rw [missing, List.filter_append, List.filter_singleton, decide_eq_false (not_not_intro hb)]
  exact List.append_nil _

theorem missing_concat_of_notMem (hb : b ∉ h) :
    missing h (h' ++ [b]) = missing h h' ++ [b] := by
  rw [missing, List.filter_append, List.filter_singleton, decide_eq_true hb]
  rfl

theorem mem_union : b ∈ h ++ missing h h' ↔ b ∈ h ∨ b ∈ h' := by
  rw [List.mem_append, mem_missing]
  by_cases hb : b ∈ h
  · simp [hb]
  · simp [hb]

namespace Valid

/-- The nonces number the blocks of an account. -/
theorem numbered (hv : Valid K h) (account : String) :
    Numbered (fun b : Block ↦ b.nonce.toNat) (chain h account) :=
  fun _ hi ↦ (hv.wellLinked account).nonce_getElem hi

/-- Account and nonce identify a block. -/
theorem noFork_self (hv : Valid K h) : NoFork h h := fun _ hb b' hb' hacc hnonce ↦
  (hv.numbered b'.account).eq_of_number_eq (mem_chain.mpr ⟨hb, hacc⟩)
    (mem_chain.mpr ⟨hb', rfl⟩) (congrArg UInt64.toNat hnonce)

theorem nodup (hv : Valid K h) : h.Nodup :=
  hv.pairwise_account_nonce.imp fun hne heq ↦ hne (congrArg _ heq) (congrArg _ heq)

/-- A chain of a part is a beginning of the chain. -/
theorem chain_isPrefix (hv : Valid K h) (hk : Valid K k) (hsub : ∀ b ∈ k, b ∈ h)
    (account : String) : chain k account <+: chain h account := by
  refine (hk.numbered account).isPrefix_of_subset (hv.numbered account) fun b hb ↦ ?_
  rw [mem_chain] at hb ⊢
  exact ⟨hsub b hb.1, hb.2⟩

/-- A part mints at most what the whole does. -/
theorem minted_le_of_subset (hk : k.Nodup) (hsub : ∀ b ∈ k, b ∈ h) : minted k ≤ minted h := by
  obtain ⟨l, hperm, hlist⟩ := List.subperm_of_subset hk hsub
  rw [minted, minted, ← (hperm.map Block.minted).sum_eq]
  exact (hlist.map Block.minted).sum_le_sum fun _ _ ↦ Nat.zero_le _

/-- A Send is received once. -/
theorem eq_of_receive (hv : Valid K h) {r r' : Block} {x : String} (hr : r ∈ h) (hr' : r' ∈ h)
    (hx : r.blockType = .receive x) (hx' : r'.blockType = .receive x) : r = r' := by
  by_contra hne
  obtain ⟨pre, post, rfl⟩ := List.append_of_mem hr
  obtain ⟨-, hafter, hbefore⟩ := List.pairwise_append.mp hv.pairwise_receive
  rcases List.mem_append.mp hr' with hr' | hr'
  · exact hbefore r' hr' r List.mem_cons_self x hx' hx
  · rcases List.mem_cons.mp hr' with heq | hr'
    · exact hne heq.symm
    · exact (List.pairwise_cons.mp hafter).1 r' hr' x hx hx'

/-- A part that lacks `b` but nothing before it has the chain that `b` extends. -/
theorem chain_of_subset {pre post : List Block} (hv : Valid K (pre ++ b :: post))
    (hk : Valid K k) (hsub : ∀ c ∈ k, c ∈ pre ++ b :: post) (hpre : ∀ c ∈ pre, c ∈ k)
    (hb : b ∉ k) : chain k b.account = chain pre b.account := by
  have hnext : Valid K (pre ++ [b]) := by
    rw [List.append_cons] at hv
    exact hv.of_append
  have hle : chain pre b.account <+: chain k b.account :=
    hk.chain_isPrefix hnext.of_concat.1 hpre _
  -- both are beginnings of the chain in the whole history
  have hbegin : chain (pre ++ [b]) b.account <+: chain (pre ++ b :: post) b.account :=
    hv.chain_isPrefix hnext (fun c hc ↦ by simp at hc ⊢; tauto) _
  rw [chain_concat_self] at hbegin
  rcases List.prefix_or_prefix_of_prefix hbegin (hv.chain_isPrefix hk hsub _) with hpast | hbefore
  · have hmem := hpast.subset (List.mem_append_right _ (List.mem_singleton_self b))
    exact absurd (mem_chain.mp hmem).1 hb
  · rcases List.prefix_concat_iff.mp hbefore with heq | hle'
    · have hmem : b ∈ chain k b.account := heq ▸ List.mem_append_right _ (List.mem_singleton_self b)
      exact absurd (mem_chain.mp hmem).1 hb
    · exact hle'.eq_of_length_le hle.length_le

/-- **Catching up.** A part of a history admits the next block it lacks, as soon as it has all the
blocks before it. -/
theorem admissible_of_subset {pre post : List Block} (hv : Valid K (pre ++ b :: post))
    (hcf : Block.CollisionFree K (pre ++ b :: post)) (hk : Valid K k)
    (hsub : ∀ c ∈ k, c ∈ pre ++ b :: post) (hpre : ∀ c ∈ pre, c ∈ k) (hb : b ∉ k) :
    Admissible K k b := by
  have hadm := hv.admissible
  have hmem : b ∈ pre ++ b :: post := List.mem_append_right _ List.mem_cons_self
  refine ⟨hadm.verified, fun v htype ↦ ?_, fun x htype ↦ ?_, ?_⟩
  · -- the part with the block is still a part
    have hnodup : (k ++ [b]).Nodup := List.concat_eq_append ▸ hk.nodup.concat hb
    have hle := minted_le_of_subset hnodup (h := pre ++ b :: post) fun c hc ↦ by
      rcases List.mem_append.mp hc with hc | hc
      · exact hsub c hc
      · exact List.mem_singleton.mp hc ▸ hmem
    rw [minted_concat, Block.minted_of_open htype] at hle
    exact hle.trans hv.minted_le
  · -- the Send is there, and the block is the only one that receives it
    obtain ⟨info, hsent, hdest, -⟩ := hadm.source x htype
    obtain ⟨s, hs, hhash, hsend⟩ := exists_of_sent hsent
    refine ⟨info, (hk.sent_eq_some (hcf.mono hsub)).mpr ⟨s, hpre s hs, hhash, hsend⟩, hdest, ?_⟩
    rintro ⟨r, hr, hx⟩
    exact hb (hv.eq_of_receive (hsub r hr) hmem hx htype ▸ hr)
  · rw [hv.chain_of_subset hk hsub hpre hb]
    exact hadm.linked

/-! ## Histories without a fork -/

/-- Without a fork a common hash is a common block. -/
theorem eq_of_hash_eq (hv : Valid K h) (hv' : Valid K h')
    (hcf : Block.CollisionFree K (h ++ h')) (hfork : NoFork h h') {b' : Block} (hb : b ∈ h)
    (hb' : b' ∈ h') (hhash : b.hash = b'.hash) : b = b' := by
  obtain ⟨hacc, hnonce⟩ := hcf.account_nonce_eq (List.mem_append_left _ hb)
    (List.mem_append_right _ hb') (hv.verified b hb).hashed (hv'.verified b' hb').hashed hhash
  exact hfork b hb b' hb' hacc hnonce

/-- A chain of the first history is a beginning of that of the second, if the second one has a
block more. -/
theorem chain_isPrefix_of_noFork (hv : Valid K h) (hv' : Valid K (h' ++ [b]))
    (hfork : NoFork h (h' ++ [b])) (hb : b ∉ h) :
    chain h b.account <+: chain h' b.account := by
  have hnext := hv'.numbered b.account
  have hagree : ∀ c ∈ chain h b.account, ∀ d ∈ chain (h' ++ [b]) b.account,
      c.nonce.toNat = d.nonce.toNat → c = d := by
    intro c hc d hd hnonce
    rw [mem_chain] at hc hd
    exact hfork c hc.1 d hd.1 (hc.2.trans hd.2.symm) (UInt64.toNat_inj.mp hnonce)
  rw [chain_concat_self] at hnext hagree
  refine (hv.numbered _).isPrefix_of_agree (hv'.of_concat.1.numbered _)
    (fun c hc d hd ↦ hagree c hc d (List.mem_append_left _ hd)) ?_
  by_contra hlt
  -- the first history has a block with the nonce of `b`
  have hi : (chain h' b.account).length < (chain h b.account).length := by omega
  have hget := hv.numbered b.account _ hi
  have hlast := hnext (chain h' b.account).length (by simp)
  rw [List.getElem_concat_length rfl] at hlast
  have heq := hagree _ (List.getElem_mem hi) b (by simp) (hget.trans hlast.symm)
  exact hb (heq ▸ (mem_chain.mp (List.getElem_mem hi)).1)

/-- **A common continuation.** Two histories without a fork go together, as far as the supply
allows. -/
theorem union (hv : Valid K h) (hv' : Valid K h') (hcf : Block.CollisionFree K (h ++ h'))
    (hfork : NoFork h h') (hcap : minted (h ++ missing h h') ≤ TOTAL_SUPPLY_MICRO_ARX.toNat) :
    Valid K (h ++ missing h h') := by
  induction h' using List.reverseRecOn with
  | nil => rwa [missing, List.filter_nil, List.append_nil]
  | append_singleton h' b ih =>
    have hv₀ := hv'.of_concat.1
    have hcf₀ : Block.CollisionFree K (h ++ h') := hcf.mono fun c hc ↦ by
      simp at hc ⊢
      tauto
    have hfork₀ : NoFork h h' := fun c hc d hd ↦ hfork c hc d (List.mem_append_left _ hd)
    by_cases hb : b ∈ h
    · rw [missing_concat_of_mem hb] at hcap ⊢
      exact ih hv₀ hcf₀ hfork₀ hcap
    rw [missing_concat_of_notMem hb, ← List.append_assoc] at hcap ⊢
    rw [minted_concat] at hcap
    have hk := ih hv₀ hcf₀ hfork₀ (by omega)
    have hadm := hv'.of_concat.2
    have hpre := hv.chain_isPrefix_of_noFork hv' hfork hb
    refine hk.concat ⟨hadm.verified, fun v htype ↦ ?_, fun x htype ↦ ?_, ?_⟩
    · rwa [Block.minted_of_open htype] at hcap
    · obtain ⟨info, hsent, hdest, hfresh⟩ := hadm.source x htype
      obtain ⟨s, hs, hhash, hsend⟩ := exists_of_sent hsent
      have hcfk := hcf₀.mono fun c hc ↦ List.mem_append.mpr (mem_union.mp hc)
      refine ⟨info, (hk.sent_eq_some hcfk).mpr ⟨s, mem_union.mpr (Or.inr hs), hhash, hsend⟩,
        hdest, ?_⟩
      rintro ⟨r, hr, hx⟩
      rcases mem_union.mp hr with hr | hr
      · -- the account of an earlier Receive is the one that the Send names
        obtain ⟨pre, post, hsplit⟩ := List.append_of_mem hr
        obtain ⟨s', hs', hhash', v, hsend'⟩ := hv.exists_send hsplit hx
        have hs'mem : s' ∈ h := hsplit ▸ List.mem_append_left _ hs'
        obtain rfl := hv.eq_of_hash_eq hv₀ hcf₀ hfork₀ hs'mem hs (hhash'.trans hhash.symm)
        have hacc : r.account = b.account :=
          ((BlockType.send.inj (hsend'.symm.trans hsend)).1).trans hdest
        exact hfresh ⟨r, (mem_chain.mp (hpre.subset (mem_chain.mpr ⟨hr, hacc⟩))).1, hx⟩
      · exact hfresh ⟨r, hr, hx⟩
    · have hchain : chain (h ++ missing h h') b.account = chain h' b.account := by
        refine (hk.numbered _).eq_of_mem_iff (hv₀.numbered _) fun c ↦ ?_
        rw [mem_chain, mem_chain, mem_union]
        refine and_congr_left fun hacc ↦ ⟨fun hc ↦ ?_, Or.inr⟩
        rcases hc with hc | hc
        · exact (mem_chain.mp (hpre.subset (mem_chain.mpr ⟨hc, hacc⟩))).1
        · exact hc
      rw [hchain]
      exact hadm.linked

end Valid

end History

end Arxia
