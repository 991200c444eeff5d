import Arxia.Lattice.Ledger

/-!
# What a ledger is for: the history of its accepted blocks

The purpose of the ledger, stated without its maps: a history is a list of blocks in the order of
acceptance, and a block may be added when its own chain stays well linked, an Open leaves the
supply under the ceiling, and a Receive cites a Send to its account that no Receive cites yet. The
chains, the two indices and the supply are functions of that list.

`run_represents` is the refinement: whatever calls are made, in whatever order, with whatever
outcomes, the ledger is at every moment the one its accepted history describes, and that history is
valid. Results about reachable ledgers are then proved about valid histories, by induction on the
list and with no map in sight.
-/

namespace Arxia

open Rust

/-! ## Histories -/

namespace History

/-- The blocks of one account, in order. -/
def chain (h : List Block) (account : String) : List Block :=
  h.filter fun b ↦ decide (b.account = account)

/-- The Send with this hash. A later one would replace an earlier one. -/
def sent (h : List Block) (x : String) : Option SendInfo :=
  h.reverse.findSome? fun b ↦ if x = b.hash then b.sendInfo else none

/-- Some block receives the Send with this hash. -/
def Consumed (h : List Block) (x : String) : Prop := ∃ r ∈ h, r.blockType = .receive x

/-- The supply minted by the Opens. -/
def minted (h : List Block) : ℕ := (h.map Block.minted).sum

@[simp] theorem chain_nil (account : String) : chain [] account = [] := rfl

@[simp] theorem sent_nil (x : String) : sent [] x = none := rfl

@[simp] theorem minted_nil : minted [] = 0 := rfl

theorem chain_concat (h : List Block) (b : Block) (account : String) :
    chain (h ++ [b]) account =
      if b.account = account then chain h account ++ [b] else chain h account := by
  rw [chain, List.filter_append, ← chain]
  by_cases hb : b.account = account
  · rw [if_pos hb, List.filter_singleton, decide_eq_true hb]
    rfl
  · rw [if_neg hb, List.filter_singleton, decide_eq_false hb]
    exact List.append_nil _

theorem chain_concat_self (h : List Block) (b : Block) :
    chain (h ++ [b]) b.account = chain h b.account ++ [b] := by
  rw [chain_concat, if_pos rfl]

theorem chain_concat_of_ne {b : Block} {account : String} (h : List Block)
    (hne : b.account ≠ account) : chain (h ++ [b]) account = chain h account := by
  rw [chain_concat, if_neg hne]

theorem mem_chain {h : List Block} {b : Block} {account : String} :
    b ∈ chain h account ↔ b ∈ h ∧ b.account = account := by
  rw [chain, List.mem_filter, decide_eq_true_iff]

theorem sent_concat (h : List Block) (b : Block) (x : String) :
    sent (h ++ [b]) x = (if x = b.hash then b.sendInfo else none).or (sent h x) := by
  rw [sent, List.reverse_append, List.reverse_singleton, List.singleton_append,
    List.findSome?_cons, sent]
  cases (if x = b.hash then b.sendInfo else none) <;> rfl

theorem consumed_concat {h : List Block} {b : Block} {x : String} :
    Consumed (h ++ [b]) x ↔ b.blockType = .receive x ∨ Consumed h x := by
  rw [Consumed, Consumed]
  constructor
  · rintro ⟨r, hr, hx⟩
    rcases List.mem_append.mp hr with hr | hr
    · exact Or.inr ⟨r, hr, hx⟩
    · exact Or.inl (List.mem_singleton.mp hr ▸ hx)
  · rintro (hx | ⟨r, hr, hx⟩)
    · exact ⟨b, List.mem_append_right h (List.mem_singleton_self b), hx⟩
    · exact ⟨r, List.mem_append_left [b] hr, hx⟩

theorem minted_concat (h : List Block) (b : Block) : minted (h ++ [b]) = minted h + b.minted := by
  rw [minted, List.map_append, List.sum_append, List.map_singleton, List.sum_singleton, minted]

/-- A Send in the index is in the history. -/
theorem exists_of_sent {h : List Block} {x : String} {info : SendInfo} (hs : sent h x = some info) :
    ∃ s ∈ h, s.hash = x ∧ s.blockType = .send info.destination info.amount := by
  obtain ⟨s, hmem, hinfo⟩ := List.exists_of_findSome?_eq_some hs
  split at hinfo
  · rename_i hx
    exact ⟨s, List.mem_reverse.mp hmem, hx.symm, Block.sendInfo_eq_some.mp hinfo⟩
  · simp at hinfo

/-! ## Valid histories -/

/-- The block may be added to the history. -/
structure Admissible (K : Crates) (h : List Block) (b : Block) : Prop where
  verified : Verified K b
  supply : ∀ v, b.blockType = .open v → minted h + v.toNat ≤ TOTAL_SUPPLY_MICRO_ARX.toNat
  source : ∀ x, b.blockType = .receive x →
    ∃ info, sent h x = some info ∧ info.destination = b.account ∧ ¬ Consumed h x
  linked : WellLinked (chain h b.account ++ [b])

theorem Admissible.of_not_receive {K : Crates} {h : List Block} {b : Block}
    (hver : Verified K b) (hcap : minted h + b.minted ≤ TOTAL_SUPPLY_MICRO_ARX.toNat)
    (hb : b.blockType.isReceive = false) (hlinked : WellLinked (chain h b.account ++ [b])) :
    Admissible K h b := by
  refine ⟨hver, fun v hv ↦ ?_, fun x hx ↦ ?_, hlinked⟩
  · rwa [Block.minted_of_open hv] at hcap
  · rw [hx] at hb
    cases hb

/-- Every block was admissible when it was added. -/
inductive Valid (K : Crates) : List Block → Prop
  | nil : Valid K []
  | concat {h : List Block} {b : Block} (valid : Valid K h) (adm : Admissible K h b) :
    Valid K (h ++ [b])

namespace Valid

variable {K : Crates} {h : List Block}

theorem of_concat {b : Block} (hv : Valid K (h ++ [b])) : Valid K h ∧ Admissible K h b := by
  generalize hl : h ++ [b] = l at hv
  cases hv with
  | nil => simp at hl
  | concat valid adm =>
    obtain ⟨rfl, hb⟩ := List.append_inj' hl rfl
    obtain rfl := List.singleton_inj.mp hb
    exact ⟨valid, adm⟩

/-- A history was valid at every earlier moment. -/
theorem of_append {t : List Block} (hv : Valid K (h ++ t)) : Valid K h := by
  induction t using List.reverseRecOn with
  | nil => rwa [List.append_nil] at hv
  | append_singleton t b ih =>
    rw [← List.append_assoc] at hv
    exact ih hv.of_concat.1

/-- Each block was admissible to the blocks before it. -/
theorem admissible {t : List Block} {b : Block} (hv : Valid K (h ++ b :: t)) :
    Admissible K h b := by
  rw [List.append_cons] at hv
  exact hv.of_append.of_concat.2

theorem verified (hv : Valid K h) : ∀ b ∈ h, Verified K b := by
  induction hv with
  | nil => simp
  | concat _ adm ih =>
    intro b hb
    rcases List.mem_append.mp hb with hb | hb
    · exact ih b hb
    · exact List.mem_singleton.mp hb ▸ adm.verified

theorem wellLinked (hv : Valid K h) (account : String) : WellLinked (chain h account) := by
  induction hv with
  | nil => trivial
  | @concat h b _ adm ih =>
    by_cases hb : b.account = account
    · rw [← hb, chain_concat_self]
      exact adm.linked
    · rwa [chain_concat_of_ne h hb]

theorem minted_le (hv : Valid K h) : minted h ≤ TOTAL_SUPPLY_MICRO_ARX.toNat := by
  induction hv with
  | nil => exact Nat.zero_le _
  | @concat h b _ adm ih =>
    rw [minted_concat]
    cases htype : b.blockType with
    | «open» v =>
      rw [Block.minted_of_open htype]
      exact adm.supply v htype
    | send d v => rwa [Block.minted_of_not_open (by rw [htype]; rfl)]
    | receive x => rwa [Block.minted_of_not_open (by rw [htype]; rfl)]
    | revoke x => rwa [Block.minted_of_not_open (by rw [htype]; rfl)]

/-- An account never has two blocks with one nonce. -/
theorem pairwise_account_nonce (hv : Valid K h) :
    h.Pairwise fun b b' ↦ b.account = b'.account → b.nonce ≠ b'.nonce := by
  induction hv with
  | nil => exact List.Pairwise.nil
  | @concat h b hv adm ih =>
    refine List.pairwise_append.mpr ⟨ih, List.pairwise_singleton _ _, fun b₁ hb₁ b₂ hb₂ ↦ ?_⟩
    obtain rfl := List.mem_singleton.mp hb₂
    intro hacc hnonce
    -- the older block sits inside the chain, the new one at its end
    obtain ⟨i, hi, hget⟩ := List.mem_iff_getElem.mp (mem_chain.mpr ⟨hb₁, hacc⟩)
    have hold := (hv.wellLinked b₂.account).nonce_getElem hi
    have hnew := adm.linked.nonce_getLast List.getLast?_concat
    rw [List.length_append, List.length_singleton] at hnew
    rw [hget, hnonce, hnew] at hold
    omega

/-- Without hash collisions the blocks have distinct hashes. -/
theorem pairwise_hash (hv : Valid K h) (hcf : Block.CollisionFree K h) :
    h.Pairwise fun b b' ↦ b.hash ≠ b'.hash := by
  refine hv.pairwise_account_nonce.imp_of_mem fun hb hb' hne hhash ↦ ?_
  obtain ⟨hacc, hnonce⟩ := hcf.account_nonce_eq hb hb' (hv.verified _ hb).hashed
    (hv.verified _ hb').hashed hhash
  exact hne hacc hnonce

/-- Without hash collisions the index holds exactly the Sends of the history. -/
theorem sent_eq_some (hv : Valid K h) (hcf : Block.CollisionFree K h) {x : String}
    {info : SendInfo} : sent h x = some info ↔
      ∃ s ∈ h, s.hash = x ∧ s.blockType = .send info.destination info.amount := by
  refine ⟨exists_of_sent, ?_⟩
  have hdistinct := hv.pairwise_hash hcf
  clear hv hcf
  induction h using List.reverseRecOn with
  | nil => simp
  | append_singleton h b ih =>
    obtain ⟨hpw, -, hlast⟩ := List.pairwise_append.mp hdistinct
    rintro ⟨s, hs, rfl, htype⟩
    rw [sent_concat]
    rcases List.mem_append.mp hs with hs | hs
    · rw [if_neg (hlast s hs b (List.mem_singleton_self b)), Option.none_or]
      exact ih hpw ⟨s, hs, rfl, htype⟩
    · obtain rfl := List.mem_singleton.mp hs
      rw [if_pos rfl, Block.sendInfo_eq_some.mpr htype, Option.some_or]

end Valid

end History

/-! ## The ledger refines its history -/

namespace Ledger

open History

/-- The ledger is the one the history describes. -/
structure Represents (l : Ledger) (h : List Block) : Prop where
  blocks : ∀ a, l.blocks a = chain h a
  sendIndex : ∀ x, l.sendIndex.lookup x = sent h x
  consumedSends : ∀ x, x ∈ l.consumedSends ↔ Consumed h x
  totalSupply : l.totalSupply.toNat = minted h

theorem represents_new : new.Represents [] where
  blocks := fun _ ↦ rfl
  sendIndex := fun _ ↦ rfl
  consumedSends := fun x ↦ by simp [new, Consumed]
  totalSupply := rfl

theorem length_blocks_le (l : Ledger) (a : String) : (l.blocks a).length ≤ isizeMax := by
  rw [blocks]
  cases l.getChain a with
  | none => exact Nat.zero_le _
  | some v => exact v.length_le

/-- On a well-linked chain the continuity check is the linking condition, in every profile: its
nonces count its blocks, so the increment cannot overflow. -/
theorem continues_iff {m : Overflow} {c : List Block} {b : Block} (hc : WellLinked c)
    (hlen : c.length ≤ isizeMax) : Continues m c b ↔ WellLinked (c ++ [b]) := by
  rw [Continues]
  split
  · rename_i last hlast
    have hone : last.nonce.toNat + (1 : UInt64).toNat ≤ u64Max := by
      rw [hc.nonce_getLast hlast, UInt64.toNat_one]
      rw [isizeMax] at hlen
      rw [u64Max]
      omega
    rw [UInt64.plus_eq_some_of_le hone, wellLinked_concat hlast, Links, UInt64.toNat_one]
    exact ⟨fun h ↦ ⟨hc, h⟩, fun h ↦ h.2⟩
  · rename_i hnone
    rw [List.getLast?_eq_none_iff.mp hnone, List.nil_append, wellLinked_singleton]

/-- The ledger admits a block exactly when its history does. -/
theorem Represents.admits_iff {m : Overflow} {K : Crates} {l : Ledger} {h : List Block} {b : Block}
    (hrep : l.Represents h) (hv : Valid K h) : Admits m K l b ↔ Admissible K h b := by
  have hlinked : Continues m (l.blocks b.account) b ↔ WellLinked (chain h b.account ++ [b]) := by
    have hlen := l.length_blocks_le b.account
    rw [hrep.blocks] at hlen ⊢
    exact continues_iff (hv.wellLinked b.account) hlen
  constructor
  · rintro ⟨⟨hver, hsup, hsrc⟩, hcont⟩
    refine ⟨hver, fun v hv ↦ hrep.totalSupply ▸ hsup v hv, fun x hx ↦ ?_, hlinked.mp hcont⟩
    obtain ⟨info, hinfo, hdest, hfresh⟩ := hsrc x hx
    exact ⟨info, hrep.sendIndex x ▸ hinfo, hdest, mt (hrep.consumedSends x).mpr hfresh⟩
  · rintro ⟨hver, hsup, hsrc, hlink⟩
    refine ⟨⟨hver, fun v hv ↦ ?_, fun x hx ↦ ?_⟩, hlinked.mpr hlink⟩
    · rw [hrep.totalSupply]
      exact hsup v hv
    · obtain ⟨info, hinfo, hdest, hfresh⟩ := hsrc x hx
      exact ⟨info, (hrep.sendIndex x).trans hinfo, hdest, mt (hrep.consumedSends x).mp hfresh⟩

theorem Extends.blocks {l l' : Ledger} {b : Block} (hext : Extends l b l') (a : String) :
    l'.blocks a = if b.account = a then l.blocks a ++ [b] else l.blocks a := by
  obtain ⟨w, hw, hchains⟩ := hext.chains
  rw [Ledger.blocks, getChain, hchains]
  split
  · rename_i ha
    rw [← ha, AList.lookup_insert, Option.elim_some, hw]
  · rename_i ha
    rw [AList.lookup_insert_ne (Ne.symm ha)]
    rfl

theorem Represents.extends {l l' : Ledger} {h : List Block} {b : Block} (hrep : l.Represents h)
    (hext : Extends l b l') : l'.Represents (h ++ [b]) where
  blocks := fun a ↦ by rw [hext.blocks, chain_concat, hrep.blocks]
  sendIndex := fun x ↦ by rw [hext.sendIndex, sent_concat, hrep.sendIndex]
  consumedSends := fun x ↦ by rw [hext.consumedSends, consumed_concat, hrep.consumedSends]
  totalSupply := by rw [hext.totalSupply, minted_concat, hrep.totalSupply]

/-- An empty entry represents nothing. -/
theorem Represents.touch {l : Ledger} {h : List Block} (hrep : l.Represents h) (a : String) :
    (l.touch a).Represents h where
  blocks := fun a' ↦ by rw [blocks_touch, hrep.blocks]
  sendIndex := hrep.sendIndex
  consumedSends := hrep.consumedSends
  totalSupply := hrep.totalSupply

theorem accepted_concat_ok (attempts : List Attempt) (b : Block) (u : Unit) :
    accepted (attempts ++ [(b, .ok u)]) = accepted attempts ++ [b] := by
  rw [accepted, List.filterMap_append]
  rfl

theorem accepted_concat_error (attempts : List Attempt) (b : Block) (e : ArxiaError) :
    accepted (attempts ++ [(b, .error e)]) = accepted attempts := by
  rw [accepted, List.filterMap_append]
  exact List.append_nil _

theorem accepted_map_ok (bs : List Block) :
    accepted (bs.map fun b ↦ (b, .ok ())) = bs := by
  rw [accepted, List.filterMap_map]
  exact List.filterMap_some

/-- **One call, seen from the history.** -/
theorem Represents.step {m : Overflow} {K : Crates} {l l' : Ledger} {attempts : List Attempt}
    {c : Attempt} (hrep : l.Represents (accepted attempts)) (hv : Valid K (accepted attempts))
    (h : (addBlock m K c.1).exec l = some (c.2, l')) :
    Valid K (accepted (attempts ++ [c])) ∧ l'.Represents (accepted (attempts ++ [c])) := by
  obtain ⟨b, r⟩ := c
  cases r with
  | ok u =>
    obtain ⟨hadm, hext⟩ := exec_addBlock_ok h
    rw [accepted_concat_ok]
    exact ⟨hv.concat ((hrep.admits_iff hv).mp hadm), hrep.extends hext⟩
  | error e =>
    obtain ⟨-, rfl⟩ := exec_addBlock_error h
    rw [accepted_concat_error]
    refine ⟨hv, ?_⟩
    split
    · exact hrep.touch b.account
    · exact hrep

/-- **Refinement.** After any sequence of calls the ledger is the one its accepted history
describes, and the history is valid. -/
theorem run_represents {m : Overflow} {K : Crates} {attempts : List Attempt} {l : Ledger}
    (run : (system m K).Run attempts l) :
    Valid K (accepted attempts) ∧ l.Represents (accepted attempts) := by
  refine run.invariant (I := fun tr s ↦ Valid K (accepted tr) ∧ s.Represents (accepted tr)) ?_ ?_
  · rintro s rfl
    exact ⟨Valid.nil, represents_new⟩
  · rintro tr s c s' - ⟨hv, hrep⟩ hstep
    exact hrep.step hv hstep

/-- **Completeness.** Every valid history is the accepted history of a run. -/
theorem exists_run_of_valid {m : Overflow} {K : Crates} {h : List Block} (hv : Valid K h)
    (hlen : h.length ≤ isizeMax) : ∃ l, (system m K).Run (h.map fun b ↦ (b, .ok ())) l := by
  induction hv with
  | nil => exact ⟨new, .start rfl⟩
  | @concat h b hv adm ih =>
    rw [List.length_append, List.length_singleton] at hlen
    obtain ⟨l, run⟩ := ih (by omega)
    have hrep := (run_represents run).2
    rw [accepted_map_ok] at hrep
    have hroom : (l.blocks b.account).length < isizeMax := by
      have hle : (chain h b.account).length ≤ h.length := List.length_filter_le _ _
      rw [hrep.blocks]
      omega
    obtain ⟨l', hstep⟩ := exec_addBlock_of_admits ((hrep.admits_iff (m := m) hv).mpr adm) hroom
    have hstep' : (system m K).step l (b, .ok ()) l' := hstep
    rw [List.map_append]
    exact ⟨l', run.step hstep'⟩

/-- **Invariants of restricted runs.** When every block the ledger admits meets `C` in the state it
meets, a relation between history and ledger holds throughout if accepted blocks keep it and empty
entries do not disturb it. -/
theorem restrict_invariant {m : Overflow} {K : Crates} {C : Ledger → Block → Prop}
    {J : List Block → Ledger → Prop} {attempts : List Attempt} {l : Ledger}
    (run : ((system m K).restrict fun l c ↦ Admits m K l c.1 → C l c.1).Run attempts l)
    (start : J [] new) (touch : ∀ h l a, J h l → J h (l.touch a))
    (concat : ∀ h b l l', Valid K (h ++ [b]) → l.Represents h → Extends l b l' → C l b → J h l →
      J (h ++ [b]) l') :
    J (accepted attempts) l := by
  refine run.invariant (I := fun tr s ↦ J (accepted tr) s) ?_ ?_
  · rintro s rfl
    exact start
  · rintro tr s ⟨b, r⟩ s' hrun ih ⟨hC, hstep⟩
    obtain ⟨hv, hrep⟩ := run_represents hrun.of_restrict
    cases r with
    | ok u =>
      obtain ⟨hadm, hext⟩ := exec_addBlock_ok hstep
      rw [accepted_concat_ok]
      exact concat _ b s s' (hv.concat ((hrep.admits_iff hv).mp hadm)) hrep hext (hC hadm) ih
    | error e =>
      obtain ⟨-, rfl⟩ := exec_addBlock_error hstep
      rw [accepted_concat_error]
      split
      · exact touch _ _ _ ih
      · exact ih

/-- To restrict a run that accepts every block, check each block against the blocks before it. -/
theorem restrict_of_represents {m : Overflow} {K : Crates} {C : Ledger → Block → Prop}
    {bs : List Block} {l : Ledger} (run : (system m K).Run (bs.map fun b ↦ (b, .ok ())) l)
    (hC : ∀ i (hi : i < bs.length) s, s.Represents (bs.take i) → C s bs[i]) :
    ((system m K).restrict fun l c ↦ Admits m K l c.1 → C l c.1).Run
      (bs.map fun b ↦ (b, .ok ())) l := by
  refine run.restrict_of_steps fun tr s c hrun hpre _ ↦ ?_
  have hlen : tr.length < bs.length := by
    have := hpre.length_le
    rw [List.length_append, List.length_map] at this
    exact this
  have htake : tr = (bs.take tr.length).map fun b ↦ (b, .ok ()) := by
    rw [List.map_take]
    exact List.prefix_iff_eq_take.mp ((List.prefix_append tr [c]).trans hpre)
  have hlast : c = (bs[tr.length], .ok ()) := by
    have hget := hpre.getElem (i := tr.length) (by simp)
    rw [List.getElem_concat_length rfl, List.getElem_map] at hget
    exact hget
  -- the ledger before the block represents the blocks before it
  have hrep := (run_represents hrun).2
  rw [htake, accepted_map_ok] at hrep
  rw [hlast]
  exact hC _ hlen s hrep

end Ledger

end Arxia
