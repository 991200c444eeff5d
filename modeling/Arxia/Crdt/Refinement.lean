import Arxia.Crdt.Winners

/-!
# Reconciliation refines the settlement

The second half of `reconcile_partitions` applies the winners one by one. `Tracks` is what its state
holds after some of them: the counter of an account tallies what the applied entries credit and
debit, an account has a counter when one of them touches it, and the rejections are theirs in order.
One step extends the applied entries by one, or panics on an account that cannot be sliced.

The conclusion is `outcome_reconcilePartitions`: whatever orders the hash maps are iterated in, the
call settles the entries of the two partitions.
-/

namespace Arxia

open Rust

namespace Reconciliation

open Settlement PNCounter

/-! ## Distinct winners -/

/-- A list of the winning blocks, each once. -/
structure Lists (all ws : List Block) : Prop where
  mem : ∀ b, b ∈ ws ↔ Wins all b
  nodup : (ws.map key).Nodup

/-- The values of the map of winners, in any order, list the winning blocks. -/
theorem lists_of_perm_entries {all : List Block} {winners : HashMap Key Block}
    (hlookup : ∀ k b, winners.lookup k = some b ↔ Wins all b ∧ key b = k)
    {es : List (Σ _ : Key, Block)} (hperm : es.Perm winners.entries) :
    Lists all (es.map fun e ↦ e.2) := by
  have hmem : ∀ k b, (⟨k, b⟩ : Σ _ : Key, Block) ∈ es ↔ Wins all b ∧ key b = k := fun k b ↦ by
    rw [hperm.mem_iff, ← AList.mem_lookup_iff, Option.mem_def, hlookup]
  refine ⟨fun b ↦ ?_, ?_⟩
  · rw [List.mem_map]
    constructor
    · rintro ⟨⟨k, c⟩, he, rfl⟩
      exact ((hmem k c).mp he).1
    · intro hb
      exact ⟨⟨key b, b⟩, (hmem _ _).mpr ⟨hb, rfl⟩, rfl⟩
  · have hkeys : (es.map fun e ↦ e.2).map key = es.map fun e ↦ e.1 := by
      rw [List.map_map]
      exact List.map_congr_left fun e he ↦ ((hmem e.1 e.2).mp he).2
    rw [hkeys]
    exact ((hperm.map _).nodup_iff).mpr winners.nodupKeys

section Lists

variable {all ws : List Block} {E : Finset Entry}

theorem Lists.mem_map_entry (h : Lists all ws) (hrep : Represents all E) {e : Entry} :
    e ∈ ws.map Block.entry ↔ e ∈ winners E := by
  rw [List.mem_map]
  constructor
  · rintro ⟨b, hb, rfl⟩
    exact ((h.mem b).mp hb).entry_mem hrep
  · intro he
    obtain ⟨b, hb, rfl⟩ := exists_wins hrep he
    exact ⟨b, (h.mem b).mpr hb, rfl⟩

theorem Lists.nodup_map_entry (h : Lists all ws) : (ws.map Block.entry).Nodup := by
  apply List.Nodup.of_map Entry.key
  rw [List.map_map]
  exact h.nodup

end Lists

/-! ## The index of the Sends -/

/-- The map finds a winning Send by its hash. -/
def Indexes (sends : HashMap String Block) (W : Finset Entry) : Prop :=
  ∀ x e, (sends.lookup x).map Block.entry = some e ↔
    e ∈ W ∧ e.blockType.isSend = true ∧ e.hash = x

theorem indexes_indexSends {all : List Block} {E : Finset Entry} (hrep : Represents all E)
    (hnodup : (all.map Block.hash).Nodup) {es : List (Σ _ : Key, Block)}
    (hlists : Lists all (es.map fun e ↦ e.2)) : Indexes (indexSends es) (winners E) := by
  -- the index is keyed by the hash, so no send replaces another
  have hhash : ((es.map fun e ↦ e.2).map Block.hash).Nodup := by
    refine (List.nodup_map_iff_inj_on (List.Nodup.of_map _ hlists.nodup)).mpr fun b hb c hc h ↦ ?_
    exact List.inj_on_of_nodup_map hnodup ((hlists.mem b).mp hb).1 ((hlists.mem c).mp hc).1 h
  have hfst : ((((es.map fun e ↦ e.2).filter fun b ↦ b.blockType.isSend).map
      fun b ↦ (b.hash, b)).map Prod.fst).Nodup := by
    rw [List.map_map]
    exact hhash.sublist (List.filter_sublist.map _)
  intro x e
  rw [indexSends, Option.map_eq_some_iff]
  simp only [lookup_insertAll_empty hfst, List.mem_map, List.mem_filter, Prod.mk.injEq]
  constructor
  · rintro ⟨b, ⟨b', ⟨hb, hsend⟩, rfl, rfl⟩, rfl⟩
    have hb : b' ∈ es.map fun e ↦ e.2 := List.mem_map.mpr hb
    exact ⟨((hlists.mem b').mp hb).entry_mem hrep, hsend, rfl⟩
  · rintro ⟨he, hsend, rfl⟩
    obtain ⟨b, hb, rfl⟩ := exists_wins hrep he
    exact ⟨b, ⟨b, ⟨List.mem_map.mp ((hlists.mem b).mpr hb), hsend⟩, rfl, rfl⟩, rfl⟩

section Index

variable {sends : HashMap String Block} {W : Finset Entry}

theorem Indexes.source (h : Indexes sends W) {x : String} {s : Block}
    (hs : sends.lookup x = some s) :
    s.entry ∈ W ∧ s.blockType.isSend = true ∧ s.hash = x :=
  (h x s.entry).mp (by rw [hs]; rfl)

theorem Indexes.eq_source (h : Indexes sends W) {x : String} {s : Block}
    (hs : sends.lookup x = some s) {e : Entry} (he : e ∈ W) (hsend : e.blockType.isSend = true)
    (hhash : e.hash = x) : e = s.entry := by
  have hlookup := (h x e).mpr ⟨he, hsend, hhash⟩
  rw [hs, Option.map_some, Option.some_inj] at hlookup
  exact hlookup.symm

theorem Indexes.no_source (h : Indexes sends W) {x : String} (hs : sends.lookup x = none) :
    ¬ ∃ e ∈ W, e.blockType.isSend = true ∧ e.hash = x := by
  rintro ⟨e, he, hsend, hhash⟩
  have hlookup := (h x e).mpr ⟨he, hsend, hhash⟩
  rw [hs] at hlookup
  simp at hlookup

/-- A Receive credits the Send its source names. -/
theorem Indexes.credits_iff (h : Indexes sends W) {b : Block} {x : String}
    (htype : b.blockType = .receive x) {s : Block} (hs : sends.lookup x = some s) {e : Entry}
    (he : e ∈ W) : b.entry.Credits e ↔ e = s.entry ∧ s.entry.destination = some b.account := by
  constructor
  · intro hc
    have hx : x = e.hash := BlockType.receive.inj (htype.symm.trans hc.1)
    obtain rfl := h.eq_source hs he hc.isSend hx.symm
    exact ⟨rfl, hc.2⟩
  · rintro ⟨rfl, hdest⟩
    refine ⟨?_, hdest⟩
    change b.blockType = .receive s.hash
    rw [htype, (h.source hs).2.2]

end Index

/-! ## One step of the apply loop -/

/-- What the state holds after the entries `done` were applied. -/
structure Tracks (W : Finset Entry) (done : List Entry) (st : Applied) : Prop where
  /-- Accounts with a counter. -/
  mem : ∀ a, a ∈ st.crdts ↔ ∃ e ∈ done, e.account = a ∧ Touches W e
  /-- The credits and debits of an account. -/
  counter : ∀ a node, bytePrefix a.toList 8 = some node →
    Holds ((st.crdts.lookup a).getD new) (String.ofList node)
      ((done.filter fun e ↦ e.account = a).map (credit W)).sum
      ((done.filter fun e ↦ e.account = a).map Entry.sent).sum
  receives : st.rejectedReceives = done.filterMap (rejectReceive W)
  genesis : st.rejectedGenesis = done.filterMap rejectGenesis

theorem Tracks.start (W : Finset Entry) : Tracks W [] ⟨∅, [], []⟩ where
  mem := fun a ↦ by simp
  counter := fun a node _ ↦ by
    rw [AList.lookup_empty]
    exact holds_new _
  receives := rfl
  genesis := rfl

/-- The counter update an entry asks for. -/
def Updates (W : Finset Entry) (e : Entry) (f : PNCounter → String → PNCounter) : Prop :=
  ∀ c node credits debits, Holds c node credits debits →
    Holds (f c node) node (credits + credit W e) (debits + e.sent)

theorem updates_increment {W : Finset Entry} {e : Entry} {amount : UInt64}
    (hcredit : credit W e = amount.toNat) (hsent : e.sent = 0) :
    Updates W e fun c node ↦ c.increment node amount := by
  intro c node credits debits h
  rw [hcredit, hsent, Nat.add_zero]
  exact h.increment amount

theorem updates_decrement {W : Finset Entry} {e : Entry} {amount : UInt64}
    (hcredit : credit W e = 0) (hsent : e.sent = amount.toNat) :
    Updates W e fun c node ↦ c.decrement node amount := by
  intro c node credits debits h
  rw [hcredit, hsent, Nat.add_zero]
  exact h.decrement amount

/-- What a step does: a touching entry updates its counter, any other entry is at most rejected. -/
inductive Steps (W : Finset Entry) (st : Applied) (b : Block) : Option Applied → Prop
  | update (htouch : Touches W b.entry) (f : PNCounter → String → PNCounter)
      (hf : Updates W b.entry f) (hgenesis : rejectGenesis b.entry = none)
      (hreceive : rejectReceive W b.entry = none) : Steps W st b (st.update b.account f)
  | skip (htouch : ¬ Touches W b.entry) : Steps W st b (some {
      st with
      rejectedReceives := st.rejectedReceives ++ (rejectReceive W b.entry).toList
      rejectedGenesis := st.rejectedGenesis ++ (rejectGenesis b.entry).toList })

section Step

variable {sends : HashMap String Block} {W : Finset Entry} {b : Block}

theorem steps_open (st : Applied) {v : UInt64} (htype : b.blockType = .open v) :
    Steps W st b (applyBlock sends st b) := by
  have hreceive : rejectReceive W b.entry = none :=
    rejectReceive_of_not_isReceive (by rw [Block.blockType_entry, htype]; rfl)
  rw [applyBlock, htype]
  by_cases hnonce : b.nonce = 1
  · have hgenesis : rejectGenesis b.entry = none := if_neg fun h ↦ h.2 hnonce
    have hsent : b.entry.sent = 0 :=
      Entry.sent_of_not_isSend (by rw [Block.blockType_entry, htype]; rfl)
    simp only [hnonce, ne_eq, not_true_eq_false, if_false]
    exact .update ((touches_open htype).mpr hnonce) _
      (updates_increment (credit_of_open htype hnonce) hsent) hgenesis hreceive
  · have hgenesis : rejectGenesis b.entry = some ⟨b.account, b.nonce, b.hash,
        "open_at_non_genesis_nonce"⟩ :=
      if_pos ⟨BlockType.isOpen_iff.mpr ⟨v, htype⟩, hnonce⟩
    have hskip : Steps W st b _ := .skip fun h ↦ hnonce ((touches_open htype).mp h)
    rw [hgenesis, hreceive, Option.toList_none, List.append_nil] at hskip
    simp only [hnonce, ne_eq, not_false_eq_true, if_true]
    exact hskip

theorem steps_send (st : Applied) {d : String} {v : UInt64} (htype : b.blockType = .send d v) :
    Steps W st b (applyBlock sends st b) := by
  have hsent : b.entry.sent = v.toNat := by rw [Entry.sent, Block.blockType_entry, htype]
  rw [applyBlock, htype]
  exact .update (touches_send htype) _ (updates_decrement (credit_of_send htype) hsent)
    (rejectGenesis_of_not_isOpen (by rw [Block.blockType_entry, htype]; rfl))
    (rejectReceive_of_not_isReceive (by rw [Block.blockType_entry, htype]; rfl))

theorem steps_revoke (st : Applied) {x : String} (htype : b.blockType = .revoke x) :
    Steps W st b (applyBlock sends st b) := by
  have hskip : Steps W st b _ := .skip (not_touches_revoke htype)
  rw [rejectGenesis_of_not_isOpen (by rw [Block.blockType_entry, htype]; rfl),
    rejectReceive_of_not_isReceive (by rw [Block.blockType_entry, htype]; rfl), Option.toList_none,
    Option.toList_none, List.append_nil, List.append_nil] at hskip
  rw [applyBlock, htype]
  exact hskip

/-- A Receive that credits nothing is rejected for the reason the code gives. -/
theorem steps_reject (st : Applied) {x reason : String} (htype : b.blockType = .receive x)
    (hnone : ¬ ∃ s ∈ W, b.entry.Credits s) (hreason : rejectReason W x = reason) :
    Steps W st b (some { st with rejectedReceives := st.rejectedReceives ++ [{
      account := b.account, nonce := b.nonce, receiveHash := b.hash, sourceHash := x
      reason := reason }] }) := by
  have hskip : Steps W st b _ := .skip fun h ↦ hnone ((touches_receive htype).mp h)
  have hreject : rejectReceive W b.entry = some ⟨b.account, b.nonce, b.hash, x, reason⟩ := by
    rw [rejectReceive, Block.blockType_entry, htype, ← hreason]
    exact if_neg hnone
  rw [hreject, rejectGenesis_of_not_isOpen (by rw [Block.blockType_entry, htype]; rfl),
    Option.toList_none, List.append_nil] at hskip
  exact hskip

theorem steps_receive (hindex : Indexes sends W) (st : Applied) {x : String}
    (htype : b.blockType = .receive x) : Steps W st b (applyBlock sends st b) := by
  rw [applyBlock, htype]
  cases hs : sends.lookup x with
  | none =>
    simp only [hs]
    refine steps_reject st htype ?_ (if_neg (hindex.no_source hs))
    rintro ⟨s, hmem, hc⟩
    refine hindex.no_source hs ⟨s, hmem, hc.isSend, ?_⟩
    exact BlockType.receive.inj (hc.1.symm.trans htype)
  | some s =>
    -- the only winning Send with this hash; it credits if it names the account
    obtain ⟨hmem, hsend, hhash⟩ := hindex.source hs
    obtain ⟨d, v, hstype⟩ := BlockType.isSend_iff.mp hsend
    have hdest : s.entry.destination = some d := Entry.destination_eq_some.mpr ⟨v, hstype⟩
    simp only [hs, hstype]
    by_cases hd : d = b.account
    · rw [if_pos hd]
      have hcredits : ∀ c ∈ W, b.entry.Credits c ↔ c = s.entry := fun c hc ↦ by
        rw [hindex.credits_iff htype hs hc, hdest, hd]
        simp
      have hcredit : credit W b.entry = v.toNat := by
        rw [credit_of_receive htype hcredits hmem, Entry.sent, Block.blockType_entry, hstype]
      have hsome : ∃ s ∈ W, b.entry.Credits s := ⟨s.entry, hmem, (hcredits _ hmem).mpr rfl⟩
      have hsent : b.entry.sent = 0 :=
        Entry.sent_of_not_isSend (by rw [Block.blockType_entry, htype]; rfl)
      have hreceive : rejectReceive W b.entry = none := by
        rw [rejectReceive, Block.blockType_entry, htype]
        exact if_pos hsome
      exact .update ((touches_receive htype).mpr hsome) _ (updates_increment hcredit hsent)
        (rejectGenesis_of_not_isOpen (by rw [Block.blockType_entry, htype]; rfl)) hreceive
    · rw [if_neg hd]
      refine steps_reject st htype ?_ (if_pos ⟨s.entry, hmem, hsend, hhash⟩)
      rintro ⟨c, hc, hcred⟩
      obtain ⟨-, hacc⟩ := (hindex.credits_iff htype hs hc).mp hcred
      rw [hdest] at hacc
      exact hd (Option.some_inj.mp hacc)

/-- **One step.** -/
theorem steps_applyBlock (hindex : Indexes sends W) (st : Applied) (b : Block) :
    Steps W st b (applyBlock sends st b) := by
  cases htype : b.blockType with
  | «open» v => exact steps_open st htype
  | send d v => exact steps_send st htype
  | receive x => exact steps_receive hindex st htype
  | revoke x => exact steps_revoke st htype

end Step

/-! ## The whole loop -/

section Loop

variable {W : Finset Entry} {done : List Entry} {st : Applied}

theorem sum_filter_concat (g : Entry → ℕ) (done : List Entry) (e : Entry) (a : String) :
    (((done ++ [e]).filter fun d ↦ d.account = a).map g).sum =
      ((done.filter fun d ↦ d.account = a).map g).sum + if e.account = a then g e else 0 := by
  rw [List.filter_append, List.map_append, List.sum_append, List.filter_singleton]
  by_cases ha : e.account = a
  · simp [ha]
  · simp [ha]

theorem exists_mem_concat {p : Entry → Prop} {done : List Entry} {e : Entry} :
    (∃ d ∈ done ++ [e], p d) ↔ (∃ d ∈ done, p d) ∨ p e := by
  simp [or_and_right, exists_or]

theorem Tracks.skip (h : Tracks W done st) {e : Entry} (htouch : ¬ Touches W e) :
    Tracks W (done ++ [e]) { st with
      rejectedReceives := st.rejectedReceives ++ (rejectReceive W e).toList
      rejectedGenesis := st.rejectedGenesis ++ (rejectGenesis e).toList } := by
  obtain ⟨hcredit, hsent⟩ := credit_sent_of_not_touches htouch
  refine ⟨fun a ↦ ?_, fun a node hnode ↦ ?_, ?_, ?_⟩
  · rw [h.mem a, exists_mem_concat]
    exact (or_iff_left fun he ↦ htouch he.2).symm
  · rw [sum_filter_concat, sum_filter_concat, hcredit, hsent, ite_self, Nat.add_zero, Nat.add_zero]
    exact h.counter a node hnode
  · rw [List.filterMap_append, h.receives]
    congr 1
  · rw [List.filterMap_append, h.genesis]
    congr 1

theorem Tracks.update (h : Tracks W done st) {e : Entry} (htouch : Touches W e)
    {f : PNCounter → String → PNCounter} (hf : Updates W e f) (hgenesis : rejectGenesis e = none)
    (hreceive : rejectReceive W e = none) {st' : Applied}
    (hst : st.update e.account f = some st') : Tracks W (done ++ [e]) st' := by
  rw [Applied.update] at hst
  obtain ⟨node, hnode, hst⟩ := Option.bind_eq_some_iff.mp hst
  obtain rfl := Option.some_inj.mp hst
  refine ⟨fun a ↦ ?_, fun a node' hnode' ↦ ?_, ?_, ?_⟩
  · rw [AList.mem_insert, h.mem a, exists_mem_concat, or_comm, eq_comm]
    exact or_congr_right (and_iff_left htouch).symm
  · rw [sum_filter_concat, sum_filter_concat]
    by_cases ha : e.account = a
    · -- the counter of the entry's own account
      subst ha
      obtain rfl := Option.some_inj.mp (hnode.symm.trans hnode')
      rw [if_pos rfl, if_pos rfl, AList.lookup_insert, Option.getD_some]
      exact hf _ _ _ _ (h.counter _ _ hnode)
    · rw [if_neg ha, if_neg ha, AList.lookup_insert_ne (Ne.symm ha)]
      exact h.counter a node' hnode'
  · rw [List.filterMap_append, List.filterMap_cons_none hreceive, List.filterMap_nil,
      List.append_nil, h.receives]
  · rw [List.filterMap_append, List.filterMap_cons_none hgenesis, List.filterMap_nil,
      List.append_nil, h.genesis]

theorem update_eq_none {account : String} {f : PNCounter → String → PNCounter} :
    st.update account f = none ↔ bytePrefix account.toList 8 = none := by
  rw [Applied.update]
  cases bytePrefix account.toList 8 <;> simp

/-- One step either extends the entries tracked, or panics on an account it cannot slice. -/
theorem Tracks.step (h : Tracks W done st) {b : Block} {o : Option Applied}
    (hstep : Steps W st b o) :
    (∃ st', o = some st' ∧ Tracks W (done ++ [b.entry]) st') ∧
        (Touches W b.entry → (bytePrefix b.account.toList 8).isSome) ∨
      o = none ∧ Touches W b.entry ∧ bytePrefix b.account.toList 8 = none := by
  cases hstep with
  | update htouch f hf hgenesis hreceive =>
    cases hst : st.update b.account f with
    | none => exact Or.inr ⟨rfl, htouch, update_eq_none.mp hst⟩
    | some st' =>
      refine Or.inl ⟨⟨st', rfl, h.update htouch hf hgenesis hreceive hst⟩, fun _ ↦ ?_⟩
      refine Option.isSome_iff_ne_none.mpr fun hnone ↦ ?_
      rw [update_eq_none.mpr hnone] at hst
      simp at hst
  | skip htouch => exact Or.inl ⟨⟨_, rfl, h.skip htouch⟩, fun ht ↦ absurd ht htouch⟩

/-- **The apply loop** tracks all the blocks it was given, or panics on one of them. -/
theorem Tracks.run {sends : HashMap String Block} (hindex : Indexes sends W) (ws : List Block)
    (h : Tracks W done st) :
    (∃ st', ws.foldlM (applyBlock sends) st = some st' ∧
          Tracks W (done ++ ws.map Block.entry) st') ∧
        (∀ b ∈ ws, Touches W b.entry → (bytePrefix b.account.toList 8).isSome) ∨
      ws.foldlM (applyBlock sends) st = none ∧
        ∃ b ∈ ws, Touches W b.entry ∧ bytePrefix b.account.toList 8 = none := by
  -- the loop stops at the first account that cannot be sliced
  induction ws generalizing done st with
  | nil =>
    refine Or.inl ⟨⟨st, rfl, ?_⟩, fun b hb ↦ absurd hb List.not_mem_nil⟩
    rw [List.map_nil, List.append_nil]
    exact h
  | cons b ws ih =>
    rw [List.foldlM_cons]
    rcases h.step (steps_applyBlock hindex st b) with ⟨⟨st', hst, htracks⟩, hslice⟩ | ⟨hst, hbad⟩
    · rw [hst, Option.bind_eq_bind, Option.bind_some, List.map_cons, List.append_cons]
      rcases ih htracks with ⟨hrun, hall⟩ | ⟨hrun, c, hc, hbad⟩
      · exact Or.inl ⟨hrun, List.forall_mem_cons.mpr ⟨hslice, hall⟩⟩
      · exact Or.inr ⟨hrun, c, List.mem_cons_of_mem _ hc, hbad⟩
    · rw [hst]
      exact Or.inr ⟨rfl, b, List.mem_cons_self, hbad⟩

end Loop

/-! ## Applying the keys in order -/

theorem foldlM_applyKey {winners : HashMap Key Block} {keys : List Key}
    (h : ∀ k ∈ keys, ∃ b, winners.lookup k = some b) (sends : HashMap String Block) (st : Applied) :
    keys.foldlM (applyKey winners sends) st =
      (keys.filterMap winners.lookup).foldlM (applyBlock sends) st := by
  induction keys generalizing st with
  | nil => rfl
  | cons k keys ih =>
    obtain ⟨b, hb⟩ := h k List.mem_cons_self
    have hstep : applyKey winners sends st k = applyBlock sends st b := by
      rw [applyKey, hb]
      rfl
    simp only [List.foldlM_cons, List.filterMap_cons, hb, hstep]
    congr 1
    funext st'
    exact ih (fun k hk ↦ h k (List.mem_cons_of_mem _ hk)) st'

/-- The sorted keys name every winner once, so `expect` never fails. -/
theorem lists_of_keys {all : List Block} {groups : List (Σ _ : Key, List Block)}
    (hperm : groups.Perm (group key all).entries)
    {winners : HashMap Key Block}
    (hlookup : ∀ k b, winners.lookup k = some b ↔ Wins all b ∧ key b = k) {keys : List Key}
    (hkeys : keys.Perm (groups.map fun e ↦ e.1)) :
    (∀ k ∈ keys, ∃ b, winners.lookup k = some b) ∧ Lists all (keys.filterMap winners.lookup) := by
  have hsome : ∀ k ∈ keys, ∃ b, winners.lookup k = some b := by
    intro k hk
    obtain ⟨⟨k', g⟩, he, rfl⟩ := List.mem_map.mp (hkeys.subset hk)
    obtain ⟨rfl, hne⟩ := (mem_groups hperm).mp he
    obtain ⟨w, rest, hsort⟩ := exists_sortBy_cons hne
    exact ⟨w, (hlookup k' w).mpr (wins_of_sortBy hsort)⟩
  refine ⟨hsome, fun b ↦ ?_, ?_⟩
  · rw [List.mem_filterMap]
    constructor
    · rintro ⟨k, -, hk⟩
      exact ((hlookup k b).mp hk).1
    · intro hb
      refine ⟨key b, hkeys.symm.subset ?_, (hlookup _ b).mpr ⟨hb, rfl⟩⟩
      exact List.mem_map.mpr ⟨_, hb.group_mem hperm, rfl⟩
  · -- the winners have the keys back, and those are distinct
    have hmap : (keys.filterMap winners.lookup).map key = keys := by
      rw [List.map_filterMap]
      refine (List.filterMap_congr fun k hk ↦ ?_).trans List.filterMap_some
      obtain ⟨b, hb⟩ := hsome k hk
      rw [hb, Option.map_some, ((hlookup k b).mp hb).2]
    rw [hmap]
    exact (hkeys.nodup_iff).mpr (nodup_keys_groups hperm)

/-! ## Materializing the balances -/

theorem materialize_ok {es : List (Σ _ : String, PNCounter)} (h : ∀ e ∈ es, 0 ≤ e.2.value)
    (balances : HashMap String ℤ) :
    materialize es balances = .ok (insertAll balances (es.map fun e ↦ (e.1, e.2.value))) := by
  induction es generalizing balances with
  | nil => rfl
  | cons e es ih =>
    rw [materialize, if_neg (not_lt.mpr (h e List.mem_cons_self)),
      ih fun e he ↦ h e (List.mem_cons_of_mem _ he)]
    rfl

/-- **The first negative account** that the iteration meets is reported. -/
theorem materialize_of_find? {es : List (Σ _ : String, PNCounter)} {e : Σ _ : String, PNCounter}
    (h : es.find? (fun e ↦ e.2.value < 0) = some e) (balances : HashMap String ℤ) :
    materialize es balances = .error (.negativeBalance e.1 e.2.value) := by
  induction es generalizing balances with
  | nil => cases h
  | cons d es ih =>
    rw [materialize]
    rw [List.find?_cons] at h
    by_cases hneg : d.2.value < 0
    · rw [decide_eq_true hneg] at h
      obtain rfl := Option.some_inj.mp h
      exact if_pos hneg
    · rw [decide_eq_false hneg] at h
      rw [← ih h (balances.insert d.1 d.2.value)]
      exact if_neg hneg

theorem materialize_error {es : List (Σ _ : String, PNCounter)} (h : ∃ e ∈ es, e.2.value < 0)
    (balances : HashMap String ℤ) :
    ∃ e ∈ es, e.2.value < 0 ∧
      materialize es balances = .error (.negativeBalance e.1 e.2.value) := by
  have hsome : (es.find? fun e ↦ e.2.value < 0).isSome := by
    rw [List.find?_isSome]
    obtain ⟨e, he, hneg⟩ := h
    exact ⟨e, he, decide_eq_true hneg⟩
  obtain ⟨e, hfind⟩ := Option.isSome_iff_exists.mp hsome
  exact ⟨e, List.mem_of_find?_eq_some hfind, of_decide_eq_true (List.find?_some hfind :),
    materialize_of_find? hfind balances⟩

/-! ## The loop's state at the end -/

section Final

variable {all ws : List Block} {E : Finset Entry} {st : Applied}

theorem sum_filter_eq (hlists : Lists all ws) (hrep : Represents all E) (g : Entry → ℕ)
    (a : String) : (((ws.map Block.entry).filter fun e ↦ e.account = a).map g).sum =
      ∑ e ∈ winners E with e.account = a, g e := by
  have hfilter : (winners E).filter (fun e ↦ e.account = a) =
      ((ws.map Block.entry).filter fun e ↦ e.account = a).toFinset := by
    ext e
    rw [Finset.mem_filter, List.mem_toFinset, List.mem_filter, hlists.mem_map_entry hrep,
      decide_eq_true_iff]
  rw [hfilter, List.sum_toFinset _ (hlists.nodup_map_entry.filter _)]

theorem mem_crdts_iff (hlists : Lists all ws) (hrep : Represents all E)
    (h : Tracks (winners E) (ws.map Block.entry) st) {a : String} :
    a ∈ st.crdts ↔ a ∈ accounts (winners E) := by
  rw [h.mem, accounts, Finset.mem_image]
  constructor
  · rintro ⟨e, he, ha, htouch⟩
    exact ⟨e, Finset.mem_filter.mpr ⟨(hlists.mem_map_entry hrep).mp he, htouch⟩, ha⟩
  · rintro ⟨e, he, ha⟩
    obtain ⟨he, htouch⟩ := Finset.mem_filter.mp he
    exact ⟨e, (hlists.mem_map_entry hrep).mpr he, ha, htouch⟩

/-- Every counter holds the balance of its account. -/
theorem value_eq_balance (hlists : Lists all ws) (hrep : Represents all E)
    (h : Tracks (winners E) (ws.map Block.entry) st) (hslice : Sliceable (winners E)) {a : String}
    {c : PNCounter} (hc : st.crdts.lookup a = some c) : c.value = balance (winners E) a := by
  obtain ⟨node, hnode⟩ := Option.isSome_iff_exists.mp
    (hslice a ((mem_crdts_iff hlists hrep h).mp (HashMap.mem_of_lookup hc)))
  have hholds := h.counter a node hnode
  rw [hc, Option.getD_some, sum_filter_eq hlists hrep, sum_filter_eq hlists hrep] at hholds
  rw [hholds.value_eq, balance, credits, debits]

/-- So does every entry of the map of counters, -/
theorem balance_of_mem_crdts (hlists : Lists all ws) (hrep : Represents all E)
    (h : Tracks (winners E) (ws.map Block.entry) st) (hslice : Sliceable (winners E))
    {e : Σ _ : String, PNCounter} (he : e ∈ st.crdts.entries) :
    e.1 ∈ accounts (winners E) ∧ e.2.value = balance (winners E) e.1 := by
  have hc : st.crdts.lookup e.1 = some e.2 := AList.mem_lookup_iff.mpr he
  exact ⟨(mem_crdts_iff hlists hrep h).mp (HashMap.mem_of_lookup hc),
    value_eq_balance hlists hrep h hslice hc⟩

/-- and every account that counts has one. -/
theorem exists_mem_crdts (hlists : Lists all ws) (hrep : Represents all E)
    (h : Tracks (winners E) (ws.map Block.entry) st) {a : String}
    (ha : a ∈ accounts (winners E)) :
    ∃ c, (⟨a, c⟩ : Σ _ : String, PNCounter) ∈ st.crdts.entries := by
  obtain ⟨c, hc⟩ := HashMap.exists_lookup ((mem_crdts_iff hlists hrep h).mpr ha)
  exact ⟨c, AList.mem_lookup_iff.mp hc⟩

/-- Rejections of different winners differ in account or nonce. -/
theorem nodup_filterMap {β : Type} {f : Entry → Option β} {g : β → Key}
    (hkey : ∀ e x, f e = some x → g x = e.key) (hlists : Lists all ws) :
    ((ws.map Block.entry).filterMap f).Nodup := by
  have hpair : (ws.map Block.entry).Pairwise fun e e' ↦ e.key ≠ e'.key := by
    rw [List.pairwise_map]
    exact List.pairwise_map.mp hlists.nodup
  refine List.pairwise_filterMap.mpr (hpair.imp fun hne x hx x' hx' heq ↦ hne ?_)
  rw [← hkey _ _ hx, ← hkey _ _ hx', heq]

theorem key_of_rejectReceive {W : Finset Entry} {e : Entry} {x : RejectedReceive}
    (h : rejectReceive W e = some x) : (x.account, x.nonce) = e.key := by
  rw [rejectReceive] at h
  split at h
  · split at h
    · simp at h
    · rw [← Option.some_inj.mp h, Entry.key]
  · simp at h

theorem key_of_rejectGenesis {e : Entry} {x : RejectedGenesis} (h : rejectGenesis e = some x) :
    (x.account, x.nonce) = e.key := by
  rw [rejectGenesis] at h
  split at h
  · rw [← Option.some_inj.mp h, Entry.key]
  · simp at h

theorem settles_of_tracks (hlists : Lists all ws) (hrep : Represents all E)
    (h : Tracks (winners E) (ws.map Block.entry) st) (hslice : Sliceable (winners E))
    {es : List (Σ _ : String, PNCounter)} (hes : es.Perm st.crdts.entries)
    {conflicts : List ResolvedConflict}
    (hconflicts : ∀ x, x ∈ conflicts ↔ ∃ w ∈ winners E, conflictOf E w = some x)
    (hnodup : conflicts.Nodup) :
    Settles E {
      balances := insertAll ∅ (es.map fun e ↦ (e.1, e.2.value))
      conflicts := conflicts
      rejectedReceives := st.rejectedReceives
      rejectedGenesis := st.rejectedGenesis } where
  balances := fun a ↦ by
    -- the accounts are those with a counter, and the order in which they come does not matter
    have hkeys : ((es.map fun e ↦ (e.1, e.2.value)).map Prod.fst).Nodup := by
      rw [List.map_map]
      exact ((hes.map _).nodup_iff).mpr st.crdts.nodupKeys
    refine Option.ext fun v ↦ ?_
    rw [lookup_insertAll_empty hkeys, List.mem_map]
    constructor
    · rintro ⟨⟨a', c⟩, he, heq⟩
      obtain ⟨rfl, rfl⟩ := Prod.mk.inj heq
      have hc : st.crdts.lookup a' = some c := AList.mem_lookup_iff.mpr (hes.subset he)
      rw [if_pos ((mem_crdts_iff hlists hrep h).mp (HashMap.mem_of_lookup hc)),
        value_eq_balance hlists hrep h hslice hc]
    · intro hv
      split at hv
      · rename_i ha
        obtain ⟨c, hc⟩ := HashMap.exists_lookup ((mem_crdts_iff hlists hrep h).mpr ha)
        refine ⟨⟨a, c⟩, hes.symm.subset (AList.mem_lookup_iff.mp hc), ?_⟩
        rw [value_eq_balance hlists hrep h hslice hc, Option.some_inj.mp hv]
      · simp at hv
  conflicts := hconflicts
  nodup_conflicts := hnodup
  rejectedReceives := fun x ↦ by
    rw [h.receives, List.mem_filterMap]
    simp only [hlists.mem_map_entry hrep]
  nodup_receives := by
    rw [h.receives]
    exact nodup_filterMap (fun e x ↦ key_of_rejectReceive) hlists
  rejectedGenesis := fun x ↦ by
    rw [h.genesis, List.mem_filterMap]
    simp only [hlists.mem_map_entry hrep]
  nodup_genesis := by
    rw [h.genesis]
    exact nodup_filterMap (fun e x ↦ key_of_rejectGenesis) hlists

end Final

/-! ## The stages of the call -/

section Stages

variable (σ : Orders) (blocks : List Block)

/-- The groups as the call iterates them. -/
def groupsIn : List (Σ _ : Key, List Block) :=
  σ.byKey.arrange (group key (firsts Block.hash blocks ∅)).entries

/-- The map of winners that it builds from them. -/
def winnersIn : HashMap Key Block := insertAll ∅ ((groupsIn σ blocks).filterMap winnerOf)

/-- The winners in the order in which it applies them. -/
def winningBlocks : List Block :=
  (sortBy keyOrder ((groupsIn σ blocks).map fun e ↦ e.1)).filterMap (winnersIn σ blocks).lookup

/-- The counters and the rejections that it ends with: `none` is a panic. -/
def appliedIn : Option Applied :=
  (winningBlocks σ blocks).foldlM
    (applyBlock (indexSends (σ.winners.arrange (winnersIn σ blocks).entries))) ⟨∅, [], []⟩

theorem groupsIn_perm :
    (groupsIn σ blocks).Perm (group key (firsts Block.hash blocks ∅)).entries :=
  σ.byKey.arrange_perm _

theorem represents_entries : Represents (firsts Block.hash blocks ∅) (entries blocks) := fun e ↦ by
  rw [entries, List.mem_toFinset, List.mem_map]

theorem lookup_winnersIn {k : Key} {b : Block} :
    (winnersIn σ blocks).lookup k = some b ↔ Wins (firsts Block.hash blocks ∅) b ∧ key b = k :=
  lookup_winners (nodup_map_firsts _ _ _) (groupsIn_perm σ blocks)

theorem lists_winningBlocks : Lists (firsts Block.hash blocks ∅) (winningBlocks σ blocks) :=
  (lists_of_keys (groupsIn_perm σ blocks) (fun _ _ ↦ lookup_winnersIn σ blocks)
    (sortBy_perm keyOrder _)).2

/-- **The call** goes through its stages. -/
theorem exec_reconcilePartitions (partitionA partitionB : List Block) :
    (reconcilePartitions σ partitionA partitionB).exec =
      (appliedIn σ (partitionA ++ partitionB)).map fun st ↦
        (materialize (σ.crdts.arrange st.crdts.entries) ∅).map fun balances ↦ {
          balances := balances
          conflicts := (groupsIn σ (partitionA ++ partitionB)).flatMap clash
          rejectedReceives := st.rejectedReceives
          rejectedGenesis := st.rejectedGenesis } := by
  set blocks := partitionA ++ partitionB
  have hperm := groupsIn_perm σ blocks
  have hpick : pickWinners (groupsIn σ blocks) =
      some ⟨winnersIn σ blocks, (groupsIn σ blocks).flatMap clash⟩ :=
    foldlM_pickWinner (fun e he ↦ ((mem_groups hperm).mp he).2) ⟨∅, []⟩
  have hsome := (lists_of_keys hperm (fun _ _ ↦ lookup_winnersIn σ blocks)
    (sortBy_perm keyOrder _)).1
  have hfold : (sortBy keyOrder ((groupsIn σ blocks).map fun e ↦ e.1)).foldlM
      (applyKey (winnersIn σ blocks)
        (indexSends (σ.winners.arrange (winnersIn σ blocks).entries))) ⟨∅, [], []⟩ =
      appliedIn σ blocks := foldlM_applyKey hsome _ _
  rw [reconcilePartitions, ← groupsIn, Fallible.exec_some hpick]
  dsimp only
  -- what is left can fail in the loop, by a panic, and where the balances are written down
  rw [hfold]
  rcases appliedIn σ blocks with _ | st
  · rw [Fallible.exec_bind, Fallible.exec_orPanic]
    rfl
  · rw [Fallible.exec_some rfl, Option.map_some]
    rcases materialize (σ.crdts.arrange st.crdts.entries) ∅ with e | balances
    · rw [Fallible.exec_bind_error (Fallible.exec_ofExcept _)]
      rfl
    · rw [Fallible.exec_check_ok rfl, Fallible.exec_pure]
      rfl

/-- **The loop** applies the winners, or there is an account that cannot be sliced. -/
theorem appliedIn_cases :
    (∃ st, appliedIn σ blocks = some st ∧
        Tracks (winners (entries blocks)) ((winningBlocks σ blocks).map Block.entry) st) ∧
      Sliceable (winners (entries blocks)) ∨
    appliedIn σ blocks = none ∧ ¬ Sliceable (winners (entries blocks)) := by
  have hrep := represents_entries blocks
  have hlists := lists_winningBlocks σ blocks
  have hindex := indexes_indexSends hrep (nodup_map_firsts _ _ _)
    (lists_of_perm_entries (fun _ _ ↦ lookup_winnersIn σ blocks)
      (σ.winners.arrange_perm (winnersIn σ blocks).entries))
  have hrun := Tracks.run hindex (winningBlocks σ blocks) (Tracks.start (winners (entries blocks)))
  rw [← appliedIn, List.nil_append] at hrun
  refine hrun.imp (fun ⟨hst, hall⟩ ↦ ⟨hst, fun a ha ↦ ?_⟩) (fun ⟨hst, hbad⟩ ↦ ⟨hst, ?_⟩)
  · -- every account with a balance belongs to a block of the loop
    obtain ⟨e, he, rfl⟩ := Finset.mem_image.mp ha
    obtain ⟨he, htouch⟩ := Finset.mem_filter.mp he
    obtain ⟨b, hb, rfl⟩ := List.mem_map.mp ((hlists.mem_map_entry hrep).mpr he)
    exact hall b hb htouch
  · obtain ⟨b, hb, htouch, hnone⟩ := hbad
    intro hslice
    have hmem : b.entry ∈ winners (entries blocks) :=
      (hlists.mem_map_entry hrep).mp (List.mem_map.mpr ⟨b, hb, rfl⟩)
    have hsome := hslice b.account (Finset.mem_image.mpr
      ⟨b.entry, Finset.mem_filter.mpr ⟨hmem, htouch⟩, rfl⟩)
    rw [hnone] at hsome
    simp at hsome

end Stages

/-! ## The call -/

/-- **Refinement.** In every iteration order the call settles the entries of the partitions. -/
theorem outcome_reconcilePartitions (σ : Orders) (partitionA partitionB : List Block) :
    Outcome (entries (partitionA ++ partitionB))
      (reconcilePartitions σ partitionA partitionB).exec := by
  rw [exec_reconcilePartitions]
  set blocks := partitionA ++ partitionB
  have hrep := represents_entries blocks
  have hlists := lists_winningBlocks σ blocks
  have hperm := groupsIn_perm σ blocks
  have hnodup : ((firsts Block.hash blocks ∅).map Block.hash).Nodup := nodup_map_firsts _ _ _
  rcases appliedIn_cases σ blocks with ⟨⟨st, hst, htracks⟩, hslice⟩ | ⟨hst, hpanic⟩
  swap
  · rw [hst]
    exact .panic hpanic
  rw [hst, Option.map_some]
  have hes := σ.crdts.arrange_perm st.crdts.entries
  by_cases hneg : ∃ e ∈ σ.crdts.arrange st.crdts.entries, e.2.value < 0
  · obtain ⟨e, he, hlt, herror⟩ := materialize_error hneg ∅
    obtain ⟨ha, hbalance⟩ := balance_of_mem_crdts hlists hrep htracks hslice (hes.subset he)
    rw [herror, hbalance]
    exact .insolvent hslice e.1 ha (hbalance ▸ hlt)
  · push Not at hneg
    rw [materialize_ok hneg]
    refine .settled hslice (fun a ha ↦ ?_) _ (settles_of_tracks hlists hrep htracks hslice hes
      (fun x ↦ mem_flatMap_clash hrep hnodup hperm) (nodup_flatMap_clash hperm))
    -- an account that counts has a counter, which is not negative
    obtain ⟨c, hc⟩ := exists_mem_crdts hlists hrep htracks ha
    exact (balance_of_mem_crdts hlists hrep htracks hslice hc).2 ▸ hneg _ (hes.symm.subset hc)

/-- The call panics exactly when an account that gets a counter cannot be sliced. -/
theorem exec_reconcilePartitions_eq_none {σ : Orders} {partitionA partitionB : List Block} :
    (reconcilePartitions σ partitionA partitionB).exec = none ↔
      ¬ Sliceable (winners (entries (partitionA ++ partitionB))) := by
  have houtcome := outcome_reconcilePartitions σ partitionA partitionB
  generalize (reconcilePartitions σ partitionA partitionB).exec = o at *
  cases houtcome with
  | panic h => exact iff_of_true rfl h
  | insolvent h => exact iff_of_false (by simp) (not_not_intro h)
  | settled h => exact iff_of_false (by simp) (not_not_intro h)

/-- A call that neither panics nor finds an account below zero reports the settlement. -/
theorem exists_settles {partitionA partitionB : List Block}
    (hslice : Sliceable (winners (entries (partitionA ++ partitionB))))
    (hsolvent : Solvent (winners (entries (partitionA ++ partitionB)))) (σ : Orders) :
    ∃ report, (reconcilePartitions σ partitionA partitionB).exec = some (.ok report) ∧
      Settles (entries (partitionA ++ partitionB)) report := by
  have houtcome := outcome_reconcilePartitions σ partitionA partitionB
  generalize (reconcilePartitions σ partitionA partitionB).exec = o at houtcome
  rcases houtcome with hpanic | ⟨-, a, ha, hneg⟩ | ⟨-, -, report, hreport⟩
  · exact absurd hslice hpanic
  · exact absurd (hsolvent a ha) (not_le.mpr hneg)
  · exact ⟨report, rfl, hreport⟩

/-- An account with a key is 64 single-byte characters. -/
theorem sliceable_of_hashed {K : Crates} {blocks : List Block} (h : ∀ b ∈ blocks, b.Hashed K) :
    Sliceable (winners (entries blocks)) := by
  intro a ha
  obtain ⟨e, he, rfl⟩ := Finset.mem_image.mp ha
  have hentry := winners_subset _ (Finset.mem_filter.mp he).1
  obtain ⟨b, hfind, rfl⟩ := Option.map_eq_some_iff.mp (mem_entries.mp hentry)
  obtain ⟨key, hkey, -⟩ := (h b (List.mem_of_find?_eq_some hfind)).key
  obtain ⟨hlen, hsize⟩ := Crypto.length_of_accountKey hkey
  rw [Block.account_entry, bytePrefix_eq_take hsize (by omega)]
  rfl

/-- **Hashed partitions never panic.** -/
theorem exec_reconcilePartitions_ne_none {K : Crates} {σ : Orders}
    {partitionA partitionB : List Block} (h : ∀ b ∈ partitionA ++ partitionB, b.Hashed K) :
    (reconcilePartitions σ partitionA partitionB).exec ≠ none := by
  rw [ne_eq, exec_reconcilePartitions_eq_none, not_not]
  exact sliceable_of_hashed h

end Reconciliation

end Arxia
