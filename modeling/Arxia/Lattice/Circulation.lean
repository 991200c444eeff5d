import Arxia.Lattice.ReferenceNetwork
import Arxia.Lattice.Supply

/-!
# Circulation

What the opens have created is in the balances or on its way: the balances of all accounts and the
sends nobody has received add up to it, in every run and whatever the accounts are given to receive.
An account keeps the hashes of the blocks it has received, and a send is meant for one account only,
so remembering per account is enough to credit every send once in the whole network.

None of this looks at the hash function. If two sends had one hash the second could not be received,
and would stay on its way.
-/

namespace Arxia

open Rust Transition AccountChain

namespace Network

variable {ι : Type}

/-- The amount a call has created. -/
def Event.opened (e : Event ι) : Option UInt64 :=
  match e.op, e.result with
  | .open v, .ok _ => some v
  | _, _ => none

/-- What the opens of a run have created. -/
def created (tr : List (Event ι)) : ℕ := ((tr.filterMap Event.opened).map UInt64.toNat).sum

/-- The sends that have been received. -/
def credited (tr : List (Event ι)) : List Block := tr.filterMap Event.received

/-- The sends nobody has received. -/
def pending (tr : List (Event ι)) : Finset Block :=
  (tr.filterMap Event.sent).toFinset \ (credited tr).toFinset

/-- Money is conserved, and every send is credited once. -/
structure Circulates (K : Crates) [Fintype ι] (tr : List (Event ι)) (s : State ι) : Prop where
  conserved : ∑ i, (s.accounts i).balance.toNat + ∑ b ∈ pending tr, b.sentAmount = created tr
  distinct : (tr.filterMap Event.sent).Nodup
  once : (credited tr).Nodup
  cap : ∀ i, (s.accounts i).balance.toNat ≤ MAX_INITIAL_BALANCE_PER_ACCOUNT.toNat
  exact : ∀ i timestamp op vclock,
    (perform .panics K timestamp op).exec ⟨s.accounts i, vclock⟩ =
      (perform .wraps K timestamp op).exec ⟨s.accounts i, vclock⟩

/-! ## Events -/

theorem Event.opened_eq_none {e : Event ι} (h : ∀ v, e.op ≠ .open v) : e.opened = none := by
  obtain ⟨i, timestamp, op, result⟩ := e
  rcases op with v | _ | _
  · exact absurd rfl (h v)
  · rfl
  · rfl

/-- A refused call has created, sent and received nothing. -/
theorem Event.eq_none_of_error {e : Event ι} {err : ArxiaError} (h : e.result = .error err) :
    e.opened = none ∧ e.sent = none ∧ e.received = none := by
  obtain ⟨i, timestamp, op, result⟩ := e
  subst h
  rcases op with _ | _ | _ <;> exact ⟨rfl, rfl, rfl⟩

theorem created_concat (tr : List (Event ι)) (e : Event ι) :
    created (tr ++ [e]) = created tr + (e.opened.map UInt64.toNat).getD 0 := by
  rw [created, filterMap_concat, List.map_append, List.sum_append, created]
  rcases e.opened with _ | v
  · rfl
  · simp

theorem pending_concat (tr : List (Event ι)) (e : Event ι) :
    pending (tr ++ [e]) = ((tr.filterMap Event.sent).toFinset ∪ e.sent.toList.toFinset) \
      ((credited tr).toFinset ∪ e.received.toList.toFinset) := by
  rw [pending, credited, filterMap_concat, filterMap_concat, List.toFinset_append,
    List.toFinset_append, credited]

theorem pending_concat_of_none {tr : List (Event ι)} {e : Event ι} (hsent : e.sent = none)
    (hreceived : e.received = none) : pending (tr ++ [e]) = pending tr := by
  rw [pending_concat, hsent, hreceived, Option.toList_none, List.toFinset_nil, Finset.union_empty,
    Finset.union_empty, pending]

section Run

variable {m : Overflow} {K : Crates} {keys : ι → SigningKey} {tr : List (Event ι)}
  {s s' : State ι} {e : Event ι}

/-- Only the balance of the caller moves. -/
theorem sum_balance_step [Fintype ι] (h : (system m K keys).step s e s') :
    ∑ i, (s'.accounts i).balance.toNat + (s.accounts e.account).balance.toNat =
      ∑ i, (s.accounts i).balance.toNat + (s'.accounts e.account).balance.toNat := by
  classical
  have hrest : ∑ i ∈ Finset.univ.erase e.account, (s'.accounts i).balance.toNat =
      ∑ i ∈ Finset.univ.erase e.account, (s.accounts i).balance.toNat :=
    Finset.sum_congr rfl fun i hi ↦ by rw [h.2.2.1 i (Finset.ne_of_mem_erase hi)]
  rw [← Finset.add_sum_erase _ _ (Finset.mem_univ e.account), hrest,
    ← Finset.add_sum_erase _ (fun i ↦ (s.accounts i).balance.toNat) (Finset.mem_univ e.account)]
  omega

theorem pending_concat_of_send {b : Block} (hsent : e.sent = some b)
    (hreceived : e.received = none) (hnew : b ∉ tr.filterMap Event.sent)
    (hcredited : b ∉ credited tr) :
    ∑ c ∈ pending (tr ++ [e]), c.sentAmount = b.sentAmount + ∑ c ∈ pending tr, c.sentAmount := by
  have hset : pending (tr ++ [e]) = insert b (pending tr) := by
    have hb : b ∉ (credited tr).toFinset := by rwa [List.mem_toFinset]
    rw [pending_concat, hsent, hreceived, Option.toList_some, Option.toList_none,
      List.toFinset_cons, List.toFinset_nil, Finset.union_insert, Finset.union_empty,
      Finset.union_empty, Finset.insert_sdiff_of_notMem _ hb, pending]
  rw [hset, Finset.sum_insert]
  rw [pending, Finset.mem_sdiff, List.mem_toFinset]
  exact fun hb ↦ hnew hb.1

theorem pending_concat_of_receive {c : Block} (hsent : e.sent = none)
    (hreceived : e.received = some c) (hmem : c ∈ tr.filterMap Event.sent)
    (hfresh : c ∉ credited tr) :
    c.sentAmount + ∑ b ∈ pending (tr ++ [e]), b.sentAmount = ∑ b ∈ pending tr, b.sentAmount := by
  have hset : pending (tr ++ [e]) = (pending tr).erase c := by
    rw [pending_concat, hsent, hreceived, Option.toList_some, Option.toList_none,
      List.toFinset_cons, List.toFinset_nil, Finset.union_insert, Finset.union_empty,
      Finset.union_empty, Finset.sdiff_insert, pending]
  rw [hset, Finset.add_sum_erase]
  rw [pending, Finset.mem_sdiff, List.mem_toFinset, List.mem_toFinset]
  exact ⟨hmem, hfresh⟩

section Valid

variable (hserde : Serde K) (hvalid : ∀ i, (keys i).Valid K)
include hserde hvalid

/-- What was received was sent before, to the account that received it. -/
theorem sent_of_received (run : (system m K keys).Run tr s) :
    ∀ e ∈ tr, ∀ c, e.received = some c → c ∈ s.sends ∧
      ∃ v, c.blockType = .send (Hex.encode (keys e.account).verifyingKey.toList) v := by
  induction run with
  | start h => exact fun e he ↦ absurd he List.not_mem_nil
  | @step tr s s' e run h ih =>
    intro e' he' c hc
    rw [h.2.2.2]
    rcases List.mem_append.mp he' with he' | he'
    · obtain ⟨hmem, hsend⟩ := ih e' he' c hc
      exact ⟨List.mem_append_left _ hmem, hsend⟩
    · obtain rfl := List.mem_singleton.mp he'
      obtain ⟨hop, b, hresult⟩ := Event.received_eq_some.mp hc
      have hpermits := (step_ok h hresult).1
      rw [hop] at hpermits
      obtain ⟨v, hsend, -, -⟩ := hpermits.of_receive
      rw [key_of_run hserde hvalid run] at hsend
      exact ⟨List.mem_append_left _ (h.1 c hop), v, hsend⟩

variable (hkeys : Function.Injective fun i ↦ (keys i).verifyingKey)
include hkeys

/-- The recorded block was not sent before. -/
theorem notMem_sends (run : (system m K keys).Run tr s)
    {i : ι} {b : Block} (haccount : b.account = (s.accounts i).publicKeyHex)
    (hnonce : b.nonce.toNat = (s.accounts i).chain.toList.length + 1) : b ∉ s.sends := by
  intro hb
  obtain ⟨j, hj, -⟩ := exists_sender hserde hvalid run b hb
  have hsound := sound_of_run hserde hvalid run j
  obtain rfl : i = j := (publicKeyHex_inj hserde hvalid hkeys run).mp
    (haccount.symm.trans (hsound.own b hj).1)
  have := hsound.nonce_le hj
  omega

theorem nodup_sends (run : (system m K keys).Run tr s) :
    s.sends.Nodup := by
  induction run with
  | start h =>
    rw [h.2]
    exact List.nodup_nil
  | @step tr s s' e run h ih =>
    rw [h.2.2.2]
    rcases hsent : e.sent with _ | b
    · rwa [Option.toList_none, List.append_nil]
    · obtain ⟨-, hresult⟩ := Event.sent_eq_some.mp hsent
      obtain ⟨hpermits, hrec, hwrites⟩ := step_ok h hresult
      have hnonce := (sound_of_run hserde hvalid run e.account).nonce_next hpermits hwrites
      rw [Option.toList_some, ← List.concat_eq_append, List.nodup_concat]
      exact ⟨notMem_sends hserde hvalid hkeys run hrec.account hnonce, ih⟩

/-- What an account may still receive, nobody has received. -/
theorem notMem_credited (run : (system m K keys).Run tr s)
    {i : ι} {c : Block} (hpermits : Permits (s.accounts i) (.receive c)) : c ∉ credited tr := by
  intro hc
  obtain ⟨v, hsend, hfresh, -⟩ := hpermits.of_receive
  obtain ⟨e, he, hreceived⟩ := List.mem_filterMap.mp hc
  obtain ⟨-, v', hsend'⟩ := sent_of_received hserde hvalid run e he c hreceived
  rw [hsend, ← key_of_run hserde hvalid run] at hsend'
  obtain rfl : i = e.account :=
    (publicKeyHex_inj hserde hvalid hkeys run).mp (BlockType.send.inj hsend').1
  exact hfresh ((consumed_of_run hserde hvalid run _ _).mpr ⟨e, he, rfl, c, hreceived, rfl⟩)

theorem nodup_credited (run : (system m K keys).Run tr s) :
    (credited tr).Nodup := by
  induction run with
  | start h => exact List.nodup_nil
  | @step tr s s' e run h ih =>
    rw [credited, filterMap_concat]
    rcases hreceived : e.received with _ | c
    · rwa [Option.toList_none, List.append_nil]
    · obtain ⟨hop, b, hresult⟩ := Event.received_eq_some.mp hreceived
      have hpermits := (step_ok h hresult).1
      rw [hop] at hpermits
      rw [Option.toList_some, ← List.concat_eq_append, List.nodup_concat]
      exact ⟨notMem_credited hserde hvalid hkeys run hpermits, ih⟩

/-! ## Conservation -/

/-- **One call** moves balances, sends in flight and what was created in step. -/
theorem conserved_step (run : (system m K keys).Run tr s)
    (h : (system m K keys).step s e s') {b : Block} (hresult : e.result = .ok b) :
    (s'.accounts e.account).balance.toNat + ∑ c ∈ pending (tr ++ [e]), c.sentAmount +
        created tr =
      (s.accounts e.account).balance.toNat + ∑ c ∈ pending tr, c.sentAmount +
        created (tr ++ [e]) := by
  have hsound := sound_of_run hserde hvalid run e.account
  obtain ⟨hpermits, hrec, hwrites⟩ := step_ok h hresult
  have hnonce := hsound.nonce_next hpermits hwrites
  have hsends : ∀ c, c ∈ tr.filterMap Event.sent ↔ c ∈ s.sends := fun c ↦ by
    rw [sends_of_run run]
  rw [hrec.balance, created_concat]
  rcases hop : e.op with v | ⟨d, v⟩ | c <;> rw [hop] at hpermits hwrites
  · -- an account that can be opened has nothing
    obtain ⟨-, -, hbalance, -, -⟩ := hwrites.of_open
    rcases hpermits with ⟨hempty, -⟩
    have hopened : e.opened = some v := by rw [Event.opened, hop, hresult]
    rw [pending_concat_of_none (Event.sent_eq_none (by simp [hop]))
      (Event.received_eq_none (by simp [hop])), hopened, (hsound.fresh hempty).1, hbalance]
    simp only [Option.map_some, Option.getD_some, UInt64.toNat_zero]
    omega
  · -- what leaves the balance is in flight
    obtain ⟨htype, -, hbalance, -, -⟩ := hwrites.of_send
    have hnew := notMem_sends hserde hvalid hkeys run hrec.account hnonce
    have hsent : e.sent = some b := Event.sent_eq_some.mpr ⟨⟨d, v, hop⟩, hresult⟩
    rw [Event.opened_eq_none (by simp [hop]), pending_concat_of_send hsent
      (Event.received_eq_none (by simp [hop])) (by rwa [hsends]) ?_,
      Block.sentAmount_of_send htype, ← hbalance]
    · simp only [Option.map_none, Option.getD_none]
      omega
    · intro hb
      obtain ⟨e', he', hreceived⟩ := List.mem_filterMap.mp hb
      exact hnew (sent_of_received hserde hvalid run e' he' b hreceived).1
  · -- what is credited was in flight, and is no longer
    obtain ⟨v, hsend, -, -⟩ := hpermits.of_receive
    obtain ⟨-, -, hbalance, -, -⟩ := hwrites.of_receive hsend
    have hreceived : e.received = some c := Event.received_eq_some.mpr ⟨hop, b, hresult⟩
    rw [Event.opened_eq_none (by simp [hop]), hbalance, ← Block.sentAmount_of_send hsend,
      ← pending_concat_of_receive (Event.sent_eq_none (by simp [hop])) hreceived
        ((hsends c).mpr (h.1 c hop)) (notMem_credited hserde hvalid hkeys run hpermits)]
    simp only [Option.map_none, Option.getD_none]
    omega

theorem sum_balance_of_run [Fintype ι] (run : (system m K keys).Run tr s) :
    ∑ i, (s.accounts i).balance.toNat + ∑ b ∈ pending tr, b.sentAmount = created tr := by
  induction run with
  | @start s h =>
    have hzero : ∀ i, (s.accounts i).balance.toNat = 0 := fun i ↦ by
      rw [h.1 i]
      rfl
    rw [Finset.sum_congr rfl fun i _ ↦ hzero i, Finset.sum_const_zero]
    rfl
  | @step tr s s' e run h ih =>
    rcases hresult : e.result with err | b
    · obtain ⟨hopened, hsent, hreceived⟩ := Event.eq_none_of_error hresult
      rw [eq_of_error hserde hvalid run h hresult, pending_concat_of_none hsent hreceived, ih,
        created_concat, hopened]
      rfl
    · have hsum := sum_balance_step h
      have hstep := conserved_step hserde hvalid hkeys run h hresult
      omega

end Valid

/-- **Every run circulates.** -/
theorem circulates_of_run [Fintype ι] (hserde : Serde K) (hvalid : ∀ i, (keys i).Valid K)
    (hkeys : Function.Injective fun i ↦ (keys i).verifyingKey) (run : (system m K keys).Run tr s) :
    Circulates K tr s where
  conserved := sum_balance_of_run hserde hvalid hkeys run
  distinct := by
    rw [← sends_of_run run]
    exact nodup_sends hserde hvalid hkeys run
  once := nodup_credited hserde hvalid hkeys run
  cap := fun i ↦ (sound_of_run hserde hvalid run i).cap
  exact := fun i _ _ _ ↦ exec_perform_profile (sound_of_run hserde hvalid run i).nonce_lt

theorem circulates_paid : ∃ s,
    (system .panics Reference.serde Reference.keys).Run Reference.paid s ∧
      Circulates Reference.serde Reference.paid s := by
  obtain ⟨s, run⟩ := Reference.run_paid
  exact ⟨s, run, circulates_of_run Reference.serde_serde Reference.valid_keys
    Reference.injective_keys run⟩

end Run

end Network

end Arxia
