import Arxia.Lattice.Circulation

/-!
# What the accounts have taken in and given out

The balance of an account is a running total: what its own calls have credited, less what they have
debited. The two totals are sums over the calls; `sum_recorded` turns them into sums over the blocks
the calls returned, since a block says which call it answers. Only the amount of a Receive is not on
its block: it is that of the Send whose hash it cites.
-/

namespace Arxia

open Rust Transition AccountChain

namespace Network

variable {ι : Type}

/-- The amount a call has added to the balance of its account. -/
def Event.credit (e : Event ι) : ℕ :=
  match e.op, e.result with
  | .open v, .ok _ => v.toNat
  | .receive c, .ok _ => c.sentAmount
  | _, _ => 0

/-- The amount a call has taken from the balance of its account. -/
def Event.debit (e : Event ι) : ℕ :=
  match e.op, e.result with
  | .send _ v, .ok _ => v.toNat
  | _, _ => 0

/-- A refused call moves nothing. -/
theorem Event.credit_debit_of_error {e : Event ι} {err : ArxiaError} (h : e.result = .error err) :
    e.credit = 0 ∧ e.debit = 0 := by
  obtain ⟨i, timestamp, op, result⟩ := e
  subst h
  rcases op with _ | _ | _ <;> exact ⟨rfl, rfl⟩

/-- The amounts of the calls one account has made. -/
def cumulative [DecidableEq ι] (amount : Event ι → ℕ) (i : ι) (tr : List (Event ι)) : ℕ :=
  ((tr.filter fun e ↦ e.account = i).map amount).sum

section Cumulative

variable [DecidableEq ι] (amount : Event ι → ℕ)

theorem cumulative_concat_self (tr : List (Event ι)) (e : Event ι) :
    cumulative amount e.account (tr ++ [e]) = cumulative amount e.account tr + amount e := by
  rw [cumulative, List.filter_append, List.filter_singleton]
  simp [cumulative]

theorem cumulative_concat_of_ne {i : ι} (tr : List (Event ι)) {e : Event ι} (h : e.account ≠ i) :
    cumulative amount i (tr ++ [e]) = cumulative amount i tr := by
  rw [cumulative, List.filter_append, List.filter_singleton]
  simp [cumulative, h]

/-- **From calls to blocks**: an amount that each returned block shows adds up over the blocks. -/
theorem sum_recorded {i : ι} {tr : List (Event ι)} {g : Block → ℕ}
    (hok : ∀ e ∈ tr, e.account = i → ∀ b, e.result = .ok b → g b = amount e)
    (herror : ∀ e ∈ tr, ∀ err, e.result = .error err → amount e = 0) :
    ((tr.filterMap (Event.recorded i)).map g).sum = cumulative amount i tr := by
  induction tr using List.reverseRecOn with
  | nil => rfl
  | append_singleton tr e ih =>
    have hlast : e ∈ tr ++ [e] := List.mem_append_right _ (List.mem_singleton_self e)
    have ih := ih (fun d hd ↦ hok d (List.mem_append_left _ hd))
      (fun d hd ↦ herror d (List.mem_append_left _ hd))
    rw [filterMap_concat, List.map_append, List.sum_append, ih, Event.recorded]
    by_cases hi : e.account = i
    · subst hi
      rw [if_pos rfl, cumulative_concat_self]
      rcases hresult : e.result with err | b
      · rw [herror e hlast err hresult]
        rfl
      · rw [← hok e hlast rfl b hresult]
        simp [Except.toOption]
    · rw [if_neg hi, cumulative_concat_of_ne amount tr hi]
      rfl

end Cumulative

/-! ## Running balances -/

section Run

variable {m : Overflow} {K : Crates} {keys : ι → SigningKey} {tr : List (Event ι)}
  {s s' : State ι} {e : Event ι}

section Valid

variable (hserde : Serde K) (hvalid : ∀ i, (keys i).Valid K)
include hserde hvalid

/-- **One call** moves the balance by what it credits and debits. -/
theorem balance_step (run : (system m K keys).Run tr s) (h : (system m K keys).step s e s') :
    (s'.accounts e.account).balance.toNat + e.debit =
      (s.accounts e.account).balance.toNat + e.credit := by
  rcases hresult : e.result with err | b
  · obtain ⟨hcredit, hdebit⟩ := Event.credit_debit_of_error hresult
    rw [eq_of_error hserde hvalid run h hresult, hcredit, hdebit]
  · obtain ⟨hpermits, hrec, hwrites⟩ := step_ok h hresult
    rw [hrec.balance, Event.credit, Event.debit, hresult]
    rcases hop : e.op with v | ⟨d, v⟩ | c <;> rw [hop] at hpermits hwrites
    · -- an account that can be opened has nothing
      rcases hpermits with ⟨hempty, -⟩
      rw [hwrites.of_open.2.2.1, ((sound_of_run hserde hvalid run _).fresh hempty).1,
        UInt64.toNat_zero, Nat.add_comm]
    · exact hwrites.of_send.2.2.1
    · obtain ⟨v, hsend, -, -⟩ := hpermits.of_receive
      rw [(hwrites.of_receive hsend).2.2.1, ← Block.sentAmount_of_send hsend]
      rfl

/-- **The balance of an account is what it has taken in, less what it has given out.** -/
theorem balance_of_run [DecidableEq ι] (run : (system m K keys).Run tr s) (i : ι) :
    (s.accounts i).balance.toNat + cumulative Event.debit i tr =
      cumulative Event.credit i tr := by
  induction run with
  | start h =>
    rw [h.1 i]
    rfl
  | @step tr s s' e run h ih =>
    by_cases hi : e.account = i
    · subst hi
      have hstep := balance_step hserde hvalid run h
      rw [cumulative_concat_self, cumulative_concat_self]
      omega
    · rw [cumulative_concat_of_ne _ tr hi, cumulative_concat_of_ne _ tr hi,
        h.2.2.1 i (Ne.symm hi), ih]

/-! ## Names and numbers -/

/-- **Account and nonce identify a block**: no two blocks of the network share both. -/
theorem eq_of_account_nonce (hkeys : Function.Injective fun i ↦ (keys i).verifyingKey)
    (run : (system m K keys).Run tr s) {i j : ι} {b c : Block}
    (hb : b ∈ (s.accounts i).chain.toList) (hc : c ∈ (s.accounts j).chain.toList)
    (haccount : b.account = c.account) (hnonce : b.nonce = c.nonce) : b = c := by
  have hsound := sound_of_run hserde hvalid run
  rw [((hsound i).own b hb).1, ((hsound j).own c hc).1] at haccount
  obtain rfl : i = j := (publicKeyHex_inj hserde hvalid hkeys run).mp haccount
  exact List.inj_on_of_nodup_map (hsound i).continuous.nodup_nonce hb hc hnonce

end Valid

/-! ## What a block says -/

/-- The block answers the call: of the Send a Receive is given, it keeps the hash. -/
inductive Answers (sends : List Block) (b : Block) : Op → Prop
  | open {v : UInt64} (htype : b.blockType = .open v) (hnonce : b.nonce = 1) :
      Answers sends b (.open v)
  | send {d : String} {v : UInt64} (htype : b.blockType = .send d v) : Answers sends b (.send d v)
  | receive {c : Block} {v : UInt64} (htype : b.blockType = .receive c.hash) (hfed : c ∈ sends)
      (hsend : c.blockType = .send b.account v) : Answers sends b (.receive c)

theorem Answers.mono {sends sends' : List Block} {b : Block} {op : Op} (h : Answers sends b op)
    (hsub : ∀ c ∈ sends, c ∈ sends') : Answers sends' b op := by
  rcases h with ⟨htype, hnonce⟩ | htype | ⟨htype, hfed, hsend⟩
  · exact .open htype hnonce
  · exact .send htype
  · exact .receive htype (hsub _ hfed) hsend

theorem answers_step (h : (system m K keys).step s e s') {b : Block} (hresult : e.result = .ok b) :
    Answers s.sends b e.op := by
  obtain ⟨hpermits, hrec, hwrites⟩ := step_ok h hresult
  rcases hop : e.op with v | ⟨d, v⟩ | c <;> rw [hop] at hpermits hwrites
  · exact .open hwrites.of_open.1 hwrites.of_open.2.2.2.1
  · exact .send hwrites.of_send.1
  · obtain ⟨v, hsend, -, -⟩ := hpermits.of_receive
    refine @Answers.receive _ _ c v (hwrites.of_receive hsend).1 (h.1 c hop) ?_
    rw [hsend, hrec.account]

/-- **Every block answers the call that returned it.** -/
theorem answers_of_run (run : (system m K keys).Run tr s) :
    ∀ e ∈ tr, ∀ b, e.result = .ok b → Answers s.sends b e.op := by
  induction run with
  | start h => exact fun e he ↦ absurd he List.not_mem_nil
  | @step tr s s' e run h ih =>
    intro e' he' b hresult
    have hsub : ∀ c ∈ s.sends, c ∈ s'.sends := fun c hc ↦ by
      rw [h.2.2.2]
      exact List.mem_append_left _ hc
    rcases List.mem_append.mp he' with he' | he'
    · exact (ih e' he' b hresult).mono hsub
    · obtain rfl := List.mem_singleton.mp he'
      exact (answers_step h hresult).mono hsub

end Run

end Network

end Arxia
