import Arxia.Lattice.AccountChain
import Arxia.Transition.Runs

/-!
# Accounts that pay each other

Any number of accounts, each owned by its key, that call `open`, `send` and `receive` in any order.
A `receive` is only given blocks that some `send` has returned before; it may be given one twice, or
one that is meant for somebody else. The vector clock a call is passed is arbitrary, and so is the
time it reads.

`Sound` is what holds of every account in every run, whatever the others do: the chain is linked and
verified from its first block on, and the counters agree with its last block. It does not say that
the first block is an Open, and that is not so in every run.
-/

namespace Arxia

open Rust Transition

namespace Network

open AccountChain

/-- One call: who makes it and when, what is asked and what is answered. -/
structure Event (ι : Type) where
  account : ι
  timestamp : UInt64
  op : Op
  result : Except ArxiaError Block

/-- The block a call returned, for a successful `send`. -/
def Event.sent {ι : Type} (e : Event ι) : Option Block :=
  match e.op, e.result with
  | .send _ _, .ok b => some b
  | _, _ => none

/-- The accounts, and the blocks their sends have returned so far. -/
structure State (ι : Type) where
  accounts : ι → AccountChain
  sends : List Block

variable {ι : Type}

/-- The accounts of these keys as a transition system. -/
def system (m : Overflow) (K : Crates) (keys : ι → SigningKey) :
    System (State ι) (Event ι) where
  init := fun s ↦ (∀ i, s.accounts i = .new (keys i)) ∧ s.sends = []
  step := fun s e s' ↦
    (∀ c, e.op = .receive c → c ∈ s.sends) ∧
    (∃ vclock vclock', (perform m K e.timestamp e.op).exec ⟨s.accounts e.account, vclock⟩ =
      some (e.result, ⟨s'.accounts e.account, vclock'⟩)) ∧
    (∀ i, i ≠ e.account → s'.accounts i = s.accounts i) ∧
    s'.sends = s.sends ++ e.sent.toList

end Network

/-! ## Sound accounts -/

namespace AccountChain

/-- What holds of an account of this key in every run. -/
structure Sound (K : Crates) (key : SigningKey) (a : AccountChain) : Prop where
  key : a.signingKey = key
  pair : a.KeyPair
  length : a.nonce.toNat = a.chain.toList.length
  fresh : a.chain.toList = [] → a.balance = 0 ∧ a.consumedSources = ∅
  last : ∀ b, a.chain.toList.getLast? = some b → b.nonce = a.nonce ∧ b.balance = a.balance
  cap : a.balance.toNat ≤ MAX_INITIAL_BALANCE_PER_ACCOUNT.toNat
  own : ∀ b ∈ a.chain.toList, b.account = a.publicKeyHex ∧ Verified K b
  continuous : Continuous a.chain.toList

theorem sound_new (K : Crates) (key : SigningKey) : Sound K key (new key) where
  key := rfl
  pair := keyPair_new key
  length := rfl
  fresh := fun _ ↦ ⟨rfl, rfl⟩
  last := fun b hb ↦ by simp [new] at hb
  cap := Nat.zero_le _
  own := fun b hb ↦ by simp [new] at hb
  continuous := trivial

section Step

variable {m : Overflow} {K : Crates} {key : SigningKey} {timestamp : UInt64} {op : Op}
  {a a' : AccountChain} {b : Block}

/-- A recorded block verifies under the account's own key. -/
theorem Records.verified (hvalid : a.signingKey.Valid K) (hpair : a.KeyPair)
    (h : Records K timestamp a b a') : Verified K b := by
  obtain ⟨bytes, hbytes, hsig⟩ := h.signature
  have hkey : K.accountKey b.account = .ok a.signingKey.verifyingKey :=
    h.account ▸ hpair.accountKey
  rw [Verified, verifyBlock]
  simp only [bind_eq_ok, ensure_eq_ok, mapError_eq_ok, okOr_eq_ok]
  exact ⟨_, Block.computeHash_eq_ok.mpr h.hashed, (), rfl, _, hkey, (), hvalid.strict, _,
    toArray_eq_some.mpr hsig.symm, _, hbytes, hvalid.verifies _⟩

theorem Sound.nonce_lt (h : Sound K key a) : a.nonce.toNat < u64Max := by
  have := a.chain.length_le
  rw [h.length, u64Max]
  rw [isizeMax] at this
  omega

theorem Sound.plus_eq_some (h : Sound K key a) {n : UInt64} (hn : a.nonce.plus m 1 = some n) :
    n.toNat = a.nonce.toNat + 1 := by
  have hle : a.nonce.toNat + (1 : UInt64).toNat ≤ u64Max := h.nonce_lt
  exact (UInt64.plus_eq_some_of_le hle).mp hn

/-- The counters are those of the last block. -/
theorem Sound.counters (h : Sound K key a) :
    a.balance = (a.chain.toList.getLast?.map Block.balance).getD 0 ∧
      a.nonce = (a.chain.toList.getLast?.map Block.nonce).getD 0 := by
  rcases hlast : a.chain.toList.getLast? with _ | last
  · have hnil := List.getLast?_eq_none_iff.mp hlast
    have hlen := h.length
    rw [hnil] at hlen
    exact ⟨(h.fresh hnil).1, UInt64.toNat_inj.mp hlen⟩
  · exact ⟨(h.last last hlast).2.symm, (h.last last hlast).1.symm⟩

/-- The recorded block continues the chain. -/
theorem Sound.links (h : Sound K key a) {sources : Finset String} (hpermits : Permits a op)
    (hwrites : Writes m a b op sources) :
    (a.chain.toList = [] → b.nonce = 1 ∧ b.previous = "") ∧
      ∀ last, a.chain.toList.getLast? = some last → Links last b := by
  -- a send and a receive continue the last block, if there is one
  have hnext : a.nonce.plus m 1 = some b.nonce → b.previous = a.lastHash →
      (a.chain.toList = [] → b.nonce = 1 ∧ b.previous = "") ∧
        ∀ last, a.chain.toList.getLast? = some last → Links last b := by
    intro hnonce hprev
    have hsucc := h.plus_eq_some hnonce
    constructor
    · intro hnil
      rw [h.length, hnil] at hsucc
      rw [hprev, lastHash, hnil]
      exact ⟨UInt64.toNat_inj.mp hsucc, rfl⟩
    · intro last hlast
      rw [Links, hprev, lastHash, hlast, (h.last last hlast).1]
      exact ⟨hsucc, rfl⟩
  cases hwrites with
  | «open» htype hprev hbalance hnonce =>
    rcases hpermits with ⟨hnew, -⟩
    refine ⟨fun _ ↦ ⟨hnonce, hprev⟩, fun last hlast ↦ ?_⟩
    rw [hnew] at hlast
    simp at hlast
  | send htype hprev hbalance hnonce => exact hnext hnonce hprev
  | receive hsend htype hprev hbalance hnonce => exact hnext hnonce hprev

/-- The nonce of the recorded block counts it. -/
theorem Sound.nonce_next (h : Sound K key a) {sources : Finset String} (hpermits : Permits a op)
    (hwrites : Writes m a b op sources) : b.nonce.toNat = a.chain.toList.length + 1 := by
  obtain ⟨hfirst, hlast⟩ := h.links hpermits hwrites
  rcases hl : a.chain.toList.getLast? with _ | last
  · have hnil := List.getLast?_eq_none_iff.mp hl
    rw [hnil, (hfirst hnil).1]
    rfl
  · rw [(hlast last hl).1, (h.last last hl).1, h.length]

theorem Sound.nonce_le (h : Sound K key a) (hb : b ∈ a.chain.toList) :
    b.nonce.toNat ≤ a.chain.toList.length := by
  obtain ⟨i, hi, rfl⟩ := List.mem_iff_getElem.mp hb
  rw [h.continuous.nonce_getElem hi]
  exact hi

/-- No call takes the balance over the cap. -/
theorem Sound.cap_of_writes (h : Sound K key a) {sources : Finset String}
    (hpermits : Permits a op) (hwrites : Writes m a b op sources) :
    b.balance.toNat ≤ MAX_INITIAL_BALANCE_PER_ACCOUNT.toNat := by
  have hcap := h.cap
  cases hwrites with
  | «open» htype hprev hbalance hnonce =>
    rcases hpermits with ⟨-, hle⟩
    exact hbalance ▸ UInt64.le_iff_toNat_le.mp hle
  | send htype hprev hbalance hnonce => omega
  | receive hsend htype hprev hbalance hnonce =>
    rcases hpermits with _ | _ | ⟨hsend', -, hle⟩
    rw [hsend, BlockType.send.injEq] at hsend'
    rw [hbalance, hsend'.2]
    exact hle

/-- **One call** keeps an account with a valid key sound. -/
theorem Sound.step (hserde : Serde K) (hvalid : key.Valid K) {s s' : Session}
    (h : Sound K key s.account) {r : Except ArxiaError Block}
    (hexec : (perform m K timestamp op).exec s = some (r, s')) : Sound K key s'.account := by
  have hvalid : s.account.signingKey.Valid K := h.key ▸ hvalid
  rcases exec_perform_cases hserde h.pair hvalid hexec with
    ⟨b, -, hpermits, hrec, hwrites⟩ | ⟨e, -, -, rfl⟩
  · obtain ⟨hfirst, hlast⟩ := h.links hpermits hwrites
    have hlen := h.nonce_next hpermits hwrites
    have hmem : ∀ c ∈ s'.account.chain.toList, c ∈ s.account.chain.toList ∨ c = b := fun c hc ↦ by
      rwa [hrec.chain, List.mem_append, List.mem_singleton] at hc
    refine ⟨hrec.signingKey.trans h.key, h.pair.of_records hrec, ?_, fun hnil ↦ ?_, fun c hc ↦ ?_,
      ?_, fun c hc ↦ ?_, ?_⟩
    · rw [hrec.nonce, hrec.chain, List.length_append, hlen, List.length_singleton]
    · rw [hrec.chain] at hnil
      simp at hnil
    · rw [hrec.chain, List.getLast?_concat, Option.some_inj] at hc
      rw [hrec.nonce, hrec.balance, hc]
      exact ⟨rfl, rfl⟩
    · rw [hrec.balance]
      exact h.cap_of_writes hpermits hwrites
    · rw [hrec.publicKeyHex]
      rcases hmem c hc with hc | rfl
      · exact h.own c hc
      · exact ⟨hrec.account, hrec.verified hvalid h.pair⟩
    · rw [hrec.chain]
      exact h.continuous.concat hfirst hlast
  · exact h

end Step

end AccountChain

namespace Network

open AccountChain

/-! ## Events -/

section Events

variable {ι : Type} {e : Event ι} {b c : Block}

theorem Event.sent_eq_some :
    e.sent = some b ↔ (∃ d v, e.op = .send d v) ∧ e.result = .ok b := by
  obtain ⟨i, timestamp, op, result⟩ := e
  cases op <;> cases result <;> simp [Event.sent]

theorem Event.sent_eq_none (h : ∀ d v, e.op ≠ .send d v) : e.sent = none := by
  obtain ⟨i, timestamp, op, result⟩ := e
  rcases op with _ | ⟨d, v⟩ | _
  · rfl
  · exact absurd rfl (h d v)
  · rfl

/-- The block a call has received. -/
def Event.received {ι : Type} (e : Event ι) : Option Block :=
  match e.op, e.result with
  | .receive c, .ok _ => some c
  | _, _ => none

theorem Event.received_eq_some :
    e.received = some c ↔ e.op = .receive c ∧ ∃ b, e.result = .ok b := by
  obtain ⟨i, timestamp, op, result⟩ := e
  cases op <;> cases result <;> simp [Event.received]

theorem Event.received_eq_none (h : ∀ c, e.op ≠ .receive c) :
    e.received = none := by
  obtain ⟨i, timestamp, op, result⟩ := e
  rcases op with _ | _ | c
  · rfl
  · rfl
  · exact absurd rfl (h c)

/-- The block a call recorded on the chain of `i`. -/
def Event.recorded [DecidableEq ι] (i : ι) (e : Event ι) : Option Block :=
  if e.account = i then e.result.toOption else none

theorem Event.recorded_eq_some [DecidableEq ι] {i : ι} :
    e.recorded i = some b ↔ e.account = i ∧ e.result = .ok b := by
  rw [Event.recorded]
  rcases e.result with err | c
  · simp [Except.toOption]
  · simp [Except.toOption]

end Events

/-! ## Runs -/

variable {ι : Type} {m : Overflow} {K : Crates} {keys : ι → SigningKey} {tr : List (Event ι)}
  {s s' : State ι} {e : Event ι}

/-- A successful call was permitted, and recorded the block it returned. -/
theorem step_ok (h : (system m K keys).step s e s') {b : Block}
    (hresult : e.result = .ok b) :
    Permits (s.accounts e.account) e.op ∧
      Records K e.timestamp (s.accounts e.account) b (s'.accounts e.account) ∧
      Writes m (s.accounts e.account) b e.op (s'.accounts e.account).consumedSources := by
  obtain ⟨-, ⟨vclock, vclock', hexec⟩, -, -⟩ := h
  rw [hresult] at hexec
  exact exec_perform_ok hexec

theorem sends_of_run (run : (system m K keys).Run tr s) :
    s.sends = tr.filterMap Event.sent := by
  induction run with
  | start h => exact h.2
  | @step tr s s' e run h ih =>
    rw [filterMap_concat, h.2.2.2, ih]

/-- A Send that can be in circulation. -/
structure Payment (b : Block) (d : String) (v : UInt64) : Prop where
  blockType : b.blockType = .send d v
  pos : v ≠ 0
  cap : v.toNat ≤ MAX_INITIAL_BALANCE_PER_ACCOUNT.toNat

section Valid

variable (hserde : Serde K) (hvalid : ∀ i, (keys i).Valid K)
include hserde hvalid

/-- **Every account is sound in every run.** -/
theorem sound_of_run (run : (system m K keys).Run tr s) (i : ι) :
    Sound K (keys i) (s.accounts i) := by
  induction run with
  | start h =>
    rw [h.1 i]
    exact sound_new K (keys i)
  | @step tr s s' e run h ih =>
    obtain ⟨-, ⟨vclock, vclock', hexec⟩, hframe, -⟩ := h
    by_cases hi : i = e.account
    · subst hi
      exact Sound.step hserde (hvalid _) ih hexec
    · rw [hframe i hi]
      exact ih

theorem key_of_run (run : (system m K keys).Run tr s) (i : ι) :
    (s.accounts i).publicKeyHex = Hex.encode (keys i).verifyingKey.toList := by
  have hsound := sound_of_run hserde hvalid run i
  rw [hsound.pair.hex, hsound.key]

/-- Accounts with different keys have different names. -/
theorem publicKeyHex_inj (hkeys : Function.Injective fun i ↦ (keys i).verifyingKey)
    (run : (system m K keys).Run tr s) {i j : ι} :
    (s.accounts i).publicKeyHex = (s.accounts j).publicKeyHex ↔ i = j := by
  rw [key_of_run hserde hvalid run, key_of_run hserde hvalid run]
  constructor
  · exact fun h ↦ hkeys (Vector.toList_inj.mp (Hex.encode_injective h))
  · rintro rfl
    rfl

/-- **One step** records a block for the caller, or changes nothing. -/
theorem step_cases (run : (system m K keys).Run tr s)
    (h : (system m K keys).step s e s') :
    (∃ b, e.result = .ok b ∧ Permits (s.accounts e.account) e.op ∧
      Records K e.timestamp (s.accounts e.account) b (s'.accounts e.account) ∧
      Writes m (s.accounts e.account) b e.op (s'.accounts e.account).consumedSources) ∨
      (∃ err, e.result = .error err) ∧ ¬ Permits (s.accounts e.account) e.op ∧ s' = s := by
  obtain ⟨-, ⟨vclock, vclock', hexec⟩, hframe, hsends⟩ := h
  have hsound := sound_of_run hserde hvalid run e.account
  rcases exec_perform_cases hserde hsound.pair (hsound.key ▸ hvalid _) hexec with
    ⟨b, hresult, hpermits, hrec, hwrites⟩ | ⟨err, hresult, hnot, hsame⟩
  · exact Or.inl ⟨b, hresult, hpermits, hrec, hwrites⟩
  · refine Or.inr ⟨⟨err, hresult⟩, hnot, ?_⟩
    have hsame : s'.accounts e.account = s.accounts e.account := congrArg Session.account hsame
    have haccounts : s'.accounts = s.accounts := by
      funext i
      by_cases hi : i = e.account
      · rw [hi, hsame]
      · exact hframe i hi
    have hsent : e.sent = none := by
      rw [← Option.not_isSome_iff_eq_none, Option.isSome_iff_exists]
      rintro ⟨b, hb⟩
      rw [(Event.sent_eq_some.mp hb).2] at hresult
      simp at hresult
    rw [hsent, Option.toList_none, List.append_nil] at hsends
    cases s
    cases s'
    simp only at haccounts hsends
    rw [haccounts, hsends]

theorem eq_of_error (run : (system m K keys).Run tr s)
    (h : (system m K keys).step s e s') {err : ArxiaError} (hresult : e.result = .error err) :
    s' = s := by
  rcases step_cases hserde hvalid run h with ⟨b, hok, -⟩ | ⟨-, -, hsame⟩
  · rw [hok] at hresult
    simp at hresult
  · exact hsame

/-- **A permitted call can be made**, as long as the chain has room. -/
theorem exists_step (run : (system m K keys).Run tr s) {i : ι} {op : Op}
    (timestamp : UInt64) (hfed : ∀ c, op = .receive c → c ∈ s.sends)
    (hpermits : Permits (s.accounts i) op)
    (hroom : (s.accounts i).chain.toList.length < isizeMax) :
    ∃ b s', (system m K keys).step s ⟨i, timestamp, op, .ok b⟩ s' ∧
      Records K timestamp (s.accounts i) b (s'.accounts i) ∧
      Writes m (s.accounts i) b op (s'.accounts i).consumedSources := by
  classical
  have hsound := sound_of_run hserde hvalid run i
  have hsucceeds := @succeeds_perform m K timestamp op ⟨s.accounts i, .new⟩ hserde hsound.pair
    (hsound.key ▸ hvalid i) hpermits
  obtain ⟨b, s', hexec⟩ := hsucceeds.returns ⟨hroom, hsound.nonce_lt⟩
  obtain ⟨-, hrec, hwrites⟩ := exec_perform_ok hexec
  refine ⟨b, ⟨Function.update s.accounts i s'.account, s.sends ++ _⟩, ⟨hfed, ⟨.new, s'.vclock, ?_⟩,
    fun j hj ↦ Function.update_of_ne hj _ _, rfl⟩, ?_, ?_⟩
  · simpa using hexec
  · simpa using hrec
  · simpa using hwrites

/-- Chains only grow. -/
theorem chain_isPrefix (run : (system m K keys).Run tr s)
    (h : (system m K keys).step s e s') (i : ι) :
    (s.accounts i).chain.toList <+: (s'.accounts i).chain.toList := by
  by_cases hi : i = e.account
  · rcases step_cases hserde hvalid run h with ⟨b, -, -, hrec, -⟩ | ⟨-, -, rfl⟩
    · rw [hi, hrec.chain]
      exact List.prefix_append _ _
    · exact List.prefix_refl _
  · rw [h.2.2.1 i hi]

/-! ## What a run has produced -/

/-- **The chain of an account is the list of the blocks its calls returned.** -/
theorem chain_of_run [DecidableEq ι] (run : (system m K keys).Run tr s) (i : ι) :
    (s.accounts i).chain.toList = tr.filterMap (Event.recorded i) := by
  induction run with
  | start h =>
    rw [h.1 i]
    rfl
  | @step tr s s' e run h ih =>
    rw [filterMap_concat, ← ih, Event.recorded]
    rcases step_cases hserde hvalid run h with ⟨b, hresult, -, hrec, -⟩ |
      ⟨⟨err, hresult⟩, -, rfl⟩
    · by_cases hi : e.account = i
      · subst hi
        rw [if_pos rfl, hresult, hrec.chain]
        rfl
      · rw [if_neg hi, h.2.2.1 i (Ne.symm hi)]
        exact (List.append_nil _).symm
    · rw [hresult]
      split <;> exact (List.append_nil _).symm

/-- **One step** consumes what it receives. -/
theorem consumed_step (run : (system m K keys).Run tr s) (h : (system m K keys).step s e s')
    (i : ι) (x : String) :
    x ∈ (s'.accounts i).consumedSources ↔ x ∈ (s.accounts i).consumedSources ∨
      e.account = i ∧ ∃ c, e.received = some c ∧ c.hash = x := by
  rcases step_cases hserde hvalid run h with ⟨b, hresult, hpermits, hrec, hwrites⟩ |
    ⟨⟨err, hresult⟩, -, rfl⟩
  · by_cases hi : e.account = i
    · subst hi
      rcases hop : e.op with v | ⟨d, v⟩ | c <;> rw [hop] at hpermits hwrites
      · rw [hwrites.of_open.2.2.2.2, Event.received_eq_none (by simp [hop])]
        simp
      · rw [hwrites.of_send.2.2.2.2, Event.received_eq_none (by simp [hop])]
        simp
      · obtain ⟨v, hsend, -, -⟩ := hpermits.of_receive
        have hreceived : e.received = some c := Event.received_eq_some.mpr ⟨hop, b, hresult⟩
        rw [(hwrites.of_receive hsend).2.2.2.2, Finset.mem_insert, or_comm, hreceived]
        simp [eq_comm]
    · rw [h.2.2.1 i (Ne.symm hi), or_iff_left]
      exact fun hlast ↦ hi hlast.1
  · -- a refused call receives nothing
    rw [or_iff_left]
    rintro ⟨-, c, hc, -⟩
    obtain ⟨-, b, hb⟩ := Event.received_eq_some.mp hc
    rw [hb] at hresult
    simp at hresult

/-- **The consumed sources of an account are the hashes of the blocks it received.** -/
theorem consumed_of_run (run : (system m K keys).Run tr s) (i : ι) (x : String) :
    x ∈ (s.accounts i).consumedSources ↔
      ∃ e ∈ tr, e.account = i ∧ ∃ c, e.received = some c ∧ c.hash = x := by
  induction run with
  | start h =>
    rw [h.1 i]
    simp [new]
  | @step tr s s' e run h ih =>
    rw [consumed_step hserde hvalid run h, ih]
    simp only [List.mem_append, List.mem_singleton, or_and_right, exists_or, exists_eq_left]

/-- **Every returned send is on the chain of its sender.** -/
theorem exists_sender (run : (system m K keys).Run tr s) :
    ∀ c ∈ s.sends, ∃ i, c ∈ (s.accounts i).chain.toList ∧ ∃ d v, Payment c d v := by
  induction run with
  | start h =>
    rw [h.2]
    exact fun c hc ↦ absurd hc List.not_mem_nil
  | @step tr s s' e run h ih =>
    intro c hc
    rw [h.2.2.2, List.mem_append, Option.mem_toList] at hc
    rcases hc with hc | hc
    · obtain ⟨i, hmem, hpayment⟩ := ih c hc
      exact ⟨i, (chain_isPrefix hserde hvalid run h i).subset hmem, hpayment⟩
    · obtain ⟨⟨d, v, hop⟩, hresult⟩ := Event.sent_eq_some.mp hc
      obtain ⟨hpermits, hrec, hwrites⟩ := step_ok h hresult
      rw [hop] at hpermits hwrites
      rcases hpermits with _ | ⟨hpos, -, hfunds⟩
      have hcap := (sound_of_run hserde hvalid run e.account).cap
      refine ⟨e.account, ?_, d, v, hwrites.of_send.1, hpos, ?_⟩
      · rw [hrec.chain]
        exact List.mem_append_right _ (List.mem_singleton_self c)
      · exact (UInt64.le_iff_toNat_le.mp hfunds).trans hcap

end Valid

end Network

end Arxia
