import Arxia.Lattice.ReferenceNetwork

/-!
# Replaying a send

`receive` remembers a send by the `hash` field of the block it was given. That field is not compared
with the contents, so a block whose hash has been altered is a send that was never received: the
balance is credited again. What `receive` does guarantee is about the field alone, and it becomes a
guarantee about the contents as soon as the contents determine the field, as they do for verified
blocks.

The account is arbitrary here, and so are the blocks. A call that fails half-way may leave the
balance and the nonce written, but it consumes nothing and gives nothing back.
-/

namespace Arxia

open Rust Transition

namespace AccountChain

/-! ## Consumed sources -/

variable {m : Overflow} {K : Crates} {timestamp : UInt64} {s : Session}

theorem grows_record {balance nonce : UInt64} {previous : String} {blockType : BlockType} :
    Call.Grows (fun s ↦ s.account.consumedSources) s
      (record K timestamp balance nonce previous blockType) := by
  refine .get (.orPanic fun sid ↦ .set le_rfl (.check fun hash ↦ .check fun bytes ↦ .get ?_))
  exact .orPanic fun chain ↦ .set le_rfl (Call.grows_pure _)

/-- **A consumed source stays consumed**, whatever the account and however the call ends. -/
theorem grows_receive {c : Block} :
    Call.Grows (fun s ↦ s.account.consumedSources) s (receive m K timestamp c) := by
  refine .get (.check fun amount ↦ .check fun _ ↦ .check fun balance ↦ .check fun _ ↦
    .orPanic fun nonce ↦ grows_record.bind fun b s₁ _ ↦ ?_)
  refine (Call.grows_modify ?_).bind fun _ _ _ ↦ Call.grows_pure b
  exact Finset.subset_insert c.hash s₁.account.consumedSources

end AccountChain

/-- The two blocks agree in every field but the hash. -/
def Block.SameButHash (b b' : Block) : Prop := { b with hash := b'.hash } = b'

theorem Block.SameButHash.nonce_eq {b b' : Block} (h : b.SameButHash b') : b.nonce = b'.nonce := by
  rw [← h]

namespace Replay

open AccountChain

/-- One call of `receive`. -/
structure Event where
  timestamp : UInt64
  sendBlock : Block
  result : Except ArxiaError Block

/-- The block the call accepted. -/
def Event.accepted (e : Event) : Option Block :=
  match e.result with
  | .ok _ => some e.sendBlock
  | .error _ => none

/-- The account, and the blocks it has accepted so far. -/
structure State where
  account : AccountChain
  accepted : List Block

/-- Calls of `receive` with arbitrary blocks, on an arbitrary account. -/
def system (m : Overflow) (K : Crates) : System State Event where
  init := fun s ↦ s.accepted = []
  step := fun s e s' ↦
    (∃ vclock vclock', (receive m K e.timestamp e.sendBlock).exec ⟨s.account, vclock⟩ =
      some (e.result, ⟨s'.account, vclock'⟩)) ∧
    s'.accepted = s.accepted ++ e.accepted.toList

/-- The call presents an accepted block under another hash. -/
def Altered (s : State) (e : Event) : Prop :=
  ∃ c ∈ s.accepted, c.SameButHash e.sendBlock ∧ c.hash ≠ e.sendBlock.hash

variable {m : Overflow} {K : Crates} {tr : List Event} {s s' : State} {e : Event}

theorem accepted_of_run (run : (system m K).Run tr s) :
    s.accepted = tr.filterMap Event.accepted := by
  induction run with
  | start h => exact h
  | step run h ih => rw [filterMap_concat, h.2, ih]

/-- **One call** accepts a block with a hash it has not seen, and remembers the hash. -/
theorem accepted_step (h : (system m K).step s e s') {c : Block} (hc : e.accepted = some c) :
    c = e.sendBlock ∧ c.hash ∉ s.account.consumedSources ∧
      c.hash ∈ s'.account.consumedSources := by
  obtain ⟨⟨vclock, vclock', hexec⟩, -⟩ := h
  rw [Event.accepted] at hc
  split at hc
  · rename_i b hresult
    obtain rfl := Option.some_inj.mp hc
    rw [hresult] at hexec
    obtain ⟨hpermits, -, hwrites⟩ := exec_receive_ok hexec
    obtain ⟨v, hsend, hfresh, -⟩ := hpermits.of_receive
    refine ⟨rfl, hfresh, ?_⟩
    rw [show s'.account.consumedSources = insert e.sendBlock.hash s.account.consumedSources from
      (hwrites.of_receive hsend).2.2.2.2]
    exact Finset.mem_insert_self _ _
  · simp at hc

/-- The account has consumed the hash of every block it has accepted. -/
theorem hash_mem_of_run (run : (system m K).Run tr s) :
    ∀ c ∈ s.accepted, c.hash ∈ s.account.consumedSources := by
  induction run with
  | start h =>
    rw [h]
    exact fun c hc ↦ absurd hc List.not_mem_nil
  | @step tr s s' e run h ih =>
    obtain ⟨⟨vclock, vclock', hexec⟩, haccepted⟩ := id h
    intro c hc
    rw [haccepted, List.mem_append, Option.mem_toList] at hc
    rcases hc with hc | hc
    · exact grows_receive _ _ hexec (ih c hc)
    · exact (accepted_step h hc).2.2

/-- The hashes of the accepted blocks are distinct, whatever was presented. -/
theorem pairwise_hash_of_run (run : (system m K).Run tr s) :
    s.accepted.Pairwise fun c c' ↦ c.hash ≠ c'.hash := by
  induction run with
  | start h =>
    rw [h]
    exact List.Pairwise.nil
  | @step tr s s' e run h ih =>
    rw [h.2, List.pairwise_append]
    refine ⟨ih, ?_, fun c hc c' hc' ↦ ?_⟩
    · rcases e.accepted with _ | c
      · exact List.Pairwise.nil
      · exact List.pairwise_singleton _ _
    · intro heq
      rw [Option.mem_toList] at hc'
      apply (accepted_step h hc').2.1
      rw [← heq]
      exact hash_mem_of_run run c hc

/-- **A send is not replayed** as long as no call presents an accepted block under another hash. -/
theorem pairwise_differ_of_run (run : ((system m K).restrict fun s e ↦ ¬ Altered s e).Run tr s) :
    s.accepted.Pairwise fun c c' ↦ ¬ c.SameButHash c' := by
  induction run with
  | start h =>
    rw [show _ = [] from h]
    exact List.Pairwise.nil
  | @step tr s s' e run h ih =>
    obtain ⟨hunaltered, hstep⟩ := h
    have hhashes := pairwise_hash_of_run (.step run.of_restrict hstep)
    rw [hstep.2, List.pairwise_append] at hhashes ⊢
    refine ⟨ih, ?_, fun c hc c' hc' hsame ↦ ?_⟩
    · rcases e.accepted with _ | c
      · exact List.Pairwise.nil
      · exact List.pairwise_singleton _ _
    · have hne := hhashes.2.2 c hc c' hc'
      obtain ⟨rfl, -, -⟩ := accepted_step hstep (Option.mem_toList.mp hc')
      exact hunaltered ⟨c, hc, hsame, hne⟩

/-- A block determines its hash field when the field is the hash of the contents. -/
theorem hash_eq_of_hashed {c c' : Block} (hc : c.Hashed K) (hc' : c'.Hashed K)
    (h : c.SameButHash c') : c.hash = c'.hash := by
  obtain ⟨x, hx, hhash⟩ := hc.digest
  obtain ⟨x', hx', hhash'⟩ := hc'.digest
  have hpreimage : c'.preimage K = c.preimage K := by rw [← h]; rfl
  rw [hpreimage, hx, Option.some_inj] at hx'
  rw [hhash, hhash', hx']

/-- Callers that verify what they receive meet the condition. -/
theorem restrict_of_hashed (run : (system m K).Run tr s)
    (hhashed : ∀ e ∈ tr, e.sendBlock.Hashed K) :
    ((system m K).restrict fun s e ↦ ¬ Altered s e).Run tr s := by
  refine run.restrict_of_steps fun tr' s' e run' hpre ↦ ?_
  rintro ⟨c, hc, hsame, hne⟩
  rw [accepted_of_run run'] at hc
  obtain ⟨e', he', hc⟩ := List.mem_filterMap.mp hc
  have hmem : e' ∈ tr := hpre.subset (List.mem_append_left _ he')
  have hc : e'.sendBlock = c := by
    rw [Event.accepted] at hc
    split at hc
    · exact Option.some_inj.mp hc
    · simp at hc
  refine hne (hash_eq_of_hashed (hc ▸ hhashed e' hmem) (hhashed e (hpre.subset ?_)) hsame)
  exact List.mem_append_right _ (List.mem_singleton_self e)

/-! ## An altered send -/

/-- A permitted receive can be made. -/
theorem exists_step (hserde : Serde K) (hpair : s.account.KeyPair)
    (hvalid : s.account.signingKey.Valid K) {c : Block}
    (hpermits : Permits s.account (.receive c)) (hroom : s.account.Room) :
    ∃ b s', (system m K).step s ⟨0, c, .ok b⟩ s' ∧ s'.accepted = s.accepted ++ [c] ∧
      Records K 0 s.account b s'.account ∧
      Writes m s.account b (.receive c) s'.account.consumedSources := by
  have hsucceeds := @succeeds_perform m K 0 _ ⟨s.account, .new⟩ hserde hpair hvalid hpermits
  obtain ⟨b, s', hexec⟩ := hsucceeds.returns hroom
  obtain ⟨-, hrec, hwrites⟩ := exec_perform_ok hexec
  exact ⟨b, ⟨s'.account, s.accepted ++ [c]⟩, ⟨⟨.new, s'.vclock, hexec⟩, rfl⟩, rfl, hrec, hwrites⟩

/-- Bob has received what Alice sent him, and nothing else. -/
structure ReceivedOnce (s : State) : Prop where
  accepted : s.accepted = [Reference.sendToBob]
  keyPair : s.account.KeyPair
  signingKey : s.account.signingKey = Reference.keys true
  consumedSources : s.account.consumedSources = {Reference.sendToBob.hash}
  balance : s.account.balance = 40
  room : s.account.Room

theorem exists_run_receive : ∃ tr s, (system .panics Reference.serde).Run tr s ∧
    ReceivedOnce s ∧ ∀ e ∈ tr, e.sendBlock = Reference.sendToBob := by
  let s₀ : State := ⟨new (Reference.keys true), []⟩
  have run₀ : (system .panics Reference.serde).Run [] s₀ := .start (show s₀.accepted = [] from rfl)
  have hpermits : Permits s₀.account (.receive Reference.sendToBob) :=
    @Permits.receive _ _ 40 rfl (Finset.notMem_empty _) (by decide)
  obtain ⟨b, s, hstep, haccepted, hrec, hwrites⟩ := exists_step (m := .panics) Reference.serde_serde
    (keyPair_new _) (Reference.valid_keys true) hpermits ⟨by decide, by decide⟩
  obtain ⟨-, -, hbalance, hnonce, hsources⟩ := hwrites.of_receive (d := Reference.bob) (v := 40) rfl
  refine ⟨_, s, .step run₀ hstep, ⟨haccepted, (keyPair_new _).of_records hrec, hrec.signingKey,
    hsources, ?_, ?_, ?_⟩, ?_⟩
  · exact hrec.balance.trans (UInt64.toNat_inj.mp hbalance)
  · rw [hrec.chain, List.length_append, List.length_singleton]
    change 0 + 1 < isizeMax
    decide
  · rw [hrec.nonce, ← Option.some_inj.mp hnonce]
    decide
  · rintro e he
    rw [List.mem_singleton.mp he]

/-- He can receive another send, under any other hash. -/
theorem ReceivedOnce.exists_step {s : State} (h : ReceivedOnce s) {c : Block} {v : UInt64}
    (htype : c.blockType = .send Reference.bob v) (hhash : c.hash ≠ Reference.sendToBob.hash)
    (hcap : 40 + v.toNat ≤ MAX_INITIAL_BALANCE_PER_ACCOUNT.toNat) :
    ∃ b s', (system .panics Reference.serde).step s ⟨0, c, .ok b⟩ s' ∧
      s'.accepted = [Reference.sendToBob, c] := by
  have hname : s.account.publicKeyHex = Reference.bob := by rw [h.keyPair.hex, h.signingKey]; rfl
  have hpermits : Permits s.account (.receive c) := by
    refine Permits.receive (hname ▸ htype) ?_ (h.balance ▸ hcap)
    rwa [h.consumedSources, Finset.mem_singleton]
  obtain ⟨b, s', hstep, haccepted, -⟩ := Replay.exists_step (m := .panics) Reference.serde_serde
    h.keyPair (h.signingKey ▸ Reference.valid_keys true) hpermits h.room
  exact ⟨b, s', hstep, by rw [haccepted, h.accepted]; rfl⟩

/-- Alice's next send to Bob. -/
def sendMore : Block :=
  Reference.sealBlock Reference.alice Reference.sendToBob.hash (.send Reference.bob 15) 45 3 5

/-- Bob receives both. -/
theorem differ_receive_two : ∃ tr s, (system .panics Reference.serde).Run tr s ∧
    s.accepted = [Reference.sendToBob, sendMore] ∧
      s.accepted.Pairwise fun c c' ↦ ¬ c.SameButHash c' := by
  obtain ⟨tr, s, run, hreceived, hblocks⟩ := exists_run_receive
  obtain ⟨b, s', hstep, haccepted⟩ := hreceived.exists_step (c := sendMore) rfl
    (by decide +kernel) (by decide)
  have hrestrict := restrict_of_hashed run fun e he ↦ by
    rw [hblocks e he]
    exact Reference.verified_sendToBob.hashed
  have hunaltered : ¬ Altered s ⟨0, sendMore, .ok b⟩ := by
    rintro ⟨c, hc, hsame, -⟩
    rw [hreceived.accepted, List.mem_singleton] at hc
    have hnonce : c.nonce = sendMore.nonce := hsame.nonce_eq
    rw [hc] at hnonce
    exact absurd hnonce (by decide)
  have run' := hrestrict.step ⟨hunaltered, hstep⟩
  exact ⟨_, s', run'.of_restrict, haccepted, pairwise_differ_of_run run'⟩

/-- Bob receives the same send again, under another hash. -/
theorem not_pairwise_differ :
    ¬ ∀ (tr : List Event) (s : State), (system .panics Reference.serde).Run tr s →
      s.accepted.Pairwise fun c c' ↦ ¬ c.SameButHash c' := by
  intro h
  obtain ⟨tr, s, run, hreceived, -⟩ := exists_run_receive
  let altered : Block := { Reference.sendToBob with hash := "" }
  obtain ⟨b, s', hstep, haccepted⟩ := hreceived.exists_step (c := altered) rfl
    (by decide +kernel) (by decide)
  have hpairwise := h _ s' (.step run hstep)
  rw [haccepted] at hpairwise
  exact (List.pairwise_cons.mp hpairwise).1 altered (List.mem_singleton_self _) rfl

end Replay

end Arxia
