import Arxia.Lattice.Exchange
import Arxia.Lattice.Opening
import Arxia.Lattice.Totals

/-!
# The ledger of a network

The accounts write their blocks without a ledger, and a ledger takes blocks without an account: the
two check different things in different places. A receive looks at the block it is given, the ledger
at its index; an account knows what it has received itself, the ledger what anybody has.

Given the blocks of a network in the order in which the calls returned them, a ledger accepts every
one of them, and then holds the accounts' own chains, exactly when no account received before it was
opened and what the opens created is within the supply.
-/

namespace Arxia

open Rust Transition AccountChain History

namespace Ledger

/-- A fresh ledger accepts a valid history whose chains have room, and represents it. -/
theorem exists_feed_of_valid {m : Overflow} {K : Crates} {h : List Block} (hv : Valid K h)
    (hfits : ∀ a, (chain h a).length ≤ isizeMax) :
    ∃ l, feed m K new h = some (h.map fun _ ↦ .ok (), l) ∧ l.Represents h := by
  induction hv with
  | nil => exact ⟨new, rfl, represents_new⟩
  | @concat h b hv adm ih =>
    obtain ⟨l, hfeed, hrep⟩ := ih fun a ↦ by
      refine le_trans ?_ (hfits a)
      rw [chain_concat]
      split
      · exact List.length_append ▸ Nat.le_add_right _ _
      · exact le_refl _
    have hroom : (l.blocks b.account).length < isizeMax := by
      have hlen := hfits b.account
      rwa [chain_concat_self, List.length_append, List.length_singleton, ← hrep.blocks] at hlen
    obtain ⟨l', hstep⟩ := exec_addBlock_of_admits ((hrep.admits_iff (m := m) hv).mpr adm) hroom
    exact ⟨l', by simpa using feed_concat hfeed hstep, hrep.extends (exec_addBlock_ok hstep).2⟩

end Ledger

namespace Network

variable {ι : Type} {m m' : Overflow} {K : Crates} {keys : ι → SigningKey} {tr : List (Event ι)}
  {s s' : State ι} {e : Event ι} {b : Block}

/-- The blocks that the calls have returned, in order. -/
def produced (tr : List (Event ι)) : List Block := tr.filterMap fun e ↦ e.result.toOption

theorem mem_produced : b ∈ produced tr ↔ ∃ e ∈ tr, e.result = .ok b := by
  simp only [produced, List.mem_filterMap, toOption_eq_some]

theorem produced_concat_ok (hresult : e.result = .ok b) :
    produced (tr ++ [e]) = produced tr ++ [b] := by
  rw [produced, filterMap_concat, hresult]
  rfl

theorem produced_concat_error {err : ArxiaError} (hresult : e.result = .error err) :
    produced (tr ++ [e]) = produced tr := by
  rw [produced, filterMap_concat, hresult]
  exact List.append_nil _

/-- The ledger holds what the accounts have. -/
structure Mirrors (l : Ledger) (tr : List (Event ι)) (s : State ι) : Prop where
  chains : ∀ i, l.blocks (s.accounts i).publicKeyHex = (s.accounts i).chain.toList
  sends : ∀ x info, l.sendIndex.lookup x = some info ↔
    ∃ c ∈ s.sends, c.hash = x ∧ c.blockType = .send info.destination info.amount
  consumed : ∀ x, x ∈ l.consumedSends ↔ ∃ i, x ∈ (s.accounts i).consumedSources
  supply : l.totalSupply.toNat = created tr

/-- Fed to a fresh ledger, the blocks of the network are all accepted and give its accounts. -/
def Admitted (m : Overflow) (K : Crates) (tr : List (Event ι)) (s : State ι) : Prop :=
  ∃ l, Ledger.feed m K .new (produced tr) = some ((produced tr).map fun _ ↦ .ok (), l) ∧
    Mirrors l tr s

/-! ## The blocks of the network -/

/-- Only an open mints. -/
theorem minted_eq_opened (hanswers : Answers s.sends b e.op) (hresult : e.result = .ok b) :
    b.minted = (e.opened.map UInt64.toNat).getD 0 := by
  rw [Event.opened, hresult]
  cases hop : e.op with
  | «open» v =>
    rw [hop] at hanswers
    rcases hanswers with ⟨htype, -⟩
    rw [Block.minted_of_open htype]
    rfl
  | send d v =>
    rw [hop] at hanswers
    rcases hanswers with _ | htype
    rw [Block.minted_of_not_open (by rw [htype]; rfl)]
    rfl
  | receive c =>
    rw [hop] at hanswers
    rcases hanswers with _ | _ | ⟨htype, -, -⟩
    rw [Block.minted_of_not_open (by rw [htype]; rfl)]
    rfl

/-- What the opens created is what a ledger counts. -/
theorem minted_produced (run : (system m K keys).Run tr s) : minted (produced tr) = created tr := by
  induction run with
  | start h => rfl
  | @step tr s s' e run h ih =>
    rw [created_concat, ← ih]
    rcases hresult : e.result with err | b
    · rw [produced_concat_error hresult, (Event.eq_none_of_error hresult).1]
      rfl
    · rw [produced_concat_ok hresult, minted_concat,
        minted_eq_opened (answers_step h hresult) hresult]

/-- What has been sent is the Sends that have been produced. -/
theorem mem_sends_iff (run : (system m K keys).Run tr s) :
    b ∈ s.sends ↔ b ∈ produced tr ∧ b.blockType.isSend = true := by
  rw [sends_of_run run, mem_produced, List.mem_filterMap]
  constructor
  · rintro ⟨e, he, hsent⟩
    obtain ⟨⟨d, v, hop⟩, hresult⟩ := Event.sent_eq_some.mp hsent
    have hanswers := answers_of_run run e he b hresult
    rw [hop] at hanswers
    rcases hanswers with _ | htype
    exact ⟨⟨e, he, hresult⟩, BlockType.isSend_iff.mpr ⟨d, v, htype⟩⟩
  · rintro ⟨⟨e, he, hresult⟩, hsend⟩
    refine ⟨e, he, Event.sent_eq_some.mpr ⟨?_, hresult⟩⟩
    have hanswers := answers_of_run run e he b hresult
    cases hop : e.op with
    | send d v => exact ⟨d, v, rfl⟩
    | «open» v =>
      rw [hop] at hanswers
      rcases hanswers with ⟨htype, -⟩
      rw [htype] at hsend
      cases hsend
    | receive c =>
      rw [hop] at hanswers
      rcases hanswers with _ | _ | ⟨htype, -, -⟩
      rw [htype] at hsend
      cases hsend

section Valid

variable (hserde : Serde K) (hvalid : ∀ i, (keys i).Valid K)
include hserde hvalid

/-- A returned block is the caller's, and verifies. -/
theorem own_of_run (run : (system m K keys).Run tr s) (he : e ∈ tr) (hresult : e.result = .ok b) :
    b.account = (s.accounts e.account).publicKeyHex ∧ Verified K b := by
  classical
  refine (sound_of_run hserde hvalid run e.account).own b ?_
  rw [chain_of_run hserde hvalid run]
  exact List.mem_filterMap.mpr ⟨e, he, Event.recorded_eq_some.mpr ⟨rfl, hresult⟩⟩

/-- **What a network has consumed.** -/
theorem consumed_produced (run : (system m K keys).Run tr s) (x : String) :
    Consumed (produced tr) x ↔ ∃ i, x ∈ (s.accounts i).consumedSources := by
  simp only [consumed_of_run hserde hvalid run]
  constructor
  · rintro ⟨r, hr, hx⟩
    obtain ⟨e, he, hresult⟩ := mem_produced.mp hr
    have hanswers := answers_of_run run e he r hresult
    rcases hop : e.op with v | ⟨d, v⟩ | c <;> rw [hop] at hanswers
    · rcases hanswers with ⟨htype, -⟩
      simp [htype] at hx
    · rcases hanswers with _ | htype
      simp [htype] at hx
    · rcases hanswers with _ | _ | ⟨htype, -, -⟩
      exact ⟨e.account, e, he, rfl, c, Event.received_eq_some.mpr ⟨hop, r, hresult⟩,
        BlockType.receive.inj (htype.symm.trans hx)⟩
  · rintro ⟨i, e, he, -, c, hreceived, rfl⟩
    obtain ⟨hop, r, hresult⟩ := Event.received_eq_some.mp hreceived
    have hanswers := answers_of_run run e he r hresult
    rw [hop] at hanswers
    rcases hanswers with _ | _ | ⟨htype, -, -⟩
    exact ⟨r, mem_produced.mpr ⟨e, he, hresult⟩, htype⟩

variable (hkeys : Function.Injective fun i ↦ (keys i).verifyingKey)
include hkeys

/-- **The blocks of an account are its chain.** -/
theorem chain_produced (run : (system m K keys).Run tr s) (i : ι) :
    History.chain (produced tr) (s.accounts i).publicKeyHex = (s.accounts i).chain.toList := by
  rw [key_of_run hserde hvalid run]
  induction run with
  | start h =>
    rw [h.1 i]
    rfl
  | @step tr s s' e run h ih =>
    rcases step_cases hserde hvalid run h with ⟨b, hresult, -, hrec, -⟩ |
      ⟨⟨err, hresult⟩, -, rfl⟩
    · rw [produced_concat_ok hresult, chain_concat, ih, hrec.account,
        key_of_run hserde hvalid run]
      by_cases hi : e.account = i
      · subst hi
        rw [if_pos rfl, hrec.chain]
      · rw [if_neg, h.2.2.1 i (Ne.symm hi)]
        exact fun heq ↦ hi (hkeys (Vector.toList_inj.mp (Hex.encode_injective heq)))
    · rw [produced_concat_error hresult, ih]

/-- No chain of the blocks is longer than a vector. -/
theorem length_chain_produced_le (run : (system m K keys).Run tr s) (a : String) :
    (History.chain (produced tr) a).length ≤ isizeMax := by
  rcases List.eq_nil_or_concat' (History.chain (produced tr) a) with hnil | ⟨t, b, hlast⟩
  · rw [hnil]
    exact Nat.zero_le _
  · obtain ⟨hb, rfl⟩ := mem_chain.mp (hlast ▸ List.mem_append_right t (List.mem_singleton_self b))
    obtain ⟨e, he, hresult⟩ := mem_produced.mp hb
    rw [(own_of_run hserde hvalid run he hresult).1, chain_produced hserde hvalid hkeys run]
    exact (s.accounts e.account).chain.length_le

/-- The Send that a receive is given is in the index, and nobody has received it. -/
theorem source_of_receive (run : (system m K keys).Run tr s) (hv : Valid K (produced tr))
    (hcf : Block.CollisionFree K (produced tr)) {c : Block} {i : ι} {v : UInt64}
    (hc : c ∈ s.sends) (hsend : c.blockType = .send (s.accounts i).publicKeyHex v)
    (hfresh : c.hash ∉ (s.accounts i).consumedSources) :
    ∃ info, sent (produced tr) c.hash = some info ∧
      info.destination = (s.accounts i).publicKeyHex ∧ ¬ Consumed (produced tr) c.hash := by
  have hmem := ((mem_sends_iff run).mp hc).1
  refine ⟨⟨_, v⟩, (hv.sent_eq_some hcf).mpr ⟨c, hmem, rfl, hsend⟩, rfl, ?_⟩
  rintro ⟨r, hr, hx⟩
  -- whoever received a Send with this hash received this one, and it names its account
  obtain ⟨e, he, hresult⟩ := mem_produced.mp hr
  have hanswers := answers_of_run run e he r hresult
  rcases hop : e.op with v' | ⟨d, v'⟩ | c' <;> rw [hop] at hanswers
  · rcases hanswers with ⟨htype, -⟩
    simp [htype] at hx
  · rcases hanswers with _ | htype
    simp [htype] at hx
  · rcases hanswers with _ | _ | ⟨htype, hfed, hsend'⟩
    have hhash : c'.hash = c.hash := BlockType.receive.inj (htype.symm.trans hx)
    have hmem' := ((mem_sends_iff run).mp hfed).1
    obtain rfl : c' = c :=
      hv.eq_of_hash_eq hv (hcf.mono fun b hb ↦ by simpa using hb) hv.noFork_self hmem' hmem hhash
    have hacc := (BlockType.send.inj (hsend'.symm.trans hsend)).1
    rw [(own_of_run hserde hvalid run he hresult).1, publicKeyHex_inj hserde hvalid hkeys run]
      at hacc
    subst hacc
    exact hfresh ((consumed_of_run hserde hvalid run _ _).mpr
      ⟨e, he, rfl, c', Event.received_eq_some.mpr ⟨hop, r, hresult⟩, rfl⟩)

/-- **The blocks of a network are a valid history**, if no account received too early and the opens
stay within the supply. -/
theorem valid_produced (run : (system m K keys).Run tr s)
    (hcf : Block.CollisionFree K (produced tr)) (htimely : ∀ i, Timely m K keys i tr)
    (hcap : created tr ≤ TOTAL_SUPPLY_MICRO_ARX.toNat) : Valid K (produced tr) := by
  induction run with
  | start h => exact .nil
  | @step tr s s' e run h ih =>
    have run' := run.step h
    rcases hresult : e.result with err | b
    · rw [produced_concat_error hresult] at hcf ⊢
      rw [created_concat, (Event.eq_none_of_error hresult).1] at hcap
      exact ih hcf (fun i ↦ ((timely_concat hserde hvalid run).mp (htimely i)).1) hcap
    have hminted := minted_produced run'
    rw [produced_concat_ok hresult] at hcf hminted ⊢
    rw [minted_concat] at hminted
    have hv := ih (hcf.mono fun c hc ↦ List.mem_append_left _ hc)
      (fun i ↦ ((timely_concat hserde hvalid run).mp (htimely i)).1)
      (by rw [← minted_produced run]; omega)
    have hmem : e ∈ tr ++ [e] := List.mem_append_right _ (List.mem_singleton_self e)
    obtain ⟨hacc, hver⟩ := own_of_run hserde hvalid run' hmem hresult
    refine hv.concat ⟨hver, fun v htype ↦ ?_, fun x htype ↦ ?_, ?_⟩
    · rw [← Block.minted_of_open htype]
      omega
    · -- only a receive writes a Receive, and it was given the Send
      obtain ⟨hpermits, hrec, hwrites⟩ := step_ok h hresult
      have hanswers := answers_step h hresult
      rcases hop : e.op with v | ⟨d, v⟩ | c <;> rw [hop] at hanswers hpermits
      · rcases hanswers with ⟨htype', -⟩
        simp [htype'] at htype
      · rcases hanswers with _ | htype'
        simp [htype'] at htype
      · rcases hanswers with _ | _ | ⟨htype', hfed, -⟩
        obtain ⟨v, hsend, hfresh, -⟩ := hpermits.of_receive
        obtain rfl := BlockType.receive.inj (htype'.symm.trans htype)
        rw [hrec.account]
        exact source_of_receive hserde hvalid hkeys run hv
          (hcf.mono fun c hc ↦ List.mem_append_left _ hc) hfed hsend hfresh
    · have hsound := sound_of_run hserde hvalid run' e.account
      have hchain := chain_produced hserde hvalid hkeys run' e.account
      rw [produced_concat_ok hresult, ← hacc, chain_concat_self] at hchain
      rw [hchain]
      exact wellLinked_iff.mpr ⟨hsound.continuous,
        (openFirst_iff_timely hserde hvalid run' e.account).mpr (htimely e.account)⟩

/-- A ledger of a valid history of the network mirrors the accounts. -/
theorem mirrors_of_represents (run : (system m K keys).Run tr s) (hv : Valid K (produced tr))
    (hcf : Block.CollisionFree K (produced tr)) {l : Ledger} (hrep : l.Represents (produced tr)) :
    Mirrors l tr s where
  chains := fun i ↦ (hrep.blocks _).trans (chain_produced hserde hvalid hkeys run i)
  sends := fun x info ↦ by
    rw [hrep.sendIndex, hv.sent_eq_some hcf]
    constructor
    · rintro ⟨c, hc, hhash, htype⟩
      exact ⟨c, (mem_sends_iff run).mpr ⟨hc, BlockType.isSend_iff.mpr ⟨_, _, htype⟩⟩, hhash, htype⟩
    · rintro ⟨c, hc, hhash, htype⟩
      exact ⟨c, ((mem_sends_iff run).mp hc).1, hhash, htype⟩
  consumed := fun x ↦ (hrep.consumedSends x).trans (consumed_produced hserde hvalid run x)
  supply := hrep.totalSupply.trans (minted_produced run)

end Valid

/-- **Admission.** In every run of a network a ledger accepts all blocks and mirrors the accounts
exactly when no account has received before it was opened and what the opens created is within the
supply. -/
theorem admitted_iff_timely (hserde : Serde K) (hvalid : ∀ i, (keys i).Valid K)
    (hkeys : Function.Injective fun i ↦ (keys i).verifyingKey)
    (run : (system m K keys).Run tr s) (hcf : Block.CollisionFree K (produced tr)) :
    Admitted m' K tr s ↔
      (∀ i, Timely m K keys i tr) ∧ created tr ≤ TOTAL_SUPPLY_MICRO_ARX.toNat := by
  constructor
  · rintro ⟨l, hfeed, -⟩
    obtain ⟨hv, -⟩ := Ledger.represents_of_feed hfeed
    refine ⟨fun i ↦ ?_, minted_produced run ▸ hv.minted_le⟩
    rw [← openFirst_iff_timely hserde hvalid run]
    have hlinked := hv.wellLinked (s.accounts i).publicKeyHex
    rw [chain_produced hserde hvalid hkeys run] at hlinked
    exact (wellLinked_iff.mp hlinked).2
  · rintro ⟨htimely, hcap⟩
    have hv := valid_produced hserde hvalid hkeys run hcf htimely hcap
    obtain ⟨l, hfeed, hrep⟩ := Ledger.exists_feed_of_valid (m := m') hv
      (length_chain_produced_le hserde hvalid hkeys run)
    exact ⟨l, hfeed, mirrors_of_represents hserde hvalid hkeys run hv hcf hrep⟩

/-- After the payment. -/
theorem admitted_paid : ∃ s, (system .panics Reference.serde Reference.keys).Run Reference.paid s ∧
    Admitted .wraps Reference.serde Reference.paid s := by
  obtain ⟨s, run⟩ := Reference.run_paid
  refine ⟨s, run, (admitted_iff_timely Reference.serde_serde Reference.valid_keys
    Reference.injective_keys run ?_).mpr ⟨fun i ↦ ?_, by decide +kernel⟩⟩
  · refine Reference.collisionFree_paid.mono fun b hb ↦ ?_
    have hproduced : produced Reference.paid = [Reference.openAlice, Reference.sendToBob,
      Reference.openBob, Reference.receiveFromAlice] := rfl
    rwa [hproduced] at hb
  · rw [← openFirst_iff_timely Reference.serde_serde Reference.valid_keys run, OpenFirst,
      chain_of_run Reference.serde_serde Reference.valid_keys run]
    rintro first hfirst
    cases i
    · obtain rfl : Reference.openAlice = first := Option.some_inj.mp hfirst
      rfl
    · obtain rfl : Reference.openBob = first := Option.some_inj.mp hfirst
      rfl

end Network

end Arxia
