import Arxia.Lattice.ReferenceNetwork

/-!
# Opening an account first

`open` refuses an account that has blocks, but `receive` does not refuse one that has none. A
receive on an empty chain succeeds whenever the send is meant for the account, and its block becomes
the first one: nonce one, nothing before it, and not an Open. `verify_chain_integrity` then rejects
the chain, whatever is added to it later. Nothing else goes wrong: an account keeps its books in
every run in which it makes no such call, and in no other.

A send cannot take that place, since an account without blocks has no balance to send from.
-/

namespace Arxia

open Rust Transition

namespace AccountChain

/-- The account's chain is valid and its counters agree with it. -/
structure Books (m : Overflow) (K : Crates) (a : AccountChain) : Prop where
  integrity : (verifyChainIntegrity m K a.chain.toList).exec = some (.ok ())
  nonce : a.nonce.toNat = a.chain.toList.length
  balance : a.balance = (a.chain.toList.getLast?.map Block.balance).getD 0

/-- The first block is an Open, if there is one. -/
def OpenFirst (a : AccountChain) : Prop :=
  ∀ first, a.chain.toList.head? = some first → first.blockType.isOpen = true

/-- **The books of a sound account** only depend on its first block. -/
theorem Sound.books_iff {m : Overflow} {K : Crates} {key : SigningKey} {a : AccountChain}
    (h : Sound K key a) : Books m K a ↔ OpenFirst a := by
  constructor
  · intro hbooks
    have hwell := ((exec_verifyChainIntegrity_eq_ok a.chain).mp hbooks.integrity).1
    exact (wellLinked_iff.mp hwell).2
  · intro hopen
    have hwell : WellLinked a.chain.toList := wellLinked_iff.mpr ⟨h.continuous, hopen⟩
    exact ⟨(exec_verifyChainIntegrity_eq_ok a.chain).mpr ⟨hwell, fun b hb ↦ (h.own b hb).2⟩,
      h.length, h.counters.1⟩

theorem openFirst_of_append {a a' : AccountChain} {b : Block}
    (hchain : a'.chain.toList = a.chain.toList ++ [b]) (hne : a.chain.toList ≠ []) :
    OpenFirst a' ↔ OpenFirst a := by
  rw [OpenFirst, OpenFirst, hchain, List.head?_append_of_ne_nil _ hne]

theorem openFirst_of_first {a : AccountChain} {b : Block} (hchain : a.chain.toList = [b]) :
    OpenFirst a ↔ b.blockType.isOpen = true := by
  rw [OpenFirst, hchain]
  simp

/-- The first block comes from an `open` or from a `receive`; there is nothing to send. -/
theorem Sound.first {m : Overflow} {K : Crates} {key : SigningKey} {a : AccountChain} {op : Op}
    {b : Block} {sources : Finset String} (h : Sound K key a) (hempty : a.chain.toList = [])
    (hpermits : Permits a op) (hwrites : Writes m a b op sources) :
    (∃ v, op = .open v ∧ b.blockType = .open v) ∨
      ∃ c v, op = .receive c ∧ c.blockType = .send a.publicKeyHex v ∧
        b.blockType = .receive c.hash := by
  rcases op with v | ⟨d, v⟩ | c
  · exact Or.inl ⟨v, rfl, hwrites.of_open.1⟩
  · rcases hpermits with _ | ⟨hpos, -, hfunds⟩
    rw [(h.fresh hempty).1, UInt64.le_zero_iff] at hfunds
    exact absurd hfunds hpos
  · obtain ⟨v, hsend, -, -⟩ := hpermits.of_receive
    exact Or.inr ⟨c, v, rfl, hsend, (hwrites.of_receive hsend).1⟩

end AccountChain

namespace Network

open AccountChain

variable {ι : Type} {m : Overflow} {K : Crates} {keys : ι → SigningKey}

/-- The call gives `i` a send that is meant for it before it has any block. -/
structure Premature (i : ι) (s : State ι) (e : Event ι) : Prop where
  account : e.account = i
  empty : (s.accounts i).chain.toList = []
  receive : ∃ c v, e.op = .receive c ∧ c.blockType = .send (s.accounts i).publicKeyHex v

/-- No call of the run was premature for `i`. -/
def Timely (m : Overflow) (K : Crates) (keys : ι → SigningKey) (i : ι) (tr : List (Event ι)) :
    Prop :=
  ∀ tr' s e, (system m K keys).Run tr' s → tr' ++ [e] <+: tr → ¬ Premature i s e

section Valid

variable (hserde : Serde K) (hvalid : ∀ i, (keys i).Valid K) {tr : List (Event ι)}
  {s s' : State ι} {e : Event ι} {i : ι}
include hserde hvalid

/-- A premature receive passes every guard. -/
theorem Premature.permits (run : (system m K keys).Run tr s) (h : Premature i s e)
    (hfed : ∀ c, e.op = .receive c → c ∈ s.sends) :
    Permits (s.accounts e.account) e.op := by
  obtain ⟨hi, hempty, c, v, hop, htype⟩ := h
  obtain ⟨-, -, d, v', hpayment⟩ := exists_sender hserde hvalid run c (hfed c hop)
  obtain ⟨-, rfl⟩ := BlockType.send.inj (hpayment.blockType.symm.trans htype)
  obtain ⟨hbalance, hconsumed⟩ := (sound_of_run hserde hvalid run i).fresh hempty
  rw [hop, hi]
  refine .receive htype ?_ ?_
  · rw [hconsumed]
    exact Finset.notMem_empty _
  · rw [hbalance, UInt64.toNat_zero, Nat.zero_add]
    exact hpayment.cap

/-- **One step** keeps an Open first, unless it is a premature receive. -/
theorem openFirst_step (run : (system m K keys).Run tr s) (h : (system m K keys).step s e s')
    (i : ι) :
    OpenFirst (s'.accounts i) ↔ OpenFirst (s.accounts i) ∧ ¬ Premature i s e := by
  by_cases hi : e.account = i
  · subst hi
    rcases step_cases hserde hvalid run h with ⟨b, -, hpermits, hrec, hwrites⟩ | ⟨-, hnot, rfl⟩
    · by_cases hempty : (s.accounts e.account).chain.toList = []
      · -- the block is the first one
        have hold : OpenFirst (s.accounts e.account) := by
          rw [OpenFirst, hempty]
          simp
        rw [openFirst_of_first (by rw [hrec.chain, hempty, List.nil_append])]
        rcases (sound_of_run hserde hvalid run e.account).first hempty hpermits hwrites with
          ⟨v, hop, htype⟩ | ⟨c, v, hop, hsend, htype⟩
        · refine iff_of_true (by rw [htype]; rfl) ⟨hold, fun hpre ↦ ?_⟩
          obtain ⟨c, -, hop', -⟩ := hpre.receive
          rw [hop] at hop'
          simp at hop'
        · refine iff_of_false (by rw [htype]; exact Bool.false_ne_true) fun hnot ↦ hnot.2 ?_
          exact ⟨rfl, hempty, c, v, hop, hsend⟩
      · rw [openFirst_of_append hrec.chain hempty]
        exact ⟨fun hopen ↦ ⟨hopen, fun hpre ↦ hempty hpre.empty⟩, And.left⟩
    · exact ⟨fun hopen ↦ ⟨hopen, fun hpre ↦ hnot (Premature.permits hserde hvalid run hpre h.1)⟩,
        And.left⟩
  · rw [h.2.2.1 i (Ne.symm hi)]
    exact ⟨fun hopen ↦ ⟨hopen, fun hpre ↦ hi hpre.account⟩, And.left⟩

/-- Whether a call is premature only depends on the calls before it. -/
theorem premature_congr (run : (system m K keys).Run tr s) (run' : (system m K keys).Run tr s')
    (h : Premature i s e) : Premature i s' e := by
  classical
  refine ⟨h.account, ?_, ?_⟩
  · rw [chain_of_run hserde hvalid run', ← chain_of_run hserde hvalid run, h.empty]
  · rw [key_of_run hserde hvalid run', ← key_of_run hserde hvalid run]
    exact h.receive

theorem timely_concat (run : (system m K keys).Run tr s) :
    Timely m K keys i (tr ++ [e]) ↔ Timely m K keys i tr ∧ ¬ Premature i s e := by
  constructor
  · intro h
    refine ⟨fun tr' s' e' run' hpre ↦ h tr' s' e' run' (hpre.trans ?_), ?_⟩
    · exact List.prefix_append _ _
    · exact h tr s e run (List.prefix_refl _)
  · rintro ⟨htimely, hlast⟩ tr' s' e' run' hpre
    rcases List.prefix_concat_iff.mp hpre with hsplit | hpre
    · obtain ⟨rfl, hlabel⟩ := List.append_inj' hsplit rfl
      obtain rfl := List.singleton_inj.mp hlabel
      exact fun h ↦ hlast (premature_congr hserde hvalid run' run h)
    · exact htimely tr' s' e' run' hpre

/-- The first block of a chain is an Open exactly when nothing was received too early. -/
theorem openFirst_iff_timely (run : (system m K keys).Run tr s) (i : ι) :
    OpenFirst (s.accounts i) ↔ Timely m K keys i tr := by
  induction run with
  | start h =>
    refine iff_of_true ?_ fun tr' s e _ hpre ↦ ?_
    · rw [h.1 i]
      exact fun first hfirst ↦ absurd hfirst (by simp [new])
    · simp at hpre
  | @step tr s s' e run h ih =>
    rw [openFirst_step hserde hvalid run h, timely_concat hserde hvalid run, ih]

end Valid

/-- **An account keeps its books exactly in the runs without a premature receive.** -/
theorem books_iff_timely (hserde : Serde K) (hvalid : ∀ i, (keys i).Valid K)
    {tr : List (Event ι)} {s : State ι} (run : (system m K keys).Run tr s) (i : ι) :
    Books m K (s.accounts i) ↔ Timely m K keys i tr := by
  rw [(sound_of_run hserde hvalid run i).books_iff, openFirst_iff_timely hserde hvalid run]

theorem books_paid : ∃ s, (system .panics Reference.serde Reference.keys).Run Reference.paid s ∧
    Books .panics Reference.serde (s.accounts true) ∧
      Timely .panics Reference.serde Reference.keys true Reference.paid := by
  obtain ⟨s, run⟩ := Reference.run_paid
  have hiff := books_iff_timely Reference.serde_serde Reference.valid_keys run true
  have hopen : OpenFirst (s.accounts true) := by
    rw [OpenFirst, chain_of_run Reference.serde_serde Reference.valid_keys run]
    rintro first hfirst
    obtain rfl : Reference.openBob = first := Option.some_inj.mp hfirst
    rfl
  have hbooks : Books .panics Reference.serde (s.accounts true) :=
    (sound_of_run Reference.serde_serde Reference.valid_keys run true).books_iff.mpr hopen
  exact ⟨s, run, hbooks, hiff.mp hbooks⟩

/-- Bob receives what Alice sent, without opening his account. -/
theorem not_books_unopened :
    ¬ ∀ (tr : List (Event Bool)) (s : State Bool),
      (system .panics Reference.serde Reference.keys).Run tr s →
        ∀ i, Books .panics Reference.serde (s.accounts i) := by
  intro h
  obtain ⟨s, run⟩ := Reference.run_unopened
  have hsound := sound_of_run Reference.serde_serde Reference.valid_keys run true
  have hopen := hsound.books_iff.mp (h _ s run true)
  rw [OpenFirst, chain_of_run Reference.serde_serde Reference.valid_keys run] at hopen
  exact Bool.false_ne_true (hopen _ rfl)

end Network

end Arxia
