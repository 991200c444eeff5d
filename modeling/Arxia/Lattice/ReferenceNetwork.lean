import Arxia.Lattice.Network
import Arxia.Lattice.Reference

/-!
# A network of two reference accounts

The reference cryptography with the full serializer, and the accounts of two of its keys. What they
record are the blocks of the reference transfer: on these the serializer writes the same text as
the one without escaping.
-/

namespace Arxia.Reference

open Rust Transition AccountChain Network

/-- The reference cryptography with the documented serializer. -/
def serde : Crates where
  toCrypto := crypto
  blockTypeJson := fun t ↦ .ok (String.ofList t.json)

theorem serde_serde : Serde serde := fun _ ↦ rfl

/-- The signing key of a public key; nothing is secret here. -/
def signingKey (key : AccountId) : SigningKey := ⟨key, sign key⟩

theorem valid_signingKey (key : AccountId) : (signingKey key).Valid serde :=
  ⟨rfl, verify_sign key⟩

/-- The first account is Alice's, the second Bob's. -/
def keys (second : Bool) : SigningKey :=
  signingKey (Vector.replicate 32 (if second then 0xbb else 0xaa))

theorem valid_keys (i : Bool) : (keys i).Valid serde := valid_signingKey _

theorem injective_keys : Function.Injective fun i ↦ (keys i).verifyingKey := by
  intro i j h
  cases i <;> cases j
  · rfl
  · exact absurd h (by decide)
  · exact absurd h (by decide)
  · rfl

/-- What an account seals is what its key holder signs. -/
theorem sealed_eq_sealBlock {a : AccountChain} {key : AccountId}
    (hkey : a.signingKey = signingKey key) (hpair : a.KeyPair) {previous : String}
    {blockType : BlockType} {timestamp balance nonce : UInt64}
    (hjson : String.ofList blockType.json = blockTypeJson blockType) :
    a.sealed serde timestamp balance nonce previous blockType =
      sealBlock a.publicKeyHex previous blockType balance nonce timestamp := by
  rw [sealed, sealBlock, hjson, hpair.decode, hkey]
  simp only [Option.getD_some]
  rw [Block.mk.injEq]
  refine ⟨rfl, rfl, rfl, rfl, rfl, rfl, rfl, ?_⟩
  exact Vector.toList_append

/-- The account string of a key. -/
def name (second : Bool) : String := if second then bob else alice

section Run

variable {tr : List (Event Bool)} {s : State Bool}

theorem publicKeyHex_eq_name (run : (system .panics serde keys).Run tr s) (i : Bool) :
    (s.accounts i).publicKeyHex = name i := by
  rw [key_of_run serde_serde valid_keys run]
  cases i <;> rfl

/-- The part of a chain that the next block depends on. -/
structure Tip (tr : List (Event Bool)) (i : Bool) (previous : String) (balance nonce : UInt64) :
    Prop where
  previous : ((tr.filterMap (Event.recorded i)).getLast?.map Block.hash).getD "" = previous
  balance : ((tr.filterMap (Event.recorded i)).getLast?.map Block.balance).getD 0 = balance
  nonce : ((tr.filterMap (Event.recorded i)).getLast?.map Block.nonce).getD 0 = nonce
  room : (tr.filterMap (Event.recorded i)).length < isizeMax

theorem Tip.account {i : Bool} {previous : String} {balance nonce : UInt64}
    (h : Tip tr i previous balance nonce) (run : (system .panics serde keys).Run tr s) :
    (s.accounts i).lastHash = previous ∧ (s.accounts i).balance = balance ∧
      (s.accounts i).nonce.plus .panics 1 = some (nonce + 1) := by
  have hsound := sound_of_run serde_serde valid_keys run i
  have hchain := chain_of_run serde_serde valid_keys run i
  have hnonce := hsound.counters.2
  rw [hchain, h.nonce] at hnonce
  have hle : (s.accounts i).nonce.toNat + (1 : UInt64).toNat ≤ u64Max := hsound.nonce_lt
  refine ⟨?_, ?_, ?_⟩
  · rw [lastHash, hchain, h.previous]
  · rw [hsound.counters.1, hchain, h.balance]
  · rw [UInt64.plus_of_le _ hle, hnonce]

/-- A permitted call is made with the block its effect and the clock determine. -/
theorem exists_step_sealBlock (run : (system .panics serde keys).Run tr s) {i : Bool} {op : Op}
    {timestamp : UInt64} {previous : String} {blockType : BlockType} {balance nonce : UInt64}
    (hfed : ∀ c, op = .receive c → c ∈ s.sends) (hpermits : Permits (s.accounts i) op)
    (hroom : (tr.filterMap (Event.recorded i)).length < isizeMax)
    (hwrites : ∀ b sources, Writes .panics (s.accounts i) b op sources →
      b.previous = previous ∧ b.blockType = blockType ∧ b.balance = balance ∧ b.nonce = nonce)
    (hjson : String.ofList blockType.json = blockTypeJson blockType) :
    ∃ s', (system .panics serde keys).Run (tr ++ [⟨i, timestamp, op,
      .ok (sealBlock (name i) previous blockType balance nonce timestamp)⟩]) s' := by
  have hsound := sound_of_run serde_serde valid_keys run i
  rw [← chain_of_run serde_serde valid_keys run] at hroom
  obtain ⟨b, s', hstep, hrec, hw⟩ :=
    exists_step serde_serde valid_keys run timestamp hfed hpermits hroom
  obtain ⟨rfl, rfl, rfl, rfl⟩ := hwrites b _ hw
  rw [hrec.eq_sealed serde_serde, sealed_eq_sealBlock hsound.key hsound.pair hjson,
    publicKeyHex_eq_name run] at hstep
  exact ⟨s', .step run hstep⟩

theorem exists_run_open (run : (system .panics serde keys).Run tr s) {i : Bool}
    (timestamp v : UInt64) (hnew : tr.filterMap (Event.recorded i) = [])
    (hcap : v ≤ MAX_INITIAL_BALANCE_PER_ACCOUNT)
    (hjson : String.ofList (BlockType.open v).json = blockTypeJson (.open v)) :
    ∃ s', (system .panics serde keys).Run (tr ++ [⟨i, timestamp, .open v,
      .ok (sealBlock (name i) "" (.open v) v 1 timestamp)⟩]) s' := by
  have hchain := chain_of_run serde_serde valid_keys run i
  refine exists_step_sealBlock run (fun c hc ↦ ?_) (.open (hchain.trans hnew) hcap) ?_
    (fun b sources hw ↦ ?_) hjson
  · simp at hc
  · rw [hnew]
    decide
  · obtain ⟨htype, hprev, hbalance, hnonce, -⟩ := hw.of_open
    exact ⟨hprev, htype, hbalance, hnonce⟩

theorem exists_run_send (run : (system .panics serde keys).Run tr s) {i : Bool}
    {previous : String} {balance nonce : UInt64} (htip : Tip tr i previous balance nonce)
    (timestamp : UInt64) {d : String} {v : UInt64} (hpos : v ≠ 0) (hother : d ≠ name i)
    (hfunds : v ≤ balance)
    (hjson : String.ofList (BlockType.send d v).json = blockTypeJson (.send d v)) :
    ∃ s', (system .panics serde keys).Run (tr ++ [⟨i, timestamp, .send d v,
      .ok (sealBlock (name i) previous (.send d v) (balance - v) (nonce + 1) timestamp)⟩]) s' := by
  obtain ⟨hlast, hbal, hplus⟩ := htip.account run
  refine exists_step_sealBlock run (fun c hc ↦ ?_) (.send hpos ?_ ?_) htip.room
    (fun b sources hw ↦ ?_) hjson
  · simp at hc
  · rw [publicKeyHex_eq_name run]
    exact hother
  · rw [hbal]
    exact hfunds
  · obtain ⟨htype, hprev, hbalance, hnonce, -⟩ := hw.of_send
    refine ⟨hprev.trans hlast, htype, UInt64.toNat_inj.mp ?_, ?_⟩
    · rw [hbal] at hbalance
      rw [UInt64.toNat_sub_of_le _ _ hfunds]
      omega
    · exact Option.some_inj.mp (hnonce.symm.trans hplus)

theorem exists_run_receive (run : (system .panics serde keys).Run tr s) {i : Bool}
    {previous : String} {balance nonce : UInt64} (htip : Tip tr i previous balance nonce)
    (timestamp : UInt64) {c : Block} {v : UInt64} (hfed : c ∈ tr.filterMap Event.sent)
    (hsend : c.blockType = .send (name i) v) (hfresh : ∀ e ∈ tr, e.received = none)
    (hcap : balance.toNat + v.toNat ≤ MAX_INITIAL_BALANCE_PER_ACCOUNT.toNat)
    (hjson : String.ofList (BlockType.receive c.hash).json = blockTypeJson (.receive c.hash)) :
    ∃ s', (system .panics serde keys).Run (tr ++ [⟨i, timestamp, .receive c,
      .ok (sealBlock (name i) previous (.receive c.hash) (balance + v) (nonce + 1)
        timestamp)⟩]) s' := by
  obtain ⟨hlast, hbal, hplus⟩ := htip.account run
  have hsum : (balance + v).toNat = balance.toNat + v.toNat :=
    UInt64.toNat_add_of_le (hcap.trans (UInt64.toNat_le_u64Max _))
  have hpermits : Permits (s.accounts i) (.receive c) := by
    refine @Permits.receive _ c v ?_ ?_ ?_
    · rw [publicKeyHex_eq_name run]
      exact hsend
    · rw [consumed_of_run serde_serde valid_keys run]
      rintro ⟨e, he, -, c', hc', -⟩
      rw [hfresh e he] at hc'
      simp at hc'
    · rw [hbal]
      exact hcap
  refine exists_step_sealBlock run (fun c' hc' ↦ ?_) hpermits htip.room
    (fun b sources hw ↦ ?_) hjson
  · rw [← Op.receive.inj hc', sends_of_run run]
    exact hfed
  · obtain ⟨htype, hprev, hbalance, hnonce, -⟩ := hw.of_receive hsend
    refine ⟨hprev.trans hlast, htype, UInt64.toNat_inj.mp ?_, ?_⟩
    · rw [hbalance, hbal, hsum]
    · exact Option.some_inj.mp (hnonce.symm.trans hplus)

end Run

/-! ## Runs -/

/-- Alice opens her account. -/
def opened : List (Event Bool) := [⟨false, 1, .open 100, .ok openAlice⟩]

theorem run_opened : ∃ s, (system .panics serde keys).Run opened s := by
  have run₀ : (system .panics serde keys).Run [] ⟨fun i ↦ new (keys i), []⟩ :=
    .start ⟨fun _ ↦ rfl, rfl⟩
  exact exists_run_open (i := false) run₀ 1 100 rfl (by decide) (by decide +kernel)

theorem tip_opened : Tip opened false openAlice.hash 100 1 := ⟨rfl, rfl, rfl, by decide⟩

/-- She sends to Bob. -/
def payment : List (Event Bool) := opened ++ [⟨false, 3, .send bob 40, .ok sendToBob⟩]

theorem run_payment : ∃ s, (system .panics serde keys).Run payment s := by
  obtain ⟨s, run⟩ := run_opened
  exact exists_run_send run tip_opened 3 (by decide) (by decide) (by decide) (by decide +kernel)

/-- Bob opens his account and receives. -/
def paid : List (Event Bool) :=
  payment ++ [⟨true, 2, .open 0, .ok openBob⟩] ++
    [⟨true, 4, .receive sendToBob, .ok receiveFromAlice⟩]

theorem run_paid : ∃ s, (system .panics serde keys).Run paid s := by
  obtain ⟨s₂, run₂⟩ := run_payment
  obtain ⟨s₃, run₃⟩ := exists_run_open (i := true) run₂ 2 0 rfl (by decide) (by decide +kernel)
  exact exists_run_receive (i := true) (c := sendToBob) (v := 40) run₃
    ⟨rfl, rfl, rfl, by decide⟩ 4 (List.mem_singleton_self _) rfl (by decide) (by decide)
    (by decide +kernel)

/-- Bob receives without opening his account. -/
def unopened : List (Event Bool) :=
  payment ++ [⟨true, 4, .receive sendToBob,
    .ok (sealBlock bob "" (.receive sendToBob.hash) 40 1 4)⟩]

theorem run_unopened : ∃ s, (system .panics serde keys).Run unopened s := by
  obtain ⟨s₂, run₂⟩ := run_payment
  exact exists_run_receive (i := true) (c := sendToBob) (v := 40) run₂
    ⟨rfl, rfl, rfl, by decide⟩ 4 (List.mem_singleton_self _) rfl (by decide) (by decide)
    (by decide +kernel)

/-- Every block of these runs verifies. -/
theorem verified_of_run {tr : List (Event Bool)} {s : State Bool}
    (run : (system .panics serde keys).Run tr s) {i : Bool} {b : Block}
    (hb : b ∈ tr.filterMap (Event.recorded i)) : Verified serde b := by
  rw [← chain_of_run serde_serde valid_keys run] at hb
  exact ((sound_of_run serde_serde valid_keys run i).own b hb).2

theorem verified_sendToBob : Verified serde sendToBob := by
  obtain ⟨s, run⟩ := run_payment
  exact verified_of_run (i := false) run (List.mem_cons_of_mem _ (List.mem_singleton_self _))

/-- The blocks of the two accounts hash to what they say, without collisions. -/
theorem hashed_paid :
    ∀ b ∈ [openAlice, sendToBob] ++ [openBob, receiveFromAlice], b.Hashed serde := by
  obtain ⟨s, run⟩ := run_paid
  exact List.forall_mem_append.mpr ⟨fun b hb ↦ (verified_of_run (i := false) run hb).hashed,
    fun b hb ↦ (verified_of_run (i := true) run hb).hashed⟩

theorem collisionFree_paid :
    Block.CollisionFree serde ([openAlice, sendToBob] ++ [openBob, receiveFromAlice]) :=
  Block.collisionFree_of_nodup hashed_paid (by decide +kernel)

end Arxia.Reference
