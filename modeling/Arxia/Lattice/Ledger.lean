import Arxia.Lattice.Validation
import Arxia.Transition.Runs

/-!
# The ledger

`Ledger` keeps the account chains, an index of the accepted Sends, the set of the consumed ones and
the minted supply. `add_block` is written in the order of the source, because the order shows: the
account's entry is created by `entry(..).or_default()` after the supply and the Receive checks and
before the continuity checks, so what a refusal leaves behind depends on which check refused.

The section on what a call does replaces the code for every later file. `Admits` is the condition
under which a block is accepted, `Extends` the state it leaves, and `Passes` separates the refusals
before the entry is created from those after.
-/

namespace Arxia

open Rust

/-- Compact summary of an accepted `Send` block. -/
structure SendInfo where
  destination : String
  amount : UInt64
  deriving DecidableEq

/-- Global ledger index of all account chains. -/
structure Ledger where
  /-- Map from account hex public key to block list. -/
  chains : HashMap String (Vec Block)
  /-- Index of all accepted `Send` block hashes. -/
  sendIndex : HashMap String SendInfo
  /-- The source hashes already credited by an accepted `Receive`. -/
  consumedSends : Finset String
  /-- Running sum of `initial_balance` across every accepted `Open` block. -/
  totalSupply : UInt64
  deriving DecidableEq

namespace Ledger

/-- Create a new empty ledger. -/
def new : Ledger where
  chains := ∅
  sendIndex := ∅
  consumedSends := ∅
  totalSupply := 0

/-- Get the chain for a specific account. -/
def getChain (l : Ledger) (account : String) : Option (Vec Block) := l.chains.lookup account

/-- The blocks of an account, none when it has no entry. -/
def blocks (l : Ledger) (account : String) : List Block := (l.getChain account).elim [] Vec.toList

@[simp] theorem blocks_new (account : String) : new.blocks account = [] := rfl

/-! ## The checks of `add_block` -/

/-- Open blocks must not push the cumulative supply past the protocol-wide ceiling. -/
def checkSupply (l : Ledger) (block : Block) : Except ArxiaError Unit :=
  match block.blockType with
  | .open initialBalance => do
    let projected ← okOr (l.totalSupply.checkedAdd initialBalance)
      (.supplyCapExceeded (UInt64.ofNat u64Max) TOTAL_SUPPLY_MICRO_ARX)
    ensure (projected ≤ TOTAL_SUPPLY_MICRO_ARX)
      (.supplyCapExceeded projected TOTAL_SUPPLY_MICRO_ARX)
  | _ => .ok ()

/-- Receive blocks must reference an accepted Send to this account, not consumed elsewhere. -/
def checkReceive (l : Ledger) (block : Block) : Except ArxiaError Unit :=
  match block.blockType with
  | .receive sourceHash => do
    let sendInfo ← okOr (l.sendIndex.lookup sourceHash) (.unknownSourceSend sourceHash)
    ensure (sendInfo.destination = block.account) .wrongDestination
    ensure (sourceHash ∉ l.consumedSends) (.duplicateReceive sourceHash)
  | _ => .ok ()

/-- The incremental chain-continuity check, on the chain the block would extend. -/
def checkContinuity (m : Overflow) (chain : Vec Block) (block : Block) :
    Fallible ArxiaError Unit :=
  match chain.toList.getLast? with
  | some last => do
    let expectedNonce ← Fallible.orPanic (last.nonce.plus m 1)
    Fallible.ofExcept (ensure (block.nonce = expectedNonce)
      (.nonceGap chain.toList.length expectedNonce block.nonce))
    Fallible.ofExcept (ensure (block.previous = last.hash) (.hashChainBroken chain.toList.length))
  | none => do
    Fallible.ofExcept (ensure (block.nonce = 1) (.nonceGap 0 1 block.nonce))
    Fallible.ofExcept (ensure (block.blockType.isOpen = true)
      (.invalidGenesis "first block must be OPEN"))
    Fallible.ofExcept (ensure (block.previous = "")
      (.invalidGenesis "genesis must have empty previous"))

/-- Maintain the cross-chain indices; `none` is the `expect` on the supply addition. -/
def recordBlock (l : Ledger) (block : Block) : Option Ledger :=
  match block.blockType with
  | .send destination amount =>
    some { l with sendIndex := l.sendIndex.insert block.hash ⟨destination, amount⟩ }
  | .receive sourceHash => some { l with consumedSends := insert sourceHash l.consumedSends }
  | .open initialBalance =>
    (l.totalSupply.checkedAdd initialBalance).map fun supply ↦ { l with totalSupply := supply }
  | .revoke _ => some l

/-- Add a block to the ledger. -/
def addBlock (m : Overflow) (K : Crates) (block : Block) : Call Ledger ArxiaError Unit := do
  Call.ofExcept (verifyBlock K block)
  let l ← get
  Call.ofExcept (l.checkSupply block)
  Call.ofExcept (l.checkReceive block)
  -- `self.chains.entry(block.account).or_default()`
  modify fun l ↦ { l with chains := HashMap.orInsert l.chains block.account Vec.empty }
  let l ← get
  let chain := (l.getChain block.account).getD Vec.empty
  Call.ofFallible (checkContinuity m chain block)
  let l ← Call.orPanic (l.recordBlock block)
  let chain ← Call.orPanic (chain.push block)
  set { l with chains := l.chains.insert block.account chain }

/-! ## What a block contributes -/

end Ledger

namespace Block

/-- The index entry of an accepted block, for a Send. -/
def sendInfo (b : Block) : Option SendInfo :=
  match b.blockType with
  | .send destination amount => some ⟨destination, amount⟩
  | _ => none

/-- The supply an accepted block mints. -/
def minted (b : Block) : ℕ :=
  match b.blockType with
  | .open initialBalance => initialBalance.toNat
  | _ => 0

theorem sendInfo_eq_some {b : Block} {info : SendInfo} :
    b.sendInfo = some info ↔ b.blockType = .send info.destination info.amount := by
  obtain ⟨d, v⟩ := info
  rw [sendInfo]
  split <;> simp_all

theorem minted_of_open {b : Block} {v : UInt64} (h : b.blockType = .open v) :
    b.minted = v.toNat := by
  rw [minted, h]

theorem minted_of_not_open {b : Block} (h : b.blockType.isOpen = false) : b.minted = 0 := by
  rw [minted]
  split
  · rename_i v htype
    rw [htype] at h
    cases h
  · rfl

end Block

namespace Ledger

/-! ## What a call does -/

/-- The checks before the account's entry is created. -/
structure Passes (K : Crates) (l : Ledger) (b : Block) : Prop where
  verified : Verified K b
  supply : ∀ v, b.blockType = .open v →
    l.totalSupply.toNat + v.toNat ≤ TOTAL_SUPPLY_MICRO_ARX.toNat
  source : ∀ x, b.blockType = .receive x →
    ∃ info, l.sendIndex.lookup x = some info ∧ info.destination = b.account ∧
      x ∉ l.consumedSends

/-- The check after it: `b` is a genesis, or follows the last block. -/
def Continues (m : Overflow) (chain : List Block) (b : Block) : Prop :=
  match chain.getLast? with
  | some last => last.nonce.plus m 1 = some b.nonce ∧ b.previous = last.hash
  | none => Genesis b

/-- `add_block` accepts the block, memory permitting. -/
structure Admits (m : Overflow) (K : Crates) (l : Ledger) (b : Block) : Prop where
  passes : Passes K l b
  continues : Continues m (l.blocks b.account) b

/-- The state before the continuity check: the account has an entry. -/
def touch (l : Ledger) (account : String) : Ledger :=
  { l with chains := HashMap.orInsert l.chains account Vec.empty }

theorem checkSupply_eq_ok {l : Ledger} {b : Block} :
    l.checkSupply b = .ok () ↔ ∀ v, b.blockType = .open v →
      l.totalSupply.toNat + v.toNat ≤ TOTAL_SUPPLY_MICRO_ARX.toNat := by
  rw [checkSupply]
  split
  · rename_i initialBalance htype
    simp only [bind_eq_ok, okOr_eq_ok, UInt64.checkedAdd_eq_some, ensure_eq_ok,
      UInt64.le_iff_toNat_le, htype, BlockType.open.injEq, forall_eq']
    constructor
    · rintro ⟨projected, hsum, hle⟩
      rwa [hsum] at hle
    · intro hle
      have hfits : l.totalSupply.toNat + initialBalance.toNat ≤ u64Max :=
        hle.trans (UInt64.toNat_le_u64Max _)
      refine ⟨l.totalSupply + initialBalance, UInt64.toNat_add_of_le hfits, ?_⟩
      rwa [UInt64.toNat_add_of_le hfits]
  · rename_i hother
    exact iff_of_true rfl fun v hv ↦ absurd hv (hother v)

theorem checkReceive_eq_ok {l : Ledger} {b : Block} :
    l.checkReceive b = .ok () ↔ ∀ x, b.blockType = .receive x →
      ∃ info, l.sendIndex.lookup x = some info ∧ info.destination = b.account ∧
        x ∉ l.consumedSends := by
  rw [checkReceive]
  split
  · rename_i sourceHash htype
    simp only [bind_eq_ok, okOr_eq_ok, ensure_eq_ok, htype, BlockType.receive.injEq, forall_eq',
      exists_and_left, exists_const]
  · rename_i hother
    exact iff_of_true rfl fun x hx ↦ absurd hx (hother x)

theorem exec_checkContinuity_eq_ok {m : Overflow} {chain : Vec Block} {b : Block} :
    (checkContinuity m chain b).exec = some (.ok ()) ↔ Continues m chain.toList b := by
  rw [checkContinuity, Continues]
  split
  · rename_i last hlast
    simp only [Fallible.exec_bind_eq_ok, Fallible.exec_orPanic, Fallible.exec_ofExcept,
      Option.map_eq_some_iff, Except.ok.injEq, exists_eq_right, Option.some_inj, ensure_eq_ok,
      exists_and_left, exists_const]
    constructor
    · rintro ⟨_, hplus, rfl, hprev⟩
      exact ⟨hplus, hprev⟩
    · rintro ⟨hplus, hprev⟩
      exact ⟨_, hplus, rfl, hprev⟩
  · simp only [Fallible.exec_bind_eq_ok, Fallible.exec_ofExcept, Option.some_inj, ensure_eq_ok,
      exists_and_left, exists_const]
    constructor
    · rintro ⟨hnonce, hopen, hprev⟩
      exact ⟨hnonce, hopen, hprev⟩
    · rintro ⟨hnonce, hopen, hprev⟩
      exact ⟨hnonce, hopen, hprev⟩

theorem passes_iff {K : Crates} {l : Ledger} {b : Block} :
    Passes K l b ↔ Verified K b ∧ l.checkSupply b = .ok () ∧ l.checkReceive b = .ok () := by
  rw [checkSupply_eq_ok, checkReceive_eq_ok]
  exact ⟨fun h ↦ ⟨h.verified, h.supply, h.source⟩, fun ⟨h1, h2, h3⟩ ↦ ⟨h1, h2, h3⟩⟩

instance (K : Crates) (l : Ledger) : DecidablePred (Passes K l) := fun b ↦
  decidable_of_iff (Verified K b ∧ (l.checkSupply b).toBool = true ∧
    (l.checkReceive b).toBool = true) (by
      rw [passes_iff]
      cases l.checkSupply b <;> cases l.checkReceive b <;> simp [Except.toBool])

/-- A refusal before the entry is created leaves the ledger alone. -/
theorem exec_addBlock_of_not_passes {m : Overflow} {K : Crates} {l : Ledger} {b : Block}
    (h : ¬ Passes K l b) : ∃ e, (addBlock m K b).exec l = some (.error e, l) := by
  rw [passes_iff] at h
  rw [addBlock]
  by_cases hver : Verified K b
  · rw [Call.exec_check_ok hver, Call.exec_bind_ok (Call.exec_get l)]
    by_cases hsup : l.checkSupply b = .ok ()
    · obtain ⟨e, he⟩ := exists_error_of_ne_ok fun hrec ↦ h ⟨hver, hsup, hrec⟩
      rw [Call.exec_check_ok hsup, Call.exec_check_error he]
      exact ⟨e, rfl⟩
    · obtain ⟨e, he⟩ := exists_error_of_ne_ok hsup
      rw [Call.exec_check_error he]
      exact ⟨e, rfl⟩
  · obtain ⟨e, he⟩ := exists_error_of_ne_ok hver
    rw [Call.exec_check_error he]
    exact ⟨e, rfl⟩

@[simp] theorem blocks_touch (l : Ledger) (a a' : String) :
    (l.touch a).blocks a' = l.blocks a' := by
  rw [blocks, blocks, getChain, getChain, touch]
  by_cases h : a' = a
  · subst h
    rw [HashMap.lookup_orInsert_self]
    cases l.chains.lookup a' <;> rfl
  · rw [HashMap.lookup_orInsert_of_ne _ h]

/-- The vector `entry(..).or_default()` returns. -/
theorem toList_getChain_touch (l : Ledger) (a : String) :
    (((l.touch a).getChain a).getD Vec.empty).toList = l.blocks a := by
  rw [← blocks_touch l a a, blocks]
  cases (l.touch a).getChain a <;> rfl

/-- Past the first checks, the continuity check runs on the ledger with the entry in place. -/
theorem exec_addBlock_of_passes {m : Overflow} {K : Crates} {l : Ledger} {b : Block}
    (h : Passes K l b) :
    (addBlock m K b).exec l =
      (checkContinuity m (((l.touch b.account).getChain b.account).getD Vec.empty) b).exec.bind
        fun r ↦ match r with
          | .error e => some (.error e, l.touch b.account)
          | .ok () => ((l.touch b.account).recordBlock b).bind fun l₁ ↦
            ((((l.touch b.account).getChain b.account).getD Vec.empty).push b).map fun chain ↦
              (.ok (), { l₁ with chains := l₁.chains.insert b.account chain }) := by
  obtain ⟨hver, hsup, hrec⟩ := passes_iff.mp h
  rw [addBlock, Call.exec_check_ok hver, Call.exec_bind_ok (Call.exec_get l),
    Call.exec_check_ok hsup, Call.exec_check_ok hrec, Call.exec_bind_ok (Call.exec_modify _ l),
    Call.exec_bind_ok (Call.exec_get _), Call.exec_bind, Call.exec_ofFallible, ← touch]
  cases (checkContinuity m (((l.touch b.account).getChain b.account).getD Vec.empty) b).exec with
  | none => rfl
  | some r =>
    cases r with
    | error e => rfl
    | ok u =>
      simp only [Option.map_some, Option.bind_some]
      rw [Call.exec_bind, Call.exec_orPanic]
      cases (l.touch b.account).recordBlock b with
      | none => rfl
      | some l₁ =>
        simp only [Option.map_some, Option.bind_some]
        rw [Call.exec_bind, Call.exec_orPanic]
        cases (((l.touch b.account).getChain b.account).getD Vec.empty).push b <;> rfl

/-- `l'` is `l` with the accepted block `b` added. -/
structure Extends (l : Ledger) (b : Block) (l' : Ledger) : Prop where
  chains : ∃ w : Vec Block, w.toList = l.blocks b.account ++ [b] ∧
    l'.chains = l.chains.insert b.account w
  sendIndex : ∀ x, l'.sendIndex.lookup x =
    (if x = b.hash then b.sendInfo else none).or (l.sendIndex.lookup x)
  consumedSends : ∀ x, x ∈ l'.consumedSends ↔ b.blockType = .receive x ∨ x ∈ l.consumedSends
  totalSupply : l'.totalSupply.toNat = l.totalSupply.toNat + b.minted

/-- The index maintenance never reaches its `expect`, and touches each index for one block type. -/
theorem recordBlock_spec {l : Ledger} {b : Block}
    (hsupply : ∀ v, b.blockType = .open v → l.totalSupply.toNat + v.toNat ≤ u64Max) :
    ∃ l₁, l.recordBlock b = some l₁ ∧ l₁.chains = l.chains ∧
      (∀ x, l₁.sendIndex.lookup x =
        (if x = b.hash then b.sendInfo else none).or (l.sendIndex.lookup x)) ∧
      (∀ x, x ∈ l₁.consumedSends ↔ b.blockType = .receive x ∨ x ∈ l.consumedSends) ∧
      l₁.totalSupply.toNat = l.totalSupply.toNat + b.minted := by
  rw [recordBlock]
  cases htype : b.blockType with
  | «open» v =>
    have hfits := hsupply v htype
    have hsum := UInt64.toNat_add_of_le hfits
    refine ⟨{ l with totalSupply := l.totalSupply + v }, ?_, rfl, fun x ↦ ?_, fun x ↦ ?_, ?_⟩
    · exact congrArg (Option.map _) (UInt64.checkedAdd_eq_some.mpr hsum)
    · simp [Block.sendInfo, htype]
    · simp
    · rw [Block.minted_of_open htype, ← hsum]
  | send d v =>
    refine ⟨_, rfl, rfl, fun x ↦ ?_, fun x ↦ by simp, by simp [Block.minted, htype]⟩
    rw [Block.sendInfo, htype]
    by_cases hx : x = b.hash
    · rw [if_pos hx, hx, AList.lookup_insert]
      rfl
    · rw [if_neg hx, AList.lookup_insert_ne hx, Option.none_or]
  | receive y =>
    refine ⟨_, rfl, rfl, fun x ↦ by simp [Block.sendInfo, htype], fun x ↦ ?_,
      by simp [Block.minted, htype]⟩
    simp [eq_comm]
  | revoke y =>
    exact ⟨_, rfl, rfl, fun x ↦ by simp [Block.sendInfo, htype], fun x ↦ by simp,
      by simp [Block.minted, htype]⟩

theorem Passes.supply_fits {K : Crates} {l : Ledger} {b : Block} (h : Passes K l b) {v : UInt64}
    (hv : b.blockType = .open v) : l.totalSupply.toNat + v.toNat ≤ u64Max :=
  (h.supply v hv).trans (UInt64.toNat_le_u64Max _)

/-- **Acceptance.** An accepted block was admissible, and extends the ledger. -/
theorem exec_addBlock_ok {m : Overflow} {K : Crates} {l l' : Ledger} {b : Block}
    (h : (addBlock m K b).exec l = some (.ok (), l')) : Admits m K l b ∧ Extends l b l' := by
  have hpass : Passes K l b := by
    by_contra hrefused
    obtain ⟨e, he⟩ := exec_addBlock_of_not_passes (m := m) hrefused
    rw [he] at h
    simp at h
  rw [exec_addBlock_of_passes hpass, Option.bind_eq_some_iff] at h
  obtain ⟨r, hr, h⟩ := h
  cases r with
  | error e => simp at h
  | ok u =>
    rw [exec_checkContinuity_eq_ok, toList_getChain_touch] at hr
    obtain ⟨l₁, hrecord, hchains, hsend, hconsumed, hsupply⟩ :=
      recordBlock_spec (l := l.touch b.account) fun v hv ↦ hpass.supply_fits hv
    simp only [hrecord, Option.bind_some, Option.map_eq_some_iff] at h
    obtain ⟨w, hw, hl'⟩ := h
    rw [Vec.push_eq_some, toList_getChain_touch] at hw
    obtain rfl := (Prod.mk.inj hl').2
    refine ⟨⟨hpass, hr⟩, ⟨⟨w, hw, ?_⟩, hsend, hconsumed, hsupply⟩⟩
    exact (congrArg (·.insert b.account w) hchains).trans (HashMap.insert_orInsert _ _ _ _)

/-- **An admissible block is accepted** as long as its chain has room for it. -/
theorem exec_addBlock_of_admits {m : Overflow} {K : Crates} {l : Ledger} {b : Block}
    (h : Admits m K l b) (hroom : (l.blocks b.account).length < isizeMax) :
    ∃ l', (addBlock m K b).exec l = some (.ok (), l') := by
  obtain ⟨l₁, hrecord, -⟩ :=
    recordBlock_spec (l := l.touch b.account) fun v hv ↦ h.passes.supply_fits hv
  have hcont := exec_checkContinuity_eq_ok.mpr
    ((toList_getChain_touch l b.account).symm ▸ h.continues)
  have hlen : (l.blocks b.account ++ [b]).length ≤ isizeMax := by
    rw [List.length_append]
    exact hroom
  have hpush : (((l.touch b.account).getChain b.account).getD Vec.empty).push b =
      some ⟨l.blocks b.account ++ [b], hlen⟩ :=
    Vec.push_eq_some.mpr (by rw [toList_getChain_touch])
  rw [exec_addBlock_of_passes h.passes, hcont, Option.bind_some]
  simp only [hrecord, hpush, Option.bind_some, Option.map_some]
  exact ⟨_, rfl⟩

/-- **A refusal by the continuity check** leaves the account with an entry. -/
theorem exec_addBlock_of_not_continues {m : Overflow} {K : Crates} {l l' : Ledger} {b : Block}
    {r : Except ArxiaError Unit} (hpass : Passes K l b)
    (hcont : ¬ Continues m (l.blocks b.account) b)
    (h : (addBlock m K b).exec l = some (r, l')) :
    (∃ e, r = .error e) ∧ l' = l.touch b.account := by
  rw [exec_addBlock_of_passes hpass, Option.bind_eq_some_iff] at h
  obtain ⟨r', hr', h⟩ := h
  cases r' with
  | ok u =>
    rw [exec_checkContinuity_eq_ok, toList_getChain_touch] at hr'
    exact absurd hr' hcont
  | error e =>
    obtain ⟨rfl, rfl⟩ := Prod.mk.inj (Option.some_inj.mp h)
    exact ⟨⟨e, rfl⟩, rfl⟩

/-- **Refusals.** An error means the block was not admissible, and the ledger is as it was up to an
entry for the account. -/
theorem exec_addBlock_error {m : Overflow} {K : Crates} {l l' : Ledger} {b : Block}
    {e : ArxiaError} (h : (addBlock m K b).exec l = some (.error e, l')) :
    ¬ Admits m K l b ∧ l' = if Passes K l b then l.touch b.account else l := by
  by_cases hpass : Passes K l b
  · rw [if_pos hpass]
    have hcont : ¬ Continues m (l.blocks b.account) b := by
      intro hcont
      rw [exec_addBlock_of_passes hpass, exec_checkContinuity_eq_ok.mpr
        ((toList_getChain_touch l b.account).symm ▸ hcont), Option.bind_some] at h
      obtain ⟨l₁, -, h⟩ := Option.bind_eq_some_iff.mp h
      obtain ⟨w, -, h⟩ := Option.map_eq_some_iff.mp h
      simp at h
    exact ⟨fun hadm ↦ hcont hadm.continues, (exec_addBlock_of_not_continues hpass hcont h).2⟩
  · rw [if_neg hpass]
    obtain ⟨e', he'⟩ := exec_addBlock_of_not_passes (m := m) hpass
    rw [he'] at h
    exact ⟨fun hadm ↦ hpass hadm.passes, (Prod.mk.inj (Option.some_inj.mp h)).2.symm⟩

/-! ## Sums over the chains -/

/-- The sum of `g` over the chains. -/
def sumChains (l : Ledger) (g : List Block → ℕ) : ℕ :=
  HashMap.total (fun _ chain ↦ g chain.toList) l.chains

@[simp] theorem sumChains_new (g : List Block → ℕ) : new.sumChains g = 0 := rfl

theorem sumChains_touch {g : List Block → ℕ} (hg : g [] = 0) (l : Ledger) (a : String) :
    (l.touch a).sumChains g = l.sumChains g :=
  HashMap.total_orInsert hg l.chains

/-- An accepted block changes one summand. -/
theorem Extends.sumChains {g : List Block → ℕ} (hg : g [] = 0) {l l' : Ledger} {b : Block}
    (h : Extends l b l') : l'.sumChains g + g (l.blocks b.account) =
      l.sumChains g + g (l.blocks b.account ++ [b]) := by
  obtain ⟨w, hw, hchains⟩ := h.chains
  have hins := HashMap.total_insert (fun _ chain ↦ g chain.toList) l.chains b.account w
  have hold : (l.chains.lookup b.account).elim 0 (fun chain ↦ g chain.toList) =
      g (l.blocks b.account) := by
    rw [blocks, getChain]
    cases l.chains.lookup b.account with
    | none => exact hg.symm
    | some v => rfl
  rw [hw, hold] at hins
  rwa [Ledger.sumChains, hchains]

/-! ## Runs -/

/-- One call of `add_block`: the block offered and the `Result` returned. -/
abbrev Attempt := Block × Except ArxiaError Unit

/-- The ledger as a transition system: it starts empty, a step is a call that returns. -/
def system (m : Overflow) (K : Crates) : Transition.System Ledger Attempt where
  init := fun l ↦ l = new
  step := fun l c l' ↦ (addBlock m K c.1).exec l = some (c.2, l')

/-- The blocks a sequence of attempts added, in order. -/
def accepted (attempts : List Attempt) : List Block :=
  attempts.filterMap fun c ↦ match c.2 with
    | .ok _ => some c.1
    | .error _ => none

theorem exists_of_mem_accepted {attempts : List Attempt} {b : Block} (h : b ∈ accepted attempts) :
    ∃ c ∈ attempts, c.1 = b := by
  obtain ⟨c, hc, hb⟩ := List.mem_filterMap.mp h
  split at hb
  · exact ⟨c, hc, Option.some_inj.mp hb⟩
  · simp at hb

/-- Offer blocks one after the other, whatever the outcome of each, and collect the results. -/
def feed (m : Overflow) (K : Crates) : Ledger → List Block →
    Option (List (Except ArxiaError Unit) × Ledger)
  | l, [] => some ([], l)
  | l, b :: bs => do
    let (r, l) ← (addBlock m K b).exec l
    let (rs, l) ← feed m K l bs
    some (r :: rs, l)

theorem feed_cons_eq_some {m : Overflow} {K : Crates} {l l'' : Ledger} {b : Block}
    {bs : List Block} {rs : List (Except ArxiaError Unit)} :
    feed m K l (b :: bs) = some (rs, l'') ↔ ∃ r l' rs', (addBlock m K b).exec l = some (r, l') ∧
      feed m K l' bs = some (rs', l'') ∧ rs = r :: rs' := by
  rw [feed]
  simp only [Option.bind_eq_bind, Option.bind_eq_some_iff, Option.some_inj, Prod.mk.injEq,
    Prod.exists]
  constructor
  · rintro ⟨r, l', hstep, rs', l₂, hrest, rfl, rfl⟩
    exact ⟨r, l', rs', hstep, hrest, rfl⟩
  · rintro ⟨r, l', rs', hstep, hrest, rfl⟩
    exact ⟨r, l', hstep, rs', l'', hrest, rfl, rfl⟩

/-- Feeding continues a run. -/
theorem run_append_feed {m : Overflow} {K : Crates} {attempts : List Attempt} {l l' : Ledger}
    {bs : List Block} {rs : List (Except ArxiaError Unit)} (run : (system m K).Run attempts l)
    (h : feed m K l bs = some (rs, l')) : (system m K).Run (attempts ++ bs.zip rs) l' := by
  induction bs generalizing attempts l rs with
  | nil =>
    obtain ⟨rfl, rfl⟩ := Prod.mk.inj (Option.some_inj.mp h)
    rwa [List.zip_nil_left, List.append_nil]
  | cons b bs ih =>
    obtain ⟨r, l₁, rs', hstep, hrest, rfl⟩ := feed_cons_eq_some.mp h
    have hrun := ih (run.step (a := (b, r)) hstep) hrest
    rwa [List.append_assoc] at hrun

end Ledger

end Arxia
