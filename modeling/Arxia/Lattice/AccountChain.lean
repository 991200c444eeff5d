import Arxia.Lattice.Json
import Arxia.Lattice.Validation
import Arxia.Lattice.VectorClock
import Arxia.Rust.Refusals

/-!
# Account chains

The account API: an `AccountChain` owns a key pair and grows its own chain by `open`, `send` and
`receive`. Each method takes a vector clock besides the account, and reads the wall clock once; the
time is an argument here.

From the slice of the public key on, the three methods are the same code with different values, and
that code is `record`. It writes the balance and the nonce before it hashes, so a failing hash would
leave an account that has moved without a block. `exec_record` shows that this does not happen to an
account whose key is a valid point. What comes before that slice only looks: a call is refused by
the list of its documented errors, in their order.
-/

namespace Arxia

open Rust

/-! ## Keys -/

/-- A key as the library generates them: a valid point, and its signatures verify. -/
structure SigningKey.Valid (K : Crates) (key : SigningKey) : Prop where
  strict : K.validatePubkeyStrict key.verifyingKey = .ok ()
  verifies : ∀ data, K.verify key.verifyingKey data (key.sign data) = .ok ()

/-! ## Accounts -/

/-- Manages a single account chain of blocks. -/
structure AccountChain where
  signingKey : SigningKey
  verifyingKey : AccountId
  /-- Hex-encoded public key. -/
  publicKeyHex : String
  /-- The chain of blocks. -/
  chain : Vec Block
  /-- Current balance in micro-ARX. -/
  balance : UInt64
  /-- Current nonce. -/
  nonce : UInt64
  /-- Hashes of SEND blocks already consumed by `receive`. -/
  consumedSources : Finset String

/-- What a method acts on: the account, and the vector clock it is passed. -/
structure Session where
  account : AccountChain
  vclock : VectorClock

namespace AccountChain

/-- Create a new account with a fresh key pair. -/
def new (signingKey : SigningKey) : AccountChain where
  signingKey := signingKey
  verifyingKey := signingKey.verifyingKey
  publicKeyHex := Hex.encode signingKey.verifyingKey.toList
  chain := Vec.empty
  balance := 0
  nonce := 0
  consumedSources := ∅

/-- `self.chain.last().map(|b| b.hash.clone()).unwrap_or_default()`. -/
def lastHash (a : AccountChain) : String := (a.chain.toList.getLast?.map Block.hash).getD ""

/-- The part the methods share: tick the clock, write the balance and the nonce, hash, sign and
push. -/
def record (K : Crates) (timestamp balance nonce : UInt64) (previous : String)
    (blockType : BlockType) : Call Session ArxiaError Block := do
  let s ← get
  let sid ← Call.orPanic (bytePrefix s.account.publicKeyHex.toList 8)
  set { account := { s.account with balance, nonce }, vclock := s.vclock.tick (String.ofList sid) :
    Session }
  let hash ← Call.ofExcept
    (Block.computeHash K s.account.publicKeyHex previous blockType balance nonce timestamp)
  let hashBytes ← Call.ofExcept ((K.hexDecode hash).mapError .hexDecode)
  let signature := s.account.signingKey.sign hashBytes
  let block : Block := {
    account := s.account.publicKeyHex, previous, blockType, balance, nonce, timestamp, hash
    signature := signature.toList }
  let s ← get
  let chain ← Call.orPanic (s.account.chain.push block)
  set { s with account := { s.account with chain } }
  pure block

/-- Open an account with an initial balance (genesis block). -/
def «open» (K : Crates) (timestamp initialBalance : UInt64) : Call Session ArxiaError Block := do
  let s ← get
  Call.ofExcept (ensure (s.account.chain.toList = []) .accountAlreadyOpen)
  Call.ofExcept (ensure (initialBalance ≤ MAX_INITIAL_BALANCE_PER_ACCOUNT)
    (.supplyCapExceeded initialBalance MAX_INITIAL_BALANCE_PER_ACCOUNT))
  Call.ofExcept (K.validatePubkeyStrict s.account.verifyingKey)
  record K timestamp initialBalance 1 "" (.open initialBalance)

/-- Send funds to a destination account. -/
def send (m : Overflow) (K : Crates) (timestamp : UInt64) (destination : String)
    (amount : UInt64) : Call Session ArxiaError Block := do
  let s ← get
  Call.ofExcept (ensure (amount ≠ 0) .zeroAmount)
  Call.ofExcept (ensure (destination ≠ s.account.publicKeyHex) .selfSendNotAllowed)
  Call.ofExcept (ensure (amount ≤ s.account.balance)
    (.insufficientBalance s.account.balance amount))
  let balance ← Call.orPanic (s.account.balance.minus m amount)
  let nonce ← Call.orPanic (s.account.nonce.plus m 1)
  record K timestamp balance nonce s.account.lastHash (.send destination amount)

/-- The amount of a SEND block addressed to the account. -/
def incoming (a : AccountChain) (sendBlock : Block) : Except ArxiaError UInt64 :=
  match sendBlock.blockType with
  | .send destination amount => do
    ensure (destination = a.publicKeyHex) .wrongDestination
    pure amount
  | _ => .error .notSendBlock

/-- Receive funds from a SEND block. -/
def receive (m : Overflow) (K : Crates) (timestamp : UInt64) (sendBlock : Block) :
    Call Session ArxiaError Block := do
  let s ← get
  let amount ← Call.ofExcept (s.account.incoming sendBlock)
  Call.ofExcept (ensure (sendBlock.hash ∉ s.account.consumedSources)
    (.duplicateReceive sendBlock.hash))
  let newBalance ← Call.ofExcept
    (okOr (s.account.balance.checkedAdd amount) (.balanceOverflow s.account.balance amount))
  Call.ofExcept (ensure (newBalance ≤ MAX_INITIAL_BALANCE_PER_ACCOUNT)
    (.supplyCapExceeded newBalance MAX_INITIAL_BALANCE_PER_ACCOUNT))
  let nonce ← Call.orPanic (s.account.nonce.plus m 1)
  let block ← record K timestamp newBalance nonce s.account.lastHash (.receive sendBlock.hash)
  modify fun s ↦ { s with account :=
    { s.account with consumedSources := insert sendBlock.hash s.account.consumedSources } }
  pure block

/-! ## Recording a block -/

/-- The fields an account never changes are what its constructor made them. -/
structure KeyPair (a : AccountChain) : Prop where
  verifying : a.verifyingKey = a.signingKey.verifyingKey
  hex : a.publicKeyHex = Hex.encode a.signingKey.verifyingKey.toList

/-- The block `record` makes. -/
def sealed (a : AccountChain) (K : Crates) (timestamp balance nonce : UInt64) (previous : String)
    (blockType : BlockType) : Block :=
  let digest := K.blake3 (asBytes (Block.content a.publicKeyHex previous
    (String.ofList blockType.json) balance nonce timestamp))
  { account := a.publicKeyHex, previous, blockType, balance, nonce, timestamp
    hash := Hex.encode digest.toList
    signature := (a.signingKey.sign digest.toList).toList }

section Record

variable {K : Crates} {a : AccountChain} {timestamp balance nonce : UInt64} {previous : String}
  {blockType : BlockType}

theorem KeyPair.decode (h : a.KeyPair) :
    Hex.decode a.publicKeyHex.toList = some a.signingKey.verifyingKey.toList := by
  rw [h.hex, Hex.decode_encode]

theorem KeyPair.accountKey (h : a.KeyPair) :
    K.accountKey a.publicKeyHex = .ok a.signingKey.verifyingKey :=
  Crypto.accountKey_eq_ok.mpr h.decode

theorem KeyPair.bytePrefix (h : a.KeyPair) :
    ∃ sid, Rust.bytePrefix a.publicKeyHex.toList 8 = some sid := by
  obtain ⟨hlen, hdigit⟩ := Hex.decode_eq_some h.decode
  rw [Vector.length_toList] at hlen
  exact ⟨_, bytePrefix_eq_take (fun c hc ↦ Hex.utf8Size_of_digit (hdigit c hc)) (by omega)⟩

theorem computeHash_sealed (hserde : Serde K) (hpair : a.KeyPair)
    (hvalid : a.signingKey.Valid K) :
    Block.computeHash K a.publicKeyHex previous blockType balance nonce timestamp =
      .ok (a.sealed K timestamp balance nonce previous blockType).hash :=
  Block.computeHash_eq_ok (b := a.sealed K timestamp balance nonce previous blockType).mpr
    ⟨⟨_, hpair.accountKey, hvalid.strict⟩,
      ⟨_, Block.preimage_eq_some.mpr ⟨_, hserde _, rfl⟩, rfl⟩⟩

/-- **A valid account records its block**, memory permitting. -/
theorem exec_record (hserde : Serde K) {s : Session} (hpair : s.account.KeyPair)
    (hvalid : s.account.signingKey.Valid K) :
    ∃ vclock, (record K timestamp balance nonce previous blockType).exec s =
      (s.account.chain.push
        (s.account.sealed K timestamp balance nonce previous blockType)).map fun chain ↦
          (.ok (s.account.sealed K timestamp balance nonce previous blockType),
            { account := { s.account with balance, nonce, chain }, vclock }) := by
  obtain ⟨sid, hsid⟩ := hpair.bytePrefix
  refine ⟨s.vclock.tick (String.ofList sid), ?_⟩
  have hhash : Block.computeHash K s.account.publicKeyHex previous blockType balance nonce
      timestamp = .ok (s.account.sealed K timestamp balance nonce previous blockType).hash :=
    computeHash_sealed hserde hpair hvalid
  rw [record, Call.exec_bind_ok (Call.exec_get s), hsid]
  -- the hash was encoded just now, so it decodes
  have hbytes : (K.hexDecode (s.account.sealed K timestamp balance nonce previous
      blockType).hash).mapError ArxiaError.hexDecode = .ok _ :=
    mapError_eq_ok.mpr ((K.hexDecode_eq_ok _ _).mpr (Hex.decode_encode _))
  rw [Call.exec_bind_ok (Call.exec_orPanic _ s), Call.exec_bind_ok (Call.exec_set s _),
    Call.exec_check_ok hhash, Call.exec_check_ok hbytes, Call.exec_bind_ok (Call.exec_get _),
    Call.exec_bind, Call.exec_orPanic]
  change Option.bind (Option.map _ (s.account.chain.push
    (s.account.sealed K timestamp balance nonce previous blockType))) _ = _
  cases s.account.chain.push (s.account.sealed K timestamp balance nonce previous blockType) with
  | none => rfl
  | some chain => rfl

/-- With room in the chain the block is recorded. -/
theorem exists_record (hserde : Serde K) {s : Session} (hpair : s.account.KeyPair)
    (hvalid : s.account.signingKey.Valid K) (hroom : s.account.chain.toList.length < isizeMax) :
    ∃ b s', (record K timestamp balance nonce previous blockType).exec s = some (.ok b, s') := by
  obtain ⟨vclock, hexec⟩ :=
    @exec_record K timestamp balance nonce previous blockType hserde s hpair hvalid
  obtain ⟨chain, hpush⟩ := Vec.exists_push hroom
    (s.account.sealed K timestamp balance nonce previous blockType)
  rw [hexec, hpush]
  exact ⟨_, _, rfl⟩

/-- What a recorded block leaves behind, whatever the key. -/
structure Records (K : Crates) (timestamp : UInt64) (a : AccountChain) (b : Block)
    (a' : AccountChain) : Prop where
  account : b.account = a.publicKeyHex
  timestamp : b.timestamp = timestamp
  hashed : b.Hashed K
  signature : ∃ bytes, K.hexDecode b.hash = .ok bytes ∧
    b.signature = (a.signingKey.sign bytes).toList
  chain : a'.chain.toList = a.chain.toList ++ [b]
  balance : a'.balance = b.balance
  nonce : a'.nonce = b.nonce
  signingKey : a'.signingKey = a.signingKey
  verifyingKey : a'.verifyingKey = a.verifyingKey
  publicKeyHex : a'.publicKeyHex = a.publicKeyHex

theorem exec_record_ok {s s' : Session} {b : Block}
    (h : (record K timestamp balance nonce previous blockType).exec s = some (.ok b, s')) :
    Records K timestamp s.account b s'.account ∧ b.previous = previous ∧ b.blockType = blockType ∧
      b.balance = balance ∧ b.nonce = nonce ∧
      s'.account.consumedSources = s.account.consumedSources := by
  rw [record, Call.exec_bind_ok (Call.exec_get s)] at h
  simp only [Call.exec_bind_eq_ok, Call.exec_orPanic_eq_ok, Call.exec_ofExcept_eq_ok,
    Call.exec_set, Call.exec_get, Call.exec_pure, Option.some_inj, Prod.mk.injEq,
    Except.ok.injEq, mapError_eq_ok] at h
  obtain ⟨sid, _, ⟨-, rfl⟩, _, _, ⟨-, rfl⟩, hash, _, ⟨hhash, rfl⟩, bytes, _, ⟨hbytes, rfl⟩, _, _,
    ⟨rfl, rfl⟩, chain, _, ⟨hpush, rfl⟩, _, _, ⟨-, rfl⟩, rfl, rfl⟩ := h
  exact ⟨⟨rfl, rfl, Block.computeHash_eq_ok.mp hhash, ⟨bytes, hbytes, rfl⟩,
    Vec.push_eq_some.mp hpush, rfl, rfl, rfl, rfl, rfl⟩, rfl, rfl, rfl, rfl, rfl⟩

/-- The recorded block is made from its own fields. -/
theorem Records.eq_sealed (hserde : Serde K) {b : Block} {a' : AccountChain}
    (h : Records K timestamp a b a') :
    b = a.sealed K timestamp b.balance b.nonce b.previous b.blockType := by
  obtain ⟨s, hs, hhash⟩ := h.hashed.digest
  obtain ⟨j, hj, rfl⟩ := Block.preimage_eq_some.mp hs
  rw [hserde, Except.ok.injEq] at hj
  subst hj
  obtain ⟨bytes, hbytes, hsig⟩ := h.signature
  rw [hhash, K.hexDecode_eq_ok, Hex.decode_encode, Option.some_inj] at hbytes
  subst hbytes
  obtain ⟨account, previous, blockType, balance, nonce, timestamp', hash, signature⟩ := b
  obtain rfl : account = a.publicKeyHex := h.account
  obtain rfl : timestamp' = timestamp := h.timestamp
  rw [sealed, Block.mk.injEq]
  exact ⟨rfl, rfl, rfl, rfl, rfl, rfl, hhash, hsig⟩

end Record

/-! ## What a call does -/

/-- A call of the account API, without its clocks. -/
inductive Op
  | open (initialBalance : UInt64)
  | send (destination : String) (amount : UInt64)
  | receive (sendBlock : Block)

/-- Make the call. -/
def perform (m : Overflow) (K : Crates) (timestamp : UInt64) :
    Op → Call Session ArxiaError Block
  | .open initialBalance => «open» K timestamp initialBalance
  | .send destination amount => send m K timestamp destination amount
  | .receive sendBlock => receive m K timestamp sendBlock

/-- The guards of a call, in the state they are checked in. -/
inductive Permits (a : AccountChain) : Op → Prop
  | open {v : UInt64} (hnew : a.chain.toList = []) (hcap : v ≤ MAX_INITIAL_BALANCE_PER_ACCOUNT) :
      Permits a (.open v)
  | send {d : String} {v : UInt64} (hpos : v ≠ 0) (hother : d ≠ a.publicKeyHex)
      (hfunds : v ≤ a.balance) : Permits a (.send d v)
  | receive {c : Block} {v : UInt64} (htype : c.blockType = .send a.publicKeyHex v)
      (hfresh : c.hash ∉ a.consumedSources)
      (hcap : a.balance.toNat + v.toNat ≤ MAX_INITIAL_BALANCE_PER_ACCOUNT.toNat) :
      Permits a (.receive c)

/-- The errors of a call, in the documented order. -/
def documented (a : AccountChain) : Op → List (Bool × ArxiaError)
  | .open v => [
      (a.chain.toList ≠ [], .accountAlreadyOpen),
      (MAX_INITIAL_BALANCE_PER_ACCOUNT < v, .supplyCapExceeded v MAX_INITIAL_BALANCE_PER_ACCOUNT)]
  | .send d v => [
      (v = 0, .zeroAmount),
      (d = a.publicKeyHex, .selfSendNotAllowed),
      (a.balance < v, .insufficientBalance a.balance v)]
  | .receive c => match c.blockType with
    | .send d v => [
        (d ≠ a.publicKeyHex, .wrongDestination),
        (c.hash ∈ a.consumedSources, .duplicateReceive c.hash),
        (u64Max < a.balance.toNat + v.toNat, .balanceOverflow a.balance v),
        (MAX_INITIAL_BALANCE_PER_ACCOUNT < a.balance + v,
          .supplyCapExceeded (a.balance + v) MAX_INITIAL_BALANCE_PER_ACCOUNT)]
    | _ => [(true, .notSendBlock)]

/-- What a permitted call writes besides the block it records. -/
inductive Writes (m : Overflow) (a : AccountChain) (b : Block) : Op → Finset String → Prop
  | open {v : UInt64} (htype : b.blockType = .open v) (hprev : b.previous = "")
      (hbalance : b.balance = v) (hnonce : b.nonce = 1) :
      Writes m a b (.open v) a.consumedSources
  | send {d : String} {v : UInt64} (htype : b.blockType = .send d v)
      (hprev : b.previous = a.lastHash) (hbalance : b.balance.toNat + v.toNat = a.balance.toNat)
      (hnonce : a.nonce.plus m 1 = some b.nonce) : Writes m a b (.send d v) a.consumedSources
  | receive {c : Block} {d : String} {v : UInt64} (hsend : c.blockType = .send d v)
      (htype : b.blockType = .receive c.hash) (hprev : b.previous = a.lastHash)
      (hbalance : b.balance.toNat = a.balance.toNat + v.toNat)
      (hnonce : a.nonce.plus m 1 = some b.nonce) :
      Writes m a b (.receive c) (insert c.hash a.consumedSources)

section Inversion

variable {m : Overflow} {a : AccountChain} {b : Block} {sources : Finset String}

theorem Writes.of_open {v : UInt64} (h : Writes m a b (.open v) sources) :
    b.blockType = .open v ∧ b.previous = "" ∧ b.balance = v ∧ b.nonce = 1 ∧
      sources = a.consumedSources := by
  cases h with
  | «open» htype hprev hbalance hnonce => exact ⟨htype, hprev, hbalance, hnonce, rfl⟩

theorem Writes.of_send {d : String} {v : UInt64} (h : Writes m a b (.send d v) sources) :
    b.blockType = .send d v ∧ b.previous = a.lastHash ∧
      b.balance.toNat + v.toNat = a.balance.toNat ∧ a.nonce.plus m 1 = some b.nonce ∧
      sources = a.consumedSources := by
  cases h with
  | send htype hprev hbalance hnonce => exact ⟨htype, hprev, hbalance, hnonce, rfl⟩

theorem Writes.of_receive {c : Block} {d : String} {v : UInt64}
    (h : Writes m a b (.receive c) sources) (hsend : c.blockType = .send d v) :
    b.blockType = .receive c.hash ∧ b.previous = a.lastHash ∧
      b.balance.toNat = a.balance.toNat + v.toNat ∧ a.nonce.plus m 1 = some b.nonce ∧
      sources = insert c.hash a.consumedSources := by
  cases h with
  | receive hsend' htype hprev hbalance hnonce =>
    rw [(BlockType.send.inj (hsend.symm.trans hsend')).2]
    exact ⟨htype, hprev, hbalance, hnonce, rfl⟩

theorem Permits.of_receive {c : Block} (h : Permits a (.receive c)) :
    ∃ v, c.blockType = .send a.publicKeyHex v ∧ c.hash ∉ a.consumedSources ∧
      a.balance.toNat + v.toNat ≤ MAX_INITIAL_BALANCE_PER_ACCOUNT.toNat := by
  rcases h with _ | _ | @⟨_, v, htype, hfresh, hcap⟩
  exact ⟨v, htype, hfresh, hcap⟩

theorem permits_open_iff {v : UInt64} :
    Permits a (.open v) ↔ a.chain.toList = [] ∧ v ≤ MAX_INITIAL_BALANCE_PER_ACCOUNT := by
  constructor
  · intro h
    cases h with
    | «open» hnew hcap => exact ⟨hnew, hcap⟩
  · exact fun h ↦ .open h.1 h.2

theorem permits_send_iff {d : String} {v : UInt64} :
    Permits a (.send d v) ↔ v ≠ 0 ∧ d ≠ a.publicKeyHex ∧ v ≤ a.balance := by
  constructor
  · intro h
    cases h with
    | send hpos hother hfunds => exact ⟨hpos, hother, hfunds⟩
  · exact fun h ↦ .send h.1 h.2.1 h.2.2

theorem permits_receive_iff {c : Block} {d : String} {v : UInt64}
    (htype : c.blockType = .send d v) :
    Permits a (.receive c) ↔ d = a.publicKeyHex ∧ c.hash ∉ a.consumedSources ∧
      a.balance.toNat + v.toNat ≤ u64Max ∧ a.balance + v ≤ MAX_INITIAL_BALANCE_PER_ACCOUNT := by
  constructor
  · intro h
    obtain ⟨v', htype', hfresh, hcap⟩ := h.of_receive
    obtain ⟨rfl, rfl⟩ := BlockType.send.inj (htype.symm.trans htype')
    have hfits := hcap.trans (UInt64.toNat_le_u64Max _)
    refine ⟨rfl, hfresh, hfits, ?_⟩
    rwa [UInt64.le_iff_toNat_le, UInt64.toNat_add_of_le hfits]
  · rintro ⟨rfl, hfresh, hfits, hcap⟩
    refine .receive htype hfresh ?_
    rwa [UInt64.le_iff_toNat_le, UInt64.toNat_add_of_le hfits] at hcap

/-- The guards of a call pass when no documented error applies. -/
theorem permits_iff {op : Op} : Permits a op ↔ firstError (documented a op) = none := by
  rw [firstError_eq_none]
  cases op with
  | «open» v =>
    rw [permits_open_iff]
    simp [documented]
  | send d v =>
    rw [permits_send_iff]
    simp [documented]
  | receive c =>
    rcases htype : c.blockType with v | ⟨d, v⟩ | h | h
    case send =>
      rw [permits_receive_iff htype, documented, htype]
      simp
    all_goals
      refine iff_of_false (fun h ↦ ?_) (by simp [documented, htype])
      obtain ⟨_, hsend, -⟩ := h.of_receive
      rw [htype] at hsend
      cases hsend

end Inversion

section Perform

variable {m : Overflow} {K : Crates} {timestamp : UInt64} {op : Op} {s s' : Session} {b : Block}

theorem incoming_eq_ok {a : AccountChain} {c : Block} {v : UInt64} :
    a.incoming c = .ok v ↔ c.blockType = .send a.publicKeyHex v := by
  rw [incoming]
  split
  · rename_i d amount htype
    rw [htype, bind_eq_ok]
    simp only [ensure_eq_ok, exists_and_left, BlockType.send.injEq]
    constructor
    · rintro ⟨hd, -, hv⟩
      exact ⟨hd, Except.ok.inj hv⟩
    · rintro ⟨hd, rfl⟩
      exact ⟨hd, (), rfl⟩
  · rename_i hother
    exact iff_of_false (by simp) (hother _ _)

theorem incoming_of_ne {a : AccountChain} {c : Block} {d : String} {v : UInt64}
    (htype : c.blockType = .send d v) (hd : d ≠ a.publicKeyHex) :
    a.incoming c = .error .wrongDestination := by
  rw [incoming, htype]
  simp only [ensure, if_neg hd]
  rfl

theorem exec_open_ok {v : UInt64} (h : («open» K timestamp v).exec s = some (.ok b, s')) :
    Permits s.account (.open v) ∧ Records K timestamp s.account b s'.account ∧
      Writes m s.account b (.open v) s'.account.consumedSources := by
  rw [«open», Call.exec_bind_ok (Call.exec_get s)] at h
  simp only [Call.exec_bind_eq_ok, Call.exec_ofExcept_eq_ok, ensure_eq_ok] at h
  obtain ⟨_, _, ⟨hnew, rfl⟩, _, _, ⟨hcap, rfl⟩, _, _, ⟨-, rfl⟩, h⟩ := h
  obtain ⟨hrec, hprev, htype, hbalance, hnonce, hconsumed⟩ := exec_record_ok h
  exact ⟨.open hnew hcap, hrec, hconsumed ▸ .open htype hprev hbalance hnonce⟩

theorem exec_send_ok {d : String} {v : UInt64}
    (h : (send m K timestamp d v).exec s = some (.ok b, s')) :
    Permits s.account (.send d v) ∧ Records K timestamp s.account b s'.account ∧
      Writes m s.account b (.send d v) s'.account.consumedSources := by
  rw [send, Call.exec_bind_ok (Call.exec_get s)] at h
  simp only [Call.exec_bind_eq_ok, Call.exec_ofExcept_eq_ok, Call.exec_orPanic_eq_ok,
    ensure_eq_ok] at h
  obtain ⟨_, _, ⟨hpos, rfl⟩, _, _, ⟨hother, rfl⟩, _, _, ⟨hfunds, rfl⟩, balance, _, ⟨hminus, rfl⟩,
    nonce, _, ⟨hplus, rfl⟩, h⟩ := h
  obtain ⟨hrec, hprev, htype, hbalance, hnonce, hconsumed⟩ := exec_record_ok h
  rw [UInt64.minus_of_le m hfunds, Option.some_inj] at hminus
  have hle := UInt64.le_iff_toNat_le.mp hfunds
  refine ⟨.send hpos hother hfunds, hrec, hconsumed ▸ .send htype hprev ?_ (hnonce ▸ hplus)⟩
  rw [hbalance, ← hminus, UInt64.toNat_sub_of_le _ _ hfunds]
  omega

theorem exec_receive_ok {c : Block} (h : (receive m K timestamp c).exec s = some (.ok b, s')) :
    Permits s.account (.receive c) ∧ Records K timestamp s.account b s'.account ∧
      Writes m s.account b (.receive c) s'.account.consumedSources := by
  rw [receive, Call.exec_bind_ok (Call.exec_get s)] at h
  simp only [Call.exec_bind_eq_ok, Call.exec_ofExcept_eq_ok, Call.exec_orPanic_eq_ok,
    ensure_eq_ok, okOr_eq_ok, incoming_eq_ok, UInt64.checkedAdd_eq_some, Call.exec_modify,
    Call.exec_pure, Option.some_inj, Prod.mk.injEq, Except.ok.injEq] at h
  obtain ⟨v, _, ⟨hsend, rfl⟩, _, _, ⟨hfresh, rfl⟩, balance, _, ⟨hsum, rfl⟩, _, _, ⟨hcap, rfl⟩,
    nonce, _, ⟨hplus, rfl⟩, _, s₁, h, _, _, ⟨-, rfl⟩, rfl, rfl⟩ := h
  obtain ⟨hrec, hprev, htype, hbalance, hnonce, hconsumed⟩ := exec_record_ok h
  have hcap := UInt64.le_iff_toNat_le.mp hcap
  refine ⟨.receive hsend hfresh (hsum ▸ hcap), ?_, ?_⟩
  · exact ⟨hrec.account, hrec.timestamp, hrec.hashed, hrec.signature, hrec.chain, hrec.balance,
      hrec.nonce, hrec.signingKey, hrec.verifyingKey, hrec.publicKeyHex⟩
  · rw [← hbalance] at hsum
    rw [← hnonce] at hplus
    simpa only [hconsumed] using Writes.receive hsend htype hprev hsum hplus

/-- **A successful call** passed its guards, recorded one block, and wrote nothing else but the
consumed source. -/
theorem exec_perform_ok (h : (perform m K timestamp op).exec s = some (.ok b, s')) :
    Permits s.account op ∧ Records K timestamp s.account b s'.account ∧
      Writes m s.account b op s'.account.consumedSources := by
  cases op with
  | «open» v => exact exec_open_ok h
  | send d v => exact exec_send_ok h
  | receive c => exact exec_receive_ok h

/-! ### Refusals -/

/-- **A call refuses** by its documented errors. -/
theorem refuses_perform : Call.Refuses (documented s.account op) s (perform m K timestamp op) := by
  cases op with
  | «open» v =>
    refine .get (.ensure (by simp) fun _ ↦ .ensure ?_ fun _ ↦ .nil _)
    exact UInt64.not_le.symm
  | send d v =>
    refine .get (.ensure (by simp) fun _ ↦ .ensure (by simp) fun _ ↦ .ensure ?_ fun _ ↦ .nil _)
    exact UInt64.not_le.symm
  | receive c =>
    refine .get ?_
    rcases htype : c.blockType with v | ⟨d, v⟩ | h | h
    case send =>
      rw [documented, htype]
      refine .check (fun hd ↦ incoming_of_ne htype (of_decide_eq_true hd)) fun hd ↦ ⟨v, ?_, ?_⟩
      · rw [incoming_eq_ok, htype, not_not.mp (of_decide_eq_false hd)]
      · refine .ensure (by simp) fun _ ↦ .check (fun hsum ↦ ?_) fun hsum ↦
          ⟨s.account.balance + v, ?_, ?_⟩
        · rw [UInt64.checkedAdd, if_neg (not_le.mpr (of_decide_eq_true hsum))]
          rfl
        · rw [okOr_eq_ok, UInt64.checkedAdd, if_pos (not_lt.mp (of_decide_eq_false hsum))]
        · exact .ensure UInt64.not_le.symm fun _ ↦ .nil _
    all_goals
      rw [documented, htype]
      refine .check (fun _ ↦ ?_) fun hc ↦ by cases hc
      rw [incoming, htype]

/-- **A call that fails a guard** returns an error and changes nothing. -/
theorem exec_perform_of_not_permits (h : ¬ Permits s.account op) :
    ∃ e, (perform m K timestamp op).exec s = some (.error e, s) := by
  rw [permits_iff] at h
  obtain ⟨e, he⟩ := Option.ne_none_iff_exists'.mp h
  exact ⟨e, refuses_perform e he⟩

/-! ### Progress -/

/-- Room for one more block. -/
structure Room (a : AccountChain) : Prop where
  chain : a.chain.toList.length < isizeMax
  nonce : a.nonce.toNat < u64Max

/-- The call does not return an error, and only a lack of room can keep it from returning. -/
structure Succeeds (s : Session) (x : Call Session ArxiaError Block) : Prop where
  no_error : ∀ e s', x.exec s ≠ some (.error e, s')
  returns : s.account.Room → ∃ b s', x.exec s = some (.ok b, s')

theorem Succeeds.of_exec_eq {x y : Call Session ArxiaError Block} (h : Succeeds s y)
    (heq : x.exec s = y.exec s) : Succeeds s x :=
  ⟨fun e s' ↦ heq ▸ h.no_error e s', fun hroom ↦ heq ▸ h.returns hroom⟩

theorem Succeeds.get {f : Session → Call Session ArxiaError Block} (h : Succeeds s (f s)) :
    Succeeds s (MonadState.get >>= f) := h.of_exec_eq (Call.exec_bind_ok (Call.exec_get s))

theorem Succeeds.check {α : Type} {r : Except ArxiaError α} {v : α}
    {f : α → Call Session ArxiaError Block} (h : Succeeds s (f v)) (hr : r = .ok v) :
    Succeeds s (Call.ofExcept r >>= f) := h.of_exec_eq (Call.exec_check_ok hr s)

theorem Succeeds.ensure {p : Prop} [Decidable p] {e : ArxiaError}
    {f : Unit → Call Session ArxiaError Block} (hp : p) (h : Succeeds s (f ())) :
    Succeeds s (Call.ofExcept (ensure p e) >>= f) := h.check (ensure_eq_ok.mpr hp)

theorem Succeeds.orPanic {α : Type} {o : Option α} {v : α}
    {f : α → Call Session ArxiaError Block} (ho : o = some v) (h : Succeeds s (f v)) :
    Succeeds s (Call.orPanic o >>= f) := by
  refine h.of_exec_eq (Call.exec_bind_ok ?_)
  rw [ho, Call.exec_orPanic]
  rfl

theorem succeeds_record {balance nonce : UInt64} {previous : String} {blockType : BlockType}
    (hserde : Serde K) (hpair : s.account.KeyPair) (hvalid : s.account.signingKey.Valid K) :
    Succeeds s (record K timestamp balance nonce previous blockType) := by
  constructor
  · intro e s' h
    obtain ⟨vclock, hexec⟩ :=
      @exec_record K timestamp balance nonce previous blockType hserde s hpair hvalid
    rw [hexec] at h
    obtain ⟨chain, -, h⟩ := Option.map_eq_some_iff.mp h
    simp at h
  · exact fun hroom ↦ exists_record hserde hpair hvalid hroom.chain

/-- The increment of the nonce only fails for lack of room. -/
theorem Succeeds.of_plus {f : UInt64 → Call Session ArxiaError Block}
    (h : ∀ nonce, Succeeds s (f nonce)) :
    Succeeds s (Call.orPanic (s.account.nonce.plus m 1) >>= f) := by
  rcases hplus : s.account.nonce.plus m 1 with _ | nonce
  · constructor
    · intro e s' h
      rw [Call.exec_bind, Call.exec_orPanic] at h
      simp at h
    · intro hroom
      have hle : s.account.nonce.toNat + (1 : UInt64).toNat ≤ u64Max := hroom.nonce
      rw [UInt64.plus_of_le m hle] at hplus
      simp at hplus
  · exact .orPanic rfl (h nonce)

/-- Consuming the source cannot fail. -/
theorem Succeeds.bind_pure {x : Call Session ArxiaError Block} (h : Succeeds s x)
    (f : Session → Session) : Succeeds s (x >>= fun b ↦ modify f >>= fun _ ↦ pure b) := by
  constructor
  · intro e s' hexec
    rw [Call.exec_bind, Option.bind_eq_some_iff] at hexec
    obtain ⟨⟨r, s₁⟩, hx, hexec⟩ := hexec
    rcases r with e' | b
    · exact h.no_error e' s₁ hx
    · change Call.exec (modify f >>= fun _ ↦ pure b) s₁ = _ at hexec
      rw [Call.exec_bind_ok (Call.exec_modify f s₁)] at hexec
      simp at hexec
  · intro hroom
    obtain ⟨b, s₁, hx⟩ := h.returns hroom
    exact ⟨b, f s₁, Call.exec_bind_ok hx⟩

/-- **A call that passes its guards** succeeds on an account with a valid key. -/
theorem succeeds_perform (hserde : Serde K) (hpair : s.account.KeyPair)
    (hvalid : s.account.signingKey.Valid K) (h : Permits s.account op) :
    Succeeds s (perform m K timestamp op) := by
  have hrecord : ∀ balance nonce previous blockType,
      Succeeds s (record K timestamp balance nonce previous blockType) :=
    fun _ _ _ _ ↦ succeeds_record hserde hpair hvalid
  cases h with
  | «open» hnew hcap =>
    have hstrict : K.validatePubkeyStrict s.account.verifyingKey = .ok () :=
      hpair.verifying ▸ hvalid.strict
    exact .get (.ensure hnew (.ensure hcap (.check (hrecord _ _ _ _) hstrict)))
  | send hpos hother hfunds =>
    refine .get (.ensure hpos (.ensure hother (.ensure hfunds ?_)))
    exact .orPanic (UInt64.minus_of_le m hfunds) (.of_plus fun nonce ↦ hrecord _ nonce _ _)
  | @receive c v htype hfresh hcap =>
    have hfits : s.account.balance.toNat + v.toNat ≤ u64Max :=
      hcap.trans (UInt64.toNat_le_u64Max _)
    have hsum := UInt64.toNat_add_of_le hfits
    have hle : s.account.balance + v ≤ MAX_INITIAL_BALANCE_PER_ACCOUNT :=
      UInt64.le_iff_toNat_le.mpr (hsum ▸ hcap)
    refine .get (.check (.ensure hfresh (.check (.ensure hle ?_) ?_)) (incoming_eq_ok.mpr htype))
    · exact .of_plus fun nonce ↦ (hrecord _ nonce _ _).bind_pure _
    · exact okOr_eq_ok.mpr (UInt64.checkedAdd_eq_some.mpr hsum)

/-- **Every call of a valid account** either records a block or changes nothing. -/
theorem exec_perform_cases (hserde : Serde K) (hpair : s.account.KeyPair)
    (hvalid : s.account.signingKey.Valid K) {r : Except ArxiaError Block}
    (h : (perform m K timestamp op).exec s = some (r, s')) :
    (∃ b, r = .ok b ∧ Permits s.account op ∧ Records K timestamp s.account b s'.account ∧
      Writes m s.account b op s'.account.consumedSources) ∨
      ∃ e, r = .error e ∧ ¬ Permits s.account op ∧ s' = s := by
  by_cases hpermits : Permits s.account op
  · rcases r with e | b
    · exact absurd h ((succeeds_perform hserde hpair hvalid hpermits).no_error e s')
    · exact Or.inl ⟨b, rfl, exec_perform_ok h⟩
  · obtain ⟨e, he⟩ := @exec_perform_of_not_permits m K timestamp op s hpermits
    rw [he] at h
    obtain ⟨rfl, rfl⟩ := Prod.mk.inj (Option.some_inj.mp h)
    exact Or.inr ⟨e, rfl, hpermits, rfl⟩

/-- **No arithmetic overflow**: with room for the nonce the build profile makes no difference. -/
theorem exec_perform_profile (h : s.account.nonce.toNat < u64Max) :
    (perform .panics K timestamp op).exec s = (perform .wraps K timestamp op).exec s := by
  have hplus : ∀ m, s.account.nonce.plus m 1 = some (s.account.nonce + 1) := fun m ↦
    UInt64.plus_of_le m h
  cases op with
  | «open» v => rfl
  | send d v =>
    rw [perform, perform, send, send, Call.exec_bind_ok (Call.exec_get s),
      Call.exec_bind_ok (Call.exec_get s)]
    by_cases hfunds : v ≤ s.account.balance
    · simp only [hplus, UInt64.minus_of_le _ hfunds]
    · -- the subtraction is not reached
      by_cases hpos : v ≠ 0
      · by_cases hother : d ≠ s.account.publicKeyHex
        · simp only [Call.exec_ensure_ok hpos, Call.exec_ensure_ok hother,
            Call.exec_ensure_error hfunds]
        · simp only [Call.exec_ensure_ok hpos, Call.exec_ensure_error hother]
      · simp only [Call.exec_ensure_error hpos]
  | receive c =>
    rw [perform, perform, receive, receive, Call.exec_bind_ok (Call.exec_get s),
      Call.exec_bind_ok (Call.exec_get s)]
    simp only [hplus]

end Perform

theorem keyPair_new (key : SigningKey) : (new key).KeyPair := ⟨rfl, rfl⟩

theorem KeyPair.of_records {K : Crates} {timestamp : UInt64} {a a' : AccountChain} {b : Block}
    (h : a.KeyPair) (hrec : Records K timestamp a b a') : a'.KeyPair :=
  ⟨by rw [hrec.verifyingKey, hrec.signingKey, h.verifying],
    by rw [hrec.publicKeyHex, hrec.signingKey, h.hex]⟩

end AccountChain

end Arxia
