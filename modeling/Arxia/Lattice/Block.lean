import Arxia.Core.Crypto
import Mathlib.Data.List.Nodup
import Mathlib.Data.Set.Function

/-!
# Blocks and their hash

A block is hashed over a string joining six fields by colons. Two of the fields are arbitrary text
(`previous` and the serialized block type), so the join is read from both ends: the account is
hexadecimal and the last three fields are decimal, none of which can contain a colon. That already
determines who signed a block and at which nonce, which is what the ledger indices rely on.

`CollisionFree` is the assumption on Blake3: distinct preimages *among the blocks at hand* have
distinct digests. It is a hypothesis of the results that need it, never a field of the model.
-/

namespace Arxia

open Rust

/-- The type of operation a block represents. -/
inductive BlockType
  /-- Genesis block opening an account with an initial balance. -/
  | open (initialBalance : UInt64)
  /-- Send funds to another account. -/
  | send (destination : String) (amount : UInt64)
  /-- Receive funds from a corresponding SEND block. -/
  | receive (sourceHash : String)
  /-- Revoke a DID credential. -/
  | revoke (credentialHash : String)
  deriving DecidableEq

namespace BlockType

/-- `matches!(block_type, BlockType::Open { .. })`. -/
def isOpen : BlockType → Bool
  | .open _ => true
  | _ => false

/-- `matches!(block_type, BlockType::Send { .. })`. -/
def isSend : BlockType → Bool
  | .send _ _ => true
  | _ => false

/-- `matches!(block_type, BlockType::Receive { .. })`. -/
def isReceive : BlockType → Bool
  | .receive _ => true
  | _ => false

theorem isOpen_iff {t : BlockType} : t.isOpen = true ↔ ∃ v, t = .open v := by
  cases t <;> simp [isOpen]

theorem isSend_iff {t : BlockType} : t.isSend = true ↔ ∃ d v, t = .send d v := by
  cases t <;> simp [isSend]

end BlockType

/-- A single block in an account chain. -/
structure Block where
  /-- Account public key (hex-encoded Ed25519). -/
  account : String
  /-- Hash of the previous block (empty for genesis). -/
  previous : String
  /-- The block operation type. -/
  blockType : BlockType
  /-- Account balance after this block. -/
  balance : UInt64
  /-- Monotonically increasing nonce (starts at 1). -/
  nonce : UInt64
  /-- Timestamp in milliseconds since UNIX epoch. -/
  timestamp : UInt64
  /-- Blake3 hash of the block contents (hex-encoded). -/
  hash : String
  /-- Ed25519 signature over raw Blake3 hash bytes. -/
  signature : List UInt8
  deriving DecidableEq

/-- The external functions block code calls: the cryptographic ones and the JSON serializer. -/
structure Crates extends Crypto where
  /-- `serde_json::to_string` on a block type. -/
  blockTypeJson : BlockType → Except String String

namespace Block

/-- The string `compute_hash` hashes. -/
def content (account previous btJson : String) (balance nonce timestamp : UInt64) : String :=
  account ++ ":" ++ previous ++ ":" ++ btJson ++ ":" ++ balance.toNat.repr ++ ":" ++
    nonce.toNat.repr ++ ":" ++ timestamp.toNat.repr

/-- Compute the Blake3 hash of block contents. -/
def computeHash (K : Crates) (account previous : String) (blockType : BlockType)
    (balance nonce timestamp : UInt64) : Except ArxiaError String := do
  let pubkeyBytes ← K.accountKey account
  K.validatePubkeyStrict pubkeyBytes
  let btJson ← (K.blockTypeJson blockType).mapError fun e ↦ .serialization ("BlockType: " ++ e)
  pure (Hex.encode (K.blake3 (asBytes
    (content account previous btJson balance nonce timestamp))).toList)

/-! ## Preimages -/

/-- The hash preimage of a block, when its type serializes. -/
def preimage (K : Crates) (b : Block) : Option String :=
  match K.blockTypeJson b.blockType with
  | .ok btJson => some (content b.account b.previous btJson b.balance b.nonce b.timestamp)
  | .error _ => none

/-- The hash field of a block is the digest of its preimage, and its account is a usable key. -/
structure Hashed (K : Crates) (b : Block) : Prop where
  /-- The account decodes to a public key. -/
  key : ∃ key, K.accountKey b.account = .ok key ∧ K.validatePubkeyStrict key = .ok ()
  /-- The stored hash is the recomputed one. -/
  digest : ∃ s, b.preimage K = some s ∧ b.hash = Hex.encode (K.blake3 (asBytes s)).toList

theorem computeHash_eq_ok {K : Crates} {b : Block} :
    computeHash K b.account b.previous b.blockType b.balance b.nonce b.timestamp = .ok b.hash ↔
      b.Hashed K := by
  rw [computeHash]
  simp only [bind_eq_ok, mapError_eq_ok, pure, Except.pure, Except.ok.injEq]
  constructor
  · rintro ⟨key, hkey, _, hvalid, btJson, hjson, hhash⟩
    exact ⟨⟨key, hkey, hvalid⟩, ⟨_, by rw [preimage, hjson], hhash.symm⟩⟩
  · rintro ⟨⟨key, hkey, hvalid⟩, ⟨s, hs, hhash⟩⟩
    rw [preimage] at hs
    split at hs
    · rename_i btJson hjson
      obtain rfl := Option.some_inj.mp hs
      exact ⟨key, hkey, (), hvalid, btJson, hjson, hhash.symm⟩
    · simp at hs

/-- **Reading the content from both ends.** Account, balance, nonce and timestamp are determined,
and so is the text between them: `previous` and the block type, joined by a colon. -/
theorem content_parts {a a' p p' j j' : String} {v v' n n' t t' : UInt64} (ha : ':' ∉ a.toList)
    (ha' : ':' ∉ a'.toList) (h : content a p j v n t = content a' p' j' v' n' t') :
    a = a' ∧ p.toList ++ ':' :: j.toList = p'.toList ++ ':' :: j'.toList ∧ v = v' ∧ n = n' ∧
      t = t' := by
  have hlist := congrArg String.toList h
  simp only [content, String.toList_append, List.append_assoc] at hlist
  obtain ⟨hacc, hrest⟩ := split_left ha ha' hlist
  simp only [← List.append_assoc] at hrest
  have hnum : ∀ {x y : UInt64}, x.toNat.repr.toList = y.toNat.repr.toList → x = y := fun hxy ↦
    UInt64.toNat_inj.mp (eq_of_toList_repr_eq hxy)
  simp only [List.append_assoc _ ":".toList] at hrest
  obtain ⟨hrest, htime⟩ := split_right (colon_notMem_repr _) (colon_notMem_repr _) hrest
  obtain ⟨hrest, hnonce⟩ := split_right (colon_notMem_repr _) (colon_notMem_repr _) hrest
  obtain ⟨hmid, hbal⟩ := split_right (colon_notMem_repr _) (colon_notMem_repr _) hrest
  exact ⟨String.toList_inj.mp hacc, hmid, hnum hbal, hnum hnonce, hnum htime⟩

/-- Only the boundary between `previous` and the block type is left open. -/
theorem content_ends_inj {a a' p p' j j' : String} {v v' n n' t t' : UInt64} (ha : ':' ∉ a.toList)
    (ha' : ':' ∉ a'.toList) (h : content a p j v n t = content a' p' j' v' n' t') :
    a = a' ∧ v = v' ∧ n = n' ∧ t = t' := by
  obtain ⟨hacc, -, hrest⟩ := content_parts ha ha' h
  exact ⟨hacc, hrest⟩

/-! ## Collision-freedom -/

/-- Blake3 has no collision among the preimages of these blocks. -/
def CollisionFree (K : Crates) (bs : List Block) : Prop :=
  Set.InjOn (fun s ↦ K.blake3 (asBytes s)) {s | ∃ b ∈ bs, b.preimage K = some s}

theorem CollisionFree.mono {K : Crates} {bs bs' : List Block} (h : CollisionFree K bs')
    (hsub : ∀ b ∈ bs, b ∈ bs') : CollisionFree K bs := by
  refine Set.InjOn.mono ?_ h
  rintro s ⟨b, hb, hs⟩
  exact ⟨b, hsub b hb, hs⟩

theorem Hashed.colon_notMem {K : Crates} {b : Block} (h : b.Hashed K) :
    ':' ∉ b.account.toList := by
  obtain ⟨key, hkey, -⟩ := h.key
  exact Hex.colon_notMem_of_decode (Crypto.accountKey_eq_ok.mp hkey)

/-- Without collisions the hash of a block determines its preimage. -/
theorem CollisionFree.preimage_eq {K : Crates} {bs : List Block} (hcf : CollisionFree K bs)
    {b b' : Block} (hb : b ∈ bs) (hb' : b' ∈ bs) (hv : b.Hashed K) (hv' : b'.Hashed K)
    (h : b.hash = b'.hash) : ∃ s, b.preimage K = some s ∧ b'.preimage K = some s := by
  obtain ⟨s, hs, hhash⟩ := hv.digest
  obtain ⟨s', hs', hhash'⟩ := hv'.digest
  rw [hhash, hhash'] at h
  have hdigest := Vector.toList_inj.mp (Hex.encode_injective h)
  obtain rfl : s = s' := hcf ⟨b, hb, hs⟩ ⟨b', hb', hs'⟩ hdigest
  exact ⟨s, hs, hs'⟩

theorem preimage_eq_some {K : Crates} {b : Block} {s : String} :
    b.preimage K = some s ↔ ∃ btJson, K.blockTypeJson b.blockType = .ok btJson ∧
      content b.account b.previous btJson b.balance b.nonce b.timestamp = s := by
  rw [preimage]
  split
  · rename_i btJson hjson
    rw [Option.some_inj, hjson]
    simp
  · rename_i e hjson
    rw [hjson]
    simp

/-- Without collisions the hash of a block determines its account and nonce. -/
theorem CollisionFree.account_nonce_eq {K : Crates} {bs : List Block} (hcf : CollisionFree K bs)
    {b b' : Block} (hb : b ∈ bs) (hb' : b' ∈ bs) (hv : b.Hashed K) (hv' : b'.Hashed K)
    (h : b.hash = b'.hash) : b.account = b'.account ∧ b.nonce = b'.nonce := by
  obtain ⟨s, hs, hs'⟩ := hcf.preimage_eq hb hb' hv hv' h
  obtain ⟨j, -, hcontent⟩ := preimage_eq_some.mp hs
  obtain ⟨j', -, hcontent'⟩ := preimage_eq_some.mp hs'
  obtain ⟨hacc, -, hnonce, -⟩ := content_ends_inj hv.colon_notMem hv'.colon_notMem
    (hcontent.trans hcontent'.symm)
  exact ⟨hacc, hnonce⟩

/-- Blocks with distinct hashes are free of collisions. -/
theorem collisionFree_of_nodup {K : Crates} {bs : List Block} (hhashed : ∀ b ∈ bs, b.Hashed K)
    (hnodup : (bs.map Block.hash).Nodup) : CollisionFree K bs := by
  rintro s ⟨b, hb, hs⟩ s' ⟨b', hb', hs'⟩ hdigest
  obtain ⟨t, ht, hhash⟩ := (hhashed b hb).digest
  obtain ⟨t', ht', hhash'⟩ := (hhashed b' hb').digest
  obtain rfl : s = t := Option.some_inj.mp (hs.symm.trans ht)
  obtain rfl : s' = t' := Option.some_inj.mp (hs'.symm.trans ht')
  have heq : b.hash = b'.hash := by
    rw [hhash, hhash']
    exact congrArg (fun d ↦ Hex.encode d.toList) hdigest
  obtain rfl := List.inj_on_of_nodup_map hnodup hb hb' heq
  exact Option.some_inj.mp (hs.symm.trans hs')

end Block

end Arxia
