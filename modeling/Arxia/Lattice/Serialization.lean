import Arxia.Lattice.Block
import Arxia.Rust.Bytes

/-!
# The compact wire format

A block is 193 bytes on the wire: a tag, eight fields of fixed width, and no hash, which the decoder
recomputes. Two of the slots are shared by the block types, and which of them a type uses is only
known from the tag.

`Wire` is the record of the nine fields. Both directions of the codec go through it: encoding a
block is finding its fields and writing them, and decoding is reading them off and interpreting
them, whatever follows.
-/

namespace Arxia

open Rust

/-! ## The code -/

/-- Decode a hex string into a fixed-size 32-byte array. -/
def hexDecode32 (K : Crates) (fieldName s : String) : Except ArxiaError (Vector UInt8 32) := do
  let v ← (K.hexDecode s).mapError .hexDecode
  okOr (toArray 32 v) (.invalidKey (fieldName ++ " must be 64 hex chars (32 bytes), got " ++
    v.length.repr ++ " bytes"))

/-- The tag byte of a block type. -/
def BlockType.tag : BlockType → UInt8
  | .open _ => 0x00
  | .send _ _ => 0x01
  | .receive _ => 0x02
  | .revoke _ => 0x03

/-- The amount a block type writes into the shared slot. -/
def BlockType.slotAmount : BlockType → UInt64
  | .open initialBalance => initialBalance
  | .send _ amount => amount
  | _ => 0

/-- The hash a block type writes into the shared slot. -/
def BlockType.slotBytes (K : Crates) : BlockType → Except ArxiaError (Vector UInt8 32)
  | .send destination _ => hexDecode32 K "destination" destination
  | .receive sourceHash => hexDecode32 K "source_hash" sourceHash
  | .revoke credentialHash => hexDecode32 K "credential_hash" credentialHash
  | .open _ => .ok (Vector.replicate 32 0)

/-- The bytes of the previous hash; the empty string is the sentinel of the genesis block. -/
def previousBytes (K : Crates) (previous : String) : Except ArxiaError (Vector UInt8 32) :=
  if previous = "" then .ok (Vector.replicate 32 0) else hexDecode32 K "previous" previous

/-- Serialize a block to compact binary format (193 bytes). -/
def toCompactBytes (K : Crates) (block : Block) : Except ArxiaError (List UInt8) := do
  let account ← hexDecode32 K "account" block.account
  let previous ← previousBytes K block.previous
  let slot ← block.blockType.slotBytes K
  let signature := if block.signature.length = 64 then block.signature else List.replicate 64 0
  pure ([block.blockType.tag] ++ account.toList ++ previous.toList ++ block.balance.toBeBytes ++
    block.nonce.toBeBytes ++ block.timestamp.toBeBytes ++ block.blockType.slotAmount.toBeBytes ++
    slot.toList ++ signature)

/-- `u64::from_be_bytes(to_8_bytes(&data[i..i + 8])?)`. -/
def readU64 (data : List UInt8) (i : ℕ) : Fallible ArxiaError UInt64 := do
  let bytes ← Fallible.orPanic (slice data i (i + 8))
  let bytes ← Fallible.ofExcept
    (okOr (toArray 8 bytes) (.dataTooShort data.length COMPACT_BLOCK_SIZE))
  pure (UInt64.fromBeBytes bytes)

/-- Deserialize a block from compact binary format (193 bytes). -/
def fromCompactBytes (K : Crates) (data : List UInt8) : Fallible ArxiaError Block := do
  Fallible.ofExcept (ensure (COMPACT_BLOCK_SIZE ≤ data.length)
    (.dataTooShort data.length COMPACT_BLOCK_SIZE))
  let tag ← Fallible.orPanic data[0]?
  let account ← Fallible.orPanic (slice data 1 33)
  let prevRaw ← Fallible.orPanic (slice data 33 65)
  let balance ← readU64 data 65
  let nonce ← readU64 data 73
  let timestamp ← readU64 data 81
  let amount ← readU64 data 89
  let destSrc ← Fallible.orPanic (slice data 97 129)
  let signature ← Fallible.orPanic (slice data 129 193)
  let account := Hex.encode account
  let previous := if prevRaw.all (· == 0) then "" else Hex.encode prevRaw
  let destSrc := Hex.encode destSrc
  let blockType ← Fallible.ofExcept (match tag with
    | 0x00 => .ok (BlockType.open amount)
    | 0x01 => .ok (.send destSrc amount)
    | 0x02 => .ok (.receive destSrc)
    | 0x03 => .ok (.revoke destSrc)
    | t => .error (.invalidBlockType t))
  let hash ← Fallible.ofExcept
    (Block.computeHash K account previous blockType balance nonce timestamp)
  pure { account, previous, blockType, balance, nonce, timestamp, hash, signature }

/-! ## The fields -/

/-- The fields of an encoded block. -/
structure Wire where
  tag : UInt8
  account : Vector UInt8 32
  previous : Vector UInt8 32
  balance : UInt64
  nonce : UInt64
  timestamp : UInt64
  amount : UInt64
  slot : Vector UInt8 32
  signature : SignatureBytes
  deriving DecidableEq

namespace Wire

/-- Their bytes, in the order of the layout. -/
def fields (w : Wire) : List (List UInt8) :=
  [[w.tag], w.account.toList, w.previous.toList, w.balance.toBeBytes, w.nonce.toBeBytes,
    w.timestamp.toBeBytes, w.amount.toBeBytes, w.slot.toList, w.signature.toList]

/-- Their widths. -/
def widths : List ℕ := [1, 32, 32, 8, 8, 8, 8, 32, 64]

def bytes (w : Wire) : List UInt8 := w.fields.flatten

theorem map_length_fields (w : Wire) : w.fields.map List.length = widths := by
  simp only [fields, List.map_cons, List.map_nil, List.length_singleton, Vector.length_toList,
    UInt64.length_toBeBytes]
  rfl

@[simp] theorem length_bytes (w : Wire) : w.bytes.length = COMPACT_BLOCK_SIZE :=
  length_flatten_eq_sum w.map_length_fields

theorem fields_injective : Function.Injective fields := by
  intro w w' h
  simp only [fields, List.cons.injEq, and_true, Vector.toList_inj] at h
  obtain ⟨htag, hacc, hprev, hbal, hnonce, htime, hamount, hslot, hsig⟩ := h
  obtain ⟨tag, account, previous, balance, nonce, timestamp, amount, slot, signature⟩ := w
  rw [Wire.mk.injEq]
  exact ⟨htag, hacc, hprev, UInt64.toBeBytes_injective hbal, UInt64.toBeBytes_injective hnonce,
    UInt64.toBeBytes_injective htime, UInt64.toBeBytes_injective hamount, hslot, hsig⟩

/-- A field is the slice at its offset. -/
theorem slice_bytes (w : Wire) {k : ℕ} {field : List UInt8} (h : w.fields[k]? = some field)
    (rest : List UInt8) :
    slice (w.bytes ++ rest) (widths.take k).sum (widths.take (k + 1)).sum = some field :=
  slice_flatten w.map_length_fields h rest

/-- The fields are determined by the bytes. -/
theorem bytes_append_inj {w w' : Wire} {rest rest' : List UInt8}
    (h : w.bytes ++ rest = w'.bytes ++ rest') : w = w' ∧ rest = rest' := by
  obtain ⟨hfields, hrest⟩ :=
    flatten_append_inj (w.map_length_fields.trans w'.map_length_fields.symm) h
  exact ⟨fields_injective hfields, hrest⟩

/-- Every byte string that is long enough starts with the fields of a block. -/
theorem exists_bytes {data : List UInt8} (h : COMPACT_BLOCK_SIZE ≤ data.length) :
    ∃ (w : Wire) (rest : List UInt8), data = w.bytes ++ rest := by
  obtain ⟨fields, rest, hwidths, rfl⟩ := @exists_fields UInt8 widths data h
  simp only [widths, List.map_eq_cons_iff, List.map_eq_nil_iff] at hwidths
  obtain ⟨t, _, rfl, ht, a, _, rfl, ha, p, _, rfl, hp, b, _, rfl, hb, n, _, rfl, hn, ts, _, rfl,
    hts, am, _, rfl, ham, sl, _, rfl, hsl, sg, _, rfl, hsg, rfl⟩ := hwidths
  obtain ⟨tag, rfl⟩ := List.length_eq_one_iff.mp ht
  obtain ⟨account, rfl⟩ := exists_vector ha
  obtain ⟨previous, rfl⟩ := exists_vector hp
  obtain ⟨balance, rfl⟩ := exists_vector hb
  obtain ⟨nonce, rfl⟩ := exists_vector hn
  obtain ⟨timestamp, rfl⟩ := exists_vector hts
  obtain ⟨amount, rfl⟩ := exists_vector ham
  obtain ⟨slot, rfl⟩ := exists_vector hsl
  obtain ⟨signature, rfl⟩ := exists_vector hsg
  refine ⟨⟨tag, account, previous, .fromBeBytes balance, .fromBeBytes nonce,
    .fromBeBytes timestamp, .fromBeBytes amount, slot, signature⟩, rest, ?_⟩
  simp only [bytes, Wire.fields, UInt64.toBeBytes_fromBeBytes]

/-! ### Decoding -/

/-- The block type the tag and the shared slots stand for. -/
def blockType (w : Wire) : Except ArxiaError BlockType :=
  match w.tag with
  | 0x00 => .ok (BlockType.open w.amount)
  | 0x01 => .ok (.send (Hex.encode w.slot.toList) w.amount)
  | 0x02 => .ok (.receive (Hex.encode w.slot.toList))
  | 0x03 => .ok (.revoke (Hex.encode w.slot.toList))
  | t => .error (.invalidBlockType t)

/-- Zeros stand for the empty string. -/
def previousHash (w : Wire) : String :=
  if w.previous.toList.all (· == 0) then "" else Hex.encode w.previous.toList

/-- The block the fields stand for. -/
def block (K : Crates) (w : Wire) : Except ArxiaError Block := do
  let account := Hex.encode w.account.toList
  let blockType ← w.blockType
  let hash ← Block.computeHash K account w.previousHash blockType w.balance w.nonce w.timestamp
  pure { account, previous := w.previousHash, blockType, balance := w.balance, nonce := w.nonce,
         timestamp := w.timestamp, hash, signature := w.signature.toList }

theorem exec_readU64 {data : List UInt8} {i : ℕ} {x : UInt64}
    (h : slice data i (i + 8) = some x.toBeBytes) : (readU64 data i).exec = some (.ok x) := by
  obtain ⟨bytes, hbytes⟩ := exists_vector x.length_toBeBytes
  rw [readU64, Fallible.exec_some h,
    Fallible.exec_check_ok (okOr_eq_ok.mpr (toArray_eq_some.mpr hbytes)),
    UInt64.fromBeBytes_eq hbytes]
  rfl

/-- **Decoding** reads the fields off and interprets them; nothing can panic. -/
theorem exec_fromCompactBytes (K : Crates) (w : Wire) (rest : List UInt8) :
    (fromCompactBytes K (w.bytes ++ rest)).exec = some (w.block K) := by
  have hlen : COMPACT_BLOCK_SIZE ≤ (w.bytes ++ rest).length := by
    rw [List.length_append, length_bytes]
    exact Nat.le_add_right _ _
  have htag : (w.bytes ++ rest)[0]? = some w.tag := rfl
  have haccount : slice (w.bytes ++ rest) 1 33 = some w.account.toList :=
    w.slice_bytes (k := 1) rfl rest
  have hprevious : slice (w.bytes ++ rest) 33 65 = some w.previous.toList :=
    w.slice_bytes (k := 2) rfl rest
  have hslot : slice (w.bytes ++ rest) 97 129 = some w.slot.toList :=
    w.slice_bytes (k := 7) rfl rest
  have hsig : slice (w.bytes ++ rest) 129 193 = some w.signature.toList :=
    w.slice_bytes (k := 8) rfl rest
  have hbalance : (readU64 (w.bytes ++ rest) 65).exec = some (.ok w.balance) :=
    exec_readU64 (w.slice_bytes (k := 3) rfl rest)
  have hnonce : (readU64 (w.bytes ++ rest) 73).exec = some (.ok w.nonce) :=
    exec_readU64 (w.slice_bytes (k := 4) rfl rest)
  have htimestamp : (readU64 (w.bytes ++ rest) 81).exec = some (.ok w.timestamp) :=
    exec_readU64 (w.slice_bytes (k := 5) rfl rest)
  have hamount : (readU64 (w.bytes ++ rest) 89).exec = some (.ok w.amount) :=
    exec_readU64 (w.slice_bytes (k := 6) rfl rest)
  rw [fromCompactBytes, Fallible.exec_check_ok ((ensure_eq_ok (u := ())).mpr hlen),
    Fallible.exec_some htag, Fallible.exec_some haccount, Fallible.exec_some hprevious,
    Fallible.exec_bind_ok hbalance, Fallible.exec_bind_ok hnonce, Fallible.exec_bind_ok htimestamp,
    Fallible.exec_bind_ok hamount, Fallible.exec_some hslot, Fallible.exec_some hsig]
  -- what is left is the interpretation, and it is the same code
  change Fallible.exec (Fallible.ofExcept w.blockType >>= fun blockType ↦ Fallible.ofExcept
    (Block.computeHash K (Hex.encode w.account.toList) w.previousHash blockType w.balance w.nonce
      w.timestamp) >>= _) = _
  rw [block]
  rcases w.blockType with e | blockType
  · rfl
  · rw [Fallible.exec_check_ok rfl]
    change _ = some (Block.computeHash K (Hex.encode w.account.toList) w.previousHash blockType
      w.balance w.nonce w.timestamp >>= _)
    rcases Block.computeHash K (Hex.encode w.account.toList) w.previousHash blockType w.balance
      w.nonce w.timestamp with e | hash
    · rfl
    · rfl

end Wire

/-! ### Encoding -/

theorem hexDecode32_eq_ok {K : Crates} {fieldName s : String} {v : Vector UInt8 32} :
    hexDecode32 K fieldName s = .ok v ↔ Hex.decode s.toList = some v.toList := by
  rw [hexDecode32, bind_eq_ok]
  simp only [mapError_eq_ok, K.hexDecode_eq_ok, okOr_eq_ok, toArray_eq_some]
  constructor
  · rintro ⟨bs, hbs, rfl⟩
    exact hbs
  · exact fun h ↦ ⟨_, h, rfl⟩

/-- These are the fields of the block. -/
structure Wire.Encodes (K : Crates) (w : Wire) (b : Block) : Prop where
  tag : w.tag = b.blockType.tag
  account : Hex.decode b.account.toList = some w.account.toList
  previous : previousBytes K b.previous = .ok w.previous
  balance : w.balance = b.balance
  nonce : w.nonce = b.nonce
  timestamp : w.timestamp = b.timestamp
  amount : w.amount = b.blockType.slotAmount
  slot : b.blockType.slotBytes K = .ok w.slot
  signature : w.signature.toList =
    if b.signature.length = 64 then b.signature else List.replicate 64 0

theorem Wire.bytes_eq (w : Wire) : w.bytes = [w.tag] ++ w.account.toList ++ w.previous.toList ++
    w.balance.toBeBytes ++ w.nonce.toBeBytes ++ w.timestamp.toBeBytes ++ w.amount.toBeBytes ++
    w.slot.toList ++ w.signature.toList := by
  simp [Wire.bytes, Wire.fields]

theorem length_signature (b : Block) :
    (if b.signature.length = 64 then b.signature else List.replicate 64 0).length = 64 := by
  split
  · assumption
  · exact List.length_replicate

/-- **Encoding** succeeds exactly when the block has fields, and writes them. -/
theorem toCompactBytes_eq_ok {K : Crates} {b : Block} {data : List UInt8} :
    toCompactBytes K b = .ok data ↔ ∃ w : Wire, w.Encodes K b ∧ w.bytes = data := by
  rw [toCompactBytes]
  simp only [bind_eq_ok, hexDecode32_eq_ok, pure, Except.pure, Except.ok.injEq]
  constructor
  · rintro ⟨account, hacc, previous, hprev, slot, hslot, rfl⟩
    obtain ⟨signature, hsig⟩ := exists_vector (length_signature b)
    refine ⟨⟨b.blockType.tag, account, previous, b.balance, b.nonce, b.timestamp,
      b.blockType.slotAmount, slot, signature⟩, ⟨rfl, hacc, hprev, rfl, rfl, rfl, rfl, hslot, hsig⟩,
      ?_⟩
    rw [Wire.bytes_eq, hsig]
  · rintro ⟨w, henc, rfl⟩
    refine ⟨w.account, henc.account, w.previous, henc.previous, w.slot, henc.slot, ?_⟩
    rw [Wire.bytes_eq, henc.tag, henc.balance, henc.nonce, henc.timestamp, henc.amount,
      henc.signature]

end Arxia
