import Arxia.Lattice.ReferenceNetwork
import Arxia.Lattice.Serialization

/-!
# Round trips of the compact format

Encoding and decoding is the identity on the blocks whose text fields are written the way the
decoder writes them. Decoding and encoding is not: the decoder does not look behind the last field,
and it does not look at a slot the block type has no use for, while the encoder writes nothing and
zeros there. `Canonical` says that what it does not look at is what would have been written, and
that is all there is to it.
-/

namespace Arxia

open Rust

/-! ## Lowercase hexadecimal -/

/-- 64 lowercase hexadecimal characters. -/
structure IsHex64 (s : String) : Prop where
  length : s.toList.length = 64
  lower : ∀ c ∈ s.toList, Hex.IsLower c

/-- They are the notation of 32 bytes. -/
theorem isHex64_iff {s : String} : IsHex64 s ↔ ∃ v : Vector UInt8 32, s = Hex.encode v.toList := by
  constructor
  · intro h
    obtain ⟨bs, hlen, hbs⟩ := Hex.exists_encodeChars (n := 32) h.length h.lower
    obtain ⟨v, rfl⟩ := exists_vector hlen
    exact ⟨v, by rw [Hex.encode, ← hbs, String.ofList_toList]⟩
  · rintro ⟨v, rfl⟩
    rw [Hex.encode]
    refine ⟨?_, ?_⟩
    · rw [String.toList_ofList, Hex.length_encodeChars, Vector.length_toList]
    · rw [String.toList_ofList]
      exact Hex.isLower_encodeChars _

/-- A string is written back the way it was read when it is in lowercase. -/
theorem encode_eq_iff {s : String} {v : Vector UInt8 32}
    (h : Hex.decode s.toList = some v.toList) : s = Hex.encode v.toList ↔ IsHex64 s := by
  rw [isHex64_iff]
  refine ⟨fun hs ↦ ⟨v, hs⟩, ?_⟩
  rintro ⟨v', rfl⟩
  rw [Hex.decode_encode, Option.some_inj] at h
  rw [h]

/-- A string the previous-hash field can carry: the sentinel, or a hash that is not all zeros. -/
def CarriesPrevious (s : String) : Prop := s = "" ∨ IsHex64 s ∧ ∃ c ∈ s.toList, c ≠ '0'

theorem exists_ne_zero_iff {v : Vector UInt8 32} :
    (∃ c ∈ (Hex.encode v.toList).toList, c ≠ '0') ↔ v ≠ Vector.replicate 32 0 := by
  have hzero : v = Vector.replicate 32 0 ↔ ∀ b ∈ v.toList, b = 0 := by
    rw [← Vector.toList_inj, Vector.toList_replicate, List.eq_replicate_iff, Vector.length_toList]
    simp
  rw [Ne, hzero, ← Hex.forall_encodeChars_eq_zero, Hex.encode, String.toList_ofList]
  push Not
  rfl

namespace Wire

variable {K : Crates} {w : Wire} {b : Block}

/-- Zeros are read as the sentinel, and nothing else is. -/
theorem previousHash_eq (w : Wire) : w.previousHash =
    if w.previous = Vector.replicate 32 0 then "" else Hex.encode w.previous.toList := by
  have hzero : w.previous.toList.all (· == 0) = true ↔ w.previous = Vector.replicate 32 0 := by
    rw [List.all_eq_true, ← Vector.toList_inj, Vector.toList_replicate, List.eq_replicate_iff,
      Vector.length_toList]
    simp
  simp only [previousHash, hzero]

theorem previousHash_eq_iff {s : String} (h : previousBytes K s = .ok w.previous) :
    s = w.previousHash ↔ CarriesPrevious s := by
  rw [previousHash_eq, CarriesPrevious]
  rw [previousBytes] at h
  split at h
  · rename_i hs
    rw [if_pos (Except.ok.inj h).symm]
    exact iff_of_true hs (Or.inl hs)
  · rename_i hs
    have hdecode := hexDecode32_eq_ok.mp h
    rw [or_iff_right hs, ← encode_eq_iff hdecode]
    constructor
    · intro heq
      split at heq
      · exact absurd heq hs
      · rename_i hne
        exact ⟨heq, by rw [heq]; exact exists_ne_zero_iff.mpr hne⟩
    · rintro ⟨heq, hne⟩
      rw [heq, exists_ne_zero_iff] at hne
      rw [if_neg hne]
      exact heq

/-! ## From blocks to bytes and back -/

/-- The fields stand for the block. -/
structure Decodes (K : Crates) (w : Wire) (b : Block) : Prop where
  account : b.account = Hex.encode w.account.toList
  previous : b.previous = w.previousHash
  blockType : w.blockType = .ok b.blockType
  balance : b.balance = w.balance
  nonce : b.nonce = w.nonce
  timestamp : b.timestamp = w.timestamp
  hashed : b.Hashed K
  signature : b.signature = w.signature.toList

theorem block_eq_ok : w.block K = .ok b ↔ w.Decodes K b := by
  rw [block]
  simp only [bind_eq_ok, pure, Except.pure, Except.ok.injEq]
  constructor
  · rintro ⟨t, ht, hash, hhash, rfl⟩
    exact ⟨rfl, rfl, ht, rfl, rfl, rfl, Block.computeHash_eq_ok.mp hhash, rfl⟩
  · intro h
    refine ⟨b.blockType, h.blockType, b.hash, ?_, ?_⟩
    · rw [← h.account, ← h.previous, ← h.balance, ← h.nonce, ← h.timestamp]
      exact Block.computeHash_eq_ok.mpr h.hashed
    · rw [← h.account, ← h.previous, ← h.balance, ← h.nonce, ← h.timestamp, ← h.signature]

end Wire

/-- The text the shared hash slot carries. -/
def BlockType.slotText : BlockType → Option String
  | .send destination _ => some destination
  | .receive sourceHash => some sourceHash
  | .revoke credentialHash => some credentialHash
  | .open _ => none

/-- The block type with another text in that slot. -/
def BlockType.withText (s : String) : BlockType → BlockType
  | .send _ amount => .send s amount
  | .receive _ => .receive s
  | .revoke _ => .revoke s
  | .open initialBalance => .open initialBalance

theorem BlockType.withText_eq_iff {s : String} {t : BlockType} :
    t.withText s = t ↔ ∀ x, t.slotText = some x → x = s := by
  rcases t with _ | _ | _ | _ <;> simp [withText, slotText, eq_comm]

theorem BlockType.slotBytes_cases (K : Crates) (t : BlockType) :
    t.slotText = none ∧ t.slotBytes K = .ok (Vector.replicate 32 0) ∨
      ∃ s fieldName, t.slotText = some s ∧ t.slotBytes K = hexDecode32 K fieldName s := by
  rcases t with v | ⟨d, v⟩ | x | x
  · exact Or.inl ⟨rfl, rfl⟩
  · exact Or.inr ⟨d, "destination", rfl, rfl⟩
  · exact Or.inr ⟨x, "source_hash", rfl, rfl⟩
  · exact Or.inr ⟨x, "credential_hash", rfl, rfl⟩

/-- Every text field is written the way the decoder writes it. -/
structure Block.Normal (b : Block) : Prop where
  account : IsHex64 b.account
  previous : CarriesPrevious b.previous
  slot : ∀ s, b.blockType.slotText = some s → IsHex64 s

namespace Wire

variable {K : Crates} {w : Wire} {b : Block}

theorem blockType_eq {t : BlockType} (htag : w.tag = t.tag) (hamount : w.amount = t.slotAmount) :
    w.blockType = .ok (t.withText (Hex.encode w.slot.toList)) := by
  rw [blockType, htag, hamount]
  rcases t with _ | _ | _ | _ <;> rfl

theorem blockType_iff (h : w.Encodes K b) : w.blockType = .ok b.blockType ↔
    ∀ s, b.blockType.slotText = some s → IsHex64 s := by
  rw [blockType_eq h.tag h.amount, Except.ok.injEq, BlockType.withText_eq_iff]
  refine forall_congr' fun s ↦ imp_congr_right fun hs ↦ ?_
  have hslot := h.slot
  rcases b.blockType.slotBytes_cases K with ⟨hnone, -⟩ | ⟨s', fieldName, hsome, hbytes⟩
  · rw [hnone] at hs
    simp at hs
  · rw [hsome, Option.some_inj] at hs
    rw [hbytes, hs] at hslot
    exact encode_eq_iff (hexDecode32_eq_ok.mp hslot)

/-- **The fields of a block stand for it** exactly when its text fields are normal. -/
theorem decodes_iff_normal (h : w.Encodes K b) (hhashed : b.Hashed K)
    (hsig : b.signature.length = 64) : w.Decodes K b ↔ b.Normal := by
  constructor
  · intro hdec
    exact ⟨(encode_eq_iff h.account).mp hdec.account,
      (previousHash_eq_iff h.previous).mp hdec.previous, (blockType_iff h).mp hdec.blockType⟩
  · intro hnormal
    refine ⟨(encode_eq_iff h.account).mpr hnormal.account,
      (previousHash_eq_iff h.previous).mpr hnormal.previous,
      (blockType_iff h).mpr hnormal.slot, h.balance.symm, h.nonce.symm, h.timestamp.symm,
      hhashed, ?_⟩
    rw [h.signature, if_pos hsig]

/-- A normal block has fields. -/
theorem exists_encodes (hnormal : b.Normal) : ∃ w : Wire, w.Encodes K b := by
  have hdecode : ∀ {s : String}, IsHex64 s →
      ∃ v : Vector UInt8 32, ∀ fieldName, hexDecode32 K fieldName s = .ok v := by
    intro s hs
    obtain ⟨v, rfl⟩ := isHex64_iff.mp hs
    exact ⟨v, fun _ ↦ hexDecode32_eq_ok.mpr (Hex.decode_encode _)⟩
  obtain ⟨account, haccount⟩ := hdecode hnormal.account
  obtain ⟨previous, hprevious⟩ : ∃ v, previousBytes K b.previous = .ok v := by
    rw [previousBytes]
    split
    · exact ⟨_, rfl⟩
    · obtain ⟨v, hv⟩ := hdecode (hnormal.previous.resolve_left ‹_›).1
      exact ⟨v, hv _⟩
  obtain ⟨slot, hslot⟩ : ∃ v, b.blockType.slotBytes K = .ok v := by
    rcases b.blockType.slotBytes_cases K with ⟨-, hbytes⟩ | ⟨s, fieldName, hsome, hbytes⟩
    · exact ⟨_, hbytes⟩
    · obtain ⟨v, hv⟩ := hdecode (hnormal.slot s hsome)
      exact ⟨v, hbytes.trans (hv fieldName)⟩
  obtain ⟨signature, hsig⟩ := exists_vector (length_signature b)
  exact ⟨⟨b.blockType.tag, account, previous, b.balance, b.nonce, b.timestamp,
    b.blockType.slotAmount, slot, signature⟩, rfl, hexDecode32_eq_ok.mp (haccount "account"),
    hprevious, rfl, rfl, rfl, rfl, hslot, hsig⟩

end Wire

/-- The fields of a normal block with its computed hash stand for it. -/
theorem exists_encodes_decodes {K : Crates} {b : Block} (hnormal : b.Normal)
    (hhashed : b.Hashed K) (hsig : b.signature.length = 64) :
    ∃ w : Wire, w.Encodes K b ∧ w.Decodes K b := by
  obtain ⟨w, hw⟩ := @Wire.exists_encodes K b hnormal
  exact ⟨w, hw, (Wire.decodes_iff_normal hw hhashed hsig).mpr hnormal⟩

theorem exec_fromCompactBytes_of_decodes {K : Crates} {w : Wire} {b : Block}
    (h : w.Decodes K b) : (fromCompactBytes K w.bytes).exec = some (.ok b) := by
  rw [← List.append_nil w.bytes, Wire.exec_fromCompactBytes, Wire.block_eq_ok.mpr h]

/-- **Round trip.** A normal block with its computed hash and a signature of 64 bytes is encoded in
193 bytes, and they decode to it. -/
theorem exists_compactBytes {K : Crates} {b : Block} (hnormal : b.Normal)
    (hhash : Block.computeHash K b.account b.previous b.blockType b.balance b.nonce b.timestamp =
      .ok b.hash) (hsig : b.signature.length = 64) :
    ∃ data, toCompactBytes K b = .ok data ∧ data.length = 193 ∧
      (fromCompactBytes K data).exec = some (.ok b) := by
  obtain ⟨w, henc, hdec⟩ :=
    exists_encodes_decodes hnormal (Block.computeHash_eq_ok.mp hhash) hsig
  exact ⟨w.bytes, toCompactBytes_eq_ok.mpr ⟨w, henc, rfl⟩, w.length_bytes,
    exec_fromCompactBytes_of_decodes hdec⟩

theorem normal_sendToBob : Reference.sendToBob.Normal where
  account := isHex64_iff.mpr ⟨Vector.replicate 32 0xaa, rfl⟩
  previous := Or.inr ⟨isHex64_iff.mpr ⟨_, rfl⟩, exists_ne_zero_iff.mpr (by decide +kernel)⟩
  slot := fun s hs ↦ by
    rw [← Option.some_inj.mp hs]
    exact isHex64_iff.mpr ⟨Vector.replicate 32 0xbb, rfl⟩

theorem exists_compactBytes_sendToBob : ∃ data,
    toCompactBytes Reference.serde Reference.sendToBob = .ok data ∧ data.length = 193 ∧
      (fromCompactBytes Reference.serde data).exec = some (.ok Reference.sendToBob) :=
  exists_compactBytes normal_sendToBob
    (Block.computeHash_eq_ok.mpr Reference.verified_sendToBob.hashed) (by decide +kernel)

/-! ## From bytes to blocks and back -/

/-- The byte string is as long as a block, and zero where its type has nothing to say. -/
structure Canonical (data : List UInt8) : Prop where
  length : data.length = COMPACT_BLOCK_SIZE
  amount : data[0]? = some 0x02 ∨ data[0]? = some 0x03 →
    slice data 89 97 = some (List.replicate 8 0)
  slot : data[0]? = some 0x00 → slice data 97 129 = some (List.replicate 32 0)

/-- The same for the fields. -/
structure Wire.Canonical (w : Wire) : Prop where
  amount : w.tag = 0x02 ∨ w.tag = 0x03 → w.amount = 0
  slot : w.tag = 0x00 → w.slot = Vector.replicate 32 0

theorem canonical_append_iff {w : Wire} {rest : List UInt8} :
    Canonical (w.bytes ++ rest) ↔ rest = [] ∧ w.Canonical := by
  have htag : (w.bytes ++ rest)[0]? = some w.tag := rfl
  have hamount : slice (w.bytes ++ rest) 89 97 = some w.amount.toBeBytes :=
    w.slice_bytes (k := 6) rfl rest
  have hslot : slice (w.bytes ++ rest) 97 129 = some w.slot.toList :=
    w.slice_bytes (k := 7) rfl rest
  have hzero : w.amount.toBeBytes = List.replicate 8 0 ↔ w.amount = 0 :=
    UInt64.toBeBytes_injective.eq_iff (b := 0)
  have hzeros : w.slot.toList = List.replicate 32 0 ↔ w.slot = Vector.replicate 32 0 := by
    rw [← Vector.toList_inj, Vector.toList_replicate]
  have hlen : (w.bytes ++ rest).length = COMPACT_BLOCK_SIZE ↔ rest = [] := by
    rw [List.length_append, w.length_bytes, ← List.length_eq_zero_iff]
    omega
  constructor
  · intro h
    refine ⟨hlen.mp h.length, ?_, ?_⟩
    · have := h.amount
      simpa only [htag, hamount, Option.some_inj, hzero] using this
    · have := h.slot
      simpa only [htag, hslot, Option.some_inj, hzeros] using this
  · rintro ⟨hrest, h⟩
    refine ⟨hlen.mpr hrest, ?_, ?_⟩
    · simpa only [htag, hamount, Option.some_inj, hzero] using h.amount
    · simpa only [htag, hslot, Option.some_inj, hzeros] using h.slot

namespace Wire

variable {K : Crates} {w : Wire} {b : Block}

theorem blockType_cases {t : BlockType} (h : w.blockType = .ok t) :
    w.tag = 0x00 ∧ t = .open w.amount ∨
      w.tag = 0x01 ∧ t = .send (Hex.encode w.slot.toList) w.amount ∨
      w.tag = 0x02 ∧ t = .receive (Hex.encode w.slot.toList) ∨
      w.tag = 0x03 ∧ t = .revoke (Hex.encode w.slot.toList) := by
  rw [blockType] at h
  split at h
  · exact Or.inl ⟨‹_›, (Except.ok.inj h).symm⟩
  · exact Or.inr (Or.inl ⟨‹_›, (Except.ok.inj h).symm⟩)
  · exact Or.inr (Or.inr (Or.inl ⟨‹_›, (Except.ok.inj h).symm⟩))
  · exact Or.inr (Or.inr (Or.inr ⟨‹_›, (Except.ok.inj h).symm⟩))
  · simp at h

/-- The decoded type is written into the shared slots as they were read, where it has a use for
them. -/
theorem slots_iff_canonical {t : BlockType} (h : w.blockType = .ok t) :
    w.tag = t.tag ∧ (w.amount = t.slotAmount ∧ t.slotBytes K = .ok w.slot ↔ w.Canonical) := by
  have hdecode : ∀ fieldName, hexDecode32 K fieldName (Hex.encode w.slot.toList) = .ok w.slot :=
    fun _ ↦ hexDecode32_eq_ok.mpr (Hex.decode_encode _)
  have hcanonical : w.Canonical ↔
      (w.tag = 0x02 ∨ w.tag = 0x03 → w.amount = 0) ∧
        (w.tag = 0x00 → w.slot = Vector.replicate 32 0) :=
    ⟨fun h ↦ ⟨h.amount, h.slot⟩, fun h ↦ ⟨h.1, h.2⟩⟩
  rw [hcanonical]
  rcases blockType_cases h with ⟨htag, rfl⟩ | ⟨htag, rfl⟩ | ⟨htag, rfl⟩ | ⟨htag, rfl⟩
  · refine ⟨htag, ?_⟩
    simp [htag, BlockType.slotAmount, BlockType.slotBytes, eq_comm]
  · refine ⟨htag, ?_⟩
    simp [htag, BlockType.slotAmount, BlockType.slotBytes, hdecode]
  · refine ⟨htag, ?_⟩
    simp [htag, BlockType.slotAmount, BlockType.slotBytes, hdecode]
  · refine ⟨htag, ?_⟩
    simp [htag, BlockType.slotAmount, BlockType.slotBytes, hdecode]

theorem previousBytes_previousHash (w : Wire) :
    previousBytes K w.previousHash = .ok w.previous := by
  rw [previousHash_eq, previousBytes]
  by_cases hzero : w.previous = Vector.replicate 32 0
  · rw [if_pos hzero, if_pos rfl, hzero]
  · have hne : Hex.encode w.previous.toList ≠ "" := fun h ↦ by
      have hlen := (isHex64_iff.mpr ⟨w.previous, rfl⟩).length
      rw [h] at hlen
      simp at hlen
    rw [if_neg hzero, if_neg hne]
    exact hexDecode32_eq_ok.mpr (Hex.decode_encode _)

/-- **The fields that stand for a block are its fields** exactly when they are canonical. -/
theorem encodes_iff_canonical (h : w.Decodes K b) : w.Encodes K b ↔ w.Canonical := by
  obtain ⟨htag, hslots⟩ := @slots_iff_canonical K w b.blockType h.blockType
  rw [← hslots]
  constructor
  · exact fun henc ↦ ⟨henc.amount, henc.slot⟩
  · rintro ⟨hamount, hslot⟩
    refine ⟨htag, ?_, ?_, h.balance.symm, h.nonce.symm, h.timestamp.symm, hamount, hslot, ?_⟩
    · rw [h.account, Hex.decode_encode]
    · rw [h.previous, previousBytes_previousHash]
    · rw [h.signature, if_pos (Vector.length_toList)]

end Wire

/-- The bytes of a decoded block start with fields that stand for it. -/
theorem exists_decodes {K : Crates} {data : List UInt8} {b : Block}
    (h : (fromCompactBytes K data).exec = some (.ok b)) :
    ∃ (w : Wire) (rest : List UInt8), data = w.bytes ++ rest ∧ w.Decodes K b := by
  have hlen : COMPACT_BLOCK_SIZE ≤ data.length := by
    rw [fromCompactBytes, Fallible.exec_bind_eq_ok] at h
    obtain ⟨_, hcheck, -⟩ := h
    exact ensure_eq_ok.mp (Option.some_inj.mp hcheck)
  obtain ⟨w, rest, rfl⟩ := Wire.exists_bytes hlen
  rw [Wire.exec_fromCompactBytes, Option.some_inj, Wire.block_eq_ok] at h
  exact ⟨w, rest, rfl, h⟩

/-- What is accepted is written back unchanged exactly when it is canonical. -/
theorem reencodes_iff {K : Crates} {data : List UInt8} {b : Block}
    (h : (fromCompactBytes K data).exec = some (.ok b)) :
    toCompactBytes K b = .ok data ↔ Canonical data := by
  obtain ⟨w, rest, rfl, hdec⟩ := exists_decodes h
  rw [canonical_append_iff, ← Wire.encodes_iff_canonical hdec, toCompactBytes_eq_ok]
  constructor
  · rintro ⟨w', henc, hbytes⟩
    rw [← List.append_nil w'.bytes] at hbytes
    obtain ⟨rfl, rfl⟩ := Wire.bytes_append_inj hbytes
    exact ⟨rfl, henc⟩
  · rintro ⟨rfl, henc⟩
    exact ⟨w, henc, (List.append_nil _).symm⟩

/-- **Canonicity.** An accepted byte string is written back unchanged exactly when it is canonical,
and a block has no two canonical byte strings. -/
theorem toCompactBytes_iff_canonical {K : Crates} {data : List UInt8} {b : Block}
    (h : (fromCompactBytes K data).exec = some (.ok b)) :
    (toCompactBytes K b = .ok data ↔ Canonical data) ∧
      ∀ data', (fromCompactBytes K data').exec = some (.ok b) → Canonical data →
        Canonical data' → data' = data := by
  refine ⟨reencodes_iff h, fun data' h' hcanonical hcanonical' ↦ ?_⟩
  have hdata := (reencodes_iff h).mpr hcanonical
  rw [(reencodes_iff h').mpr hcanonical', Except.ok.injEq] at hdata
  exact hdata

theorem canonical_sendToBob : ∃ data,
    (fromCompactBytes Reference.serde data).exec = some (.ok Reference.sendToBob) ∧
      Canonical data := by
  obtain ⟨w, henc, hdec⟩ := exists_encodes_decodes normal_sendToBob
    Reference.verified_sendToBob.hashed (by decide +kernel)
  have hfrom := exec_fromCompactBytes_of_decodes hdec
  have hto := toCompactBytes_eq_ok.mpr ⟨w, henc, rfl⟩
  exact ⟨w.bytes, hfrom, (toCompactBytes_iff_canonical hfrom).1.mp hto⟩

/-- A Receive whose amount slot is not zero. -/
def noisyReceive : Wire where
  tag := 0x02
  account := Vector.replicate 32 0xaa
  previous := Vector.replicate 32 0
  balance := 0
  nonce := 1
  timestamp := 0
  amount := 1
  slot := Vector.replicate 32 0xcc
  signature := Vector.replicate 64 0

theorem not_reencodes :
    ¬ ∀ (data : List UInt8) (b : Block),
      (fromCompactBytes Reference.serde data).exec = some (.ok b) →
        toCompactBytes Reference.serde b = .ok data := by
  intro h
  have haccepted : (noisyReceive.block Reference.serde).toBool = true := by decide +kernel
  rcases hblock : noisyReceive.block Reference.serde with e | b
  · rw [hblock] at haccepted
    simp [Except.toBool] at haccepted
  · have hdec := Wire.block_eq_ok.mp hblock
    have hto := h _ b (exec_fromCompactBytes_of_decodes hdec)
    have hcanonical := (reencodes_iff (exec_fromCompactBytes_of_decodes hdec)).mp hto
    rw [← List.append_nil noisyReceive.bytes, canonical_append_iff] at hcanonical
    exact absurd (hcanonical.2.amount (Or.inl rfl)) (by decide)

end Arxia
