import Arxia.Relay.Credits

/-!
# Names of relays

A score is kept under a name, and a receipt is only credited to it if the name decodes to the key
that has signed the receipt. `new` takes any string for a name. `try_new` takes those that could
ever be credited, and says of any other one what is wrong with it.
-/

namespace Arxia

open Rust Transition

/-- Required length of a canonical `relay_id`. -/
def RELAY_ID_LEN : ℕ := 64

/-- Errors returned by `RelayScore.tryNew`. -/
inductive RelayIdError
  | invalidLength (got : ℕ)
  | invalidHex (byteOffset : ℕ) (byte : UInt8)
  deriving DecidableEq

/-- `b.is_ascii_digit() || (b'a'..=b'f').contains(&b) || (b'A'..=b'F').contains(&b)`. -/
def isHexByte (b : UInt8) : Bool :=
  (48 ≤ b && b ≤ 57) || (97 ≤ b && b ≤ 102) || (65 ≤ b && b ≤ 70)

/-- The loop over the bytes. -/
def checkHexBytes : ℕ → List UInt8 → Except RelayIdError Unit
  | _, [] => .ok ()
  | i, b :: bytes =>
    if isHexByte b then checkHexBytes (i + 1) bytes else .error (.invalidHex i b)

/-- Validate that `relayId` is 64 hex digits. -/
def validateRelayId (relayId : String) : Except RelayIdError Unit := do
  ensure ((asBytes relayId).length = RELAY_ID_LEN) (.invalidLength (asBytes relayId).length)
  checkHexBytes 0 (asBytes relayId)

/-- Create a new relay score, validating its name. -/
def RelayScore.tryNew (relayId : String) : Except RelayIdError RelayScore := do
  validateRelayId relayId
  pure (RelayScore.new relayId)

/-! ## What is accepted -/

theorem isHexByte_iff {b : UInt8} : isHexByte b = true ↔
    48 ≤ b.toNat ∧ b.toNat ≤ 57 ∨ 97 ≤ b.toNat ∧ b.toNat ≤ 102 ∨
      65 ≤ b.toNat ∧ b.toNat ≤ 70 := by
  simp only [isHexByte, Bool.or_eq_true, Bool.and_eq_true, decide_eq_true_eq,
    UInt8.le_iff_toNat_le, UInt8.reduceToNat, or_assoc]

theorem isSome_digit_iff {c : Char} : (Hex.digit c).isSome ↔
    48 ≤ c.toNat ∧ c.toNat ≤ 57 ∨ 97 ≤ c.toNat ∧ c.toNat ≤ 102 ∨
      65 ≤ c.toNat ∧ c.toNat ≤ 70 := by
  rw [Hex.digit]
  split
  · simp only [Option.isSome_some, true_iff]
    omega
  split
  · simp only [Option.isSome_some, true_iff]
    omega
  split
  · simp only [Option.isSome_some, true_iff]
    omega
  · simp only [Option.isSome_none, Bool.false_eq_true, false_iff]
    omega

/-- A character that is written with more than one byte has a byte that is not a digit. -/
theorem forall_isHexByte_char (c : Char) :
    (∀ b ∈ String.utf8EncodeChar c, isHexByte b = true) ↔ (Hex.digit c).isSome := by
  have htail : ∀ v, isHexByte (UInt8.ofNat (v % 64 + 128)) = false := by
    intro v
    rw [← Bool.not_eq_true, isHexByte_iff, UInt8.toNat_ofNat']
    omega
  have hlast : ∀ bytes : List UInt8, ¬ c.toNat ≤ 127 →
      ¬ ∀ b ∈ bytes ++ [UInt8.ofNat (c.toNat % 64 + 128)], isHexByte b = true := by
    intro bytes _ hall
    have := hall _ (List.mem_append_right _ (List.mem_singleton_self _))
    rw [htail] at this
    cases this
  have hdigit : ¬ c.toNat ≤ 127 → ¬ (Hex.digit c).isSome := by
    intro hlt hsome
    have := Hex.toNat_lt_of_digit hsome
    omega
  by_cases hascii : c.toNat ≤ 127
  · have hbyte : (UInt8.ofNat c.val.toNat).toNat = c.toNat := by
      change (UInt8.ofNat c.toNat).toNat = c.toNat
      rw [UInt8.toNat_ofNat']
      omega
    rw [String.utf8EncodeChar, if_pos (show c.val.toNat ≤ 127 from hascii),
      List.forall_mem_singleton, isHexByte_iff, isSome_digit_iff, hbyte]
  · refine iff_of_false ?_ (hdigit hascii)
    rw [String.utf8EncodeChar, if_neg (show ¬ c.val.toNat ≤ 127 from hascii)]
    split
    · exact hlast [_] hascii
    split
    · exact hlast [_, _] hascii
    · exact hlast [_, _, _] hascii

theorem checkHexBytes_eq_ok {i : ℕ} {bytes : List UInt8} :
    checkHexBytes i bytes = .ok () ↔ ∀ b ∈ bytes, isHexByte b = true := by
  induction bytes generalizing i with
  | nil => simp [checkHexBytes]
  | cons b bytes ih =>
    rw [checkHexBytes, List.forall_mem_cons]
    split
    · rename_i hb
      rw [ih, and_iff_right hb]
    · rename_i hb
      exact iff_of_false nofun fun h ↦ hb h.1

/-- **The error names the first byte** that is not a digit. -/
theorem checkHexBytes_eq_error {i : ℕ} {bytes : List UInt8} {e : RelayIdError} :
    checkHexBytes i bytes = .error e ↔ ∃ before b after, bytes = before ++ b :: after ∧
      (∀ d ∈ before, isHexByte d = true) ∧ isHexByte b = false ∧
      e = .invalidHex (i + before.length) b := by
  induction bytes generalizing i with
  | nil => simp [checkHexBytes]
  | cons b bytes ih =>
    rw [checkHexBytes]
    split
    · rename_i hb
      rw [ih]
      constructor
      · rintro ⟨before, d, after, rfl, hbefore, hd, rfl⟩
        refine ⟨b :: before, d, after, rfl, List.forall_mem_cons.mpr ⟨hb, hbefore⟩, hd, ?_⟩
        rw [List.length_cons, Nat.add_right_comm, Nat.add_assoc]
      · rintro ⟨_ | ⟨d, before⟩, d', after, heq, hbefore, hd, rfl⟩
        · obtain ⟨rfl, -⟩ := List.cons.inj heq
          rw [hb] at hd
          cases hd
        · obtain ⟨rfl, rfl⟩ := List.cons.inj heq
          refine ⟨before, d', after, rfl, (List.forall_mem_cons.mp hbefore).2, hd, ?_⟩
          rw [List.length_cons, Nat.add_right_comm, Nat.add_assoc]
    · rename_i hb
      rw [Bool.not_eq_true] at hb
      constructor
      · rintro ⟨⟩
        exact ⟨[], b, bytes, rfl, nofun, hb, rfl⟩
      · rintro ⟨_ | ⟨d, before⟩, d', after, heq, hbefore, hd, rfl⟩
        · obtain ⟨rfl, -⟩ := List.cons.inj heq
          rfl
        · obtain ⟨rfl, -⟩ := List.cons.inj heq
          rw [(List.forall_mem_cons.mp hbefore).1] at hb
          cases hb

/-- **The names that are accepted** are those that decode to a key. -/
theorem validateRelayId_eq_ok {relayId : String} : validateRelayId relayId = .ok () ↔
    ∃ key : AccountId, Hex.decode relayId.toList = some key.toList := by
  have hbytes : (∀ b ∈ asBytes relayId, isHexByte b = true) ↔
      ∀ c ∈ relayId.toList, (Hex.digit c).isSome := by
    rw [asBytes_eq_flatMap, List.forall_mem_flatMap]
    exact forall₂_congr fun c _ ↦ forall_isHexByte_char c
  -- every digit is one byte
  have hlength : (∀ c ∈ relayId.toList, (Hex.digit c).isSome) →
      (asBytes relayId).length = relayId.toList.length := by
    intro hdigits
    rw [asBytes_eq_flatMap, List.length_flatMap, List.map_congr_left fun c hc ↦
      (String.length_utf8EncodeChar c).trans (Hex.utf8Size_of_digit (hdigits c hc)),
      List.map_const', List.sum_replicate_nat, Nat.mul_one]
  simp only [validateRelayId, bind_eq_ok, ensure_eq_ok, checkHexBytes_eq_ok]
  constructor
  · rintro ⟨_, hlen, hall⟩
    have hdigits := hbytes.mp hall
    rw [hlength hdigits, RELAY_ID_LEN] at hlen
    obtain ⟨bs, hbs, hn⟩ := Hex.exists_decode (n := 32) hlen hdigits
    obtain ⟨key, rfl⟩ := exists_vector hn
    exact ⟨key, hbs⟩
  · rintro ⟨key, hkey⟩
    obtain ⟨hlen, hdigits⟩ := Hex.decode_eq_some hkey
    rw [Vector.length_toList] at hlen
    exact ⟨(), (hlength hdigits).trans hlen, hbytes.mpr hdigits⟩

/-- What is wrong with a name that is not accepted. -/
theorem validateRelayId_eq_error {relayId : String} {e : RelayIdError}
    (h : validateRelayId relayId = .error e) :
    ((asBytes relayId).length ≠ RELAY_ID_LEN ∧ e = .invalidLength (asBytes relayId).length) ∨
      ∃ before b after, asBytes relayId = before ++ b :: after ∧
        (∀ d ∈ before, isHexByte d = true) ∧ isHexByte b = false ∧
        e = .invalidHex before.length b := by
  rw [validateRelayId] at h
  by_cases hlength : (asBytes relayId).length = RELAY_ID_LEN
  · rw [ensure, if_pos hlength] at h
    obtain ⟨before, b, after, hbytes, hbefore, hb, rfl⟩ := checkHexBytes_eq_error.mp h
    exact .inr ⟨before, b, after, hbytes, hbefore, hb, by rw [Nat.zero_add]⟩
  · rw [ensure, if_neg hlength] at h
    cases h
    exact .inl ⟨hlength, rfl⟩

/-! ## What can be credited -/

namespace RelayScore

variable {m : Overflow} {K : Crypto} {relayId : String} {s : RelayScore} {tr : List Handled}

theorem exists_tryNew : (∃ s, tryNew relayId = .ok s) ↔ validateRelayId relayId = .ok () := by
  rw [tryNew]
  simp only [bind_eq_ok]
  exact ⟨fun ⟨_, _, h, _⟩ ↦ h, fun h ↦ ⟨new relayId, (), h, rfl⟩⟩

/-- A credited name decodes. -/
theorem validateRelayId_of_credited (run : (system m K relayId).Run tr s)
    (hcredited : s.creditedMessages.toFinset.Nonempty) : validateRelayId relayId = .ok () := by
  obtain ⟨hash, hhash⟩ := hcredited
  obtain ⟨call, -, receipt, -, -, rfl, hverify, -⟩ := (booked_of_run run).verified hash hhash
  simp only [RelayReceipt.verify, bind_eq_ok, okOr_eq_ok] at hverify
  obtain ⟨_, -, msg, -, key, hkey, -⟩ := hverify
  exact validateRelayId_eq_ok.mpr ⟨key, decodeHex32_eq_some.mp hkey⟩

/-- A receipt of the relay for a message. -/
def receiptOf (K : Crypto) (relayId : String) (sign : List UInt8 → SignatureBytes)
    (hash : BlockHash) : RelayReceipt :=
  let receipt : RelayReceipt := ⟨relayId, Hex.encode hash.toList, 0, [], 1⟩
  { receipt with signature := match receipt.canonicalMessage K with
      | .ok msg => (sign msg).toList
      | .error _ => [] }

/-- **A key holder can be credited.** -/
theorem creditable_receiptOf {key : AccountId} {sign : List UInt8 → SignatureBytes}
    (hkey : Hex.decode relayId.toList = some key.toList)
    (hsign : ∀ data, K.verify key data (sign data) = .ok ()) (hash : BlockHash) :
    creditable K (receiptOf K relayId sign hash) (new relayId) = .ok hash := by
  have hrelay := decodeHex32_eq_some (K := K).mpr hkey
  have hhash : decodeHex32 K (Hex.encode hash.toList) = some hash :=
    decodeHex32_eq_some.mpr (Hex.decode_encode _)
  refine creditable_eq_ok.mpr ⟨rfl, ?_, hhash⟩
  simp only [RelayReceipt.verify, receiptOf, RelayReceipt.canonicalMessage, bind_eq_ok,
    okOr_eq_ok, ensure_eq_ok, hrelay, hhash, Option.some_inj, mapError_eq_ok, toArray_eq_some]
  exact ⟨(), by decide, _, ⟨key, rfl, hash, rfl, rfl⟩, key, rfl, _, rfl, hsign _⟩

theorem exists_credit {receipt : RelayReceipt} {hash : BlockHash}
    (h : creditable K receipt (new relayId) = .ok hash) :
    ∃ s', (system m K relayId).Run [⟨new relayId, .recordSuccess receipt, .ok ()⟩] s' ∧
      s'.creditedMessages.toFinset.Nonempty := by
  have hroom : (insert hash (∅ : Finset BlockHash)).card * 32 ≤ isizeMax := by
    rw [Finset.card_insert_of_notMem (Finset.notMem_empty _)]
    decide
  have hinsert : (new relayId).creditedMessages.insert hash = some (true, ⟨_, hroom⟩) := by
    have hnew : hash ∉ (new relayId).creditedMessages.toFinset := Finset.notMem_empty _
    rw [HashSet.insert, if_neg hnew]
    exact dif_pos hroom
  have hrelayed : (new relayId).messagesRelayed.plus m 1 = some 1 := by cases m <;> rfl
  have hscore : (new relayId).score.plus m 1 = some 101 :=
    (by cases m <;> decide : (100 : Int64).plus m 1 = some 101)
  refine ⟨{ new relayId with creditedMessages := ⟨_, hroom⟩, messagesRelayed := 1, score := 101 },
    .step (.start rfl) ⟨rfl, ?_⟩, ⟨hash, Finset.mem_insert_self _ _⟩⟩
  rw [handle, Call.exec_mapError, recordSuccess, Call.exec_bind_ok (Call.exec_get _),
    Call.exec_check_ok h, Call.exec_some hinsert, Call.exec_ensure_ok rfl,
    Call.exec_some hrelayed, Call.exec_some hscore, Call.exec_set]
  rfl

/-- **Exactly the names that can be credited are accepted**, for a relay whose key holder can sign;
and a name that is refused is never credited, in no run of calls, and the error says that its length
is not 64 bytes or which of its bytes is the first that is not a hexadecimal digit. -/
theorem tryNew_iff_credited (hsign : ∀ key : AccountId,
      Hex.decode relayId.toList = some key.toList →
        ∃ sign : List UInt8 → SignatureBytes, ∀ data, K.verify key data (sign data) = .ok ()) :
    ((∃ s, tryNew relayId = .ok s) ↔ ∃ tr s, (system m K relayId).Run tr s ∧
      s.creditedMessages.toFinset.Nonempty) ∧
    ∀ e, tryNew relayId = .error e →
      (∀ tr s, (system m K relayId).Run tr s → s.creditedMessages.toFinset = ∅ ∧
        s.messagesRelayed = 0) ∧
      (((asBytes relayId).length ≠ RELAY_ID_LEN ∧ e = .invalidLength (asBytes relayId).length) ∨
        ∃ before b after, asBytes relayId = before ++ b :: after ∧
          (∀ d ∈ before, isHexByte d = true) ∧ isHexByte b = false ∧
          e = .invalidHex before.length b) := by
  constructor
  · rw [exists_tryNew]
    constructor
    · intro hvalid
      obtain ⟨key, hkey⟩ := validateRelayId_eq_ok.mp hvalid
      obtain ⟨sign, hsign⟩ := hsign key hkey
      obtain ⟨s', run, hcredited⟩ :=
        exists_credit (m := m) (creditable_receiptOf hkey hsign (Vector.replicate 32 0))
      exact ⟨_, s', run, hcredited⟩
    · rintro ⟨tr, s, run, hcredited⟩
      exact validateRelayId_of_credited run hcredited
  · intro e he
    have hinvalid : validateRelayId relayId = .error e := by
      rw [tryNew] at he
      cases h : validateRelayId relayId with
      | ok _ =>
        rw [h] at he
        cases he
      | error e' =>
        rw [h] at he
        cases he
        rfl
    refine ⟨fun tr s run ↦ ?_, validateRelayId_eq_error hinvalid⟩
    have hempty : s.creditedMessages.toFinset = ∅ := by
      by_contra hne
      have hvalid := validateRelayId_of_credited run (Finset.nonempty_iff_ne_empty.mpr hne)
      rw [hinvalid] at hvalid
      cases hvalid
    have hrelayed := (booked_of_run run).relayed
    rw [hempty, Finset.card_empty] at hrelayed
    exact ⟨hempty, UInt64.toNat_inj.mp hrelayed⟩

theorem tryNew_iff_credited_relayName : ∃ tr s,
    (system .panics Reference.crypto relayName).Run tr s ∧
      s.creditedMessages.toFinset.Nonempty :=
  (tryNew_iff_credited fun key _ ↦ ⟨Reference.sign key, Reference.verify_sign key⟩).1.mp
    (exists_tryNew.mpr (validateRelayId_eq_ok.mpr ⟨relayKey, Hex.decode_encode _⟩))

end RelayScore

end Arxia
