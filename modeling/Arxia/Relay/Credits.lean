import Arxia.Core.Crypto
import Arxia.Relay.Scoring

/-!
# Each message is credited once

The set of credited messages is written by one function, which counts a message just when the set
did not have it. Whatever the requests are, the set is therefore the messages that the successful
calls were for, each of which was for another message, and the counter is their number. The targets
count at most as many.
-/

namespace Arxia

open Rust Transition

namespace RelayScore

variable {m : Overflow} {K : Crypto} {relayId : String} {s s' : RelayScore} {tr : List Handled}

/-- The message that a call was credited for. -/
def Handled.credit (K : Crypto) (call : Handled) : Option BlockHash :=
  match call.result, call.request.receipt with
  | .ok _, some receipt => decodeHex32 K receipt.messageHash
  | _, _ => none

/-- The messages that the calls of a trace were credited for. -/
def credits (K : Crypto) (tr : List Handled) : List BlockHash := tr.filterMap (Handled.credit K)

/-- The books of a score after a run. -/
structure Booked (K : Crypto) (relayId : String) (tr : List Handled) (s : RelayScore) : Prop where
  relayId_eq : s.relayId = relayId
  /-- No two successful calls were for the same message. -/
  nodup : (credits K tr).Nodup
  credited : s.creditedMessages.toFinset = (credits K tr).toFinset
  relayed : s.messagesRelayed.toNat = s.creditedMessages.toFinset.card
  /-- Every credited message comes from a receipt of this relay that verifies. -/
  verified : ∀ hash ∈ s.creditedMessages.toFinset, ∃ call ∈ tr, ∃ receipt,
    call.request.receipt = some receipt ∧ call.result = .ok () ∧ receipt.relayId = relayId ∧
      receipt.verify K = .ok () ∧ decodeHex32 K receipt.messageHash = some hash
  successes_le : s.successes ≤ s.messagesRelayed.toNat

/-- Besides, a call that is rejected changes nothing. -/
structure CreditedOnce (m : Overflow) (K : Crypto) (relayId : String) (tr : List Handled)
    (s : RelayScore) : Prop extends Booked K relayId tr s where
  rejected : ∀ request e s', (handle m K request).exec s = some (.error e, s') → s' = s

/-- **What a receipt is credited for**, and when. -/
theorem creditable_eq_ok {receipt : RelayReceipt} {hash : BlockHash} :
    creditable K receipt s = .ok hash ↔ receipt.relayId = s.relayId ∧ receipt.verify K = .ok () ∧
      decodeHex32 K receipt.messageHash = some hash := by
  rw [creditable]
  simp only [bind_eq_ok, ensure_eq_ok, okOr_eq_ok]
  constructor
  · rintro ⟨_, hrelay, _, hverify, hhash⟩
    exact ⟨hrelay, hverify, hhash⟩
  · rintro ⟨hrelay, hverify, hhash⟩
    exact ⟨(), hrelay, (), hverify, hhash⟩

theorem credits_concat (K : Crypto) (tr : List Handled) (call : Handled) :
    credits K (tr ++ [call]) = credits K tr ++ (call.credit K).toList :=
  filterMap_concat _ tr call

/-- The number of credited messages is far from the end of the range of a word. -/
theorem card_credited_lt (s : RelayScore) : s.creditedMessages.toFinset.card < 2 ^ 58 := by
  have hle := s.creditedMessages.card_le
  rw [isizeMax] at hle
  omega

/-- A call that credits nothing keeps the books, if what they are about stays as it is. -/
theorem Booked.of_credit_eq_none (h : Booked K relayId tr s) {call : Handled}
    (hcredit : call.credit K = none) (hid : s'.relayId = s.relayId)
    (hcredited : s'.creditedMessages = s.creditedMessages)
    (hrelayed : s'.messagesRelayed = s.messagesRelayed) (hsuccesses : s'.successes = s.successes) :
    Booked K relayId (tr ++ [call]) s' := by
  have hcredits : credits K (tr ++ [call]) = credits K tr := by
    rw [credits_concat, hcredit, Option.toList_none, List.append_nil]
  refine ⟨hid.trans h.relayId_eq, hcredits ▸ h.nodup, ?_, ?_, fun hash hmem ↦ ?_, ?_⟩
  · rw [hcredited, hcredits, h.credited]
  · rw [hcredited, hrelayed, h.relayed]
  · obtain ⟨call', hcall', hverified⟩ := h.verified hash (hcredited ▸ hmem)
    exact ⟨call', List.mem_append_left _ hcall', hverified⟩
  · rw [hsuccesses, hrelayed]
    exact h.successes_le

/-- **A success** enters its message. -/
theorem Booked.of_credits (h : Booked K relayId tr s) {request : Request} {receipt : RelayReceipt}
    {hash : BlockHash} (hreceipt : request.receipt = some receipt)
    (hhash : creditable K receipt s = .ok hash) (hcredits : Credits m hash s s') :
    Booked K relayId (tr ++ [⟨s, request, .ok ()⟩]) s' := by
  obtain ⟨hrelay, hverify, hdecode⟩ := creditable_eq_ok.mp hhash
  have hconcat : credits K (tr ++ [⟨s, request, .ok ()⟩]) = credits K tr ++ [hash] := by
    rw [credits_concat, Handled.credit]
    dsimp only
    rw [hreceipt]
    dsimp only
    rw [hdecode, Option.toList_some]
  have hrelayed : s'.messagesRelayed.toNat = s.messagesRelayed.toNat + 1 := by
    -- there are fewer hashes than the counter can count
    have hlt := card_credited_lt s
    rw [← h.relayed] at hlt
    refine (UInt64.plus_eq_some_of_le ?_).mp hcredits.relayed
    rw [UInt64.toNat_one, u64Max]
    omega
  refine ⟨hcredits.relayId.trans h.relayId_eq, ?_, ?_, ?_, fun hash' hmem ↦ ?_, ?_⟩
  · have hfresh : hash ∉ credits K tr := by
      rw [← List.mem_toFinset, ← h.credited]
      exact hcredits.fresh
    rw [hconcat, ← List.concat_eq_append]
    exact List.Nodup.concat hfresh h.nodup
  · rw [hcredits.credited, hconcat, h.credited]
    ext hash'
    simp
  · rw [hcredits.credited, Finset.card_insert_of_notMem hcredits.fresh, hrelayed, h.relayed]
  · rw [hcredits.credited, Finset.mem_insert] at hmem
    rcases hmem with rfl | hold
    · exact ⟨_, List.mem_append_right _ (List.mem_singleton_self _), receipt, hreceipt, rfl,
        hrelay.trans h.relayId_eq, hverify, hdecode⟩
    · obtain ⟨call, hcall, hverified⟩ := h.verified hash' hold
      exact ⟨call, List.mem_append_left _ hcall, hverified⟩
  · rw [hrelayed]
    exact hcredits.successes.trans (Nat.succ_le_succ h.successes_le)

/-- **The books of a run** are in order. -/
theorem booked_of_run (run : (system m K relayId).Run tr s) : Booked K relayId tr s := by
  refine run.invariant (I := Booked K relayId) ?_ ?_
  · rintro s rfl
    exact ⟨rfl, List.nodup_nil, rfl, rfl, fun _ hmem ↦ absurd hmem (Finset.notMem_empty _),
      Nat.le_refl 0⟩
  · rintro tr _ ⟨s, request, result⟩ s' - ih ⟨rfl, hexec⟩
    rcases handle_cases hexec with ⟨⟨e, rfl⟩, rfl⟩ | ⟨rfl, hcase⟩
    · exact ih.of_credit_eq_none rfl rfl rfl rfl rfl
    rcases hcase with ⟨receipt, hash, hreceipt, hhash, hcredits⟩ | ⟨hreceipt, -, hfails⟩ |
      ⟨penalty, proof, rfl, -, rfl⟩
    · exact ih.of_credits hreceipt hhash hcredits
    · refine ih.of_credit_eq_none ?_ hfails.relayId hfails.credited hfails.relayed hfails.successes
      rw [Handled.credit]
      dsimp only
      rw [hreceipt]
    · exact ih.of_credit_eq_none rfl rfl rfl rfl rfl

/-- **Each message is credited once**, whichever calls it comes by. -/
theorem creditedOnce_of_run (run : (system m K relayId).Run tr s) :
    CreditedOnce m K relayId tr s := by
  refine ⟨booked_of_run run, fun request e s' hexec ↦ ?_⟩
  rcases handle_cases hexec with ⟨-, hsame⟩ | ⟨hok, -⟩
  · exact hsame
  · cases hok

/-- The key of a relay, and its name. -/
def relayKey : AccountId := Vector.replicate 32 0xaa

def relayName : String := Hex.encode relayKey.toList

/-- A receipt that the relay signs for a message. -/
def signedReceipt (hash : BlockHash) (timestamp : UInt64) (hopCount : UInt8) : RelayReceipt :=
  let receipt : RelayReceipt := {
    relayId := relayName
    messageHash := Hex.encode hash.toList
    timestamp := timestamp
    signature := []
    hopCount := hopCount }
  { receipt with
    signature := match receipt.canonicalMessage Reference.crypto with
      | .ok msg => (Reference.sign relayKey msg).toList
      | .error _ => [] }

/-- A message, and the same message with another time and another number of hops. -/
def presented : Request := .recordSuccess (signedReceipt (Vector.replicate 32 0x11) 1 1)

def replayed : Request := .recordSuccessAt (signedReceipt (Vector.replicate 32 0x11) 2 2) 7

/-- It is credited for the first of the two calls. -/
theorem creditedOnce_of_run_replayed : ∃ tr s,
    (system .panics Reference.crypto relayName).Run tr s ∧ tr.length = 2 ∧
      s.messagesRelayed = 1 ∧ CreditedOnce .panics Reference.crypto relayName tr s := by
  have hplay : (((handle .panics Reference.crypto presented).exec (new relayName)).bind fun out ↦
      (handle .panics Reference.crypto replayed).exec out.2).any
        (fun out ↦ out.2.messagesRelayed = 1) = true := by decide +kernel
  rw [Option.any_eq_true] at hplay
  obtain ⟨⟨result', s'⟩, hboth, hrelayed⟩ := hplay
  obtain ⟨⟨result, s⟩, hfirst, hsecond⟩ := Option.bind_eq_some_iff.mp hboth
  have run : (system .panics Reference.crypto relayName).Run
      ([] ++ [⟨new relayName, presented, result⟩] ++ [⟨s, replayed, result'⟩]) s' :=
    .step (.step (.start rfl) ⟨rfl, hfirst⟩) ⟨rfl, hsecond⟩
  exact ⟨_, s', run, rfl, of_decide_eq_true hrelayed, creditedOnce_of_run run⟩

end RelayScore

end Arxia
