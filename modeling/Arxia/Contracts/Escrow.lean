import Arxia.Core.Crypto
import Arxia.Rust.Bytes
import Arxia.Transition.Runs

/-!
# The escrow contract

Funds are locked until the recipient takes them, or until the sender takes them back once the
timeout has passed. Either is one call that carries a signature over the terms of the escrow, under
a prefix for the action; the state that it leaves is what keeps every later call out.

`Authorizes` is what `release` and `refund` have in common; `Calls` what a call comes to.
-/

namespace Arxia

open Rust Transition

/-- The external functions that a contract calls. -/
structure ContractCrypto extends Crypto where
  /-- `VerifyingKey::verify`, which is less strict than `verify_strict`. -/
  verifyLoose : AccountId → List UInt8 → SignatureBytes → Except String Unit

/-- Domain-separation prefix for the signature that authorizes `Escrow.release`. -/
def ESCROW_RELEASE_DOMAIN : List UInt8 := asBytes "arxia-escrow-release-v1"

/-- Domain-separation prefix for the signature that authorizes `Escrow.refund`. -/
def ESCROW_REFUND_DOMAIN : List UInt8 := asBytes "arxia-escrow-refund-v1"

/-- Escrow state. -/
inductive EscrowState
  | locked
  | released
  | refunded
  deriving DecidableEq

/-- An escrow contract. -/
structure Escrow where
  /-- Sender account, hex-encoded public key. -/
  sender : String
  /-- Recipient account, hex-encoded public key. -/
  recipient : String
  /-- Amount held (micro-ARX). -/
  amount : UInt64
  state : EscrowState
  /-- Timeout timestamp (unix ms). -/
  timeout : UInt64
  deriving DecidableEq

namespace Escrow

/-- Create a new escrow. -/
def new (sender recipient : String) (amount timeout : UInt64) : Escrow where
  sender := sender
  recipient := recipient
  amount := amount
  state := .locked
  timeout := timeout

/-- The identity suffix that both messages share. -/
def identityBytes (K : ContractCrypto) (e : Escrow) : Except String (List UInt8) := do
  let senderBytes ← (K.hexDecode e.sender).mapError fun _ ↦ "sender is not valid hex"
  let recipientBytes ← (K.hexDecode e.recipient).mapError fun _ ↦ "recipient is not valid hex"
  ensure (senderBytes.length = 32) "sender must be a 32-byte pubkey"
  ensure (recipientBytes.length = 32) "recipient must be a 32-byte pubkey"
  .ok (senderBytes ++ recipientBytes ++ e.amount.toBeBytes ++ e.timeout.toBeBytes)

/-- Canonical release-authorization message. -/
def releaseMessage (K : ContractCrypto) (e : Escrow) : Except String (List UInt8) := do
  let identity ← e.identityBytes K
  .ok (ESCROW_RELEASE_DOMAIN ++ identity)

/-- Canonical refund-authorization message. -/
def refundMessage (K : ContractCrypto) (e : Escrow) : Except String (List UInt8) := do
  let identity ← e.identityBytes K
  .ok (ESCROW_REFUND_DOMAIN ++ identity)

/-- What `release` and `refund` check of their caller: it is the account of this party, and the
signature is one of it over the message. -/
def authorize (K : ContractCrypto) (party account : String) (message : Except String (List UInt8))
    (callerPubkey : AccountId) (signature : SignatureBytes) : Except String Unit := do
  let bytes ← (K.hexDecode account).mapError fun _ ↦ party ++ " is not valid hex"
  ensure (bytes.length = 32) (party ++ " must be a 32-byte pubkey")
  ensure (bytes = callerPubkey.toList) ("caller is not the " ++ party)
  let msg ← message
  (K.fromBytes callerPubkey).mapError fun _ ↦ "invalid caller pubkey"
  (K.verifyLoose callerPubkey msg signature).mapError fun _ ↦ "invalid signature"

/-- Release funds to the recipient. -/
def release (K : ContractCrypto) (callerPubkey : AccountId) (signature : SignatureBytes) :
    Call Escrow String Unit := do
  let e ← get
  Call.ofExcept (ensure (e.state = .locked) "escrow is not in locked state")
  Call.ofExcept (authorize K "recipient" e.recipient (e.releaseMessage K) callerPubkey signature)
  set { e with state := .released }

/-- Refund funds to the sender. -/
def refund (K : ContractCrypto) (callerPubkey : AccountId) (signature : SignatureBytes)
    (currentTime : UInt64) : Call Escrow String Unit := do
  let e ← get
  Call.ofExcept (ensure (e.state = .locked) "escrow is not in locked state")
  Call.ofExcept (ensure (e.timeout ≤ currentTime) "timeout has not elapsed")
  Call.ofExcept (authorize K "sender" e.sender (e.refundMessage K) callerPubkey signature)
  set { e with state := .refunded }

/-- A call of the contract. -/
inductive Request
  | release (callerPubkey : AccountId) (signature : SignatureBytes)
  | refund (callerPubkey : AccountId) (signature : SignatureBytes) (currentTime : UInt64)

/-- Carry out a call. -/
def handle (K : ContractCrypto) : Request → Call Escrow String Unit
  | .release callerPubkey signature => release K callerPubkey signature
  | .refund callerPubkey signature currentTime => refund K callerPubkey signature currentTime

/-- A call and what it returned. -/
structure Handled where
  request : Request
  result : Except String Unit

/-- Calls of an escrow. -/
def system (K : ContractCrypto) (e₀ : Escrow) : System Escrow Handled where
  init := fun e ↦ e = e₀
  step := fun e a e' ↦ (handle K a.request).exec e = some (a.result, e')

/-! ## The messages -/

/-- The two ways in which an escrow is settled. -/
inductive Action
  | release
  | refund
  deriving DecidableEq

/-- The account of the party that an action is for. -/
def entitled (e : Escrow) : Action → String
  | .release => e.recipient
  | .refund => e.sender

/-- The message that authorizes an action. -/
def message (K : ContractCrypto) (e : Escrow) : Action → Except String (List UInt8)
  | .release => e.releaseMessage K
  | .refund => e.refundMessage K

/-- The prefix for an action. -/
def Action.domain : Action → List UInt8
  | .release => ESCROW_RELEASE_DOMAIN
  | .refund => ESCROW_REFUND_DOMAIN

/-- What a request asks for. -/
def Request.action : Request → Action
  | .release _ _ => .release
  | .refund _ _ _ => .refund

/-- The state that an action leaves. -/
def Action.settled : Action → EscrowState
  | .release => .released
  | .refund => .refunded

/-- Two escrows have the same parties, by their keys, and the same terms. -/
structure SameTerms (K : ContractCrypto) (e e' : Escrow) : Prop where
  sender : ∃ key : AccountId, K.hexDecode e.sender = .ok key.toList ∧
    K.hexDecode e'.sender = .ok key.toList
  recipient : ∃ key : AccountId, K.hexDecode e.recipient = .ok key.toList ∧
    K.hexDecode e'.recipient = .ok key.toList
  amount : e.amount = e'.amount
  timeout : e.timeout = e'.timeout

/-- The fields of the identity suffix. -/
def identityFields (e : Escrow) (sender recipient : AccountId) : List (List UInt8) :=
  [sender.toList, recipient.toList, e.amount.toBeBytes, e.timeout.toBeBytes]

variable {K : ContractCrypto} {e e' e₀ : Escrow} {action action' : Action} {msg : List UInt8}
  {callerPubkey : AccountId} {signature : SignatureBytes}

theorem message_eq_ok : e.message K action = .ok msg ↔
    ∃ sender recipient : AccountId, K.hexDecode e.sender = .ok sender.toList ∧
      K.hexDecode e.recipient = .ok recipient.toList ∧
      msg = action.domain ++ (e.identityFields sender recipient).flatten := by
  have hmessage : e.message K action =
      (e.identityBytes K >>= fun identity ↦ .ok (action.domain ++ identity)) := by
    cases action <;> rfl
  rw [hmessage]
  simp only [identityBytes, bind_eq_ok, mapError_eq_ok, ensure_eq_ok]
  constructor
  · rintro ⟨identity,
      ⟨sender, hsender, recipient, hrecipient, ⟨⟩, hlength, ⟨⟩, hlength', hok⟩, hmsg⟩
    obtain ⟨s, rfl⟩ := exists_vector hlength
    obtain ⟨r, rfl⟩ := exists_vector hlength'
    cases hok
    cases hmsg
    exact ⟨s, r, hsender, hrecipient, by simp [identityFields]⟩
  · rintro ⟨s, r, hsender, hrecipient, rfl⟩
    exact ⟨_, ⟨_, hsender, _, hrecipient, ⟨⟩, Vector.length_toList, ⟨⟩, Vector.length_toList, rfl⟩,
      by simp [identityFields]⟩

theorem length_identityFields (e : Escrow) (sender recipient : AccountId) :
    (e.identityFields sender recipient).map List.length = [32, 32, 8, 8] := by
  simp [identityFields]

/-- The prefixes are of different lengths. -/
theorem Action.domain_length_inj (h : action.domain.length = action'.domain.length) :
    action = action' := by
  cases action <;> cases action' <;> first | rfl | exact absurd h (by decide)

/-- **A message says all that is agreed**: the action, the parties and the terms. -/
theorem eq_of_message (h : e.message K action = .ok msg) (h' : e'.message K action' = .ok msg) :
    action = action' ∧ SameTerms K e e' := by
  obtain ⟨s, r, hs, hr, rfl⟩ := message_eq_ok.mp h
  obtain ⟨s', r', hs', hr', heq⟩ := message_eq_ok.mp h'
  have hwidth := length_flatten_eq_sum (length_identityFields e s r)
  have hwidth' := length_flatten_eq_sum (length_identityFields e' s' r')
  have hlength := congrArg List.length heq
  rw [List.length_append, List.length_append, hwidth, hwidth', Nat.add_right_cancel_iff] at hlength
  obtain rfl := Action.domain_length_inj hlength
  have hfields : e.identityFields s r = e'.identityFields s' r' := by
    have hflat := List.append_cancel_left heq
    refine (flatten_append_inj ?_ (congrArg (· ++ []) hflat)).1
    rw [length_identityFields, length_identityFields]
  simp only [identityFields, List.cons.injEq, and_true] at hfields
  obtain ⟨hsender, hrecipient, hamount, htimeout⟩ := hfields
  refine ⟨rfl, ⟨s, hs, hsender ▸ hs'⟩, ⟨r, hr, hrecipient ▸ hr'⟩, ?_, ?_⟩
  · exact UInt64.toBeBytes_injective hamount
  · exact UInt64.toBeBytes_injective htimeout

/-! ## The calls -/

/-- The caller is the party that the action is for, and has signed it. -/
structure Authorizes (K : ContractCrypto) (e : Escrow) (action : Action)
    (callerPubkey : AccountId) (signature : SignatureBytes) : Prop where
  caller : K.hexDecode (e.entitled action) = .ok callerPubkey.toList
  valid : K.fromBytes callerPubkey = .ok ()
  signed : ∃ msg, e.message K action = .ok msg ∧
    K.verifyLoose callerPubkey msg signature = .ok ()

theorem authorize_eq_ok {party account : String} {message : Except String (List UInt8)} :
    authorize K party account message callerPubkey signature = .ok () ↔
      K.hexDecode account = .ok callerPubkey.toList ∧ K.fromBytes callerPubkey = .ok () ∧
        ∃ msg, message = .ok msg ∧ K.verifyLoose callerPubkey msg signature = .ok () := by
  simp only [authorize, bind_eq_ok, mapError_eq_ok, ensure_eq_ok]
  constructor
  · rintro ⟨bytes, hdecode, ⟨⟩, -, ⟨⟩, rfl, msg, hmsg, ⟨⟩, hkey, hverify⟩
    exact ⟨hdecode, hkey, msg, hmsg, hverify⟩
  · rintro ⟨hdecode, hkey, msg, hmsg, hverify⟩
    exact ⟨_, hdecode, ⟨⟩, Vector.length_toList, ⟨⟩, rfl, msg, hmsg, ⟨⟩, hkey, hverify⟩

/-- The request is one that the escrow grants. -/
def Grants (K : ContractCrypto) (e : Escrow) : Request → Prop
  | .release callerPubkey signature => Authorizes K e .release callerPubkey signature
  | .refund callerPubkey signature currentTime =>
    e.timeout ≤ currentTime ∧ Authorizes K e .refund callerPubkey signature

/-- **What a call does**: nothing, or it settles a locked escrow. -/
inductive Calls (K : ContractCrypto) (e : Escrow) (request : Request) :
    Except String Unit → Escrow → Prop
  | rejected (err : String) : Calls K e request (.error err) e
  | settled (hlocked : e.state = .locked) (hgrants : Grants K e request) :
    Calls K e request (.ok ()) { e with state := request.action.settled }

/-- The end of either call, for a request that is granted if its caller is authorized. -/
theorem calls_of_authorize {request : Request} {party : String} {out : Except String Unit}
    (hlocked : e.state = .locked)
    (hgrants : Authorizes K e request.action callerPubkey signature → Grants K e request)
    (hexec : (do
      Call.ofExcept (authorize K party (e.entitled request.action) (e.message K request.action)
        callerPubkey signature)
      set { e with state := request.action.settled } : Call Escrow String Unit).exec e =
        some (out, e')) : Calls K e request out e' := by
  rcases Call.exec_check_cases hexec with ⟨⟨err, rfl⟩, rfl⟩ | ⟨⟨⟩, hauthorize, hexec⟩
  · exact .rejected err
  · obtain ⟨rfl, rfl⟩ := Call.exec_set_eq_some.mp hexec
    obtain ⟨hcaller, hkey, hsigned⟩ := authorize_eq_ok.mp hauthorize
    exact .settled hlocked (hgrants ⟨hcaller, hkey, hsigned⟩)

theorem calls_of_exec {request : Request} {out : Except String Unit}
    (hexec : (handle K request).exec e = some (out, e')) : Calls K e request out e' := by
  cases request with
  | release callerPubkey signature =>
    rw [handle, release, Call.exec_bind_ok (Call.exec_get e)] at hexec
    rcases Call.exec_check_cases hexec with ⟨⟨err, rfl⟩, rfl⟩ | ⟨⟨⟩, hlocked, hexec⟩
    · exact .rejected err
    · exact calls_of_authorize (ensure_eq_ok.mp hlocked) id hexec
  | refund callerPubkey signature currentTime =>
    rw [handle, refund, Call.exec_bind_ok (Call.exec_get e)] at hexec
    rcases Call.exec_check_cases hexec with ⟨⟨err, rfl⟩, rfl⟩ | ⟨⟨⟩, hlocked, hexec⟩
    · exact .rejected err
    · rcases Call.exec_check_cases hexec with ⟨⟨err, rfl⟩, rfl⟩ | ⟨⟨⟩, htimeout, hexec⟩
      · exact .rejected err
      · exact calls_of_authorize (ensure_eq_ok.mp hlocked)
          (fun hauthorizes ↦ ⟨ensure_eq_ok.mp htimeout, hauthorizes⟩) hexec

/-! ## Runs -/

theorem system_deterministic (K : ContractCrypto) (e₀ : Escrow) : (system K e₀).Deterministic where
  init := by
    rintro e e' rfl rfl
    rfl
  step := by
    rintro e a e₁ e₂ h h'
    exact (Prod.mk.inj (Option.some_inj.mp (h.symm.trans h'))).2

/-- A settled escrow does not change any more. -/
theorem Calls.eq_of_settled {request : Request} {out : Except String Unit}
    (hcalls : Calls K e request out e') (h : e.state ≠ .locked) :
    e' = e ∧ ∃ err, out = .error err := by
  cases hcalls with
  | rejected err => exact ⟨rfl, err, rfl⟩
  | settled hlocked _ => exact absurd hlocked h

theorem eq_of_settled {tr tr' : List Handled} (run : (system K e₀).Run tr e)
    (run' : (system K e₀).Run (tr ++ tr') e') (h : e.state ≠ .locked) : e' = e := by
  refine (system_deterministic K e₀).invariant_from (J := fun _ e₁ ↦ e₁ = e) run run' rfl ?_
  rintro l e₁ a e₂ - rfl hstep
  exact ((calls_of_exec hstep).eq_of_settled h).1

/-- **No call but one succeeds**, and none has as long as the escrow is locked. -/
theorem count_settled (hlocked : e₀.state = .locked) {tr : List Handled}
    (run : (system K e₀).Run tr e) :
    (tr.filter fun a ↦ a.result.isOk).length = if e.state = .locked then 0 else 1 := by
  induction run with
  | start h =>
    obtain rfl := h
    rw [if_pos hlocked]
    rfl
  | @step tr e e' a run hstep ih =>
    have hcalls := calls_of_exec hstep
    rw [List.filter_append, List.length_append, ih]
    generalize hout : a.result = out at hcalls
    cases hcalls with
    | rejected err => simp [hout, Except.isOk, Except.toBool]
    | settled hlocked hgrants =>
      rw [if_pos hlocked, if_neg]
      · simp [hout, Except.isOk, Except.toBool]
      · cases a.request <;> exact EscrowState.noConfusion

/-- Only the state changes. -/
theorem exists_state {tr : List Handled} (run : (system K e₀).Run tr e) :
    ∃ state, e = { e₀ with state } := by
  refine run.invariant (I := fun _ e ↦ ∃ state, e = { e₀ with state }) ?_ ?_
  · rintro e rfl
    exact ⟨e.state, rfl⟩
  · rintro tr e a e' - ⟨state, rfl⟩ hstep
    have hcalls := calls_of_exec hstep
    generalize a.result = out at hcalls
    cases hcalls with
    | rejected => exact ⟨state, rfl⟩
    | settled => exact ⟨a.request.action.settled, rfl⟩

/-- What authorizes a call does not depend on the state. -/
theorem Authorizes.of_state {state : EscrowState}
    (h : Authorizes K { e with state } action callerPubkey signature) :
    Authorizes K e action callerPubkey signature := by
  cases action
  · exact ⟨h.caller, h.valid, h.signed⟩
  · exact ⟨h.caller, h.valid, h.signed⟩

/-- **An escrow settles at most once, and only by the entitled party.** At most one call succeeds,
and once one has the escrow stays as it is; no call changes anything but the state, and one that
fails not even that. It is released by its recipient, and refunded to its sender after the timeout,
in either case by a call with a signature over the message for it. Two messages are equal only when
the action, the parties and the terms are, so a signature that authorized something else would be
one of two different messages. -/
theorem settles_once (K : ContractCrypto) (e₀ : Escrow) (hlocked : e₀.state = .locked) :
    (∀ tr e, (system K e₀).Run tr e →
      (tr.filter fun a ↦ a.result.isOk).length ≤ 1 ∧ e = { e₀ with state := e.state } ∧
      ∀ tr' e', (system K e₀).Run (tr ++ tr') e' → e.state ≠ .locked → e' = e) ∧
    (∀ tr e a e', (system K e₀).Run tr e → (system K e₀).step e a e' →
      (∀ err, a.result = .error err → e' = e) ∧
      (e.state ≠ .released → e'.state = .released → ∃ callerPubkey signature,
        a.request = .release callerPubkey signature ∧
          Authorizes K e₀ .release callerPubkey signature) ∧
      (e.state ≠ .refunded → e'.state = .refunded → ∃ callerPubkey signature currentTime,
        a.request = .refund callerPubkey signature currentTime ∧ e₀.timeout ≤ currentTime ∧
          Authorizes K e₀ .refund callerPubkey signature)) ∧
    (∀ e e' action action' msg, e.message K action = .ok msg → e'.message K action' = .ok msg →
      action = action' ∧ SameTerms K e e') ∧
    ∀ e e' action action' callerPubkey signature,
      Authorizes K e action callerPubkey signature →
      Authorizes K e' action' callerPubkey signature →
      (action = action' ∧ SameTerms K e e') ∨
        ∃ msg msg', msg ≠ msg' ∧ K.verifyLoose callerPubkey msg signature = .ok () ∧
          K.verifyLoose callerPubkey msg' signature = .ok () := by
  refine ⟨fun tr e run ↦ ⟨?_, ?_, fun tr' e' run' ↦ eq_of_settled run run'⟩,
    fun tr e a e' run hstep ↦ ?_, fun e e' action action' msg ↦ eq_of_message, ?_⟩
  · rw [count_settled hlocked run]
    split <;> decide
  · obtain ⟨state, rfl⟩ := exists_state run
    rfl
  · obtain ⟨state, rfl⟩ := exists_state run
    have hcalls := calls_of_exec hstep
    obtain ⟨request, out⟩ := a
    cases hcalls with
    | rejected => exact ⟨fun _ _ ↦ rfl, fun hne h ↦ absurd h hne, fun hne h ↦ absurd h hne⟩
    | settled _ hgrants =>
      cases request with
      | release callerPubkey signature =>
        refine ⟨fun _ h ↦ (by cases h), fun _ _ ↦ ⟨_, _, rfl, hgrants.of_state⟩, fun _ h ↦ ?_⟩
        cases h
      | refund callerPubkey signature currentTime =>
        refine ⟨fun _ h ↦ (by cases h), fun _ h ↦ ?_, fun _ _ ↦ ?_⟩
        · cases h
        · exact ⟨_, _, _, rfl, hgrants.1, hgrants.2.of_state⟩
  · intro e e' action action' callerPubkey signature h h'
    obtain ⟨msg, hmsg, hverify⟩ := h.signed
    obtain ⟨msg', hmsg', hverify'⟩ := h'.signed
    by_cases heq : msg = msg'
    · exact .inl (eq_of_message hmsg (heq ▸ hmsg'))
    · exact .inr ⟨msg, msg', heq, hverify, hverify'⟩

/-! ### A release -/

/-- The reference instance, with one notion of a signature. -/
def referenceCrypto : ContractCrypto where
  toCrypto := Reference.crypto
  verifyLoose := Reference.crypto.verifyStrict

/-- An escrow of the zero key for the key of ones. -/
def sample : Escrow :=
  new (Hex.encode (List.replicate 32 0)) (Hex.encode (List.replicate 32 1)) 500 1000

/-- The recipient's call. -/
def sampleRelease : Request :=
  .release (Vector.replicate 32 1) (Reference.sign (Vector.replicate 32 1)
    (ESCROW_RELEASE_DOMAIN ++
      (sample.identityFields (Vector.replicate 32 0) (Vector.replicate 32 1)).flatten))

theorem exec_sampleRelease : (handle referenceCrypto sampleRelease).exec sample =
    some (.ok (), { sample with state := .released }) := by
  decide +kernel

theorem settles_once_sample : ∃ callerPubkey signature,
    sampleRelease = .release callerPubkey signature ∧
      Authorizes referenceCrypto sample .release callerPubkey signature :=
  (((settles_once referenceCrypto sample rfl).2.1 [] sample ⟨sampleRelease, .ok ()⟩ _
    (.start rfl) exec_sampleRelease).2.1 (by decide) rfl)

end Escrow

end Arxia
