import Arxia.Lattice.ReferenceNetwork

/-!
# Calls that fail as one

Each method of the account API documents its errors in the order in which it looks for them. A call
of an account with a valid key returns the first of them that applies and has then written nothing;
otherwise it records one block, and writes what it documents.

What a successful call is to do to the nonce is to count up by one. `open` writes 1, whatever the
nonce was, and the increment of the other two is not guarded: where the build does not check for
overflow it goes from `u64::MAX` to 0. `atomic_iff` says that nothing else can go wrong. An account
that only its own methods have written is at neither of the two.
-/

namespace Arxia.AccountChain

open Rust

/-! ## What a call leaves behind -/

/-- What a call that succeeds has done. The fields of `records` are the appended block, the balance
and the nonce it states, and the key, which stays. -/
structure Applies (m : Overflow) (K : Crates) (timestamp : UInt64) (s : Session) (op : Op)
    (b : Block) (s' : Session) : Prop where
  permitted : firstError (documented s.account op) = none
  records : Records K timestamp s.account b s'.account
  writes : Writes m s.account b op s'.account.consumedSources
  counts : s'.account.nonce.toNat = s.account.nonce.toNat + 1
  ticks : ∃ sid, bytePrefix s.account.publicKeyHex.toList 8 = some sid ∧
    s'.vclock = s.vclock.tick (String.ofList sid)

/-- A call returns a documented error and has written nothing, or it has written what it is to
write. -/
structure Atomic (m : Overflow) (K : Crates) (timestamp : UInt64) (s : Session) (op : Op) :
    Prop where
  refuses : ∀ e, firstError (documented s.account op) = some e →
    (perform m K timestamp op).exec s = some (.error e, s)
  error : ∀ e s', (perform m K timestamp op).exec s = some (.error e, s') →
    firstError (documented s.account op) = some e ∧ s' = s
  ok : ∀ b s', (perform m K timestamp op).exec s = some (.ok b, s') →
    Applies m K timestamp s op b s'

/-- There is a next nonce for the call, or the call cannot succeed: the increment panics, or the
chain is as long as it can get. -/
def NonceFits (m : Overflow) (a : AccountChain) : Op → Prop
  | .open _ => a.nonce = 0
  | .send _ _ | .receive _ =>
    a.nonce.toNat < u64Max ∨ m = .panics ∨ a.chain.toList.length = isizeMax

section Effects

variable {m : Overflow} {K : Crates} {timestamp : UInt64} {op : Op} {s s' : Session} {b : Block}

theorem ticks_record {balance nonce : UInt64} {previous : String} {blockType : BlockType}
    (h : (record K timestamp balance nonce previous blockType).exec s = some (.ok b, s')) :
    ∃ sid, bytePrefix s.account.publicKeyHex.toList 8 = some sid ∧
      s'.vclock = s.vclock.tick (String.ofList sid) := by
  rw [record, Call.exec_bind_ok (Call.exec_get s)] at h
  simp only [Call.exec_bind_eq_ok, Call.exec_orPanic_eq_ok, Call.exec_ofExcept_eq_ok,
    Call.exec_set, Call.exec_get, Call.exec_pure, Option.some_inj, Prod.mk.injEq,
    Except.ok.injEq] at h
  obtain ⟨sid, _, ⟨hsid, rfl⟩, _, _, ⟨-, rfl⟩, _, _, ⟨-, rfl⟩, _, _, ⟨-, rfl⟩, _, _, ⟨rfl, rfl⟩,
    _, _, ⟨-, rfl⟩, _, _, ⟨-, rfl⟩, -, rfl⟩ := h
  exact ⟨sid, hsid, rfl⟩

/-- A successful call ends in `record`, which alone ticks the clock. -/
theorem ticks_perform (h : (perform m K timestamp op).exec s = some (.ok b, s')) :
    ∃ sid, bytePrefix s.account.publicKeyHex.toList 8 = some sid ∧
      s'.vclock = s.vclock.tick (String.ofList sid) := by
  cases op with
  | «open» v =>
    rw [perform, «open», Call.exec_bind_ok (Call.exec_get s)] at h
    simp only [Call.exec_bind_eq_ok, Call.exec_ofExcept_eq_ok] at h
    obtain ⟨_, _, ⟨-, rfl⟩, _, _, ⟨-, rfl⟩, _, _, ⟨-, rfl⟩, h⟩ := h
    exact ticks_record h
  | send d v =>
    rw [perform, send, Call.exec_bind_ok (Call.exec_get s)] at h
    simp only [Call.exec_bind_eq_ok, Call.exec_ofExcept_eq_ok, Call.exec_orPanic_eq_ok] at h
    obtain ⟨_, _, ⟨-, rfl⟩, _, _, ⟨-, rfl⟩, _, _, ⟨-, rfl⟩, _, _, ⟨-, rfl⟩, _, _, ⟨-, rfl⟩, h⟩ := h
    exact ticks_record h
  | receive c =>
    rw [perform, receive, Call.exec_bind_ok (Call.exec_get s)] at h
    simp only [Call.exec_bind_eq_ok, Call.exec_ofExcept_eq_ok, Call.exec_orPanic_eq_ok,
      Call.exec_modify, Call.exec_pure, Option.some_inj, Prod.mk.injEq] at h
    obtain ⟨_, _, ⟨-, rfl⟩, _, _, ⟨-, rfl⟩, _, _, ⟨-, rfl⟩, _, _, ⟨-, rfl⟩, _, _, ⟨-, rfl⟩, _, s₁,
      h, _, _, ⟨-, rfl⟩, -, rfl⟩ := h
    have hticks := ticks_record h
    exact hticks

/-- **The nonce of a successful call** is the next one exactly when there is one. -/
theorem counts_iff {sources : Finset String} (hrec : Records K timestamp s.account b s'.account)
    (hwrites : Writes m s.account b op sources) :
    s'.account.nonce.toNat = s.account.nonce.toNat + 1 ↔ NonceFits m s.account op := by
  rw [hrec.nonce]
  -- an increment that returned went up by one, or wrapped
  have hincrement : s.account.nonce.plus m 1 = some b.nonce →
      (b.nonce.toNat = s.account.nonce.toNat + 1 ↔ s.account.nonce.toNat < u64Max ∨ m = .panics ∨
        s.account.chain.toList.length = isizeMax) := by
    intro hplus
    constructor
    · intro hnext
      have := b.nonce.toNat_le_u64Max
      exact .inl (by omega)
    · rintro (hlt | rfl | hfull)
      · have hle : s.account.nonce.toNat + (1 : UInt64).toNat ≤ u64Max := hlt
        exact (UInt64.plus_eq_some_of_le hle).mp hplus
      · exact UInt64.checkedAdd_eq_some.mp hplus
      · have hlen := s'.account.chain.length_le
        rw [hrec.chain, List.length_append, hfull] at hlen
        exact absurd hlen (Nat.not_succ_le_self _)
  cases op with
  | «open» v =>
    rw [hwrites.of_open.2.2.2.1, NonceFits, ← UInt64.toNat_inj]
    change 1 = _ + 1 ↔ _ = 0
    omega
  | send d v => exact hincrement hwrites.of_send.2.2.2.1
  | receive c =>
    cases hwrites with
    | receive hsend htype hprev hbalance hnonce => exact hincrement hnonce

/-! ### Progress -/

/-- A permitted call succeeds if the chain has room and, past `open`, the increment of the nonce
returns. -/
theorem exists_perform (hserde : Serde K) (hpair : s.account.KeyPair)
    (hvalid : s.account.signingKey.Valid K) (hpermits : Permits s.account op)
    (hroom : s.account.chain.toList.length < isizeMax)
    (hplus : (∃ v, op = .open v) ∨ ∃ nonce, s.account.nonce.plus m 1 = some nonce) :
    ∃ b s', (perform m K timestamp op).exec s = some (.ok b, s') := by
  cases hpermits with
  | «open» hnew hcap =>
    have hstrict : K.validatePubkeyStrict s.account.verifyingKey = .ok () :=
      hpair.verifying ▸ hvalid.strict
    rw [perform, «open», Call.exec_bind_ok (Call.exec_get s), Call.exec_ensure_ok hnew,
      Call.exec_ensure_ok hcap, Call.exec_check_ok hstrict]
    exact exists_record hserde hpair hvalid hroom
  | send hpos hother hfunds =>
    obtain ⟨nonce, hplus⟩ := hplus.resolve_left (by simp)
    rw [perform, send, Call.exec_bind_ok (Call.exec_get s), Call.exec_ensure_ok hpos,
      Call.exec_ensure_ok hother, Call.exec_ensure_ok hfunds,
      Call.exec_some (UInt64.minus_of_le m hfunds), Call.exec_some hplus]
    exact exists_record hserde hpair hvalid hroom
  | @receive c v htype hfresh hcap =>
    obtain ⟨nonce, hplus⟩ := hplus.resolve_left (by simp)
    have hfits : s.account.balance.toNat + v.toNat ≤ u64Max :=
      hcap.trans (UInt64.toNat_le_u64Max _)
    have hle : s.account.balance + v ≤ MAX_INITIAL_BALANCE_PER_ACCOUNT := by
      rwa [UInt64.le_iff_toNat_le, UInt64.toNat_add_of_le hfits]
    have hsum : s.account.balance.checkedAdd v = some (s.account.balance + v) := if_pos hfits
    obtain ⟨b, s₁, hexec⟩ : ∃ b s₁, (record K timestamp (s.account.balance + v) nonce
        s.account.lastHash (.receive c.hash)).exec s = some (.ok b, s₁) :=
      exists_record hserde hpair hvalid hroom
    rw [perform, receive, Call.exec_bind_ok (Call.exec_get s),
      Call.exec_check_ok (incoming_eq_ok.mpr htype), Call.exec_ensure_ok hfresh,
      Call.exec_check_ok (okOr_eq_ok.mpr hsum), Call.exec_ensure_ok hle, Call.exec_some hplus,
      Call.exec_bind_ok hexec]
    exact ⟨_, _, rfl⟩

end Effects

/-! ## Atomicity -/

section Atomic

variable {m : Overflow} {K : Crates} {timestamp : UInt64} {op : Op} {s : Session}
variable (hserde : Serde K) (hpair : s.account.KeyPair) (hvalid : s.account.signingKey.Valid K)
include hserde hpair hvalid

theorem atomic_of_nonceFits
    (hfits : firstError (documented s.account op) = none → NonceFits m s.account op) :
    Atomic m K timestamp s op where
  refuses := refuses_perform
  error := fun e s' hexec ↦ by
    rcases herror : firstError (documented s.account op) with _ | e'
    · have hpermits := permits_iff.mpr herror
      exact absurd hexec ((succeeds_perform hserde hpair hvalid hpermits).no_error e s')
    · rw [refuses_perform e' herror, Option.some_inj, Prod.mk.injEq, Except.error.injEq] at hexec
      exact ⟨congrArg some hexec.1, hexec.2.symm⟩
  ok := fun b s' hexec ↦ by
    obtain ⟨hpermits, hrec, hwrites⟩ := exec_perform_ok hexec
    have hnone := permits_iff.mp hpermits
    exact ⟨hnone, hrec, hwrites, (counts_iff hrec hwrites).mpr (hfits hnone), ticks_perform hexec⟩

theorem nonceFits_of_atomic (h : Atomic m K timestamp s op)
    (hnone : firstError (documented s.account op) = none) : NonceFits m s.account op := by
  have hpermits := permits_iff.mpr hnone
  by_contra hfits
  -- otherwise the call succeeds, and its nonce is not the next one
  have hroom : s.account.chain.toList.length < isizeMax := by
    refine lt_of_le_of_ne s.account.chain.length_le fun hfull ↦ ?_
    cases hpermits with
    | «open» hnew hcap =>
      rw [hnew] at hfull
      exact absurd hfull (by decide)
    | send hpos hother hfunds => exact hfits (.inr (.inr hfull))
    | receive htype hfresh hcap => exact hfits (.inr (.inr hfull))
  have hplus : (∃ v, op = .open v) ∨ ∃ nonce, s.account.nonce.plus m 1 = some nonce := by
    cases m with
    | wraps => exact .inr ⟨_, rfl⟩
    | panics =>
      cases op with
      | «open» v => exact .inl ⟨v, rfl⟩
      | send d v => exact absurd (.inr (.inl rfl)) hfits
      | receive c => exact absurd (.inr (.inl rfl)) hfits
  obtain ⟨b, s', hexec⟩ : ∃ b s', (perform m K timestamp op).exec s = some (.ok b, s') :=
    exists_perform hserde hpair hvalid hpermits hroom hplus
  have happlies := h.ok b s' hexec
  exact hfits ((counts_iff happlies.records happlies.writes).mp happlies.counts)

/-- **A call of an account with a valid key is atomic** exactly when it is refused or there is a
next nonce for it. -/
theorem atomic_iff : Atomic m K timestamp s op ↔
    (firstError (documented s.account op) = none → NonceFits m s.account op) :=
  ⟨nonceFits_of_atomic hserde hpair hvalid, atomic_of_nonceFits hserde hpair hvalid⟩

end Atomic

/-- **An account that only its own methods have written** makes every call atomically. -/
theorem Sound.atomic {m : Overflow} {K : Crates} {timestamp : UInt64} {op : Op} {s : Session}
    {key : SigningKey} (hserde : Serde K) (hvalid : key.Valid K) (h : Sound K key s.account) :
    Atomic m K timestamp s op := by
  refine atomic_of_nonceFits hserde h.pair (h.key ▸ hvalid) fun hnone ↦ ?_
  rcases op with v | ⟨d, v⟩ | c
  · have hlen := h.length
    rw [(permits_open_iff.mp (permits_iff.mpr hnone)).1] at hlen
    exact UInt64.toNat_inj.mp hlen
  · exact .inl h.nonce_lt
  · exact .inl h.nonce_lt

/-! ### Alice's account -/

open Reference

/-- Alice opens her account. -/
theorem atomic_open : Atomic .wraps serde 1 ⟨new (keys false), ⟨∅⟩⟩ (.open 100) :=
  (atomic_iff serde_serde (keyPair_new _) (valid_keys false)).mpr fun _ ↦ rfl

/-- Alice's account after its opening, at the last nonce there is. -/
def exhausted : AccountChain :=
  { new (keys false) with
    chain := ⟨[openAlice], by decide⟩, balance := 100, nonce := UInt64.ofNat u64Max }

/-- Where the build does not check for overflow, her next payment succeeds with a nonce that has
not gone up. -/
theorem not_atomic_exhausted : ¬ Atomic .wraps serde 3 ⟨exhausted, ⟨∅⟩⟩ (.send bob 40) := by
  intro h
  have hnone : firstError (documented exhausted (.send bob 40)) = none := by decide +kernel
  have hfits := nonceFits_of_atomic serde_serde ⟨rfl, rfl⟩ (valid_keys false) h hnone
  rcases hfits with hlt | hpanics | hfull
  · exact absurd hlt (by decide)
  · cases hpanics
  · exact absurd hfull (by decide)

end Arxia.AccountChain
