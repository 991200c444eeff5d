import Arxia.Consensus.Delegation

/-!
# Who may revoke a delegation

A revocation carries the key that it is verified with, next to the name of the delegator, and
nothing compares the two. The signed bytes have no mark where the delegator ends and the
representative starts; of two triples under one key they are equal when the concatenations are.
Where both delegators are the names of keys, they are of one length, and then that is no ambiguity.
-/

namespace Arxia

open Rust Transition Graph

namespace Revocation

/-- **What the signed bytes say**: the nonce and the concatenation of the strings. -/
theorem canonicalBytes_inj {delegatorPubkey : AccountId}
    {delegator representative delegator' representative' : String} {nonce nonce' : UInt64} :
    canonicalBytes delegatorPubkey delegator representative nonce =
        canonicalBytes delegatorPubkey delegator' representative' nonce' ↔
      delegator ++ representative = delegator' ++ representative' ∧ nonce = nonce' := by
  -- what comes before the strings is the same
  simp only [canonicalBytes, List.append_assoc, List.append_cancel_left_eq]
  rw [← List.append_assoc, ← List.append_assoc, ← asBytes_append, ← asBytes_append]
  constructor
  · intro h
    obtain ⟨htext, hnonce⟩ := List.append_inj' h (by rw [length_leBytes, length_leBytes])
    exact ⟨asBytes_inj.mp htext,
      UInt64.toNat_inj.mp (leBytes_inj nonce.toNat_lt nonce'.toNat_lt hnonce)⟩
  · rintro ⟨htext, rfl⟩
    rw [htext]

end Revocation

namespace DelegationGraph

variable {K : Crypto} {g g' : DelegationGraph} {rev : Revocation}
  {result : Except DelegationError Unit}

/-- **A revocation authorises** the removal of an edge, as against a revocation of anything else
under its key, if the key is the one that the delegator is the name of, and if the other triple does
not split the same text in another place. -/
theorem authorises_iff (hexec : (revoke K rev).exec g = some (result, g'))
    (hedge : (rev.delegator, rev.representative) ∈ g.edges)
    (hremoved : (rev.delegator, rev.representative) ∉ g'.edges)
    (delegator representative : String) (nonce : UInt64) :
    (rev.delegator = Hex.encode rev.delegatorPubkey.toList ∧
      K.verify rev.delegatorPubkey
        (Revocation.canonicalBytes rev.delegatorPubkey rev.delegator rev.representative rev.nonce)
        rev.signature = .ok () ∧
      (Revocation.canonicalBytes rev.delegatorPubkey delegator representative nonce =
          Revocation.canonicalBytes rev.delegatorPubkey rev.delegator rev.representative
            rev.nonce →
        delegator = rev.delegator ∧ representative = rev.representative ∧ nonce = rev.nonce)) ↔
    rev.delegator = Hex.encode rev.delegatorPubkey.toList ∧
      (nonce = rev.nonce → delegator ++ representative = rev.delegator ++ rev.representative →
        delegator.length = rev.delegator.length) := by
  -- the edge has gone, so the revocation has been verified
  have hverify : rev.verify K = .ok () := by
    rcases revoke_cases hexec with ⟨-, rfl⟩ | ⟨hverify, -, -, -⟩
    · exact absurd hedge hremoved
    · exact hverify
  rw [Revocation.canonicalBytes_inj]
  refine and_congr_right fun _ ↦ ⟨?_, fun hsplit ↦ ⟨mapError_eq_ok.mp hverify, ?_⟩⟩
  · rintro ⟨-, hunique⟩ hnonce htext
    rw [(hunique ⟨htext, hnonce⟩).1]
  · rintro ⟨htext, rfl⟩
    obtain ⟨rfl, rfl⟩ := append_inj_of_length htext (hsplit rfl htext)
    exact ⟨rfl, rfl, rfl⟩

/-- A revocation of alice's delegation, under a key that is not alice's. -/
def stranger : Revocation where
  delegatorPubkey := Vector.replicate 32 7
  delegator := "alice"
  representative := "bob"
  nonce := 1
  signature := Reference.sign (Vector.replicate 32 7)
    (Revocation.canonicalBytes (Vector.replicate 32 7) "alice" "bob" 1)

theorem exec_stranger : (revoke Reference.crypto stranger).exec (new.withEdge aliceBob) =
    some (.ok (), (new.withEdge aliceBob).withoutEdge "alice" "bob") := by
  have hverify : stranger.verify Reference.crypto = .ok () :=
    mapError_eq_ok.mpr (Reference.verify_sign _ _)
  have hmem : (stranger.delegator, stranger.representative) ∈ (new.withEdge aliceBob).edges := by
    decide
  rw [exec_revoke, hverify]
  dsimp only
  rw [if_pos hmem]
  rfl

theorem authorises_iff_stranger :
    (stranger.delegator = Hex.encode stranger.delegatorPubkey.toList ∧
      Reference.crypto.verify stranger.delegatorPubkey
        (Revocation.canonicalBytes stranger.delegatorPubkey "alice" "bob" 1)
        stranger.signature = .ok () ∧
      (Revocation.canonicalBytes stranger.delegatorPubkey "aliceb" "ob" 1 =
          Revocation.canonicalBytes stranger.delegatorPubkey "alice" "bob" 1 →
        "aliceb" = "alice" ∧ "ob" = "bob" ∧ (1 : UInt64) = 1)) ↔
    stranger.delegator = Hex.encode stranger.delegatorPubkey.toList ∧
      ((1 : UInt64) = 1 → "aliceb" ++ "ob" = "alice" ++ "bob" →
        "aliceb".length = "alice".length) :=
  authorises_iff exec_stranger (by decide) (by decide) "aliceb" "ob" 1

/-- **Any key revokes** any delegation. -/
theorem not_authorises : ¬ ∀ (K : Crypto) (g g' : DelegationGraph) (rev : Revocation)
    (result : Except DelegationError Unit), (revoke K rev).exec g = some (result, g') →
    (rev.delegator, rev.representative) ∈ g.edges →
    (rev.delegator, rev.representative) ∉ g'.edges →
    rev.delegator = Hex.encode rev.delegatorPubkey.toList ∧
      K.verify rev.delegatorPubkey
        (Revocation.canonicalBytes rev.delegatorPubkey rev.delegator rev.representative rev.nonce)
        rev.signature = .ok () ∧
      ∀ delegator representative nonce,
        Revocation.canonicalBytes rev.delegatorPubkey delegator representative nonce =
          Revocation.canonicalBytes rev.delegatorPubkey rev.delegator rev.representative
            rev.nonce →
        delegator = rev.delegator ∧ representative = rev.representative ∧ nonce = rev.nonce := by
  intro h
  obtain ⟨hnamed, -, -⟩ := h _ _ _ _ _ exec_stranger (by decide) (by decide)
  exact absurd hnamed (by decide +kernel)

end DelegationGraph

end Arxia
