import Arxia.Gossip.NonceRegistry
import Mathlib.Algebra.BigOperators.Group.Finset.Basic

/-!
# Finality assessment

`assess_finality` over authenticated inputs: votes and confirmations carry Ed25519 signatures, those
of strangers are skipped, and a registered key whose signature does not verify fails the call. The
two loops are structural recursions on their lists, with the set of keys already counted as an
argument.
-/

namespace Arxia

open Rust

/-- Domain-separation prefix for the signature on a `SignedConfirmation`. -/
def FINALITY_CONFIRMATION_DOMAIN : List UInt8 := asBytes "arxia-finality-confirmation-v1"

/-- Domain-separation prefix for the signature on a `SignedValidatorVote`. -/
def FINALITY_VALIDATOR_VOTE_DOMAIN : List UInt8 := asBytes "arxia-finality-validator-vote-v1"

/-- Errors returned by the authenticated finality assessment path. -/
inductive FinalityError
  | invalidSignatureLength
  | invalidPublicKey
  | signatureInvalid
  deriving DecidableEq

/-- Finality level for a transaction. -/
inductive FinalityLevel
  | pending
  | L0
  | L1
  | L2
  deriving DecidableEq

/-- Shared signature-check path for confirmations and votes. -/
def verifySignature (K : Crypto) (pubkey : AccountId) (canonical signature : List UInt8) :
    Except FinalityError Unit := do
  ensure (signature.length = 64) .invalidSignatureLength
  let sig ← okOr (toArray 64 signature) .invalidSignatureLength
  (K.verify pubkey canonical sig).mapError fun e ↦ match e with
    | .invalidKey _ => .invalidPublicKey
    | _ => .signatureInvalid

/-- A signed confirmation from a node that it has seen and accepts a block. -/
structure SignedConfirmation where
  confirmerPubkey : AccountId
  blockHash : BlockHash
  signature : List UInt8

namespace SignedConfirmation

/-- The bytes the confirmer signs. -/
def canonicalBytes (confirmerPubkey : AccountId) (blockHash : BlockHash) : List UInt8 :=
  FINALITY_CONFIRMATION_DOMAIN ++ confirmerPubkey.toList ++ blockHash.toList

/-- Verify the signature on this confirmation. -/
def verify (K : Crypto) (conf : SignedConfirmation) : Except FinalityError Unit :=
  verifySignature K conf.confirmerPubkey (canonicalBytes conf.confirmerPubkey conf.blockHash)
    conf.signature

end SignedConfirmation

/-- A signed validator vote on a block. -/
structure SignedValidatorVote where
  validatorPubkey : AccountId
  blockHash : BlockHash
  signature : List UInt8

namespace SignedValidatorVote

/-- The bytes the validator signs. -/
def canonicalBytes (validatorPubkey : AccountId) (blockHash : BlockHash) : List UInt8 :=
  FINALITY_VALIDATOR_VOTE_DOMAIN ++ validatorPubkey.toList ++ blockHash.toList

/-- Verify the signature on this vote. -/
def verify (K : Crypto) (vote : SignedValidatorVote) : Except FinalityError Unit :=
  verifySignature K vote.validatorPubkey (canonicalBytes vote.validatorPubkey vote.blockHash)
    vote.signature

end SignedValidatorVote

/-- A trusted set of validator public keys with their stakes in micro-ARX. -/
structure ValidatorRegistry where
  validators : HashMap AccountId UInt64

namespace ValidatorRegistry

/-- Stake associated with a key, or `none` if unknown. -/
def stakeOf (registry : ValidatorRegistry) (pubkey : AccountId) : Option UInt64 :=
  registry.validators.lookup pubkey

/-- Whether a key is registered. -/
def contains (registry : ValidatorRegistry) (pubkey : AccountId) : Bool :=
  decide (pubkey ∈ registry.validators)

/-- Sum of all registered stakes, saturating. The map iterates in key order; the sum does not depend
on it. -/
def totalStake (registry : ValidatorRegistry) : UInt64 :=
  (registry.validators.entries.map Sigma.snd).foldl UInt64.saturatingAdd 0

end ValidatorRegistry

/-! ## The two loops -/

/-- The loop over the votes: the stake of the distinct registered voters, saturating. -/
def countVotes (K : Crypto) (registry : ValidatorRegistry) (blockHash : BlockHash) :
    List SignedValidatorVote → Finset AccountId → UInt64 → Except FinalityError UInt64
  | [], _, acceptedStake => .ok acceptedStake
  | vote :: votes, counted, acceptedStake =>
    if vote.blockHash ≠ blockHash then countVotes K registry blockHash votes counted acceptedStake
    else if registry.contains vote.validatorPubkey = false then
      countVotes K registry blockHash votes counted acceptedStake
    else do
      vote.verify K
      if vote.validatorPubkey ∈ counted then
        countVotes K registry blockHash votes counted acceptedStake
      else
        countVotes K registry blockHash votes (insert vote.validatorPubkey counted)
          (acceptedStake.saturatingAdd ((registry.stakeOf vote.validatorPubkey).getD 0))

/-- The loop over the confirmations: whether it returns from its body. -/
def findConfirmation (K : Crypto) (registry : ValidatorRegistry) (blockHash : BlockHash) :
    List SignedConfirmation → Finset AccountId → Except FinalityError Bool
  | [], _ => .ok false
  | conf :: confirmations, seen =>
    if conf.blockHash ≠ blockHash then findConfirmation K registry blockHash confirmations seen
    else if registry.contains conf.confirmerPubkey = false then
      findConfirmation K registry blockHash confirmations seen
    else do
      conf.verify K
      if conf.confirmerPubkey ∈ seen then
        findConfirmation K registry blockHash confirmations seen
      else pure true

/-- The stake-weighted validator quorum. -/
def quorumReached (K : Crypto) (blockHash : BlockHash) (votes : List SignedValidatorVote)
    (registry : ValidatorRegistry) : Except FinalityError Bool :=
  if 0 < registry.totalStake then do
    let acceptedStake ← countVotes K registry blockHash votes ∅ 0
    pure (decide (registry.totalStake.saturatingMul 67 ≤ acceptedStake.saturatingMul 100))
  else pure false

/-- Assesses the finality level of a transaction over `blockHash` using authenticated inputs. -/
def assessFinality (K : Crypto) (amountMicroArx : UInt64) (blockHash : BlockHash)
    (confirmations : List SignedConfirmation) (syncResult : SyncResult)
    (votes : List SignedValidatorVote) (registry : ValidatorRegistry) :
    Except FinalityError FinalityLevel := do
  if ← quorumReached K blockHash votes registry then pure .L2
  else if syncResult = .success then pure .L1
  else if amountMicroArx ≤ L0_CAP_MICRO_ARX then do
    if ← findConfirmation K registry blockHash confirmations ∅ then pure .L0 else pure .pending
  else pure .pending

end Arxia
