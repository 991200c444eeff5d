import Mathlib.Data.Nat.Notation
import Mathlib.Data.Int.Notation

/-!
# Errors and constants of `arxia-core`

The variants of `ArxiaError` that the modelled functions return, and the protocol constants they
compare against. `usize` payloads are natural numbers; an `i64` balance is an integer.
-/

namespace Arxia

/-- The unified error type across the Arxia crates. -/
inductive ArxiaError
  /-- Invalid block type tag byte. -/
  | invalidBlockType (tag : UInt8)
  /-- Data too short for deserialization. -/
  | dataTooShort (got expected : ℕ)
  /-- Hash does not match recomputed value. -/
  | hashMismatch
  /-- Ed25519 signature verification failed. -/
  | signatureInvalid (reason : String)
  /-- Insufficient balance for the operation. -/
  | insufficientBalance (available required : UInt64)
  /-- Cannot send zero amount. -/
  | zeroAmount
  /-- Nonce gap detected in account chain. -/
  | nonceGap (index : ℕ) (expected got : UInt64)
  /-- Hash chain is broken between consecutive blocks. -/
  | hashChainBroken (index : ℕ)
  /-- Genesis block validation error. -/
  | invalidGenesis (reason : String)
  /-- SEND block destination mismatch. -/
  | wrongDestination
  /-- Expected a SEND block but got a different type. -/
  | notSendBlock
  /-- Hex decoding error. -/
  | hexDecode (reason : String)
  /-- Serialization error. -/
  | serialization (reason : String)
  /-- Invalid cryptographic key. -/
  | invalidKey (reason : String)
  /-- Attempt to Open an account that already has blocks in its chain. -/
  | accountAlreadyOpen
  /-- An Open that exceeds the per-account ceiling or the remaining protocol supply. -/
  | supplyCapExceeded (requested max : UInt64)
  /-- A RECEIVE of a SEND whose hash has already been consumed. -/
  | duplicateReceive (sourceHash : String)
  /-- Reconciliation produced a negative balance for an account. -/
  | negativeBalance (account : String) (balance : ℤ)
  /-- A block whose type may not enter ORV conflict resolution. -/
  | ineligibleConflictBlockType (blockHash blockType : String)
  /-- A RECEIVE references no accepted SEND. -/
  | unknownSourceSend (sourceHash : String)
  /-- A credit that would overflow the balance of the account. -/
  | balanceOverflow (current incoming : UInt64)
  /-- A SEND whose destination is the sender. -/
  | selfSendNotAllowed
  /-- Double-spend detected: same nonce, different block hash. -/
  | doubleSpend (nonce : UInt64)
  deriving DecidableEq

/-- One ARX in micro-ARX. -/
def ONE_ARX : UInt64 := 1_000_000

/-- Total protocol supply in micro-ARX. -/
def TOTAL_SUPPLY_MICRO_ARX : UInt64 := 1_000_000_000 * ONE_ARX

/-- Maximum balance permitted on a single account, in micro-ARX. -/
def MAX_INITIAL_BALANCE_PER_ACCOUNT : UInt64 := 100_000_000 * ONE_ARX

/-- Maximum number of entries in a vector clock. -/
def MAX_VECTOR_CLOCK_ENTRIES : ℕ := 256

/-- Compact block serialization size in bytes. -/
def COMPACT_BLOCK_SIZE : ℕ := 193

/-- L0 finality cap in micro-ARX (10 ARX). -/
def L0_CAP_MICRO_ARX : UInt64 := 10_000_000

end Arxia
