import Arxia.Core.Crypto
import Arxia.Lattice.History

/-!
# Blocks of the reference instance

The reference cryptography together with the JSON of a block type as `serde_json` writes it. The
owner of a key can hash and sign a block with any fields, and that is all `verify_block` asks for.
-/

namespace Arxia.Reference

open Rust History

/-- The JSON of a block type, on fields that need no escaping. -/
def blockTypeJson : BlockType → String
  | .open initialBalance =>
    "\x7b\"Open\":\x7b\"initial_balance\":" ++ initialBalance.toNat.repr ++ "\x7d\x7d"
  | .send destination amount =>
    "\x7b\"Send\":\x7b\"destination\":\"" ++ destination ++ "\",\"amount\":" ++
      amount.toNat.repr ++ "\x7d\x7d"
  | .receive sourceHash =>
    "\x7b\"Receive\":\x7b\"source_hash\":\"" ++ sourceHash ++ "\"\x7d\x7d"
  | .revoke credentialHash =>
    "\x7b\"Revoke\":\x7b\"credential_hash\":\"" ++ credentialHash ++ "\"\x7d\x7d"

/-- The instance. -/
def crates : Crates where
  toCrypto := crypto
  blockTypeJson := fun t ↦ .ok (blockTypeJson t)

/-- The block of these fields, hashed and signed with the key its account names. -/
def sealBlock (account previous : String) (blockType : BlockType)
    (balance nonce timestamp : UInt64) : Block :=
  let digest := checksum (asBytes
    (Block.content account previous (blockTypeJson blockType) balance nonce timestamp))
  { account, previous, blockType, balance, nonce, timestamp
    hash := Hex.encode digest.toList
    signature := (Hex.decode account.toList).getD [] ++ (checksum digest.toList).toList }

/-- **A key holder can sign every block.** -/
theorem verified_sealBlock {account previous : String} {blockType : BlockType}
    {balance nonce timestamp : UInt64} {key : AccountId}
    (hkey : Hex.decode account.toList = some key.toList) :
    Verified crates (sealBlock account previous blockType balance nonce timestamp) := by
  have haccount : crates.accountKey account = .ok key := Crypto.accountKey_eq_ok.mpr hkey
  have hhash : ∀ digest : BlockHash,
      crates.hexDecode (Hex.encode digest.toList) = .ok digest.toList := fun digest ↦
    (crates.hexDecode_eq_ok _ _).mpr (Hex.decode_encode _)
  have hsig : ∀ data, toArray 64 (key.toList ++ (checksum data).toList) = some (sign key data) :=
    fun data ↦ toArray_eq_some.mpr Vector.toList_append
  rw [Verified, verifyBlock, sealBlock]
  simp only [bind_eq_ok, ensure_eq_ok, mapError_eq_ok, okOr_eq_ok, hkey, Option.getD_some]
  exact ⟨_, (Block.computeHash_eq_ok (b := sealBlock account previous blockType balance nonce
    timestamp)).mpr ⟨⟨key, haccount, rfl⟩, ⟨_, rfl, rfl⟩⟩, (), rfl, key, haccount, (), rfl, _,
    hsig _, _, hhash _, verify_sign key _⟩

/-! ## A transfer -/

def alice : String := Hex.encode (List.replicate 32 0xaa)

def bob : String := Hex.encode (List.replicate 32 0xbb)

theorem decode_alice : Hex.decode alice.toList = some (Vector.replicate 32 (0xaa : UInt8)).toList :=
  Hex.decode_encode _

theorem decode_bob : Hex.decode bob.toList = some (Vector.replicate 32 (0xbb : UInt8)).toList :=
  Hex.decode_encode _

def openAlice : Block := sealBlock alice "" (.open 100) 100 1 1

def openBob : Block := sealBlock bob "" (.open 0) 0 1 2

def sendToBob : Block := sealBlock alice openAlice.hash (.send bob 40) 60 2 3

def receiveFromAlice : Block := sealBlock bob openBob.hash (.receive sendToBob.hash) 40 2 4

/-- Both accounts open, one sends to the other, and the other receives. -/
def transfer : List Block := [openAlice, openBob, sendToBob, receiveFromAlice]

theorem verified_transfer : ∀ b ∈ transfer, Verified crates b := by
  simp only [transfer, List.forall_mem_cons]
  exact ⟨verified_sealBlock decode_alice, verified_sealBlock decode_bob,
    verified_sealBlock decode_alice, verified_sealBlock decode_bob, by simp⟩

theorem collisionFree_transfer : Block.CollisionFree crates transfer :=
  Block.collisionFree_of_nodup (fun b hb ↦ (verified_transfer b hb).hashed) (by decide +kernel)

theorem lowercase_transfer : ∀ b ∈ transfer, ∃ bs, b.account = Hex.encode bs := by
  simp only [transfer, List.forall_mem_cons]
  exact ⟨⟨_, rfl⟩, ⟨_, rfl⟩, ⟨_, rfl⟩, ⟨_, rfl⟩, by simp⟩

/-- The four blocks are a valid history. -/
theorem valid_transfer : Valid crates transfer := by
  have hne : alice ≠ bob := by decide
  have hbob : chain [openAlice] bob = [] := chain_concat_of_ne [] hne
  have hopen : Valid crates [openAlice] := .concat .nil (.of_not_receive
    (verified_sealBlock decode_alice) (by decide) rfl (wellLinked_singleton.mpr ⟨rfl, rfl, rfl⟩))
  have hboth : Valid crates [openAlice, openBob] := .concat hopen (.of_not_receive
    (verified_sealBlock decode_bob) (by decide) rfl (hbob ▸ wellLinked_singleton.mpr
      ⟨rfl, rfl, rfl⟩))
  have hsend : Valid crates [openAlice, openBob, sendToBob] := by
    refine .concat hboth (.of_not_receive (verified_sealBlock decode_alice) (by decide) rfl ?_)
    have hchain : chain [openAlice, openBob] alice = [openAlice] :=
      (chain_concat_of_ne [openAlice] hne.symm).trans (chain_concat_self [] openAlice)
    change WellLinked (chain [openAlice, openBob] alice ++ [sendToBob])
    rw [hchain]
    exact wellLinked_pair.mpr ⟨⟨rfl, rfl, rfl⟩, rfl, rfl⟩
  refine .concat hsend ⟨verified_sealBlock decode_bob, fun v hv ↦ ?_, fun x hx ↦ ?_, ?_⟩
  · cases hv
  · obtain rfl := BlockType.receive.inj hx
    refine ⟨⟨bob, 40⟩, ?_, rfl, ?_⟩
    · exact (sent_concat [openAlice, openBob] sendToBob _).trans (by rw [if_pos rfl]; rfl)
    · rintro ⟨r, hr, htype⟩
      have hnone : ∀ r ∈ [openAlice, openBob, sendToBob], r.blockType.isReceive = false := by
        decide
      have := hnone r hr
      rw [htype] at this
      cases this
  · have hchain : chain [openAlice, openBob, sendToBob] bob = [openBob] := by
      refine (chain_concat_of_ne [openAlice, openBob] hne).trans ?_
      exact (chain_concat_self [openAlice] openBob).trans (congrArg (· ++ [openBob]) hbob)
    change WellLinked (chain [openAlice, openBob, sendToBob] bob ++ [receiveFromAlice])
    rw [hchain]
    exact wellLinked_pair.mpr ⟨⟨rfl, rfl, rfl⟩, rfl, rfl⟩

/-- The ledger accepts all four. -/
theorem run_transfer : ∃ l, (Ledger.system .panics crates).Run
    (transfer.map fun b ↦ (b, .ok ())) l :=
  Ledger.exists_run_of_valid valid_transfer (by decide)

end Arxia.Reference
