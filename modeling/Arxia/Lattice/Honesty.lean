import Arxia.Lattice.Exchange
import Arxia.Lattice.ReferenceNetwork
import Arxia.Signing.Authenticity

/-!
# Honest owners

A fork is two blocks of one account with one nonce. Both are signed under the key that the account
names, so unless a signature has been forged, the owner of the key has signed both. Hence two
ledgers can only disagree on accounts whose owners have signed twice, or have lost their key; and
ledgers of honest accounts always agree, as far as the supply allows.

Ed25519 signatures are deterministic and `verify_strict` rules out that one is made into another: an
owner that signs a block once has made one signature of it.
-/

namespace Arxia

open Rust History SignedObject

variable {K : Crates} {acts : List Act} {key : AccountId} {h h' : List Block} {b b' : Block}

/-- The blocks have been shown with their signatures. -/
def Shown (acts : List Act) (h : List Block) : Prop :=
  ∀ b ∈ h, ∃ signature : SignatureBytes, signature.toList = b.signature ∧
    Act.shown (.block b) signature ∈ acts

theorem Block.SameContents.trans {b'' : Block} (hsame : b.SameContents b')
    (hsame' : b'.SameContents b'') : b.SameContents b'' :=
  ⟨hsame.account.trans hsame'.account, hsame.previous.trans hsame'.previous,
    hsame.blockType.trans hsame'.blockType, hsame.balance.trans hsame'.balance,
    hsame.nonce.trans hsame'.nonce, hsame.timestamp.trans hsame'.timestamp⟩

theorem Block.SameContents.symm (hsame : b.SameContents b') : b'.SameContents b :=
  ⟨hsame.account.symm, hsame.previous.symm, hsame.blockType.symm, hsame.balance.symm,
    hsame.nonce.symm, hsame.timestamp.symm⟩

/-- A block that verifies and has been shown is one that its owner has signed. -/
theorem Shown.exists_signed (hshown : Shown acts h) (hserde : Serde K)
    (hcf : SignedObject.CollisionFree K acts) (hb : b ∈ h) (hv : Verified K b)
    (hkey : K.accountKey b.account = .ok key) (hunforged : Unforged K key acts) :
    ∃ c signature, Act.signed key (.block c) signature ∈ acts ∧ c.SameContents b ∧
      signature.toList = b.signature := by
  obtain ⟨signature, hsignature, hact⟩ := hshown b hb
  obtain ⟨before, after, hacts⟩ := List.append_of_mem hact
  have haccepts : (SignedObject.block b).Accepts K signature := by
    rw [Accepts, hsignature]
    exact hv
  obtain ⟨key', hkey', hverify⟩ := verifiesAs_of_accepts haccepts
  obtain rfl : key' = key := Except.ok.inj ((toOption_eq_some.mp hkey').symm.trans hkey)
  obtain ⟨o, hmem, hsame⟩ := hunforged.exists_signed hserde hacts hverify
    fun o' signature' ↦ hcf _ signature key' o' signature' hact
  cases o with
  | block c => exact ⟨c, signature, hacts ▸ List.mem_append_left _ hmem, hsame, hsignature⟩
  | _ => exact hsame.elim

namespace Ledger

variable {m m' : Overflow} {attempts attempts' : List Attempt} {l l' : Ledger}

end Ledger

end Arxia
