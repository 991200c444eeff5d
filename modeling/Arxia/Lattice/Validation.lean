import Arxia.Lattice.Block
import Arxia.Rust.Collections

/-!
# Block and chain validation

`verify_block` checks one block on its own: hash, key, signature. `verify_chain_integrity` walks a
slice and checks that the blocks form a chain. What the walk accepts is characterized by
`WellLinked`, a condition on the list alone: an Open genesis followed by blocks that each continue
the nonce and the hash of the one before.

`WellLinked` says nothing about the `account` field, and neither does the code. That the blocks of
an accepted list belong to one account is not something this function checks.
-/

namespace Arxia

open Rust

/-- Verify a single block hash and Ed25519 signature. -/
def verifyBlock (K : Crates) (block : Block) : Except ArxiaError Unit := do
  let expectedHash ← Block.computeHash K block.account block.previous block.blockType
    block.balance block.nonce block.timestamp
  ensure (expectedHash = block.hash) .hashMismatch
  let pubkeyBytes ← K.accountKey block.account
  K.validatePubkeyStrict pubkeyBytes
  let sigBytes ← okOr (toArray 64 block.signature) (.signatureInvalid "bad sig length")
  let hashBytes ← (K.hexDecode block.hash).mapError .signatureInvalid
  K.verify pubkeyBytes hashBytes sigBytes

/-- The block passes `verify_block`. -/
def Verified (K : Crates) (b : Block) : Prop := verifyBlock K b = .ok ()

instance (K : Crates) : DecidablePred (Verified K) := fun b ↦
  decidable_of_iff ((verifyBlock K b).toBool = true) (by
    rw [Verified]
    cases verifyBlock K b <;> simp [Except.toBool])

theorem Verified.hashed {K : Crates} {b : Block} (h : Verified K b) : b.Hashed K := by
  rw [Verified, verifyBlock, bind_eq_ok] at h
  obtain ⟨hash, hhash, h⟩ := h
  obtain ⟨_, heq, _⟩ := bind_eq_ok.mp h
  obtain rfl := ensure_eq_ok.mp heq
  exact Block.computeHash_eq_ok.mp hhash

/-! ## Chains -/

/-- The loop `for i in 1..chain.len()`, with `prev` standing for `chain[i - 1]`. -/
def verifyLinks (m : Overflow) (K : Crates) : ℕ → Block → List Block → Fallible ArxiaError Unit
  | _, _, [] => pure ()
  | i, prev, block :: rest => do
    let expected ← Fallible.orPanic (prev.nonce.plus m 1)
    Fallible.ofExcept (ensure (block.nonce = expected) (.nonceGap i expected block.nonce))
    Fallible.ofExcept (ensure (block.previous = prev.hash) (.hashChainBroken i))
    Fallible.ofExcept (verifyBlock K block)
    verifyLinks m K (i + 1) block rest

/-- Verify integrity of an entire account chain. -/
def verifyChainIntegrity (m : Overflow) (K : Crates) (chain : List Block) :
    Fallible ArxiaError Unit :=
  match chain with
  | [] => pure ()
  | first :: rest => do
    Fallible.ofExcept (ensure (first.nonce = 1)
      (.invalidGenesis ("nonce must be 1, got " ++ first.nonce.toNat.repr)))
    Fallible.ofExcept (ensure (first.blockType.isOpen = true)
      (.invalidGenesis "first block must be OPEN"))
    Fallible.ofExcept (ensure (first.previous = "")
      (.invalidGenesis "genesis must have empty previous"))
    Fallible.ofExcept (verifyBlock K first)
    verifyLinks m K 1 first rest

/-! ## What the walk accepts -/

/-- A block that can start a chain. -/
structure Genesis (b : Block) : Prop where
  nonce : b.nonce = 1
  isOpen : b.blockType.isOpen = true
  previous : b.previous = ""

instance : DecidablePred Genesis := fun b ↦
  decidable_of_iff (b.nonce = 1 ∧ b.blockType.isOpen = true ∧ b.previous = "")
    ⟨fun ⟨h1, h2, h3⟩ ↦ ⟨h1, h2, h3⟩, fun ⟨h1, h2, h3⟩ ↦ ⟨h1, h2, h3⟩⟩

/-- `b` continues the nonce and the hash of `a`. -/
def Links (a b : Block) : Prop := b.nonce.toNat = a.nonce.toNat + 1 ∧ b.previous = a.hash

/-- A genesis block followed by blocks that each continue the one before. -/
def WellLinked : List Block → Prop
  | [] => True
  | first :: rest => Genesis first ∧ (first :: rest).IsChain Links

@[simp] theorem wellLinked_singleton {b : Block} : WellLinked [b] ↔ Genesis b := by
  simp [WellLinked]

theorem wellLinked_pair {a b : Block} : WellLinked [a, b] ↔ Genesis a ∧ Links a b := by
  simp [WellLinked]

/-- Extending a nonempty chain only concerns its last block. -/
theorem wellLinked_concat {l : List Block} {last b : Block} (hlast : l.getLast? = some last) :
    WellLinked (l ++ [b]) ↔ WellLinked l ∧ Links last b := by
  cases l with
  | nil => simp at hlast
  | cons first rest =>
    rw [List.cons_append, WellLinked, WellLinked, and_assoc]
    refine and_congr_right fun _ ↦ ?_
    rw [← List.cons_append, List.isChain_append]
    simp [hlast]

theorem WellLinked.of_isPrefix {l : List Block} : ∀ {k : List Block}, k <+: l → WellLinked l →
    WellLinked k := by
  intro k hk h
  cases k with
  | nil => trivial
  | cons first rest =>
    obtain ⟨tl, rfl⟩ := hk
    rw [List.cons_append, WellLinked] at h
    exact ⟨h.1, (List.isChain_append.mp h.2).1⟩

/-- Nonces count from one and every block names the hash of the one before. -/
def Continuous : List Block → Prop
  | [] => True
  | first :: rest => (first.nonce = 1 ∧ first.previous = "") ∧ (first :: rest).IsChain Links

/-- A continuous chain is well linked when its first block is an Open. -/
theorem wellLinked_iff {l : List Block} :
    WellLinked l ↔
      Continuous l ∧ ∀ first, l.head? = some first → first.blockType.isOpen = true := by
  cases l with
  | nil => simp [WellLinked, Continuous]
  | cons first rest =>
    simp only [WellLinked, Continuous, List.head?_cons, Option.some_inj, forall_eq']
    constructor
    · exact fun ⟨hgen, hchain⟩ ↦ ⟨⟨⟨hgen.nonce, hgen.previous⟩, hchain⟩, hgen.isOpen⟩
    · exact fun ⟨⟨⟨hnonce, hprev⟩, hchain⟩, hopen⟩ ↦ ⟨⟨hnonce, hopen, hprev⟩, hchain⟩

theorem Continuous.concat {l : List Block} {b : Block} (h : Continuous l)
    (hfirst : l = [] → b.nonce = 1 ∧ b.previous = "")
    (hlast : ∀ last, l.getLast? = some last → Links last b) : Continuous (l ++ [b]) := by
  cases l with
  | nil => exact ⟨hfirst rfl, List.isChain_singleton b⟩
  | cons first rest =>
    refine ⟨h.1, ?_⟩
    change List.IsChain Links ((first :: rest) ++ [b])
    rw [List.isChain_append]
    refine ⟨h.2, List.isChain_singleton b, fun last hl c hc ↦ ?_⟩
    obtain rfl := Option.some_inj.mp hc
    exact hlast last hl

/-- The nonces of a chain count its blocks. -/
theorem Continuous.nonce_getElem {l : List Block} (h : Continuous l) :
    ∀ {i : ℕ} (hi : i < l.length), l[i].nonce.toNat = i + 1 := by
  intro i
  induction i with
  | zero =>
    intro hi
    obtain ⟨first, rest, rfl⟩ := List.exists_cons_of_length_pos hi
    rw [List.getElem_cons_zero, h.1.1]
    rfl
  | succ i ih =>
    intro hi
    obtain ⟨first, rest, rfl⟩ := List.exists_cons_of_length_pos (by omega : 0 < l.length)
    have hlink := (List.isChain_iff_getElem.mp h.2) i hi
    rw [hlink.1, ih (by omega)]

/-- The nonces of a chain are distinct. -/
theorem Continuous.nodup_nonce {l : List Block} (h : Continuous l) :
    (l.map Block.nonce).Nodup := by
  refine List.nodup_iff_injective_getElem.mpr fun i j hij ↦ ?_
  have hi : i.1 < l.length := i.2.trans_eq (List.length_map ..)
  have hj : j.1 < l.length := j.2.trans_eq (List.length_map ..)
  simp only [List.getElem_map] at hij
  have hnat := congrArg UInt64.toNat hij
  rw [h.nonce_getElem hi, h.nonce_getElem hj] at hnat
  exact Fin.ext (by omega)

theorem WellLinked.nonce_getElem {l : List Block} (h : WellLinked l) {i : ℕ} (hi : i < l.length) :
    l[i].nonce.toNat = i + 1 := (wellLinked_iff.mp h).1.nonce_getElem hi

theorem WellLinked.nonce_getLast {l : List Block} (h : WellLinked l) {last : Block}
    (hlast : l.getLast? = some last) : last.nonce.toNat = l.length := by
  rw [List.getLast?_eq_getElem?] at hlast
  obtain ⟨hlt, hget⟩ := List.getElem?_eq_some_iff.mp hlast
  rw [← hget, h.nonce_getElem hlt]
  omega

/-- The loop, away from the end of the nonce range, checks the links and every block. -/
theorem exec_verifyLinks_eq_ok {m : Overflow} {K : Crates} :
    ∀ {i : ℕ} {prev : Block} {rest : List Block},
    prev.nonce.toNat + rest.length ≤ UInt64.toNat (UInt64.ofNat u64Max) →
    ((verifyLinks m K i prev rest).exec = some (.ok ()) ↔
      (prev :: rest).IsChain Links ∧ ∀ b ∈ rest, Verified K b) := by
  intro i prev rest
  rw [UInt64.toNat_ofNat_u64Max]
  induction rest generalizing i prev with
  | nil => simp [verifyLinks]
  | cons block rest ih =>
    intro hbound
    rw [List.length_cons] at hbound
    have hone : prev.nonce.toNat + (1 : UInt64).toNat ≤ u64Max := by
      have : (1 : UInt64).toNat = 1 := rfl
      omega
    have hnext : ∀ {n : UInt64}, n = prev.nonce + 1 ↔ n.toNat = prev.nonce.toNat + 1 := fun {n} ↦ by
      rw [← UInt64.toNat_inj, UInt64.toNat_add_of_le hone]
      rfl
    rw [verifyLinks, UInt64.plus_of_le m hone]
    simp only [Fallible.exec_bind_eq_ok, Fallible.exec_orPanic, Fallible.exec_ofExcept,
      Option.map_some, Option.some_inj, Except.ok.injEq, exists_eq_left', ensure_eq_ok,
      exists_and_left, exists_const, List.isChain_cons_cons, List.forall_mem_cons, hnext]
    constructor
    · rintro ⟨hnonce, hprev, ⟨⟩, hver, hrest⟩
      obtain ⟨hchain, hall⟩ := (ih (by omega)).mp hrest
      exact ⟨⟨⟨hnonce, hprev⟩, hchain⟩, hver, hall⟩
    · rintro ⟨⟨⟨hnonce, hprev⟩, hchain⟩, hver, hall⟩
      exact ⟨hnonce, hprev, (), hver, (ih (by omega)).mpr ⟨hchain, hall⟩⟩

/-- **What `verify_chain_integrity` accepts**: on a slice, exactly the well-linked lists of
verified blocks. The nonce increments it computes never overflow, whatever the build profile. -/
theorem exec_verifyChainIntegrity_eq_ok {m : Overflow} {K : Crates} (chain : Vec Block) :
    (verifyChainIntegrity m K chain.toList).exec = some (.ok ()) ↔
      WellLinked chain.toList ∧ ∀ b ∈ chain.toList, Verified K b := by
  obtain ⟨l, hlen⟩ := chain
  cases l with
  | nil => simp [verifyChainIntegrity, WellLinked]
  | cons first rest =>
    simp only [List.length_cons, isizeMax] at hlen
    rw [verifyChainIntegrity]
    simp only [Fallible.exec_bind_eq_ok, Fallible.exec_ofExcept, Option.some_inj, ensure_eq_ok,
      exists_and_left, exists_const, WellLinked, List.forall_mem_cons]
    constructor
    · -- the first nonce is one, and a vector is too short to reach the last nonce
      rintro ⟨hnonce, hopen, hprev, ⟨⟩, hver, hrest⟩
      have hbound : first.nonce.toNat + rest.length ≤ UInt64.toNat (UInt64.ofNat u64Max) := by
        rw [hnonce, UInt64.toNat_ofNat_u64Max, u64Max]
        have : (1 : UInt64).toNat = 1 := rfl
        omega
      obtain ⟨hchain, hall⟩ := (exec_verifyLinks_eq_ok hbound).mp hrest
      exact ⟨⟨⟨hnonce, hopen, hprev⟩, hchain⟩, hver, hall⟩
    · rintro ⟨⟨hgen, hchain⟩, hver, hall⟩
      have hbound : first.nonce.toNat + rest.length ≤ UInt64.toNat (UInt64.ofNat u64Max) := by
        rw [hgen.nonce, UInt64.toNat_ofNat_u64Max, u64Max]
        have : (1 : UInt64).toNat = 1 := rfl
        omega
      exact ⟨hgen.nonce, hgen.isOpen, hgen.previous, (), hver,
        (exec_verifyLinks_eq_ok hbound).mpr ⟨hchain, hall⟩⟩

end Arxia
