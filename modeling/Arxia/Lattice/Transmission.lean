import Arxia.Lattice.RoundTrip

/-!
# Sending a block over the wire

`send` takes any string as the destination, debits the account and signs the block. Whether the
block can be transmitted is decided later: the encoder refuses a destination that is not the
hexadecimal notation of 32 bytes, and a destination in capital letters comes back in small ones, so
that the receiver computes another hash. The hash of the last block is a second way in, if it was
not written by the chain itself.
-/

namespace Arxia

open Rust

/-- The block can be encoded, and what is decoded from it verifies under the same hash. -/
def Block.Survives (K : Crates) (b : Block) : Prop :=
  ∃ data b', toCompactBytes K b = .ok data ∧ (fromCompactBytes K data).exec = some (.ok b') ∧
    Verified K b' ∧ b'.hash = b.hash

theorem Block.collisionFree_self (K : Crates) (b : Block) : CollisionFree K [b, b] := by
  rintro x ⟨c, hc, hx⟩ y ⟨c', hc', hy⟩ -
  have hmem : ∀ {c}, c ∈ [b, b] → c = b := by simp
  rw [hmem hc] at hx
  rw [hmem hc', hx] at hy
  exact Option.some_inj.mp hy

section Survives

variable {K : Crates} {b : Block}

/-- **Normal blocks survive**, and come back unchanged. -/
theorem Block.Normal.survives (hnormal : b.Normal) (hverified : Verified K b)
    (hsig : b.signature.length = 64) : b.Survives K := by
  obtain ⟨w, henc, hdec⟩ := exists_encodes_decodes hnormal hverified.hashed hsig
  exact ⟨w.bytes, b, toCompactBytes_eq_ok.mpr ⟨w, henc, rfl⟩,
    exec_fromCompactBytes_of_decodes hdec, hverified, rfl⟩

/-- What is decoded from a normal block is the block. -/
theorem Block.Normal.decoded_eq (hnormal : b.Normal) (hhashed : b.Hashed K)
    (hsig : b.signature.length = 64) {data : List UInt8} {b' : Block}
    (hto : toCompactBytes K b = .ok data)
    (hfrom : (fromCompactBytes K data).exec = some (.ok b')) : b' = b := by
  obtain ⟨w, henc, hdec⟩ := exists_encodes_decodes hnormal hhashed hsig
  have hdata := toCompactBytes_eq_ok.mpr ⟨w, henc, rfl⟩
  rw [hto, Except.ok.injEq] at hdata
  rw [hdata, exec_fromCompactBytes_of_decodes hdec, Option.some_inj, Except.ok.injEq] at hfrom
  exact hfrom.symm

/-- Without collisions no other block survives. -/
theorem Block.Survives.normal (hserde : Serde K) (h : b.Survives K) (hhashed : b.Hashed K)
    (hsig : b.signature.length = 64)
    (hcf : ∀ data b', toCompactBytes K b = .ok data →
      (fromCompactBytes K data).exec = some (.ok b') → CollisionFree K [b, b']) : b.Normal := by
  obtain ⟨data, b', hto, hfrom, hverified, hhash⟩ := h
  have hcf := hcf data b' hto hfrom
  obtain ⟨w, henc, rfl⟩ := toCompactBytes_eq_ok.mp hto
  rw [← List.append_nil w.bytes, Wire.exec_fromCompactBytes, Option.some_inj,
    Wire.block_eq_ok] at hfrom
  have hsame := hcf.sameContents hserde List.mem_cons_self
    (List.mem_cons_of_mem _ List.mem_cons_self) hhashed hverified.hashed hhash.symm
  -- the decoded block has the same contents, so the fields stand for the sent one too
  refine (Wire.decodes_iff_normal henc hhashed hsig).mp ?_
  refine ⟨hsame.account.trans hfrom.account, hsame.previous.trans hfrom.previous,
    hsame.blockType ▸ hfrom.blockType, henc.balance.symm, henc.nonce.symm, henc.timestamp.symm,
    hhashed, ?_⟩
  rw [henc.signature, if_pos hsig]

end Survives

namespace AccountChain

variable {m : Overflow} {K : Crates} {timestamp : UInt64} {s s' : Session} {d : String}
  {v : UInt64} {b : Block}

/-- What makes a sent block normal. -/
theorem normal_send_iff (hpair : s.account.KeyPair)
    (h : (send m K timestamp d v).exec s = some (.ok b, s')) :
    b.Normal ↔ IsHex64 d ∧ CarriesPrevious s.account.lastHash := by
  obtain ⟨-, hrec, hwrites⟩ := exec_send_ok h
  obtain ⟨htype, hprev, -, -, -⟩ := hwrites.of_send
  rw [← hprev]
  constructor
  · exact fun h ↦ ⟨h.slot d (by rw [htype]; rfl), h.previous⟩
  · rintro ⟨hd, hprevious⟩
    refine ⟨?_, hprevious, fun x hx ↦ ?_⟩
    · rw [hrec.account, hpair.hex]
      exact isHex64_iff.mpr ⟨_, rfl⟩
    · rw [htype] at hx
      exact Option.some_inj.mp hx ▸ hd

theorem verified_send (hpair : s.account.KeyPair) (hvalid : s.account.signingKey.Valid K)
    (h : (send m K timestamp d v).exec s = some (.ok b, s')) :
    Verified K b ∧ b.signature.length = 64 := by
  obtain ⟨-, hrec, -⟩ := exec_send_ok h
  obtain ⟨bytes, -, hsig⟩ := hrec.signature
  exact ⟨hrec.verified hvalid hpair, by rw [hsig, Vector.length_toList]⟩

/-- **A sent block survives the wire** exactly when the destination is in lowercase hexadecimal and
the last hash of the chain is one the format can carry. -/
theorem survives_send_iff (hserde : Serde K) (hpair : s.account.KeyPair)
    (hvalid : s.account.signingKey.Valid K)
    (h : (send m K timestamp d v).exec s = some (.ok b, s'))
    (hcf : ∀ data b', toCompactBytes K b = .ok data →
      (fromCompactBytes K data).exec = some (.ok b') → Block.CollisionFree K [b, b']) :
    b.Survives K ↔ IsHex64 d ∧ CarriesPrevious s.account.lastHash := by
  obtain ⟨hverified, hsig⟩ := verified_send hpair hvalid h
  rw [← normal_send_iff hpair h]
  exact ⟨fun h ↦ h.normal hserde hverified.hashed hsig hcf, fun h ↦ h.survives hverified hsig⟩

/-! ## Alice sends -/

/-- Alice has opened her account, and sends to any destination. -/
theorem exists_send {d : String} (hd : d ≠ Reference.alice) : ∃ s s' b, s.account.KeyPair ∧
    s.account.signingKey.Valid Reference.serde ∧
    s.account.lastHash = Reference.openAlice.hash ∧
    (send .panics Reference.serde 3 d 40).exec s = some (.ok b, s') := by
  obtain ⟨s, run⟩ := Reference.run_opened
  have hsound := Network.sound_of_run Reference.serde_serde Reference.valid_keys run false
  obtain ⟨hlast, hbalance, -⟩ := Reference.tip_opened.account run
  have hname : (s.accounts false).publicKeyHex = Reference.alice :=
    Reference.publicKeyHex_eq_name run false
  have hpermits : Permits (s.accounts false) (.send d 40) :=
    .send (by decide) (hname ▸ hd) (by rw [hbalance]; decide)
  obtain ⟨b, s', ⟨-, ⟨vclock, vclock', hexec⟩, -⟩, -⟩ := Network.exists_step Reference.serde_serde
    Reference.valid_keys run 3 (fun c hc ↦ by simp at hc) hpermits (by
      rw [Network.chain_of_run Reference.serde_serde Reference.valid_keys run]
      decide)
  exact ⟨_, _, b, hsound.pair, hsound.key ▸ Reference.valid_keys false, hlast, hexec⟩

theorem survives_sendToBob : ∃ s s' b,
    (send .panics Reference.serde 3 Reference.bob 40).exec s = some (.ok b, s') ∧
      b.Survives Reference.serde := by
  obtain ⟨s, s', b, hpair, hvalid, hlast, hexec⟩ := @exists_send Reference.bob (by decide)
  obtain ⟨hverified, hsig⟩ := verified_send hpair hvalid hexec
  have hcondition : IsHex64 Reference.bob ∧ CarriesPrevious s.account.lastHash :=
    ⟨normal_sendToBob.slot _ rfl, hlast ▸ normal_sendToBob.previous⟩
  have hnormal := (normal_send_iff hpair hexec).mpr hcondition
  refine ⟨s, s', b, hexec, (survives_send_iff Reference.serde_serde hpair hvalid hexec ?_).mpr
    hcondition⟩
  intro data b' hto hfrom
  rw [hnormal.decoded_eq hverified.hashed hsig hto hfrom]
  exact Block.collisionFree_self _ b

/-- Alice sends to a destination that is not hexadecimal. -/
theorem not_survives : ¬ ∀ (s s' : Session) (d : String) (v : UInt64) (b : Block),
    s.account.KeyPair → s.account.signingKey.Valid Reference.serde →
      (send .panics Reference.serde 3 d v).exec s = some (.ok b, s') →
        b.Survives Reference.serde := by
  intro h
  obtain ⟨s, s', b, hpair, hvalid, -, hexec⟩ := @exists_send "bob" (by decide)
  obtain ⟨data, b', hto, -⟩ := h s s' "bob" 40 b hpair hvalid hexec
  obtain ⟨-, -, hwrites⟩ := exec_send_ok hexec
  obtain ⟨w, henc, -⟩ := toCompactBytes_eq_ok.mp hto
  have hslot := henc.slot
  rw [hwrites.of_send.1] at hslot
  have hdecode : Hex.decode "bob".toList = some w.slot.toList := hexDecode32_eq_ok.mp hslot
  have hnone : Hex.decode "bob".toList = none := by decide
  rw [hnone] at hdecode
  simp at hdecode

end AccountChain

end Arxia
