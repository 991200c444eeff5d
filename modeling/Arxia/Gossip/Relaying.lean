import Arxia.Gossip.SignedMessage
import Arxia.Graph.Flooding

/-!
# Relaying announcements

A node that receives an announcement validates it, takes one off its hop count and broadcasts it
while something is left of that. Nodes keep no record of what they have broadcast before; the hop
count is all that ends the flooding. It does: an announcement goes as many hops far as its count
says, sixteen at most, whatever is lost or delayed on the way.
-/

namespace Arxia

open Rust Transition Graph Relaying

namespace GossipMessage

/-- Decrement the hop count of an announcement, and report whether it can still be forwarded. -/
def decrementHopsForRelay : GossipMessage → Bool × GossipMessage
  | blockAnnounce blockData hops =>
    if hops = 0 then (false, blockAnnounce blockData hops)
    else (decide (hops - 1 > 0), blockAnnounce blockData (hops - 1))
  | m => (false, m)

/-- What a relayer broadcasts on receiving a message: it validates the message, decrements the hop
count, and broadcasts if that returns true. -/
def relay (m : GossipMessage) : Option GossipMessage :=
  match m.validate with
  | .ok () => if m.decrementHopsForRelay.1 then some m.decrementHopsForRelay.2 else none
  | .error _ => none

/-- How often a message will be broadcast again. -/
def remaining : GossipMessage → ℕ
  | blockAnnounce _ hops => if hops ≤ MAX_BLOCK_ANNOUNCE_HOPS then hops.toNat - 1 else 0
  | _ => 0

variable {data : List UInt8} {hops k : UInt8} {m m' : GossipMessage} {d : ℕ}

theorem validate_blockAnnounce : (blockAnnounce data hops).validate = .ok () ↔
    hops ≤ MAX_BLOCK_ANNOUNCE_HOPS ∧ data.length ≤ MAX_BLOCK_ANNOUNCE_BYTES := by
  simp only [validate, bind_eq_ok, ensure_eq_ok, exists_const]

theorem toNat_sub_one (h : hops ≠ 0) : (hops - 1).toNat = hops.toNat - 1 := by
  have hpos : 1 ≤ hops := by
    rw [UInt8.le_iff_toNat_le, UInt8.toNat_one]
    exact Nat.one_le_iff_ne_zero.mpr fun hzero ↦ h (UInt8.toNat_inj.mp hzero)
  rw [UInt8.toNat_sub_of_le _ _ hpos, UInt8.toNat_one]

/-- Only an announcement with more than one hop left can be forwarded. -/
theorem decrementHopsForRelay_eq : m.decrementHopsForRelay = (true, m') ↔
    ∃ data hops, m = blockAnnounce data hops ∧ m' = blockAnnounce data (hops - 1) ∧
      1 < hops.toNat := by
  constructor
  · intro h
    rcases m with ⟨data, hops⟩ | _ | _ | _
    · rw [decrementHopsForRelay] at h
      split at h
      · cases h
      · rename_i hzero
        obtain ⟨hmore, rfl⟩ := Prod.mk.inj h
        rw [decide_eq_true_iff, gt_iff_lt, UInt8.lt_iff_toNat_lt, UInt8.toNat_zero,
          toNat_sub_one hzero] at hmore
        exact ⟨data, hops, rfl, rfl, by omega⟩
    all_goals cases h
  · rintro ⟨data, hops, rfl, rfl, hmore⟩
    have hzero : hops ≠ 0 := by
      rintro rfl
      cases hmore
    have hpos : hops - 1 > 0 := by
      rw [gt_iff_lt, UInt8.lt_iff_toNat_lt, UInt8.toNat_zero, toNat_sub_one hzero]
      omega
    rw [decrementHopsForRelay, if_neg hzero, decide_eq_true hpos]

/-- **What is relayed**: an announcement within the caps that has more than one hop left. -/
theorem relay_eq_some : relay m = some m' ↔
    ∃ data hops, m = blockAnnounce data hops ∧ m' = blockAnnounce data (hops - 1) ∧
      1 < hops.toNat ∧ hops ≤ MAX_BLOCK_ANNOUNCE_HOPS ∧
      data.length ≤ MAX_BLOCK_ANNOUNCE_BYTES := by
  have hrelay : relay m = some m' ↔
      m.validate = .ok () ∧ m.decrementHopsForRelay = (true, m') := by
    rw [relay]
    cases m.validate with
    | error e => simp
    | ok u => cases m.decrementHopsForRelay with | mk again m₁ => cases again <;> simp
  rw [hrelay, decrementHopsForRelay_eq]
  constructor
  · rintro ⟨hvalid, data, hops, rfl, rfl, hmore⟩
    exact ⟨data, hops, rfl, rfl, hmore, validate_blockAnnounce.mp hvalid⟩
  · rintro ⟨data, hops, rfl, rfl, hmore, hcaps⟩
    exact ⟨validate_blockAnnounce.mpr hcaps, data, hops, rfl, rfl, hmore⟩

/-- Relaying takes one off what remains. -/
def relaying : Relaying GossipMessage where
  forward := relay
  rank := remaining
  rank_lt := by
    intro m m' h
    obtain ⟨data, hops, rfl, rfl, hmore, hhops, -⟩ := relay_eq_some.mp h
    have hzero : hops ≠ 0 := by
      rintro rfl
      cases hmore
    have hsub := toNat_sub_one hzero
    rw [remaining, remaining, if_pos hhops]
    split <;> omega

theorem remaining_le (m : GossipMessage) : m.remaining ≤ 15 := by
  rcases m with ⟨data, hops⟩ | _ | _ | _
  · rw [remaining]
    split
    · rename_i h
      have hle : hops.toNat ≤ 16 := UInt8.le_iff_toNat_le.mp h
      omega
    · exact Nat.zero_le _
  all_goals exact Nat.zero_le _

/-- What has become of an announcement that was relayed so many times. -/
theorem after_blockAnnounce : relaying.after d (blockAnnounce data hops) = some m' ↔
    ∃ k, m' = blockAnnounce data k ∧ k.toNat + d = hops.toNat ∧
      (d = 0 ∨ d < hops.toNat ∧ hops ≤ MAX_BLOCK_ANNOUNCE_HOPS ∧
        data.length ≤ MAX_BLOCK_ANNOUNCE_BYTES) := by
  induction d generalizing hops with
  | zero =>
    rw [after, Option.some_inj]
    constructor
    · rintro rfl
      exact ⟨hops, rfl, rfl, .inl rfl⟩
    · rintro ⟨k, rfl, hk, _⟩
      rw [UInt8.toNat_inj.mp hk]
  | succ d ih =>
    have hsub : 1 < hops.toNat → (hops - 1).toNat = hops.toNat - 1 := fun hmore ↦
      toNat_sub_one (by rintro rfl; cases hmore)
    rw [after, Option.bind_eq_some_iff]
    constructor
    · rintro ⟨m₁, hrelay, hafter⟩
      obtain ⟨data₁, hops₁, heq, rfl, hmore, hcaps⟩ := relay_eq_some.mp hrelay
      obtain ⟨rfl, rfl⟩ := blockAnnounce.inj heq
      obtain ⟨k, rfl, hk, hlast⟩ := ih.mp hafter
      rw [hsub hmore] at hk hlast
      exact ⟨k, rfl, by omega, .inr ⟨by omega, hcaps⟩⟩
    · rintro ⟨k, rfl, hk, hzero | ⟨hlt, hhops, hlength⟩⟩
      · cases hzero
      · have hmore : 1 < hops.toNat := by omega
        refine ⟨blockAnnounce data (hops - 1),
          relay_eq_some.mpr ⟨data, hops, rfl, rfl, hmore, hhops, hlength⟩, ih.mpr ?_⟩
        rw [hsub hmore]
        refine ⟨k, rfl, by omega, .inr ⟨by omega, ?_, hlength⟩⟩
        have hle := UInt8.le_iff_toNat_le.mp hhops
        rw [UInt8.le_iff_toNat_le, hsub hmore]
        omega

/-- An announcement comes from an announcement of the same data. -/
theorem after_eq_blockAnnounce : relaying.after d m = some (blockAnnounce data k) ↔
    ∃ hops, m = blockAnnounce data hops ∧ k.toNat + d = hops.toNat ∧
      (d = 0 ∨ d < hops.toNat ∧ hops ≤ MAX_BLOCK_ANNOUNCE_HOPS ∧
        data.length ≤ MAX_BLOCK_ANNOUNCE_BYTES) := by
  constructor
  · intro h
    obtain ⟨data₁, hops, rfl⟩ : ∃ data₁ hops, m = blockAnnounce data₁ hops := by
      cases d with
      | zero => exact ⟨data, k, Option.some_inj.mp h⟩
      | succ d =>
        obtain ⟨m₁, hrelay, -⟩ := Option.bind_eq_some_iff.mp h
        obtain ⟨data₁, hops, rfl, -⟩ := relay_eq_some.mp hrelay
        exact ⟨data₁, hops, rfl⟩
    obtain ⟨k₁, heq, hrest⟩ := after_blockAnnounce.mp h
    obtain ⟨rfl, rfl⟩ := blockAnnounce.inj heq
    exact ⟨hops, rfl, hrest⟩
  · rintro ⟨hops, rfl, hrest⟩
    exact after_blockAnnounce.mpr ⟨k, rfl, hrest⟩

variable {ι : Type} {peers : ι → Multiset ι} {tr tr' : List (Event ι GossipMessage)}
  {s s' : Multiset (ι × GossipMessage)}

/-- **Reach.** When everything that was broadcast has arrived, an announcement has gone as many hops
far as its count says, and one hop even if that is nothing; where it is out of the caps it has not
been passed on. No other schedule of the same announcements, with losses or without, delivers
anything else. -/
theorem relayed_of_run (run : (relaying.network peers).Run tr 0)
    (hlost : collect Event.lost tr = 0) :
    (∀ j data k, .receive j (blockAnnounce data k) ∈ tr ↔
      ∃ i hops d, .announce i (blockAnnounce data hops) ∈ tr ∧
        Walk (fun a b ↦ b ∈ peers a) (d + 1) i j ∧ k.toNat + d = hops.toNat ∧
        (d = 0 ∨ d < hops.toNat ∧ hops ≤ MAX_BLOCK_ANNOUNCE_HOPS ∧
          data.length ≤ MAX_BLOCK_ANNOUNCE_BYTES)) ∧
    ∀ tr' s', (relaying.network peers).Run tr' s' →
      collect Event.announced tr' = collect Event.announced tr →
      collect Event.received tr' ≤ collect Event.received tr := by
  have hreceived := received_eq run hlost
  constructor
  · intro j data k
    rw [← mem_received, hreceived, mem_waves_outset]
    simp only [after_eq_blockAnnounce]
    constructor
    · rintro ⟨i, m, d, hannounce, hwalk, hops, rfl, hrest⟩
      exact ⟨i, hops, d, hannounce, hwalk, hrest⟩
    · rintro ⟨i, hops, d, hannounce, hwalk, hrest⟩
      exact ⟨i, _, d, hannounce, hwalk, hops, rfl, hrest⟩
  · intro tr' s' run' hannounced
    rw [hreceived, outset, ← hannounced]
    exact received_le run'

/-- Three nodes in a ring. -/
def ring (i : Fin 3) : Multiset (Fin 3) := {i + 1}

/-- The first node announces a block with two hops. -/
def ringTrace : List (Event (Fin 3) GossipMessage) :=
  [.announce 0 (blockAnnounce [1] 2), .receive 1 (blockAnnounce [1] 2),
    .receive 2 (blockAnnounce [1] 1)]

theorem run_ring : (relaying.network ring).Run ringTrace 0 := by
  have hrelayed : relaying.relayed ring 1 (blockAnnounce [1] 2) = {(2, blockAnnounce [1] 1)} := by
    decide +kernel
  have hlast : relaying.relayed ring 2 (blockAnnounce [1] 1) = 0 := by decide +kernel
  have run₁ : (relaying.network ring).Run [.announce 0 (blockAnnounce [1] 2)]
      (0 + sent ring 0 (blockAnnounce [1] 2)) := .step (.start rfl) rfl
  have run₂ : (relaying.network ring).Run
      [.announce 0 (blockAnnounce [1] 2), .receive 1 (blockAnnounce [1] 2)]
      (0 + relaying.relayed ring 1 (blockAnnounce [1] 2)) := .step run₁ ⟨0, by decide, rfl⟩
  exact .step run₂ ⟨0, by rw [hrelayed]; rfl, by rw [hlast]; rfl⟩

/-- The announcement reaches the third node and goes no further. -/
theorem relayed_of_run_ring : (∃ i hops d, .announce i (blockAnnounce [1] hops) ∈ ringTrace ∧
      Walk (fun a b ↦ b ∈ ring a) (d + 1) i 2 ∧ (1 : UInt8).toNat + d = hops.toNat) ∧
    ∀ tr' s', (relaying.network ring).Run tr' s' →
      collect Event.announced tr' = collect Event.announced ringTrace →
      collect Event.received tr' ≤ collect Event.received ringTrace := by
  obtain ⟨hreach, hmost⟩ := relayed_of_run run_ring rfl
  have hreceived : .receive 2 (blockAnnounce [1] 1) ∈ ringTrace := by simp [ringTrace]
  obtain ⟨i, hops, d, hannounce, hwalk, hhops, -⟩ := (hreach 2 [1] 1).mp hreceived
  exact ⟨⟨i, hops, d, hannounce, hwalk, hhops⟩, hmost⟩

/-- **Cost.** Among nodes with so many peers at most, an announcement is received no more often than
a tree of sixteen levels has nodes, whoever makes it and whatever it says. -/
theorem card_received_of_run {Δ : ℕ} (hpeers : ∀ i, (peers i).card ≤ Δ)
    (run : (relaying.network peers).Run tr s) :
    (collect Event.received tr).card ≤
      (collect Event.announced tr).card * ∑ d ∈ Finset.range 16, Δ ^ (d + 1) :=
  card_received_le hpeers remaining_le run

theorem card_received_of_run_ring : (collect Event.received ringTrace).card ≤
    (collect Event.announced ringTrace).card * ∑ d ∈ Finset.range 16, 1 ^ (d + 1) :=
  card_received_of_run (fun i ↦ (Multiset.card_singleton (i + 1)).le) run_ring

end GossipMessage

end Arxia
