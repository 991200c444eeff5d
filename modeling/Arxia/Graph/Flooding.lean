import Arxia.Graph.Walks
import Arxia.Transition.Runs
import Mathlib.Algebra.BigOperators.Ring.Finset
import Mathlib.Algebra.Order.BigOperators.Group.Finset
import Mathlib.Data.Multiset.Bind

/-!
# Flooding with a limit

A node hands a packet to all its peers, each of which hands on what becomes of it, until there is
nothing left to hand on. Packets are delivered in any order, and some are lost.

What a packet in flight will still bring about does not depend on the order of deliveries. It is its
`wave`: the packet itself and the waves of what its receiver hands on. A delivery takes the packet
out of the sum of the waves in flight, and a loss takes out a whole wave, so the sum of what has
been received, what is under way and what has been lost is always that of what was announced. A wave
reaches along walks, one packet for each, and its size is bounded by the degree and the limit.
-/

namespace Graph

open Transition

/-- What a node hands on of a packet, if anything. Each time there is less to go. -/
structure Relaying (P : Type) where
  forward : P → Option P
  rank : P → ℕ
  rank_lt : ∀ p q, forward p = some q → rank q < rank p

namespace Relaying

variable {ι P : Type} (R : Relaying P) (peers : ι → Multiset ι)

/-- A packet handed to the peers of a node. -/
def sent (i : ι) (p : P) : Multiset (ι × P) := (peers i).map (·, p)

/-- What a node hands on when it receives a packet. -/
def relayed (i : ι) (p : P) : Multiset (ι × P) := (R.forward p).elim 0 (sent peers i)

/-- All packets that come of one that is under way, if none is lost. -/
def wave (i : ι) (p : P) : Multiset (ι × P) :=
  (i, p) ::ₘ
    match _h : R.forward p with
    | none => 0
    | some q => (peers i).bind fun j ↦ wave j q
termination_by R.rank p
decreasing_by exact R.rank_lt p q _h

/-- All packets that come of several. -/
def waves (s : Multiset (ι × P)) : Multiset (ι × P) := s.bind fun x ↦ R.wave peers x.1 x.2

/-- What happens in a network. -/
inductive Event (ι P : Type)
  /-- A node hands a packet of its own to its peers. -/
  | announce (i : ι) (p : P)
  /-- A packet under way to the node arrives. -/
  | receive (i : ι) (p : P)
  /-- A packet under way to the node is lost. -/
  | lose (i : ι) (p : P)

namespace Event

/-- The packet and the node it is announced at. -/
def announced : Event ι P → Option (ι × P)
  | announce i p => some (i, p)
  | receive _ _ | lose _ _ => none

/-- The packet and the node it arrives at. -/
def received : Event ι P → Option (ι × P)
  | receive i p => some (i, p)
  | announce _ _ | lose _ _ => none

/-- The packet and the node it was under way to. -/
def lost : Event ι P → Option (ι × P)
  | lose i p => some (i, p)
  | announce _ _ | receive _ _ => none

end Event

/-- The packets under way, as events change them. -/
def network : System (Multiset (ι × P)) (Event ι P) where
  init := fun s ↦ s = 0
  step := fun s a s' ↦ match a with
    | .announce i p => s' = s + sent peers i p
    | .receive i p => ∃ t, s = (i, p) ::ₘ t ∧ s' = t + R.relayed peers i p
    | .lose i p => ∃ t, s = (i, p) ::ₘ t ∧ s' = t

/-- The packets that some events are about. -/
def collect (f : Event ι P → Option (ι × P)) (tr : List (Event ι P)) : Multiset (ι × P) :=
  tr.filterMap f

/-- What announcements hand out. -/
def outset (tr : List (Event ι P)) : Multiset (ι × P) :=
  (collect Event.announced tr).bind fun x ↦ sent peers x.1 x.2

/-! ## Waves -/

variable {R peers} {i j : ι} {p q : P} {s s' t : Multiset (ι × P)} {tr tr' : List (Event ι P)}

theorem waves_add (s t : Multiset (ι × P)) :
    R.waves peers (s + t) = R.waves peers s + R.waves peers t := Multiset.add_bind _ _ _

theorem waves_cons (i : ι) (p : P) (s : Multiset (ι × P)) :
    R.waves peers ((i, p) ::ₘ s) = R.wave peers i p + R.waves peers s := Multiset.cons_bind _ _ _

theorem waves_zero : R.waves peers 0 = 0 := Multiset.zero_bind _

theorem waves_singleton (x : ι × P) : R.waves peers {x} = R.wave peers x.1 x.2 :=
  Multiset.singleton_bind _ _

/-- **A delivery** takes the packet out of its wave. -/
theorem wave_eq (i : ι) (p : P) :
    R.wave peers i p = (i, p) ::ₘ R.waves peers (R.relayed peers i p) := by
  rw [wave, relayed]
  split <;> rename_i h <;> rw [h]
  · rfl
  · rw [Option.elim_some, waves, sent, Multiset.bind_map]

/-! ## Runs -/

theorem collect_concat (f : Event ι P → Option (ι × P)) (tr : List (Event ι P)) (a : Event ι P) :
    collect f (tr ++ [a]) = collect f tr + ↑(f a).toList := by
  rw [collect, filterMap_concat, ← Multiset.coe_add, ← collect]

theorem outset_concat (tr : List (Event ι P)) (a : Event ι P) : outset peers (tr ++ [a]) =
    outset peers tr + (↑a.announced.toList : Multiset (ι × P)).bind fun x ↦ sent peers x.1 x.2 := by
  rw [outset, collect_concat, Multiset.add_bind, ← outset]

/-- **What is announced is received, under way or lost.** -/
theorem accounts_of_run (run : (R.network peers).Run tr s) :
    collect Event.received tr + R.waves peers s + R.waves peers (collect Event.lost tr) =
      R.waves peers (outset peers tr) := by
  refine run.invariant (I := fun tr s ↦
    collect Event.received tr + R.waves peers s + R.waves peers (collect Event.lost tr) =
      R.waves peers (outset peers tr)) ?_ ?_
  · rintro s rfl
    rfl
  · rintro tr s a s' - ih hstep
    rw [outset_concat, collect_concat, collect_concat, waves_add, waves_add, ← ih]
    rcases a with ⟨i, p⟩ | ⟨i, p⟩ | ⟨i, p⟩
    · obtain rfl := hstep
      rw [waves_add]
      simp only [Event.received, Event.lost, Event.announced, Option.toList_none,
        Option.toList_some, Multiset.coe_nil, Multiset.coe_singleton, Multiset.singleton_bind,
        waves_zero, add_zero]
      ac_rfl
    · obtain ⟨t, rfl, rfl⟩ := hstep
      rw [waves_add, waves_cons, wave_eq, ← Multiset.singleton_add]
      simp only [Event.received, Event.lost, Event.announced, Option.toList_none,
        Option.toList_some, Multiset.coe_nil, Multiset.coe_singleton, Multiset.zero_bind,
        waves_zero, add_zero]
      ac_rfl
    · obtain ⟨t, rfl, rfl⟩ := hstep
      rw [waves_cons]
      simp only [Event.received, Event.lost, Event.announced, Option.toList_none,
        Option.toList_some, Multiset.coe_nil, Multiset.coe_singleton, Multiset.zero_bind,
        waves_zero, waves_singleton, add_zero]
      ac_rfl

/-- Losses can only take away from what is received. -/
theorem received_le (run : (R.network peers).Run tr s) :
    collect Event.received tr ≤ R.waves peers (outset peers tr) := by
  rw [← accounts_of_run run, add_assoc]
  exact Multiset.le_add_right _ _

/-- **When all is delivered** what has been received depends on the announcements only. -/
theorem received_eq (run : (R.network peers).Run tr 0) (hlost : collect Event.lost tr = 0) :
    collect Event.received tr = R.waves peers (outset peers tr) := by
  rw [← accounts_of_run run, hlost, waves_zero, add_zero, add_zero]

/-! ## Reach -/

variable (R) in
/-- What has become of a packet that was handed on so many times. -/
def after : ℕ → P → Option P
  | 0, p => some p
  | d + 1, p => (R.forward p).bind (after d)

theorem mem_waves {x : ι × P} : x ∈ R.waves peers s ↔ ∃ y ∈ s, x ∈ R.wave peers y.1 y.2 :=
  Multiset.mem_bind

theorem mem_sent {x : ι × P} : x ∈ sent peers i p ↔ x.1 ∈ peers i ∧ x.2 = p := by
  obtain ⟨j, q⟩ := x
  simp only [sent, Multiset.mem_map, Prod.mk.injEq]
  constructor
  · rintro ⟨j', hj, rfl, rfl⟩
    exact ⟨hj, rfl⟩
  · rintro ⟨hj, rfl⟩
    exact ⟨j, hj, rfl, rfl⟩

theorem mem_relayed {x : ι × P} :
    x ∈ R.relayed peers i p ↔ R.forward p = some x.2 ∧ x.1 ∈ peers i := by
  rw [relayed]
  cases R.forward p with
  | none => simp
  | some q => rw [Option.elim_some, mem_sent, Option.some_inj, and_comm, eq_comm]

/-- **A wave reaches along walks**, and a walk of so many edges has handed the packet on as
often. -/
theorem mem_wave : (j, q) ∈ R.wave peers i p ↔
    ∃ d, Walk (fun a b ↦ b ∈ peers a) d i j ∧ R.after d p = some q := by
  induction hrank : R.rank p using Nat.strong_induction_on generalizing i p with
  | _ n ih =>
    subst hrank
    rw [wave_eq, Multiset.mem_cons, mem_waves]
    constructor
    · rintro (hhere | ⟨y, hy, hwave⟩)
      · obtain ⟨rfl, rfl⟩ := Prod.mk.inj hhere
        exact ⟨0, .nil j, rfl⟩
      · obtain ⟨hforward, hpeer⟩ := mem_relayed.mp hy
        obtain ⟨d, hwalk, hafter⟩ := (ih _ (R.rank_lt _ _ hforward) rfl).mp hwave
        exact ⟨d + 1, .cons hpeer hwalk, by rw [after, hforward, Option.bind_some, hafter]⟩
    · rintro ⟨d, hwalk, hafter⟩
      rcases hwalk with _ | ⟨hpeer, hwalk⟩
      · exact .inl (by rw [Option.some_inj.mp hafter])
      · rw [after] at hafter
        obtain ⟨p', hforward, hafter⟩ := Option.bind_eq_some_iff.mp hafter
        exact .inr ⟨(_, p'), mem_relayed.mpr ⟨hforward, hpeer⟩,
          (ih _ (R.rank_lt _ _ hforward) rfl).mpr ⟨_, hwalk, hafter⟩⟩

theorem mem_received : (j, q) ∈ collect Event.received tr ↔ .receive j q ∈ tr := by
  rw [collect, Multiset.mem_coe, List.mem_filterMap]
  constructor
  · rintro ⟨a, ha, hreceived⟩
    rcases a with ⟨i, p⟩ | ⟨i, p⟩ | ⟨i, p⟩
    · cases hreceived
    · obtain ⟨rfl, rfl⟩ := Prod.mk.inj (Option.some_inj.mp hreceived)
      exact ha
    · cases hreceived
  · exact fun h ↦ ⟨_, h, rfl⟩

/-- What announcements bring about: a packet that has been handed on along a walk from one of
them. -/
theorem mem_waves_outset : (j, q) ∈ R.waves peers (outset peers tr) ↔
    ∃ i p d, .announce i p ∈ tr ∧ Walk (fun a b ↦ b ∈ peers a) (d + 1) i j ∧
      R.after d p = some q := by
  simp only [mem_waves, outset, collect, Multiset.mem_bind, Multiset.mem_coe, List.mem_filterMap]
  constructor
  · rintro ⟨y, ⟨x, ⟨a, ha, hannounced⟩, hy⟩, hwave⟩
    obtain ⟨hpeer, hpacket⟩ := mem_sent.mp hy
    obtain ⟨d, hwalk, hafter⟩ := mem_wave.mp hwave
    rcases a with ⟨i, p⟩ | ⟨i, p⟩ | ⟨i, p⟩
    · obtain rfl := Option.some_inj.mp hannounced
      exact ⟨i, p, d, ha, .cons hpeer hwalk, by rw [← hafter, hpacket]⟩
    · cases hannounced
    · cases hannounced
  · rintro ⟨i, p, d, ha, hwalk, hafter⟩
    rcases hwalk with _ | ⟨hpeer, hwalk⟩
    exact ⟨(_, p), ⟨(i, p), ⟨_, ha, rfl⟩, mem_sent.mpr ⟨hpeer, rfl⟩⟩,
      mem_wave.mpr ⟨d, hwalk, hafter⟩⟩

/-! ## Size -/

theorem card_bind_le {α β : Type} {s : Multiset α} {f : α → Multiset β} {n : ℕ}
    (h : ∀ x ∈ s, (f x).card ≤ n) : (s.bind f).card ≤ s.card * n := by
  rw [Multiset.card_bind, ← Multiset.card_map (Multiset.card ∘ f) s, ← Nat.nsmul_eq_mul]
  refine Multiset.sum_le_card_nsmul _ n fun k hk ↦ ?_
  obtain ⟨x, hx, rfl⟩ := Multiset.mem_map.mp hk
  exact h x hx

theorem mul_sum_pow (Δ n : ℕ) :
    Δ * ∑ d ∈ Finset.range n, Δ ^ d = ∑ d ∈ Finset.range n, Δ ^ (d + 1) := by
  rw [Finset.mul_sum]
  exact Finset.sum_congr rfl fun d _ ↦ (pow_succ' Δ d).symm

theorem card_sent (i : ι) (p : P) : (sent peers i p).card = (peers i).card := Multiset.card_map _ _

section Size

variable {Δ r : ℕ} (hpeers : ∀ i, (peers i).card ≤ Δ)

include hpeers

/-- The packets that come of one are no more than the nodes of a tree. -/
theorem card_wave_le (i : ι) (p : P) :
    (R.wave peers i p).card ≤ ∑ d ∈ Finset.range (R.rank p + 1), Δ ^ d := by
  induction hrank : R.rank p using Nat.strong_induction_on generalizing i p with
  | _ n ih =>
    subst hrank
    rw [wave_eq, Multiset.card_cons, Finset.sum_range_succ', pow_zero]
    refine Nat.add_le_add_right ?_ 1
    have hwaves : ∀ x ∈ R.relayed peers i p,
        (R.wave peers x.1 x.2).card ≤ ∑ d ∈ Finset.range (R.rank p), Δ ^ d := by
      intro x hx
      have hlt := R.rank_lt _ _ (mem_relayed.mp hx).1
      exact (ih _ hlt x.1 x.2 rfl).trans (Finset.sum_le_sum_of_subset
        (Finset.range_mono (Nat.succ_le_of_lt hlt)))
    have hrelayed : (R.relayed peers i p).card ≤ Δ := by
      rw [relayed]
      cases R.forward p with
      | none => exact Nat.zero_le _
      | some q => exact (card_sent i q).trans_le (hpeers i)
    calc (R.waves peers (R.relayed peers i p)).card
        ≤ (R.relayed peers i p).card * ∑ d ∈ Finset.range (R.rank p), Δ ^ d := card_bind_le hwaves
      _ ≤ Δ * ∑ d ∈ Finset.range (R.rank p), Δ ^ d := Nat.mul_le_mul_right _ hrelayed
      _ = ∑ d ∈ Finset.range (R.rank p), Δ ^ (d + 1) := mul_sum_pow _ _

/-- **No run goes on for ever.** Every announcement causes so many deliveries at most. -/
theorem card_received_le (hrank : ∀ p, R.rank p ≤ r) (run : (R.network peers).Run tr s) :
    (collect Event.received tr).card ≤
      (collect Event.announced tr).card * ∑ d ∈ Finset.range (r + 1), Δ ^ (d + 1) := by
  have hwave : ∀ x : ι × P, (R.wave peers x.1 x.2).card ≤ ∑ d ∈ Finset.range (r + 1), Δ ^ d :=
    fun x ↦ (card_wave_le hpeers x.1 x.2).trans (Finset.sum_le_sum_of_subset
      (Finset.range_mono (Nat.succ_le_succ (hrank x.2))))
  calc (collect Event.received tr).card
      ≤ (R.waves peers (outset peers tr)).card := Multiset.card_le_card (received_le run)
    _ ≤ (outset peers tr).card * ∑ d ∈ Finset.range (r + 1), Δ ^ d :=
      card_bind_le fun x _ ↦ hwave x
    _ ≤ (collect Event.announced tr).card * Δ * ∑ d ∈ Finset.range (r + 1), Δ ^ d :=
      Nat.mul_le_mul_right _ (card_bind_le fun x _ ↦ (card_sent x.1 x.2).trans_le (hpeers x.1))
    _ = (collect Event.announced tr).card * ∑ d ∈ Finset.range (r + 1), Δ ^ (d + 1) := by
      rw [Nat.mul_assoc, mul_sum_pow]

end Size

end Relaying

end Graph
