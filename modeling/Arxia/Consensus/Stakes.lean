import Arxia.Consensus.Delegation
import Arxia.Rust.Counters
import Arxia.Rust.Removals
import Mathlib.Data.Set.Card

/-!
# Stake snapshots

What is delegated to a representative is added up in three places: over the edges of a live graph,
over a list of delegations, and for all representatives at once when a snapshot is taken. Additions
saturate, so each of them is the exact sum, capped, in whatever order the edges come.

A snapshot has an entry for every representative of an edge, also if all of the edges are of amount
zero, and it counts its entries. That is the number of those with stake when each representative has
been delegated something.
-/

namespace Arxia

open Rust Transition

/-- Immutable snapshot of the stake of each representative. -/
structure DelegationSnapshot where
  totals : HashMap String UInt64

namespace DelegationSnapshot

/-- Total stake delegated to a representative at snapshot time. -/
def totalFor (s : DelegationSnapshot) (representative : String) : UInt64 :=
  (s.totals.lookup representative).getD 0

/-- Number of distinct representatives. -/
def representativeCount (s : DelegationSnapshot) : ℕ := s.totals.size

end DelegationSnapshot

/-- Compute total delegated stake for a representative. -/
def totalDelegatedStake (representative : String) (delegations : List Delegation) : UInt64 :=
  ((delegations.filter fun d ↦ d.representative = representative).map Delegation.amount).foldl
    UInt64.saturatingAdd 0

namespace DelegationGraph

/-- The records as the map of edges yields them. -/
def values (o : IterOrder (String × String) Delegation) (g : DelegationGraph) : List Delegation :=
  (o.arrange g.edges.entries).map fun e ↦ e.2

/-- Total directly-delegated stake for a representative. -/
def totalForRepresentative (o : IterOrder (String × String) Delegation) (g : DelegationGraph)
    (representative : String) : UInt64 :=
  (((g.values o).filter fun d ↦ d.representative = representative).map Delegation.amount).foldl
    UInt64.saturatingAdd 0

/-- The body of the loop of `snapshot`. -/
def tally (totals : HashMap String UInt64) (d : Delegation) : HashMap String UInt64 :=
  let totals := totals.orInsert d.representative 0
  totals.insert d.representative
    (((totals.lookup d.representative).getD 0).saturatingAdd d.amount)

/-- Capture the totals of all representatives. -/
def snapshot (o : IterOrder (String × String) Delegation) (g : DelegationGraph) :
    DelegationSnapshot := ⟨(g.values o).foldl tally ∅⟩

/-! ## Exact stakes -/

/-- The sum of the amounts of a representative's incoming edges. -/
def stake (g : DelegationGraph) (representative : String) : ℕ :=
  HashMap.total (fun edge d ↦ if edge.2 = representative then d.amount.toNat else 0) g.edges

/-- Everything that adds up a stake has the exact sum, capped, and a snapshot counts the
representatives that have stake. -/
structure StakesAgree (g : DelegationGraph) : Prop where
  snapshot : ∀ o r, ((g.snapshot o).totalFor r).toNat = min (g.stake r) u64Max
  live : ∀ o r, (g.totalForRepresentative o r).toNat = min (g.stake r) u64Max
  listed : ∀ delegations r, delegations.Perm (g.edges.entries.map fun e ↦ e.2) →
    (totalDelegatedStake r delegations).toNat = min (g.stake r) u64Max
  count : ∀ o, (g.snapshot o).representativeCount = {r | g.stake r ≠ 0}.ncard

/-- No representative has nothing but edges of amount zero. -/
def Endowed (g : DelegationGraph) : Prop :=
  ∀ edge d, g.edges.lookup edge = some d →
    ∃ edge' d', g.edges.lookup edge' = some d' ∧ edge'.2 = edge.2 ∧ d'.amount ≠ 0

variable {g g' : DelegationGraph} {o : IterOrder (String × String) Delegation} {r : String}
  {l : List Delegation}

/-! ## Sums over delegations -/

/-- What a list of delegations gives to a representative. -/
def received (l : List Delegation) (r : String) : ℕ :=
  UInt64.exactSum ((l.filter fun d ↦ d.representative = r).map Delegation.amount)

theorem received_cons (d : Delegation) (l : List Delegation) (r : String) :
    received (d :: l) r = (if d.representative = r then d.amount.toNat else 0) + received l r := by
  rw [received, List.filter_cons]
  split
  · rename_i h
    rw [if_pos (of_decide_eq_true h), List.map_cons, UInt64.exactSum_cons, received]
  · rename_i h
    rw [if_neg fun heq ↦ h (decide_eq_true heq), Nat.zero_add, received]

theorem received_perm {l' : List Delegation} (h : l.Perm l') (r : String) :
    received l r = received l' r :=
  (((h.filter _).map _).map _).sum_eq

/-- **The list** is added up exactly, and capped. -/
theorem toNat_totalDelegatedStake (r : String) (l : List Delegation) :
    (totalDelegatedStake r l).toNat = min (received l r) u64Max := by
  rw [totalDelegatedStake, UInt64.toNat_foldl_saturatingAdd, UInt64.toNat_zero, Nat.zero_add,
    received]

theorem values_perm (o : IterOrder (String × String) Delegation) (g : DelegationGraph) :
    (g.values o).Perm (g.edges.entries.map fun e ↦ e.2) := (o.arrange_perm _).map _

/-- The records of a consistent graph give each representative its stake. -/
theorem Consistent.received_eq (h : Consistent g)
    (hl : l.Perm (g.edges.entries.map fun e ↦ e.2)) (r : String) : received l r = g.stake r := by
  have hown : ∀ e ∈ g.edges.entries, e.1.2 = e.2.representative := fun e he ↦
    congrArg Prod.snd (h.own e.1 e.2 (AList.mem_lookup_iff.mpr he))
  rw [received_perm hl, stake, HashMap.total]
  generalize g.edges.entries = es at hown ⊢
  induction es with
  | nil => rfl
  | cons e es ih =>
    rw [List.map_cons, received_cons, List.map_cons, List.sum_cons, hown e List.mem_cons_self,
      ih fun e he ↦ hown e (List.mem_cons_of_mem _ he)]

/-! ## Snapshots -/

theorem tally_eq (totals : HashMap String UInt64) (d : Delegation) :
    tally totals d = totals.insert d.representative
      (((totals.lookup d.representative).getD 0).saturatingAdd d.amount) := by
  rw [tally, HashMap.lookup_orInsert_self, Option.getD_some, HashMap.insert_orInsert]

/-- **One record** adds its amount to the total of its representative. -/
theorem reading_tally (totals : HashMap String UInt64) (d : Delegation) (r : String) :
    (tally totals d).reading r =
      min (totals.reading r + if d.representative = r then d.amount.toNat else 0) u64Max := by
  rw [tally_eq]
  by_cases h : d.representative = r
  · subst h
    rw [if_pos rfl, HashMap.reading, AList.lookup_insert, Option.getD_some,
      UInt64.toNat_saturatingAdd, HashMap.reading]
  · rw [if_neg h, Nat.add_zero, HashMap.reading, AList.lookup_insert_ne (Ne.symm h),
      ← HashMap.reading, HashMap.reading, Nat.min_eq_left (UInt64.toNat_le_u64Max _)]

theorem reading_foldl_tally (l : List Delegation) (totals : HashMap String UInt64) (r : String) :
    (l.foldl tally totals).reading r = min (totals.reading r + received l r) u64Max := by
  induction l generalizing totals with
  | nil =>
    rw [List.foldl_nil, HashMap.reading]
    exact (Nat.min_eq_left (UInt64.toNat_le_u64Max _)).symm
  | cons d l ih =>
    rw [List.foldl_cons, ih, reading_tally, received_cons]
    omega

theorem mem_foldl_tally (l : List Delegation) (totals : HashMap String UInt64) (r : String) :
    r ∈ l.foldl tally totals ↔ r ∈ totals ∨ ∃ d ∈ l, d.representative = r := by
  induction l generalizing totals with
  | nil => simp
  | cons d l ih =>
    rw [List.foldl_cons, ih, tally_eq, AList.mem_insert, List.exists_mem_cons_iff, or_assoc,
      or_left_comm, eq_comm]

/-- **A snapshot** has the stake of each representative. -/
theorem Consistent.toNat_totalFor (h : Consistent g) (o : IterOrder (String × String) Delegation)
    (r : String) : ((g.snapshot o).totalFor r).toNat = min (g.stake r) u64Max := by
  have hreading := reading_foldl_tally (g.values o) ∅ r
  rw [HashMap.reading_of_notMem (AList.notMem_empty r), Nat.zero_add,
    h.received_eq (values_perm o g)] at hreading
  exact hreading

/-! ## Counting representatives -/

/-- The representatives of the edges. -/
def representatives (g : DelegationGraph) : Finset String := (g.edges.keys.map Prod.snd).toFinset

theorem mem_representatives :
    r ∈ g.representatives ↔ ∃ edge d, g.edges.lookup edge = some d ∧ edge.2 = r := by
  rw [representatives, List.mem_toFinset, List.mem_map]
  constructor
  · rintro ⟨edge, hedge, rfl⟩
    obtain ⟨d, hd⟩ := HashMap.exists_lookup (AList.mem_keys.mpr hedge)
    exact ⟨edge, d, hd, rfl⟩
  · rintro ⟨edge, d, hd, rfl⟩
    exact ⟨edge, AList.mem_keys.mp (HashMap.mem_of_lookup hd), rfl⟩

/-- **The snapshot counts the representatives** of the edges. -/
theorem Consistent.representativeCount_eq (h : Consistent g)
    (o : IterOrder (String × String) Delegation) :
    (g.snapshot o).representativeCount = g.representatives.card := by
  have hkeys : (g.snapshot o).totals.keys.toFinset = g.representatives := by
    ext r
    rw [List.mem_toFinset, ← AList.mem_keys, snapshot, mem_foldl_tally, mem_representatives,
      or_iff_right (AList.notMem_empty r)]
    constructor
    · rintro ⟨d, hd, rfl⟩
      obtain ⟨e, he, rfl⟩ := List.mem_map.mp ((values_perm o g).mem_iff.mp hd)
      have hlookup := AList.mem_lookup_iff.mpr he
      exact ⟨e.1, e.2, hlookup, congrArg Prod.snd (h.own e.1 e.2 hlookup)⟩
    · rintro ⟨edge, d, hlookup, rfl⟩
      refine ⟨d, (values_perm o g).mem_iff.mpr (List.mem_map.mpr ⟨⟨edge, d⟩, ?_, rfl⟩), ?_⟩
      · exact AList.mem_lookup_iff.mp hlookup
      · exact (congrArg Prod.snd (h.own edge d hlookup)).symm
  rw [DelegationSnapshot.representativeCount, HashMap.size_eq_length_keys, ← hkeys,
    List.toFinset_card_of_nodup (AList.keys_nodup _)]

/-- A representative has stake when one of its edges has. -/
theorem stake_ne_zero_iff :
    g.stake r ≠ 0 ↔ ∃ edge d, g.edges.lookup edge = some d ∧ edge.2 = r ∧ d.amount ≠ 0 := by
  rw [stake, HashMap.total, Ne, List.sum_eq_zero_iff]
  constructor
  · intro hnot
    by_contra hnone
    refine hnot fun n hn ↦ ?_
    obtain ⟨e, he, rfl⟩ := List.mem_map.mp hn
    refine ite_eq_right_iff.mpr fun hr ↦ by_contra fun hamount ↦ hnone ?_
    refine ⟨e.1, e.2, AList.mem_lookup_iff.mpr he, hr, fun hzero ↦ hamount ?_⟩
    rw [hzero, UInt64.toNat_zero]
  · rintro ⟨edge, d, hlookup, hr, hamount⟩ hall
    have hzero := hall _ (List.mem_map.mpr ⟨⟨edge, d⟩, AList.mem_lookup_iff.mp hlookup, rfl⟩)
    rw [if_pos hr] at hzero
    exact hamount (UInt64.toNat_inj.mp hzero)

theorem ncard_stake_ne_zero (g : DelegationGraph) :
    {r | g.stake r ≠ 0}.ncard = (g.representatives.filter fun r ↦ g.stake r ≠ 0).card := by
  rw [← Set.ncard_coe_finset]
  congr 1
  ext r
  rw [Set.mem_ofPred_eq, Finset.mem_coe, Finset.mem_filter, mem_representatives]
  refine (and_iff_right_of_imp fun hstake ↦ ?_).symm
  obtain ⟨edge, d, hlookup, hr, -⟩ := stake_ne_zero_iff.mp hstake
  exact ⟨edge, d, hlookup, hr⟩

/-- **The totals agree**, and the count does if no representative is without stake. -/
theorem Consistent.stakesAgree_iff (h : Consistent g) : StakesAgree g ↔ Endowed g := by
  constructor
  · intro hagree edge d hlookup
    have hcount := hagree.count (.asListed _ _)
    rw [h.representativeCount_eq, ncard_stake_ne_zero] at hcount
    have hall := Finset.card_filter_eq_iff.mp hcount.symm
    obtain ⟨edge', d', hlookup', hr, hamount⟩ :=
      stake_ne_zero_iff.mp (hall edge.2 (mem_representatives.mpr ⟨edge, d, hlookup, rfl⟩))
    exact ⟨edge', d', hlookup', hr, hamount⟩
  · intro hendowed
    refine ⟨h.toNat_totalFor, fun o r ↦ ?_, fun delegations r hperm ↦ ?_, fun o ↦ ?_⟩
    · rw [← h.received_eq (values_perm o g)]
      exact toNat_totalDelegatedStake r (g.values o)
    · rw [toNat_totalDelegatedStake, h.received_eq hperm]
    · rw [h.representativeCount_eq, ncard_stake_ne_zero, Finset.filter_true_of_mem]
      intro r hr
      obtain ⟨edge, d, hlookup, rfl⟩ := mem_representatives.mp hr
      exact stake_ne_zero_iff.mpr (hendowed edge d hlookup)

/-! ## Runs -/

variable {K : Crypto} {tr : List Handled}

/-- Every record was accepted by a call of the run. -/
theorem exists_delegate_of_run (run : (system K).Run tr g) {edge : String × String}
    {d : Delegation} (hlookup : g.edges.lookup edge = some d) :
    (⟨.delegate d, .ok ()⟩ : Handled) ∈ tr := by
  revert edge d
  refine run.invariant (I := fun tr g ↦ ∀ {edge : String × String} {d : Delegation},
    g.edges.lookup edge = some d → (⟨.delegate d, .ok ()⟩ : Handled) ∈ tr) ?_ ?_
  · rintro g rfl edge d hlookup
    cases hlookup
  rintro tr g ⟨request, result⟩ g' - ih ⟨o, hexec⟩ edge d hlookup
  -- an accepted delegation is the only record that a call adds
  have hinsert : ∀ {d' : Delegation},
      (g.edges.insert (d'.delegator, d'.representative) d').lookup edge = some d →
        d = d' ∨ g.edges.lookup edge = some d := by
    intro d' hd
    by_cases hedge : edge = (d'.delegator, d'.representative)
    · rw [hedge, AList.lookup_insert] at hd
      exact Or.inl (Option.some_inj.mp hd).symm
    · rw [AList.lookup_insert_ne hedge] at hd
      exact Or.inr hd
  rw [List.mem_append, List.mem_singleton]
  rcases request with d' | rev
  · rcases delegate_cases hexec with ⟨-, -, rfl⟩ | ⟨-, -, rfl, rfl⟩ | ⟨-, -, _, -, hnew⟩
    · exact Or.inl (ih hlookup)
    · exact (hinsert hlookup).elim (fun heq ↦ Or.inr (heq ▸ rfl)) fun hold ↦ Or.inl (ih hold)
    · rcases hnew with ⟨-, rfl, rfl⟩ | ⟨-, -, rfl⟩
      · exact (hinsert hlookup).elim (fun heq ↦ Or.inr (heq ▸ rfl)) fun hold ↦ Or.inl (ih hold)
      · exact Or.inl (ih hlookup)
  · rcases revoke_cases hexec with ⟨-, rfl⟩ | ⟨-, -, -, rfl⟩
    · exact Or.inl (ih hlookup)
    · rw [withoutEdge] at hlookup
      by_cases hedge : edge = (rev.delegator, rev.representative)
      · rw [hedge, AList.lookup_erase] at hlookup
        cases hlookup
      · rw [AList.lookup_erase_ne hedge] at hlookup
        exact Or.inl (ih hlookup)

/-- **Snapshots agree with the live graph**, in their count exactly when no representative has
nothing but edges of amount zero. In a run that accepts no delegation of amount zero that is always
so. -/
theorem stakesAgree_iff_of_run (run : (system K).Run tr g) :
    (StakesAgree g ↔ Endowed g) ∧
      ((∀ d, (⟨.delegate d, .ok ()⟩ : Handled) ∈ tr → d.amount ≠ 0) → StakesAgree g) := by
  have h := (consistent_of_run run).stakesAgree_iff
  refine ⟨h, fun hpositive ↦ h.mpr fun edge d hlookup ↦ ⟨edge, d, hlookup, rfl, ?_⟩⟩
  exact hpositive d (exists_delegate_of_run run hlookup)

/-- Two delegations of one unit. -/
theorem stakesAgree_row :
    (StakesAgree (row.foldl withEdge new) ↔ Endowed (row.foldl withEdge new)) ∧
      StakesAgree (row.foldl withEdge new) := by
  have h := stakesAgree_iff_of_run (run_row Reference.crypto)
  refine ⟨h.1, h.2 fun d hd ↦ ?_⟩
  obtain ⟨d', hd', heq⟩ := List.mem_map.mp hd
  obtain ⟨⟨delegator, representative⟩, -, rfl⟩ := List.mem_map.mp hd'
  cases heq
  exact (by decide : (1 : UInt64) ≠ 0)

/-- A delegation of nothing. -/
def emptyDelegation : Delegation := ⟨"alice", "bob", 0, 0⟩

/-- The snapshot counts its representative. -/
theorem not_stakesAgree_empty : ∃ tr g, (system Reference.crypto).Run tr g ∧ ¬ StakesAgree g := by
  have hadmitted : Admitted (.ascending _ _) new [emptyDelegation] := by decide +kernel
  refine ⟨_, _, run_of_admitted (.start rfl) hadmitted, fun hagree ↦ ?_⟩
  have hcount := hagree.count (.asListed _ _)
  have hstake : ∀ r, ([emptyDelegation].foldl withEdge new).stake r = 0 := by
    intro r
    by_contra hne
    obtain ⟨edge, d, hlookup, -, hamount⟩ := stake_ne_zero_iff.mp hne
    have hmem := AList.mem_lookup_iff.mp hlookup
    obtain rfl : d = emptyDelegation := congrArg (fun e ↦ e.2) (List.mem_singleton.mp hmem)
    exact hamount rfl
  have hnone : {r | ([emptyDelegation].foldl withEdge new).stake r ≠ 0} = ∅ :=
    Set.eq_empty_iff_forall_notMem.mpr fun r hr ↦ hr (hstake r)
  rw [hnone, Set.ncard_empty] at hcount
  exact absurd hcount (by decide +kernel)

end DelegationGraph

end Arxia
