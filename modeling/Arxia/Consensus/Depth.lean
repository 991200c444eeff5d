import Arxia.Consensus.Acceptance

/-!
# The depth of delegation chains

The search bounds the walks that start at the new representative. A new edge also joins these to the
walks that end at the delegator, which nothing looks at: a chain that is added from its top end has
a representative without delegations of its own at each step, and grows without a bound.
-/

namespace Arxia

open Rust Transition Graph

namespace DelegationGraph

/-- There is nothing to search for, no walk from the representative is too long, or none is short
enough. -/
def Steady (g : DelegationGraph) (d : Delegation) : Prop :=
  d.delegator = d.representative ∨ (d.delegator, d.representative) ∈ g.edges ∨
    Free g.Delegates d.representative d.delegator MAX_DELEGATION_DEPTH ∨
    Barred g.Delegates d.representative d.delegator MAX_DELEGATION_DEPTH

/-- The delegation adds no edge whatever the order of the sets, or the walks that it joins are short
enough. -/
def Fits (g : DelegationGraph) (d : Delegation) : Prop :=
  d.delegator = d.representative ∨ (d.delegator, d.representative) ∈ g.edges ∨
    Barred g.Delegates d.representative d.delegator MAX_DELEGATION_DEPTH ∨
    ∀ m n u v, Walk g.Delegates m u d.delegator → Walk g.Delegates n d.representative v →
      m + 1 + n ≤ MAX_DELEGATION_DEPTH

variable {K : Crypto} {g g' : DelegationGraph} {o : SetOrder String String} {d : Delegation}

/-- **One delegation.** -/
theorem Consistent.bounded_of_fits (h : Consistent g)
    (hbounded : Bounded MAX_DELEGATION_DEPTH g.Delegates) (hfits : Fits g d)
    {result : Except DelegationError Unit}
    (hexec : (delegate o d).exec g = some (result, g')) :
    Bounded MAX_DELEGATION_DEPTH g'.Delegates := by
  rcases delegate_cases hexec with ⟨-, -, rfl⟩ | ⟨-, hmem, -, rfl⟩ | ⟨hself, hnew, _, hsearch, hadd⟩
  · exact hbounded
  · refine hbounded.mono fun a b hedge ↦ ?_
    rcases (AList.mem_insert _).mp hedge with heq | hold
    · obtain ⟨rfl, rfl⟩ := Prod.mk.inj heq
      exact hmem
    · exact hold
  · rcases hadd with ⟨rfl, -, rfl⟩ | ⟨-, -, rfl⟩
    · have hclear : Cleared g.Delegates d.representative d.delegator MAX_DELEGATION_DEPTH :=
        h.means hsearch
      rw [delegates_withEdge, bounded_addEdge_iff hbounded hclear.not_reaches]
      -- the search has cleared the delegation, so that it fits can only be by the last case
      rcases hfits with heq | hold | hbarred | hjoins
      · exact absurd heq hself
      · exact absurd hold hnew
      · exact absurd hclear hbarred.not_cleared
      · exact hjoins
    · exact hbounded

/-- A delegation that does not fit is accepted in every order where it is in one, and a chain is too
long then. -/
theorem Consistent.not_bounded (h : Consistent g)
    (hbounded : Bounded MAX_DELEGATION_DEPTH g.Delegates) (hsteady : Steady g d)
    (hfits : ¬ Fits g d) {result : Except DelegationError Unit}
    (hexec : (delegate o d).exec g = some (result, g')) :
    ¬ Bounded MAX_DELEGATION_DEPTH g'.Delegates := by
  simp only [Fits, not_or] at hfits
  obtain ⟨hself, hnew, hbarred, hjoins⟩ := hfits
  have hfree : Free g.Delegates d.representative d.delegator MAX_DELEGATION_DEPTH := by
    rcases hsteady with heq | hold | hfree | hbarred'
    · exact absurd heq hself
    · exact absurd hold hnew
    · exact hfree
    · exact absurd hbarred' hbarred
  have haccepts : Accepts o g d := h.forall_accepts_iff.mpr ⟨hself, Or.inr hfree⟩ o
  rcases delegate_eq hexec with ⟨-, -, rfl⟩ | ⟨hrejects, -, -⟩
  · rw [withDelegation, if_neg hnew, delegates_withEdge, bounded_addEdge_iff hbounded hfree.1]
    exact hjoins
  · exact absurd haccepts hrejects

/-- **No chain is too long** as long as every delegation fits; and the first that does not fit makes
one that is. -/
theorem bounded_of_run (K : Crypto) :
    (∀ tr g, ((system K).restrict fun g a ↦ ∀ d, a.request = .delegate d → Fits g d).Run tr g →
      Bounded MAX_DELEGATION_DEPTH g.Delegates) ∧
    ∀ tr g d o result g', (system K).Run tr g → Bounded MAX_DELEGATION_DEPTH g.Delegates →
      Steady g d → ¬ Fits g d → (delegate o d).exec g = some (result, g') →
      ¬ Bounded MAX_DELEGATION_DEPTH g'.Delegates := by
  constructor
  · intro tr g run
    refine run.invariant (I := fun _ g ↦ Bounded MAX_DELEGATION_DEPTH g.Delegates) ?_ ?_
    · rintro g rfl (_ | n) a b hwalk
      · exact Nat.zero_le _
      · exact absurd hwalk not_walk_new
    · rintro tr g ⟨request, result⟩ g' run hbounded ⟨hfits, o, hexec⟩
      rcases request with d | rev
      · exact (consistent_of_run run.of_restrict).bounded_of_fits hbounded (hfits d rfl) hexec
      · -- fewer edges have fewer walks
        rcases revoke_cases hexec with ⟨-, rfl⟩ | ⟨-, -, -, rfl⟩
        · exact hbounded
        · exact hbounded.mono fun a b hedge ↦ (AList.mem_erase.mp hedge).2
  · intro tr g d o result g' run hbounded hsteady hfits hexec
    exact (consistent_of_run run).not_bounded hbounded hsteady hfits hexec

/-- Where all edges go up in a few ranks, every walk is short. -/
theorem fits_of_rank {ρ : String → ℕ} (hup : ∀ a b, g.Delegates a b → ρ a < ρ b)
    (hd : ρ d.delegator < ρ d.representative) (hρ : ∀ u, ρ u ≤ MAX_DELEGATION_DEPTH) :
    Fits g d := by
  refine Or.inr (Or.inr (Or.inr fun m n u v hm hn ↦ ?_))
  have hbefore := hm.add_le hup
  have hafter := hn.add_le hup
  have hlast := hρ v
  omega

/-- Two rows of three nodes, and then the edge from the one to the other. -/
def joined : List Delegation :=
  units [("b", "c"), ("a", "b"), ("e", "f"), ("d", "e"), ("c", "d")]

theorem bounded_of_run_joined :
    Bounded MAX_DELEGATION_DEPTH (joined.foldl withEdge new).Delegates := by
  have hadmitted : Admitted (.ascending _ _) new joined := by decide +kernel
  refine (bounded_of_run Reference.crypto).1 _ _ (restrict_of_admitted
    (ρ := fun u ↦ ["a", "b", "c", "d", "e", "f"].idxOf u) hadmitted (by decide) fun g d hup hd ↦ ?_)
  exact fits_of_rank hup hd fun u ↦ List.idxOf_le_length.trans (by decide)

/-- A node of the chain below. -/
def chainNode (i : ℕ) : String := "c" ++ i.repr

/-- A chain of nine delegations, from the top down. -/
def chain : List Delegation :=
  units ((List.range 9).map fun i ↦ (chainNode i, chainNode (i + 1)))

/-- **Nine in a row**, one by one. -/
theorem not_bounded_of_run : ¬ ∀ tr g, (system Reference.crypto).Run tr g →
    Bounded MAX_DELEGATION_DEPTH g.Delegates := by
  intro h
  have hadmitted : Admitted (.ascending _ _) new chain := by decide +kernel
  have hedges : ∀ i < 9, (chainNode i, chainNode (i + 1)) ∈ (chain.foldl withEdge new).edges := by
    decide +kernel
  have hwalk : Walk (chain.foldl withEdge new).Delegates 9 (chainNode 0) (chainNode 9) :=
    walk_of_path chainNode hedges (Nat.zero_add 9).le
  exact absurd (h _ _ (run_of_admitted (.start rfl) hadmitted) 9 _ _ hwalk) (by decide)

end DelegationGraph

end Arxia
