import Arxia.Consensus.Delegation

/-!
# What an acceptance depends on

The search meets a node at the depth of the walk it happens to have taken, and does not expand it
again when it comes back by a longer one. So where two walks lead to a node and only the longer one
takes the nodes behind it out of bounds, the order of the sets decides whether that is noticed.

The orders are the depth-first trees from the representative: every order grows one, and every tree
is grown by some order. So some order rejects a new delegation where a walk leads back or is too
long, some order accepts it where `Cleared` has a tree, and the order does not matter exactly where
these exclude each other.
-/

namespace Arxia

open Rust Transition Graph

namespace DelegationGraph

/-- `delegate` accepts the delegation. -/
def Accepts (o : SetOrder String String) (g : DelegationGraph) (d : Delegation) : Prop :=
  ∃ g', (delegate o d).exec g = some (.ok (), g')

/-- There is nothing to search for; or no walk from the representative leads back or is too long; or
every full depth-first tree has the delegator in it, or out of bounds a node that has an edge. -/
def Settled (g : DelegationGraph) (d : Delegation) : Prop :=
  d.delegator = d.representative ∨ (d.delegator, d.representative) ∈ g.edges ∨
    Free g.Delegates d.representative d.delegator MAX_DELEGATION_DEPTH ∨
    ¬ Cleared g.Delegates d.representative d.delegator MAX_DELEGATION_DEPTH

/-- The graph after a delegation that was accepted. -/
def withDelegation (g : DelegationGraph) (d : Delegation) : DelegationGraph :=
  if (d.delegator, d.representative) ∈ g.edges then
    { g with edges := g.edges.insert (d.delegator, d.representative) d }
  else g.withEdge d

variable {K : Crypto} {g g' : DelegationGraph} {o o' : SetOrder String String} {d : Delegation}

/-- What a call of `delegate` did, by whether it accepts. -/
theorem delegate_eq {result : Except DelegationError Unit}
    (hexec : (delegate o d).exec g = some (result, g')) :
    Accepts o g d ∧ result.toOption = some () ∧ g' = g.withDelegation d ∨
      ¬ Accepts o g d ∧ result.toOption = none ∧ g' = g := by
  have hnot : (∃ e, result = .error e) → ¬ Accepts o g d := by
    rintro ⟨e, rfl⟩ ⟨g'', hexec'⟩
    cases hexec.symm.trans hexec'
  rcases delegate_cases hexec with ⟨-, herror, rfl⟩ | ⟨-, hmem, rfl, rfl⟩ | ⟨-, hmem, _, -, hnew⟩
  · refine Or.inr ⟨hnot herror, ?_, rfl⟩
    obtain ⟨e, rfl⟩ := herror
    rfl
  · exact Or.inl ⟨⟨_, hexec⟩, rfl, (if_pos hmem).symm⟩
  · rcases hnew with ⟨-, rfl, rfl⟩ | ⟨-, herror, rfl⟩
    · exact Or.inl ⟨⟨_, hexec⟩, rfl, (if_neg hmem).symm⟩
    · refine Or.inr ⟨hnot herror, ?_, rfl⟩
      obtain ⟨e, rfl⟩ := herror
      rfl

/-- A delegation is accepted if it is no new edge, or if the search clears it. -/
theorem accepts_iff : Accepts o g d ↔ d.delegator ≠ d.representative ∧
    ((d.delegator, d.representative) ∈ g.edges ∨
      search (g.neighbors o) d.delegator MAX_DELEGATION_DEPTH g.searchFuel
        [(d.representative, 0)] ∅ = some .clear) := by
  obtain ⟨outcome, hsearch, hexec⟩ := exec_delegate g o d
  rw [Accepts, hexec, hsearch]
  by_cases hself : d.delegator = d.representative
  · simp [hself]
  by_cases hmem : (d.delegator, d.representative) ∈ g.edges
  · simp [hself, hmem]
  · rcases outcome with _ | _ | depth <;> simp [hself, hmem]

/-! ## Where the order does not matter -/

/-- Whatever the order, the search says what the edges say. -/
theorem Consistent.accepts_iff_of_settled (h : Consistent g) (hsettled : Settled g d) :
    Accepts o g d ↔ d.delegator ≠ d.representative ∧
      ((d.delegator, d.representative) ∈ g.edges ∨
        Free g.Delegates d.representative d.delegator MAX_DELEGATION_DEPTH) := by
  obtain ⟨outcome, hsearch⟩ :=
    g.exists_outcome o d.representative d.delegator MAX_DELEGATION_DEPTH
  have hmeans := h.means hsearch
  rw [accepts_iff, hsearch, Option.some_inj]
  refine and_congr_right fun hself ↦ or_congr_right' fun hmem ↦
    ⟨fun hclear ↦ ?_, fun hfree ↦ hmeans.eq_clear hfree⟩
  rcases hsettled with heq | hold | hfree | hnone
  · exact absurd heq hself
  · exact absurd hold hmem
  · exact hfree
  · rw [hclear] at hmeans
    exact absurd hmeans hnone

/-- Graphs with the same edges make the same decision. -/
theorem Consistent.accepts_congr (h : Consistent g) (h' : Consistent g')
    (hsame : g'.Delegates = g.Delegates) (hsettled : Settled g d) :
    Accepts o g d ↔ Accepts o' g' d := by
  have hmem : (d.delegator, d.representative) ∈ g'.edges ↔
      (d.delegator, d.representative) ∈ g.edges :=
    Iff.of_eq (congrFun (congrFun hsame d.delegator) d.representative)
  have hsettled' : Settled g' d := by
    rw [Settled, hmem, hsame]
    exact hsettled
  rw [h.accepts_iff_of_settled hsettled, h'.accepts_iff_of_settled hsettled', hmem, hsame]

/-! ## Accepted in every order -/

/-- Some order leads the search along a walk that is too long. -/
theorem Consistent.exists_not_accepts (h : Consistent g)
    (hnew : (d.delegator, d.representative) ∉ g.edges) {u : String}
    (hwalk : Walk g.Delegates MAX_DELEGATION_DEPTH d.representative u) :
    ∃ o, ¬ Accepts o g d := by
  obtain ⟨path, hstart, hpath⟩ := hwalk.exists_path
  obtain ⟨next, hnext⟩ := h.acyclic.exists_next hpath
  refine ⟨(SetOrder.ascending _ _).endingIn next, fun haccepts ↦ ?_⟩
  obtain ⟨-, hmem | hclear⟩ := accepts_iff.mp haccepts
  · exact hnew hmem
  -- the search pops the nodes of the walk one after the other
  rw [← hstart] at hclear
  refine search_ne_clear (fun i hi ↦ ?_) (fun i j ↦ h.acyclic.path_ne hpath) (Nat.zero_le _)
    (fun j _ _ ↦ Finset.notMem_empty _) hclear
  obtain ⟨s, hs, hmem⟩ := (h.mem_iff _ _).mp (hpath i hi)
  rw [neighbors, hs, Option.elim_some, ← hnext i hi]
  rw [← hnext i hi] at hmem
  exact SetOrder.getLast?_endingIn _ _ hmem

/-- **Every order accepts** a new delegation only where no walk leads back and none is too long. -/
theorem Consistent.forall_accepts_iff (h : Consistent g) :
    (∀ o, Accepts o g d) ↔ d.delegator ≠ d.representative ∧
      ((d.delegator, d.representative) ∈ g.edges ∨
        Free g.Delegates d.representative d.delegator MAX_DELEGATION_DEPTH) := by
  constructor
  · intro haccepts
    obtain ⟨hself, hclear⟩ := accepts_iff.mp (haccepts (.ascending _ _))
    refine ⟨hself, or_iff_not_imp_left.mpr fun hnew ↦ ⟨?_, fun u hwalk ↦ ?_⟩⟩
    · exact Cleared.not_reaches (h.means (hclear.resolve_left hnew))
    · obtain ⟨o, hrejects⟩ := h.exists_not_accepts hnew hwalk
      exact hrejects (haccepts o)
  · rintro ⟨hself, hmem | hfree⟩ o
    · exact accepts_iff.mpr ⟨hself, Or.inl hmem⟩
    · exact (h.accepts_iff_of_settled (Or.inr (Or.inr (Or.inl hfree)))).mpr ⟨hself, Or.inr hfree⟩

/-! ## Accepted in some order -/

/-- **Some order accepts** what a depth-first tree clears: the one that has the nodes of each set as
the tree has them. -/
theorem Consistent.exists_accepts (h : Consistent g) (hself : d.delegator ≠ d.representative)
    (hcleared : Cleared g.Delegates d.representative d.delegator MAX_DELEGATION_DEPTH) :
    ∃ o, Accepts o g d := by
  obtain ⟨tree, htree, htarget, hclosed⟩ := hcleared
  let o : SetOrder String String := (SetOrder.ascending _ _).following (nodes tree) htree.nodup
  refine ⟨o, accepts_iff.mpr ⟨hself, Or.inr ?_⟩⟩
  obtain ⟨outcome, hsearch⟩ :=
    g.exists_outcome o d.representative d.delegator MAX_DELEGATION_DEPTH
  rw [hsearch, Option.some_inj]
  rw [← h.adjacent_eq o] at htree hclosed
  refine eq_clear_of_search htree (fun e he ↦ ?_) htarget hclosed (by decide) hsearch
  rw [neighbors]
  rcases hlookup : g.adjacency.lookup e.1 with _ | s
  · simp
  · have hmem : ∀ x ∈ s, x ∈ nodes tree := fun x hx ↦
      (hclosed e he x (mem_neighbors.mpr ⟨s, hlookup, hx⟩)).1
    rw [Option.elim_some, SetOrder.arrange_following _ _ _ hmem]
    exact List.filter_congr fun x hx ↦ by simp [hx]

/-- **The order does not matter** exactly where the delegation is settled. -/
theorem Consistent.settled_of_forall (h : Consistent g)
    (hsame : ∀ o o', Accepts o g d ↔ Accepts o' g d) : Settled g d := by
  by_contra hnot
  simp only [Settled, not_or, not_not] at hnot
  obtain ⟨hself, hnew, hfree, hcleared⟩ := hnot
  obtain ⟨o, haccepts⟩ := h.exists_accepts hself hcleared
  have hall := h.forall_accepts_iff.mp fun o' ↦ (hsame o o').mp haccepts
  exact hfree (hall.2.resolve_left hnew)

/-! ## Runs -/

/-- **One call on two nodes.** -/
theorem Consistent.step_congr (h : Consistent g) {a a' : Handled} {g₁ g₁' : DelegationGraph}
    (hrequest : a.request = a'.request) (hsettled : ∀ d, a.request = .delegate d → Settled g d)
    (hstep : (system K).step g a g₁) (hstep' : (system K).step g a' g₁') :
    g₁' = g₁ ∧ a'.result.toOption = a.result.toOption := by
  obtain ⟨request, result⟩ := a
  obtain ⟨_, result'⟩ := a'
  obtain rfl : request = _ := hrequest
  obtain ⟨o, hexec⟩ := hstep
  obtain ⟨o', hexec'⟩ := hstep'
  rcases request with d | rev
  · have hsame : Accepts o g d ↔ Accepts o' g d := h.accepts_congr h rfl (hsettled d rfl)
    rcases delegate_eq hexec with ⟨haccepts, hresult, rfl⟩ | ⟨hrejects, hresult, rfl⟩
    · rcases delegate_eq hexec' with ⟨-, hresult', rfl⟩ | ⟨hrejects, -, -⟩
      · exact ⟨rfl, hresult'.trans hresult.symm⟩
      · exact absurd (hsame.mp haccepts) hrejects
    · rcases delegate_eq hexec' with ⟨haccepts, -, -⟩ | ⟨-, hresult', rfl⟩
      · exact absurd (hsame.mpr haccepts) hrejects
      · exact ⟨rfl, hresult'.trans hresult.symm⟩
  · -- no set is iterated
    obtain ⟨rfl, rfl⟩ := Prod.mk.inj (Option.some_inj.mp (hexec.symm.trans hexec'))
    exact ⟨rfl, rfl⟩

/-- **Nodes decide alike** on every graph with the same edges and in every order exactly where the
delegation is settled; and in the course of whole runs on the same requests if it always is. -/
theorem decides_alike (K : Crypto) :
    (∀ tr g d, (system K).Run tr g →
      ((∀ tr' g' o o', (system K).Run tr' g' → (∀ e, e ∈ g'.edges ↔ e ∈ g.edges) →
        (Accepts o g d ↔ Accepts o' g' d)) ↔ Settled g d)) ∧
    ∀ tr tr' g g',
      ((system K).restrict fun g a ↦ ∀ d, a.request = .delegate d → Settled g d).Run tr g →
      (system K).Run tr' g' → tr.map Handled.request = tr'.map Handled.request →
      g' = g ∧ tr'.map (fun a ↦ a.result.toOption) = tr.map fun a ↦ a.result.toOption := by
  constructor
  · intro tr g d run
    have hg := consistent_of_run run
    constructor
    · exact fun halike ↦ hg.settled_of_forall fun o o' ↦ halike tr g o o' run fun _ ↦ Iff.rfl
    · intro hsettled tr' g' o o' run' hsame
      refine hg.accepts_congr (consistent_of_run run') ?_ hsettled
      funext a b
      exact propext (hsame (a, b))
  · intro tr tr' g g' run run'
    refine run.pair (I := fun tr tr' g g' ↦ g' = g ∧
      tr'.map (fun a ↦ a.result.toOption) = tr.map fun a ↦ a.result.toOption) ?_ ?_ run'
    · rintro g g' rfl rfl
      exact ⟨rfl, rfl⟩
    · rintro tr tr' g _ a a' g₁ g₁' run - ⟨rfl, hresults⟩ hrequest ⟨hsettled, hstep⟩ hstep'
      obtain ⟨rfl, hresult⟩ := (consistent_of_run run.of_restrict).step_congr hrequest hsettled
        hstep hstep'
      refine ⟨rfl, ?_⟩
      rw [List.map_append, List.map_append, hresults, List.map_singleton, List.map_singleton,
        hresult]

/-- Where all edges go up in a few ranks, nothing is too long. -/
theorem settled_of_rank {ρ : String → ℕ} (hup : ∀ a b, g.Delegates a b → ρ a < ρ b)
    (hd : ρ d.delegator < ρ d.representative) (hρ : ∀ u, ρ u < MAX_DELEGATION_DEPTH) :
    Settled g d := by
  refine Or.inr (Or.inr (Or.inl ⟨?_, fun u hwalk ↦ ?_⟩))
  · rintro ⟨n, hwalk⟩
    have hle := hwalk.add_le hup
    omega
  · have hle := hwalk.add_le hup
    have hlt := hρ u
    omega

/-- Two ways of the same length from `s` to `c`, and then an edge to `s`. -/
def diamond : List Delegation :=
  units [("a", "c"), ("b", "c"), ("s", "a"), ("s", "b"), ("t", "s")]

/-- The nodes from the top down. -/
def diamondRank (u : String) : ℕ := ["q", "t", "s", "a", "b", "c"].idxOf u

theorem diamondRank_lt (u : String) : diamondRank u < MAX_DELEGATION_DEPTH :=
  Nat.lt_of_le_of_lt List.idxOf_le_length (by decide)

theorem diamond_up : ∀ d ∈ diamond, diamondRank d.delegator < diamondRank d.representative := by
  decide

theorem run_diamond : ((system Reference.crypto).restrict fun g a ↦
    ∀ d, a.request = .delegate d → Settled g d).Run (diamond.map fun d ↦ ⟨.delegate d, .ok ()⟩)
      (diamond.foldl withEdge new) := by
  have hadmitted : Admitted (.ascending _ _) new diamond := by decide +kernel
  exact restrict_of_admitted hadmitted diamond_up fun g d hup hd ↦
    settled_of_rank hup hd diamondRank_lt

theorem decides_alike_diamond :
    (Accepts (.ascending _ _) (diamond.foldl withEdge new) ⟨"q", "t", 1, 0⟩ ↔
      Accepts (.descending _ _) (diamond.foldl withEdge new) ⟨"q", "t", 1, 0⟩) ∧
      ∀ tr' g', (system Reference.crypto).Run tr' g' →
        diamond.map Request.delegate = tr'.map Handled.request →
        g' = diamond.foldl withEdge new ∧
          tr'.map (fun a ↦ a.result.toOption) = diamond.map fun _ ↦ some () := by
  have run := run_diamond.of_restrict
  have hsettled : Settled (diamond.foldl withEdge new) ⟨"q", "t", 1, 0⟩ :=
    settled_of_rank (lt_of_delegates run (forall_request diamond_up)) (by decide) diamondRank_lt
  refine ⟨((decides_alike Reference.crypto).1 _ _ _ run).mpr hsettled _ _ _ _ run fun _ ↦ Iff.rfl,
    fun tr' g' run' hrequests ↦ ?_⟩
  have halike := (decides_alike Reference.crypto).2 _ tr' _ g' run_diamond run'
  rw [List.map_map, List.map_map] at halike
  exact halike hrequests

/-- Two ways from `s` to `x`, which `y` is behind; the last edge comes first. -/
def detour : List Delegation :=
  units [("x", "y"), ("a6", "x"), ("a5", "a6"), ("a4", "a5"), ("a3", "a4"), ("a2", "a3"),
    ("a1", "a2"), ("s", "x"), ("s", "a1")]

/-- **The order decides** whether the long way or the short one is the first. -/
theorem not_decides_alike : ¬ ∀ tr g d o o', (system Reference.crypto).Run tr g →
    (d.delegator, d.representative) ∉ g.edges → (Accepts o g d ↔ Accepts o' g d) := by
  intro h
  have hadmitted : Admitted (.ascending _ _) new detour := by decide +kernel
  have hsame := h _ _ ⟨"t", "s", 1, 0⟩ (.ascending _ _) (.descending _ _)
    (run_of_admitted (.start rfl) hadmitted) (by decide +kernel)
  rw [accepts_iff, accepts_iff] at hsame
  revert hsame
  decide +kernel

end DelegationGraph

end Arxia
