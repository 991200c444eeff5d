import Arxia.Core.Crypto
import Arxia.Graph.DepthFirst
import Arxia.Rust.Bytes
import Arxia.Rust.Grouping
import Arxia.Rust.UInt64
import Arxia.Transition.Runs

/-!
# Stake delegation

A delegation graph holds the delegations by their two ends, and beside that the set of
representatives of each delegator, which is what the cycle check walks along. A new delegation is
accepted when a depth-first search from the representative does not come across the delegator, and
does not come to `MAX_DELEGATION_DEPTH`; which neighbour it explores first is up to the hash sets.

Whatever the order, a search that clears a delegation has seen all that can be reached, so the graph
stays acyclic; and the two structures always have the same pairs.
-/

namespace Arxia

open Rust Transition Graph

/-- Maximum allowed depth of the delegation chain when checking for cycles. -/
def MAX_DELEGATION_DEPTH : ℕ := 8

/-- Domain-separation prefix for the signature on a `Revocation`. -/
def DELEGATION_REVOCATION_DOMAIN : List UInt8 := asBytes "arxia-delegation-revocation-v1"

/-- Errors returned by `DelegationGraph` operations. -/
inductive DelegationError
  | selfDelegation
  | cycleDetected («from» «to» : String)
  | depthExceeded (depth max : ℕ)
  | invalidRevocationSignature
  | edgeNotFound (delegator representative : String)
  deriving DecidableEq

/-- A delegation record. -/
structure Delegation where
  delegator : String
  representative : String
  amount : UInt64
  createdAt : UInt64
  deriving DecidableEq

/-- A signed revocation of a delegation edge. -/
structure Revocation where
  delegatorPubkey : AccountId
  delegator : String
  representative : String
  nonce : UInt64
  signature : SignatureBytes

namespace Revocation

/-- The bytes that the delegator signs. -/
def canonicalBytes (delegatorPubkey : AccountId) (delegator representative : String)
    (nonce : UInt64) : List UInt8 :=
  DELEGATION_REVOCATION_DOMAIN ++ delegatorPubkey.toList ++ asBytes delegator ++
    asBytes representative ++ leBytes 8 nonce.toNat

/-- Verify the signature. -/
def verify (K : Crypto) (rev : Revocation) : Except DelegationError Unit :=
  (K.verify rev.delegatorPubkey
    (canonicalBytes rev.delegatorPubkey rev.delegator rev.representative rev.nonce)
    rev.signature).mapError fun _ ↦ .invalidRevocationSignature

end Revocation

/-- Delegation graph with cycle detection and signed revocation. -/
structure DelegationGraph where
  /-- The record of each (delegator, representative) pair. -/
  edges : HashMap (String × String) Delegation
  /-- The representatives of each delegator. -/
  adjacency : HashMap String (Finset String)

namespace DelegationGraph

/-- Empty graph. -/
def new : DelegationGraph := ⟨∅, ∅⟩

/-- The representatives of a node in the order in which they are iterated. -/
def neighbors (g : DelegationGraph) (o : SetOrder String String) (node : String) : List String :=
  (g.adjacency.lookup node).elim [] (o.arrange node)

/-- The search pops the start and then no more than the sets hold; see `exists_outcome`. -/
def searchFuel (g : DelegationGraph) : ℕ := 2 + HashMap.total (fun _ s ↦ s.card) g.adjacency

/-- Search from `start`; an error if that reaches `target` or a node at `maxDepth`. -/
def checkNoPathWithinDepth (g : DelegationGraph) (o : SetOrder String String)
    (start target : String) (maxDepth : ℕ) : Fallible DelegationError Unit := do
  let outcome ← Fallible.orPanic
    (search (g.neighbors o) target maxDepth g.searchFuel [(start, 0)] ∅)
  match outcome with
  | .clear => pure ()
  | .found => throw (.cycleDetected target start)
  | .tooDeep depth => throw (.depthExceeded depth maxDepth)

/-- The graph with one more edge. -/
def withEdge (g : DelegationGraph) (d : Delegation) : DelegationGraph where
  adjacency := g.adjacency.insert d.delegator
    (insert d.representative ((g.adjacency.lookup d.delegator).getD ∅))
  edges := g.edges.insert (d.delegator, d.representative) d

/-- Add a delegation edge, or update the one there is. -/
def delegate (o : SetOrder String String) (d : Delegation) :
    Call DelegationGraph DelegationError Unit := do
  Call.ofExcept (ensure (d.delegator ≠ d.representative) .selfDelegation)
  let g ← get
  if (d.delegator, d.representative) ∈ g.edges then
    -- the shape of the graph does not change, so nothing is searched
    set { g with edges := g.edges.insert (d.delegator, d.representative) d }
  else
    Call.ofFallible
      (g.checkNoPathWithinDepth o d.representative d.delegator MAX_DELEGATION_DEPTH)
    set (g.withEdge d)

/-- The graph without an edge. The set of the delegator goes with the last representative. -/
def withoutEdge (g : DelegationGraph) (delegator representative : String) : DelegationGraph where
  edges := g.edges.erase (delegator, representative)
  adjacency := match g.adjacency.lookup delegator with
    | none => g.adjacency
    | some neighbors =>
      if neighbors.erase representative = ∅ then g.adjacency.erase delegator
      else g.adjacency.insert delegator (neighbors.erase representative)

/-- Revoke an edge by a signed revocation. -/
def revoke (K : Crypto) (rev : Revocation) : Call DelegationGraph DelegationError Unit := do
  Call.ofExcept (rev.verify K)
  let g ← get
  Call.ofExcept (ensure ((rev.delegator, rev.representative) ∈ g.edges)
    (.edgeNotFound rev.delegator rev.representative))
  set (g.withoutEdge rev.delegator rev.representative)

/-! ## Graphs whose two structures agree -/

/-- The edges of the graph. -/
def Delegates (g : DelegationGraph) (delegator representative : String) : Prop :=
  (delegator, representative) ∈ g.edges

/-- The structures of a graph have the same pairs, and these form no cycle. -/
structure Consistent (g : DelegationGraph) : Prop where
  mem_iff : ∀ a b, (a, b) ∈ g.edges ↔ ∃ s, g.adjacency.lookup a = some s ∧ b ∈ s
  nonempty : ∀ a s, g.adjacency.lookup a = some s → s ≠ ∅
  /-- Every delegation is stored under its own ends. -/
  own : ∀ key d, g.edges.lookup key = some d → key = (d.delegator, d.representative)
  acyclic : Acyclic g.Delegates

theorem not_walk_new {n : ℕ} {a b : String} : ¬ Walk (Delegates new) (n + 1) a b := by
  rintro (_ | ⟨hedge, _⟩)
  exact AList.notMem_empty _ hedge

theorem consistent_new : Consistent new where
  mem_iff := fun a b ↦ iff_of_false (AList.notMem_empty _) fun ⟨_, hs, _⟩ ↦ by cases hs
  nonempty := fun a s hs ↦ by cases hs
  own := fun key d hd ↦ by cases hd
  acyclic := fun _ _ ↦ not_walk_new

variable {g g' : DelegationGraph} {o : SetOrder String String}

theorem mem_neighbors {a b : String} :
    b ∈ g.neighbors o a ↔ ∃ s, g.adjacency.lookup a = some s ∧ b ∈ s := by
  rw [neighbors]
  rcases g.adjacency.lookup a with _ | s
  · simp
  · simp [o.mem_arrange]

/-- The search walks along the edges, in whatever order. -/
theorem Consistent.adjacent_eq (h : Consistent g) (o : SetOrder String String) :
    Adjacent (g.neighbors o) = g.Delegates := by
  funext a b
  rw [Adjacent, Delegates, mem_neighbors, h.mem_iff]

/-! ## The calls -/

/-- **The search returns**: it pops the start, and each element of a set once at most. -/
theorem exists_outcome (g : DelegationGraph) (o : SetOrder String String) (start target : String)
    (maxDepth : ℕ) : ∃ outcome,
      search (g.neighbors o) target maxDepth g.searchFuel [(start, 0)] ∅ = some outcome := by
  refine exists_search (S := g.adjacency.keys.toFinset) (fun a ha ↦ ?_) ?_
  · have hnone : g.adjacency.lookup a = none := AList.lookup_eq_none.mpr fun hmem ↦
      ha (List.mem_toFinset.mpr (AList.mem_keys.mp hmem))
    rw [neighbors, hnone, Option.elim_none]
  · have hlength : ∀ a, (g.neighbors o a).length =
        (g.adjacency.lookup a).elim 0 fun s ↦ s.card := by
      intro a
      rw [neighbors]
      rcases g.adjacency.lookup a with _ | s
      · rfl
      · exact o.length_arrange a
    simp only [hlength]
    rw [searchFuel, HashMap.total_eq_sum_keys, Finset.sdiff_empty, List.length_singleton]
    omega

/-- **What `delegate` does.** -/
theorem exec_delegate (g : DelegationGraph) (o : SetOrder String String) (d : Delegation) :
    ∃ outcome, search (g.neighbors o) d.delegator MAX_DELEGATION_DEPTH g.searchFuel
        [(d.representative, 0)] ∅ = some outcome ∧
      (delegate o d).exec g = some (
        if d.delegator = d.representative then (.error .selfDelegation, g)
        else if (d.delegator, d.representative) ∈ g.edges then
          (.ok (), { g with edges := g.edges.insert (d.delegator, d.representative) d })
        else match outcome with
          | .clear => (.ok (), g.withEdge d)
          | .found => (.error (.cycleDetected d.delegator d.representative), g)
          | .tooDeep depth => (.error (.depthExceeded depth MAX_DELEGATION_DEPTH), g)) := by
  obtain ⟨outcome, hsearch⟩ :=
    g.exists_outcome o d.representative d.delegator MAX_DELEGATION_DEPTH
  refine ⟨outcome, hsearch, ?_⟩
  rw [delegate]
  by_cases hself : d.delegator = d.representative
  · rw [if_pos hself]
    exact Call.exec_ensure_error (not_not.mpr hself) g
  rw [if_neg hself, Call.exec_ensure_ok hself, Call.exec_bind_ok (Call.exec_get g)]
  by_cases hmem : (d.delegator, d.representative) ∈ g.edges
  · -- the edge is there, and only its record is renewed
    rw [if_pos hmem, if_pos hmem]
    rfl
  · rw [if_neg hmem, if_neg hmem, Call.exec_bind, Call.exec_ofFallible, checkNoPathWithinDepth,
      hsearch]
    rcases outcome with _ | _ | depth <;> rfl

/-- **What `revoke` does.** -/
theorem exec_revoke (K : Crypto) (g : DelegationGraph) (rev : Revocation) :
    (revoke K rev).exec g = some (match rev.verify K with
      | .error e => (.error e, g)
      | .ok _ =>
        if (rev.delegator, rev.representative) ∈ g.edges then
          (.ok (), g.withoutEdge rev.delegator rev.representative)
        else (.error (.edgeNotFound rev.delegator rev.representative), g)) := by
  rw [revoke]
  rcases hverify : rev.verify K with e | _
  · exact Call.exec_check_error rfl g
  · rw [Call.exec_check_ok rfl, Call.exec_bind_ok (Call.exec_get g)]
    dsimp only
    by_cases hmem : (rev.delegator, rev.representative) ∈ g.edges
    · rw [if_pos hmem, Call.exec_ensure_ok hmem]
      rfl
    · rw [if_neg hmem]
      exact Call.exec_ensure_error hmem g

/-- What a call of `delegate` can have done. -/
theorem delegate_cases {d : Delegation} {result : Except DelegationError Unit}
    (hexec : (delegate o d).exec g = some (result, g')) :
    (d.delegator = d.representative ∧ (∃ e, result = .error e) ∧ g' = g) ∨
    (d.delegator ≠ d.representative ∧ (d.delegator, d.representative) ∈ g.edges ∧
      result = .ok () ∧
      g' = { g with edges := g.edges.insert (d.delegator, d.representative) d }) ∨
    d.delegator ≠ d.representative ∧ (d.delegator, d.representative) ∉ g.edges ∧
      ∃ outcome, search (g.neighbors o) d.delegator MAX_DELEGATION_DEPTH g.searchFuel
          [(d.representative, 0)] ∅ = some outcome ∧
        (outcome = .clear ∧ result = .ok () ∧ g' = g.withEdge d ∨
          outcome ≠ .clear ∧ (∃ e, result = .error e) ∧ g' = g) := by
  obtain ⟨outcome, hsearch, hexec'⟩ := exec_delegate g o d
  have hout := Option.some_inj.mp (hexec.symm.trans hexec')
  split at hout
  · rename_i hself
    obtain ⟨rfl, rfl⟩ := Prod.mk.inj hout
    exact Or.inl ⟨hself, ⟨_, rfl⟩, rfl⟩
  rename_i hself
  split at hout
  · rename_i hmem
    obtain ⟨rfl, rfl⟩ := Prod.mk.inj hout
    exact Or.inr (Or.inl ⟨hself, hmem, rfl, rfl⟩)
  rename_i hmem
  refine Or.inr (Or.inr ⟨hself, hmem, outcome, hsearch, ?_⟩)
  rcases outcome with _ | _ | depth
  · obtain ⟨rfl, rfl⟩ := Prod.mk.inj hout
    exact Or.inl ⟨rfl, rfl, rfl⟩
  · obtain ⟨rfl, rfl⟩ := Prod.mk.inj hout
    exact Or.inr ⟨by simp, ⟨_, rfl⟩, rfl⟩
  · obtain ⟨rfl, rfl⟩ := Prod.mk.inj hout
    exact Or.inr ⟨by simp, ⟨_, rfl⟩, rfl⟩

/-- What a call of `revoke` can have done. -/
theorem revoke_cases {K : Crypto} {rev : Revocation} {result : Except DelegationError Unit}
    (hexec : (revoke K rev).exec g = some (result, g')) :
    ((∃ e, result = .error e) ∧ g' = g) ∨
    rev.verify K = .ok () ∧ (rev.delegator, rev.representative) ∈ g.edges ∧ result = .ok () ∧
      g' = g.withoutEdge rev.delegator rev.representative := by
  have hout := Option.some_inj.mp (hexec.symm.trans (exec_revoke K g rev))
  split at hout
  · obtain ⟨rfl, rfl⟩ := Prod.mk.inj hout
    exact Or.inl ⟨⟨_, rfl⟩, rfl⟩
  rename_i hverify
  split at hout
  · rename_i hmem
    obtain ⟨rfl, rfl⟩ := Prod.mk.inj hout
    exact Or.inr ⟨hverify, hmem, rfl, rfl⟩
  · obtain ⟨rfl, rfl⟩ := Prod.mk.inj hout
    exact Or.inl ⟨⟨_, rfl⟩, rfl⟩

/-- What the search says is about the edges, whatever order it takes. -/
theorem Consistent.means (h : Consistent g) {start target : String} {maxDepth : ℕ}
    {outcome : Outcome}
    (hsearch : search (g.neighbors o) target maxDepth g.searchFuel [(start, 0)] ∅ =
      some outcome) : outcome.Means g.Delegates start target maxDepth := by
  rw [← h.adjacent_eq o]
  exact means_of_search hsearch

/-! ## They keep the structures in step -/

theorem Consistent.own_insert (h : Consistent g) {d d' : Delegation} {key : String × String}
    (hd' : (g.edges.insert (d.delegator, d.representative) d).lookup key = some d') :
    key = (d'.delegator, d'.representative) := by
  by_cases hkey : key = (d.delegator, d.representative)
  · subst hkey
    rw [AList.lookup_insert, Option.some_inj] at hd'
    rw [hd']
  · rw [AList.lookup_insert_ne hkey] at hd'
    exact h.own key d' hd'

/-- An update of an edge keeps the edges. -/
theorem Consistent.update (h : Consistent g) {d : Delegation}
    (hmem : (d.delegator, d.representative) ∈ g.edges) :
    Consistent { g with edges := g.edges.insert (d.delegator, d.representative) d } := by
  have hedges : ∀ a b, (a, b) ∈ g.edges.insert (d.delegator, d.representative) d ↔
      (a, b) ∈ g.edges := by
    intro a b
    rw [AList.mem_insert]
    exact or_iff_right_of_imp fun heq ↦ heq ▸ hmem
  exact ⟨fun a b ↦ (hedges a b).trans (h.mem_iff a b), h.nonempty, fun _ _ ↦ h.own_insert,
    h.acyclic.mono fun a b ↦ (hedges a b).mp⟩

theorem delegates_withEdge (g : DelegationGraph) (d : Delegation) :
    (g.withEdge d).Delegates = Graph.addEdge g.Delegates d.delegator d.representative := by
  funext a b
  rw [Delegates, withEdge, AList.mem_insert, Prod.mk.injEq, or_comm, Graph.addEdge, Delegates]

theorem lookup_withEdge (g : DelegationGraph) (d : Delegation) (a : String) :
    (g.withEdge d).adjacency.lookup a =
      if a = d.delegator then
        some (insert d.representative ((g.adjacency.lookup d.delegator).getD ∅))
      else g.adjacency.lookup a := by
  rw [withEdge]
  split
  · rename_i ha
    rw [ha, AList.lookup_insert]
  · rename_i ha
    exact AList.lookup_insert_ne ha

/-- **A new edge**, where there is no way back. -/
theorem Consistent.withEdge (h : Consistent g) {d : Delegation}
    (hnot : ¬ Reaches g.Delegates d.representative d.delegator) : Consistent (g.withEdge d) := by
  refine ⟨fun a b ↦ ?_, fun a s hs ↦ ?_, fun _ _ ↦ h.own_insert, ?_⟩
  · rw [← Delegates, delegates_withEdge, Graph.addEdge, Delegates, h.mem_iff, lookup_withEdge]
    split
    · rename_i ha
      subst ha
      rcases g.adjacency.lookup d.delegator with _ | s <;> simp [or_comm]
    · rename_i ha
      simp [ha]
  · rw [lookup_withEdge] at hs
    split at hs
    · rw [← Option.some_inj.mp hs]
      exact Finset.insert_ne_empty _ _
    · exact h.nonempty a s hs
  · rw [delegates_withEdge]
    exact h.acyclic.addEdge hnot

theorem lookup_withoutEdge (g : DelegationGraph) (delegator representative a : String) :
    (g.withoutEdge delegator representative).adjacency.lookup a =
      if a = delegator then (g.adjacency.lookup delegator).bind fun s ↦
        if s.erase representative = ∅ then none else some (s.erase representative)
      else g.adjacency.lookup a := by
  rw [withoutEdge]
  dsimp only
  by_cases ha : a = delegator
  · subst ha
    rw [if_pos rfl]
    rcases hlookup : g.adjacency.lookup a with _ | s
    · exact hlookup
    · -- an empty set is not kept
      rw [Option.bind_some]
      dsimp only
      split
      · exact AList.lookup_erase _ _
      · exact AList.lookup_insert _
  · rw [if_neg ha]
    rcases g.adjacency.lookup delegator with _ | s
    · rfl
    · dsimp only
      split
      · exact AList.lookup_erase_ne ha
      · exact AList.lookup_insert_ne ha

theorem exists_mem_iff {s : Finset String} {b : String} :
    (∃ s', (if s = ∅ then none else some s) = some s' ∧ b ∈ s') ↔ b ∈ s := by
  split
  · rename_i h
    rw [h]
    simp
  · simp

/-- **An edge less.** -/
theorem Consistent.withoutEdge (h : Consistent g) (delegator representative : String) :
    Consistent (g.withoutEdge delegator representative) := by
  refine ⟨fun a b ↦ ?_, fun a s hs ↦ ?_, fun key d hd ↦ ?_, ?_⟩
  · rw [lookup_withoutEdge, DelegationGraph.withoutEdge, AList.mem_erase, h.mem_iff, Ne,
      Prod.mk.injEq]
    split
    · rename_i ha
      subst ha
      rcases g.adjacency.lookup a with _ | s
      · simp
      · rw [Option.bind_some, exists_mem_iff, Finset.mem_erase]
        simp
    · rename_i ha
      simp [ha]
  · rw [lookup_withoutEdge] at hs
    split at hs
    · obtain ⟨s', -, hs⟩ := Option.bind_eq_some_iff.mp hs
      split at hs
      · cases hs
      · rename_i hne
        exact Option.some_inj.mp hs ▸ hne
    · exact h.nonempty a s hs
  · rw [DelegationGraph.withoutEdge] at hd
    by_cases hkey : key = (delegator, representative)
    · rw [hkey, AList.lookup_erase] at hd
      cases hd
    · rw [AList.lookup_erase_ne hkey] at hd
      exact h.own key d hd
  · exact h.acyclic.mono fun a b hmem ↦ (AList.mem_erase.mp hmem).2

/-! ## Runs -/

/-- What is asked of a graph. -/
inductive Request
  | delegate (d : Delegation)
  | revoke (rev : Revocation)

/-- The call that a request makes. -/
def handle (K : Crypto) (o : SetOrder String String) :
    Request → Call DelegationGraph DelegationError Unit
  | .delegate d => delegate o d
  | .revoke rev => revoke K rev

/-- A request, and what the call returned. -/
structure Handled where
  request : Request
  result : Except DelegationError Unit

/-- The graph of a node, whatever order its sets have at each call. -/
def system (K : Crypto) : System DelegationGraph Handled where
  init := fun g ↦ g = new
  step := fun g a g' ↦ ∃ o, (handle K o a.request).exec g = some (a.result, g')

variable {K : Crypto}

/-- Every call returns. -/
theorem exists_handle (K : Crypto) (o : SetOrder String String) (request : Request)
    (g : DelegationGraph) : ∃ result g', (handle K o request).exec g = some (result, g') := by
  obtain ⟨out, hexec⟩ : ∃ out, (handle K o request).exec g = some out := by
    rcases request with d | rev
    · obtain ⟨outcome, -, hexec⟩ := exec_delegate g o d
      exact ⟨_, hexec⟩
    · exact ⟨_, exec_revoke K g rev⟩
  exact ⟨out.1, out.2, hexec⟩

/-- A call that is rejected changes nothing. -/
theorem eq_of_error {request : Request} {e : DelegationError}
    (hexec : (handle K o request).exec g = some (.error e, g')) : g' = g := by
  rcases request with d | rev
  · rcases delegate_cases hexec with ⟨-, -, hsame⟩ | ⟨-, -, hok, -⟩ | ⟨-, -, _, -, hnew⟩
    · exact hsame
    · cases hok
    · rcases hnew with ⟨-, hok, -⟩ | ⟨-, -, hsame⟩
      · cases hok
      · exact hsame
  · rcases revoke_cases hexec with ⟨-, hsame⟩ | ⟨-, -, hok, -⟩
    · exact hsame
    · cases hok

/-- **One call.** -/
theorem Consistent.step (h : Consistent g) {a : Handled} (hstep : (system K).step g a g') :
    Consistent g' := by
  obtain ⟨request, result⟩ := a
  obtain ⟨o, hexec⟩ := hstep
  rcases request with d | rev
  · rcases delegate_cases hexec with ⟨-, -, rfl⟩ | ⟨-, hmem, -, rfl⟩ | ⟨-, -, _, hsearch, hnew⟩
    · exact h
    · exact h.update hmem
    · rcases hnew with ⟨rfl, -, rfl⟩ | ⟨-, -, rfl⟩
      · -- cleared within the bound, but not just as far as the bound
        exact h.withEdge (Cleared.not_reaches (h.means hsearch))
      · exact h
  · rcases revoke_cases hexec with ⟨-, rfl⟩ | ⟨-, -, -, rfl⟩
    · exact h
    · exact h.withoutEdge _ _

theorem consistent_of_run {tr : List Handled} (run : (system K).Run tr g) : Consistent g := by
  refine run.invariant (I := fun _ g ↦ Consistent g) ?_ fun _ _ _ _ _ h hstep ↦ h.step hstep
  rintro g rfl
  exact consistent_new

/-- **The graph stays acyclic and consistent**, and a call that is rejected leaves it as it is. -/
theorem consistent_and_unchanged {tr : List Handled} (run : (system K).Run tr g) :
    Consistent g ∧ ∀ o request, ∃ result g', (handle K o request).exec g = some (result, g') ∧
      ∀ e, result = .error e → g' = g := by
  refine ⟨consistent_of_run run, fun o request ↦ ?_⟩
  obtain ⟨result, g', hexec⟩ := exists_handle K o request g
  refine ⟨result, g', hexec, ?_⟩
  rintro e rfl
  exact eq_of_error hexec

/-! ## Concrete runs -/

/-- New edges, each of which the search clears. -/
def Admitted (o : SetOrder String String) : DelegationGraph → List Delegation → Prop
  | _, [] => True
  | g, d :: ds => d.delegator ≠ d.representative ∧
    (d.delegator, d.representative) ∉ g.edges ∧
    search (g.neighbors o) d.delegator MAX_DELEGATION_DEPTH g.searchFuel
      [(d.representative, 0)] ∅ = some .clear ∧ Admitted o (g.withEdge d) ds

instance decidableAdmitted (o : SetOrder String String) :
    (g : DelegationGraph) → (ds : List Delegation) → Decidable (Admitted o g ds)
  | _, [] => inferInstanceAs (Decidable True)
  | g, d :: ds =>
    have := decidableAdmitted o (g.withEdge d) ds
    inferInstanceAs (Decidable (_ ∧ _))

/-- The edge that the search clears is added. -/
theorem exec_of_clear {d : Delegation} (hself : d.delegator ≠ d.representative)
    (hmem : (d.delegator, d.representative) ∉ g.edges)
    (hclear : search (g.neighbors o) d.delegator MAX_DELEGATION_DEPTH g.searchFuel
      [(d.representative, 0)] ∅ = some .clear) :
    (delegate o d).exec g = some (.ok (), g.withEdge d) := by
  obtain ⟨outcome, hsearch, hexec⟩ := exec_delegate g o d
  obtain rfl := Option.some_inj.mp (hclear.symm.trans hsearch)
  rw [hexec, if_neg hself, if_neg hmem]

theorem run_of_admitted {ds : List Delegation} {tr : List Handled} (run : (system K).Run tr g)
    (h : Admitted o g ds) : (system K).Run (tr ++ ds.map fun d ↦ ⟨.delegate d, .ok ()⟩)
      (ds.foldl withEdge g) := by
  induction ds generalizing g tr with
  | nil =>
    rw [List.map_nil, List.append_nil]
    exact run
  | cons d ds ih =>
    obtain ⟨hself, hmem, hclear, hrest⟩ := h
    have hstep : (system K).step g ⟨.delegate d, .ok ()⟩ (g.withEdge d) :=
      ⟨o, exec_of_clear hself hmem hclear⟩
    have hnext := ih (.step run hstep) hrest
    rwa [List.append_assoc] at hnext

/-- Where all delegations of a run go up in rank, the edges do. -/
theorem lt_of_delegates {ρ : String → ℕ} {tr : List Handled} (run : (system K).Run tr g)
    (hup : ∀ a ∈ tr, ∀ d, a.request = .delegate d → ρ d.delegator < ρ d.representative) :
    ∀ a b, g.Delegates a b → ρ a < ρ b := by
  induction run with
  | start h =>
    obtain rfl := h
    exact fun a b hedge ↦ absurd hedge (AList.notMem_empty _)
  | @step tr g g' a run hstep ih =>
    obtain ⟨request, result⟩ := a
    obtain ⟨o, hexec⟩ := hstep
    have hold := ih fun a ha ↦ hup a (List.mem_append_left _ ha)
    have hlast := hup _ (List.mem_append_right tr (List.mem_singleton_self _))
    rcases request with d | rev
    · have hnew : ∀ a b, Graph.addEdge g.Delegates d.delegator d.representative a b →
          ρ a < ρ b := by
        rintro a b (hedge | ⟨rfl, rfl⟩)
        · exact hold a b hedge
        · exact hlast d rfl
      rcases delegate_cases hexec with ⟨-, -, rfl⟩ | ⟨-, hmem, -, rfl⟩ | ⟨-, -, _, -, hadd⟩
      · exact hold
      · refine fun a b hedge ↦ hnew a b ?_
        rcases (AList.mem_insert _).mp hedge with heq | hedge
        · exact Or.inr (Prod.mk.inj heq)
        · exact Or.inl hedge
      · rcases hadd with ⟨-, -, rfl⟩ | ⟨-, -, rfl⟩
        · rw [delegates_withEdge]
          exact hnew
        · exact hold
    · rcases revoke_cases hexec with ⟨-, rfl⟩ | ⟨-, -, -, rfl⟩
      · exact hold
      · exact fun a b hedge ↦ hold a b (AList.mem_erase.mp hedge).2

theorem forall_request {P : Delegation → Prop} {ds : List Delegation} (h : ∀ d ∈ ds, P d) :
    ∀ a ∈ ds.map fun d ↦ (⟨.delegate d, .ok ()⟩ : Handled), ∀ d, a.request = .delegate d → P d := by
  intro a ha d hd
  obtain ⟨d', hd', rfl⟩ := List.mem_map.mp ha
  obtain rfl := Request.delegate.inj hd
  exact h d' hd'

/-- A run of new edges that all go up in rank meets what follows from that. -/
theorem restrict_of_admitted {ρ : String → ℕ} {C : DelegationGraph → Delegation → Prop}
    {ds : List Delegation} (h : Admitted o new ds)
    (hup : ∀ d ∈ ds, ρ d.delegator < ρ d.representative)
    (hC : ∀ g d, (∀ a b, g.Delegates a b → ρ a < ρ b) → ρ d.delegator < ρ d.representative →
      C g d) :
    ((system K).restrict fun g a ↦ ∀ d, a.request = .delegate d → C g d).Run
      (ds.map fun d ↦ ⟨.delegate d, .ok ()⟩) (ds.foldl withEdge new) := by
  refine (run_of_admitted (.start rfl) h).restrict_of_steps fun tr g a run hpre d hd ↦ ?_
  have hall := fun a' ha' ↦ forall_request hup a' (hpre.subset ha')
  exact hC g d (lt_of_delegates run fun a' ha' ↦ hall a' (List.mem_append_left _ ha'))
    (hall a (List.mem_append_right tr (List.mem_singleton_self a)) d hd)

/-- One delegation. -/
def aliceBob : Delegation := ⟨"alice", "bob", 1, 0⟩

theorem exec_aliceBob : (delegate (.ascending _ _) aliceBob).exec new =
    some (.ok (), new.withEdge aliceBob) :=
  exec_of_clear (by decide) (by decide) (by decide +kernel)

/-- Delegations of one unit each. -/
def units (pairs : List (String × String)) : List Delegation :=
  pairs.map fun e ↦ ⟨e.1, e.2, 1, 0⟩

/-- Three nodes in a row, the last edge first. -/
def row : List Delegation := units [("bob", "carol"), ("alice", "bob")]

theorem run_row (K : Crypto) : (system K).Run (row.map fun d ↦ ⟨.delegate d, .ok ()⟩)
    (row.foldl withEdge new) := by
  have hadmitted : Admitted (.ascending _ _) new row := by decide +kernel
  exact run_of_admitted (.start rfl) hadmitted

theorem consistent_and_unchanged_row :
    let g := row.foldl withEdge new
    Consistent g ∧ ∀ o request, ∃ result g',
      (handle Reference.crypto o request).exec g = some (result, g') ∧
        ∀ e, result = .error e → g' = g :=
  consistent_and_unchanged (run_row Reference.crypto)

end DelegationGraph

end Arxia
