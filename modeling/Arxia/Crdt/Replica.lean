import Arxia.Crdt.ORSet
import Arxia.Replication.ObservedRemove
import Mathlib.Data.Set.Function

/-!
# A replica of an OR-Set

With a set goes a history of the adds and removes its replica knows of, which the code does not
have: merging sets merges histories, and a remove observes the known adds whose tags are in the set.

The set holds the tag of every live add, whatever it is merged with. What it lacks is the other
half: it does not remember what was removed, so a merge brings back every tag the other side still
has. `Keeps` is the condition on the two sides under which that does no harm.
-/

namespace Arxia

open Rust ObservedRemove

/-- An add that was made: when, and under which tag. -/
structure Added where
  time : ℕ
  tag : String

/-- A set and what its replica knows of. -/
structure Replica (T : Type) where
  set : ORSet T
  history : History T Added

namespace Replica

variable {T : Type} [DecidableEq T]

omit [DecidableEq T] in
/-- A replica that knows of nothing. -/
def new (nodeId : String) : Replica T := ⟨.new nodeId, .empty⟩

/-- Add an element at this time. -/
def add (r : Replica T) (time : ℕ) (x : T) : Replica T :=
  let set := r.set.add x
  ⟨set, r.history.add x ⟨time, ORSet.tag set.nodeId set.tagCounter⟩⟩

/-- Remove an element; the adds whose tags are there are observed. -/
def remove (r : Replica T) (x : T) : Replica T :=
  ⟨(r.set.remove x).1, r.history.remove x {a | a.tag ∈ r.set.tags x}⟩

/-- Merge with another replica. -/
def merge (r other : Replica T) : Replica T :=
  ⟨r.set.merge other.set, r.history.merge other.history⟩

/-- The set contains the elements of the history: those with a live add. -/
def Faithful (r : Replica T) : Prop :=
  ∀ x, r.set.contains x = true ↔ ∃ a, r.history.Live x a

omit [DecidableEq T] in
/-- A known remove of the element has dropped the tag. -/
def Dropped (r : Replica T) (x : T) (tag : String) : Prop :=
  ∃ a, r.history.Observed x a ∧ a.tag = tag

/-- Each element that one of the two holds has, on one side, a tag that neither side has dropped. -/
def Keeps (r other : Replica T) : Prop :=
  ∀ x, r.set.contains x = true ∨ other.set.contains x = true →
    ∃ tag, (tag ∈ r.set.tags x ∨ tag ∈ other.set.tags x) ∧ ¬ r.Dropped x tag ∧
      ¬ other.Dropped x tag

/-! ## What every replica keeps -/

/-- The tags of the set are those of known adds, among them all live ones. -/
structure Tracked (r : Replica T) : Prop where
  grounded : r.history.Grounded
  held : ∀ x, ∀ t ∈ r.set.tags x, ∃ a, (x, a) ∈ r.history.adds ∧ a.tag = t
  live : ∀ x a, r.history.Live x a → a.tag ∈ r.set.tags x

theorem tracked_new (nodeId : String) : (new nodeId : Replica T).Tracked where
  grounded := History.grounded_empty
  held := fun _ t ht ↦ absurd ht (Finset.notMem_empty t)
  live := fun x a h ↦ absurd h.1 (Set.notMem_empty (x, a))

variable {r other : Replica T} {x : T} {time : ℕ}

theorem Tracked.add (h : r.Tracked) (time : ℕ) (x : T) : (r.add time x).Tracked where
  grounded := h.grounded.add _ _
  held := fun y t ht ↦ by
    by_cases hy : y = x
    · subst hy
      rw [Replica.add, ORSet.tags_add_self, Finset.mem_insert] at ht
      rcases ht with rfl | ht
      · exact ⟨_, Set.mem_insert _ _, rfl⟩
      · obtain ⟨a, ha, htag⟩ := h.held y t ht
        exact ⟨a, Set.mem_insert_of_mem _ ha, htag⟩
    · rw [Replica.add, ORSet.tags_add_of_ne _ hy] at ht
      obtain ⟨a, ha, htag⟩ := h.held y t ht
      exact ⟨a, Set.mem_insert_of_mem _ ha, htag⟩
  live := fun y a hlive ↦ by
    by_cases hy : y = x
    · subst hy
      rw [Replica.add, ORSet.tags_add_self]
      rcases History.live_of_live_add hlive with ⟨-, rfl⟩ | hlive
      · exact Finset.mem_insert_self _ _
      · exact Finset.mem_insert_of_mem (h.live y a hlive)
    · rw [Replica.add, ORSet.tags_add_of_ne _ hy]
      exact h.live y a ((History.live_add_of_ne hy).mp hlive)

theorem Tracked.remove (h : r.Tracked) (x : T) : (r.remove x).Tracked where
  grounded := h.grounded.remove _ _
  held := fun y t ht ↦ by
    by_cases hy : y = x
    · subst hy
      rw [Replica.remove, ORSet.tags_remove_self] at ht
      exact absurd ht (Finset.notMem_empty t)
    · rw [Replica.remove, ORSet.tags_remove_of_ne _ hy] at ht
      exact h.held y t ht
  live := fun y a hlive ↦ by
    by_cases hy : y = x
    · -- a live add had its tag in the set, so the remove has observed it
      subst hy
      obtain ⟨hlive, hseen⟩ := History.live_remove_self.mp hlive
      exact absurd (h.live y a hlive) hseen
    · rw [Replica.remove, ORSet.tags_remove_of_ne _ hy]
      exact h.live y a ((History.live_remove_of_ne hy).mp hlive)

theorem Tracked.merge (h : r.Tracked) (h' : other.Tracked) : (r.merge other).Tracked where
  grounded := h.grounded.merge h'.grounded
  held := fun x t ht ↦ by
    rw [Replica.merge, ORSet.tags_merge, Finset.mem_union] at ht
    rcases ht with ht | ht
    · obtain ⟨a, ha, htag⟩ := h.held x t ht
      exact ⟨a, Or.inl ha, htag⟩
    · obtain ⟨a, ha, htag⟩ := h'.held x t ht
      exact ⟨a, Or.inr ha, htag⟩
  live := fun x a hlive ↦ by
    rw [Replica.merge, ORSet.tags_merge, Finset.mem_union]
    exact (History.live_of_live_merge hlive).imp (h.live x a) (h'.live x a)

/-- **A live add is contained**, in every run: only the other direction can fail. -/
theorem Tracked.contains_of_live (h : r.Tracked) {a : Added} (hlive : r.history.Live x a) :
    r.set.contains x = true := ORSet.contains_iff.mpr ⟨a.tag, h.live x a hlive⟩

/-! ## What keeps a replica faithful -/

theorem faithful_new (nodeId : String) : (new nodeId : Replica T).Faithful := by
  intro x
  rw [ORSet.contains_iff, new, ORSet.tags_new]
  apply iff_of_false Finset.not_nonempty_empty
  rintro ⟨a, hmem, -⟩
  exact Set.notMem_empty _ hmem

theorem Faithful.add (h : r.Faithful) (htracked : r.Tracked)
    (hnew : ∀ a, (x, a) ∈ r.history.adds →
      a.tag ≠ ORSet.tag r.set.nodeId (r.set.add x).tagCounter) : (r.add time x).Faithful := by
  intro y
  by_cases hy : y = x
  · subst hy
    have hlive := @History.live_add_self _ _ r.history y
      ⟨time, ORSet.tag r.set.nodeId (r.set.add y).tagCounter⟩ htracked.grounded
      fun hmem ↦ hnew _ hmem rfl
    exact iff_of_true ((htracked.add time y).contains_of_live hlive) ⟨_, hlive⟩
  · have hlive : ∀ a, (r.add time x).history.Live y a ↔ r.history.Live y a := fun a ↦
      History.live_add_of_ne hy
    rw [ORSet.contains_iff, Replica.add, ORSet.tags_add_of_ne _ hy, ← ORSet.contains_iff, h y]
    exact exists_congr fun a ↦ (hlive a).symm

theorem Faithful.remove (h : r.Faithful) (htracked : r.Tracked) : (r.remove x).Faithful := by
  intro y
  by_cases hy : y = x
  · subst hy
    rw [ORSet.contains_iff, Replica.remove, ORSet.tags_remove_self]
    apply iff_of_false Finset.not_nonempty_empty
    rintro ⟨a, hlive⟩
    obtain ⟨hlive, hseen⟩ := History.live_remove_self.mp hlive
    exact hseen (htracked.live y a hlive)
  · have hlive : ∀ a, (r.remove x).history.Live y a ↔ r.history.Live y a := fun a ↦
      History.live_remove_of_ne hy
    rw [ORSet.contains_iff, Replica.remove, ORSet.tags_remove_of_ne _ hy, ← ORSet.contains_iff, h y]
    exact exists_congr fun a ↦ (hlive a).symm

theorem contains_merge :
    (r.merge other).set.contains x = true ↔
      r.set.contains x = true ∨ other.set.contains x = true := by
  rw [ORSet.contains_iff, ORSet.contains_iff, ORSet.contains_iff, Replica.merge, ORSet.tags_merge,
    Finset.union_nonempty]

/-- **A merge is faithful exactly when the two sides keep their elements.** Tags must identify
adds, or a remove of one add would seem to drop another. -/
theorem faithful_merge_iff (h : r.Tracked) (h' : other.Tracked)
    (hunique : Set.InjOn (fun p ↦ p.2.tag) (r.merge other).history.adds) :
    (r.merge other).Faithful ↔ r.Keeps other := by
  have hmerge := h.merge h'
  constructor
  · intro hfaithful x hx
    obtain ⟨a, hlive⟩ := (hfaithful x).mp (contains_merge.mpr hx)
    have htag := hmerge.live x a hlive
    rw [Replica.merge, ORSet.tags_merge, Finset.mem_union] at htag
    -- a remove that dropped the tag has observed this very add
    have hdropped : ∀ b, (r.merge other).history.Observed x b → b.tag ≠ a.tag := by
      intro b hobs heq
      have hpair := hunique (hmerge.grounded x b hobs) hlive.1 heq
      rw [(Prod.mk.inj hpair).2] at hobs
      exact hlive.2 hobs
    refine ⟨a.tag, htag, ?_, ?_⟩
    · rintro ⟨b, hobs, heq⟩
      exact hdropped b (History.observed_merge.mpr (Or.inl hobs)) heq
    · rintro ⟨b, hobs, heq⟩
      exact hdropped b (History.observed_merge.mpr (Or.inr hobs)) heq
  · intro hkeeps x
    constructor
    · intro hx
      obtain ⟨t, ht, hnot, hnot'⟩ := hkeeps x (contains_merge.mp hx)
      have ht : t ∈ (r.merge other).set.tags x := by
        rw [Replica.merge, ORSet.tags_merge, Finset.mem_union]
        exact ht
      obtain ⟨a, ha, rfl⟩ := hmerge.held x t ht
      refine ⟨a, History.live_merge.mpr ⟨ha, fun hobs ↦ hnot ⟨a, hobs, rfl⟩, fun hobs ↦ ?_⟩⟩
      exact hnot' ⟨a, hobs, rfl⟩
    · rintro ⟨a, hlive⟩
      exact hmerge.contains_of_live hlive

/-- **A removed element reappears** when its remover merges a replica that still has it, though
that replica knows of no add the remover did not know of. -/
theorem not_faithful_merge_remove (h : r.Tracked) (hsub : other.history.adds ⊆ r.history.adds)
    (hx : other.set.contains x = true) : ¬ ((r.remove x).merge other).Faithful := by
  intro hfaithful
  obtain ⟨a, hlive⟩ := (hfaithful x).mp (contains_merge.mpr (Or.inr hx))
  obtain ⟨hmem, hobs, -⟩ := History.live_merge.mp hlive
  have hmem : (x, a) ∈ r.history.adds := hmem.elim id fun hmem ↦ hsub hmem
  obtain ⟨hlive, hseen⟩ := History.live_remove_self.mp ⟨hmem, hobs⟩
  exact hseen (h.live x a hlive)

end Replica

end Arxia
