import Arxia.Crdt.Replica
import Arxia.Transition.Runs

/-!
# Replicas that merge in any order

Any number of replicas with distinct node ids, each adding, removing and merging with any other at
any time. A message on its way is a replica that does nothing but merge, so delays need nothing of
their own.

No counter reaches its end while every node makes fewer than `2 ^ 64` adds, and until then a tag
stands for one add. So the result about one merge applies at every merge, and a run is faithful to
its histories throughout exactly when each merge keeps its elements.
-/

namespace Arxia

open Rust Transition ObservedRemove

namespace Replicas

variable {ι T : Type}

/-- What a replica does. -/
inductive Action (ι T : Type)
  | add (i : ι) (x : T)
  | remove (i : ι) (x : T)
  | merge (i j : ι)

/-- Who does it. -/
def Action.actor : Action ι T → ι
  | .add i _ => i
  | .remove i _ => i
  | .merge i _ => i

/-- The number of adds a node has made. -/
def addsBy [DecidableEq ι] (i : ι) (tr : List (Action ι T)) : ℕ :=
  tr.countP fun
    | .add j _ => j = i
    | _ => false

section AddsBy

variable [DecidableEq ι] {tr tr' : List (Action ι T)}

theorem addsBy_mono (h : tr' <+: tr) (i : ι) : addsBy i tr' ≤ addsBy i tr := h.sublist.countP_le

theorem addsBy_concat_self (tr : List (Action ι T)) (i : ι) (x : T) :
    addsBy i (tr ++ [.add i x]) = addsBy i tr + 1 := by
  rw [addsBy, List.countP_append, List.countP_singleton, ← addsBy]
  simp

theorem addsBy_concat_of_ne (tr : List (Action ι T)) (i : ι) {a : Action ι T}
    (h : ∀ x, a ≠ .add i x) : addsBy i (tr ++ [a]) = addsBy i tr := by
  rw [addsBy, List.countP_append, List.countP_singleton, ← addsBy]
  rcases a with ⟨j, x⟩ | _ | _
  · have hj : j ≠ i := fun hj ↦ h x (by rw [hj])
    simp [hj]
  · rfl
  · rfl

end AddsBy

/-- The replicas, and the number of actions so far. -/
structure State (ι T : Type) where
  time : ℕ
  replica : ι → Replica T

variable [DecidableEq ι] [DecidableEq T]

/-- What the action makes of its replica. -/
def Action.result (s : State ι T) : Action ι T → Replica T
  | .add i x => (s.replica i).add s.time x
  | .remove i x => (s.replica i).remove x
  | .merge i j => (s.replica i).merge (s.replica j)

/-- The replicas of these nodes as a transition system. -/
def system (nodeId : ι → String) : System (State ι T) (Action ι T) where
  init := fun s ↦ s = ⟨0, fun i ↦ .new (nodeId i)⟩
  step := fun s a s' ↦ s' = ⟨s.time + 1, Function.update s.replica a.actor (a.result s)⟩

variable {nodeId : ι → String} {tr : List (Action ι T)} {s s' : State ι T} {a : Action ι T}

/-- Nothing a replica does can fail. -/
theorem exists_step (nodeId : ι → String) (s : State ι T) (a : Action ι T) :
    ∃ s', (system nodeId).step s a s' :=
  ⟨⟨s.time + 1, Function.update s.replica a.actor (a.result s)⟩, rfl⟩

/-- **One step** changes the replica that acts. -/
theorem replica_step (h : (system nodeId).step s a s') :
    s'.replica a.actor = a.result s ∧ ∀ k, k ≠ a.actor → s'.replica k = s.replica k := by
  obtain rfl := h
  exact ⟨Function.update_self _ _ _, fun k hk ↦ Function.update_of_ne hk _ _⟩

theorem tracked_of_run (run : (system nodeId).Run tr s) (i : ι) : (s.replica i).Tracked := by
  revert i
  refine run.invariant (I := fun _ s ↦ ∀ i, (s.replica i).Tracked) ?_ ?_
  · rintro s rfl i
    exact Replica.tracked_new (nodeId i)
  · intro tr s a s' _ ih h i
    obtain ⟨hactor, hframe⟩ := replica_step h
    by_cases hi : i = a.actor
    · rw [hi, hactor]
      rcases a with ⟨j, x⟩ | ⟨j, x⟩ | ⟨j, k⟩
      · exact (ih j).add s.time x
      · exact (ih j).remove x
      · exact (ih j).merge (ih k)
    · rw [hframe i hi]
      exact ih i

/-! ## Tags -/

/-- The adds any replica knows of. -/
def known (s : State ι T) : Set (T × Added) := ⋃ i, (s.replica i).history.adds

omit [DecidableEq ι] [DecidableEq T] in
theorem adds_subset_known (s : State ι T) (i : ι) : (s.replica i).history.adds ⊆ known s :=
  Set.subset_iUnion (fun i ↦ (s.replica i).history.adds) i

/-- A tag stands for one add, and was given out by its node. -/
structure Tagged (nodeId : ι → String) (tr : List (Action ι T)) (s : State ι T) : Prop where
  node : ∀ i, (s.replica i).set.nodeId = nodeId i
  counter : ∀ i, (s.replica i).set.tagCounter.toNat = addsBy i tr
  minted : ∀ p ∈ known s, ∃ k c, p.2.tag = ORSet.tag (nodeId k) c ∧
    c ≤ (s.replica k).set.tagCounter
  unique : Set.InjOn (fun p ↦ p.2.tag) (known s)

theorem tagged_start (hs : (system nodeId).init s) : Tagged nodeId [] s := by
  obtain rfl := hs
  have hknown : known (⟨0, fun i ↦ .new (nodeId i)⟩ : State ι T) = ∅ :=
    Set.iUnion_eq_empty.mpr fun _ ↦ rfl
  refine ⟨fun _ ↦ rfl, fun _ ↦ rfl, ?_, ?_⟩
  · rw [hknown]
    exact fun p hp ↦ absurd hp (Set.notMem_empty p)
  · rw [hknown]
    exact Set.injOn_empty _

theorem known_step (h : (system nodeId).step s a s') :
    known s' ⊆ (a.result s).history.adds ∪ known s := by
  obtain ⟨hactor, hframe⟩ := replica_step h
  refine Set.iUnion_subset fun i ↦ ?_
  by_cases hi : i = a.actor
  · rw [hi, hactor]
    exact Set.subset_union_left
  · rw [hframe i hi]
    exact (adds_subset_known s i).trans Set.subset_union_right

theorem node_step (h : (system nodeId).step s a s')
    (hnode : ∀ i, (s.replica i).set.nodeId = nodeId i) (i : ι) :
    (s'.replica i).set.nodeId = nodeId i := by
  obtain ⟨hactor, hframe⟩ := replica_step h
  by_cases hi : i = a.actor
  · rw [hi, hactor, ← hnode]
    rcases a with ⟨j, x⟩ | ⟨j, x⟩ | ⟨j, k⟩
    · exact ORSet.nodeId_add (s.replica j).set x
    · exact ORSet.nodeId_remove (s.replica j).set x
    · exact ORSet.nodeId_merge (s.replica j).set (s.replica k).set
  · rw [hframe i hi, hnode]

/-- An action that makes no add gives out no tag. -/
theorem Tagged.quiet (ht : Tagged nodeId tr s) (h : (system nodeId).step s a s')
    (hadds : (a.result s).history.adds ⊆ known s)
    (hcounter : (a.result s).set.tagCounter = (s.replica a.actor).set.tagCounter)
    (hnone : ∀ i, addsBy i (tr ++ [a]) = addsBy i tr) : Tagged nodeId (tr ++ [a]) s' := by
  have hknown : known s' ⊆ known s := (known_step h).trans (Set.union_subset hadds subset_rfl)
  have hsame : ∀ i, (s'.replica i).set.tagCounter = (s.replica i).set.tagCounter := fun i ↦ by
    obtain ⟨hactor, hframe⟩ := replica_step h
    by_cases hi : i = a.actor
    · rw [hi, hactor, hcounter]
    · rw [hframe i hi]
  refine ⟨node_step h ht.node, fun i ↦ ?_, fun p hp ↦ ?_, ht.unique.mono hknown⟩
  · rw [hsame, hnone, ht.counter]
  · obtain ⟨k, c, htag, hc⟩ := ht.minted p (hknown hp)
    exact ⟨k, c, htag, (hsame k).symm ▸ hc⟩

omit [DecidableEq T] in
/-- While a node may still add, its counter has room. -/
theorem Tagged.room (ht : Tagged nodeId tr s) {i : ι} {x : T}
    (hadds : addsBy i (tr ++ [.add i x]) < 2 ^ 64) :
    (s.replica i).set.tagCounter.toNat < u64Max := by
  rw [addsBy_concat_self, ← ht.counter] at hadds
  rw [u64Max]
  omega

/-- A new tag is above all that its node has given out. -/
theorem Tagged.ne_new (ht : Tagged nodeId tr s) (hids : Function.Injective nodeId) {i : ι} {x : T}
    (hroom : (s.replica i).set.tagCounter.toNat < u64Max) {p : T × Added} (hp : p ∈ known s) :
    p.2.tag ≠ ORSet.tag (s.replica i).set.nodeId ((s.replica i).set.add x).tagCounter := by
  intro heq
  obtain ⟨k, c, htag, hc⟩ := ht.minted p hp
  rw [htag, ht.node] at heq
  obtain ⟨hnode, rfl⟩ := ORSet.tag_injective heq
  obtain rfl := hids hnode
  have hle := UInt64.le_iff_toNat_le.mp hc
  rw [ORSet.toNat_tagCounter_add hroom] at hle
  omega

theorem Tagged.add (ht : Tagged nodeId tr s) (hids : Function.Injective nodeId) {i : ι} {x : T}
    (h : (system nodeId).step s (.add i x) s')
    (hroom : (s.replica i).set.tagCounter.toNat < u64Max) :
    Tagged nodeId (tr ++ [.add i x]) s' := by
  obtain ⟨hactor, hframe⟩ := replica_step h
  set new : T × Added :=
    (x, ⟨s.time, ORSet.tag (s.replica i).set.nodeId ((s.replica i).set.add x).tagCounter⟩) with hnew
  have hknown : known s' ⊆ insert new (known s) := by
    exact (known_step h).trans (Set.union_subset
      (Set.insert_subset_insert (adds_subset_known s i)) (Set.subset_insert _ _))
  have hcounter : (s'.replica i).set.tagCounter = ((s.replica i).set.add x).tagCounter :=
    congrArg (fun r ↦ r.set.tagCounter) hactor
  have hsucc := ORSet.toNat_tagCounter_add hroom x
  -- the new tag has the counter of its own replica, which has never been used
  refine ⟨node_step h ht.node, fun k ↦ ?_, fun p hp ↦ ?_, ?_⟩
  · by_cases hk : k = i
    · subst hk
      rw [hcounter, hsucc, addsBy_concat_self, ht.counter]
    · rw [hframe k hk, addsBy_concat_of_ne tr k (by simp [Ne.symm hk]), ht.counter]
  · rcases hknown hp with rfl | hp
    · refine ⟨i, ((s.replica i).set.add x).tagCounter, ?_, ?_⟩
      · rw [hnew, ht.node]
      · rw [hcounter]
        exact UInt64.le_refl _
    · obtain ⟨k, c, htag, hc⟩ := ht.minted p hp
      refine ⟨k, c, htag, UInt64.le_trans hc ?_⟩
      by_cases hk : k = i
      · subst hk
        rw [hcounter, UInt64.le_iff_toNat_le, hsucc]
        omega
      · rw [hframe k hk]
        exact UInt64.le_refl _
  · have hfresh : ∀ p ∈ known s, p.2.tag ≠ new.2.tag := fun p hp ↦ ht.ne_new hids hroom hp
    refine Set.InjOn.mono hknown ((Set.injOn_insert fun hmem ↦ hfresh new hmem rfl).mpr
      ⟨ht.unique, ?_⟩)
    rintro ⟨p, hp, heq⟩
    exact hfresh p hp heq

/-- **A tag stands for one add**, as long as no counter has come to its end. -/
theorem tagged_of_run (hids : Function.Injective nodeId) (run : (system nodeId).Run tr s)
    (hadds : ∀ i, addsBy i tr < 2 ^ 64) : Tagged nodeId tr s := by
  induction run with
  | start h => exact tagged_start h
  | @step tr s s' a run h ih =>
    have ht := ih fun i ↦ (addsBy_mono (List.prefix_append tr [a]) i).trans_lt (hadds i)
    rcases a with ⟨i, x⟩ | ⟨i, x⟩ | ⟨i, j⟩
    · exact ht.add hids h (ht.room (hadds i))
    · exact ht.quiet h (adds_subset_known s i) (ORSet.tagCounter_remove _ _) fun k ↦
        addsBy_concat_of_ne tr k fun y ↦ by simp
    · exact ht.quiet h (Set.union_subset (adds_subset_known s i) (adds_subset_known s j))
        (ORSet.tagCounter_merge _ _) fun k ↦ addsBy_concat_of_ne tr k fun y ↦ by simp

/-! ## Faithful runs -/

/-- One merge, in a run. -/
theorem faithful_merge_iff_keeps (hids : Function.Injective nodeId)
    (run : (system nodeId).Run tr s) (hadds : ∀ i, addsBy i tr < 2 ^ 64) (i j : ι) :
    ((s.replica i).merge (s.replica j)).Faithful ↔ (s.replica i).Keeps (s.replica j) := by
  refine Replica.faithful_merge_iff (tracked_of_run run i) (tracked_of_run run j) ?_
  exact (tagged_of_run hids run hadds).unique.mono
    (Set.union_subset (adds_subset_known s i) (adds_subset_known s j))

/-- **One step** keeps the replicas faithful, if a merge keeps its elements. -/
theorem faithful_step (hids : Function.Injective nodeId) (run : (system nodeId).Run tr s)
    (hadds : ∀ i, addsBy i (tr ++ [a]) < 2 ^ 64) (h : (system nodeId).step s a s')
    (hfaithful : ∀ i, (s.replica i).Faithful)
    (hkeeps : ∀ i j, a = .merge i j → (s.replica i).Keeps (s.replica j)) (i : ι) :
    (s'.replica i).Faithful := by
  have hbound : ∀ i, addsBy i tr < 2 ^ 64 := fun i ↦
    (addsBy_mono (List.prefix_append tr [a]) i).trans_lt (hadds i)
  obtain ⟨hactor, hframe⟩ := replica_step h
  by_cases hi : i = a.actor
  · rw [hi, hactor]
    rcases a with ⟨j, x⟩ | ⟨j, x⟩ | ⟨j, k⟩
    · have ht := tagged_of_run hids run hbound
      refine (hfaithful j).add (tracked_of_run run j) fun b hb ↦ ?_
      exact ht.ne_new hids (ht.room (hadds j)) (adds_subset_known s j hb)
    · exact (hfaithful j).remove (tracked_of_run run j)
    · exact (faithful_merge_iff_keeps hids run hbound j k).mpr (hkeeps j k rfl)
  · rw [hframe i hi]
    exact hfaithful i

/-- **Observed-remove semantics.** A run stays faithful to its histories throughout exactly when
every merge keeps its elements: when each element one of the two sides holds has a tag there that no
remove known to either side has dropped. -/
theorem faithful_iff_keeps (hids : Function.Injective nodeId)
    (hadds : ∀ i, addsBy i tr < 2 ^ 64) :
    (∀ tr' s', (system nodeId).Run tr' s' → tr' <+: tr → ∀ i, (s'.replica i).Faithful) ↔
      ∀ tr' s' i j, (system nodeId).Run tr' s' → tr' ++ [.merge i j] <+: tr →
        (s'.replica i).Keeps (s'.replica j) := by
  constructor
  · intro hfaithful tr' s' i j run' hpre
    obtain ⟨s'', hstep⟩ := exists_step nodeId s' (.merge i j)
    have hactor : s''.replica i = (s'.replica i).merge (s'.replica j) := (replica_step hstep).1
    -- the replica is faithful after the merge too
    have hnext := hfaithful _ s'' (.step run' hstep) hpre i
    rw [hactor] at hnext
    refine (faithful_merge_iff_keeps hids run' (fun k ↦ ?_) i j).mp hnext
    exact (addsBy_mono ((List.prefix_append _ _).trans hpre) k).trans_lt (hadds k)
  · intro hkeeps tr' s' run'
    induction run' with
    | start h =>
      obtain rfl := h
      exact fun _ i ↦ Replica.faithful_new (nodeId i)
    | @step tr' s' s'' a run' h ih =>
      intro hpre
      refine faithful_step hids run' (fun k ↦ (addsBy_mono hpre k).trans_lt (hadds k)) h
        (ih ((List.prefix_append _ _).trans hpre)) ?_
      rintro i j rfl
      exact hkeeps tr' s' i j run' hpre

/-! ## Two replicas -/

/-- The ids of two nodes. -/
def nodes (second : Bool) : String := if second then "node-b" else "node-a"

theorem injective_nodes : Function.Injective nodes := by decide

/-- An add that the other replica merges. -/
def shared : List (Action Bool String) := [.add false "alice", .merge true false]

theorem faithful_shared :
    (∀ tr s, (system nodes).Run tr s → tr <+: shared → ∀ i, (s.replica i).Faithful) ↔
      ∀ tr s i j, (system nodes).Run tr s → tr ++ [.merge i j] <+: shared →
        (s.replica i).Keeps (s.replica j) :=
  faithful_iff_keeps injective_nodes (by decide)

/-- The first replica removes the element and merges the second, which has not heard of it. -/
theorem not_faithful :
    ¬ ∀ tr : List (Action Bool String), (∀ i, addsBy i tr < 2 ^ 64) →
      ∀ s, (system nodes).Run tr s → ∀ i, (s.replica i).Faithful := by
  intro h
  have run₀ : (system nodes).Run [] (⟨0, fun i ↦ .new (nodes i)⟩ : State Bool String) := .start rfl
  obtain ⟨s₁, h₁⟩ := exists_step nodes _ (.add false "alice")
  obtain ⟨s₂, h₂⟩ := exists_step nodes s₁ (.merge true false)
  obtain ⟨s₃, h₃⟩ := exists_step nodes s₂ (.remove false "alice")
  obtain ⟨s₄, h₄⟩ := exists_step nodes s₃ (.merge false true)
  have run₂ := System.Run.step (.step run₀ h₁) h₂
  have hadd : s₁.replica false = (Replica.new "node-a").add 0 "alice" := (replica_step h₁).1
  have hidle : s₁.replica true = Replica.new "node-b" := (replica_step h₁).2 true (by decide)
  have hkept : s₂.replica false = s₁.replica false := (replica_step h₂).2 false (by decide)
  have hother : s₂.replica true = (s₁.replica true).merge (s₁.replica false) :=
    (replica_step h₂).1
  have hremove : s₃.replica false = (s₂.replica false).remove "alice" := (replica_step h₃).1
  have hstale : s₃.replica true = s₂.replica true := (replica_step h₃).2 true (by decide)
  have hlast : s₄.replica false = (s₃.replica false).merge (s₃.replica true) :=
    (replica_step h₄).1
  have hfaithful := h _ (by decide) s₄ (.step (.step run₂ h₃) h₄) false
  rw [hlast, hremove, hstale] at hfaithful
  refine Replica.not_faithful_merge_remove (tracked_of_run run₂ false) ?_ ?_ hfaithful
  · rw [hother, hidle, hkept]
    exact Set.union_subset (Set.empty_subset _) subset_rfl
  · rw [hother, hadd, Replica.contains_merge]
    exact Or.inr rfl

end Replicas

end Arxia
