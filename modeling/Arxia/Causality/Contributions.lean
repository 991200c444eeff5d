import Arxia.Causality.VectorTime
import Mathlib.Algebra.BigOperators.Group.Finset.Piecewise

/-!
# What the nodes have contributed

Replicas whose state is a summary of the operations they know keep, for each node, a summary of the
node's first so many operations. `contributed f tr v i` are these operations: what `f` makes of the
first `v i` events of node `i`. An event appends its own, a maximum takes the longer list, and a cut
that holds every event `f` is about has all there is.
-/

namespace Causality

variable {ι O α : Type} [DecidableEq ι]

/-- The events of a node, in their order. -/
def ofNode (tr : List (Event ι O)) (i : ι) : List (Event ι O) := tr.filter fun e ↦ e.node = i

/-- What `f` makes of the events of a node that a vector counts. -/
def contributed (f : Event ι O → Option α) (tr : List (Event ι O)) (v : ι → ℕ) (i : ι) : List α :=
  ((ofNode tr i).take (v i)).filterMap f

variable {f : Event ι O → Option α} {tr : List (Event ι O)} {v w : ι → ℕ} {n k : ℕ} {i : ι}
  {e : Event ι O}

theorem length_filter_take (tr : List (Event ι O)) (n : ℕ) (i : ι) :
    ((tr.take n).filter fun e ↦ e.node = i).length = count tr n i :=
  List.countP_eq_length_filter.symm

theorem length_ofNode (tr : List (Event ι O)) (i : ι) :
    (ofNode tr i).length = count tr tr.length i := by
  rw [ofNode, count, List.take_length, List.countP_eq_length_filter]

/-- The numbers of the events are their places in the list. -/
theorem take_count (tr : List (Event ι O)) (n : ℕ) (i : ι) :
    (ofNode tr i).take (count tr n i) = (tr.take n).filter fun e ↦ e.node = i := by
  have htake := (List.take_prefix n tr).filter fun e : Event ι O ↦ e.node = i
  rw [← length_filter_take]
  exact (List.prefix_iff_eq_take.mp htake).symm

theorem take_count_add_one (he : tr[n]? = some e) :
    (ofNode tr e.node).take (count tr n e.node + 1) =
      (ofNode tr e.node).take (count tr n e.node) ++ [e] := by
  obtain ⟨hn, rfl⟩ := List.getElem?_eq_some_iff.mp he
  have hsucc := count_succ he tr[n].node
  rw [if_pos rfl] at hsucc
  rw [← hsucc, take_count, take_count, List.take_succ_eq_append_getElem hn, List.filter_append,
    List.filter_singleton]
  simp

/-- **An event appends its contribution.** -/
theorem contributed_tick_self (f : Event ι O → Option α) (he : tr[n]? = some e)
    (hv : v e.node = count tr n e.node) : contributed f tr (tick e.node v) e.node =
      contributed f tr v e.node ++ (f e).toList := by
  rw [contributed, tick_self, hv, take_count_add_one he, List.filterMap_append, contributed, hv,
    List.filterMap_cons, List.filterMap_nil]
  rcases f e with _ | a <;> rfl

theorem contributed_tick_of_ne {j : ι} (h : j ≠ i) : contributed f tr (tick i v) j =
    contributed f tr v j := by
  rw [contributed, tick_of_ne h, contributed]

/-- An event without a contribution changes nothing. -/
theorem contributed_tick_of_none (he : tr[n]? = some e) (hv : v e.node = count tr n e.node)
    (hf : f e = none) : contributed f tr (tick e.node v) = contributed f tr v := by
  funext j
  by_cases hj : j = e.node
  · rw [hj, contributed_tick_self f he hv, hf, Option.toList_none, List.append_nil]
  · exact contributed_tick_of_ne hj

theorem contributed_mono (h : v i ≤ w i) : contributed f tr v i <+: contributed f tr w i :=
  (List.take_prefix_take_left h).filterMap f

/-- Of two cuts one has contributed all that both have. -/
theorem contributed_sup (f : Event ι O → Option α) (tr : List (Event ι O)) (v w : ι → ℕ) (i : ι) :
    contributed f tr v i <+: contributed f tr w i ∧
        contributed f tr (v ⊔ w) i = contributed f tr w i ∨
      contributed f tr w i <+: contributed f tr v i ∧
        contributed f tr (v ⊔ w) i = contributed f tr v i := by
  rcases le_total (v i) (w i) with h | h
  · refine Or.inl ⟨contributed_mono h, ?_⟩
    rw [contributed, Pi.sup_apply, sup_eq_right.mpr h, contributed]
  · refine Or.inr ⟨contributed_mono h, ?_⟩
    rw [contributed, Pi.sup_apply, sup_eq_left.mpr h, contributed]

/-- The events of a node beyond a number. -/
theorem exists_of_mem_drop (h : e ∈ (ofNode tr i).drop k) :
    ∃ a, tr[a]? = some e ∧ e.node = i ∧ k < count tr (a + 1) i := by
  obtain ⟨m, hm, hget⟩ := List.getElem_of_mem h
  rw [List.length_drop, length_ofNode] at hm
  rw [List.getElem_drop] at hget
  have hnumber : k + m + 1 ≤ count tr tr.length i := by omega
  obtain ⟨a, ea, -, ha, rfl, hcount⟩ := exists_count_eq (Nat.succ_pos (k + m)) hnumber
  have hsucc := count_succ ha ea.node
  rw [if_pos rfl, hcount] at hsucc
  have htake := take_count_add_one ha
  rw [← Nat.succ.inj hsucc,
    List.take_succ_eq_append_getElem (by rw [length_ofNode]; exact hnumber), hget,
    List.append_cancel_left_eq, List.singleton_inj] at htake
  subst htake
  exact ⟨a, ha, rfl, by omega⟩

/-- **A cut that holds every contributing event** has all contributions. -/
theorem contributed_eq_of_within (h : ∀ a e, tr[a]? = some e → f e ≠ none → Within tr v a) (i : ι) :
    contributed f tr v i = (ofNode tr i).filterMap f := by
  have hrest : ((ofNode tr i).drop (v i)).filterMap f = [] := by
    refine List.filterMap_eq_nil_iff.mpr fun e he ↦ ?_
    obtain ⟨a, ha, hnode, hlt⟩ := exists_of_mem_drop he
    by_contra hne
    obtain ⟨e', ha', hle⟩ := h a e ha hne
    obtain rfl := Option.some_inj.mp (ha.symm.trans ha')
    rw [hnode] at hle
    omega
  conv_rhs => rw [← List.take_append_drop (v i) (ofNode tr i), List.filterMap_append, hrest,
    List.append_nil]
  rfl

/-- What the nodes have contributed between them is what the execution has. -/
theorem sum_ofNode (f : Event ι O → Option α) (g : α → ℕ) {S : Finset ι}
    (hS : ∀ e ∈ tr, e.node ∈ S) :
    ∑ i ∈ S, (((ofNode tr i).filterMap f).map g).sum = ((tr.filterMap f).map g).sum := by
  induction tr with
  | nil => simp [ofNode]
  | cons e tr ih =>
    obtain ⟨he, hS⟩ := List.forall_mem_cons.mp hS
    have hsplit : ∀ i ∈ S, (((ofNode (e :: tr) i).filterMap f).map g).sum =
        (if e.node = i then (((f e).toList).map g).sum else 0) +
          (((ofNode tr i).filterMap f).map g).sum := by
      intro i _
      by_cases hi : e.node = i
      · rw [if_pos hi, ofNode, List.filter_cons_of_pos (by simpa using hi), ← ofNode,
          List.filterMap_cons]
        rcases f e with _ | a <;> simp
      · rw [if_neg hi, ofNode, List.filter_cons_of_neg (by simpa using hi), ← ofNode, Nat.zero_add]
    rw [Finset.sum_congr rfl hsplit, Finset.sum_add_distrib, ih hS, Finset.sum_ite_eq, if_pos he,
      List.filterMap_cons]
    rcases f e with _ | a <;> simp

end Causality
