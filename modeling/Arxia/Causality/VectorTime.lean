import Arxia.Causality.Execution
import Mathlib.Algebra.GroupWithZero.Nat
import Mathlib.Order.Lattice.Nat
import Mathlib.Data.List.Forall2

/-!
# Vector time

Vector time counts, for each node, the events of it that are known. A node that has events counts
one more of its own with each of them, and takes the maximum with what it receives.

A vector is a cut: it holds the first so many events of each node. The cut of a maximum is the union
of the cuts, and counting one more event of a node adds just that event, so the cut of an event is
its causal past. Hence vectors are ordered as their events are, and this is the theorem of Fidge and
Mattern.

`Protocol.simulates` carries this over to other states. A protocol that keeps its states related to
vector time step by step runs through, and every state it leaves is related to the time it leaves.
-/

namespace Causality

variable {ι O C : Type} [DecidableEq ι]

/-! ## Numbering the events of a node -/

/-- The number of events of a node among the first `n`. -/
def count (tr : List (Event ι O)) (n : ℕ) (i : ι) : ℕ := (tr.take n).countP fun e ↦ e.node = i

section Count

variable {tr : List (Event ι O)} {a n m : ℕ} {i : ι} {e : Event ι O}

theorem count_zero (tr : List (Event ι O)) (i : ι) : count tr 0 i = 0 := rfl

theorem count_succ (he : tr[n]? = some e) (i : ι) :
    count tr (n + 1) i = count tr n i + if e.node = i then 1 else 0 := by
  obtain ⟨hn, rfl⟩ := List.getElem?_eq_some_iff.mp he
  rw [count, List.take_succ_eq_append_getElem hn, List.countP_append, List.countP_singleton,
    ← count]
  simp

theorem count_mono (h : m ≤ n) (i : ι) : count tr m i ≤ count tr n i :=
  (List.take_sublist_take_left h).countP_le

theorem count_le_length (tr : List (Event ι O)) (n : ℕ) (i : ι) :
    count tr n i ≤ count tr tr.length i := by
  rw [count, count, List.take_length]
  exact (List.take_sublist n tr).countP_le

/-- A node has an event for each number up to its count. -/
theorem exists_count_eq (hm : 0 < m) (hle : m ≤ count tr n i) :
    ∃ a e, a < n ∧ tr[a]? = some e ∧ e.node = i ∧ count tr (a + 1) i = m := by
  induction n with
  | zero => rw [count_zero] at hle; omega
  | succ n ih =>
    by_cases hn : m ≤ count tr n i
    · obtain ⟨a, e, hlt, ha⟩ := ih hn
      exact ⟨a, e, Nat.lt_succ_of_lt hlt, ha⟩
    · rcases he : tr[n]? with _ | e
      · -- the list has ended before `n`
        have hlen : tr.length ≤ n := List.getElem?_eq_none_iff.mp he
        rw [count, List.take_of_length_le (hlen.trans (Nat.le_succ n))] at hle
        rw [count, List.take_of_length_le hlen] at hn
        exact absurd hle hn
      · have hsucc := count_succ he i
        by_cases hnode : e.node = i
        · rw [if_pos hnode] at hsucc
          exact ⟨n, e, Nat.lt_succ_self n, he, hnode, by omega⟩
        · rw [if_neg hnode] at hsucc
          omega

end Count

/-! ## Cuts -/

/-- Count one more event of a node. -/
def tick (i : ι) (v : ι → ℕ) : ι → ℕ := Function.update v i (v i + 1)

theorem tick_self (i : ι) (v : ι → ℕ) : tick i v i = v i + 1 := Function.update_self _ _ _

theorem tick_of_ne {i j : ι} (h : j ≠ i) (v : ι → ℕ) : tick i v j = v j :=
  Function.update_of_ne h _ _

/-- The event is among those a vector counts. -/
def Within (tr : List (Event ι O)) (v : ι → ℕ) (a : ℕ) : Prop :=
  ∃ e, tr[a]? = some e ∧ count tr (a + 1) e.node ≤ v e.node

section Within

variable {tr : List (Event ι O)} {v w : ι → ℕ} {a n : ℕ} {e : Event ι O}

theorem Within.mono (h : Within tr v a) (hle : v ≤ w) : Within tr w a := by
  obtain ⟨e, he, hcount⟩ := h
  exact ⟨e, he, hcount.trans (hle e.node)⟩

theorem not_within_zero : ¬ Within tr 0 a := by
  rintro ⟨e, he, hcount⟩
  rw [count_succ he, if_pos rfl, Pi.zero_apply] at hcount
  omega

/-- The cut of a maximum is the union. -/
theorem within_sup : Within tr (v ⊔ w) a ↔ Within tr v a ∨ Within tr w a := by
  constructor
  · rintro ⟨e, he, hcount⟩
    exact (le_sup_iff.mp hcount).imp (fun h ↦ ⟨e, he, h⟩) fun h ↦ ⟨e, he, h⟩
  · exact Or.rec (fun h ↦ h.mono le_sup_left) fun h ↦ h.mono le_sup_right

/-- Counting the next event of a node adds this event. -/
theorem within_tick (he : tr[n]? = some e) (hv : v e.node = count tr n e.node) :
    Within tr (tick e.node v) a ↔ a = n ∨ Within tr v a := by
  have hnext := count_succ he e.node
  rw [if_pos rfl] at hnext
  constructor
  · rintro ⟨ea, ha, hcount⟩
    by_cases hnode : ea.node = e.node
    · rw [hnode, tick_self, hv] at hcount
      rcases Nat.lt_trichotomy a n with hlt | rfl | hlt
      · refine Or.inr ⟨ea, ha, ?_⟩
        rw [hnode, hv]
        exact count_mono hlt e.node
      · exact Or.inl rfl
      · -- a later event of the node has a greater number
        have hlater := count_succ ha e.node
        rw [if_pos hnode] at hlater
        have hmono : count tr (n + 1) e.node ≤ count tr a e.node := count_mono hlt e.node
        omega
    · rw [tick_of_ne hnode] at hcount
      exact Or.inr ⟨ea, ha, hcount⟩
  · rintro (rfl | hwithin)
    · exact ⟨e, he, by rw [tick_self, hnext, hv]⟩
    · refine hwithin.mono fun j ↦ ?_
      by_cases hj : j = e.node
      · rw [hj, tick_self]
        exact Nat.le_succ _
      · rw [tick_of_ne hj]

end Within

/-! ## The time of an execution -/

/-- What the node of an event counts when it has taken in what it receives. -/
def merged (s : State ι (ι → ℕ)) (e : Event ι O) : ι → ℕ :=
  s.current e.node ⊔ (e.source.bind fun k ↦ s.stamps[k]?).getD 0

/-- Vector time after `n` events. -/
def time (tr : List (Event ι O)) : ℕ → State ι (ι → ℕ)
  | 0 => ⟨fun _ ↦ 0, []⟩
  | n + 1 => match tr[n]? with
    | none => time tr n
    | some e => (time tr n).record e.node (tick e.node (merged (time tr n) e))

/-- What vectors mean after `n` events. -/
structure Timed (tr : List (Event ι O)) (n : ℕ) (s : State ι (ι → ℕ)) : Prop where
  length : s.stamps.length = n
  /-- A node counts what it knows. -/
  known : ∀ i a, Within tr (s.current i) a ↔ Known tr n i a
  /-- An event counts its past. -/
  past : ∀ (b : ℕ) (v : ι → ℕ), s.stamps[b]? = some v → ∀ a, Within tr v a ↔ InPast tr a b
  own : ∀ i, s.current i i = count tr n i
  le : ∀ i, s.current i ≤ count tr n
  stamp_own : ∀ (b : ℕ) (v : ι → ℕ) (e : Event ι O), s.stamps[b]? = some v → tr[b]? = some e →
    v e.node = count tr (b + 1) e.node
  stamp_le : ∀ (b : ℕ) (v : ι → ℕ), s.stamps[b]? = some v → v ≤ count tr n

theorem timed_start (tr : List (Event ι O)) : Timed tr 0 (time tr 0) where
  length := rfl
  known := fun _ _ ↦ iff_of_false not_within_zero not_known_zero
  past := fun b v h ↦ by simp [time] at h
  own := fun _ ↦ rfl
  le := fun _ _ ↦ Nat.zero_le _
  stamp_own := fun b v e h ↦ by simp [time] at h
  stamp_le := fun b v h ↦ by simp [time] at h

section Time

variable {tr : List (Event ι O)} {n : ℕ} {e : Event ι O} {s : State ι (ι → ℕ)}

/-- What an event receives has counted no more events than there are. -/
theorem Timed.received_le (h : Timed tr n s) (source : Option ℕ) :
    (source.bind fun k ↦ s.stamps[k]?).getD 0 ≤ count tr n := by
  rcases hreceived : source.bind fun k ↦ s.stamps[k]? with _ | w
  · exact fun _ ↦ Nat.zero_le _
  · obtain ⟨k, -, hk⟩ := Option.bind_eq_some_iff.mp hreceived
    exact h.stamp_le k w hk

theorem Timed.merged_le (h : Timed tr n s) (e : Event ι O) : merged s e ≤ count tr n :=
  sup_le (h.le e.node) (h.received_le e.source)

/-- Nobody knows more events of a node than the node itself. -/
theorem Timed.merged_own (h : Timed tr n s) (e : Event ι O) :
    merged s e e.node = count tr n e.node := by
  refine le_antisymm (h.merged_le e e.node) ?_
  rw [← h.own e.node]
  exact le_sup_left (a := s.current e.node) e.node

/-- What is received counts the past of its origin. -/
theorem Timed.within_received (h : Timed tr n s) (hcausal : Causal tr) (he : tr[n]? = some e)
    (a : ℕ) : Within tr ((e.source.bind fun k ↦ s.stamps[k]?).getD 0) a ↔
      ∃ k, e.source = some k ∧ InPast tr a k := by
  rcases hk : e.source with _ | k
  · exact iff_of_false not_within_zero (by simp)
  · obtain ⟨v, hv⟩ : ∃ v, s.stamps[k]? = some v :=
      ⟨_, List.getElem?_eq_getElem (h.length ▸ hcausal n e k he hk)⟩
    rw [Option.bind_some, hv, Option.getD_some, h.past k v hv]
    simp

/-- **The cut of an event is its past.** -/
theorem Timed.within_next (h : Timed tr n s) (hcausal : Causal tr) (he : tr[n]? = some e) (a : ℕ) :
    Within tr (tick e.node (merged s e)) a ↔ InPast tr a n := by
  rw [within_tick he (h.merged_own e), merged, within_sup, h.known,
    h.within_received hcausal he, inPast_iff hcausal he]

theorem Timed.next_le (h : Timed tr n s) (he : tr[n]? = some e) :
    tick e.node (merged s e) ≤ count tr (n + 1) := by
  intro j
  rw [count_succ he j]
  by_cases hj : j = e.node
  · rw [hj, tick_self, h.merged_own, if_pos rfl]
  · rw [tick_of_ne hj]
    exact (h.merged_le e j).trans (Nat.le_add_right _ _)

/-- **One event.** -/
theorem Timed.succ (h : Timed tr n s) (hcausal : Causal tr) (he : tr[n]? = some e) :
    Timed tr (n + 1) (s.record e.node (tick e.node (merged s e))) := by
  have hmono : count tr n ≤ count tr (n + 1) := fun j ↦ count_mono (Nat.le_succ n) j
  refine ⟨?_, fun i a ↦ ?_, fun b v hb a ↦ ?_, fun i ↦ ?_, fun i ↦ ?_, fun b v eb hb heb ↦ ?_,
    fun b v hb ↦ ?_⟩
  · rw [State.stamps_record, List.length_append, h.length, List.length_singleton]
  · rw [known_succ he]
    by_cases hi : i = e.node
    · subst hi
      -- what was known before is still counted
      rw [State.current_record_self, h.within_next hcausal he, ← h.known]
      refine ⟨fun ha ↦ Or.inr ⟨rfl, ha⟩, Or.rec (fun ha ↦ ?_) And.right⟩
      exact (h.within_next hcausal he a).mp
        ((within_tick he (h.merged_own e)).mpr (Or.inr (ha.mono le_sup_left)))
    · rw [State.current_record_of_ne hi, h.known, or_iff_left fun hnode ↦ hi hnode.1.symm]
  · rcases State.stamp_record.mp hb with hb | ⟨rfl, rfl⟩
    · exact h.past b v hb a
    · rw [h.length]
      exact h.within_next hcausal he a
  · rw [count_succ he]
    by_cases hi : i = e.node
    · rw [hi, State.current_record_self, tick_self, h.merged_own, if_pos rfl]
    · rw [State.current_record_of_ne hi, h.own, if_neg (Ne.symm hi), Nat.add_zero]
  · by_cases hi : i = e.node
    · rw [hi, State.current_record_self]
      exact h.next_le he
    · rw [State.current_record_of_ne hi]
      exact (h.le i).trans hmono
  · rcases State.stamp_record.mp hb with hb | ⟨rfl, rfl⟩
    · exact h.stamp_own b v eb hb heb
    · rw [h.length] at heb ⊢
      obtain rfl := Option.some_inj.mp (he.symm.trans heb)
      rw [tick_self, h.merged_own, count_succ he, if_pos rfl]
  · rcases State.stamp_record.mp hb with hb | ⟨-, rfl⟩
    · exact (h.stamp_le b v hb).trans hmono
    · exact h.next_le he

theorem time_succ (he : tr[n]? = some e) :
    time tr (n + 1) = (time tr n).record e.node (tick e.node (merged (time tr n) e)) := by
  rw [time, he]

/-- **Vectors count the causal past.** -/
theorem timed_time (hcausal : Causal tr) (hn : n ≤ tr.length) : Timed tr n (time tr n) := by
  induction n with
  | zero => exact timed_start tr
  | succ n ih =>
    have he : tr[n]? = some tr[n] := List.getElem?_eq_getElem hn
    rw [time_succ he]
    exact (ih (Nat.le_of_succ_le hn)).succ hcausal he

end Time

/-! ## Vectors are ordered as their events are -/

namespace Timed

variable {tr : List (Event ι O)} {n a b : ℕ} {s : State ι (ι → ℕ)} {v w : ι → ℕ}

theorem le_iff (h : Timed tr n s) (hn : n ≤ tr.length) (hv : s.stamps[a]? = some v)
    (hw : s.stamps[b]? = some w) : v ≤ w ↔ InPast tr a b := by
  constructor
  · intro hle
    obtain ⟨hlt, -⟩ := List.getElem?_eq_some_iff.mp hv
    rw [h.length] at hlt
    have he : tr[a]? = some tr[a] := List.getElem?_eq_getElem (hlt.trans_le hn)
    -- the stamp of `a` counts `a` itself, and so does that of `b`
    refine (h.past b w hw a).mp ⟨_, he, ?_⟩
    rw [← h.stamp_own a v _ hv he]
    exact hle _
  · intro hpast j
    rcases Nat.eq_zero_or_pos (v j) with hzero | hpos
    · rw [hzero]
      exact Nat.zero_le _
    · -- the last event of `j` in the past of `a`
      obtain ⟨c, e, -, hc, rfl, hcount⟩ := exists_count_eq hpos (h.stamp_le a v hv j)
      have hca : InPast tr c a := (h.past a v hv c).mp ⟨e, hc, hcount.le⟩
      obtain ⟨e', hc', hle⟩ := (h.past b w hw c).mpr (hca.trans hpast)
      obtain rfl := Option.some_inj.mp (hc.symm.trans hc')
      rw [← hcount]
      exact hle

theorem eq_iff (h : Timed tr n s) (hn : n ≤ tr.length) (hv : s.stamps[a]? = some v)
    (hw : s.stamps[b]? = some w) : v = w ↔ a = b := by
  constructor
  · rintro rfl
    exact le_antisymm ((h.le_iff hn hv hw).mp le_rfl).le ((h.le_iff hn hw hv).mp le_rfl).le
  · rintro rfl
    exact Option.some_inj.mp (hv.symm.trans hw)

/-- **The order of vectors is causal precedence.** -/
theorem lt_iff (h : Timed tr n s) (hn : n ≤ tr.length) (hv : s.stamps[a]? = some v)
    (hw : s.stamps[b]? = some w) : v < w ↔ Precedes tr a b := by
  rw [lt_iff_le_and_ne, h.le_iff hn hv hw, Ne, h.eq_iff hn hv hw]
  constructor
  · rintro ⟨hpast, hne⟩
    exact hpast.eq_or_precedes.resolve_left hne
  · exact fun hprecedes ↦ ⟨hprecedes.inPast, hprecedes.lt.ne⟩

end Timed

/-! ## Protocols that keep vector time -/

/-- **Simulation.** A protocol whose states stay related to vector time runs through, and leaves
states related to the times it leaves. -/
theorem Protocol.simulates {P : Protocol ι O C} {tr : List (Event ι O)} (hcausal : Causal tr)
    {R : C → (ι → ℕ) → Prop} (start : R P.start 0)
    (perform : ∀ n i op c v, tr[n]? = some (.perform i op) → v i = count tr n i →
      v ≤ count tr n → R c v → ∃ c', P.perform i op c = some c' ∧ R c' (tick i v))
    (receive : ∀ n i k c v m w, tr[n]? = some (.receive i k) → v i = count tr n i →
      v ≤ count tr n → w ≤ count tr n → R c v → R m w →
        ∃ c', P.receive i c m = some c' ∧ R c' (tick i (v ⊔ w))) :
    ∃ s, P.execute tr = some s ∧
      (∀ i, R (s.current i) ((time tr tr.length).current i)) ∧
      List.Forall₂ R s.stamps (time tr tr.length).stamps := by
  refine execute_of_steps (I := fun n s ↦ (∀ i, R (s.current i) ((time tr n).current i)) ∧
    List.Forall₂ R s.stamps (time tr n).stamps) ⟨fun _ ↦ start, .nil⟩ ?_
  rintro n e s he ⟨hcurrent, hstamps⟩
  obtain ⟨hn, -⟩ := List.getElem?_eq_some_iff.mp he
  have htimed := timed_time hcausal hn.le
  have hrecord : ∀ {i : ι} {c : C} {v : ι → ℕ}, R c v →
      (∀ j, R ((s.record i c).current j) (((time tr n).record i v).current j)) ∧
        List.Forall₂ R (s.record i c).stamps ((time tr n).record i v).stamps := by
    intro i c v hc
    refine ⟨fun j ↦ ?_, List.rel_append hstamps (.cons hc .nil)⟩
    by_cases hj : j = i
    · rw [hj, State.current_record_self, State.current_record_self]
      exact hc
    · rw [State.current_record_of_ne hj, State.current_record_of_ne hj]
      exact hcurrent j
  rw [time_succ he]
  rcases e with ⟨i, op⟩ | ⟨i, source⟩
  · obtain ⟨c', hc', hR⟩ := perform n i op _ _ he (htimed.own i) (htimed.le i) (hcurrent i)
    have hmerged : merged (time tr n) (.perform i op) = (time tr n).current i :=
      sup_eq_left.mpr fun _ ↦ Nat.zero_le _
    refine ⟨s.record i c', by rw [Protocol.step, hc', Option.map_some], hrecord ?_⟩
    rw [hmerged]
    exact hR
  · -- the message and the time it carries
    obtain ⟨m, hm, hmR⟩ : ∃ m, (source.elim (some P.start) fun k ↦ s.stamps[k]?) = some m ∧
        R m ((source.bind fun k ↦ (time tr n).stamps[k]?).getD 0) := by
      rcases source with _ | k
      · exact ⟨P.start, rfl, start⟩
      · have hk : k < (time tr n).stamps.length := by
          rw [htimed.length]
          exact hcausal n _ k he rfl
        have hk' : k < s.stamps.length := hstamps.length_eq ▸ hk
        refine ⟨s.stamps[k], List.getElem?_eq_getElem hk', ?_⟩
        rw [Option.bind_some, List.getElem?_eq_getElem hk, Option.getD_some]
        exact hstamps.get hk' hk
    obtain ⟨c', hc', hR⟩ := receive n i source _ _ m _ he (htimed.own i) (htimed.le i)
      (htimed.received_le source) (hcurrent i) hmR
    refine ⟨s.record i c', ?_, hrecord hR⟩
    rw [Protocol.step, hm, Option.bind_eq_bind, Option.bind_some, hc']
    rfl

end Causality
