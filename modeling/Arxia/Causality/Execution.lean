import Mathlib.Data.List.Basic
import Mathlib.Logic.Relation
import Mathlib.Order.Nat

/-!
# Executions of nodes that exchange their states

An execution is the list of its events in an order in which they could have happened. An event is an
operation of a node on its own state, or the receipt of a state: of the one some event left at its
node, however long ago, or of the one every node starts with. States are received any number of
times and in any order, so delay, duplication and reordering need nothing of their own.

`Precedes` is causal precedence: earlier at the same node, or the origin of what is received, closed
under transitivity. What a node knows are the events in the causal past of its own, and the past of
an event is the event, what its node knew before, and the past of what it receives. Those two facts
are all that later files use.
-/

namespace Causality

variable {ι O C : Type}

/-- What happens at a node: an operation of its own, or the receipt of the state an event has left.
`none` is the state all nodes start with. -/
inductive Event (ι O : Type)
  | perform (node : ι) (op : O)
  | receive (node : ι) (source : Option ℕ)
  deriving DecidableEq

namespace Event

/-- Where it happens. -/
def node : Event ι O → ι
  | .perform i _ => i
  | .receive i _ => i

/-- The event whose state is received. -/
def source : Event ι O → Option ℕ
  | .perform _ _ => none
  | .receive _ k => k

@[simp] theorem node_perform (i : ι) (op : O) : (perform i op).node = i := rfl

@[simp] theorem node_receive (i : ι) (k : Option ℕ) : (receive i k : Event ι O).node = i := rfl

@[simp] theorem source_perform (i : ι) (op : O) : (perform i op).source = none := rfl

@[simp] theorem source_receive (i : ι) (k : Option ℕ) : (receive i k : Event ι O).source = k := rfl

end Event

/-! ## Causal precedence -/

section Past

variable (tr : List (Event ι O))

/-- Nothing is received before it is there. -/
def Causal : Prop :=
  ∀ (n : ℕ) (e : Event ι O) (k : ℕ), tr[n]? = some e → e.source = some k → k < n

/-- Earlier at the same node, or the origin of what is received. -/
def Directly (a b : ℕ) : Prop :=
  a < b ∧ ∃ ea eb, tr[a]? = some ea ∧ tr[b]? = some eb ∧
    (ea.node = eb.node ∨ eb.source = some a)

/-- Causal precedence. -/
def Precedes : ℕ → ℕ → Prop := Relation.TransGen (Directly tr)

/-- The causal past of an event, itself included. -/
def InPast : ℕ → ℕ → Prop := Relation.ReflTransGen (Directly tr)

/-- Among the first `n` events there is one of node `i` with `a` in its past. -/
def Known (n : ℕ) (i : ι) (a : ℕ) : Prop :=
  ∃ b e, b < n ∧ tr[b]? = some e ∧ e.node = i ∧ InPast tr a b

variable {tr} {a b n : ℕ} {i : ι} {e : Event ι O}

theorem InPast.le (h : InPast tr a b) : a ≤ b := by
  induction h with
  | refl => exact le_refl a
  | tail _ hdirect ih => exact le_trans ih hdirect.1.le

theorem InPast.eq_or_precedes (h : InPast tr a b) : a = b ∨ Precedes tr a b :=
  (Relation.reflTransGen_iff_eq_or_transGen.mp h).imp_left Eq.symm

theorem Precedes.inPast (h : Precedes tr a b) : InPast tr a b := h.to_reflTransGen

theorem Precedes.lt (h : Precedes tr a b) : a < b := by
  obtain ⟨c, hac, hdirect⟩ := Relation.TransGen.tail'_iff.mp h
  exact lt_of_le_of_lt (InPast.le hac) hdirect.1

/-- **The past of an event** is the event, what its node knew, and the past of what it receives. -/
theorem inPast_iff (hcausal : Causal tr) (he : tr[n]? = some e) : InPast tr a n ↔
    a = n ∨ Known tr n e.node a ∨ ∃ k, e.source = some k ∧ InPast tr a k := by
  rw [InPast, Relation.ReflTransGen.cases_tail_iff]
  refine or_congr eq_comm ⟨?_, ?_⟩
  · rintro ⟨c, hac, hlt, ec, en, hc, hn, horigin⟩
    obtain rfl := Option.some_inj.mp (he.symm.trans hn)
    rcases horigin with hnode | hsource
    · exact Or.inl ⟨c, ec, hlt, hc, hnode, hac⟩
    · exact Or.inr ⟨c, hsource, hac⟩
  · rintro (⟨c, ec, hlt, hc, hnode, hac⟩ | ⟨k, hsource, hak⟩)
    · exact ⟨c, hac, hlt, ec, e, hc, he, Or.inl hnode⟩
    · have hlt := hcausal n e k he hsource
      obtain ⟨ek, hk⟩ : ∃ ek, tr[k]? = some ek := by
        obtain ⟨hn, -⟩ := List.getElem?_eq_some_iff.mp he
        exact ⟨tr[k], List.getElem?_eq_getElem (hlt.trans hn)⟩
      exact ⟨k, hak, hlt, ek, e, hk, he, Or.inr hsource⟩

/-- A node learns the past of its events, and nothing else. -/
theorem known_succ (he : tr[n]? = some e) :
    Known tr (n + 1) i a ↔ Known tr n i a ∨ e.node = i ∧ InPast tr a n := by
  constructor
  · rintro ⟨b, eb, hlt, hb, hnode, hab⟩
    rcases Nat.lt_succ_iff_lt_or_eq.mp hlt with hlt | rfl
    · exact Or.inl ⟨b, eb, hlt, hb, hnode, hab⟩
    · obtain rfl := Option.some_inj.mp (he.symm.trans hb)
      exact Or.inr ⟨hnode, hab⟩
  · rintro (⟨b, eb, hlt, hb, hnode, hab⟩ | ⟨hnode, han⟩)
    · exact ⟨b, eb, Nat.lt_succ_of_lt hlt, hb, hnode, hab⟩
    · exact ⟨n, e, Nat.lt_succ_self n, he, hnode, han⟩

theorem not_known_zero : ¬ Known tr 0 i a := by
  rintro ⟨b, -, hlt, -⟩
  exact Nat.not_lt_zero b hlt

/-- What happens later does not change the past of an event. -/
theorem inPast_append {tr' : List (Event ι O)} (h : b < tr.length) :
    InPast (tr ++ tr') a b ↔ InPast tr a b := by
  constructor
  · intro hpast
    induction hpast with
    | refl => exact Relation.ReflTransGen.refl
    | tail _ hdirect ih =>
      obtain ⟨hlt, ea, eb, ha, hb, horigin⟩ := hdirect
      have hearlier := hlt.trans h
      rw [List.getElem?_append_left hearlier] at ha
      rw [List.getElem?_append_left h] at hb
      exact (ih hearlier).tail ⟨hlt, ea, eb, ha, hb, horigin⟩
  · intro hpast
    induction hpast with
    | refl => exact Relation.ReflTransGen.refl
    | tail _ hdirect ih =>
      obtain ⟨hlt, ea, eb, ha, hb, horigin⟩ := hdirect
      have hearlier := hlt.trans h
      refine (ih hearlier).tail ⟨hlt, ea, eb, ?_, ?_, horigin⟩
      · rwa [List.getElem?_append_left hearlier]
      · rwa [List.getElem?_append_left h]

/-- Nor does it change what was known before. -/
theorem known_append {tr' : List (Event ι O)} (h : n ≤ tr.length) :
    Known (tr ++ tr') n i a ↔ Known tr n i a := by
  constructor
  · rintro ⟨b, e, hlt, hb, hnode, hpast⟩
    have hb' := lt_of_lt_of_le hlt h
    rw [List.getElem?_append_left hb'] at hb
    exact ⟨b, e, hlt, hb, hnode, (inPast_append hb').mp hpast⟩
  · rintro ⟨b, e, hlt, hb, hnode, hpast⟩
    have hb' := lt_of_lt_of_le hlt h
    refine ⟨b, e, hlt, ?_, hnode, (inPast_append hb').mpr hpast⟩
    rwa [List.getElem?_append_left hb']

end Past

/-! ## Nodes with states -/

/-- What the nodes hold, and what each event so far has left at its node. -/
structure State (ι C : Type) where
  current : ι → C
  stamps : List C

namespace State

variable [DecidableEq ι]

/-- An event leaves a new state at its node. -/
def record (s : State ι C) (i : ι) (c : C) : State ι C :=
  ⟨Function.update s.current i c, s.stamps ++ [c]⟩

@[simp] theorem current_record_self (s : State ι C) (i : ι) (c : C) :
    (s.record i c).current i = c := Function.update_self _ _ _

theorem current_record_of_ne {i j : ι} (h : j ≠ i) (s : State ι C) (c : C) :
    (s.record i c).current j = s.current j := Function.update_of_ne h _ _

@[simp] theorem stamps_record (s : State ι C) (i : ι) (c : C) :
    (s.record i c).stamps = s.stamps ++ [c] := rfl

theorem stamp_record {s : State ι C} {i : ι} {c x : C} {b : ℕ} :
    (s.record i c).stamps[b]? = some x ↔
      s.stamps[b]? = some x ∨ b = s.stamps.length ∧ x = c := by
  rw [stamps_record, List.getElem?_append]
  split
  · rename_i hlt
    exact (or_iff_left fun h ↦ hlt.ne h.1).symm
  · rename_i hge
    rw [List.getElem?_eq_none_iff.mpr (Nat.le_of_not_lt hge), List.getElem?_singleton]
    constructor
    · intro h
      split at h
      · exact Or.inr ⟨by omega, (Option.some_inj.mp h).symm⟩
      · simp at h
    · rintro (h | ⟨rfl, rfl⟩)
      · simp at h
      · simp

end State

/-- What nodes do with their states; `none` is a panic. -/
structure Protocol (ι O C : Type) where
  /-- The state every node starts with. -/
  start : C
  /-- An operation of a node. -/
  perform : ι → O → C → Option C
  /-- The receipt of a state: the own one comes first. -/
  receive : ι → C → C → Option C

namespace Protocol

variable [DecidableEq ι] (P : Protocol ι O C)

/-- One event. It cannot receive what no event has left yet. -/
def step (s : State ι C) : Event ι O → Option (State ι C)
  | .perform i op => (P.perform i op (s.current i)).map (s.record i)
  | .receive i source => do
    let message ← source.elim (some P.start) fun k ↦ s.stamps[k]?
    let c ← P.receive i (s.current i) message
    pure (s.record i c)

/-- The whole execution. -/
def execute (tr : List (Event ι O)) : Option (State ι C) :=
  tr.foldlM P.step ⟨fun _ ↦ P.start, []⟩

variable {P}

/-- **Runs.** What holds at the start, and after an event when it did before, holds at the end. -/
theorem execute_of_steps {tr : List (Event ι O)} {I : ℕ → State ι C → Prop}
    (start : I 0 ⟨fun _ ↦ P.start, []⟩)
    (step : ∀ n e s, tr[n]? = some e → I n s → ∃ s', P.step s e = some s' ∧ I (n + 1) s') :
    ∃ s, P.execute tr = some s ∧ I tr.length s := by
  -- the invariant holds after every prefix of the run
  have htake : ∀ n ≤ tr.length, ∃ s,
      (tr.take n).foldlM P.step ⟨fun _ ↦ P.start, []⟩ = some s ∧ I n s := by
    intro n
    induction n with
    | zero => exact fun _ ↦ ⟨_, rfl, start⟩
    | succ n ih =>
      intro hn
      obtain ⟨s, hs, hI⟩ := ih (Nat.le_of_succ_le hn)
      have he : tr[n]? = some tr[n] := List.getElem?_eq_getElem hn
      obtain ⟨s', hstep, hI'⟩ := step n tr[n] s he hI
      refine ⟨s', ?_, hI'⟩
      rw [List.take_succ_eq_append_getElem hn, List.foldlM_append, hs]
      simpa using hstep
  obtain ⟨s, hs, hI⟩ := htake tr.length (Nat.le_refl _)
  rw [List.take_length] at hs
  exact ⟨s, hs, hI⟩

end Protocol

end Causality
