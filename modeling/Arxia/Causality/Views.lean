import Arxia.Causality.Execution
import Arxia.Transition.Runs

/-!
# What has come of the events in a past

The nodes here answer: an event returns something besides the state it leaves behind, and every node
starts in a state of its own.

The state of a node has come of the events that it knows, and the state an event has left of the
past of that event. `Service.views` is the induction over these: a state comes of a start by
operations, which add one event to its past, and by receipts, which add the past of the message too.
-/

namespace Causality

open Transition

/-- Nodes that answer; `none` is a panic. -/
structure Service (ι O R C : Type) where
  /-- The state a node starts with. -/
  start : ι → C
  /-- An operation of a node. -/
  perform : O → C → Option (R × C)
  /-- The receipt of a state: the message comes first. -/
  receive : C → C → Option (R × C)

namespace Service

variable {ι O R C : Type}

/-- The events of a run. -/
def events (tr : List (Event ι O × R)) : List (Event ι O) := tr.map Prod.fst

/-- At the end of the run the node has this event in its past. -/
def Knows (tr : List (Event ι O × R)) (i : ι) (a : ℕ) : Prop :=
  Known (events tr) tr.length i a

variable {tr : List (Event ι O × R)} {i : ι} {a : ℕ}

@[simp] theorem events_concat (tr : List (Event ι O × R)) (l : Event ι O × R) :
    events (tr ++ [l]) = events tr ++ [l.1] := List.map_append

@[simp] theorem length_events (tr : List (Event ι O × R)) : (events tr).length = tr.length :=
  List.length_map _

theorem Knows.lt (h : Knows tr i a) : a < tr.length := by
  obtain ⟨b, e, hlt, -, -, hpast⟩ := h
  exact lt_of_le_of_lt hpast.le hlt

theorem inPast_concat {l : Event ι O × R} {b : ℕ} (h : b < tr.length) :
    InPast (events (tr ++ [l])) a b ↔ InPast (events tr) a b := by
  rw [events_concat]
  exact inPast_append (by rwa [length_events])

theorem knows_concat {l : Event ι O × R} : Knows (tr ++ [l]) i a ↔
    Knows tr i a ∨ l.1.node = i ∧ InPast (events (tr ++ [l])) a tr.length := by
  have hlast : (events (tr ++ [l]))[tr.length]? = some l.1 := by
    rw [events_concat, ← length_events tr, List.getElem?_concat_length]
  rw [Knows, List.length_append, List.length_singleton, known_succ hlast, Knows]
  refine or_congr_left ?_
  rw [events_concat]
  exact known_append (length_events tr).ge

/-! ## Runs -/

variable [DecidableEq ι] (S : Service ι O R C)

/-- One event, and what it returns. It cannot receive what no event has left yet. -/
def next (s : State ι C) : Event ι O → Option (R × State ι C)
  | .perform i op => (S.perform op (s.current i)).map fun out ↦ (out.1, s.record i out.2)
  | .receive i source => do
    let message ← source.bind fun k ↦ s.stamps[k]?
    let out ← S.receive message (s.current i)
    pure (out.1, s.record i out.2)

/-- The nodes as a transition system, with what the events return. -/
def system : System (State ι C) (Event ι O × R) where
  init := fun s ↦ s = ⟨S.start, []⟩
  step := fun s l s' ↦ S.next s l.1 = some (l.2, s')

/-- The events one after the other. -/
def play (s : State ι C) : List (Event ι O) → Option (List (Event ι O × R) × State ι C)
  | [] => some ([], s)
  | e :: es => do
    let out ← S.next s e
    let rest ← play out.2 es
    pure ((e, out.1) :: rest.1, rest.2)

variable {S} {s s' : State ι C} {e : Event ι O} {r : R}

/-- What an event can have been. -/
theorem next_cases (h : S.next s e = some (r, s')) :
    (∃ i op c, e = .perform i op ∧ S.perform op (s.current i) = some (r, c) ∧
      s' = s.record i c) ∨
    ∃ i k message c, e = .receive i (some k) ∧ s.stamps[k]? = some message ∧
      S.receive message (s.current i) = some (r, c) ∧ s' = s.record i c := by
  rcases e with ⟨i, op⟩ | ⟨i, source⟩
  · rw [next, Option.map_eq_some_iff] at h
    obtain ⟨⟨_, c⟩, hperform, hout⟩ := h
    obtain ⟨rfl, rfl⟩ := Prod.mk.inj hout
    exact Or.inl ⟨i, op, c, rfl, hperform, rfl⟩
  · rw [next, Option.bind_eq_bind, Option.bind_eq_some_iff] at h
    obtain ⟨message, hmessage, h⟩ := h
    rw [Option.bind_eq_bind, Option.bind_eq_some_iff] at h
    obtain ⟨⟨_, c⟩, hreceive, hout⟩ := h
    obtain ⟨rfl, rfl⟩ := Prod.mk.inj (Option.some_inj.mp hout)
    obtain ⟨k, rfl, hstamp⟩ := Option.bind_eq_some_iff.mp hmessage
    exact Or.inr ⟨i, k, message, c, rfl, hstamp, hreceive, rfl⟩

theorem record_injective {c c' : C} (h : s.record i c = s.record i c') : c = c' := by
  rw [← State.current_record_self s i c, h, State.current_record_self]

theorem exists_record (h : S.next s e = some (r, s')) : ∃ c, s' = s.record e.node c := by
  rcases next_cases h with ⟨i, op, c, rfl, -, rfl⟩ | ⟨i, k, message, c, rfl, -, -, rfl⟩
  · exact ⟨c, rfl⟩
  · exact ⟨c, rfl⟩

theorem run_of_play {es : List (Event ι O)} {tr' : List (Event ι O × R)} (run : S.system.Run tr s)
    (h : S.play s es = some (tr', s')) : S.system.Run (tr ++ tr') s' := by
  induction es generalizing tr s tr' with
  | nil =>
    obtain ⟨rfl, rfl⟩ := Prod.mk.inj (Option.some_inj.mp h)
    rwa [List.append_nil]
  | cons e es ih =>
    rw [play, Option.bind_eq_bind, Option.bind_eq_some_iff] at h
    obtain ⟨out, hnext, h⟩ := h
    rw [Option.bind_eq_bind, Option.bind_eq_some_iff] at h
    obtain ⟨rest, hrest, h⟩ := h
    obtain ⟨rfl, rfl⟩ := Prod.mk.inj (Option.some_inj.mp h)
    rw [List.append_cons]
    exact ih (.step run hnext) hrest

/-- Events that can be played are the events of a run. -/
theorem exists_run (S : Service ι O R C) (es : List (Event ι O))
    (p : List (Event ι O × R) → State ι C → Bool)
    (h : (S.play ⟨S.start, []⟩ es).any (fun out ↦ p out.1 out.2) = true) :
    ∃ tr s, S.system.Run tr s ∧ p tr s = true := by
  rw [Option.any_eq_true] at h
  obtain ⟨⟨tr, s⟩, hplay, hp⟩ := h
  exact ⟨tr, s, run_of_play (.start rfl) hplay, hp⟩

/-- Each event has left one state. -/
theorem length_stamps_of_run (run : S.system.Run tr s) : s.stamps.length = tr.length := by
  refine run.invariant (I := fun tr s ↦ s.stamps.length = tr.length) ?_ ?_
  · rintro _ rfl
    rfl
  · rintro tr s ⟨e, r⟩ s' - ih hstep
    obtain ⟨c, rfl⟩ := exists_record hstep
    rw [State.stamps_record, List.length_append, List.length_append, ih]
    rfl

theorem causal_of_run (run : S.system.Run tr s) : Causal (events tr) := by
  refine run.invariant (I := fun tr _ ↦ Causal (events tr)) ?_ ?_
  · rintro _ - n e k he
    simp [events] at he
  · rintro tr s ⟨e, r⟩ s' run ih hstep n e' k he hsource
    rw [events_concat] at he
    rcases Nat.lt_or_ge n (events tr).length with hlt | hge
    · rw [List.getElem?_append_left hlt] at he
      exact ih n e' k he hsource
    rw [List.getElem?_append_right hge, List.getElem?_singleton] at he
    split at he
    · obtain rfl := Option.some_inj.mp he
      -- the last event finds what it receives among the stamps
      rcases next_cases hstep with ⟨i, op, c, rfl, -⟩ | ⟨i, k', message, c, rfl, hstamp, -⟩
      · cases hsource
      · obtain rfl := Option.some_inj.mp hsource
        obtain ⟨hlt, -⟩ := List.getElem?_eq_some_iff.mp hstamp
        rw [length_stamps_of_run run, ← length_events] at hlt
        exact lt_of_lt_of_le hlt hge
    · cases he

/-! ## Views -/

/-- The past of the last event. -/
theorem inPast_last {l : Event ι O × R} (run : S.system.Run (tr ++ [l]) s) :
    InPast (events (tr ++ [l])) a tr.length ↔
      a = tr.length ∨ Knows tr l.1.node a ∨
        ∃ k, l.1.source = some k ∧ InPast (events tr) a k := by
  have hcausal := causal_of_run run
  have hlast : (events (tr ++ [l]))[tr.length]? = some l.1 := by
    rw [events_concat, ← length_events tr, List.getElem?_concat_length]
  rw [inPast_iff hcausal hlast]
  refine or_congr_right (or_congr ?_ (exists_congr fun k ↦ and_congr_right fun hsource ↦ ?_))
  · rw [Knows, events_concat]
    exact known_append (length_events tr).ge
  · exact inPast_concat (hcausal _ _ _ hlast hsource)

/-- **Views.** What holds of a start, and is kept by operations and receipts, holds of the state of
a node with the events that it knows, and of the state that an event has left with its past. -/
theorem views {Q : C → Prop} {F : List (Event ι O × R) → (ℕ → Prop) → C → Prop}
    (start : ∀ i, F [] (fun _ ↦ False) (S.start i))
    (extend : ∀ tr l past c, (∀ a, past a → a < tr.length) → F tr past c → F (tr ++ [l]) past c)
    (perform : ∀ tr i op r past c c', F (tr ++ [(.perform i op, r)]) past c →
      S.perform op c = some (r, c') → Q c' →
      F (tr ++ [(.perform i op, r)]) (fun a ↦ a = tr.length ∨ past a) c')
    (receive : ∀ tr i k r past past' c message c', F (tr ++ [(.receive i (some k), r)]) past c →
      F (tr ++ [(.receive i (some k), r)]) past' message → S.receive message c = some (r, c') →
      Q c' → F (tr ++ [(.receive i (some k), r)]) (fun a ↦ a = tr.length ∨ past a ∨ past' a) c')
    (run : S.system.Run tr s) (hQ : ∀ c ∈ s.stamps, Q c) :
    (∀ i, F tr (Knows tr i) (s.current i)) ∧
      ∀ k c, s.stamps[k]? = some c → F tr (fun a ↦ InPast (events tr) a k) c := by
  have congr : ∀ {tr past past' c}, (∀ a, past a ↔ past' a) → F tr past c → F tr past' c :=
    fun h hF ↦ (funext fun a ↦ propext (h a)) ▸ hF
  revert hQ
  refine run.invariant (I := fun tr s ↦ (∀ c ∈ s.stamps, Q c) →
    (∀ i, F tr (Knows tr i) (s.current i)) ∧
      ∀ k c, s.stamps[k]? = some c → F tr (fun a ↦ InPast (events tr) a k) c) ?_ ?_
  · rintro _ rfl -
    exact ⟨fun i ↦ congr (fun a ↦ (iff_false_intro not_known_zero).symm) (start i),
      fun k c hk ↦ by simp at hk⟩
  rintro tr s ⟨e, r⟩ s' run ih hstep hQ
  have hrun := System.Run.step run hstep
  have hlength := length_stamps_of_run run
  obtain ⟨c, hc⟩ := exists_record hstep
  obtain ⟨hcurrent, hstamps⟩ := ih fun c' hc' ↦ hQ c' (by
    rw [hc]
    exact List.mem_append_left _ hc')
  have hQc : Q c := hQ c (by
    rw [hc]
    exact List.mem_append_right _ List.mem_cons_self)
  -- what holds of the views so far holds of them in the longer run
  have hown : ∀ i, F (tr ++ [(e, r)]) (Knows tr i) (s.current i) := fun i ↦
    extend tr (e, r) _ _ (fun a ha ↦ ha.lt) (hcurrent i)
  have hkept : ∀ k c', s.stamps[k]? = some c' →
      F (tr ++ [(e, r)]) (fun a ↦ InPast (events tr) a k) c' := fun k c' hk ↦ by
    obtain ⟨hlt, -⟩ := List.getElem?_eq_some_iff.mp hk
    exact extend tr (e, r) _ _ (fun a ha ↦ lt_of_le_of_lt ha.le (hlength ▸ hlt)) (hstamps k c' hk)
  have hnew : F (tr ++ [(e, r)]) (fun a ↦ InPast (events (tr ++ [(e, r)])) a tr.length) c := by
    refine congr (fun a ↦ (inPast_last hrun).symm) ?_
    rcases next_cases hstep with ⟨i, op, c', rfl, hperform, hc'⟩ |
      ⟨i, k, message, c', rfl, hstamp, hreceive, hc'⟩
    · obtain rfl : c' = c := record_injective (hc'.symm.trans hc)
      refine congr (fun a ↦ ?_) (perform tr i op r _ _ c' (hown i) hperform hQc)
      simp
    · obtain rfl : c' = c := record_injective (hc'.symm.trans hc)
      refine congr (fun a ↦ ?_)
        (receive tr i k r _ _ _ message c' (hown i) (hkept k message hstamp) hreceive hQc)
      simp
  subst hc
  refine ⟨fun i ↦ ?_, fun k c' hk ↦ ?_⟩
  · by_cases hi : e.node = i
    · subst hi
      rw [State.current_record_self]
      refine congr (fun a ↦ ?_) hnew
      rw [knows_concat, inPast_last hrun]
      simp only [true_and]
      exact ⟨Or.inr, fun h ↦ h.elim (fun h ↦ Or.inr (Or.inl h)) id⟩
    · rw [State.current_record_of_ne (Ne.symm hi)]
      refine congr (fun a ↦ ?_) (hown i)
      rw [knows_concat]
      exact (or_iff_left fun h ↦ hi h.1).symm
  · rcases State.stamp_record.mp hk with hk | ⟨rfl, rfl⟩
    · refine congr (fun a ↦ ?_) (hkept k c' hk)
      obtain ⟨hlt, -⟩ := List.getElem?_eq_some_iff.mp hk
      exact (inPast_concat (hlength ▸ hlt)).symm
    · rw [hlength]
      exact hnew

end Service

end Causality
