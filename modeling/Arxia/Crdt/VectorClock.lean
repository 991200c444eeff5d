import Arxia.Causality.VectorTime
import Arxia.Lattice.VectorClock

/-!
# The CRDT vector clock, and what the two clocks measure

The clock of the reconciliation layer has no cap, and it ticks with a plain `+`. Where at most
`MAX_VECTOR_CLOCK_ENTRIES` nodes take part and none has more than `u64::MAX` events, neither
difference shows: both clocks show vector time throughout. They hold the same maps then, and what
they say of two events is the causal order of the events.
-/

namespace Arxia

open Rust HashMap Causality

/-- Vector clock of the reconciliation layer. -/
structure CrdtVectorClock where
  clocks : HashMap String UInt64

namespace CrdtVectorClock

/-- Create a new empty vector clock. -/
def new : CrdtVectorClock := ⟨∅⟩

/-- Increment the clock for a node; `none` is the overflow panic. -/
def tick (m : Overflow) (c : CrdtVectorClock) (nodeId : String) : Option CrdtVectorClock := do
  let counter ← ((c.clocks.lookup nodeId).getD 0).plus m 1
  pure ⟨c.clocks.insert nodeId counter⟩

/-- Merge with another vector clock (element-wise max). The names come sorted in the source; the
result does not depend on their order. -/
def merge (c other : CrdtVectorClock) : CrdtVectorClock :=
  ⟨other.clocks.entries.foldl (fun clocks e ↦ raise clocks e.1 e.2) c.clocks⟩

/-- Returns true if the clock causally happened before the other. -/
def happenedBefore (c other : CrdtVectorClock) : Bool :=
  Clocks.happenedBefore c.clocks other.clocks

/-- Returns true if concurrent with the other. -/
def isConcurrent (c other : CrdtVectorClock) : Bool := Clocks.isConcurrent c.clocks other.clocks

variable {c other : CrdtVectorClock} {v w : String → ℕ}

theorem shows_tick (m : Overflow) (h : Shows c.clocks v) {nodeId : String}
    (hmax : v nodeId + 1 ≤ u64Max) : ∃ c', c.tick m nodeId = some c' ∧
      Shows c'.clocks (Function.update v nodeId (v nodeId + 1)) := by
  have hreading : ((c.clocks.lookup nodeId).getD 0).toNat = v nodeId :=
    congrFun h.reading_eq nodeId
  have hle : ((c.clocks.lookup nodeId).getD 0).toNat + (1 : UInt64).toNat ≤ u64Max := by
    rw [hreading, UInt64.toNat_one]
    exact hmax
  refine ⟨_, by rw [tick, UInt64.plus_of_le m hle]; rfl, h.insert ?_⟩
  rw [UInt64.toNat_add_of_le hle, hreading, UInt64.toNat_one]

theorem shows_merge (h : Shows c.clocks v) (h' : Shows other.clocks w) :
    Shows (c.merge other).clocks (v ⊔ w) :=
  h.merge h' fun k ↦ count?_foldl_raise other.clocks.nodupKeys c.clocks k

end CrdtVectorClock

/-! ## Clocks in an execution -/

/-- A node ticks with each event, and merges what it receives before that. -/
def VectorClock.protocol : Protocol String Unit VectorClock where
  start := new
  perform := fun nodeId _ c ↦ some (c.tick nodeId)
  receive := fun nodeId c message ↦ some ((c.merge message).tick nodeId)

/-- The same with the other clock. -/
def CrdtVectorClock.protocol (m : Overflow) : Protocol String Unit CrdtVectorClock where
  start := new
  perform := fun nodeId _ c ↦ c.tick m nodeId
  receive := fun nodeId c message ↦ (c.merge message).tick m nodeId

/-- The nodes that take part. -/
def nodeIds (tr : List (Event String Unit)) : Finset String := (tr.map Event.node).toFinset

/-- The clocks of the events say how they are related causally. -/
structure Characterises {C : Type} (tr : List (Event String Unit)) (stamps : List C)
    (happenedBefore isConcurrent : C → C → Bool) : Prop where
  /-- Every event has a clock. -/
  length : stamps.length = tr.length
  before : ∀ (a b : ℕ) (c d : C), stamps[a]? = some c → stamps[b]? = some d →
    (happenedBefore c d = true ↔ Precedes tr a b)
  concurrent : ∀ (a b : ℕ) (c d : C), stamps[a]? = some c → stamps[b]? = some d →
    (isConcurrent c d = true ↔ a ≠ b ∧ ¬ Precedes tr a b ∧ ¬ Precedes tr b a)

/-- Two clocks that are equal as maps. -/
def SameMap (c : CrdtVectorClock) (d : VectorClock) : Prop :=
  ∀ nodeId, c.clocks.lookup nodeId = d.clocks.lookup nodeId

section Execution

variable {tr : List (Event String Unit)} {n : ℕ}

theorem mem_nodeIds_of_count {v : String → ℕ} (hv : v ≤ count tr n) {nodeId : String}
    (hne : v nodeId ≠ 0) : nodeId ∈ nodeIds tr := by
  obtain ⟨a, e, -, he, rfl, -⟩ := exists_count_eq (Nat.pos_of_ne_zero hne) (hv nodeId)
  exact List.mem_toFinset.mpr (List.mem_map.mpr ⟨e, List.mem_of_getElem? he, rfl⟩)

/-- A count that goes up by one is still that of some events. -/
theorem count_add_one_le {e : Event String Unit} (he : tr[n]? = some e)
    (hcount : ∀ i, count tr tr.length i ≤ u64Max) : count tr n e.node + 1 ≤ u64Max := by
  have hsucc := count_succ he e.node
  rw [if_pos rfl] at hsucc
  rw [← hsucc]
  exact (count_le_length tr (n + 1) e.node).trans (hcount e.node)

theorem CrdtVectorClock.exists_execute (m : Overflow) (hcausal : Causal tr)
    (hcount : ∀ i, count tr tr.length i ≤ u64Max) :
    ∃ s, (protocol m).execute tr = some s ∧
      (∀ i, Shows (s.current i).clocks ((time tr tr.length).current i)) ∧
      List.Forall₂ (fun c v ↦ Shows c.clocks v) s.stamps (time tr tr.length).stamps := by
  refine Protocol.simulates (R := fun (c : CrdtVectorClock) v ↦ Shows c.clocks v) hcausal
    shows_empty ?_ ?_
  · intro n i op c v he hown _ h
    exact shows_tick m h (hown ▸ count_add_one_le he hcount)
  · intro n i k c v message w he hown _ hw h h'
    refine shows_tick m (shows_merge h h') ?_
    have hle : w i ≤ v i := hown ▸ hw i
    rw [Pi.sup_apply, sup_eq_left.mpr hle, hown]
    exact count_add_one_le he hcount

theorem VectorClock.exists_execute (hcausal : Causal tr)
    (hids : (nodeIds tr).card ≤ MAX_VECTOR_CLOCK_ENTRIES)
    (hcount : ∀ i, count tr tr.length i ≤ u64Max) :
    ∃ s, protocol.execute tr = some s ∧
      (∀ i, Shows (s.current i).clocks ((time tr tr.length).current i)) ∧
      List.Forall₂ (fun c v ↦ Shows c.clocks v) s.stamps (time tr tr.length).stamps := by
  have hmem : ∀ {n : ℕ} {e : Event String Unit}, tr[n]? = some e → e.node ∈ nodeIds tr := fun he ↦
    List.mem_toFinset.mpr (List.mem_map.mpr ⟨_, List.mem_of_getElem? he, rfl⟩)
  refine Protocol.simulates (R := fun (c : VectorClock) v ↦ Shows c.clocks v) hcausal
    shows_empty ?_ ?_
  · intro n i op c v he hown hv h
    exact ⟨_, rfl, shows_tick h hids (fun k ↦ mem_nodeIds_of_count hv) (hmem he)
      (hown ▸ count_add_one_le he hcount)⟩
  · -- a node has its own last event, so a message does not bring a later one
    intro n i k c v message w he hown hv hw h h'
    refine ⟨_, rfl, shows_tick (shows_merge h h' hids (fun k ↦ mem_nodeIds_of_count hv)
      fun k ↦ mem_nodeIds_of_count hw) hids (fun k ↦ mem_nodeIds_of_count (sup_le hv hw))
      (hmem he) ?_⟩
    have hle : w i ≤ v i := hown ▸ hw i
    rw [Pi.sup_apply, sup_eq_left.mpr hle, hown]
    exact count_add_one_le he hcount

/-- Clocks that show vector time characterise causality. -/
theorem characterises_of_shows {C : Type} {view : C → HashMap String UInt64} {stamps : List C}
    (hcausal : Causal tr)
    (h : List.Forall₂ (fun c v ↦ Shows (view c) v) stamps (time tr tr.length).stamps) :
    Characterises tr stamps (fun c d ↦ Clocks.happenedBefore (view c) (view d))
      fun c d ↦ Clocks.isConcurrent (view c) (view d) := by
  have htimed := timed_time hcausal (le_refl tr.length)
  have hstamp : ∀ {a : ℕ} {c : C}, stamps[a]? = some c →
      ∃ v, (time tr tr.length).stamps[a]? = some v ∧ Shows (view c) v := by
    intro a c hc
    obtain ⟨ha, rfl⟩ := List.getElem?_eq_some_iff.mp hc
    have ha' := h.length_eq ▸ ha
    exact ⟨_, List.getElem?_eq_getElem ha', h.get ha ha'⟩
  refine ⟨h.length_eq.trans htimed.length, fun a b c d hc hd ↦ ?_, fun a b c d hc hd ↦ ?_⟩
  · obtain ⟨v, hv, hshows⟩ := hstamp hc
    obtain ⟨w, hw, hshows'⟩ := hstamp hd
    rw [Clocks.happenedBefore_iff_of_shows hshows hshows', htimed.lt_iff le_rfl hv hw]
  · obtain ⟨v, hv, hshows⟩ := hstamp hc
    obtain ⟨w, hw, hshows'⟩ := hstamp hd
    rw [Clocks.isConcurrent_iff_of_shows hshows hshows', htimed.lt_iff le_rfl hv hw,
      htimed.lt_iff le_rfl hw hv, Ne, htimed.eq_iff le_rfl hv hw]
    tauto

/-- **Both clocks characterise causality**, and they hold the same maps. -/
theorem clocks_characterise (m : Overflow) (hcausal : Causal tr)
    (hids : (nodeIds tr).card ≤ MAX_VECTOR_CLOCK_ENTRIES)
    (hcount : ∀ i, count tr tr.length i ≤ u64Max) :
    ∃ s s', (CrdtVectorClock.protocol m).execute tr = some s ∧
      VectorClock.protocol.execute tr = some s' ∧
      Characterises tr s.stamps CrdtVectorClock.happenedBefore CrdtVectorClock.isConcurrent ∧
      Characterises tr s'.stamps VectorClock.happenedBefore VectorClock.isConcurrent ∧
      (∀ i, SameMap (s.current i) (s'.current i)) ∧ List.Forall₂ SameMap s.stamps s'.stamps := by
  obtain ⟨s, hs, hcurrent, hstamps⟩ := CrdtVectorClock.exists_execute m hcausal hcount
  obtain ⟨s', hs', hcurrent', hstamps'⟩ := VectorClock.exists_execute hcausal hids hcount
  refine ⟨s, s', hs, hs', characterises_of_shows hcausal hstamps,
    characterises_of_shows hcausal hstamps', fun i ↦ (hcurrent i).lookup_eq (hcurrent' i), ?_⟩
  rw [List.forall₂_iff_get] at hstamps hstamps' ⊢
  refine ⟨hstamps.1.trans hstamps'.1.symm, fun a ha ha' ↦ ?_⟩
  have htime := hstamps.1 ▸ ha
  exact (hstamps.2 a ha htime).lookup_eq (hstamps'.2 a ha' htime)

end Execution

/-- Two nodes with an event each, and a message from one to the other. -/
def exchange : List (Event String Unit) :=
  [.perform "a" (), .perform "b" (), .receive "b" (some 0)]

theorem causal_exchange : Causal exchange := by
  intro n e k he hk
  obtain ⟨hn, rfl⟩ := List.getElem?_eq_some_iff.mp he
  match n, hn with
  | 2, _ => simp [exchange] at hk; omega

theorem clocks_characterise_exchange :
    ∃ s s', (CrdtVectorClock.protocol .panics).execute exchange = some s ∧
      VectorClock.protocol.execute exchange = some s' ∧
      Characterises exchange s.stamps CrdtVectorClock.happenedBefore CrdtVectorClock.isConcurrent ∧
      Characterises exchange s'.stamps VectorClock.happenedBefore VectorClock.isConcurrent ∧
      (∀ i, SameMap (s.current i) (s'.current i)) ∧ List.Forall₂ SameMap s.stamps s'.stamps :=
  clocks_characterise .panics causal_exchange (by decide)
    fun i ↦ List.countP_le_length.trans (by decide)

end Arxia
