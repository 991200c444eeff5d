import Arxia.Causality.Contributions
import Arxia.Rust.Counters
import Arxia.Crdt.PNCounter
import Mathlib.Algebra.Order.BigOperators.Group.Finset

/-!
# Replicas of a counter converge

Every replica updates the counter under its own name and merges the states of others, and the update
itself is never sent. What a state holds of a node is then the capped sum of the node's first so
many amounts, where vector time says how many: an update appends to its own list, and of two states
the one that knows more of a node has the greater entry.

A replica that has merged everything holds the sum of all amounts of each node. Replicas like that
have equal maps whatever the amounts are, and as long as neither sum leaves `i64` they have the
exact value.
-/

namespace Arxia

open Rust HashMap Causality

namespace PNCounter

/-! ## Capped sums -/

/-- The entry that amounts add up to. A node without an amount has none. -/
def tally (l : List UInt64) : Option ℕ :=
  if l = [] then none else some (min (UInt64.exactSum l) u64Max)

theorem tally_nil : tally [] = none := rfl

theorem getD_tally (l : List UInt64) : (tally l).getD 0 = min (UInt64.exactSum l) u64Max := by
  rw [tally]
  split
  · rename_i h
    rw [h, UInt64.exactSum_nil, Nat.zero_min, Option.getD_none]
  · rw [Option.getD_some]

theorem exactSum_append (l l' : List UInt64) :
    UInt64.exactSum (l ++ l') = UInt64.exactSum l + UInt64.exactSum l' := by
  rw [UInt64.exactSum, List.map_append, List.sum_append, UInt64.exactSum, UInt64.exactSum]

theorem tally_concat (l : List UInt64) (amount : UInt64) :
    tally (l ++ [amount]) = some (min ((tally l).getD 0 + amount.toNat) u64Max) := by
  rw [tally, if_neg (List.append_ne_nil_of_right_ne_nil l (List.cons_ne_nil _ _)), getD_tally,
    exactSum_append, UInt64.exactSum_cons, UInt64.exactSum_nil]
  exact congrArg some (by omega)

/-- The longer list has the greater entry. -/
theorem merge_tally {l l' : List UInt64} (h : l <+: l') :
    Option.merge max (tally l) (tally l') = tally l' := by
  obtain ⟨r, rfl⟩ := h
  rcases eq_or_ne l [] with rfl | hne
  · rw [tally_nil, Option.merge_none_left]
  · rw [tally, if_neg hne, tally, if_neg (List.append_ne_nil_of_left_ne_nil hne r),
      Option.merge_some_some, exactSum_append]
    exact congrArg some (by omega)

theorem merge_tally' {l l' : List UInt64} (h : l <+: l') :
    Option.merge max (tally l') (tally l) = tally l' := by
  calc Option.merge max (tally l') (tally l)
      = Option.merge max (tally l) (tally l') := Std.Commutative.comm _ _
    _ = tally l' := merge_tally h

/-! ## One side of a counter -/

/-- A side that holds what the lists of amounts add up to. -/
def Tallied (m : HashMap String UInt64) (amounts : String → List UInt64) : Prop :=
  ∀ nodeId, count? m nodeId = tally (amounts nodeId)

variable {m m' : HashMap String UInt64} {amounts amounts' both : String → List UInt64}

theorem count?_bump (m : HashMap String UInt64) (nodeId : String) (amount : UInt64) :
    count? (bump m nodeId amount) nodeId =
      some (min ((count? m nodeId).getD 0 + amount.toNat) u64Max) := by
  rw [bump, count?_insert_self, UInt64.toNat_saturatingAdd, ← HashMap.reading_eq, reading]

theorem tallied_bump (h : Tallied m amounts) {nodeId : String} {amount : UInt64}
    (hself : amounts' nodeId = amounts nodeId ++ [amount])
    (hne : ∀ j, j ≠ nodeId → amounts' j = amounts j) : Tallied (bump m nodeId amount) amounts' := by
  intro j
  by_cases hj : j = nodeId
  · rw [hj, count?_bump, h nodeId, hself, tally_concat]
  · rw [bump, count?_insert_of_ne hj, h j, hne j hj]

theorem tallied_merge (h : Tallied m amounts) (h' : Tallied m' amounts')
    (hboth : ∀ j, amounts j <+: amounts' j ∧ both j = amounts' j ∨
      amounts' j <+: amounts j ∧ both j = amounts j) :
    Tallied (m'.entries.foldl (fun m e ↦ raise m e.1 e.2) m) both := by
  intro j
  rw [count?_foldl_raise m'.nodupKeys, ← AList.lookup, ← count?, h j, h' j]
  rcases hboth j with ⟨hle, heq⟩ | ⟨hle, heq⟩
  · rw [heq, merge_tally hle]
  · rw [heq, merge_tally' hle]

/-- A side is worth the sums of its lists, as long as these fit. -/
theorem Tallied.exactTotal_eq (h : Tallied m amounts) {S : Finset String} (hS : ∀ k ∈ m, k ∈ S)
    (hfits : ∑ k ∈ S, UInt64.exactSum (amounts k) ≤ u64Max) :
    exactTotal m = ∑ k ∈ S, UInt64.exactSum (amounts k) := by
  rw [exactTotal, total_eq_sum hS]
  refine Finset.sum_congr rfl fun k hk ↦ ?_
  rw [HashMap.reading_eq, h k, getD_tally, min_eq_left]
  exact (Finset.single_le_sum (f := fun k ↦ UInt64.exactSum (amounts k))
    (fun _ _ ↦ Nat.zero_le _) hk).trans hfits

/-! ## Replicas -/

/-- What a replica does to the counter under its own name. -/
inductive Update
  | increment (amount : UInt64)
  | decrement (amount : UInt64)
  deriving DecidableEq

/-- The replicas of a counter. -/
def protocol : Protocol String Update PNCounter where
  start := new
  perform := fun nodeId op c ↦ match op with
    | .increment amount => some (c.increment nodeId amount)
    | .decrement amount => some (c.decrement nodeId amount)
  receive := fun _ c other ↦ some (c.merge other)

/-- `self == other`: both maps have the same entries. -/
def same (c other : PNCounter) : Bool := c.p.same other.p && c.n.same other.n

/-- The amount an event increments by. -/
def credited : Event String Update → Option UInt64
  | .perform _ (.increment amount) => some amount
  | _ => none

/-- The amount an event decrements by. -/
def debited : Event String Update → Option UInt64
  | .perform _ (.decrement amount) => some amount
  | _ => none

/-- The replica has merged, directly or through others, a state of each replica that has all its
updates. -/
def HasMergedAll (tr : List (Event String Update)) (i : String) : Prop :=
  ∀ a j op, tr[a]? = some (.perform j op) → Known tr tr.length i a

/-- A counter that holds the updates a vector counts. -/
structure Reflects (tr : List (Event String Update)) (c : PNCounter) (v : String → ℕ) : Prop where
  p : Tallied c.p (contributed credited tr v)
  n : Tallied c.n (contributed debited tr v)

section Execution

variable {tr : List (Event String Update)} {c other : PNCounter} {v w : String → ℕ} {n : ℕ}

theorem reflects_new (tr : List (Event String Update)) : Reflects tr new 0 :=
  ⟨fun _ ↦ rfl, fun _ ↦ rfl⟩

theorem Reflects.increment (h : Reflects tr c v) {i : String} {amount : UInt64}
    (he : tr[n]? = some (.perform i (.increment amount))) (hv : v i = count tr n i) :
    Reflects tr (c.increment i amount) (tick i v) := by
  refine ⟨?_, ?_⟩
  · rw [p_increment]
    exact tallied_bump h.p (contributed_tick_self credited he hv) fun j ↦ contributed_tick_of_ne
  · have hsame : contributed debited tr (tick i v) = contributed debited tr v :=
      contributed_tick_of_none he hv rfl
    rw [n_increment, hsame]
    exact h.n

theorem Reflects.decrement (h : Reflects tr c v) {i : String} {amount : UInt64}
    (he : tr[n]? = some (.perform i (.decrement amount))) (hv : v i = count tr n i) :
    Reflects tr (c.decrement i amount) (tick i v) := by
  refine ⟨?_, ?_⟩
  · have hsame : contributed credited tr (tick i v) = contributed credited tr v :=
      contributed_tick_of_none he hv rfl
    rw [p_decrement, hsame]
    exact h.p
  · rw [n_decrement]
    exact tallied_bump h.n (contributed_tick_self debited he hv) fun j ↦ contributed_tick_of_ne

theorem Reflects.merge (h : Reflects tr c v) (h' : Reflects tr other w) :
    Reflects tr (c.merge other) (v ⊔ w) :=
  ⟨tallied_merge h.p h'.p (contributed_sup credited tr v w),
    tallied_merge h.n h'.n (contributed_sup debited tr v w)⟩

/-- To receive is no update. -/
theorem Reflects.tick (h : Reflects tr c v) {i : String} {k : Option ℕ}
    (he : tr[n]? = some (.receive i k)) (hv : v i = count tr n i) : Reflects tr c (tick i v) := by
  have hsame : ∀ f : Event String Update → Option UInt64, f (.receive i k) = none →
      contributed f tr (Causality.tick i v) = contributed f tr v :=
    fun f hf ↦ contributed_tick_of_none he hv hf
  refine ⟨?_, ?_⟩
  · rw [hsame credited rfl]
    exact h.p
  · rw [hsame debited rfl]
    exact h.n

/-- **Every replica holds the updates it knows.** -/
theorem exists_execute (hcausal : Causal tr) : ∃ s, protocol.execute tr = some s ∧
    ∀ i, Reflects tr (s.current i) ((time tr tr.length).current i) := by
  refine (Protocol.simulates (R := Reflects tr) hcausal (reflects_new tr) ?_ ?_).imp
    fun s hs ↦ ⟨hs.1, hs.2.1⟩
  · intro n i op c v he hown _ h
    rcases op with amount | amount
    · exact ⟨_, rfl, h.increment he hown⟩
    · exact ⟨_, rfl, h.decrement he hown⟩
  · intro n i k c v other w he hown _ hw h h'
    have hle : w i ≤ v i := hown ▸ hw i
    exact ⟨_, rfl, (h.merge h').tick he (by rw [Pi.sup_apply, sup_eq_left.mpr hle, hown])⟩

/-- A replica that has merged everything counts every update. -/
theorem contributed_of_hasMergedAll (hcausal : Causal tr) {i : String} (h : HasMergedAll tr i)
    {f : Event String Update → Option UInt64} (hf : ∀ j k, f (.receive j k) = none) :
    contributed f tr ((time tr tr.length).current i) = fun j ↦ (ofNode tr j).filterMap f := by
  have htimed := timed_time hcausal (le_refl tr.length)
  funext j
  refine contributed_eq_of_within (fun a e ha hne ↦ ?_) j
  rcases e with ⟨k, op⟩ | ⟨k, source⟩
  · exact (htimed.known i a).mpr (h a k op ha)
  · exact absurd (hf k source) hne

/-- A counter whose two sides are exact has the exact value. -/
theorem value_eq_sub {x y : ℕ} (hp : exactTotal c.p = x) (hn : exactTotal c.n = y)
    (hx : (x : ℤ) ≤ i64Max) (hy : (y : ℤ) ≤ i64Max) : c.value = x - y := by
  rw [value_eq, hp, hn, clampI64]
  simp only [i64Max, i64Min, u64Max] at hx hy ⊢
  omega

/-- One side of a replica that has merged everything. -/
theorem exactTotal_of_hasMergedAll (hcausal : Causal tr) {i : String} (h : HasMergedAll tr i)
    {f : Event String Update → Option UInt64} (hf : ∀ j k, f (.receive j k) = none)
    {m : HashMap String UInt64} (hm : Tallied m (contributed f tr ((time tr tr.length).current i)))
    (hfits : (UInt64.exactSum (tr.filterMap f) : ℤ) ≤ i64Max) :
    exactTotal m = UInt64.exactSum (tr.filterMap f) := by
  rw [contributed_of_hasMergedAll hcausal h hf] at hm
  have hsum := sum_ofNode f UInt64.toNat (S := m.keys.toFinset ∪ (tr.map Event.node).toFinset)
    fun e he ↦ Finset.mem_union_right _ (List.mem_toFinset.mpr (List.mem_map_of_mem he))
  rw [hm.exactTotal_eq (S := m.keys.toFinset ∪ (tr.map Event.node).toFinset)]
  · exact hsum
  · exact fun k hk ↦ Finset.mem_union_left _ (List.mem_toFinset.mpr (AList.mem_keys.mp hk))
  · rw [← UInt64.exactSum] at hsum
    refine (le_of_eq hsum).trans ?_
    simp only [i64Max, u64Max] at hfits ⊢
    omega

/-- **Replicas converge.** All replicas that have merged everything hold the same maps, and the
value of what was performed. -/
theorem counters_converge (hcausal : Causal tr) : ∃ s, protocol.execute tr = some s ∧
    (∀ i, HasMergedAll tr i → (UInt64.exactSum (tr.filterMap credited) : ℤ) ≤ i64Max →
      (UInt64.exactSum (tr.filterMap debited) : ℤ) ≤ i64Max → (s.current i).value =
        UInt64.exactSum (tr.filterMap credited) - UInt64.exactSum (tr.filterMap debited)) ∧
    ∀ i j, HasMergedAll tr i → HasMergedAll tr j → same (s.current i) (s.current j) = true := by
  obtain ⟨s, hs, hcurrent⟩ := exists_execute hcausal
  refine ⟨s, hs, fun i hi hp hn ↦ ?_, fun i j hi hj ↦ ?_⟩
  · exact value_eq_sub (exactTotal_of_hasMergedAll hcausal hi (fun _ _ ↦ rfl) (hcurrent i).p hp)
      (exactTotal_of_hasMergedAll hcausal hi (fun _ _ ↦ rfl) (hcurrent i).n hn) hp hn
  · have hsame : ∀ f : Event String Update → Option UInt64, (∀ j k, f (.receive j k) = none) →
        contributed f tr ((time tr tr.length).current i) =
          contributed f tr ((time tr tr.length).current j) := fun f hf ↦
      (contributed_of_hasMergedAll hcausal hi hf).trans
        (contributed_of_hasMergedAll hcausal hj hf).symm
    rw [same, Bool.and_eq_true, same_iff, same_iff]
    refine ⟨fun k ↦ lookup_eq_of_count? ?_, fun k ↦ lookup_eq_of_count? ?_⟩
    · rw [(hcurrent i).p k, (hcurrent j).p k, hsame credited fun _ _ ↦ rfl]
    · rw [(hcurrent i).n k, (hcurrent j).n k, hsame debited fun _ _ ↦ rfl]

end Execution

/-- Two replicas with an update each, and what they have is exchanged twice in one direction. -/
def gossip : List (Event String Update) :=
  [.perform "a" (.increment 5), .perform "b" (.decrement 3), .receive "b" (some 0),
    .receive "a" (some 2), .receive "a" (some 2)]

theorem causal_gossip : Causal gossip := by
  intro n e k he hk
  obtain ⟨hn, rfl⟩ := List.getElem?_eq_some_iff.mp he
  match n, hn with
  | 2, _ | 3, _ | 4, _ => simp [gossip] at hk; omega

theorem hasMergedAll_gossip : HasMergedAll gossip "a" := by
  have hdirect : ∀ a b ea eb, a < b → gossip[a]? = some ea → gossip[b]? = some eb →
      (ea.node = eb.node ∨ eb.source = some a) → InPast gossip a b :=
    fun a b ea eb hlt ha hb h ↦ .single ⟨hlt, ea, eb, ha, hb, h⟩
  have hback : InPast gossip 2 3 := hdirect 2 3 _ _ (by decide) rfl rfl (.inr rfl)
  intro a j op ha
  obtain ⟨hlt, -⟩ := List.getElem?_eq_some_iff.mp ha
  match a, hlt with
  | 0, _ => exact ⟨0, _, by decide, rfl, rfl, .refl⟩
  | 1, _ => exact ⟨3, _, by decide, rfl, rfl,
      (hdirect 1 2 _ _ (by decide) rfl rfl (.inl rfl)).trans hback⟩
  | 2, _ | 3, _ | 4, _ => simp [gossip] at ha

theorem counters_converge_gossip :
    ∃ s, protocol.execute gossip = some s ∧ (s.current "a").value = 5 - 3 := by
  obtain ⟨s, hs, hvalue, -⟩ := counters_converge causal_gossip
  exact ⟨s, hs, hvalue "a" hasMergedAll_gossip (by decide) (by decide)⟩

end PNCounter

end Arxia
