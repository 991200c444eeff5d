import Arxia.Rust.Collections

/-!
# The PN-counter

A counter holds what each node has credited and what each node has debited. All arithmetic
saturates: an increment at `u64::MAX`, the two totals at `u64::MAX`, and their difference at the
ends of `i64`. What `value` computes is therefore the clamped difference of the two capped totals.

Reconciliation gives every account a counter of its own and only ever writes it under one node, so
`Holds` describes such a counter by its two totals, capped.
-/

namespace Arxia

open Rust

/-- Positive-Negative Counter CRDT. -/
structure PNCounter where
  /-- Positive counts (credits). -/
  p : HashMap String UInt64
  /-- Negative counts (debits). -/
  n : HashMap String UInt64

namespace PNCounter

/-- Create a new zero counter. -/
def new : PNCounter := ⟨∅, ∅⟩

/-- `let e = map.entry(node_id).or_insert(0); *e = e.saturating_add(amount);` -/
def bump (m : HashMap String UInt64) (nodeId : String) (amount : UInt64) : HashMap String UInt64 :=
  m.insert nodeId (((m.lookup nodeId).getD 0).saturatingAdd amount)

/-- Increment (credit) for a node. -/
def increment (c : PNCounter) (nodeId : String) (amount : UInt64) : PNCounter :=
  { c with p := bump c.p nodeId amount }

/-- Decrement (debit) for a node. -/
def decrement (c : PNCounter) (nodeId : String) (amount : UInt64) : PNCounter :=
  { c with n := bump c.n nodeId amount }

/-- `map.values().copied().fold(0u64, u64::saturating_add)`. The keys come sorted in the source;
the result does not depend on their order. -/
def foldValues (m : HashMap String UInt64) : UInt64 :=
  (m.entries.map fun e ↦ e.2).foldl UInt64.saturatingAdd 0

/-- `i64::try_from(a)`. -/
def tryIntoI64 (a : UInt64) : Option ℤ := if (a.toNat : ℤ) ≤ i64Max then some a.toNat else none

/-- Net value, total credits minus total debits. -/
def value (c : PNCounter) : ℤ :=
  let tp := foldValues c.p
  let tn := foldValues c.n
  if tn ≤ tp then (tryIntoI64 (tp - tn)).getD i64Max
  else match tryIntoI64 (tn - tp) with
    | some m => -m
    | none => i64Min

/-- Merge with another counter (element-wise max). -/
def merge (c other : PNCounter) : PNCounter :=
  let mergeInto (m m' : HashMap String UInt64) : HashMap String UInt64 :=
    m'.entries.foldl (fun m e ↦ m.insert e.1 (max ((m.lookup e.1).getD 0) e.2)) m
  ⟨mergeInto c.p other.p, mergeInto c.n other.n⟩

@[simp] theorem p_increment (c : PNCounter) (nodeId : String) (amount : UInt64) :
    (c.increment nodeId amount).p = bump c.p nodeId amount := rfl

@[simp] theorem n_increment (c : PNCounter) (nodeId : String) (amount : UInt64) :
    (c.increment nodeId amount).n = c.n := rfl

@[simp] theorem p_decrement (c : PNCounter) (nodeId : String) (amount : UInt64) :
    (c.decrement nodeId amount).p = c.p := rfl

@[simp] theorem n_decrement (c : PNCounter) (nodeId : String) (amount : UInt64) :
    (c.decrement nodeId amount).n = bump c.n nodeId amount := rfl

/-! ## The value -/

/-- The exact sum of the entries of one side. -/
def exactTotal (m : HashMap String UInt64) : ℕ := HashMap.total (fun _ v ↦ v.toNat) m

theorem toNat_foldValues (m : HashMap String UInt64) :
    (foldValues m).toNat = min (exactTotal m) u64Max := by
  rw [foldValues, UInt64.toNat_foldl_saturatingAdd, UInt64.toNat_zero, Nat.zero_add,
    UInt64.exactSum, List.map_map, exactTotal, HashMap.total]
  rfl

/-- The difference of two words, clamped to `i64`. -/
theorem clampI64_sub (tp tn : UInt64) :
    (if tn ≤ tp then (tryIntoI64 (tp - tn)).getD i64Max
      else match tryIntoI64 (tn - tp) with
        | some m => -m
        | none => i64Min) = clampI64 ((tp.toNat : ℤ) - tn.toNat) := by
  have hp := tp.toNat_le_u64Max
  have hn := tn.toNat_le_u64Max
  rw [u64Max] at hp hn
  by_cases hle : tn ≤ tp
  · have hsub := UInt64.toNat_sub_of_le tp tn hle
    have hle := UInt64.le_iff_toNat_le.mp hle
    rw [if_pos ‹tn ≤ tp›, tryIntoI64, hsub]
    split
    · rename_i hfit
      rw [Option.getD_some, clampI64]
      simp only [i64Max, i64Min] at hfit ⊢
      omega
    · rename_i hfit
      rw [Option.getD_none, clampI64]
      simp only [i64Max, i64Min] at hfit ⊢
      omega
  · have hlt := UInt64.not_le.mp hle
    have hsub := UInt64.toNat_sub_of_le tn tp (UInt64.le_of_lt hlt)
    have hlt := UInt64.lt_iff_toNat_lt.mp hlt
    rw [if_neg hle, tryIntoI64, hsub]
    split
    · rename_i m hm
      split at hm
      · rename_i hfit
        rw [← Option.some_inj.mp hm, clampI64]
        simp only [i64Max, i64Min] at hfit ⊢
        omega
      · simp at hm
    · rename_i hm
      split at hm
      · simp at hm
      · rename_i hfit
        rw [clampI64]
        simp only [i64Max, i64Min] at hfit ⊢
        omega

/-- **The value is the clamped difference of the capped totals.** -/
theorem value_eq (c : PNCounter) :
    c.value = clampI64 ((min (exactTotal c.p) u64Max : ℕ) - (min (exactTotal c.n) u64Max : ℕ)) := by
  rw [value, ← toNat_foldValues, ← toNat_foldValues]
  exact clampI64_sub _ _

/-- **The value is the clamped exact difference** as long as no total is capped, or only one is and
the difference is past the end of `i64` anyway, or the totals agree. -/
theorem value_exact_iff (c : PNCounter) :
    c.value = clampI64 ((exactTotal c.p : ℤ) - exactTotal c.n) ↔
      (exactTotal c.p ≤ u64Max ∧ exactTotal c.n ≤ u64Max) ∨
      (u64Max < exactTotal c.p ∧ exactTotal c.n ≤ 2 ^ 63) ∨
      (u64Max < exactTotal c.n ∧ exactTotal c.p < 2 ^ 63) ∨
      exactTotal c.p = exactTotal c.n := by
  rw [value_eq, clampI64, clampI64]
  simp only [i64Max, i64Min, u64Max]
  -- capping a total leaves the others where they are, so each cap is a case of its own
  rcases le_or_gt (exactTotal c.p) (2 ^ 64 - 1) with hp | hp <;>
    rcases le_or_gt (exactTotal c.n) (2 ^ 64 - 1) with hn | hn
  · rw [min_eq_left hp, min_eq_left hn]
    exact iff_of_true rfl (Or.inl ⟨hp, hn⟩)
  · rw [min_eq_left hp, min_eq_right hn.le]
    omega
  · rw [min_eq_right hp.le, min_eq_left hn]
    omega
  · rw [min_eq_right hp.le, min_eq_right hn.le]
    omega

/-- Two credits and one debit of `u64::MAX` each. The value is zero. -/
theorem not_value_exact :
    ¬ ∀ c : PNCounter, c.value = clampI64 ((exactTotal c.p : ℤ) - exactTotal c.n) := by
  intro h
  let most := UInt64.ofNat u64Max
  let c := ((new.increment "a" most).increment "b" most).decrement "c" most
  have hcode : c.value = 0 := by decide +kernel
  have hexact : clampI64 ((exactTotal c.p : ℤ) - exactTotal c.n) = i64Max := by decide +kernel
  rw [h c, hexact] at hcode
  exact absurd hcode (by decide)

/-! ## Counters written under one node -/

/-- A side of a counter on which only `nodeId` was ever bumped, by amounts adding up to `total`. -/
structure Tallies (m : HashMap String UInt64) (nodeId : String) (total : ℕ) : Prop where
  /-- No other node has an entry. -/
  keys : ∀ k ∈ m, k = nodeId
  /-- The entry is the exact sum, capped. -/
  entry : ((m.lookup nodeId).getD 0).toNat = min total u64Max

theorem Tallies.empty (nodeId : String) : Tallies ∅ nodeId 0 :=
  ⟨fun k hk ↦ absurd hk (AList.notMem_empty k), rfl⟩

theorem tallies_bump {m : HashMap String UInt64} {nodeId : String} {total : ℕ}
    (h : Tallies m nodeId total) (amount : UInt64) :
    Tallies (bump m nodeId amount) nodeId (total + amount.toNat) := by
  refine ⟨fun k hk ↦ ?_, ?_⟩
  · exact ((AList.mem_insert _).mp hk).elim id (h.keys k)
  · rw [bump, AList.lookup_insert, Option.getD_some, UInt64.toNat_saturatingAdd, h.entry]
    omega

theorem Tallies.exactTotal_eq {m : HashMap String UInt64} {nodeId : String} {total : ℕ}
    (h : Tallies m nodeId total) : exactTotal m = min total u64Max := by
  rw [← h.entry, exactTotal, HashMap.total_of_keys_eq _ h.keys]
  cases m.lookup nodeId <;> rfl

/-- A counter both sides of which were only ever written under `nodeId`. -/
structure Holds (c : PNCounter) (nodeId : String) (credits debits : ℕ) : Prop where
  p : Tallies c.p nodeId credits
  n : Tallies c.n nodeId debits

theorem holds_new (nodeId : String) : Holds new nodeId 0 0 :=
  ⟨Tallies.empty nodeId, Tallies.empty nodeId⟩

section Holds

variable {c : PNCounter} {nodeId : String} {credits debits : ℕ}

theorem Holds.increment (h : Holds c nodeId credits debits) (amount : UInt64) :
    Holds (c.increment nodeId amount) nodeId (credits + amount.toNat) debits := by
  refine ⟨?_, ?_⟩
  · rw [p_increment]
    exact tallies_bump h.p amount
  · rw [n_increment]
    exact h.n

theorem Holds.decrement (h : Holds c nodeId credits debits) (amount : UInt64) :
    Holds (c.decrement nodeId amount) nodeId credits (debits + amount.toNat) := by
  refine ⟨?_, ?_⟩
  · rw [p_decrement]
    exact h.p
  · rw [n_decrement]
    exact tallies_bump h.n amount

theorem Holds.value_eq (h : Holds c nodeId credits debits) :
    c.value = clampI64 ((min credits u64Max : ℕ) - (min debits u64Max : ℕ)) := by
  rw [PNCounter.value_eq, h.p.exactTotal_eq, h.n.exactTotal_eq, min_assoc, min_assoc, min_self]

end Holds

end PNCounter

end Arxia
