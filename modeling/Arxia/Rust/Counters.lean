import Arxia.Rust.Collections
import Mathlib.Data.List.Perm.Basic
import Mathlib.Order.Lattice

/-!
# Maps of counters

A map from names to `u64` counters, as clocks and counters have it. An absent name counts for zero,
and `reading` is the count of a name either way. Merging takes the greater entry of each name, so it
takes the maximum of the readings; which names have an entry matters only to equality.

`Shows` is the case in which not even that matters: an entry for each name with a positive count.
-/

namespace Rust.HashMap

variable {κ ν : Type} [DecidableEq κ]

/-- `a == b`: the same entries, in whatever order the model lists them. -/
def same [DecidableEq ν] (m m' : HashMap κ ν) : Bool := decide (m.entries.Perm m'.entries)

theorem same_iff [DecidableEq ν] {m m' : HashMap κ ν} :
    same m m' = true ↔ ∀ k, m.lookup k = m'.lookup k := by
  rw [same, decide_eq_true_iff]
  constructor
  · exact fun h k ↦ List.perm_dlookup k m.nodupKeys h
  · intro h
    refine List.lookup_ext m.nodupKeys m'.nodupKeys fun k v ↦ ?_
    rw [← AList.lookup, ← AList.lookup, h k]

variable {m m' : HashMap κ UInt64}

/-! ## Readings -/

/-- The count of a name. -/
def reading (m : HashMap κ UInt64) (k : κ) : ℕ := ((m.lookup k).getD 0).toNat

theorem reading_of_lookup {k : κ} {v : UInt64} (h : m.lookup k = some v) :
    reading m k = v.toNat := by
  rw [reading, h, Option.getD_some]

theorem reading_of_notMem {k : κ} (h : k ∉ m) : reading m k = 0 := by
  rw [reading, AList.lookup_eq_none.mpr h, Option.getD_none, UInt64.toNat_zero]

/-- The sum of the entries is the sum of the readings of all names. -/
theorem total_eq_sum {S : Finset κ} (hS : ∀ k ∈ m, k ∈ S) :
    total (fun _ v ↦ v.toNat) m = ∑ k ∈ S, reading m k := by
  have hsub : m.keys.toFinset ⊆ S := fun k hk ↦
    hS k (AList.mem_keys.mpr (List.mem_toFinset.mp hk))
  rw [total_eq_sum_keys, ← Finset.sum_subset hsub]
  · refine Finset.sum_congr rfl fun k _ ↦ ?_
    rw [reading]
    cases m.lookup k <;> rfl
  · intro k _ hk
    exact reading_of_notMem fun hmem ↦ hk (List.mem_toFinset.mpr (AList.mem_keys.mp hmem))

/-! ## Entries -/

/-- The entry of a name, if it has one. -/
def count? (m : HashMap κ UInt64) (k : κ) : Option ℕ := (m.lookup k).map UInt64.toNat

theorem count?_insert_self (m : HashMap κ UInt64) (k : κ) (v : UInt64) :
    count? (m.insert k v) k = some v.toNat := by
  rw [count?, AList.lookup_insert, Option.map_some]

theorem count?_insert_of_ne {k j : κ} (h : j ≠ k) (m : HashMap κ UInt64) (v : UInt64) :
    count? (m.insert k v) j = count? m j := by
  rw [count?, AList.lookup_insert_ne h, count?]

theorem reading_eq (m : HashMap κ UInt64) (k : κ) : reading m k = (count? m k).getD 0 := by
  rw [reading, count?]
  cases m.lookup k <;> rfl

/-- Maps with the same entries are equal. -/
theorem lookup_eq_of_count? {k : κ} (h : count? m k = count? m' k) : m.lookup k = m'.lookup k :=
  Option.map_injective (fun _ _ ↦ UInt64.toNat_inj.mp) h

/-! ## Maxima -/

/-- `let e = map.entry(k).or_insert(0); *e = (*e).max(v);` -/
def raise (m : HashMap κ UInt64) (k : κ) (v : UInt64) : HashMap κ UInt64 :=
  m.insert k (max ((m.lookup k).getD 0) v)

theorem count?_raise (m : HashMap κ UInt64) (k : κ) (v : UInt64) (j : κ) :
    count? (raise m k v) j =
      if j = k then Option.merge max (count? m j) (some v.toNat) else count? m j := by
  rw [raise]
  split
  · rename_i h
    subst h
    rw [count?_insert_self, UInt64.toNat_max, ← reading, reading_eq]
    rcases count? m j with _ | u
    · exact congrArg some (Nat.zero_max _)
    · rfl
  · rename_i h
    exact count?_insert_of_ne h m _

/-- `for (k, v) in l { raise(map, k, v) }`, on entries with distinct keys. -/
theorem count?_foldl_raise {l : List (Σ _ : κ, UInt64)} (hl : l.NodupKeys)
    (m : HashMap κ UInt64) (j : κ) :
    count? (l.foldl (fun m e ↦ raise m e.1 e.2) m) j =
      Option.merge max (count? m j) ((l.dlookup j).map UInt64.toNat) := by
  induction l generalizing m with
  | nil => rw [List.foldl_nil, List.dlookup_nil, Option.map_none, Option.merge_none_right]
  | cons e l ih =>
    obtain ⟨k, v⟩ := e
    obtain ⟨hk, hl⟩ := List.nodupKeys_cons.mp hl
    rw [List.foldl_cons, ih hl, count?_raise]
    by_cases hj : j = k
    · subst hj
      rw [if_pos rfl, List.dlookup_eq_none.mpr hk, List.dlookup_cons_eq, Option.map_none,
        Option.merge_none_right, Option.map_some]
    · rw [if_neg hj, List.dlookup_cons_ne l ⟨k, v⟩ hj]

/-! ## Counts -/

/-- There is an entry for each name that has been counted, and it is the count. -/
def Shows (m : HashMap κ UInt64) (v : κ → ℕ) : Prop :=
  ∀ k, count? m k = if v k = 0 then none else some (v k)

variable {v w : κ → ℕ}

theorem shows_empty : Shows (∅ : HashMap κ UInt64) 0 := fun _ ↦ rfl

theorem Shows.reading_eq (h : Shows m v) : reading m = v := by
  funext k
  rw [HashMap.reading_eq, h k]
  split
  · rename_i hzero
    exact hzero.symm
  · rfl

theorem Shows.mem_iff (h : Shows m v) {k : κ} : k ∈ m ↔ v k ≠ 0 := by
  rw [← AList.lookup_isSome, ← Option.isSome_map (f := UInt64.toNat), ← count?, h k]
  split <;> simp_all

/-- The count of a name goes up by one. -/
theorem Shows.insert (h : Shows m v) {k : κ} {u : UInt64} (hu : u.toNat = v k + 1) :
    Shows (m.insert k u) (Function.update v k (v k + 1)) := by
  intro j
  by_cases hj : j = k
  · subst hj
    rw [count?_insert_self, Function.update_self, hu, if_neg (Nat.succ_ne_zero _)]
  · rw [count?_insert_of_ne hj, Function.update_of_ne hj]
    exact h j

/-- **The greater entries show the maxima.** -/
theorem Shows.merge {r : HashMap κ UInt64} (h : Shows m v) (h' : Shows m' w)
    (hr : ∀ k, count? r k = Option.merge max (count? m k) (count? m' k)) : Shows r (v ⊔ w) := by
  intro k
  rw [hr k, h k, h' k, Pi.sup_apply]
  rcases Nat.eq_zero_or_pos (v k) with hv | hv
  · rw [if_pos hv, hv, Option.merge_none_left, Nat.zero_max]
  · rcases Nat.eq_zero_or_pos (w k) with hw | hw
    · rw [if_pos hw, hw, Option.merge_none_right, Nat.max_zero]
    · have hmax : v k ⊔ w k ≠ 0 := (hv.trans_le le_sup_left).ne'
      rw [if_neg hv.ne', if_neg hw.ne', if_neg hmax, Option.merge_some_some]

/-- Maps that show the same counts are equal. -/
theorem Shows.lookup_eq (h : Shows m v) (h' : Shows m' v) (k : κ) : m.lookup k = m'.lookup k :=
  lookup_eq_of_count? ((h k).trans (h' k).symm)

end Rust.HashMap
