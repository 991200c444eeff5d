import Arxia.Rust.UInt64
import Mathlib.Data.List.AList
import Mathlib.Data.Finset.Basic
import Mathlib.Algebra.BigOperators.Group.Finset.Basic

/-!
# Rust collections

`HashMap` and `BTreeMap` are association lists with distinct keys, the library's `AList`; a
`HashSet` is a `Finset`. A `Vec` carries the bound every allocation has, at most `isize::MAX`
elements, so that a length or an index derived from it is known to fit a machine word; so does a
`HashSet` whose elements are counted in another word.

Nothing about a hash map fixes the order in which it is iterated. Code that iterates one therefore
takes an `IterOrder`, an arbitrary permutation of the entries, and results about it hold for every
such order. Code that iterates the hash sets of a family takes a `SetOrder`.

Sums over the entries of a map are what conservation arguments need, so each update comes with the
lemma that says how it moves them.
-/

namespace Rust

/-! ## Vectors -/

/-- `isize::MAX`, the largest number of elements a `Vec` of a sized type can hold. -/
def isizeMax : ℕ := 2 ^ 63 - 1

/-- A `Vec<T>`. -/
structure Vec (α : Type) where
  /-- The elements in index order. -/
  toList : List α
  /-- No allocation exceeds `isize::MAX`. -/
  length_le : toList.length ≤ isizeMax
  deriving DecidableEq

namespace Vec

variable {α : Type}

theorem ext {v w : Vec α} (h : v.toList = w.toList) : v = w := by
  cases v
  cases w
  congr

/-- `Vec::new()`. -/
def empty : Vec α := ⟨[], Nat.zero_le _⟩

@[simp] theorem toList_empty : (empty : Vec α).toList = [] := rfl

/-- `v.push(x)`: `none` is the capacity-overflow panic. -/
def push (v : Vec α) (x : α) : Option (Vec α) :=
  if h : (v.toList ++ [x]).length ≤ isizeMax then some ⟨v.toList ++ [x], h⟩ else none

theorem push_eq_some {v w : Vec α} {x : α} : v.push x = some w ↔ w.toList = v.toList ++ [x] := by
  rw [push]
  constructor
  · intro h
    split at h
    · rw [← Option.some_inj.mp h]
    · simp at h
  · intro h
    have hle : (v.toList ++ [x]).length ≤ isizeMax := h ▸ w.length_le
    rw [dif_pos hle, Option.some_inj]
    exact ext h.symm

theorem exists_push {v : Vec α} (h : v.toList.length < isizeMax) (x : α) :
    ∃ w, v.push x = some w := by
  have hle : (v.toList ++ [x]).length ≤ isizeMax := by
    rw [List.length_append]
    exact h
  exact ⟨⟨_, hle⟩, dif_pos hle⟩

end Vec

/-! ## Sets -/

/-- A `HashSet<T>` of elements of `size` bytes: no allocation exceeds `isize::MAX` bytes. -/
structure HashSet (α : Type) (size : ℕ) where
  /-- The elements. -/
  toFinset : Finset α
  /-- There is room for them. -/
  card_le : toFinset.card * size ≤ isizeMax

namespace HashSet

variable {α : Type} {size : ℕ} [DecidableEq α]

/-- `HashSet::new()`. -/
def empty : HashSet α size := ⟨∅, Nat.zero_mul size ▸ Nat.zero_le _⟩

/-- `set.insert(x)`, whether `x` is new and the set afterwards: `none` is the capacity-overflow
panic. -/
def insert (s : HashSet α size) (x : α) : Option (Bool × HashSet α size) :=
  if x ∈ s.toFinset then some (false, s)
  else if h : (Insert.insert x s.toFinset).card * size ≤ isizeMax then some (true, ⟨_, h⟩)
  else none

theorem insert_eq_true {s s' : HashSet α size} {x : α} (h : s.insert x = some (true, s')) :
    x ∉ s.toFinset ∧ s'.toFinset = Insert.insert x s.toFinset := by
  rw [insert] at h
  split at h
  · simp at h
  · rename_i hmem
    split at h
    · obtain ⟨-, rfl⟩ := Prod.mk.inj (Option.some_inj.mp h)
      exact ⟨hmem, rfl⟩
    · simp at h

end HashSet

/-! ## Maps -/

/-- A `HashMap<K, V>` or `BTreeMap<K, V>`: finitely many keys, each with one value. -/
abbrev HashMap (κ ν : Type) := AList fun _ : κ ↦ ν

/-- One order in which a hash map may be iterated: any permutation of its entries. -/
structure IterOrder (κ ν : Type) where
  /-- The entries as the iterator yields them. -/
  arrange : List (Σ _ : κ, ν) → List (Σ _ : κ, ν)
  /-- Every entry is yielded exactly once. -/
  arrange_perm : ∀ l, (arrange l).Perm l

/-- The order in which the model happens to list the entries. -/
def IterOrder.asListed (κ ν : Type) : IterOrder κ ν := ⟨id, fun l ↦ List.Perm.refl l⟩

/-- The order in which the model lists the entries, from the end. -/
def IterOrder.reversed (κ ν : Type) : IterOrder κ ν := ⟨List.reverse, List.reverse_perm⟩

/-- One order in which each of a family of hash sets may be iterated. -/
structure SetOrder (ι α : Type) where
  /-- The elements as the iterator of a set yields them. -/
  arrange : ι → Finset α → List α
  /-- Every element is yielded exactly once. -/
  arrange_eq : ∀ i s, (arrange i s : Multiset α) = s.val

namespace SetOrder

variable {ι α : Type} (o : SetOrder ι α) (i : ι) {s : Finset α} {x : α}

theorem mem_arrange : x ∈ o.arrange i s ↔ x ∈ s := by
  rw [← Multiset.mem_coe, o.arrange_eq, Finset.mem_val]

theorem length_arrange : (o.arrange i s).length = s.card := by
  rw [← Multiset.coe_card, o.arrange_eq, Finset.card_val]

/-- The order with an element of each set moved to the end. -/
def endingIn [DecidableEq α] (final : ι → α) : SetOrder ι α where
  arrange := fun i s ↦
    if final i ∈ s then o.arrange i (s.erase (final i)) ++ [final i] else o.arrange i s
  arrange_eq := fun i s ↦ by
    split
    · rename_i hmem
      rw [← Multiset.coe_add, o.arrange_eq, Multiset.coe_singleton, add_comm,
        Multiset.singleton_add, Finset.erase_val]
      exact Multiset.cons_erase hmem
    · exact o.arrange_eq i s

theorem getLast?_endingIn [DecidableEq α] {final : ι → α} (hmem : final i ∈ s) :
    ((o.endingIn final).arrange i s).getLast? = some (final i) := by
  rw [endingIn]
  dsimp only
  rw [if_pos hmem]
  exact List.getLast?_concat

/-- The order with the elements of a list first, as the list has them. -/
def following [DecidableEq α] (l : List α) (hl : l.Nodup) : SetOrder ι α where
  arrange := fun i s ↦ l.filter (fun x ↦ x ∈ s) ++ o.arrange i (s \ l.toFinset)
  arrange_eq := fun i s ↦ by
    have hdisjoint : Disjoint ((l.filter fun x ↦ x ∈ s : List α) : Multiset α)
        (s \ l.toFinset).val := by
      rw [Multiset.disjoint_left]
      intro x hx hrest
      rw [Finset.mem_val, Finset.mem_sdiff, List.mem_toFinset] at hrest
      exact hrest.2 (List.mem_of_mem_filter (Multiset.mem_coe.mp hx))
    rw [← Multiset.coe_add, o.arrange_eq]
    have hnodup := Multiset.nodup_add.mpr
      ⟨Multiset.coe_nodup.mpr (hl.filter fun x ↦ x ∈ s), (s \ l.toFinset).nodup, hdisjoint⟩
    refine (Multiset.Nodup.ext hnodup s.nodup).mpr fun x ↦ ?_
    rw [Multiset.mem_add, Multiset.mem_coe, List.mem_filter, Finset.mem_val, Finset.mem_sdiff,
      List.mem_toFinset, decide_eq_true_eq, Finset.mem_val]
    tauto

/-- On the elements of the list it is the order of the list. -/
theorem arrange_following [DecidableEq α] {l : List α} (hl : l.Nodup) (hs : ∀ x ∈ s, x ∈ l) :
    (o.following l hl).arrange i s = l.filter fun x ↦ x ∈ s := by
  have hrest : s \ l.toFinset = ∅ :=
    Finset.sdiff_eq_empty_iff_subset.mpr fun x hx ↦ List.mem_toFinset.mpr (hs x hx)
  have hnil : o.arrange i ∅ = [] :=
    List.eq_nil_of_length_eq_zero ((o.length_arrange i).trans Finset.card_empty)
  rw [following]
  dsimp only
  rw [hrest, hnil, List.append_nil]

end SetOrder

namespace HashMap

variable {κ ν α : Type}

/-- The sum of `f` over the entries of a map. -/
def total (f : κ → ν → ℕ) (m : HashMap κ ν) : ℕ := (m.entries.map fun e ↦ f e.1 e.2).sum

@[simp] theorem total_empty (f : κ → ν → ℕ) : total f (∅ : HashMap κ ν) = 0 := rfl

theorem eq_empty_iff {m : HashMap κ ν} : m = ∅ ↔ ∀ k, k ∉ m := by
  constructor
  · rintro rfl k
    exact AList.notMem_empty k
  · intro h
    refine AList.ext (List.eq_nil_iff_forall_not_mem.mpr fun e he ↦ h e.1 ?_)
    exact List.mem_keys_of_mem he

variable [DecidableEq κ]

/-! ### Entries -/

theorem exists_lookup {m : HashMap κ ν} {k : κ} (h : k ∈ m) : ∃ v, m.lookup k = some v :=
  Option.isSome_iff_exists.mp (AList.lookup_isSome.mpr h)

theorem mem_of_lookup {m : HashMap κ ν} {k : κ} {v : ν} (h : m.lookup k = some v) : k ∈ m :=
  AList.lookup_isSome.mp (Option.isSome_iff_exists.mpr ⟨v, h⟩)

/-- `map.entry(k).or_insert(d)`, as an update of the map. -/
def orInsert (m : HashMap κ ν) (k : κ) (d : ν) : HashMap κ ν :=
  if k ∈ m then m else m.insert k d

theorem orInsert_of_mem {m : HashMap κ ν} {k : κ} (d : ν) (h : k ∈ m) : orInsert m k d = m :=
  if_pos h

theorem lookup_orInsert_self (m : HashMap κ ν) (k : κ) (d : ν) :
    (orInsert m k d).lookup k = some ((m.lookup k).getD d) := by
  rw [orInsert]
  split
  · rename_i h
    obtain ⟨v, hv⟩ := exists_lookup h
    rw [hv, Option.getD_some]
  · rename_i h
    rw [AList.lookup_insert, AList.lookup_eq_none.mpr h, Option.getD_none]

theorem lookup_orInsert_of_ne {m : HashMap κ ν} {k k' : κ} (d : ν) (h : k' ≠ k) :
    (orInsert m k d).lookup k' = m.lookup k' := by
  rw [orInsert]
  split
  · rfl
  · rw [AList.lookup_insert_ne h]

/-- Writing through a fresh entry is the same as writing to the map. -/
theorem insert_orInsert (m : HashMap κ ν) (k : κ) (d v : ν) :
    (orInsert m k d).insert k v = m.insert k v := by
  rw [orInsert]
  split
  · rfl
  · exact AList.insert_insert m

/-! ### Sums over the entries -/

private theorem sum_kerase (f : κ → ν → ℕ) (k : κ) (l : List (Σ _ : κ, ν)) :
    ((l.kerase k).map fun e ↦ f e.1 e.2).sum + ((l.dlookup k).elim 0 (f k))
      = (l.map fun e ↦ f e.1 e.2).sum := by
  induction l with
  | nil => rfl
  | cons e l ih =>
    obtain ⟨k', v⟩ := e
    by_cases h : k = k'
    · subst h
      rw [List.kerase_cons_eq (s := (⟨k, v⟩ : Σ _ : κ, ν)) rfl, List.dlookup_cons_eq,
        Option.elim_some, List.map_cons, List.sum_cons, Nat.add_comm]
    · rw [List.kerase_cons_ne (s := (⟨k', v⟩ : Σ _ : κ, ν)) h,
        List.dlookup_cons_ne l (⟨k', v⟩ : Σ _ : κ, ν) h, List.map_cons, List.sum_cons,
        List.map_cons, List.sum_cons, Nat.add_assoc, ih]

/-- **An insertion trades the old value of one key for the new one.** -/
theorem total_insert (f : κ → ν → ℕ) (m : HashMap κ ν) (k : κ) (v : ν) :
    total f (m.insert k v) + (m.lookup k).elim 0 (f k) = total f m + f k v := by
  rw [total, total, AList.entries_insert, List.map_cons, List.sum_cons,
    Nat.add_assoc, AList.lookup, sum_kerase, Nat.add_comm]

/-- An entry that counts for nothing does not show in the sum. -/
theorem total_orInsert {f : κ → ν → ℕ} {k : κ} {d : ν} (hd : f k d = 0) (m : HashMap κ ν) :
    total f (orInsert m k d) = total f m := by
  rw [orInsert]
  split
  · rfl
  · rename_i hmem
    have hins := total_insert f m k d
    rw [AList.lookup_eq_none.mpr hmem, hd] at hins
    exact hins

/-- The sum over the entries is a sum over the keys. -/
theorem total_eq_sum_keys (f : κ → ν → ℕ) (m : HashMap κ ν) :
    total f m = ∑ k ∈ m.keys.toFinset, (m.lookup k).elim 0 (f k) := by
  rw [List.sum_toFinset _ m.keys_nodup, AList.keys, List.keys, List.map_map, total]
  refine congrArg List.sum (List.map_congr_left fun e he ↦ ?_)
  rw [Function.comp_apply, AList.mem_lookup_iff.mpr he, Option.elim_some]

/-- The sum over a map with at most one key. -/
theorem total_of_keys_eq (f : κ → ν → ℕ) {m : HashMap κ ν} {k : κ} (h : ∀ k' ∈ m, k' = k) :
    total f m = (m.lookup k).elim 0 (f k) := by
  have hnil : m.entries.kerase k = [] := by
    refine List.eq_nil_iff_forall_not_mem.mpr fun e he ↦ ?_
    have hkey : e.1 ∈ (m.entries.kerase k).keys := List.mem_keys_of_mem he
    have hk : e.1 = k := h e.1 (List.mem_keys_of_mem_keys_kerase hkey)
    exact List.notMem_keys_kerase k m.nodupKeys (hk ▸ hkey)
  rw [total, ← sum_kerase f k, hnil, List.map_nil, List.sum_nil, Nat.zero_add, AList.lookup]

end HashMap

end Rust
