import Arxia.Rust.Grouping

/-!
# Sorted lists and maps in key order

An element is among the `n` greatest of a list when fewer than `n` elements rank above it. In a list
that ascends those are the last `n`, so dropping the front of a sorted list keeps the greatest.

A `BTreeMap` is iterated by ascending keys. What the keys are compared by is an argument, since the
key types of the code are not ordered by an instance of the library; every key type comes with one
that tells its keys apart.

A list in strictly ascending order is determined by its elements, which is how two loops over
different maps are seen to go through the same entries one after the other.
-/

/-! ## The greatest of a list -/

namespace Ranking

variable {α ι : Type} [Preorder ι] [DecidableLT ι] {rank : α → ι} {l l' : List α} {x : α} {n : ℕ}

/-- How many elements of the list rank above `x`. -/
def countAbove (rank : α → ι) (l : List α) (x : α) : ℕ := l.countP fun y ↦ rank x < rank y

theorem countAbove_perm (h : l.Perm l') (x : α) : countAbove rank l x = countAbove rank l' x :=
  h.countP_eq _

/-- Nothing ranks above itself, so fewer rank above an element than there are. -/
theorem countAbove_lt_length (h : x ∈ l) : countAbove rank l x < l.length := by
  refine lt_of_le_of_ne List.countP_le_length fun heq ↦ ?_
  have hall := List.countP_eq_length.mp heq x h
  exact absurd (of_decide_eq_true hall) (lt_irrefl _)

/-- **The last of an ascending list are its greatest.** -/
theorem mem_drop_iff (hl : l.Pairwise fun a b ↦ rank a < rank b) :
    x ∈ l.drop (l.length - n) ↔ x ∈ l ∧ countAbove rank l x < n := by
  induction l with
  | nil => simp
  | cons a l ih =>
    obtain ⟨hhead, htail⟩ := List.pairwise_cons.mp hl
    rcases Nat.lt_or_ge l.length n with hn | hn
    · have hall : (a :: l).length - n = 0 := Nat.sub_eq_zero_of_le hn
      rw [hall, List.drop_zero]
      exact ⟨fun hx ↦ ⟨hx, lt_of_lt_of_le (countAbove_lt_length hx) hn⟩, And.left⟩
    · have hlen : (a :: l).length - n = l.length - n + 1 := Nat.succ_sub hn
      have hskip : ∀ y ∈ l, countAbove rank (a :: l) y = countAbove rank l y := fun y hy ↦
        List.countP_cons_of_neg fun habove ↦
          not_lt_of_gt (hhead y hy) (of_decide_eq_true habove)
      have ha : countAbove rank (a :: l) a = l.length := by
        have hself : (a :: l).countP (fun y ↦ rank a < rank y) = l.countP fun y ↦ rank a < rank y :=
          List.countP_cons_of_neg fun habove ↦ lt_irrefl _ (of_decide_eq_true habove)
        rw [countAbove, hself, List.countP_eq_length]
        exact fun y hy ↦ decide_eq_true (hhead y hy)
      rw [hlen, List.drop_succ_cons, ih htail, List.mem_cons]
      constructor
      · rintro ⟨hx, hlt⟩
        exact ⟨Or.inr hx, hskip x hx ▸ hlt⟩
      · rintro ⟨rfl | hx, hlt⟩
        · exact absurd hlt (ha ▸ not_lt.mpr hn)
        · exact ⟨hx, hskip x hx ▸ hlt⟩

end Ranking

/-! ## Ascending lists and maps -/

namespace Rust

variable {α κ ν ι : Type} [LinearOrder ι]

/-- **Strictly ascending lists** with the same elements are equal. -/
theorem eq_of_ascending (key : α → ι) {l l' : List α} (hl : l.Pairwise fun a b ↦ key a < key b)
    (hl' : l'.Pairwise fun a b ↦ key a < key b) (hmem : ∀ x, x ∈ l ↔ x ∈ l') : l = l' := by
  have hnodup : ∀ {k : List α}, (k.Pairwise fun a b ↦ key a < key b) → k.Nodup := fun hk ↦
    hk.imp fun {a b} hlt heq ↦ absurd (heq ▸ hlt) (lt_irrefl _)
  have hperm : l.Perm l' := (List.perm_ext_iff_of_nodup (hnodup hl) (hnodup hl')).mpr hmem
  exact hperm.eq_of_pairwise (fun a b _ _ hab hba ↦ absurd hba (lt_asymm hab)) hl hl'

/-- A list without repetitions that starts as its reverse does has one element at most. -/
theorem subsingleton_of_reverse {l : List α} (h : l.Nodup) (hends : l.reverse.head? = l.head?) :
    ∀ x ∈ l, ∀ y ∈ l, x = y := by
  rcases l with _ | ⟨a, l⟩
  · exact fun x hx ↦ absurd hx List.not_mem_nil
  rcases List.eq_nil_or_concat' l with rfl | ⟨rest, b, rfl⟩
  · intro x hx y hy
    rw [List.mem_singleton.mp hx, List.mem_singleton.mp hy]
  · rw [List.reverse_cons, List.reverse_append] at hends
    obtain rfl : b = a := Option.some_inj.mp hends
    exact absurd (List.mem_append_right _ (List.mem_singleton_self _)) (List.nodup_cons.mp h).1

namespace HashMap

/-- The entries of a `BTreeMap` as its iterator yields them. -/
def inOrder (order : κ → ι) (m : HashMap κ ν) : List (κ × ν) :=
  sortBy (fun e ↦ order e.1) (m.entries.map fun e ↦ (e.1, e.2))

/-- The keys of a `BTreeMap` as its iterator yields them. -/
def keysInOrder (order : κ → ι) (m : HashMap κ ν) : List κ := (inOrder order m).map Prod.fst

variable {order : κ → ι} {m : HashMap κ ν}

theorem keysInOrder_perm : (keysInOrder order m).Perm m.keys := by
  have hperm := (sortBy_perm (fun e : κ × ν ↦ order e.1)
    (m.entries.map fun e ↦ (e.1, e.2))).map Prod.fst
  rwa [List.map_map] at hperm

theorem nodup_keysInOrder : (keysInOrder order m).Nodup :=
  (keysInOrder_perm.nodup_iff).mpr m.keys_nodup

/-- Keys that the order tells apart come in strictly ascending order. -/
theorem keysInOrder_pairwise (horder : Function.Injective order) :
    (keysInOrder order m).Pairwise fun k k' ↦ order k < order k' := by
  have hle : (keysInOrder order m).Pairwise fun k k' ↦ order k ≤ order k' :=
    List.pairwise_map.mpr (sortBy_pairwise _ _)
  refine (hle.and nodup_keysInOrder).imp fun {k k'} h ↦ lt_of_le_of_ne h.1 fun heq ↦ ?_
  exact h.2 (horder heq)

theorem inOrder_pairwise (horder : Function.Injective order) :
    (inOrder order m).Pairwise fun e e' ↦ order e.1 < order e'.1 := by
  have hkeys := keysInOrder_pairwise (m := m) horder
  rwa [keysInOrder, List.pairwise_map] at hkeys

variable [DecidableEq κ]

theorem mem_inOrder {e : κ × ν} : e ∈ inOrder order m ↔ m.lookup e.1 = some e.2 := by
  rw [inOrder, (sortBy_perm _ _).mem_iff, List.mem_map]
  constructor
  · rintro ⟨e, he, rfl⟩
    exact AList.mem_lookup_iff.mpr he
  · intro h
    exact ⟨⟨e.1, e.2⟩, AList.mem_lookup_iff.mp h, rfl⟩

theorem mem_keysInOrder {k : κ} : k ∈ keysInOrder order m ↔ k ∈ m := by
  rw [keysInOrder, List.mem_map]
  constructor
  · rintro ⟨e, he, rfl⟩
    exact mem_of_lookup (mem_inOrder.mp he)
  · intro h
    obtain ⟨v, hv⟩ := exists_lookup h
    exact ⟨(k, v), mem_inOrder.mpr hv, rfl⟩

end HashMap

end Rust
