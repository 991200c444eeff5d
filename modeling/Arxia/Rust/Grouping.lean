import Arxia.Rust.Collections
import Mathlib.Data.List.Sort

/-!
# Deduplicating, indexing, grouping and sorting

Four loops that batch code is made of. Each is described by what it leaves behind: the elements a
seen-set lets through are those that are the first with their key, an index of distinct keys holds
exactly the pairs put into it, a group is a filter, and the head of a sorted list is a minimum.
-/

namespace Rust

variable {α κ ν : Type}

/-! ## First occurrences -/

section Firsts

variable [DecidableEq κ]

/-- `iter().filter(|x| seen.insert(key(x)))`. -/
def firsts (key : α → κ) : List α → Finset κ → List α
  | [], _ => []
  | x :: xs, seen =>
    if key x ∈ seen then firsts key xs seen else x :: firsts key xs (insert (key x) seen)

/-- What comes through is the first element with its key, unless the key was seen before. -/
theorem mem_firsts {key : α → κ} {l : List α} {seen : Finset κ} {x : α} :
    x ∈ firsts key l seen ↔ key x ∉ seen ∧ l.find? (fun y ↦ key y = key x) = some x := by
  induction l generalizing seen with
  | nil => simp [firsts]
  | cons y l ih =>
    rw [firsts, List.find?_cons]
    by_cases hseen : key y ∈ seen
    · rw [if_pos hseen, ih]
      refine and_congr_right fun hx ↦ ?_
      have hne : key y ≠ key x := fun h ↦ hx (h ▸ hseen)
      simp [hne]
    · rw [if_neg hseen, List.mem_cons, ih, Finset.mem_insert, not_or]
      by_cases hkey : key y = key x
      · simp only [hkey, decide_true, Option.some_inj]
        constructor
        · rintro (rfl | ⟨⟨hne, -⟩, -⟩)
          · exact ⟨hseen, rfl⟩
          · exact absurd trivial hne
        · rintro ⟨-, rfl⟩
          exact Or.inl rfl
      · have hxy : x ≠ y := fun h ↦ hkey (h ▸ rfl)
        simp [hkey, hxy, Ne.symm hkey]

theorem nodup_map_firsts (key : α → κ) (l : List α) (seen : Finset κ) :
    ((firsts key l seen).map key).Nodup := by
  induction l generalizing seen with
  | nil => exact List.nodup_nil
  | cons y l ih =>
    rw [firsts]
    split
    · exact ih seen
    · rw [List.map_cons, List.nodup_cons]
      refine ⟨fun hmem ↦ ?_, ih _⟩
      obtain ⟨x, hx, hkey⟩ := List.mem_map.mp hmem
      exact (mem_firsts.mp hx).1 (hkey ▸ Finset.mem_insert_self _ _)

end Firsts

/-! ## Indexing -/

section InsertAll

variable [DecidableEq κ]

/-- `for (k, v) in l { map.insert(k, v); }`. -/
def insertAll (m : HashMap κ ν) (l : List (κ × ν)) : HashMap κ ν :=
  l.foldl (fun m e ↦ m.insert e.1 e.2) m

theorem insertAll_cons (m : HashMap κ ν) (e : κ × ν) (l : List (κ × ν)) :
    insertAll m (e :: l) = insertAll (m.insert e.1 e.2) l := rfl

/-- With distinct keys nothing is overwritten: a pair is stored if it is in the list, or was stored
before under a key the list does not use. -/
theorem lookup_insertAll {l : List (κ × ν)} (hl : (l.map Prod.fst).Nodup) {m : HashMap κ ν} {k : κ}
    {v : ν} : (insertAll m l).lookup k = some v ↔
      (k, v) ∈ l ∨ k ∉ l.map Prod.fst ∧ m.lookup k = some v := by
  induction l generalizing m with
  | nil => simp [insertAll]
  | cons e l ih =>
    obtain ⟨k', v'⟩ := e
    rw [List.map_cons, List.nodup_cons] at hl
    rw [insertAll_cons, ih hl.2, List.mem_cons, List.map_cons, List.mem_cons, not_or]
    by_cases hk : k = k'
    · subst hk
      have hnot : (k, v) ∉ l := fun h ↦ hl.1 (List.mem_map.mpr ⟨_, h, rfl⟩)
      have hfst : k ∉ l.map Prod.fst := hl.1
      simp only [AList.lookup_insert, Option.some_inj, Prod.mk.injEq, true_and, hnot, hfst,
        not_true_eq_false, false_and, or_false, not_false_eq_true, false_or, eq_comm]
    · rw [AList.lookup_insert_ne hk]
      simp [hk]

theorem lookup_insertAll_empty {l : List (κ × ν)} (hl : (l.map Prod.fst).Nodup) {k : κ} {v : ν} :
    (insertAll ∅ l).lookup k = some v ↔ (k, v) ∈ l := by
  rw [lookup_insertAll hl, AList.lookup_empty]
  simp

end InsertAll

/-! ## Grouping -/

section Group

variable [DecidableEq κ]

/-- `for x in l { map.entry(key(x)).or_default().push(x); }`. -/
def group (key : α → κ) (l : List α) : HashMap κ (List α) :=
  l.foldl (fun m x ↦ m.insert (key x) ((m.lookup (key x)).getD [] ++ [x])) ∅

theorem lookup_group (key : α → κ) (l : List α) (k : κ) :
    (group key l).lookup k =
      if l.filter (fun x ↦ key x = k) = [] then none else some (l.filter fun x ↦ key x = k) := by
  induction l using List.reverseRecOn with
  | nil => rfl
  | append_singleton l x ih =>
    rw [group, List.foldl_append, ← group, List.foldl_cons, List.foldl_nil, List.filter_append]
    by_cases hk : key x = k
    · subst hk
      rw [AList.lookup_insert, ih, List.filter_singleton]
      by_cases hnil : l.filter (fun y ↦ key y = key x) = []
      · simp [hnil]
      · simp [hnil]
    · rw [AList.lookup_insert_ne (Ne.symm hk), ih, List.filter_singleton]
      simp [hk]

/-- A group is not empty, and holds the elements with its key in their order. -/
theorem lookup_group_eq_some {key : α → κ} {l g : List α} {k : κ} :
    (group key l).lookup k = some g ↔ g = l.filter (fun x ↦ key x = k) ∧ g ≠ [] := by
  rw [lookup_group]
  constructor
  · intro h
    split at h
    · simp at h
    · rename_i hnil
      obtain rfl := Option.some_inj.mp h
      exact ⟨rfl, hnil⟩
  · rintro ⟨rfl, hnil⟩
    rw [if_neg hnil]

end Group

/-! ## Sorting -/

section SortBy

variable [LinearOrder κ]

/-- `l.sort_by(|a, b| key(a).cmp(&key(b)))`: a stable sort. -/
def sortBy (key : α → κ) (l : List α) : List α := l.insertionSort fun a b ↦ key a ≤ key b

theorem sortBy_perm (key : α → κ) (l : List α) : (sortBy key l).Perm l :=
  List.perm_insertionSort _ l

theorem sortBy_pairwise (key : α → κ) (l : List α) :
    (sortBy key l).Pairwise fun a b ↦ key a ≤ key b := by
  have : Std.Total fun a b : α ↦ key a ≤ key b := ⟨fun a b ↦ le_total (key a) (key b)⟩
  have : IsTrans α fun a b ↦ key a ≤ key b := ⟨fun _ _ _ ↦ le_trans⟩
  exact List.pairwise_insertionSort _ l

/-- With keys that tell the elements apart the order before the sort does not show. -/
theorem sortBy_eq_of_perm {key : α → κ} (hkey : Function.Injective key) {l l' : List α}
    (h : l.Perm l') : sortBy key l = sortBy key l' :=
  (((sortBy_perm key l).trans h).trans (sortBy_perm key l').symm).eq_of_pairwise
    (fun _ _ _ _ hle hge ↦ hkey (le_antisymm hle hge)) (sortBy_pairwise key l)
    (sortBy_pairwise key l')

theorem sortBy_singleton (key : α → κ) (x : α) : sortBy key [x] = [x] := rfl

/-- **The head of a sorted list is a minimum.** -/
theorem head_sortBy_le {key : α → κ} {l rest : List α} {x : α} (h : sortBy key l = x :: rest) :
    x ∈ l ∧ ∀ y ∈ l, key x ≤ key y := by
  have hperm : (x :: rest).Perm l := h ▸ sortBy_perm key l
  have hsorted := h ▸ sortBy_pairwise key l
  refine ⟨hperm.subset List.mem_cons_self, fun y hy ↦ ?_⟩
  rcases List.mem_cons.mp (hperm.symm.subset hy) with rfl | hy
  · exact le_refl _
  · exact (List.pairwise_cons.mp hsorted).1 y hy

/-- The elements of a set in ascending order. -/
def ascending (s : Finset κ) : List κ :=
  Quot.liftOn s.val (sortBy id) fun l l' h ↦
    ((sortBy_perm id l).trans (h.trans (sortBy_perm id l').symm)).eq_of_pairwise
      (fun _ _ _ _ ↦ le_antisymm) (sortBy_pairwise id l) (sortBy_pairwise id l')

theorem coe_ascending (s : Finset κ) : (ascending s : Multiset κ) = s.val := by
  rw [ascending]
  exact Quot.inductionOn s.val fun l ↦ Multiset.coe_eq_coe.mpr (sortBy_perm id l)

/-- Every set in ascending order. -/
def SetOrder.ascending (ι κ : Type) [LinearOrder κ] : SetOrder ι κ :=
  ⟨fun _ ↦ Rust.ascending, fun _ ↦ coe_ascending⟩

/-- Every set in descending order. -/
def SetOrder.descending (ι κ : Type) [LinearOrder κ] : SetOrder ι κ :=
  ⟨fun _ s ↦ (Rust.ascending s).reverse, fun _ s ↦ by
    rw [Multiset.coe_reverse, coe_ascending]⟩

end SortBy

end Rust
