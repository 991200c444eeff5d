import Mathlib.Data.List.ReduceOption

/-!
# Lists of slots

A list of a fixed length that is filled piece by piece, in any order. Once every slot has something
in it the list is that of the contents, in the order of the slots.
-/

namespace Lists

variable {α : Type} {slots : List (Option α)} {i j : ℕ} {x y : α}

/-- The number of slots with something in them. -/
def countFilled (slots : List (Option α)) : ℕ := slots.countP Option.isSome

theorem countFilled_replicate (n : ℕ) : countFilled (List.replicate n (none : Option α)) = 0 := by
  rw [countFilled, List.countP_replicate]
  rfl

theorem countFilled_le (slots : List (Option α)) : countFilled slots ≤ slots.length :=
  List.countP_le_length

/-- **Filling a slot.** -/
theorem countFilled_set (h : slots[i]? = some none) (x : α) :
    countFilled (slots.set i (some x)) = countFilled slots + 1 := by
  induction slots generalizing i with
  | nil => cases h
  | cons slot slots ih =>
    cases i with
    | zero =>
      obtain rfl := Option.some_inj.mp (List.getElem?_cons_zero.symm.trans h)
      rw [List.set_cons_zero, countFilled, countFilled, List.countP_cons_of_pos (by rfl),
        List.countP_cons_of_neg (by simp)]
    | succ i =>
      rw [List.getElem?_cons_succ] at h
      have hset := ih h
      rw [countFilled, countFilled] at hset
      rw [List.set_cons_succ, countFilled, countFilled, List.countP_cons, List.countP_cons, hset]
      omega

/-- What is in a slot after one has been filled. -/
theorem getElem?_set_eq_some (h : slots[i]? = some none) :
    (slots.set i (some x))[j]? = some (some y) ↔
      (j = i ∧ y = x) ∨ slots[j]? = some (some y) := by
  have hlt : i < slots.length := (List.getElem?_eq_some_iff.mp h).1
  by_cases hj : i = j
  · subst hj
    rw [List.getElem?_set_self hlt, h]
    simp [eq_comm]
  · rw [List.getElem?_set_ne hj, or_iff_right fun heq ↦ hj heq.1.symm]

/-- Every slot is filled. -/
theorem forall_filled (h : countFilled slots = slots.length) (hi : i < slots.length) :
    ∃ x, slots[i]? = some (some x) := by
  have hsome := List.countP_eq_length.mp h slots[i] (List.getElem_mem hi)
  obtain ⟨x, hx⟩ := Option.isSome_iff_exists.mp hsome
  exact ⟨x, by rw [List.getElem?_eq_getElem hi, hx]⟩

theorem exists_filled (h : 0 < countFilled slots) :
    ∃ (i : ℕ) (x : α), slots[i]? = some (some x) := by
  obtain ⟨slot, hmem, hsome⟩ := List.countP_pos_iff.mp h
  obtain ⟨x, rfl⟩ := Option.isSome_iff_exists.mp hsome
  obtain ⟨i, hi⟩ := List.getElem?_of_mem hmem
  exact ⟨i, x, hi⟩

/-- There is an empty slot as long as not all are filled. -/
theorem countFilled_lt (h : slots[i]? = some none) : countFilled slots < slots.length := by
  refine Nat.lt_of_le_of_ne (countFilled_le slots) fun heq ↦ ?_
  obtain ⟨x, hx⟩ := forall_filled heq (List.getElem?_eq_some_iff.mp h).1
  cases h.symm.trans hx

theorem countFilled_map_some (xs : List α) : countFilled (xs.map some) = xs.length := by
  rw [countFilled, List.countP_eq_length.mpr, List.length_map]
  intro slot hslot
  obtain ⟨x, -, rfl⟩ := List.mem_map.mp hslot
  rfl

/-- Slots are filled with a list when every element is in its place. -/
theorem eq_map_some {xs : List α} (hlength : slots.length = xs.length)
    (h : ∀ (i : ℕ) x, xs[i]? = some x → slots[i]? = some (some x)) : slots = xs.map some := by
  refine List.ext_getElem? fun i ↦ ?_
  rw [List.getElem?_map]
  cases hx : xs[i]? with
  | none =>
    rw [List.getElem?_eq_none_iff, ← hlength] at hx
    exact List.getElem?_eq_none_iff.mpr hx
  | some x => exact h i x hx

/-- **What a full list holds**: contents that satisfy a condition on their place can be given all
at once. -/
theorem exists_contents {β : Type} {content : β → α} {P : ℕ → β → Prop}
    (hfull : countFilled slots = slots.length)
    (h : ∀ i x, slots[i]? = some (some x) → ∃ b, content b = x ∧ P i b) :
    ∃ bs : List β, bs.length = slots.length ∧ slots.reduceOption = bs.map content ∧
      ∀ i b, bs[i]? = some b → P i b := by
  have hall : ∀ i : Fin slots.length, ∃ b, slots[i]? = some (some (content b)) ∧ P i b := fun i ↦ by
    obtain ⟨x, hx⟩ := forall_filled hfull i.isLt
    obtain ⟨b, rfl, hP⟩ := h i x hx
    exact ⟨b, hx, hP⟩
  choose f hslot hP using hall
  have hlength : (List.ofFn f).length = slots.length := List.length_ofFn
  have hslots : slots = (List.ofFn f).map fun b ↦ some (content b) := by
    refine List.ext_getElem (by rw [List.length_map, hlength]) fun i hi _ ↦ ?_
    rw [List.getElem_map, List.getElem_ofFn]
    exact Option.some_inj.mp ((List.getElem?_eq_getElem hi).symm.trans (hslot ⟨i, hi⟩))
  refine ⟨List.ofFn f, hlength, ?_, fun i b hb ↦ ?_⟩
  · conv_lhs => rw [hslots]
    rw [List.reduceOption, List.filterMap_map]
    exact List.filterMap_eq_map (f := content) ▸ rfl
  · obtain ⟨hi, rfl⟩ := List.getElem?_eq_some_iff.mp hb
    rw [List.getElem_ofFn]
    exact hP ⟨i, _⟩

end Lists
