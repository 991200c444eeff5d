import Mathlib.Data.List.Infix
import Mathlib.Data.List.Nodup

/-!
# Numbered lists

A list is numbered by `f` when `f` counts its elements from one. An element then says where it is,
so numbered lists are determined by what is in them: one that is contained in another is its
beginning, and two that agree on the numbers they share are comparable.
-/

namespace Lists

variable {α : Type}

/-- `f` counts the elements from one. -/
def Numbered (f : α → ℕ) (l : List α) : Prop := ∀ i (hi : i < l.length), f l[i] = i + 1

namespace Numbered

variable {f : α → ℕ} {l l' : List α} {x : α}

/-- An element is at its place. -/
theorem getElem_of_mem (h : Numbered f l) (hx : x ∈ l) :
    ∃ hi : f x - 1 < l.length, l[f x - 1] = x ∧ 1 ≤ f x := by
  obtain ⟨i, hi, rfl⟩ := List.mem_iff_getElem.mp hx
  have hnumber := h i hi
  refine ⟨by omega, ?_, by omega⟩
  congr 1
  omega

theorem le_length (h : Numbered f l) (hx : x ∈ l) : f x ≤ l.length := by
  obtain ⟨hi, -, hpos⟩ := h.getElem_of_mem hx
  omega

/-- The number determines the element. -/
theorem eq_of_number_eq (h : Numbered f l) {y : α} (hx : x ∈ l) (hy : y ∈ l) (heq : f x = f y) :
    x = y := by
  obtain ⟨hi, hgetx, -⟩ := h.getElem_of_mem hx
  obtain ⟨hj, hgety, -⟩ := h.getElem_of_mem hy
  rw [← hgetx, ← hgety]
  congr 1
  omega

/-- Of two lists that agree on common numbers, the shorter one is a beginning. -/
theorem isPrefix_of_agree (h : Numbered f l) (h' : Numbered f l')
    (hagree : ∀ x ∈ l, ∀ y ∈ l', f x = f y → x = y) (hle : l.length ≤ l'.length) : l <+: l' := by
  rw [List.prefix_iff_getElem]
  refine ⟨hle, fun i hi ↦ ?_⟩
  exact hagree _ (List.getElem_mem hi) _ (List.getElem_mem _) ((h i hi).trans (h' i _).symm)

/-- **Containment is being a beginning.** -/
theorem isPrefix_of_subset (h : Numbered f l) (h' : Numbered f l') (hsub : ∀ x ∈ l, x ∈ l') :
    l <+: l' := by
  refine h.isPrefix_of_agree h' (fun x hx y hy heq ↦ h'.eq_of_number_eq (hsub x hx) hy heq) ?_
  by_contra hlt
  -- the last element would be past the end of the other list
  have hlast : l.length - 1 < l.length := by omega
  have hnumber := h _ hlast
  have hbound := h'.le_length (hsub _ (List.getElem_mem hlast))
  omega

/-- **Numbered lists of the same elements are equal.** -/
theorem eq_of_mem_iff (h : Numbered f l) (h' : Numbered f l') (hmem : ∀ x, x ∈ l ↔ x ∈ l') :
    l = l' :=
  (h.isPrefix_of_subset h' fun x ↦ (hmem x).mp).eq_of_length_le
    (h'.isPrefix_of_subset h fun x ↦ (hmem x).mpr).length_le

end Numbered

end Lists
