import Mathlib.Data.List.Basic
import Mathlib.Logic.Relation

/-!
# Lists that are edited

What a function should make of a list of messages often leaves open in which order they come, how
often, and what strangers put between them. `Edited irrelevant` relates two lists that differ in no
more than that: it is generated by permutations, by the insertion of irrelevant entries, and by the
repetition of entries that are there. `Padded irrelevant` does without the permutations.

Neither changes which of the other entries a list has.
-/

namespace Lists

variable {α : Type} {irrelevant : α → Prop} {l l' : List α} {x : α}

/-- One more entry, anywhere: an irrelevant one or one that is there already. -/
inductive Insertion (irrelevant : α → Prop) : List α → List α → Prop
  | stray (l₁ l₂ : List α) (x : α) : irrelevant x → Insertion irrelevant (l₁ ++ l₂) (l₁ ++ x :: l₂)
  | again (l₁ l₂ : List α) (x : α) : x ∈ l₁ ++ l₂ → Insertion irrelevant (l₁ ++ l₂) (l₁ ++ x :: l₂)

/-- Insertions, any number of them. -/
def Padded (irrelevant : α → Prop) : List α → List α → Prop :=
  Relation.ReflTransGen (Insertion irrelevant)

/-- Insertions and permutations, any number of them. -/
def Edited (irrelevant : α → Prop) : List α → List α → Prop :=
  Relation.ReflTransGen fun l l' ↦ l.Perm l' ∨ Insertion irrelevant l l'

theorem Insertion.mem_iff (h : Insertion irrelevant l l') (hx : ¬ irrelevant x) :
    x ∈ l' ↔ x ∈ l := by
  rcases h with ⟨l₁, l₂, y, hy⟩ | ⟨l₁, l₂, y, hy⟩
  · rw [List.perm_middle.mem_iff, List.mem_cons]
    apply or_iff_right
    rintro rfl
    exact hx hy
  · rw [List.perm_middle.mem_iff, List.mem_cons]
    apply or_iff_right_of_imp
    rintro rfl
    exact hy

theorem Insertion.sublist (h : Insertion irrelevant l l') : l.Sublist l' := by
  rcases h with ⟨l₁, l₂, y, -⟩ | ⟨l₁, l₂, y, -⟩ <;>
    exact (List.Sublist.refl l₁).append (List.sublist_cons_self y l₂)

/-- What is there stays, in its order. -/
theorem Padded.sublist (h : Padded irrelevant l l') : l.Sublist l' := by
  induction h with
  | refl => exact List.Sublist.refl l
  | tail _ hinsertion ih => exact ih.trans hinsertion.sublist

theorem Padded.refl (irrelevant : α → Prop) (l : List α) : Padded irrelevant l l :=
  Relation.ReflTransGen.refl

/-- A stray entry in front. -/
theorem Padded.cons (h : Padded irrelevant l l') (hx : irrelevant x) :
    Padded irrelevant l (x :: l') :=
  Relation.ReflTransGen.tail h (Insertion.stray [] l' x hx)

/-- The first entry once more. -/
theorem Padded.again (irrelevant : α → Prop) (x : α) (l : List α) :
    Padded irrelevant (x :: l) (x :: x :: l) :=
  Relation.ReflTransGen.single (Insertion.again [] (x :: l) x List.mem_cons_self)

theorem Edited.mem_iff (h : Edited irrelevant l l') (hx : ¬ irrelevant x) : x ∈ l' ↔ x ∈ l := by
  induction h with
  | refl => exact Iff.rfl
  | tail _ hedit ih =>
    rcases hedit with hperm | hinsertion
    · exact hperm.mem_iff.symm.trans ih
    · exact (hinsertion.mem_iff hx).trans ih

theorem Edited.refl (irrelevant : α → Prop) (l : List α) : Edited irrelevant l l :=
  Relation.ReflTransGen.refl

theorem Edited.of_perm (h : l.Perm l') : Edited irrelevant l l' :=
  Relation.ReflTransGen.single (Or.inl h)

end Lists
