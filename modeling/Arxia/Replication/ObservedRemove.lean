import Mathlib.Data.Set.Insert

/-!
# Observed-remove histories

What a replicated set is meant to hold. A replica knows of adds and of removes, its own and those it
has been told about, and a remove comes with the adds it observed. An add is *live* as long as no
known remove of its element observed it; an element belongs to the set while some add of it is live.
So an add wins over a remove that did not see it, and a remove is for good: of an add it observed
nothing that is learned later makes a live one.

Elements and adds are of any type. An add stands for one occurrence; what tells two of them apart is
up to the user.
-/

namespace ObservedRemove

variable {α β : Type}

/-- A remove of an element, and the adds of it that it observed. -/
structure Removal (α β : Type) where
  element : α
  observed : Set β

/-- The adds and removes a replica knows of. -/
structure History (α β : Type) where
  adds : Set (α × β)
  removals : Set (Removal α β)

namespace History

/-- Nothing has happened. -/
def empty : History α β := ⟨∅, ∅⟩

/-- The replica adds `x`. -/
def add (h : History α β) (x : α) (a : β) : History α β :=
  { h with adds := insert (x, a) h.adds }

/-- The replica removes `x`, seeing some of the adds it knows of. -/
def remove (h : History α β) (x : α) (seen : Set β) : History α β :=
  { h with removals := insert ⟨x, {a | (x, a) ∈ h.adds ∧ a ∈ seen}⟩ h.removals }

/-- The replica learns what another one knows. -/
def merge (h h' : History α β) : History α β :=
  ⟨h.adds ∪ h'.adds, h.removals ∪ h'.removals⟩

/-- A known remove of `x` has observed the add. -/
def Observed (h : History α β) (x : α) (a : β) : Prop :=
  ∃ r ∈ h.removals, r.element = x ∧ a ∈ r.observed

/-- The add is known, and no known remove of its element has observed it. -/
def Live (h : History α β) (x : α) (a : β) : Prop := (x, a) ∈ h.adds ∧ ¬ h.Observed x a

/-- Removes only observe adds that are known where they are known. -/
def Grounded (h : History α β) : Prop := ∀ x a, h.Observed x a → (x, a) ∈ h.adds

variable {h h' : History α β} {x y : α} {a b : β} {seen : Set β}

/-! ## What is observed -/

theorem observed_add : (h.add x a).Observed y b ↔ h.Observed y b := Iff.rfl

theorem observed_remove :
    (h.remove x seen).Observed y b ↔ (y = x ∧ (x, b) ∈ h.adds ∧ b ∈ seen) ∨ h.Observed y b := by
  rw [Observed, remove]
  constructor
  · rintro ⟨r, rfl | hr, rfl, hb⟩
    · exact Or.inl ⟨rfl, hb⟩
    · exact Or.inr ⟨r, hr, rfl, hb⟩
  · rintro (⟨rfl, hb⟩ | ⟨r, hr, rfl, hb⟩)
    · exact ⟨_, Set.mem_insert _ _, rfl, hb⟩
    · exact ⟨r, Set.mem_insert_of_mem _ hr, rfl, hb⟩

theorem observed_merge : (h.merge h').Observed x a ↔ h.Observed x a ∨ h'.Observed x a := by
  rw [Observed, merge]
  constructor
  · rintro ⟨r, hr | hr, hx, ha⟩
    · exact Or.inl ⟨r, hr, hx, ha⟩
    · exact Or.inr ⟨r, hr, hx, ha⟩
  · rintro (⟨r, hr, hx, ha⟩ | ⟨r, hr, hx, ha⟩)
    · exact ⟨r, Or.inl hr, hx, ha⟩
    · exact ⟨r, Or.inr hr, hx, ha⟩

/-! ## Grounded histories -/

theorem grounded_empty : (empty : History α β).Grounded := by
  rintro x a ⟨r, hr, -⟩
  exact absurd hr (Set.notMem_empty r)

theorem Grounded.add (hg : h.Grounded) (x : α) (a : β) : (h.add x a).Grounded :=
  fun y b hb ↦ Set.mem_insert_of_mem _ (hg y b (observed_add.mp hb))

theorem Grounded.remove (hg : h.Grounded) (x : α) (seen : Set β) : (h.remove x seen).Grounded := by
  intro y b hb
  rcases observed_remove.mp hb with ⟨rfl, hadd, -⟩ | hb
  · exact hadd
  · exact hg y b hb

theorem Grounded.merge (hg : h.Grounded) (hg' : h'.Grounded) : (h.merge h').Grounded := by
  intro x a ha
  rcases observed_merge.mp ha with ha | ha
  · exact Or.inl (hg x a ha)
  · exact Or.inr (hg' x a ha)

/-! ## What is live -/

/-- A new add is live. -/
theorem live_add_self (hg : h.Grounded) (hnew : (x, a) ∉ h.adds) : (h.add x a).Live x a :=
  ⟨Set.mem_insert _ _, fun hobs ↦ hnew (hg x a hobs)⟩

theorem live_add_of_ne (hne : y ≠ x) : (h.add x a).Live y b ↔ h.Live y b := by
  rw [Live, Live, observed_add]
  refine and_congr_left fun _ ↦ Set.mem_insert_iff.trans (or_iff_right fun heq ↦ hne ?_)
  exact congrArg Prod.fst heq

theorem live_of_live_add (hlive : (h.add x a).Live y b) : (y = x ∧ b = a) ∨ h.Live y b := by
  rcases hlive.1 with heq | hmem
  · exact Or.inl (Prod.mk.inj heq)
  · exact Or.inr ⟨hmem, hlive.2⟩

/-- A remove leaves the adds it did not see. -/
theorem live_remove_self : (h.remove x seen).Live x a ↔ h.Live x a ∧ a ∉ seen := by
  rw [Live, Live, observed_remove, not_or, and_assoc]
  constructor
  · rintro ⟨hmem, hnot, hobs⟩
    exact ⟨hmem, hobs, fun hseen ↦ hnot ⟨rfl, hmem, hseen⟩⟩
  · rintro ⟨hmem, hobs, hseen⟩
    exact ⟨hmem, fun hnot ↦ hseen hnot.2.2, hobs⟩

theorem live_remove_of_ne (hne : y ≠ x) : (h.remove x seen).Live y a ↔ h.Live y a := by
  rw [Live, Live, observed_remove, or_iff_right fun hnot ↦ hne hnot.1]
  exact Iff.rfl

/-- **After a merge** an add is live if either side knows it and neither knows a remove that
observed it. -/
theorem live_merge : (h.merge h').Live x a ↔
    ((x, a) ∈ h.adds ∨ (x, a) ∈ h'.adds) ∧ ¬ h.Observed x a ∧ ¬ h'.Observed x a := by
  rw [Live, observed_merge, not_or]
  exact Iff.rfl

/-- Merging makes nothing live that was not. -/
theorem live_of_live_merge (hlive : (h.merge h').Live x a) : h.Live x a ∨ h'.Live x a := by
  obtain ⟨hmem, hobs, hobs'⟩ := live_merge.mp hlive
  rcases hmem with hmem | hmem
  · exact Or.inl ⟨hmem, hobs⟩
  · exact Or.inr ⟨hmem, hobs'⟩

end History

end ObservedRemove
