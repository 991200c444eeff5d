import Arxia.Rust.Collections
import Arxia.Rust.Text

/-!
# The OR-Set

A set that hands out a tag with every add and holds the tags of each element. `remove` drops the
tags there are, `merge` takes the union; the set keeps no trace of what it has dropped. Every
operation is described by what it does to `tags`.
-/

namespace Arxia

open Rust

/-- OR-Set with unique tags for add-wins conflict resolution. -/
structure ORSet (T : Type) where
  elements : HashMap T (Finset String)
  tagCounter : UInt64
  nodeId : String

namespace ORSet

variable {T : Type}

/-- Create a new empty OR-Set for a given node. -/
def new (nodeId : String) : ORSet T := ⟨∅, 0, nodeId⟩

/-- `format!("{}:{}", self.node_id, self.tag_counter)`. -/
def tag (nodeId : String) (tagCounter : UInt64) : String :=
  nodeId ++ ":" ++ tagCounter.toNat.repr

variable [DecidableEq T]

/-- Add an element with a unique tag. -/
def add (s : ORSet T) (element : T) : ORSet T :=
  let tagCounter := s.tagCounter.saturatingAdd 1
  let tags := (s.elements.lookup element).getD ∅
  { s with
    tagCounter
    elements := s.elements.insert element (insert (tag s.nodeId tagCounter) tags) }

/-- Remove an element (drops all observed tags), and say whether it was present. -/
def remove (s : ORSet T) (element : T) : ORSet T × Bool :=
  ({ s with elements := s.elements.erase element }, (s.elements.lookup element).isSome)

/-- Check if an element is in the set. -/
def contains (s : ORSet T) (element : T) : Bool :=
  (s.elements.lookup element).any fun tags ↦ tags ≠ ∅

/-- Merge with another OR-Set (union of tags). The keys come sorted in the source; the result does
not depend on their order. -/
def merge (s other : ORSet T) : ORSet T :=
  let mergeEntry (m : HashMap T (Finset String)) (e : Σ _ : T, Finset String) :=
    m.insert e.1 ((m.lookup e.1).getD ∅ ∪ e.2)
  { s with elements := other.elements.entries.foldl mergeEntry s.elements }

/-- The tags of an element. -/
def tags (s : ORSet T) (element : T) : Finset String := (s.elements.lookup element).getD ∅

theorem contains_iff {s : ORSet T} {x : T} : s.contains x = true ↔ (s.tags x).Nonempty := by
  rw [contains, tags, Finset.nonempty_iff_ne_empty]
  rcases s.elements.lookup x with _ | tags <;> simp

/-! ## Operations on the tags -/

@[simp] theorem tags_new (nodeId : String) (x : T) : (new nodeId : ORSet T).tags x = ∅ := rfl

theorem tags_add_self (s : ORSet T) (x : T) :
    (s.add x).tags x = insert (tag s.nodeId (s.add x).tagCounter) (s.tags x) := by
  rw [tags, add, AList.lookup_insert, Option.getD_some, tags]

theorem tags_add_of_ne (s : ORSet T) {x y : T} (hne : y ≠ x) : (s.add x).tags y = s.tags y := by
  rw [tags, add, AList.lookup_insert_ne hne, tags]

theorem tags_remove_self (s : ORSet T) (x : T) : (s.remove x).1.tags x = ∅ := by
  rw [tags, remove, AList.lookup_erase, Option.getD_none]

theorem tags_remove_of_ne (s : ORSet T) {x y : T} (hne : y ≠ x) :
    (s.remove x).1.tags y = s.tags y := by
  rw [tags, remove, AList.lookup_erase_ne hne, tags]

private theorem mem_foldl_union (l : List (Σ _ : T, Finset String))
    (m : HashMap T (Finset String)) (x : T) (t : String) :
    t ∈ ((l.foldl (fun m e ↦ m.insert e.1 ((m.lookup e.1).getD ∅ ∪ e.2)) m).lookup x).getD ∅ ↔
      t ∈ (m.lookup x).getD ∅ ∨ ∃ tags, (⟨x, tags⟩ : Σ _ : T, Finset String) ∈ l ∧ t ∈ tags := by
  induction l generalizing m with
  | nil => simp
  | cons e l ih =>
    rw [List.foldl_cons, ih]
    simp only [List.mem_cons, or_and_right, exists_or]
    rw [← or_assoc]
    apply or_congr_left
    by_cases hx : x = e.1
    · subst hx
      rw [AList.lookup_insert, Option.getD_some, Finset.mem_union]
      refine or_congr_right ⟨fun ht ↦ ⟨e.2, rfl, ht⟩, ?_⟩
      rintro ⟨tags, heq, ht⟩
      exact (eq_of_heq (Sigma.mk.inj heq).2) ▸ ht
    · rw [AList.lookup_insert_ne hx, or_iff_left]
      rintro ⟨tags, heq, -⟩
      exact hx (congrArg Sigma.fst heq)

/-- **Merging takes the union of the tags.** -/
theorem tags_merge (s other : ORSet T) (x : T) :
    (s.merge other).tags x = s.tags x ∪ other.tags x := by
  ext t
  rw [tags, merge, mem_foldl_union, Finset.mem_union, tags, tags]
  apply or_congr_right
  constructor
  · rintro ⟨tags, hmem, ht⟩
    rw [AList.mem_lookup_iff.mpr hmem]
    exact ht
  · intro ht
    rcases hlookup : other.elements.lookup x with _ | tags
    · rw [hlookup, Option.getD_none] at ht
      exact absurd ht (Finset.notMem_empty t)
    · rw [hlookup, Option.getD_some] at ht
      exact ⟨tags, AList.mem_lookup_iff.mp hlookup, ht⟩

/-! ## Node and counter -/

@[simp] theorem nodeId_add (s : ORSet T) (x : T) : (s.add x).nodeId = s.nodeId := rfl

@[simp] theorem nodeId_remove (s : ORSet T) (x : T) : (s.remove x).1.nodeId = s.nodeId := rfl

@[simp] theorem nodeId_merge (s other : ORSet T) : (s.merge other).nodeId = s.nodeId := rfl

@[simp] theorem tagCounter_remove (s : ORSet T) (x : T) :
    (s.remove x).1.tagCounter = s.tagCounter := rfl

@[simp] theorem tagCounter_merge (s other : ORSet T) :
    (s.merge other).tagCounter = s.tagCounter := rfl

/-- Before its end the counter counts. -/
theorem toNat_tagCounter_add {s : ORSet T} (h : s.tagCounter.toNat < u64Max) (x : T) :
    (s.add x).tagCounter.toNat = s.tagCounter.toNat + 1 := by
  rw [add, UInt64.toNat_saturatingAdd, UInt64.toNat_one]
  omega

omit [DecidableEq T] in
/-- **A tag names its node and its number**, whatever characters the node id has. -/
theorem tag_injective {nodeId nodeId' : String} {c c' : UInt64}
    (h : tag nodeId c = tag nodeId' c') : nodeId = nodeId' ∧ c = c' := by
  have hlist := congrArg String.toList h
  simp only [tag, String.toList_append, List.append_assoc] at hlist
  obtain ⟨hnode, hcount⟩ := split_right (colon_notMem_repr _) (colon_notMem_repr _) hlist
  exact ⟨String.toList_inj.mp hnode, UInt64.toNat_inj.mp (eq_of_toList_repr_eq hcount)⟩

end ORSet

end Arxia
