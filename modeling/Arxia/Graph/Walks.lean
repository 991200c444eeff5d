import Mathlib.Data.Set.Basic
import Mathlib.Tactic.Common

/-!
# Walks

A walk along a relation, with the number of its edges. An edge that does not close a cycle is used
at most once by a walk, so a walk in the larger graph is a walk in the old one or two of them with
the new edge in between. Acyclicity and bounds on the length of walks are read off from that.
-/

namespace Graph

variable {α : Type} {r r' : α → α → Prop} {a b c u v : α} {m n k : ℕ}

/-- There is a walk of `n` edges. -/
inductive Walk (r : α → α → Prop) : ℕ → α → α → Prop
  | nil (a : α) : Walk r 0 a a
  | cons {n : ℕ} {a b c : α} (h : r a b) (w : Walk r n b c) : Walk r (n + 1) a c

/-- There is a walk. -/
def Reaches (r : α → α → Prop) (a b : α) : Prop := ∃ n, Walk r n a b

/-- No walk leads back to where it starts. -/
def Acyclic (r : α → α → Prop) : Prop := ∀ n a, ¬ Walk r (n + 1) a a

/-- No walk is longer. -/
def Bounded (k : ℕ) (r : α → α → Prop) : Prop := ∀ n a b, Walk r n a b → n ≤ k

namespace Walk

theorem mono (h : Walk r n a b) (hsub : ∀ a b, r a b → r' a b) : Walk r' n a b := by
  induction h with
  | nil a => exact .nil a
  | cons hedge _ ih => exact .cons (hsub _ _ hedge) ih

theorem trans (h : Walk r m a b) (h' : Walk r n b c) : Walk r (m + n) a c := by
  induction h with
  | nil a =>
    rw [Nat.zero_add]
    exact h'
  | cons hedge _ ih =>
    rw [Nat.add_right_comm]
    exact .cons hedge (ih h')

theorem concat (h : Walk r n a b) (hedge : r b c) : Walk r (n + 1) a c :=
  h.trans (.cons hedge (.nil c))

/-- The first edges of a walk. -/
theorem take (h : Walk r n a b) (hle : m ≤ n) : ∃ c, Walk r m a c := by
  induction h generalizing m with
  | nil a =>
    obtain rfl := Nat.le_zero.mp hle
    exact ⟨a, .nil a⟩
  | cons hedge _ ih =>
    rcases m with _ | m
    · exact ⟨_, .nil _⟩
    · obtain ⟨c, hwalk⟩ := ih (Nat.le_of_succ_le_succ hle)
      exact ⟨c, .cons hedge hwalk⟩

/-- Every edge of a walk goes up in rank. -/
theorem add_le {ρ : α → ℕ} (hup : ∀ a b, r a b → ρ a < ρ b) (h : Walk r n a b) :
    ρ a + n ≤ ρ b := by
  induction h with
  | nil a => exact le_refl _
  | cons hedge _ ih =>
    have hlt := hup _ _ hedge
    omega

/-- A walk does not leave a closed set. -/
theorem mem_of_closed {V : Set α} (h : Walk r n a b) (hclosed : ∀ u ∈ V, ∀ v, r u v → v ∈ V)
    (ha : a ∈ V) : b ∈ V := by
  induction h with
  | nil a => exact ha
  | cons hedge _ ih => exact ih (hclosed _ ha _ hedge)

end Walk

/-! ## Node by node -/

variable {path : ℕ → α} {i j : ℕ}

/-- The nodes of a walk. -/
theorem Walk.exists_path (h : Walk r n a b) :
    ∃ path : ℕ → α, path 0 = a ∧ ∀ i < n, r (path i) (path (i + 1)) := by
  induction h with
  | nil a => exact ⟨fun _ ↦ a, rfl, fun i hi ↦ absurd hi (Nat.not_lt_zero i)⟩
  | @cons n a b c hedge _ ih =>
    obtain ⟨path, rfl, hpath⟩ := ih
    refine ⟨fun i ↦ i.casesOn a path, rfl, fun i hi ↦ ?_⟩
    rcases i with _ | i
    · exact hedge
    · exact hpath i (Nat.lt_of_succ_lt_succ hi)

theorem walk_of_path (path : ℕ → α) (h : ∀ i < n, r (path i) (path (i + 1))) (hle : i + k ≤ n) :
    Walk r k (path i) (path (i + k)) := by
  induction k with
  | zero => exact .nil (path i)
  | succ k ih => exact (ih (by omega)).concat (h (i + k) (by omega))

/-- No node comes twice. -/
theorem Acyclic.path_ne (h : Acyclic r) (hpath : ∀ i < n, r (path i) (path (i + 1))) (hlt : i < j)
    (hle : j ≤ n) : path i ≠ path j := by
  intro heq
  obtain ⟨k, rfl⟩ := Nat.exists_eq_add_of_lt hlt
  have hwalk := walk_of_path (k := k + 1) path hpath hle
  rw [← Nat.add_assoc, ← heq] at hwalk
  exact h k (path i) hwalk

/-- So the next node of a path is a function of the node. -/
theorem Acyclic.exists_next (h : Acyclic r) (hpath : ∀ i < n, r (path i) (path (i + 1))) :
    ∃ next : α → α, ∀ i < n, next (path i) = path (i + 1) := by
  have hinj : Function.Injective fun i : Fin n ↦ path i := by
    intro i j heq
    rcases Nat.lt_trichotomy i j with hlt | hsame | hgt
    · exact absurd heq (h.path_ne hpath hlt j.isLt.le)
    · exact Fin.ext hsame
    · exact absurd heq.symm (h.path_ne hpath hgt i.isLt.le)
  exact ⟨Function.extend (fun i : Fin n ↦ path i) (fun i ↦ path (i + 1)) id,
    fun i hi ↦ hinj.extend_apply _ _ ⟨i, hi⟩⟩

/-! ## One more edge -/

/-- The relation with one more edge. -/
def addEdge (r : α → α → Prop) (a b : α) : α → α → Prop := fun x y ↦ r x y ∨ x = a ∧ y = b

theorem Walk.addEdge (h : Walk r n u v) (a b : α) : Walk (addEdge r a b) n u v :=
  h.mono fun _ _ hedge ↦ Or.inl hedge

/-- **Through the new edge, once.** -/
theorem walk_addEdge_iff (hnot : ¬ Reaches r b a) : Walk (addEdge r a b) n u v ↔
    Walk r n u v ∨ ∃ m k, n = m + 1 + k ∧ Walk r m u a ∧ Walk r k b v := by
  constructor
  · intro h
    induction h with
    | nil u => exact Or.inl (.nil u)
    | cons hedge _ ih =>
      rcases hedge with hold | ⟨rfl, rfl⟩
      · rcases ih with h | ⟨m, k, rfl, hm, hk⟩
        · exact Or.inl (.cons hold h)
        · exact Or.inr ⟨m + 1, k, by omega, .cons hold hm, hk⟩
      · -- the new edge comes first; a second time it would need a way back
        rcases ih with h | ⟨m, k, -, hm, -⟩
        · exact Or.inr ⟨0, _, by omega, .nil _, h⟩
        · exact absurd ⟨m, hm⟩ hnot
  · rintro (h | ⟨m, k, rfl, hm, hk⟩)
    · exact h.addEdge a b
    · exact ((hm.addEdge a b).concat (Or.inr ⟨rfl, rfl⟩)).trans (hk.addEdge a b)

/-- **An edge closes a cycle** only where there is a way back. -/
theorem Acyclic.addEdge (h : Acyclic r) (hnot : ¬ Reaches r b a) :
    Acyclic (Graph.addEdge r a b) := by
  intro n u hcycle
  rcases (walk_addEdge_iff hnot).mp hcycle with hold | ⟨m, k, -, hm, hk⟩
  · exact h n u hold
  · exact hnot ⟨k + m, hk.trans hm⟩

theorem Acyclic.mono (h : Acyclic r) (hsub : ∀ a b, r' a b → r a b) : Acyclic r' :=
  fun n a hcycle ↦ h n a (hcycle.mono hsub)

theorem Bounded.mono (h : Bounded k r) (hsub : ∀ a b, r' a b → r a b) : Bounded k r' :=
  fun n a b hwalk ↦ h n a b (hwalk.mono hsub)

/-- **A new edge joins walks**, and the bound has to hold for those. -/
theorem bounded_addEdge_iff (h : Bounded k r) (hnot : ¬ Reaches r b a) :
    Bounded k (Graph.addEdge r a b) ↔
      ∀ m n u v, Walk r m u a → Walk r n b v → m + 1 + n ≤ k := by
  constructor
  · exact fun hbounded m n u v hm hn ↦
      hbounded _ u v ((walk_addEdge_iff hnot).mpr (Or.inr ⟨m, n, rfl, hm, hn⟩))
  · intro hjoin n u v hwalk
    rcases (walk_addEdge_iff hnot).mp hwalk with hold | ⟨m, l, rfl, hm, hl⟩
    · exact h n u v hold
    · exact hjoin m l u v hm hl

end Graph
