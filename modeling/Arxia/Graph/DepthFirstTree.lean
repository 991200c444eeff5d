import Arxia.Graph.Walks
import Mathlib.Data.List.Nodup

/-!
# Depth-first trees

A depth-first tree is grown node by node. The next node hangs on the latest node of the tree that
still leads out of it, one level deeper. Which of its neighbours comes next is free, so a graph has
many such trees, and the depth of a node is not the same in all of them.

A tree that no edge leads out of has everything that can be reached. `Cleared` asks for such a tree
without a target, in which whatever has an edge is well above a bound; whether there is one is a
question about the graph alone.
-/

namespace Graph

variable {α : Type} {r : α → α → Prop} {start target u v : α} {maxDepth : ℕ}

/-- The nodes of a list of nodes with depths. -/
def nodes (tree : List (α × ℕ)) : List α := tree.map Prod.fst

@[simp] theorem nodes_nil : nodes ([] : List (α × ℕ)) = [] := rfl

@[simp] theorem nodes_cons (e : α × ℕ) (tree : List (α × ℕ)) :
    nodes (e :: tree) = e.1 :: nodes tree := rfl

@[simp] theorem nodes_append (l l' : List (α × ℕ)) : nodes (l ++ l') = nodes l ++ nodes l' :=
  List.map_append

theorem mem_nodes {tree : List (α × ℕ)} {e : α × ℕ} (he : e ∈ tree) : e.1 ∈ nodes tree :=
  List.mem_map_of_mem he

theorem exists_of_mem_nodes {tree : List (α × ℕ)} (hv : v ∈ nodes tree) : ∃ e ∈ tree, e.1 = v :=
  List.mem_map.mp hv

/-- The node of `e` hangs on a node of the tree, one level deeper, and the nodes after that one lead
to nodes that have been met. -/
def Hangs (r : α → α → Prop) (tree : List (α × ℕ)) (met : α → Prop) (e : α × ℕ) : Prop :=
  ∃ newer u older, tree = newer ++ u :: older ∧ r u.1 e.1 ∧ e.2 = u.2 + 1 ∧
    ∀ w ∈ newer, ∀ x, r w.1 x → met x

/-- A depth-first tree, the latest node first, each with its depth. -/
inductive DepthFirst (r : α → α → Prop) (start : α) : List (α × ℕ) → Prop
  | root : DepthFirst r start [(start, 0)]
  | grow {tree : List (α × ℕ)} {e : α × ℕ} (h : DepthFirst r start tree)
      (hhangs : Hangs r tree (· ∈ nodes tree) e) (hnew : e.1 ∉ nodes tree) :
      DepthFirst r start (e :: tree)

namespace DepthFirst

variable {tree later : List (α × ℕ)} {e : α × ℕ}

theorem walk (h : DepthFirst r start tree) : ∀ e ∈ tree, Walk r e.2 start e.1 := by
  induction h with
  | root =>
    intro e he
    rw [List.mem_singleton.mp he]
    exact .nil start
  | grow h hhangs hnew ih =>
    obtain ⟨newer, u, older, rfl, hedge, hdepth, -⟩ := hhangs
    refine List.forall_mem_cons.mpr ⟨?_, ih⟩
    rw [hdepth]
    exact (ih u (List.mem_append_right _ List.mem_cons_self)).concat hedge

theorem nodup (h : DepthFirst r start tree) : (nodes tree).Nodup := by
  induction h with
  | root => exact List.nodup_singleton start
  | grow h hhangs hnew ih => exact List.nodup_cons.mpr ⟨hnew, ih⟩

/-- The start was there first. -/
theorem exists_eq_concat (h : DepthFirst r start tree) :
    ∃ later, tree = later ++ [(start, 0)] := by
  induction h with
  | root => exact ⟨[], rfl⟩
  | @grow tree e h hhangs hnew ih =>
    obtain ⟨later, rfl⟩ := ih
    exact ⟨e :: later, rfl⟩

theorem start_mem (h : DepthFirst r start tree) : start ∈ nodes tree := by
  obtain ⟨later, rfl⟩ := h.exists_eq_concat
  exact mem_nodes (List.mem_append_right later (List.mem_singleton_self _))

/-- What a tree has been. -/
theorem of_append (h : DepthFirst r start (later ++ e :: tree)) :
    DepthFirst r start (e :: tree) := by
  induction later with
  | nil => exact h
  | cons a later ih =>
    rw [List.cons_append] at h
    generalize hrest : later ++ e :: tree = rest at h
    cases h with
    | root => exact absurd hrest (by simp)
    | grow h _ _ => exact ih (hrest ▸ h)

/-- A node after the start hangs on what was there before. -/
theorem hangs (h : DepthFirst r start (later ++ e :: tree)) (hne : tree ≠ []) :
    Hangs r tree (· ∈ nodes tree) e ∧ e.1 ∉ nodes tree := by
  cases h.of_append with
  | root => exact absurd rfl hne
  | grow _ hhangs hnew => exact ⟨hhangs, hnew⟩

end DepthFirst

/-! ## Trees within a bound -/

/-- Some depth-first tree has everything that can be reached, without the target, and where an edge
starts the depth is well below the bound. -/
def Cleared (r : α → α → Prop) (start target : α) (maxDepth : ℕ) : Prop :=
  ∃ tree, DepthFirst r start tree ∧ target ∉ nodes tree ∧
    ∀ e ∈ tree, ∀ v, r e.1 v → v ∈ nodes tree ∧ e.2 + 1 < maxDepth

/-- A tree that nothing leads out of has everything that can be reached. -/
theorem DepthFirst.mem_of_reaches {tree : List (α × ℕ)} (h : DepthFirst r start tree)
    (hclosed : ∀ e ∈ tree, ∀ v, r e.1 v → v ∈ nodes tree) (hreaches : Reaches r start u) :
    u ∈ nodes tree := by
  obtain ⟨n, hwalk⟩ := hreaches
  refine hwalk.mem_of_closed (V := {x | x ∈ nodes tree}) (fun x hx y hxy ↦ ?_) h.start_mem
  obtain ⟨e, he, rfl⟩ := exists_of_mem_nodes hx
  exact hclosed e he y hxy

theorem Cleared.not_reaches (h : Cleared r start target maxDepth) : ¬ Reaches r start target := by
  obtain ⟨tree, htree, htarget, hclosed⟩ := h
  exact fun hreaches ↦
    htarget (htree.mem_of_reaches (fun e he v hv ↦ (hclosed e he v hv).1) hreaches)

/-- Every reachable edge starts within the bound. -/
theorem Cleared.exists_walk (h : Cleared r start target maxDepth) (hreaches : Reaches r start u)
    (hedge : r u v) : ∃ depth, Walk r depth start u ∧ depth + 1 < maxDepth := by
  obtain ⟨tree, htree, -, hclosed⟩ := h
  have hmem := htree.mem_of_reaches (fun e he v hv ↦ (hclosed e he v hv).1) hreaches
  obtain ⟨e, he, rfl⟩ := exists_of_mem_nodes hmem
  exact ⟨e.2, htree.walk e he, (hclosed e he v hedge).2⟩

end Graph
