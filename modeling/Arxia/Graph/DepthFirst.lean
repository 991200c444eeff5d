import Arxia.Graph.DepthFirstTree
import Mathlib.Algebra.BigOperators.Group.Finset.Basic

/-!
# Depth-first search with a bound on the depth

The search keeps a stack of nodes with the depth each was met at, and the set of nodes it has
expanded. It ends when the target is on top, when a node is met at the bound, or when the stack is
empty. Which neighbour is explored first is up to the lists it is given.

The expanded nodes are a depth-first tree at every point of the search, and a pending node on top
that is new is the next node of the tree. So an empty stack shows a tree with everything that can
be reached, and conversely the search grows a given tree when its lists name the neighbours in the
order of that tree. Some lists therefore lead it past the target and the bound exactly where
`Cleared` holds.
-/

namespace Graph

variable {α : Type} {r : α → α → Prop} {start target u v : α} {maxDepth : ℕ}

/-! ## What a search can say -/

/-- How a search ends. -/
inductive Outcome
  | clear
  | found
  | tooDeep (depth : ℕ)
  deriving DecidableEq

/-- What an outcome says about the graph. -/
def Outcome.Means (r : α → α → Prop) (start target : α) (maxDepth : ℕ) : Outcome → Prop
  | clear => Cleared r start target maxDepth
  | found => Reaches r start target
  | tooDeep depth => maxDepth ≤ depth ∧ ∃ u, Walk r depth start u

/-- The target is reachable, or some reachable edge is out of bounds however it is reached. -/
def Barred (r : α → α → Prop) (start target : α) (maxDepth : ℕ) : Prop :=
  Reaches r start target ∨
    ∃ u v, Reaches r start u ∧ r u v ∧ ∀ depth, Walk r depth start u → maxDepth ≤ depth + 1

/-- The target is not reachable, and no walk from the start reaches the bound. -/
def Free (r : α → α → Prop) (start target : α) (maxDepth : ℕ) : Prop :=
  ¬ Reaches r start target ∧ ∀ u, ¬ Walk r maxDepth start u

theorem Barred.not_cleared (h : Barred r start target maxDepth) :
    ¬ Cleared r start target maxDepth := by
  intro hcleared
  rcases h with hreaches | ⟨u, v, hreaches, hedge, hfar⟩
  · exact hcleared.not_reaches hreaches
  · obtain ⟨depth, hwalk, hlt⟩ := hcleared.exists_walk hreaches hedge
    exact absurd hlt (not_lt.mpr (hfar depth hwalk))

theorem Outcome.Means.eq_clear {outcome : Outcome} (h : outcome.Means r start target maxDepth)
    (hfree : Free r start target maxDepth) : outcome = clear := by
  rcases outcome with _ | _ | depth
  · rfl
  · exact absurd h hfree.1
  · obtain ⟨hle, u, hwalk⟩ := h
    obtain ⟨c, hwalk⟩ := hwalk.take hle
    exact absurd hwalk (hfree.2 c)

/-! ## The search -/

section Search

variable [DecidableEq α]

/-- The loop: the top of the stack is its head. `none` is a lack of fuel. -/
def search (neighbors : α → List α) (target : α) (maxDepth : ℕ) :
    ℕ → List (α × ℕ) → Finset α → Option Outcome
  | 0, _, _ => none
  | _ + 1, [], _ => some .clear
  | fuel + 1, (node, depth) :: stack, visited =>
    if node = target then some .found
    else if maxDepth ≤ depth then some (.tooDeep depth)
    else if node ∈ visited then search neighbors target maxDepth fuel stack visited
    -- they are pushed one after the other, so the last of them is on top
    else search neighbors target maxDepth fuel
      ((neighbors node).reverse.map (fun n ↦ (n, depth + 1)) ++ stack) (insert node visited)

variable {neighbors : α → List α} {fuel : ℕ} {stack : List (α × ℕ)} {visited : Finset α}

/-- **Enough fuel.** Every node is expanded once at most, so no more is pushed than the lists of all
nodes have. -/
theorem exists_search {S : Finset α} (hS : ∀ u, u ∉ S → neighbors u = [])
    (hfuel : stack.length + ∑ u ∈ S \ visited, (neighbors u).length < fuel) :
    ∃ outcome, search neighbors target maxDepth fuel stack visited = some outcome := by
  induction fuel generalizing stack visited with
  | zero => exact absurd hfuel (Nat.not_lt_zero _)
  | succ fuel ih =>
    rcases stack with _ | ⟨⟨node, depth⟩, stack⟩
    · exact ⟨_, rfl⟩
    rw [List.length_cons] at hfuel
    rw [search]
    split
    · exact ⟨_, rfl⟩
    split
    · exact ⟨_, rfl⟩
    split
    · exact ih (by omega)
    · rename_i hnode
      apply ih
      rw [List.length_append, List.length_map, List.length_reverse]
      by_cases hmem : node ∈ S
      · -- its list is on the stack now, and no longer in the sum
        have hsplit := Finset.add_sum_erase (S \ visited) (fun u ↦ (neighbors u).length)
          (Finset.mem_sdiff.mpr ⟨hmem, hnode⟩)
        rw [Finset.sdiff_insert]
        omega
      · have hsame : S \ insert node visited = S \ visited := by
          rw [Finset.sdiff_insert, Finset.erase_eq_of_notMem]
          exact fun h ↦ hmem (Finset.mem_sdiff.mp h).1
        rw [hsame, hS node hmem, List.length_nil]
        omega

end Search

/-! ## In the course of a search -/

/-- The edges the lists have. -/
def Adjacent (neighbors : α → List α) (u v : α) : Prop := v ∈ neighbors u

/-- The node of `e` was pushed when a node of the tree was expanded; what the nodes after that one
lead to has been met, and so has what was pushed above `e`. -/
def Pending (neighbors : α → List α) (tree : List (α × ℕ)) (met : α → Prop) (e : α × ℕ) : Prop :=
  ∃ newer u older above below, tree = newer ++ u :: older ∧ e.2 = u.2 + 1 ∧
    (neighbors u.1).reverse = above ++ e.1 :: below ∧ (∀ x ∈ above, met x) ∧
    ∀ w ∈ newer, ∀ x ∈ neighbors w.1, met x

/-- In the course of a search: the expanded nodes are a tree, and what they lead to is pending on
the stack, or expanded as well. -/
structure Explores (neighbors : α → List α) (start target : α) (maxDepth : ℕ)
    (tree stack : List (α × ℕ)) (visited : Finset α) : Prop where
  grown : DepthFirst (Adjacent neighbors) start tree
  mem_visited : ∀ u, u ∈ visited ↔ u ∈ nodes tree
  target_notMem : target ∉ nodes tree
  /-- By the time an entry is on top, what is above it has been met. -/
  pending : ∀ above e below, stack = above ++ e :: below →
    Pending neighbors tree (fun x ↦ x ∈ nodes tree ∨ x ∈ nodes above) e
  expanded : ∀ u ∈ tree, ∀ v ∈ neighbors u.1,
    (v, u.2 + 1) ∈ stack ∨ v ∈ nodes tree ∧ u.2 + 1 < maxDepth

variable {neighbors : α → List α} {tree stack : List (α × ℕ)} {visited : Finset α} {e : α × ℕ}

/-- What was pushed is above what was there. -/
theorem split_append {β : Type} {xs ys above below : List β} {x : β}
    (h : xs ++ ys = above ++ x :: below) :
    (∃ above', above = xs ++ above' ∧ ys = above' ++ x :: below) ∨
      ∃ below', xs = above ++ x :: below' := by
  rcases List.append_eq_append_iff.mp h with ⟨above', habove, hys⟩ | ⟨pushed, rfl, hrest⟩
  · exact Or.inl ⟨above', habove, hys⟩
  · rcases pushed with _ | ⟨y, pushed⟩
    · exact Or.inl ⟨[], by simp, hrest.symm⟩
    · obtain ⟨rfl, -⟩ := List.cons.inj hrest
      exact Or.inr ⟨pushed, rfl⟩

/-- The first element of a kind is at one place only. -/
theorem first_unique {β : Type} {p : β → Prop} {xs xs' ys ys' : List β} {x x' : β}
    (h : xs ++ x :: ys = xs' ++ x' :: ys') (hxs : ∀ y ∈ xs, ¬ p y) (hxs' : ∀ y ∈ xs', ¬ p y)
    (hx : p x) (hx' : p x') : x = x' := by
  rcases split_append h with ⟨mid, rfl, hmid⟩ | ⟨mid, rfl⟩
  · rcases mid with _ | ⟨y, mid⟩
    · exact (List.cons.inj hmid).1
    · obtain ⟨rfl, -⟩ := List.cons.inj hmid
      exact absurd hx (hxs' x (List.mem_append_right _ List.mem_cons_self))
  · exact absurd hx' (hxs x' (List.mem_append_right _ List.mem_cons_self))

theorem Pending.mono {met met' : α → Prop} (h : Pending neighbors tree met e)
    (hmet : ∀ x, met x → met' x) : Pending neighbors tree met' e := by
  obtain ⟨newer, u, older, above, below, hsplit, hdepth, hlist, habove, hnewer⟩ := h
  exact ⟨newer, u, older, above, below, hsplit, hdepth, hlist, fun x hx ↦ hmet x (habove x hx),
    fun w hw x hx ↦ hmet x (hnewer w hw x hx)⟩

theorem Pending.hangs {met : α → Prop} (h : Pending neighbors tree met e) :
    Hangs (Adjacent neighbors) tree met e := by
  obtain ⟨newer, u, older, above, below, hsplit, hdepth, hlist, -, hnewer⟩ := h
  refine ⟨newer, u, older, hsplit, List.mem_reverse.mp ?_, hdepth, hnewer⟩
  rw [hlist]
  exact List.mem_append_right above List.mem_cons_self

/-- A neighbour of a node that has just been expanded. -/
theorem pending_push {above below : List (α × ℕ)} {e' : α × ℕ}
    (h : (neighbors e.1).reverse.map (fun n ↦ (n, e.2 + 1)) = above ++ e' :: below) :
    Pending neighbors (e :: tree) (· ∈ nodes above) e' := by
  obtain ⟨done, rest, hlist, rfl, hrest⟩ := List.map_eq_append_iff.mp h
  obtain ⟨v, rest', rfl, rfl, -⟩ := List.map_eq_cons_iff.mp hrest
  refine ⟨[], e, tree, done, rest', rfl, rfl, hlist, fun x hx ↦ ?_, fun w hw ↦ ?_⟩
  · exact mem_nodes (e := (x, e.2 + 1)) (List.mem_map_of_mem hx)
  · exact absurd hw List.not_mem_nil

namespace Explores

/-- The first node has been expanded. -/
theorem root (hne : start ≠ target) : Explores neighbors start target maxDepth [(start, 0)]
    ((neighbors start).reverse.map (fun n ↦ (n, 1)) ++ []) {start} where
  grown := .root
  mem_visited := by simp
  target_notMem := by simpa using hne.symm
  pending := fun above e below h ↦ by
    rw [List.append_nil] at h
    exact (pending_push (e := (start, 0)) h).mono fun x ↦ Or.inr
  expanded := fun u hu v hv ↦ by
    rw [List.mem_singleton.mp hu] at hv ⊢
    exact Or.inl (by simpa using hv)

/-- Nothing is above the top of the stack. -/
theorem top_pending (h : Explores neighbors start target maxDepth tree (e :: stack) visited) :
    Pending neighbors tree (· ∈ nodes tree) e :=
  (h.pending [] e stack rfl).mono fun x hx ↦ by simpa using hx

theorem top_walk (h : Explores neighbors start target maxDepth tree (e :: stack) visited) :
    Walk (Adjacent neighbors) e.2 start e.1 := by
  obtain ⟨newer, u, older, rfl, hedge, hdepth, -⟩ := h.top_pending.hangs
  rw [hdepth]
  exact (h.grown.walk u (List.mem_append_right _ List.mem_cons_self)).concat hedge

/-- A node on top that has been expanded already. -/
theorem skip (h : Explores neighbors start target maxDepth tree (e :: stack) visited)
    (hdepth : e.2 < maxDepth) (hmem : e.1 ∈ visited) :
    Explores neighbors start target maxDepth tree stack visited := by
  have hnode : e.1 ∈ nodes tree := (h.mem_visited e.1).mp hmem
  refine ⟨h.grown, h.mem_visited, h.target_notMem, fun above e' below hstack ↦ ?_,
    fun u hu v hv ↦ ?_⟩
  · refine (h.pending (e :: above) e' below (by rw [hstack]; rfl)).mono fun x hx ↦ ?_
    rcases hx with hx | hx
    · exact Or.inl hx
    rcases List.mem_cons.mp hx with rfl | hx
    · exact Or.inl hnode
    · exact Or.inr hx
  · rcases h.expanded u hu v hv with hstack | hvisited
    · rcases List.mem_cons.mp hstack with rfl | hstack
      · exact Or.inr ⟨hnode, hdepth⟩
      · exact Or.inl hstack
    · exact Or.inr hvisited

/-- **A new node on top** is the next node of the tree. -/
theorem expand [DecidableEq α]
    (h : Explores neighbors start target maxDepth tree (e :: stack) visited)
    (hdepth : e.2 < maxDepth) (hnew : e.1 ∉ visited) (hne : e.1 ≠ target) :
    Explores neighbors start target maxDepth (e :: tree)
      ((neighbors e.1).reverse.map (fun n ↦ (n, e.2 + 1)) ++ stack) (insert e.1 visited) := by
  have hpush : ∀ v ∈ neighbors e.1,
      (v, e.2 + 1) ∈ (neighbors e.1).reverse.map fun n ↦ (n, e.2 + 1) := fun v hv ↦
    List.mem_map.mpr ⟨v, List.mem_reverse.mpr hv, rfl⟩
  refine ⟨h.grown.grow h.top_pending.hangs fun hmem ↦ hnew ((h.mem_visited e.1).mpr hmem),
    fun u ↦ ?_, ?_, fun above e' below hstack ↦ ?_, List.forall_mem_cons.mpr ⟨fun v hv ↦ ?_, ?_⟩⟩
  · rw [Finset.mem_insert, h.mem_visited, nodes_cons, List.mem_cons]
  · rw [nodes_cons, List.mem_cons, not_or]
    exact ⟨hne.symm, h.target_notMem⟩
  · rcases split_append hstack with ⟨above', rfl, hold⟩ | ⟨below', hpushed⟩
    · -- an older entry, below everything that has just been pushed
      have hmet : ∀ x, x ∈ nodes tree ∨ x ∈ nodes (e :: above') → x ∈ nodes (e :: tree) ∨
          x ∈ nodes (((neighbors e.1).reverse.map fun n ↦ (n, e.2 + 1)) ++ above') := by
        intro x hx
        simp only [nodes_cons, nodes_append, List.mem_cons, List.mem_append] at hx ⊢
        tauto
      obtain ⟨newer, u, older, done, rest, rfl, hdepth', hlist, hdone, hnewer⟩ :=
        (h.pending (e :: above') e' below (by rw [hold]; rfl)).mono hmet
      refine ⟨e :: newer, u, older, done, rest, rfl, hdepth', hlist, hdone,
        List.forall_mem_cons.mpr ⟨fun x hx ↦ Or.inr ?_, hnewer⟩⟩
      rw [nodes_append, List.mem_append]
      exact Or.inl (mem_nodes (hpush x hx))
    · exact (pending_push hpushed).mono fun x ↦ Or.inr
  · exact Or.inl (List.mem_append_left _ (hpush v hv))
  · intro u hu v hv
    rcases h.expanded u hu v hv with hstack | ⟨hmem, hlt⟩
    · rcases List.mem_cons.mp hstack with rfl | hstack
      · exact Or.inr ⟨List.mem_cons_self, hdepth⟩
      · exact Or.inl (List.mem_append_right _ hstack)
    · exact Or.inr ⟨List.mem_cons_of_mem _ hmem, hlt⟩

end Explores

/-! ## It is right -/

section Search

variable [DecidableEq α] {fuel : ℕ} {outcome : Outcome}

theorem Explores.means (h : Explores neighbors start target maxDepth tree stack visited)
    (hsearch : search neighbors target maxDepth fuel stack visited = some outcome) :
    outcome.Means (Adjacent neighbors) start target maxDepth := by
  induction fuel generalizing tree stack visited with
  | zero => cases hsearch
  | succ fuel ih =>
    rcases stack with _ | ⟨e, stack⟩
    · -- nothing is pending, so no edge leads out of the tree
      obtain rfl := Option.some_inj.mp hsearch
      exact ⟨tree, h.grown, h.target_notMem, fun u hu v hv ↦
        (h.expanded u hu v hv).resolve_left List.not_mem_nil⟩
    have hwalk := h.top_walk
    rw [search] at hsearch
    split at hsearch
    · rename_i hnode
      obtain rfl := Option.some_inj.mp hsearch
      exact ⟨e.2, hnode ▸ hwalk⟩
    rename_i hne
    split at hsearch
    · rename_i hdepth
      obtain rfl := Option.some_inj.mp hsearch
      exact ⟨hdepth, e.1, hwalk⟩
    rename_i hdepth
    split at hsearch
    · rename_i hmem
      exact ih (h.skip (not_le.mp hdepth) hmem) hsearch
    · rename_i hnew
      exact ih (h.expand (not_le.mp hdepth) hnew hne) hsearch

/-- The first step of a search. -/
theorem search_start (hne : start ≠ target) (hpos : 0 < maxDepth) :
    search neighbors target maxDepth (fuel + 1) [(start, 0)] ∅ = search neighbors target maxDepth
      fuel ((neighbors start).reverse.map (fun n ↦ (n, 1)) ++ []) {start} := by
  rw [search, if_neg hne, if_neg (not_le.mpr hpos), if_neg (Finset.notMem_empty start),
    insert_empty_eq]

/-- **What a search says** is right. -/
theorem means_of_search
    (hsearch : search neighbors target maxDepth fuel [(start, 0)] ∅ = some outcome) :
    outcome.Means (Adjacent neighbors) start target maxDepth := by
  rcases fuel with _ | fuel
  · cases hsearch
  by_cases hne : start = target
  · rw [search, if_pos hne] at hsearch
    obtain rfl := Option.some_inj.mp hsearch
    exact ⟨0, hne ▸ .nil start⟩
  rcases Nat.eq_zero_or_pos maxDepth with hzero | hpos
  · rw [search, if_neg hne, if_pos hzero.le] at hsearch
    obtain rfl := Option.some_inj.mp hsearch
    exact ⟨hzero.le, start, .nil start⟩
  · rw [search_start hne hpos] at hsearch
    exact (Explores.root hne).means hsearch

/-! ## Led along a tree -/

section Follow

variable {full : List (α × ℕ)} (hfull : DepthFirst (Adjacent neighbors) start full)
  (hlist : ∀ e ∈ full, (nodes full).filter (fun v ↦ v ∈ neighbors e.1) = neighbors e.1)

include hfull hlist

/-- A new entry on top is the next node of the tree: the two hang on the same node, and of its
neighbours the list names that one last which the tree has first. -/
theorem eq_next {later : List (α × ℕ)} {next : α × ℕ} (hsplit : full = later ++ next :: tree)
    (hpending : Pending neighbors tree (· ∈ nodes tree) e) (hnew : e.1 ∉ nodes tree) :
    e = next := by
  obtain ⟨newer, u, older, above, below, htree, hdepth, hneighbors, habove, hnewer⟩ := hpending
  obtain ⟨⟨newer', u', older', htree', hedge', hdepth', hnewer'⟩, hnew'⟩ :=
    (hsplit ▸ hfull).hangs (by simp [htree])
  have hnext : next.1 ∈ neighbors u'.1 := hedge'
  have hedge : e.1 ∈ neighbors u.1 := by
    rw [← List.mem_reverse, hneighbors]
    exact List.mem_append_right above List.mem_cons_self
  -- the latest node that still leads out of the tree
  have hu : u = u' := by
    refine first_unique (p := fun w ↦ ∃ x ∈ neighbors w.1, x ∉ nodes tree)
      (htree.symm.trans htree') ?_ ?_ ⟨e.1, hedge, hnew⟩ ⟨next.1, hnext, hnew'⟩
    · exact fun w hw ⟨x, hx, hout⟩ ↦ hout (hnewer w hw x hx)
    · exact fun w hw ⟨x, hx, hout⟩ ↦ hout (hnewer' w hw x hx)
  subst hu
  have hmem : u ∈ full := by
    rw [hsplit, htree]
    simp
  have hreverse : (neighbors u.1).reverse = ((nodes tree).reverse.filter
      fun v ↦ v ∈ neighbors u.1) ++ next.1 :: ((nodes later).reverse.filter
        fun v ↦ v ∈ neighbors u.1) := by
    conv_lhs => rw [← hlist u hmem]
    rw [hsplit, nodes_append, nodes_cons, ← List.filter_reverse, List.reverse_append,
      List.reverse_cons, List.append_assoc, List.filter_append, List.singleton_append,
      List.filter_cons, if_pos (decide_eq_true hnext)]
  refine Prod.ext ?_ (hdepth.trans hdepth'.symm)
  refine first_unique (p := fun x ↦ x ∉ nodes tree) (hneighbors.symm.trans hreverse) ?_ ?_ hnew
    hnew'
  · exact fun x hx hout ↦ hout (habove x hx)
  · exact fun x hx hout ↦ hout (List.mem_reverse.mp (List.mem_of_mem_filter hx))

/-- The search goes along the tree, and stays within its bounds. -/
theorem Explores.eq_clear {later : List (α × ℕ)} (hsplit : full = later ++ tree)
    (h : Explores neighbors start target maxDepth tree stack visited)
    (htarget : target ∉ nodes full)
    (hclosed : ∀ e ∈ full, ∀ v ∈ neighbors e.1, v ∈ nodes full ∧ e.2 + 1 < maxDepth)
    (hsearch : search neighbors target maxDepth fuel stack visited = some outcome) :
    outcome = .clear := by
  induction fuel generalizing later tree stack visited with
  | zero => cases hsearch
  | succ fuel ih =>
    rcases stack with _ | ⟨e, stack⟩
    · exact (Option.some_inj.mp hsearch).symm
    obtain ⟨hmem, hdepth⟩ : e.1 ∈ nodes full ∧ e.2 < maxDepth := by
      obtain ⟨newer, u, older, htree, hedge, hdepth, -⟩ := h.top_pending.hangs
      rw [hdepth]
      refine hclosed u ?_ e.1 hedge
      rw [hsplit, htree]
      simp
    have hne : e.1 ≠ target := fun heq ↦ htarget (heq ▸ hmem)
    rw [search, if_neg hne, if_neg (not_le.mpr hdepth)] at hsearch
    split at hsearch
    · rename_i hvisited
      exact ih hsplit (h.skip hdepth hvisited) hsearch
    · rename_i hvisited
      -- what is left of the tree starts with this node
      have hnew : e.1 ∉ nodes tree := fun hold ↦ hvisited ((h.mem_visited e.1).mpr hold)
      rcases List.eq_nil_or_concat' later with rfl | ⟨later, next, rfl⟩
      · rw [hsplit] at hmem
        exact absurd hmem hnew
      rw [List.append_assoc, List.singleton_append] at hsplit
      obtain rfl := eq_next hfull hlist hsplit h.top_pending hnew
      exact ih hsplit (h.expand hdepth hvisited hne) hsearch

/-- **A search that is led along a tree** within the bounds is clear. -/
theorem eq_clear_of_search (htarget : target ∉ nodes full)
    (hclosed : ∀ e ∈ full, ∀ v ∈ neighbors e.1, v ∈ nodes full ∧ e.2 + 1 < maxDepth)
    (hpos : 0 < maxDepth)
    (hsearch : search neighbors target maxDepth fuel [(start, 0)] ∅ = some outcome) :
    outcome = .clear := by
  rcases fuel with _ | fuel
  · cases hsearch
  have hne : start ≠ target := fun heq ↦ htarget (heq ▸ hfull.start_mem)
  obtain ⟨later, hsplit⟩ := hfull.exists_eq_concat
  rw [search_start hne hpos] at hsearch
  exact (Explores.root hne).eq_clear hfull hlist hsplit htarget hclosed hsearch

end Follow

/-! ## Led to the bound -/

/-- **A search goes too deep** where some list always ends in the next node of a long path: that
node is the next on top. -/
theorem search_ne_clear {path : ℕ → α} {i : ℕ}
    (hlast : ∀ i < maxDepth, (neighbors (path i)).getLast? = some (path (i + 1)))
    (hne : ∀ i j, i < j → j ≤ maxDepth → path i ≠ path j) (hle : i ≤ maxDepth)
    (hvisited : ∀ j, i ≤ j → j ≤ maxDepth → path j ∉ visited) :
    search neighbors target maxDepth fuel ((path i, i) :: stack) visited ≠ some .clear := by
  induction fuel generalizing i stack visited with
  | zero => exact fun h ↦ by cases h
  | succ fuel ih =>
    rw [search, if_neg (hvisited i (le_refl i) hle)]
    split
    · simp
    split
    · simp
    rename_i hdepth
    rw [not_le] at hdepth
    -- the last neighbor is pushed last, so it is popped first
    obtain ⟨rest, hrest⟩ : ∃ rest, (neighbors (path i)).reverse = path (i + 1) :: rest := by
      rw [← List.head?_eq_some_iff, List.head?_reverse]
      exact hlast i hdepth
    rw [hrest, List.map_cons, List.cons_append]
    refine ih hdepth fun j hj hjle hmem ↦ ?_
    rcases Finset.mem_insert.mp hmem with heq | hmem
    · exact hne i j hj hjle heq.symm
    · exact hvisited j (by omega) hjle hmem

end Search

end Graph
