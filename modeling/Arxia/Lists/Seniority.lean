import Mathlib.Data.List.Basic

/-!
# Queues in order of arrival

The age of an element is the number of events since it last came. A queue is in order of arrival
when its elements have all come, and the ages go down from the front to the back. An event makes
everything older by one, but for what comes with it: so a queue stays in order when elements leave
it anywhere, and when one that comes is put at the back.
-/

namespace Lists

variable {ε α : Type} {comes : ε → α → Bool} {history : List ε} {queue queue' : List α} {e : ε}
  {x : α}

/-- The number of events since the last one that the element came with. -/
def age (comes : ε → α → Bool) (history : List ε) (x : α) : ℕ :=
  history.reverse.findIdx fun e ↦ comes e x

theorem age_concat (history : List ε) (e : ε) (x : α) :
    age comes (history ++ [e]) x = if comes e x then 0 else age comes history x + 1 := by
  rw [age, List.reverse_append, List.reverse_singleton, List.singleton_append, List.findIdx_cons]
  cases comes e x <;> rfl

/-- All elements of the queue have come, the first of them earliest. -/
structure ByArrival (comes : ε → α → Bool) (history : List ε) (queue : List α) : Prop where
  came : ∀ x ∈ queue, ∃ e ∈ history, comes e x
  ordered : queue.Pairwise fun x y ↦ age comes history y < age comes history x

namespace ByArrival

theorem nil : ByArrival comes history [] where
  came := fun _ hx ↦ absurd hx List.not_mem_nil
  ordered := List.Pairwise.nil

theorem sublist (h : ByArrival comes history queue) (hsub : queue'.Sublist queue) :
    ByArrival comes history queue' where
  came := fun x hx ↦ h.came x (hsub.subset hx)
  ordered := h.ordered.sublist hsub

/-- No element comes twice. -/
theorem nodup (h : ByArrival comes history queue) : queue.Nodup :=
  h.ordered.imp fun {x y} hlt heq ↦ by
    rw [heq] at hlt
    exact Nat.lt_irrefl _ hlt

/-- An event that none of the elements comes with. -/
theorem later (h : ByArrival comes history queue) (hnone : ∀ x ∈ queue, comes e x = false) :
    ByArrival comes (history ++ [e]) queue where
  came := fun x hx ↦ by
    obtain ⟨e', he', hcomes⟩ := h.came x hx
    exact ⟨e', List.mem_append_left _ he', hcomes⟩
  ordered := by
    refine h.ordered.imp_of_mem fun {x y} hx hy hlt ↦ ?_
    rw [age_concat, age_concat, hnone x hx, hnone y hy]
    exact Nat.succ_lt_succ hlt

/-- An event that brings one more. -/
theorem arrive (h : ByArrival comes history queue) (hnone : ∀ x ∈ queue, comes e x = false)
    (hnew : comes e x = true) : ByArrival comes (history ++ [e]) (queue ++ [x]) where
  came := by
    intro y hy
    rcases List.mem_append.mp hy with hy | hy
    · exact (h.later hnone).came y hy
    · exact ⟨e, List.mem_concat_self, List.mem_singleton.mp hy ▸ hnew⟩
  ordered := by
    refine List.pairwise_append.mpr ⟨(h.later hnone).ordered, List.pairwise_singleton _ _, ?_⟩
    intro y hy z hz
    rw [List.mem_singleton.mp hz, age_concat, age_concat, hnew, hnone y hy]
    exact Nat.succ_pos _

end ByArrival

end Lists
