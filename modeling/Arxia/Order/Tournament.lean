import Mathlib.Data.List.Perm.Basic
import Mathlib.Data.List.Nodup

/-!
# Knockout tournaments

A pairwise decision extended to a list by keeping the winner and playing it against the next
entrant. When the decision is transitive the order of play cannot matter; when it is not, it can,
and the question is exactly when.

The answer needs no transitivity: the outcome is the same for every order of play if and only if
one entrant beats every other one directly. Such a champion wins from any position. Conversely an
entrant that wins in every order must beat each other one, because opening with the pair in which
it loses would eliminate it at once.
-/

namespace Tournament

variable {α : Type} (beats : α → α → Prop) [DecidableRel beats]

/-- One match: the first entrant stays unless the second one wins. -/
def play (a b : α) : α := if beats a b then a else b

/-- The winner when `a` meets the entrants of a list in turn. -/
def knockout (a : α) (l : List α) : α := l.foldl (play beats) a

theorem play_eq_or (a b : α) : play beats a b = a ∨ play beats a b = b := by
  rw [play]
  split
  · exact Or.inl rfl
  · exact Or.inr rfl

variable {beats}

theorem knockout_mem (a : α) (l : List α) : knockout beats a l ∈ a :: l := by
  induction l generalizing a with
  | nil => exact List.mem_singleton_self a
  | cons b l ih =>
    have h := ih (play beats a b)
    rcases List.mem_cons.mp h with h | h
    · rw [knockout, List.foldl_cons, ← knockout, h]
      rcases play_eq_or beats a b with hp | hp <;> rw [hp] <;> simp
    · exact List.mem_cons_of_mem a (List.mem_cons_of_mem b h)

omit [DecidableRel beats] in
/-- `c` beats every other entrant directly. -/
def Champion (beats : α → α → Prop) (l : List α) (c : α) : Prop :=
  c ∈ l ∧ ∀ x ∈ l, x ≠ c → beats c x

/-- A champion wins from whatever place it enters. -/
theorem knockout_eq_champion {c : α} {l : List α}
    (hwin : ∀ x ∈ l, x ≠ c → beats c x) (hlose : ∀ x ∈ l, x ≠ c → ¬ beats x c) :
    ∀ {a : α} {m : List α}, (∀ x ∈ a :: m, x ∈ l) → c ∈ a :: m → knockout beats a m = c := by
  have hself : play beats c c = c := (play_eq_or beats c c).elim id id
  intro a m
  induction m generalizing a with
  | nil => exact fun _ hc ↦ (List.mem_singleton.mp hc).symm
  | cons b m ih =>
    intro hsub hc
    rw [knockout, List.foldl_cons, ← knockout]
    have ha : a ∈ l := hsub a List.mem_cons_self
    have hb : b ∈ l := hsub b (List.mem_cons_of_mem a List.mem_cons_self)
    have hplay : play beats a b ∈ l := by
      rcases play_eq_or beats a b with hp | hp <;> rw [hp] <;> assumption
    refine ih (fun x hx ↦ ?_) ?_
    · rcases List.mem_cons.mp hx with rfl | hx
      · exact hplay
      · exact hsub x (List.mem_cons_of_mem a (List.mem_cons_of_mem b hx))
    · -- the champion is the current holder, the next entrant, or still to come
      rcases List.mem_cons.mp hc with rfl | hc
      · by_cases hbc : b = c
        · rw [hbc, hself]
          exact List.mem_cons_self
        · rw [play, if_pos (hwin b hb hbc)]
          exact List.mem_cons_self
      rcases List.mem_cons.mp hc with rfl | hc
      · by_cases hac : a = c
        · rw [hac, hself]
          exact List.mem_cons_self
        · rw [play, if_neg (hlose a ha hac)]
          exact List.mem_cons_self
      · exact List.mem_cons_of_mem _ hc

/-- **The outcome is independent of the order of play exactly when there is a champion.** -/
theorem knockout_order_independent_iff [DecidableEq α] {l : List α} (hne : l ≠ [])
    (hnodup : l.Nodup) (hasymm : ∀ a ∈ l, ∀ b ∈ l, a ≠ b → (beats a b ↔ ¬ beats b a)) :
    (∃ w, ∀ a m, (a :: m).Perm l → knockout beats a m = w) ↔ ∃ c, Champion beats l c := by
  constructor
  · rintro ⟨w, hw⟩
    obtain ⟨a, m, rfl⟩ := List.exists_cons_of_ne_nil hne
    have hmem : w ∈ a :: m := by
      rw [← hw a m (List.Perm.refl _)]
      exact knockout_mem a m
    refine ⟨w, hmem, fun x hx hxw ↦ ?_⟩
    by_contra hloses
    -- open with the match that `w` loses
    have hx' : x ∈ (a :: m).erase w := (List.mem_erase_of_ne hxw).mpr hx
    have hperm : (w :: x :: ((a :: m).erase w).erase x).Perm (a :: m) :=
      ((List.perm_cons_erase hx').symm.cons w).trans (List.perm_cons_erase hmem).symm
    have hout := hw w _ hperm
    rw [knockout, List.foldl_cons, play, if_neg hloses, ← knockout] at hout
    have hin : knockout beats x (((a :: m).erase w).erase x) ∈ _ := knockout_mem x _
    rw [hout] at hin
    exact (List.nodup_cons.mp (hperm.nodup_iff.mpr hnodup)).1 hin
  · rintro ⟨c, hc, hwin⟩
    refine ⟨c, fun a m hperm ↦ knockout_eq_champion hwin (fun x hx hxc ↦ ?_)
      (fun x hx ↦ hperm.mem_iff.mp hx) (hperm.mem_iff.mpr hc)⟩
    exact (hasymm c hc x hx (Ne.symm hxc)).mp (hwin x hx hxc)

end Tournament
