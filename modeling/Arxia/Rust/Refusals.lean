import Arxia.Rust.Outcome

/-!
# Errors in order

A method documents its errors as a list: each with the circumstance it stands for, in the order in
which the method looks. `firstError` is what such a list promises. A method that refuses by the
list returns that error, and has touched nothing by then; the rules below follow the method's own
checks down the list.
-/

namespace Rust

variable {σ ε α β : Type}

/-- The first error of the list whose circumstance holds. -/
def firstError (errors : List (Bool × ε)) : Option ε := (errors.find? Prod.fst).map Prod.snd

section FirstError

variable {errors : List (Bool × ε)} {c : Bool} {e : ε}

@[simp] theorem firstError_nil : firstError ([] : List (Bool × ε)) = none := rfl

@[simp] theorem firstError_cons :
    firstError ((c, e) :: errors) = if c then some e else firstError errors := by
  rw [firstError, List.find?_cons]
  cases c <;> rfl

/-- No error applies when no circumstance holds. -/
theorem firstError_eq_none : firstError errors = none ↔ ∀ x ∈ errors, x.1 = false := by
  simp only [firstError, Option.map_eq_none_iff, List.find?_eq_none, Bool.not_eq_true]

end FirstError

namespace Call

variable {errors : List (Bool × ε)} {s : σ} {c : Bool} {e : ε}

/-- Started in `s`, the method returns the first error of the list that applies, and leaves `s` as
it is. -/
def Refuses (errors : List (Bool × ε)) (s : σ) (x : Call σ ε α) : Prop :=
  ∀ e, firstError errors = some e → exec x s = some (.error e, s)

theorem Refuses.nil (x : Call σ ε α) : Refuses [] s x := by
  intro e h
  simp at h

theorem Refuses.get {f : σ → Call σ ε α} (h : Refuses errors s (f s)) :
    Refuses errors s (MonadState.get >>= f) := by
  intro e he
  rw [exec_bind_ok (exec_get s)]
  exact h e he

/-- A check fails with the error when its circumstance holds, and passes otherwise. -/
theorem Refuses.check {r : Except ε α} {f : α → Call σ ε β} (herror : c = true → r = .error e)
    (hok : c = false → ∃ v, r = .ok v ∧ Refuses errors s (f v)) :
    Refuses ((c, e) :: errors) s (ofExcept r >>= f) := by
  intro e' he'
  rw [firstError_cons] at he'
  cases c with
  | true =>
    rw [exec_check_error (herror rfl), Option.some_inj.mp he']
  | false =>
    obtain ⟨v, hr, h⟩ := hok rfl
    rw [exec_check_ok hr]
    exact h e' he'

theorem Refuses.ensure {p q : Prop} [Decidable p] [Decidable q] {f : Unit → Call σ ε β}
    (hq : q ↔ ¬ p) (h : p → Refuses errors s (f ())) :
    Refuses ((decide q, e) :: errors) s (ofExcept (Rust.ensure p e) >>= f) := by
  refine .check (fun hc ↦ ?_) fun hc ↦ ?_
  · exact ensure_eq_error.mpr ⟨hq.mp (of_decide_eq_true hc), rfl⟩
  · have hp : p := not_not.mp fun hp ↦ of_decide_eq_false hc (hq.mpr hp)
    exact ⟨(), ensure_eq_ok.mpr hp, h hp⟩

end Call

end Rust
