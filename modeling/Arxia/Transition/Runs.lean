import Mathlib.Data.List.Basic
import Mathlib.Data.List.Forall2
import Mathlib.Data.List.Induction

/-!
# Runs of a labelled transition system

A system has initial states and labelled steps; a run is a finite sequence of steps from an
initial state, recorded as the list of its labels. Labels carry both what was asked of the system
and what it answered, so a statement about "every sequence of calls" quantifies over runs, and the
history a run has produced is a function of its trace.

Invariants may mention the trace. `Run.invariant` is the only induction over runs; everything a
later file proves about reachable states comes from one step of it.
-/

namespace Transition

variable {σ ℓ : Type}

/-- A labelled transition system. -/
structure System (σ ℓ : Type) where
  /-- The states a run may start in. -/
  init : σ → Prop
  /-- One step: state, label, next state. -/
  step : σ → ℓ → σ → Prop

namespace System

/-- The system can go from an initial state to `s` by steps with exactly these labels. -/
inductive Run (S : System σ ℓ) : List ℓ → σ → Prop
  | start {s : σ} (h : S.init s) : Run S [] s
  | step {tr : List ℓ} {s s' : σ} {a : ℓ} (run : Run S tr s) (h : S.step s a s') :
    Run S (tr ++ [a]) s'

/-- Some run ends in `s`. -/
def Reachable (S : System σ ℓ) (s : σ) : Prop := ∃ tr, S.Run tr s

/-- The runs of `S` in which every step is taken from a state, and with a label, that meet `P`. -/
def restrict (S : System σ ℓ) (P : σ → ℓ → Prop) : System σ ℓ where
  init := S.init
  step := fun s a s' ↦ P s a ∧ S.step s a s'

variable {S : System σ ℓ}

/-- **Invariants.** What holds initially and is kept by every step of a run holds throughout. -/
theorem Run.invariant {I : List ℓ → σ → Prop} (start : ∀ s, S.init s → I [] s)
    (step : ∀ tr s a s', S.Run tr s → I tr s → S.step s a s' → I (tr ++ [a]) s')
    {tr : List ℓ} {s : σ} (run : S.Run tr s) : I tr s := by
  induction run with
  | start h => exact start _ h
  | step run h ih => exact step _ _ _ _ run ih h

/-- **Side by side.** Of two runs whose labels match, what holds initially and is kept by every pair
of matching steps holds throughout. -/
theorem Run.pair {σ' ℓ' ι : Type} {T : System σ' ℓ'} {f : ℓ → ι} {f' : ℓ' → ι}
    {I : List ℓ → List ℓ' → σ → σ' → Prop} (start : ∀ s t, S.init s → T.init t → I [] [] s t)
    (step : ∀ tr tr' s t a b s' t', S.Run tr s → T.Run tr' t → I tr tr' s t → f a = f' b →
      S.step s a s' → T.step t b t' → I (tr ++ [a]) (tr' ++ [b]) s' t')
    {tr : List ℓ} {tr' : List ℓ'} {s : σ} {t : σ'} (run : S.Run tr s) (run' : T.Run tr' t)
    (hmatch : tr.map f = tr'.map f') : I tr tr' s t := by
  induction run generalizing tr' t with
  | start h =>
    rcases run' with h' | ⟨_, _⟩
    · exact start _ _ h h'
    · simp at hmatch
  | step run h ih =>
    rcases run' with h' | ⟨run', h'⟩
    · simp at hmatch
    · rw [List.map_append, List.map_append] at hmatch
      obtain ⟨hmatch, hlast⟩ := List.append_inj' hmatch rfl
      exact step _ _ _ _ _ _ _ _ run run' (ih run' hmatch) (List.cons.inj hlast).1 h h'

theorem Run.init_of_nil {s : σ} (run : S.Run [] s) : S.init s := by
  generalize hnil : ([] : List ℓ) = tr at run
  cases run with
  | start h => exact h
  | step _ _ => simp at hnil

/-- **Simulation.** If every step can be matched from a related state, every run can. -/
theorem Run.simulates {σ' ℓ' : Type} {T : System σ' ℓ'} {R : σ → σ' → Prop} {M : ℓ → ℓ' → Prop}
    (start : ∀ s, S.init s → ∃ t, T.init t ∧ R s t)
    (step : ∀ s t a s', R s t → S.step s a s' → ∃ b t', M a b ∧ T.step t b t' ∧ R s' t')
    {tr : List ℓ} {s : σ} (run : S.Run tr s) :
    ∃ tr' t, List.Forall₂ M tr tr' ∧ T.Run tr' t ∧ R s t := by
  induction run with
  | start h =>
    obtain ⟨t, ht, hrelated⟩ := start _ h
    exact ⟨[], t, .nil, .start ht, hrelated⟩
  | step run h ih =>
    obtain ⟨tr', t, hmatch, run', hrelated⟩ := ih
    obtain ⟨b, t', hlast, h', hrelated'⟩ := step _ _ _ _ hrelated h
    exact ⟨tr' ++ [b], t', List.rel_append hmatch (.cons hlast .nil), .step run' h', hrelated'⟩

/-- Steps that a function takes one after the other are a run. -/
theorem run_of_foldlM {next : σ → ℓ → Option σ}
    (hnext : ∀ s a s', next s a = some s' → S.step s a s') {s₀ s : σ} (start : S.init s₀)
    {tr : List ℓ} (h : tr.foldlM next s₀ = some s) : S.Run tr s := by
  induction tr using List.reverseRecOn generalizing s with
  | nil => exact Option.some_inj.mp h ▸ .start start
  | append_singleton tr a ih =>
    rw [List.foldlM_append, Option.bind_eq_bind, Option.bind_eq_some_iff] at h
    obtain ⟨t, ht, hlast⟩ := h
    rw [List.foldlM_cons, Option.bind_eq_bind, Option.bind_eq_some_iff] at hlast
    obtain ⟨t', hstep, ht'⟩ := hlast
    obtain rfl := Option.some_inj.mp ht'
    exact .step (ih ht) (hnext t a _ hstep)

/-- The beginning of a run is a run. -/
theorem Run.exists_start {tr tr' : List ℓ} {s : σ} (run : S.Run (tr ++ tr') s) :
    ∃ t, S.Run tr t := by
  generalize hall : tr ++ tr' = all at run
  induction run generalizing tr' with
  | @start s h =>
    obtain ⟨rfl, -⟩ := List.append_eq_nil_iff.mp hall
    exact ⟨s, .start h⟩
  | @step all₀ s s' a run h ih =>
    rcases List.eq_nil_or_concat' tr' with rfl | ⟨tr₁, b, rfl⟩
    · rw [List.append_nil] at hall
      exact ⟨s', hall ▸ .step run h⟩
    · rw [← List.append_assoc] at hall
      exact ih (List.append_inj' hall rfl).1

/-- Every label of a run is the label of a step that it took. -/
theorem Run.exists_step {tr tr' : List ℓ} {a : ℓ} {s : σ} (run : S.Run (tr ++ a :: tr') s) :
    ∃ t t', S.Run tr t ∧ S.step t a t' ∧ S.Run (tr ++ [a]) t' := by
  rw [List.append_cons] at run
  obtain ⟨t', run'⟩ := run.exists_start
  generalize hall : tr ++ [a] = all at run'
  rcases run' with h | ⟨run₀, h⟩
  · simp at hall
  · obtain ⟨rfl, hlast⟩ := List.append_inj' hall rfl
    obtain rfl := (List.cons.inj hlast).1
    exact ⟨_, t', run₀, h, .step run₀ h⟩

/-- The labels determine the steps. -/
structure Deterministic (S : System σ ℓ) : Prop where
  init : ∀ s s', S.init s → S.init s' → s = s'
  step : ∀ s a s₁ s₂, S.step s a s₁ → S.step s a s₂ → s₁ = s₂

/-- There a trace leads to one state. -/
theorem Deterministic.eq_of_run (hS : Deterministic S) {tr : List ℓ} {s s' : σ} (run : S.Run tr s)
    (run' : S.Run tr s') : s = s' := by
  refine run.pair (I := fun _ _ s s' ↦ s = s') hS.init ?_ run' (rfl : tr.map id = tr.map id)
  rintro _ _ s _ a _ s₁ s₂ - - rfl rfl h h'
  exact hS.step s a s₁ s₂ h h'

/-- **From some state on.** What holds in one state of a run and is kept by every later step holds
to its end. -/
theorem Deterministic.invariant_from (hS : Deterministic S) {J : List ℓ → σ → Prop}
    {tr tr' : List ℓ} {s s' : σ} (run : S.Run tr s) (run' : S.Run (tr ++ tr') s') (start : J [] s)
    (step : ∀ l s₁ a s₂, S.Run (tr ++ l) s₁ → J l s₁ → S.step s₁ a s₂ → J (l ++ [a]) s₂) :
    J tr' s' := by
  induction tr' using List.reverseRecOn generalizing s' with
  | nil =>
    rw [List.append_nil] at run'
    exact hS.eq_of_run run run' ▸ start
  | append_singleton l a ih =>
    rw [← List.append_assoc] at run'
    obtain ⟨t, t', hrun, hstep, hrun'⟩ := run'.exists_step
    rw [← hS.eq_of_run hrun' run']
    exact step l t a t' hrun (ih hrun) hstep

/-- A run under a restriction is a run. -/
theorem Run.of_restrict {P : σ → ℓ → Prop} {tr : List ℓ} {s : σ}
    (run : (S.restrict P).Run tr s) : S.Run tr s := by
  induction run with
  | start h => exact .start h
  | step _ h ih => exact .step ih h.2

/-- A run whose steps all meet a condition is a run under it. -/
theorem Run.restrict_of_steps {P : σ → ℓ → Prop} {tr : List ℓ} {s : σ} (run : S.Run tr s)
    (hP : ∀ tr' s' a, S.Run tr' s' → tr' ++ [a] <+: tr → P s' a) : (S.restrict P).Run tr s := by
  induction run with
  | start h => exact .start h
  | step run h ih =>
    refine .step (ih fun tr' s' a hrun hpre ↦ hP tr' s' a hrun (hpre.trans ?_)) ⟨?_, h⟩
    · exact List.prefix_append _ _
    · exact hP _ _ _ run (List.prefix_refl _)

end System

/-- A history grows by what its last label adds to it. -/
theorem filterMap_concat {α β : Type} (f : α → Option β) (tr : List α) (a : α) :
    (tr ++ [a]).filterMap f = tr.filterMap f ++ (f a).toList := by
  rw [List.filterMap_append, List.filterMap_cons, List.filterMap_nil]
  cases f a <;> rfl

end Transition
