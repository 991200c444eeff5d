import Mathlib.Data.Option.Basic
import Mathlib.Order.Basic

/-!
# Outcomes of Rust calls

A Rust function that returns a `Result` has three outcomes: a value, an error, or a panic that
unwinds the caller. A method taking `&mut self` has a fourth component, the receiver it leaves
behind, and that receiver is whatever the method had written by the time it returned, also when
it returned an error.

Both are monads from the library: the inner `Option` is the panic, the outer `ExceptT` the
`Result`, and the state sits between the two, so an error keeps the writes made before it.
`Call.exec` runs a method, and the `exec_*` lemmas are the only way later files look inside.
-/

namespace Rust

variable {σ ε α β : Type}

/-- A function returning `Result<α, ε>` that may panic (`none`). -/
abbrev Fallible (ε α : Type) := ExceptT ε Option α

/-- A `&mut self` method on a receiver of type `σ`, returning `Result<α, ε>`. -/
abbrev Call (σ ε α : Type) := ExceptT ε (StateT σ Option) α

/-! ## `Result` -/

/-- `if !p { return Err(e); }`. -/
def ensure (p : Prop) [Decidable p] (e : ε) : Except ε Unit := if p then .ok () else .error e

/-- `o.ok_or(e)?`. -/
def okOr (o : Option α) (e : ε) : Except ε α := o.elim (.error e) .ok

@[simp] theorem ensure_eq_ok {p : Prop} [Decidable p] {e : ε} {u : Unit} :
    ensure p e = .ok u ↔ p := by
  rw [ensure]
  split <;> simp_all

@[simp] theorem ensure_eq_error {p : Prop} [Decidable p] {e e' : ε} :
    ensure p e = .error e' ↔ ¬ p ∧ e = e' := by
  rw [ensure]
  split <;> simp_all

@[simp] theorem okOr_eq_ok {o : Option α} {e : ε} {a : α} : okOr o e = .ok a ↔ o = some a := by
  cases o <;> simp [okOr]

theorem bind_eq_ok {x : Except ε α} {f : α → Except ε β} {b : β} :
    (x >>= f) = .ok b ↔ ∃ a, x = .ok a ∧ f a = .ok b := by
  cases x with
  | ok a =>
    constructor
    · exact fun h ↦ ⟨a, rfl, h⟩
    · rintro ⟨a', ha, h⟩
      cases ha
      exact h
  | error e =>
    constructor
    · intro h
      cases h
    · rintro ⟨a, ha, -⟩
      simp at ha

theorem mapError_eq_ok {ε' : Type} {x : Except ε α} {f : ε → ε'} {a : α} :
    x.mapError f = .ok a ↔ x = .ok a := by
  cases x <;> simp [Except.mapError]

theorem toOption_eq_some {x : Except ε α} {a : α} : x.toOption = some a ↔ x = .ok a := by
  cases x <;> simp [Except.toOption]

theorem exists_error_of_ne_ok {x : Except ε Unit} (h : x ≠ .ok ()) : ∃ e, x = .error e := by
  cases x with
  | ok u => exact absurd rfl h
  | error e => exact ⟨e, rfl⟩

/-! ## Results that may panic -/

namespace Fallible

/-- The outcome of the call: `none` is a panic. -/
def exec (x : Fallible ε α) : Option (Except ε α) := ExceptT.run x

/-- A panicking expression such as an index, a slice or `expect`. -/
def orPanic (o : Option α) : Fallible ε α := ExceptT.lift o

/-- A `Result` computed without any possibility of a panic. -/
def ofExcept (r : Except ε α) : Fallible ε α := ExceptT.mk (some r)

@[simp] theorem exec_pure (a : α) : exec (pure a : Fallible ε α) = some (.ok a) := rfl

@[simp] theorem exec_throw (e : ε) : exec (throw e : Fallible ε α) = some (.error e) := rfl

@[simp] theorem exec_ofExcept (r : Except ε α) : exec (ofExcept r) = some r := rfl

@[simp] theorem exec_orPanic (o : Option α) :
    exec (orPanic o : Fallible ε α) = o.map Except.ok := by
  cases o <;> rfl

/-- Checks that cannot panic compose as `Result`s do. -/
theorem ofExcept_bind (r : Except ε α) (f : α → Except ε β) :
    (ofExcept r >>= fun a ↦ ofExcept (f a)) = ofExcept (r >>= f) := by
  cases r <;> rfl

theorem exec_bind (x : Fallible ε α) (f : α → Fallible ε β) :
    exec (x >>= f) = (exec x).bind fun r ↦ match r with
      | .ok a => exec (f a)
      | .error e => some (.error e) := by
  change (ExceptT.run x).bind _ = _
  rw [exec]
  congr 1

theorem exec_bind_ok {x : Fallible ε α} {f : α → Fallible ε β} {a : α}
    (h : exec x = some (.ok a)) : exec (x >>= f) = exec (f a) := by
  rw [exec_bind, h]
  rfl

theorem exec_bind_error {x : Fallible ε α} {f : α → Fallible ε β} {e : ε}
    (h : exec x = some (.error e)) : exec (x >>= f) = some (.error e) := by
  rw [exec_bind, h]
  rfl

/-- A sequence succeeds exactly when its first part does and its second part does on the value. -/
theorem exec_bind_eq_ok {x : Fallible ε α} {f : α → Fallible ε β} {b : β} :
    exec (x >>= f) = some (.ok b) ↔ ∃ a, exec x = some (.ok a) ∧ exec (f a) = some (.ok b) := by
  rw [exec_bind, Option.bind_eq_some_iff]
  constructor
  · rintro ⟨r, hr, h⟩
    cases r with
    | ok a => exact ⟨a, hr, h⟩
    | error e => simp at h
  · rintro ⟨a, ha, h⟩
    exact ⟨_, ha, h⟩

/-- A check that passes has no effect. -/
theorem exec_check_ok {r : Except ε α} {f : α → Fallible ε β} {a : α} (h : r = .ok a) :
    exec (ofExcept r >>= f) = exec (f a) := exec_bind_ok (by rw [exec_ofExcept, h])

/-- A panicking expression that does not panic has no effect. -/
theorem exec_some {o : Option α} {f : α → Fallible ε β} {a : α} (h : o = some a) :
    exec (orPanic o >>= f) = exec (f a) := exec_bind_ok (by rw [exec_orPanic, h]; rfl)

end Fallible

/-! ## Methods -/

namespace Call

/-- Run the method on a receiver: `none` is a panic, otherwise the returned `Result` and the
receiver left behind. -/
def exec (x : Call σ ε α) (s : σ) : Option (Except ε α × σ) := StateT.run (ExceptT.run x) s

/-- A pure check that may return an error. -/
def ofExcept (r : Except ε α) : Call σ ε α := ExceptT.mk (pure r)

/-- A call that does not touch the receiver. -/
def ofFallible (x : Fallible ε α) : Call σ ε α := ExceptT.mk (StateT.lift (Fallible.exec x))

/-- A panicking expression. -/
def orPanic (o : Option α) : Call σ ε α := ofFallible (Fallible.orPanic o)

/-- A call whose error is another one to its caller. -/
def mapError {ε' : Type} (f : ε → ε') (x : Call σ ε α) : Call σ ε' α :=
  ExceptT.mk (Except.mapError f <$> ExceptT.run x)

@[simp] theorem exec_pure (a : α) (s : σ) :
    exec (pure a : Call σ ε α) s = some (.ok a, s) := rfl

theorem exec_mapError {ε' : Type} (f : ε → ε') (x : Call σ ε α) (s : σ) :
    exec (mapError f x) s = (exec x s).map fun out ↦ (out.1.mapError f, out.2) := by
  rw [exec, mapError, ExceptT.run_mk, StateT.run_map, Option.map_eq_map]
  rfl

@[simp] theorem exec_throw (e : ε) (s : σ) :
    exec (throw e : Call σ ε α) s = some (.error e, s) := rfl

@[simp] theorem exec_get (s : σ) : exec (get : Call σ ε σ) s = some (.ok s, s) := rfl

@[simp] theorem exec_set (s s' : σ) : exec (set s' : Call σ ε PUnit) s = some (.ok ⟨⟩, s') := rfl

@[simp] theorem exec_modify (f : σ → σ) (s : σ) :
    exec (modify f : Call σ ε PUnit) s = some (.ok ⟨⟩, f s) := rfl

@[simp] theorem exec_ofExcept (r : Except ε α) (s : σ) :
    exec (ofExcept r : Call σ ε α) s = some (r, s) := rfl

theorem exec_ofFallible (x : Fallible ε α) (s : σ) :
    exec (ofFallible x : Call σ ε α) s = (Fallible.exec x).map fun r ↦ (r, s) := by
  rw [exec, ofFallible, ExceptT.run_mk, StateT.run_lift]
  cases Fallible.exec x <;> rfl

@[simp] theorem exec_orPanic (o : Option α) (s : σ) :
    exec (orPanic o : Call σ ε α) s = o.map fun a ↦ (.ok a, s) := by
  cases o <;> rfl

theorem exec_bind (x : Call σ ε α) (f : α → Call σ ε β) (s : σ) :
    exec (x >>= f) s = (exec x s).bind fun r ↦ match r with
      | (.ok a, s') => exec (f a) s'
      | (.error e, s') => some (.error e, s') := by
  change ((ExceptT.run x).run s).bind _ = _
  rw [exec]
  congr 1
  funext r
  obtain ⟨r, s'⟩ := r
  cases r <;> rfl

theorem exec_bind_ok {x : Call σ ε α} {f : α → Call σ ε β} {s s' : σ} {a : α}
    (h : exec x s = some (.ok a, s')) : exec (x >>= f) s = exec (f a) s' := by
  rw [exec_bind, h]
  rfl

theorem exec_bind_error {x : Call σ ε α} {f : α → Call σ ε β} {s s' : σ} {e : ε}
    (h : exec x s = some (.error e, s')) : exec (x >>= f) s = some (.error e, s') := by
  rw [exec_bind, h]
  rfl

/-- A sequence succeeds exactly when its first part does and its second part does on the value and
the receiver it left. -/
theorem exec_bind_eq_ok {x : Call σ ε α} {f : α → Call σ ε β} {s s' : σ} {b : β} :
    exec (x >>= f) s = some (.ok b, s') ↔
      ∃ a s₁, exec x s = some (.ok a, s₁) ∧ exec (f a) s₁ = some (.ok b, s') := by
  rw [exec_bind, Option.bind_eq_some_iff]
  constructor
  · rintro ⟨⟨r, s₁⟩, hr, h⟩
    cases r with
    | ok a => exact ⟨a, s₁, hr, h⟩
    | error e => simp at h
  · rintro ⟨a, s₁, hx, h⟩
    exact ⟨_, hx, h⟩

/-- A sequence that returns does so in its first part, with an error, or in its second. -/
theorem exec_bind_cases {x : Call σ ε α} {f : α → Call σ ε β} {s s' : σ} {r : Except ε β}
    (h : exec (x >>= f) s = some (r, s')) :
    (∃ e, r = .error e ∧ exec x s = some (.error e, s')) ∨
      ∃ a s₁, exec x s = some (.ok a, s₁) ∧ exec (f a) s₁ = some (r, s') := by
  rw [exec_bind, Option.bind_eq_some_iff] at h
  obtain ⟨⟨r₁, s₁⟩, hx, h⟩ := h
  rcases r₁ with e | a
  · obtain ⟨rfl, rfl⟩ := Prod.mk.inj (Option.some_inj.mp h)
    exact .inl ⟨e, rfl, hx⟩
  · exact .inr ⟨a, s₁, hx, h⟩

/-- A sequence panics only if one of its parts does. -/
theorem exec_bind_ne_none {x : Call σ ε α} {f : α → Call σ ε β} {s : σ} (hx : exec x s ≠ none)
    (hf : ∀ a s₁, exec x s = some (.ok a, s₁) → exec (f a) s₁ ≠ none) :
    exec (x >>= f) s ≠ none := by
  obtain ⟨⟨r, s₁⟩, h⟩ := Option.ne_none_iff_exists'.mp hx
  rcases r with e | a
  · rw [exec_bind_error h]
    exact Option.some_ne_none _
  · rw [exec_bind_ok h]
    exact hf a s₁ h

theorem exec_ofExcept_eq_ok {r : Except ε α} {s s' : σ} {a : α} :
    exec (ofExcept r : Call σ ε α) s = some (.ok a, s') ↔ r = .ok a ∧ s' = s := by
  rw [exec_ofExcept, Option.some_inj, Prod.mk.injEq, eq_comm (a := s)]

theorem exec_orPanic_eq_ok {o : Option α} {s s' : σ} {a : α} :
    exec (orPanic o : Call σ ε α) s = some (.ok a, s') ↔ o = some a ∧ s' = s := by
  cases o <;> simp [eq_comm]

/-- A check that passes has no effect. -/
theorem exec_check_ok {r : Except ε α} {f : α → Call σ ε β} {a : α} (h : r = .ok a) (s : σ) :
    exec (ofExcept r >>= f) s = exec (f a) s :=
  exec_bind_ok (by rw [exec_ofExcept, h])

/-- A check that fails ends the call. -/
theorem exec_check_error {r : Except ε α} {f : α → Call σ ε β} {e : ε} (h : r = .error e) (s : σ) :
    exec (ofExcept r >>= f) s = some (.error e, s) :=
  exec_bind_error (by rw [exec_ofExcept, h])

theorem exec_ensure_ok {p : Prop} [Decidable p] {e : ε} {f : Unit → Call σ ε β} (h : p) (s : σ) :
    exec (ofExcept (ensure p e) >>= f) s = exec (f ()) s :=
  exec_check_ok (ensure_eq_ok.mpr h) s

theorem exec_ensure_error {p : Prop} [Decidable p] {e : ε} {f : Unit → Call σ ε β} (h : ¬ p)
    (s : σ) : exec (ofExcept (ensure p e) >>= f) s = some (.error e, s) :=
  exec_check_error (ensure_eq_error.mpr ⟨h, rfl⟩) s

/-- A call that begins with a check returns its error, or goes on. -/
theorem exec_check_cases {r : Except ε α} {f : α → Call σ ε β} {s s' : σ} {out : Except ε β}
    (h : exec (ofExcept r >>= f) s = some (out, s')) :
    ((∃ e, out = .error e) ∧ s' = s) ∨ ∃ a, r = .ok a ∧ exec (f a) s = some (out, s') := by
  rcases r with e | a
  · rw [exec_check_error rfl, Option.some_inj, Prod.mk.injEq] at h
    exact .inl ⟨⟨e, h.1.symm⟩, h.2.symm⟩
  · exact .inr ⟨a, rfl, h⟩

/-- A call that begins with a panicking expression and returns has its value. -/
theorem exec_orPanic_bind_eq_some {o : Option α} {f : α → Call σ ε β} {s : σ}
    {out : Except ε β × σ} :
    exec (orPanic o >>= f) s = some out ↔ ∃ a, o = some a ∧ exec (f a) s = some out := by
  rw [exec_bind, exec_orPanic, Option.bind_map, Option.bind_eq_some_iff]
  rfl

theorem exec_set_eq_some {s s₁ s' : σ} {out : Except ε PUnit} :
    exec (set s₁ : Call σ ε PUnit) s = some (out, s') ↔ out = .ok ⟨⟩ ∧ s' = s₁ := by
  rw [exec_set, Option.some_inj, Prod.mk.injEq, eq_comm, eq_comm (a := s₁)]

/-- A panicking expression that does not panic has no effect. -/
theorem exec_some {o : Option α} {f : α → Call σ ε β} {a : α} (h : o = some a) (s : σ) :
    exec (orPanic o >>= f) s = exec (f a) s :=
  exec_bind_ok (by rw [exec_orPanic, h]; rfl)

/-- One that panics ends everything. -/
theorem exec_none {o : Option α} {f : α → Call σ ε β} (h : o = none) (s : σ) :
    exec (orPanic o >>= f) s = none := by
  rw [exec_bind, exec_orPanic, h]
  rfl

/-! ### Sequences of calls -/

section Sequences

variable {τ ρ : Type}

/-- What a sequence of requests is answered, each on the receiver that the one before left, and the
receiver at the end. -/
def serveAll (serve : ρ → Call σ ε α) : List ρ → σ → Option (List (Except ε α) × σ)
  | [], s => some ([], s)
  | r :: rs, s => (exec (serve r) s).bind fun out ↦
    (serveAll serve rs out.2).map fun rest ↦ (out.1 :: rest.1, rest.2)

theorem serveAll_cons {serve : ρ → Call σ ε α} {r : ρ} {rs : List ρ} {s s₁ s₂ : σ}
    {answer : Except ε α} {answers : List (Except ε α)} (h : exec (serve r) s = some (answer, s₁))
    (hrest : serveAll serve rs s₁ = some (answers, s₂)) :
    serveAll serve (r :: rs) s = some (answer :: answers, s₂) := by
  rw [serveAll, h, Option.bind_some, hrest, Option.map_some]

/-- **Simulation.** Receivers that answer every single request alike, and stay related by it, answer
every sequence of requests alike. -/
theorem exists_serveAll {R : σ → τ → Prop} {serve : ρ → Call σ ε α} {serve' : ρ → Call τ ε α}
    (hstep : ∀ r s t, R s t → ∃ answer s' t', exec (serve r) s = some (answer, s') ∧
      exec (serve' r) t = some (answer, t') ∧ R s' t')
    (rs : List ρ) {s : σ} {t : τ} (h : R s t) :
    ∃ answers s' t', serveAll serve rs s = some (answers, s') ∧
      serveAll serve' rs t = some (answers, t') ∧ R s' t' := by
  induction rs generalizing s t with
  | nil => exact ⟨[], s, t, rfl, rfl, h⟩
  | cons r rs ih =>
    obtain ⟨answer, s₁, t₁, hs, ht, h₁⟩ := hstep r s t h
    obtain ⟨answers, s₂, t₂, hs', ht', h₂⟩ := ih h₁
    exact ⟨answer :: answers, s₂, t₂, serveAll_cons hs hs', serveAll_cons ht ht', h₂⟩

end Sequences

/-! ### What a method never takes back -/

section Grows

variable {γ : Type} [Preorder γ] {g : σ → γ} {s : σ}

/-- Started in `s`, the method does not decrease `g` of the receiver, however it ends. -/
def Grows (g : σ → γ) (s : σ) (x : Call σ ε α) : Prop :=
  ∀ r s', exec x s = some (r, s') → g s ≤ g s'

theorem grows_of_exec_eq {x : Call σ ε α} {o : Option (Except ε α)}
    (h : exec x s = o.map fun r ↦ (r, s)) : Grows g s x := by
  intro r s' hexec
  rw [h] at hexec
  obtain ⟨r', -, hpair⟩ := Option.map_eq_some_iff.mp hexec
  rw [(Prod.mk.inj hpair).2]

theorem grows_pure (a : α) : Grows g s (pure a : Call σ ε α) :=
  grows_of_exec_eq (o := some (.ok a)) rfl

theorem grows_ofExcept (r : Except ε α) : Grows g s (ofExcept r) :=
  grows_of_exec_eq (o := some r) rfl

theorem grows_orPanic (o : Option α) : Grows g s (orPanic o : Call σ ε α) :=
  grows_of_exec_eq (o := o.map .ok) (by rw [exec_orPanic, Option.map_map]; rfl)

theorem grows_set {s₁ : σ} (h : g s ≤ g s₁) : Grows g s (set s₁ : Call σ ε PUnit) := by
  intro r s' hexec
  rw [exec_set, Option.some_inj, Prod.mk.injEq] at hexec
  rwa [← hexec.2]

theorem grows_modify {f : σ → σ} (h : g s ≤ g (f s)) :
    Grows g s (modify f : Call σ ε PUnit) := by
  intro r s' hexec
  rw [exec_modify, Option.some_inj, Prod.mk.injEq] at hexec
  rwa [← hexec.2]

/-- **A sequence** grows when its parts do, the second from wherever the first has succeeded. -/
theorem Grows.bind {x : Call σ ε α} {f : α → Call σ ε β} (hx : Grows g s x)
    (hf : ∀ a s₁, exec x s = some (.ok a, s₁) → Grows g s₁ (f a)) : Grows g s (x >>= f) := by
  intro r s' hexec
  rw [exec_bind, Option.bind_eq_some_iff] at hexec
  obtain ⟨⟨r₁, s₁⟩, hfirst, hexec⟩ := hexec
  rcases r₁ with e | a
  · rw [Option.some_inj, Prod.mk.injEq] at hexec
    exact hexec.2 ▸ hx _ _ hfirst
  · exact (hx _ _ hfirst).trans (hf a s₁ hfirst r s' hexec)

theorem Grows.get {f : σ → Call σ ε β} (h : Grows g s (f s)) :
    Grows g s (MonadState.get >>= f) := by
  intro r s' hexec
  rw [exec_bind_ok (exec_get s)] at hexec
  exact h r s' hexec

theorem Grows.check {r : Except ε α} {f : α → Call σ ε β} (h : ∀ a, Grows g s (f a)) :
    Grows g s (ofExcept r >>= f) := by
  refine (grows_ofExcept r).bind fun a s₁ hexec ↦ ?_
  rw [(exec_ofExcept_eq_ok.mp hexec).2]
  exact h a

theorem Grows.orPanic {o : Option α} {f : α → Call σ ε β} (h : ∀ a, Grows g s (f a)) :
    Grows g s (Call.orPanic o >>= f) := by
  refine (grows_orPanic o).bind fun a s₁ hexec ↦ ?_
  rw [(exec_orPanic_eq_ok.mp hexec).2]
  exact h a

theorem Grows.set {s₁ : σ} {f : PUnit → Call σ ε β} (hle : g s ≤ g s₁)
    (h : Grows g s₁ (f ⟨⟩)) : Grows g s (MonadStateOf.set s₁ >>= f) := by
  refine (grows_set hle).bind fun a s₂ hexec ↦ ?_
  rw [exec_set, Option.some_inj, Prod.mk.injEq] at hexec
  exact hexec.2 ▸ h

end Grows

end Call

end Rust
