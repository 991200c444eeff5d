import Arxia.Transition.Runs
import Mathlib.Logic.Function.Basic

/-!
# Objects behind a mutex

Threads call the operations of one object. A call waits for the lock, reads the state, computes, and
writes the state back before it gives the lock up and returns; the steps of different threads
interleave in any way the lock allows.

The operations take effect one after the other, in the order in which the writes happen, and each of
them between its call and its return. A thread that has called is never stuck for good: as long as
one of them is on its way some step can be taken.
-/

namespace Concurrency

open Transition

/-- A sequential object: where it starts, and what its operations return and leave. -/
structure Object (σ O R : Type) where
  start : σ
  apply : O → σ → R × σ

/-- How far a thread has come with its call. -/
inductive Phase (σ O R : Type)
  | idle
  | waiting (op : O)
  | locked (op : O)
  | loaded (op : O) (copy : σ)
  | stored (result : R)
  | unlocked (result : R)

namespace Phase

variable {σ O R : Type}

/-- The thread holds the lock. -/
def Inside : Phase σ O R → Prop
  | .locked _ | .loaded _ _ | .stored _ => True
  | _ => False

/-- The operation that has been called and has not taken effect. -/
def unapplied : Phase σ O R → Option O
  | .waiting op | .locked op | .loaded op _ => some op
  | _ => none

/-- The result of an operation that has taken effect and has not returned. -/
def unreturned : Phase σ O R → Option R
  | .stored result | .unlocked result => some result
  | _ => none

end Phase

/-- One step of a thread. -/
inductive Step (T O R : Type)
  | call (thread : T) (op : O)
  | lock (thread : T)
  | load (thread : T)
  | store (thread : T) (op : O) (result : R)
  | unlock (thread : T)
  | ret (thread : T) (result : R)

namespace Step

variable {T O R : Type}

/-- Who takes it. -/
def thread : Step T O R → T
  | .call t _ | .lock t | .load t | .store t _ _ | .unlock t | .ret t _ => t

/-- The operation that takes effect, whose it is, and its result. -/
def effect : Step T O R → Option (T × O × R)
  | .store t op result => some (t, op, result)
  | _ => none

variable [DecidableEq T]

/-- The operation that this thread calls. -/
def calledBy (t : T) : Step T O R → Option O
  | .call t' op => if t' = t then some op else none
  | _ => none

/-- What returns to this thread. -/
def returnedTo (t : T) : Step T O R → Option R
  | .ret t' result => if t' = t then some result else none
  | _ => none

/-- The effect, if it is one of this thread. -/
def effectOf (t : T) (a : Step T O R) : Option (O × R) :=
  a.effect.bind fun e ↦ if e.1 = t then some e.2 else none

/-- A step is nobody else's call, effect or return. -/
theorem none_of_ne {t : T} {a : Step T O R} (h : a.thread ≠ t) :
    a.calledBy t = none ∧ a.effectOf t = none ∧ a.returnedTo t = none := by
  rcases a with ⟨t', op⟩ | t' | t' | ⟨t', op, result⟩ | t' | ⟨t', result⟩
  · exact ⟨if_neg h, rfl, rfl⟩
  · exact ⟨rfl, rfl, rfl⟩
  · exact ⟨rfl, rfl, rfl⟩
  · exact ⟨rfl, if_neg h, rfl⟩
  · exact ⟨rfl, rfl, rfl⟩
  · exact ⟨rfl, rfl, if_neg h⟩

end Step

/-- The object, the lock, and the threads. -/
structure State (T σ O R : Type) where
  shared : σ
  holder : Option T
  phase : T → Phase σ O R

namespace State

variable {T σ O R : Type} [DecidableEq T]

/-- The thread goes on. -/
def advance (s : State T σ O R) (t : T) (p : Phase σ O R) : State T σ O R :=
  { s with phase := Function.update s.phase t p }

@[simp] theorem phase_advance_self (s : State T σ O R) (t : T) (p : Phase σ O R) :
    (s.advance t p).phase t = p := Function.update_self _ _ _

theorem phase_advance_of_ne {t t' : T} (h : t' ≠ t) (s : State T σ O R) (p : Phase σ O R) :
    (s.advance t p).phase t' = s.phase t' := Function.update_of_ne h _ _

@[simp] theorem shared_advance (s : State T σ O R) (t : T) (p : Phase σ O R) :
    (s.advance t p).shared = s.shared := rfl

@[simp] theorem holder_advance (s : State T σ O R) (t : T) (p : Phase σ O R) :
    (s.advance t p).holder = s.holder := rfl

end State

namespace Object

variable {T σ O R : Type} [DecidableEq T] (X : Object σ O R)

/-- The steps that threads can take. -/
inductive Takes (s : State T σ O R) : Step T O R → State T σ O R → Prop
  | call (t : T) (op : O) (h : s.phase t = .idle) :
    Takes s (.call t op) (s.advance t (.waiting op))
  | lock {t : T} {op : O} (h : s.phase t = .waiting op) (hfree : s.holder = none) :
    Takes s (.lock t) { s.advance t (.locked op) with holder := some t }
  | load {t : T} {op : O} (h : s.phase t = .locked op) :
    Takes s (.load t) (s.advance t (.loaded op s.shared))
  | store {t : T} {op : O} {copy : σ} (h : s.phase t = .loaded op copy) :
    Takes s (.store t op (X.apply op copy).1)
      { s.advance t (.stored (X.apply op copy).1) with shared := (X.apply op copy).2 }
  | unlock {t : T} {result : R} (h : s.phase t = .stored result) :
    Takes s (.unlock t) { s.advance t (.unlocked result) with holder := none }
  | ret {t : T} {result : R} (h : s.phase t = .unlocked result) :
    Takes s (.ret t result) (s.advance t .idle)

/-- The threads and their object; at first nothing has been called. -/
def system (T : Type) [DecidableEq T] : System (State T σ O R) (Step T O R) where
  init := fun s ↦ s = ⟨X.start, none, fun _ ↦ .idle⟩
  step := X.Takes

/-- One operation after the other, with these results, leads from the first state to the second. -/
def Legal : σ → List (T × O × R) → σ → Prop
  | s, [], s' => s = s'
  | s, (_, op, result) :: l, s' =>
    (X.apply op s).1 = result ∧ Legal (X.apply op s).2 l s'

variable {X} {s s' : State T σ O R} {a : Step T O R} {tr : List (Step T O R)}

omit [DecidableEq T] in
theorem Legal.concat {x y : σ} {l : List (T × O × R)} (h : X.Legal x l y) (t : T) (op : O) :
    X.Legal x (l ++ [(t, op, (X.apply op y).1)]) (X.apply op y).2 := by
  induction l generalizing x with
  | nil =>
    obtain rfl : x = y := h
    exact ⟨rfl, rfl⟩
  | cons e l ih => exact ⟨h.1, ih h.2⟩

/-- The lock keeps the copies good, and what has taken effect accounts for the shared state and for
what the threads have called and got back. -/
structure Consistent (X : Object σ O R) (tr : List (Step T O R)) (s : State T σ O R) : Prop where
  holder_iff : ∀ t, s.holder = some t ↔ (s.phase t).Inside
  copy_eq : ∀ t op copy, s.phase t = .loaded op copy → copy = s.shared
  legal : X.Legal X.start (tr.filterMap Step.effect) s.shared
  accounts : ∀ t,
    tr.filterMap (Step.calledBy t) =
        (tr.filterMap (Step.effectOf t)).map Prod.fst ++ (s.phase t).unapplied.toList ∧
      (tr.filterMap (Step.effectOf t)).map Prod.snd =
        tr.filterMap (Step.returnedTo t) ++ (s.phase t).unreturned.toList

/-- **Accounting**: what a step adds to the calls, effects and returns of its thread has to match
what it changes in how far that thread is. -/
theorem Consistent.account (h : Consistent X tr s) {p : Phase σ O R}
    (hphase : s'.phase = (s.advance a.thread p).phase)
    (hcalled : (s.phase a.thread).unapplied.toList ++ (a.calledBy a.thread).toList =
      (a.effectOf a.thread).toList.map Prod.fst ++ p.unapplied.toList)
    (hreturned : (s.phase a.thread).unreturned.toList ++
        (a.effectOf a.thread).toList.map Prod.snd =
      (a.returnedTo a.thread).toList ++ p.unreturned.toList) (t : T) :
    (tr ++ [a]).filterMap (Step.calledBy t) =
        ((tr ++ [a]).filterMap (Step.effectOf t)).map Prod.fst ++
          (s'.phase t).unapplied.toList ∧
      ((tr ++ [a]).filterMap (Step.effectOf t)).map Prod.snd =
        (tr ++ [a]).filterMap (Step.returnedTo t) ++ (s'.phase t).unreturned.toList := by
  obtain ⟨hcalls, hreturns⟩ := h.accounts t
  rw [hphase, filterMap_concat, filterMap_concat, filterMap_concat, List.map_append,
    List.map_append, hcalls, hreturns]
  by_cases ht : t = a.thread
  · subst ht
    rw [State.phase_advance_self, List.append_assoc, List.append_assoc, List.append_assoc,
      List.append_assoc, hcalled, hreturned]
    exact ⟨rfl, rfl⟩
  · obtain ⟨hnone, hnone', hnone''⟩ := Step.none_of_ne (Ne.symm ht)
    rw [State.phase_advance_of_ne ht, hnone, hnone', hnone'']
    simp

/-- Another thread that is inside is the holder, and nobody else is. -/
theorem Consistent.not_inside (h : Consistent X tr s) {t u : T} (hu : u ≠ t)
    (ht : (s.phase t).Inside) : ¬ (s.phase u).Inside := by
  intro hinside
  have hholder := (h.holder_iff t).mpr ht
  rw [(h.holder_iff u).mpr hinside, Option.some_inj] at hholder
  exact hu hholder

theorem Consistent.holder_of_same (h : Consistent X tr s) {t : T} {p : Phase σ O R}
    (hsame : p.Inside ↔ (s.phase t).Inside) (u : T) :
    s.holder = some u ↔ ((s.advance t p).phase u).Inside := by
  by_cases hu : u = t
  · subst hu
    rw [State.phase_advance_self, hsame]
    exact h.holder_iff u
  · rw [State.phase_advance_of_ne hu]
    exact h.holder_iff u

theorem Consistent.copy_of_same (h : Consistent X tr s) {t : T} {p : Phase σ O R}
    (hp : ∀ op copy, p = .loaded op copy → copy = s.shared) (u : T) (op : O) (copy : σ)
    (hcopy : (s.advance t p).phase u = .loaded op copy) : copy = s.shared := by
  by_cases hu : u = t
  · subst hu
    rw [State.phase_advance_self] at hcopy
    exact hp op copy hcopy
  · rw [State.phase_advance_of_ne hu] at hcopy
    exact h.copy_eq u op copy hcopy

omit [DecidableEq T] in
theorem Legal.of_effect_none (h : X.Legal X.start (tr.filterMap Step.effect) s.shared)
    (heffect : a.effect = none) :
    X.Legal X.start ((tr ++ [a]).filterMap Step.effect) s.shared := by
  rwa [filterMap_concat, heffect, Option.toList_none, List.append_nil]

/-- **One step** keeps everything consistent. -/
theorem Consistent.step (h : Consistent X tr s) (htakes : X.Takes s a s') :
    Consistent X (tr ++ [a]) s' := by
  cases htakes with
  | call t op hidle =>
    refine ⟨h.holder_of_same ?_, h.copy_of_same fun _ _ ↦ nofun,
      Legal.of_effect_none h.legal rfl, h.account rfl ?_ ?_⟩
    · rw [hidle]
      exact Iff.rfl
    all_goals simp [hidle, Step.thread, Step.calledBy, Step.effectOf, Step.effect, Step.returnedTo,
      Phase.unapplied, Phase.unreturned]
  | @lock t op hwaiting hfree =>
    refine ⟨fun u ↦ ?_, h.copy_of_same fun _ _ ↦ nofun,
      Legal.of_effect_none h.legal rfl, h.account rfl ?_ ?_⟩
    · by_cases hu : u = t
      · subst hu
        exact iff_of_true rfl (by rw [State.phase_advance_self]; trivial)
      · -- nobody had the lock before
        have hout : ¬ (s.phase u).Inside := by
          rw [← h.holder_iff, hfree]
          exact nofun
        refine iff_of_false (fun heq ↦ hu (Option.some_inj.mp heq).symm) ?_
        rwa [State.phase_advance_of_ne hu]
    all_goals simp [hwaiting, Step.thread, Step.calledBy, Step.effectOf, Step.effect,
      Step.returnedTo, Phase.unapplied, Phase.unreturned]
  | @load t op hlocked =>
    refine ⟨h.holder_of_same ?_, h.copy_of_same fun _ _ hp ↦ (Phase.loaded.inj hp).2.symm,
      Legal.of_effect_none h.legal rfl, h.account rfl ?_ ?_⟩
    · rw [hlocked]
      exact Iff.rfl
    all_goals simp [hlocked, Step.thread, Step.calledBy, Step.effectOf, Step.effect,
      Step.returnedTo, Phase.unapplied, Phase.unreturned]
  | @store t op copy hloaded =>
    have hinside : (s.phase t).Inside := by
      rw [hloaded]
      trivial
    refine ⟨h.holder_of_same (iff_of_true trivial hinside), fun u op' copy' hcopy ↦ ?_, ?_,
      h.account rfl ?_ ?_⟩
    · -- nobody else has a copy that could be out of date now
      by_cases hu : u = t
      · subst hu
        rw [State.phase_advance_self] at hcopy
        cases hcopy
      · rw [State.phase_advance_of_ne hu] at hcopy
        refine absurd ?_ (h.not_inside hu hinside)
        rw [hcopy]
        trivial
    · obtain rfl := h.copy_eq t op copy hloaded
      rw [filterMap_concat]
      exact h.legal.concat t op
    all_goals simp [hloaded, Step.thread, Step.calledBy, Step.effectOf, Step.effect,
      Step.returnedTo, Phase.unapplied, Phase.unreturned]
  | @unlock t result hstored =>
    have hinside : (s.phase t).Inside := by
      rw [hstored]
      trivial
    refine ⟨fun u ↦ ?_, h.copy_of_same fun _ _ ↦ nofun,
      Legal.of_effect_none h.legal rfl, h.account rfl ?_ ?_⟩
    · refine iff_of_false nofun ?_
      by_cases hu : u = t
      · subst hu
        rw [State.phase_advance_self]
        exact not_false
      · rw [State.phase_advance_of_ne hu]
        exact h.not_inside hu hinside
    all_goals simp [hstored, Step.thread, Step.calledBy, Step.effectOf, Step.effect,
      Step.returnedTo, Phase.unapplied, Phase.unreturned]
  | @ret t result hunlocked =>
    refine ⟨h.holder_of_same ?_, h.copy_of_same fun _ _ ↦ nofun,
      Legal.of_effect_none h.legal rfl, h.account rfl ?_ ?_⟩
    · rw [hunlocked]
      exact Iff.rfl
    all_goals simp [hunlocked, Step.thread, Step.calledBy, Step.effectOf, Step.effect,
      Step.returnedTo, Phase.unapplied, Phase.unreturned]

/-- **Every interleaving** has the operations take effect one after the other, each between its call
and its return, with the results that are returned. -/
theorem consistent_of_run (run : (X.system T).Run tr s) : Consistent X tr s := by
  refine run.invariant (I := Consistent X) ?_ fun tr s a s' _ h hstep ↦ h.step hstep
  rintro _ rfl
  exact ⟨fun t ↦ iff_of_false nofun not_false, fun t op copy ↦ nofun, rfl,
    fun _ ↦ ⟨rfl, rfl⟩⟩

/-- **No deadlock**: while some thread is on its way, one of those can go on. -/
theorem Consistent.exists_step (h : Consistent X tr s) {t : T} (ht : s.phase t ≠ .idle) :
    ∃ a s', X.Takes s a s' ∧ s.phase a.thread ≠ .idle := by
  rcases hholder : s.holder with _ | u
  · -- the lock is free, so the thread is waiting for it or done with it
    have hout : ¬ (s.phase t).Inside := by
      rw [← h.holder_iff, hholder]
      exact nofun
    rcases hphase : s.phase t with _ | op | op | ⟨op, copy⟩ | result | result
    · exact absurd hphase ht
    · exact ⟨_, _, .lock hphase hholder, ht⟩
    · exact absurd (show (s.phase t).Inside by rw [hphase]; trivial) hout
    · exact absurd (show (s.phase t).Inside by rw [hphase]; trivial) hout
    · exact absurd (show (s.phase t).Inside by rw [hphase]; trivial) hout
    · exact ⟨_, _, .ret hphase, ht⟩
  · have hin := (h.holder_iff u).mp hholder
    rcases hphase : s.phase u with _ | op | op | ⟨op, copy⟩ | result | result
    · exact (hphase ▸ hin : Phase.Inside .idle).elim
    · exact (hphase ▸ hin : Phase.Inside (.waiting op)).elim
    · exact ⟨_, _, .load hphase, fun hidle ↦ by cases hphase.symm.trans hidle⟩
    · exact ⟨_, _, .store hphase, fun hidle ↦ by cases hphase.symm.trans hidle⟩
    · exact ⟨_, _, .unlock hphase, fun hidle ↦ by cases hphase.symm.trans hidle⟩
    · exact (hphase ▸ hin : Phase.Inside (.unlocked result)).elim

end Object

end Concurrency
