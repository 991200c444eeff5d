import Arxia.Concurrency.Mutex
import Arxia.Storage.Transaction

/-!
# The thread-safe store

Each method of `ConcurrentMemoryStorage` locks the map, does to it what the method of the same name
does to a `MemoryStorage`, and unlocks it when its guard goes out of scope. No critical section
panics, so the lock is never poisoned and the error of `lock` is never seen.

So whatever threads share the store, its calls have one order, in which each stands between the call
and its return, and in which a store that one thread has for itself would have returned the same.
-/

namespace Arxia

open Rust Transition Concurrency

namespace ConcurrentMemoryStorage

/-- What the mutex protects. -/
abbrev Data := HashMap (List UInt8) (List UInt8)

/-! ## Critical sections -/

def put (key value : List UInt8) (data : Data) : Except ArxiaError Unit × Data :=
  (.ok (), data.insert key value)

def get (key : List UInt8) (data : Data) : Except ArxiaError (Option (List UInt8)) × Data :=
  (.ok (data.lookup key), data)

def delete (key : List UInt8) (data : Data) : Except ArxiaError Bool × Data :=
  (.ok (data.lookup key).isSome, data.erase key)

def contains (key : List UInt8) (data : Data) : Except ArxiaError Bool × Data :=
  (.ok (decide (key ∈ data)), data)

def len (data : Data) : Except ArxiaError ℕ × Data := (.ok data.entries.length, data)

def isEmpty (data : Data) : Except ArxiaError Bool × Data :=
  let out := len data
  (out.1.map (· == 0), out.2)

/-- A call: one that any store has, or one of the two that only this one has. -/
inductive Op
  | request (r : Request)
  | len
  | isEmpty

/-- What it returns. -/
inductive Returned
  | answer (a : Answer)
  | len (count : ℕ)
  | isEmpty (empty : Bool)
  deriving DecidableEq

/-- What a call does once it has the lock. -/
def apply (op : Op) (data : Data) : Except ArxiaError Returned × Data :=
  match op with
  | .request (.put key value) => let out := put key value data
    (out.1.map fun _ ↦ .answer .put, out.2)
  | .request (.delete key) => let out := delete key data
    (out.1.map fun existed ↦ .answer (.delete existed), out.2)
  | .request (.get key) => let out := get key data
    (out.1.map fun value ↦ .answer (.get value), out.2)
  | .request (.contains key) => let out := contains key data
    (out.1.map fun present ↦ .answer (.contains present), out.2)
  | .len => let out := len data
    (out.1.map .len, out.2)
  | .isEmpty => let out := isEmpty data
    (out.1.map .isEmpty, out.2)

/-- The store as an object behind its mutex. -/
def object : Object Data Op (Except ArxiaError Returned) where
  start := ∅
  apply := apply

/-! ## One thread with a store of its own -/

/-- What a `MemoryStorage` returns to the call, and what is left of it. -/
def Serves (s : MemoryStorage) : Op → Except ArxiaError Returned → MemoryStorage → Prop
  | .request r, result, s' =>
    ∃ a, (MemoryStorage.serve r).exec s = some (.ok a, s') ∧ result = .ok (.answer a)
  | .len, result, s' => result = .ok (.len s.data.entries.length) ∧ s' = s
  | .isEmpty, result, s' => result = .ok (.isEmpty (s.data.entries.length == 0)) ∧ s' = s

/-- The calls, one after the other, return this. -/
def Replays {T : Type} : MemoryStorage → List (T × Op × Except ArxiaError Returned) →
    MemoryStorage → Prop
  | s, [], s' => s = s'
  | s, (_, op, result) :: l, s' => ∃ m, Serves s op result m ∧ Replays m l s'

/-- What a call writes. -/
def Op.effect (m : List UInt8 → Option (List UInt8)) : Op → List UInt8 → Option (List UInt8)
  | .request r => r.effect m
  | .len | .isEmpty => m

variable {T : Type} {s s' : MemoryStorage} {op : Op} {result : Except ArxiaError Returned}

/-- **The methods mirror those of `MemoryStorage`.** -/
theorem serves_apply (op : Op) (data : Data) :
    Serves ⟨data⟩ op (apply op data).1 ⟨(apply op data).2⟩ := by
  rcases op with (⟨key, value⟩ | key | key | key) | _ | _
  · exact ⟨_, rfl, rfl⟩
  · exact ⟨_, rfl, rfl⟩
  · exact ⟨_, rfl, rfl⟩
  · exact ⟨_, rfl, rfl⟩
  · exact ⟨rfl, rfl⟩
  · exact ⟨rfl, rfl⟩

theorem Serves.contents (h : Serves s op result s') : s'.contents = op.effect s.contents := by
  rcases op with r | _ | _
  · obtain ⟨a, hexec, -⟩ := h
    obtain ⟨m, hexec', hcontents⟩ := MemoryStorage.exists_serve r s
    obtain ⟨-, rfl⟩ := Prod.mk.inj (Option.some_inj.mp (hexec.symm.trans hexec'))
    exact hcontents
  · exact h.2 ▸ rfl
  · exact h.2 ▸ rfl

theorem replays_of_legal {data data' : Data} {l : List (T × Op × Except ArxiaError Returned)}
    (h : object.Legal data l data') : Replays ⟨data⟩ l ⟨data'⟩ := by
  induction l generalizing data with
  | nil => exact congrArg MemoryStorage.mk h
  | cons e l ih => exact ⟨_, h.1 ▸ serves_apply e.2.1 data, ih h.2⟩

theorem Replays.contents {l : List (T × Op × Except ArxiaError Returned)} (h : Replays s l s') :
    s'.contents = (l.map fun e ↦ e.2.1).foldl Op.effect s.contents := by
  induction l generalizing s with
  | nil => exact congrArg MemoryStorage.contents (Eq.symm h)
  | cons e l ih =>
    obtain ⟨m, hserves, hrest⟩ := h
    rw [ih hrest, hserves.contents]
    rfl

variable [DecidableEq T] {tr : List (Step T Op (Except ArxiaError Returned))}
  {st : State T Data Op (Except ArxiaError Returned)}

/-- **Threads that share the store** see its calls happen one after the other: there is an order of
those that have taken effect in which a `MemoryStorage` would return the same. Each of them stands
there after it was called and before it returned, what is stored is what they have written, and no
call is stuck. -/
theorem linearizable_of_run (run : (object.system T).Run tr st) :
    Replays ⟨∅⟩ (tr.filterMap Step.effect) ⟨st.shared⟩ ∧
      (∀ t, tr.filterMap (Step.calledBy t) =
          (tr.filterMap (Step.effectOf t)).map Prod.fst ++ (st.phase t).unapplied.toList ∧
        (tr.filterMap (Step.effectOf t)).map Prod.snd =
          tr.filterMap (Step.returnedTo t) ++ (st.phase t).unreturned.toList) ∧
      (∀ key, st.shared.lookup key =
        ((tr.filterMap Step.effect).map fun e ↦ e.2.1).foldl Op.effect (fun _ ↦ none) key) ∧
      ((∃ t, st.phase t ≠ .idle) →
        ∃ a st', object.Takes st a st' ∧ st.phase a.thread ≠ .idle) := by
  have h := Object.consistent_of_run run
  have hreplays := replays_of_legal h.legal
  refine ⟨hreplays, h.accounts, fun key ↦ ?_, fun ⟨t, ht⟩ ↦ h.exists_step ht⟩
  exact congrFun hreplays.contents key

/-- Two threads put one key each; the second is called before the first has the lock. -/
theorem linearizable_of_run_two : ∃ tr st, (object.system Bool).Run tr st ∧
    tr.filterMap (Step.calledBy false) = [.request (.put [1] [10])] ∧
      Replays ⟨∅⟩ (tr.filterMap Step.effect) ⟨st.shared⟩ :=
  have run : (object.system Bool).Run _ _ := .step (.step (.step (.step (.step (.start rfl)
    (.call false (.request (.put [1] [10])) rfl)) (.call true (.request (.put [2] [20])) rfl))
    (.lock (t := false) rfl rfl)) (.load (t := false) rfl)) (.store (t := false) rfl)
  ⟨_, _, run, rfl, (linearizable_of_run run).1⟩

end ConcurrentMemoryStorage

end Arxia
