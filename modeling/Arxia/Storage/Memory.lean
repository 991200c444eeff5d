import Arxia.Rust.Outcome
import Arxia.Rust.Collections
import Arxia.Lists.Overlay
import Arxia.Core.Error

/-!
# The in-memory store

A `MemoryStorage` is a hash map from byte strings to byte strings behind the four operations of
`StorageBackend`, none of which can fail. A `MemoryTransaction` borrows it and stages its writes, at
most one for each key, in a hash map of its own. Reads look there first. `commit` empties that map
into the store in whatever order its iterator takes; `rollback`, and a drop without either, hand the
store back as it was borrowed.
-/

open Rust

namespace Arxia

/-- `MemoryStorage`. -/
structure MemoryStorage where
  data : HashMap (List UInt8) (List UInt8)

namespace MemoryStorage

def put (key value : List UInt8) : Call MemoryStorage ArxiaError Unit :=
  modify fun s ↦ { s with data := s.data.insert key value }

def get (s : MemoryStorage) (key : List UInt8) : Except ArxiaError (Option (List UInt8)) :=
  .ok (s.data.lookup key)

def delete (key : List UInt8) : Call MemoryStorage ArxiaError Bool := do
  let s ← MonadState.get
  set { s with data := s.data.erase key }
  pure (s.data.lookup key).isSome

def contains (s : MemoryStorage) (key : List UInt8) : Except ArxiaError Bool :=
  .ok (decide (key ∈ s.data))

/-- What is stored under each key. -/
def contents (s : MemoryStorage) (key : List UInt8) : Option (List UInt8) := s.data.lookup key

end MemoryStorage

/-- `StagedOp`. -/
inductive StagedOp
  | put (value : List UInt8)
  | delete
  deriving DecidableEq

/-- What the key holds once the operation is carried out. -/
def StagedOp.edit : StagedOp → Option (List UInt8)
  | put value => some value
  | delete => none

/-- `MemoryTransaction`, with the store it has borrowed. -/
structure MemoryTransaction where
  store : MemoryStorage
  staged : HashMap (List UInt8) StagedOp
  committed : Bool

namespace MemoryTransaction

def put (key value : List UInt8) : Call MemoryTransaction ArxiaError Unit :=
  modify fun t ↦ { t with staged := t.staged.insert key (.put value) }

def get (t : MemoryTransaction) (key : List UInt8) : Except ArxiaError (Option (List UInt8)) :=
  match t.staged.lookup key with
  | some (.put value) => .ok (some value)
  | some .delete => .ok none
  | none => t.store.get key

def contains (t : MemoryTransaction) (key : List UInt8) : Except ArxiaError Bool :=
  match t.staged.lookup key with
  | some (.put _) => .ok true
  | some .delete => .ok false
  | none => t.store.contains key

def delete (key : List UInt8) : Call MemoryTransaction ArxiaError Bool := do
  let t ← MonadState.get
  let existsInView ← Call.ofExcept (t.contains key)
  set { t with staged := t.staged.insert key .delete }
  pure existsInView

/-- One round of the loop of `commit`. -/
def drain (s : MemoryStorage) (key : List UInt8) : StagedOp → MemoryStorage
  | .put value => { s with data := s.data.insert key value }
  | .delete => { s with data := s.data.erase key }

/-- `commit`: the result, and the store when the borrow ends. -/
def commit (o : IterOrder (List UInt8) StagedOp) (t : MemoryTransaction) :
    Except ArxiaError Unit × MemoryStorage :=
  (.ok (), (o.arrange t.staged.entries).foldl (fun s e ↦ drain s e.1 e.2) t.store)

/-- A transaction that goes out of scope: it has no `Drop`, so only the borrow ends. -/
def drop (t : MemoryTransaction) : MemoryStorage := t.store

/-- `rollback`. -/
def rollback (t : MemoryTransaction) : MemoryStorage := t.drop

/-- What is staged for each key. -/
def pending (t : MemoryTransaction) (key : List UInt8) : Option (Option (List UInt8)) :=
  (t.staged.lookup key).map StagedOp.edit

/-- What a read sees under each key. -/
def contents (t : MemoryTransaction) : List UInt8 → Option (List UInt8) :=
  Lists.view t.pending t.store.contents

end MemoryTransaction

/-- `AsRef<[u8]>`. -/
class AsRef (α : Type) where
  asRef : α → List UInt8

namespace MemoryStorage

/-- `begin_transaction`. -/
def beginTransaction (s : MemoryStorage) : MemoryTransaction := ⟨s, ∅, false⟩

/-- The loop of `atomic_put_batch`. -/
def stageAll {K V : Type} [AsRef K] [AsRef V] :
    List (K × V) → Call MemoryTransaction ArxiaError Unit
  | [] => pure ()
  | (k, v) :: items => do
    MemoryTransaction.put (AsRef.asRef k) (AsRef.asRef v)
    stageAll items

/-- `atomic_put_batch`: an error of the loop drops the transaction. -/
def atomicPutBatch {K V : Type} [AsRef K] [AsRef V] (o : IterOrder (List UInt8) StagedOp)
    (s : MemoryStorage) (items : List (K × V)) :
    Option (Except ArxiaError Unit × MemoryStorage) := do
  match ← Call.exec (stageAll items) s.beginTransaction with
  | (.ok (), txn) => some (txn.commit o)
  | (.error e, txn) => some (.error e, txn.drop)

end MemoryStorage

end Arxia
