import Arxia.Storage.Memory
import Arxia.Rust.Counters

/-!
# Transactions and direct writes

To a caller a store and a transaction are the same thing: a map from keys to values with four
requests. `Request.answer` and `Request.effect` say what they do to the map, and the store and the
transaction both do it, the store to what it holds, the transaction to what it shows. So both answer
every sequence of requests alike, and what the transaction shows in the end is what the store would
hold. Committing stores it.
-/

open Rust

namespace Arxia

/-- A call on a store or on a transaction. -/
inductive Request
  | put (key value : List UInt8)
  | delete (key : List UInt8)
  | get (key : List UInt8)
  | contains (key : List UInt8)

/-- What it returns. -/
inductive Answer
  | put
  | delete (existed : Bool)
  | get (value : Option (List UInt8))
  | contains (present : Bool)
  deriving DecidableEq

namespace Request

/-- What the request does to a map. -/
def effect (m : List UInt8 → Option (List UInt8)) : Request → List UInt8 → Option (List UInt8)
  | put key value => Function.update m key (some value)
  | delete key => Function.update m key none
  | get _ => m
  | contains _ => m

/-- What it says about the map. -/
def answer (m : List UInt8 → Option (List UInt8)) : Request → Answer
  | put _ _ => .put
  | delete key => .delete (m key).isSome
  | get key => .get (m key)
  | contains key => .contains (m key).isSome

end Request

/-! ## The store -/

namespace MemoryStorage

/-- The request as a call on the store. -/
def serve : Request → Call MemoryStorage ArxiaError Answer
  | .put key value => do
    put key value
    pure .put
  | .delete key => do
    let existed ← delete key
    pure (.delete existed)
  | .get key => do
    let s ← MonadState.get
    let value ← Call.ofExcept (s.get key)
    pure (.get value)
  | .contains key => do
    let s ← MonadState.get
    let present ← Call.ofExcept (s.contains key)
    pure (.contains present)

theorem contents_insert (s : MemoryStorage) (key value : List UInt8) :
    contents { s with data := s.data.insert key value } =
      Function.update s.contents key (some value) := by
  funext key'
  rw [contents]
  by_cases h : key' = key
  · subst h
    rw [AList.lookup_insert, Function.update_self]
  · rw [AList.lookup_insert_ne h, Function.update_of_ne h, contents]

theorem contents_erase (s : MemoryStorage) (key : List UInt8) :
    contents { s with data := s.data.erase key } = Function.update s.contents key none := by
  funext key'
  rw [contents]
  by_cases h : key' = key
  · subst h
    rw [AList.lookup_erase, Function.update_self]
  · rw [AList.lookup_erase_ne h, Function.update_of_ne h, contents]

theorem contains_eq (s : MemoryStorage) (key : List UInt8) :
    s.contains key = .ok (s.contents key).isSome := by
  rw [contains, contents]
  congr 1
  rw [Bool.eq_iff_iff, decide_eq_true_iff, AList.lookup_isSome]

/-- **The store does what is asked to what it holds.** -/
theorem exists_serve (r : Request) (s : MemoryStorage) :
    ∃ s', (serve r).exec s = some (.ok (r.answer s.contents), s') ∧
      s'.contents = r.effect s.contents := by
  cases r with
  | put key value => exact ⟨_, rfl, contents_insert s key value⟩
  | delete key => exact ⟨_, rfl, contents_erase s key⟩
  | get key => exact ⟨s, rfl, rfl⟩
  | contains key =>
    refine ⟨s, ?_, rfl⟩
    rw [serve, Call.exec_bind_ok (Call.exec_get s), Call.exec_check_ok (contains_eq s key)]
    rfl

/-- Stores that hold the same are equal. -/
theorem same_of_contents {s s' : MemoryStorage} (h : s.contents = s'.contents) :
    s.data.same s'.data = true :=
  HashMap.same_iff.mpr fun key ↦ congrFun h key

end MemoryStorage

/-! ## The transaction -/

namespace MemoryTransaction

/-- The request as a call on the transaction. -/
def serve : Request → Call MemoryTransaction ArxiaError Answer
  | .put key value => do
    put key value
    pure .put
  | .delete key => do
    let existed ← delete key
    pure (.delete existed)
  | .get key => do
    let t ← MonadState.get
    let value ← Call.ofExcept (t.get key)
    pure (.get value)
  | .contains key => do
    let t ← MonadState.get
    let present ← Call.ofExcept (t.contains key)
    pure (.contains present)

theorem contents_stage (t : MemoryTransaction) (key : List UInt8) (op : StagedOp) :
    contents { t with staged := t.staged.insert key op } =
      Function.update t.contents key op.edit := by
  rw [contents, contents, ← Lists.view_update]
  congr 1
  funext key'
  rw [pending]
  by_cases h : key' = key
  · subst h
    rw [AList.lookup_insert, Function.update_self, Option.map_some]
  · rw [AList.lookup_insert_ne h, Function.update_of_ne h, pending]

theorem get_eq (t : MemoryTransaction) (key : List UInt8) : t.get key = .ok (t.contents key) := by
  rw [get, contents, Lists.view, pending]
  rcases t.staged.lookup key with _ | value | _ <;> rfl

theorem contains_eq (t : MemoryTransaction) (key : List UInt8) :
    t.contains key = .ok (t.contents key).isSome := by
  rw [contains, contents, Lists.view, pending]
  rcases t.staged.lookup key with _ | value | _
  · exact MemoryStorage.contains_eq t.store key
  · rfl
  · rfl

/-- **The transaction does what is asked to what it shows**, and nothing to the store. -/
theorem exists_serve (r : Request) (t : MemoryTransaction) :
    ∃ t', (serve r).exec t = some (.ok (r.answer t.contents), t') ∧
      t'.contents = r.effect t.contents ∧ t'.store = t.store := by
  cases r with
  | put key value => exact ⟨_, rfl, contents_stage t key (.put value), rfl⟩
  | delete key =>
    refine ⟨{ t with staged := t.staged.insert key .delete }, ?_, contents_stage t key .delete, rfl⟩
    rw [serve, delete, Call.exec_bind, Call.exec_bind_ok (Call.exec_get t),
      Call.exec_check_ok (contains_eq t key)]
    rfl
  | get key =>
    refine ⟨t, ?_, rfl, rfl⟩
    rw [serve, Call.exec_bind_ok (Call.exec_get t), Call.exec_check_ok (get_eq t key)]
    rfl
  | contains key =>
    refine ⟨t, ?_, rfl, rfl⟩
    rw [serve, Call.exec_bind_ok (Call.exec_get t), Call.exec_check_ok (contains_eq t key)]
    rfl

/-- The transaction shows what the copy holds, and has left the store as it was. -/
structure Mirrors (s : MemoryStorage) (t : MemoryTransaction) (copy : MemoryStorage) : Prop where
  contents : t.contents = copy.contents
  store : t.store = s

/-- **Both answer a request alike.** -/
theorem Mirrors.exists_serve {s : MemoryStorage} (r : Request) (t : MemoryTransaction)
    (copy : MemoryStorage) (h : Mirrors s t copy) :
    ∃ answer t' copy', (serve r).exec t = some (answer, t') ∧
      (MemoryStorage.serve r).exec copy = some (answer, copy') ∧ Mirrors s t' copy' := by
  obtain ⟨t', ht, hcontents, hstore⟩ := MemoryTransaction.exists_serve r t
  obtain ⟨copy', hcopy, hcontents'⟩ := MemoryStorage.exists_serve r copy
  rw [h.contents] at ht hcontents
  exact ⟨_, t', copy', ht, hcopy, hcontents.trans hcontents'.symm, hstore.trans h.store⟩

/-! ### Committing -/

theorem contents_drain (s : MemoryStorage) (key : List UInt8) (op : StagedOp) :
    (drain s key op).contents = Function.update s.contents key op.edit := by
  cases op with
  | put value => exact s.contents_insert key value
  | delete => exact s.contents_erase key

theorem contents_foldl_drain (l : List (Σ _ : List UInt8, StagedOp)) (s : MemoryStorage) :
    (l.foldl (fun s e ↦ drain s e.1 e.2) s).contents =
      Lists.carryOut (l.map fun e ↦ (e.1, e.2.edit)) s.contents := by
  induction l generalizing s with
  | nil => rfl
  | cons e l ih =>
    rw [List.foldl_cons, ih, contents_drain]
    rfl

/-- **Committing stores what the transaction shows**, in whatever order the staging map goes. -/
theorem contents_commit (o : IterOrder (List UInt8) StagedOp) (t : MemoryTransaction) :
    (t.commit o).2.contents = t.contents := by
  rw [commit, contents_foldl_drain]
  refine Lists.carryOut_eq_view fun key e ↦ ?_
  rw [List.mem_map, pending, Option.map_eq_some_iff]
  constructor
  · rintro ⟨⟨key', op⟩, hmem, heq⟩
    obtain ⟨rfl, rfl⟩ := Prod.mk.inj heq
    exact ⟨op, AList.mem_lookup_iff.mpr ((o.arrange_perm _).mem_iff.mp hmem), rfl⟩
  · rintro ⟨op, hop, rfl⟩
    exact ⟨⟨key, op⟩, (o.arrange_perm _).mem_iff.mpr (AList.mem_lookup_iff.mp hop), rfl⟩

end MemoryTransaction

/-! ## Batches -/

section Batches

variable {K V : Type} [AsRef K] [AsRef V]

/-- The puts of a batch, as edits. -/
def putEdits (items : List (K × V)) : List (List UInt8 × Option (List UInt8)) :=
  items.map fun kv ↦ (AsRef.asRef kv.1, some (AsRef.asRef kv.2))

namespace MemoryStorage

/-- One pair of a batch, as a put on the store. -/
def putPair (kv : K × V) : Call MemoryStorage ArxiaError Unit :=
  put (AsRef.asRef kv.1) (AsRef.asRef kv.2)

theorem exists_putAll (items : List (K × V)) (s : MemoryStorage) :
    ∃ s', Call.serveAll putPair items s = some (List.replicate items.length (.ok ()), s') ∧
      s'.contents = Lists.carryOut (putEdits items) s.contents := by
  induction items generalizing s with
  | nil => exact ⟨s, rfl, rfl⟩
  | cons kv items ih =>
    obtain ⟨s', hrest, hcontents⟩ :=
      ih { s with data := s.data.insert (AsRef.asRef kv.1) (AsRef.asRef kv.2) }
    refine ⟨s', Call.serveAll_cons (Call.exec_modify _ s) hrest, ?_⟩
    rw [hcontents, contents_insert]
    rfl

theorem exists_stageAll (items : List (K × V)) (t : MemoryTransaction) :
    ∃ t', (stageAll items).exec t = some (.ok (), t') ∧
      t'.contents = Lists.carryOut (putEdits items) t.contents := by
  induction items generalizing t with
  | nil => exact ⟨t, rfl, rfl⟩
  | cons kv items ih =>
    obtain ⟨t', hrest, hcontents⟩ :=
      ih { t with staged := t.staged.insert (AsRef.asRef kv.1) (.put (AsRef.asRef kv.2)) }
    refine ⟨t', ?_, ?_⟩
    · rw [stageAll, MemoryTransaction.put, Call.exec_bind_ok (Call.exec_modify _ t)]
      exact hrest
    · rw [hcontents, MemoryTransaction.contents_stage]
      rfl

/-- **A batch** stores its pairs. -/
theorem exists_atomicPutBatch (o : IterOrder (List UInt8) StagedOp) (items : List (K × V))
    (s : MemoryStorage) :
    ∃ s', s.atomicPutBatch o items = some (.ok (), s') ∧
      s'.contents = Lists.carryOut (putEdits items) s.contents := by
  obtain ⟨t, hstage, hcontents⟩ := exists_stageAll items s.beginTransaction
  refine ⟨(t.commit o).2, ?_, ?_⟩
  · rw [atomicPutBatch, hstage]
    rfl
  · rw [MemoryTransaction.contents_commit, hcontents]
    rfl

end MemoryStorage

/-- Under each key, the last pair with that key. -/
theorem carryOut_putEdits (items : List (K × V)) (m : List UInt8 → Option (List UInt8))
    (key : List UInt8) :
    Lists.carryOut (putEdits items) m key =
      ((items.reverse.find? fun kv ↦ AsRef.asRef kv.1 = key).map fun kv ↦ AsRef.asRef kv.2).or
        (m key) := by
  rw [Lists.carryOut_eq_last, putEdits, ← List.map_reverse, List.find?_map, Function.comp_def]
  cases items.reverse.find? fun kv ↦ AsRef.asRef kv.1 = key <;> rfl

end Batches

/-- **Transactions are equivalent to direct writes.** A transaction on any store answers every
sequence of requests as a copy of the store does that is written directly. Committed, with the
staging map drained in any order, it leaves the store equal to that copy; rolled back or dropped, it
leaves the store as it was. A batch leaves what putting its pairs one after the other leaves, and
that is the last value given for each key. -/
theorem transaction_equiv_direct (o : IterOrder (List UInt8) StagedOp) (s : MemoryStorage) :
    (∀ rs : List Request, ∃ answers t copy,
      Call.serveAll MemoryTransaction.serve rs s.beginTransaction = some (answers, t) ∧
      Call.serveAll MemoryStorage.serve rs s = some (answers, copy) ∧
      (t.commit o).1 = .ok () ∧ (t.commit o).2.data.same copy.data = true ∧
      t.rollback = s ∧ t.drop = s) ∧
    ∀ (K V : Type) [AsRef K] [AsRef V] (items : List (K × V)), ∃ s' copy,
      s.atomicPutBatch o items = some (.ok (), s') ∧
      Call.serveAll MemoryStorage.putPair items s =
        some (List.replicate items.length (.ok ()), copy) ∧
      s'.data.same copy.data = true ∧
      ∀ key, s'.data.lookup key =
        ((items.reverse.find? fun kv ↦ AsRef.asRef kv.1 = key).map fun kv ↦ AsRef.asRef kv.2).or
          (s.data.lookup key) := by
  constructor
  · intro rs
    have hstart : MemoryTransaction.Mirrors s s.beginTransaction s := ⟨rfl, rfl⟩
    obtain ⟨answers, t, copy, ht, hcopy, h⟩ :=
      Call.exists_serveAll MemoryTransaction.Mirrors.exists_serve rs hstart
    refine ⟨answers, t, copy, ht, hcopy, rfl, ?_, h.store, h.store⟩
    exact MemoryStorage.same_of_contents ((t.contents_commit o).trans h.contents)
  · intro K V _ _ items
    obtain ⟨s', hbatch, hs'⟩ := MemoryStorage.exists_atomicPutBatch o items s
    obtain ⟨copy, hputs, hcopy⟩ := MemoryStorage.exists_putAll items s
    refine ⟨s', copy, hbatch, hputs, MemoryStorage.same_of_contents (hs'.trans hcopy.symm), ?_⟩
    intro key
    exact (congrFun hs' key).trans (carryOut_putEdits items s.contents key)

end Arxia
