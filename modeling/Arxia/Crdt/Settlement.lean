import Arxia.Crdt.Reconciliation
import Mathlib.Algebra.BigOperators.Ring.Finset
import Mathlib.Algebra.Order.BigOperators.Group.Finset
import Mathlib.Data.Finset.Sort

/-!
# What reconciliation settles

The purpose of `reconcile_partitions`, stated on a finite set of entries: of every account and nonce
the entry with the smallest hash wins, a winning Open at nonce 1 issues, a winning Send debits its
account, and a winning Receive credits its account with the Send it cites when that Send wins and
names the account. Nothing here has an order, so neither has the settlement.

An entry is what the code reads of a block: four of its fields.
-/

namespace Arxia

open Rust

/-- What reconciliation reads of a block. -/
structure Entry where
  account : String
  nonce : UInt64
  blockType : BlockType
  hash : String
  deriving DecidableEq

/-- The entry of a block. -/
def Block.entry (b : Block) : Entry := ⟨b.account, b.nonce, b.blockType, b.hash⟩

@[simp] theorem Block.account_entry (b : Block) : b.entry.account = b.account := rfl

@[simp] theorem Block.nonce_entry (b : Block) : b.entry.nonce = b.nonce := rfl

@[simp] theorem Block.blockType_entry (b : Block) : b.entry.blockType = b.blockType := rfl

@[simp] theorem Block.hash_entry (b : Block) : b.entry.hash = b.hash := rfl

namespace Entry

/-- The account and the nonce of an entry. -/
def key (e : Entry) : Reconciliation.Key := (e.account, e.nonce)

/-- The amount a Send takes from its account. -/
def sent (e : Entry) : ℕ :=
  match e.blockType with
  | .send _ amount => amount.toNat
  | _ => 0

/-- The amount an Open at nonce 1 brings into existence. -/
def issued (e : Entry) : ℕ :=
  match e.blockType with
  | .open initialBalance => if e.nonce = 1 then initialBalance.toNat else 0
  | _ => 0

/-- The account a Send names. -/
def destination (e : Entry) : Option String :=
  match e.blockType with
  | .send destination _ => some destination
  | _ => none

/-- `r` is a Receive citing the Send `s`, and `s` names the account of `r`. -/
def Credits (r s : Entry) : Prop :=
  r.blockType = .receive s.hash ∧ s.destination = some r.account

instance : DecidableRel Credits := fun _ _ ↦ inferInstanceAs (Decidable (_ ∧ _))

theorem destination_eq_some {e : Entry} {a : String} :
    e.destination = some a ↔ ∃ amount, e.blockType = .send a amount := by
  rw [destination]
  split
  · rename_i htype
    rw [htype]
    simp
  · rename_i hne
    refine iff_of_false (by simp) ?_
    rintro ⟨amount, htype⟩
    exact hne _ _ htype

theorem Credits.isSend {r s : Entry} (h : Credits r s) : s.blockType.isSend = true :=
  BlockType.isSend_iff.mpr ⟨_, destination_eq_some.mp h.2⟩

theorem sent_of_not_isSend {e : Entry} (h : e.blockType.isSend = false) : e.sent = 0 := by
  rw [sent]
  split
  · rename_i htype
    rw [htype] at h
    cases h
  · rfl

end Entry

namespace Settlement

open Entry Reconciliation

/-! ## Winners and conflicts -/

/-- Of each account and nonce, the entry with the smallest hash. -/
def winners (E : Finset Entry) : Finset Entry :=
  E.filter fun e ↦ ∀ c ∈ E, c.key = e.key → e.hash ≤ c.hash

theorem mem_winners {E : Finset Entry} {e : Entry} :
    e ∈ winners E ↔ e ∈ E ∧ ∀ c ∈ E, c.key = e.key → e.hash ≤ c.hash :=
  Finset.mem_filter

theorem winners_subset (E : Finset Entry) : winners E ⊆ E := Finset.filter_subset _ _

/-- Without rivals every entry wins. -/
theorem winners_eq_self {E : Finset Entry} (h : ∀ e ∈ E, ∀ c ∈ E, c.key = e.key → c = e) :
    winners E = E :=
  Finset.filter_true_of_mem fun e he c hc hkey ↦ (congrArg Entry.hash (h e he c hc hkey)).ge

/-- Hashes that identify entries leave one winner for each key. -/
theorem eq_of_key_eq {E : Finset Entry} (hinj : Set.InjOn Entry.hash E) {w w' : Entry}
    (hw : w ∈ winners E) (hw' : w' ∈ winners E) (h : w.key = w'.key) : w = w' := by
  rw [mem_winners] at hw hw'
  exact hinj hw.1 hw'.1 (le_antisymm (hw.2 w' hw'.1 h.symm) (hw'.2 w hw.1 h))

/-- The hashes that lost against the winner `w`, in ascending order. -/
def losers (E : Finset Entry) (w : Entry) : List String :=
  (((E.filter fun e ↦ e.key = w.key).image Entry.hash).erase w.hash).sort

/-- The conflict `w` won, if it had rivals. -/
def conflictOf (E : Finset Entry) (w : Entry) : Option ResolvedConflict :=
  if losers E w = [] then none
  else some {
    account := w.account, nonce := w.nonce, winnerHash := w.hash, loserHashes := losers E w
    method := "hash_tiebreaker" }

/-! ## Credits and debits -/

variable (W : Finset Entry)

/-- The amount a Receive brings: that of the Send it credits. -/
def received (e : Entry) : ℕ := ∑ s ∈ W with Credits e s, s.sent

/-- The amount an entry adds to its account. -/
def credit (e : Entry) : ℕ := e.issued + received W e

/-- Applying the entry opens the counter of its account. -/
def Touches (e : Entry) : Prop :=
  e.blockType.isOpen = true ∧ e.nonce = 1 ∨ e.blockType.isSend = true ∨ ∃ s ∈ W, Credits e s

instance : DecidablePred (Touches W) := fun _ ↦ inferInstanceAs (Decidable (_ ∨ _))

/-- The accounts that get a balance. -/
def accounts : Finset String := (W.filter (Touches W)).image Entry.account

/-- What an account receives in all. -/
def credits (a : String) : ℕ := ∑ e ∈ W with e.account = a, credit W e

/-- What an account spends in all. -/
def debits (a : String) : ℕ := ∑ e ∈ W with e.account = a, e.sent

/-- The balance of an account, as far as the counters can represent it. -/
def balance (a : String) : ℤ :=
  clampI64 ((min (credits W a) u64Max : ℕ) - (min (debits W a) u64Max : ℕ))

/-! ## Rejections -/

/-- The rejection of an Open that is not at nonce 1. -/
def rejectGenesis (e : Entry) : Option RejectedGenesis :=
  if e.blockType.isOpen = true ∧ e.nonce ≠ 1 then
    some {
      account := e.account, nonce := e.nonce, blockHash := e.hash
      reason := "open_at_non_genesis_nonce" }
  else none

/-- Why a Receive of `sourceHash` that credits nothing is rejected. -/
def rejectReason (sourceHash : String) : String :=
  if ∃ s ∈ W, s.blockType.isSend = true ∧ s.hash = sourceHash then "destination_mismatch"
  else "source_not_found"

/-- The rejection of a Receive that credits nothing. -/
def rejectReceive (e : Entry) : Option RejectedReceive :=
  match e.blockType with
  | .receive sourceHash =>
    if ∃ s ∈ W, Credits e s then none
    else some {
      account := e.account, nonce := e.nonce, receiveHash := e.hash, sourceHash := sourceHash
      reason := rejectReason W sourceHash }
  | _ => none

/-! ## Entries that touch nothing -/

variable {W}

theorem received_eq_zero {e : Entry} (h : ¬ ∃ s ∈ W, Credits e s) : received W e = 0 := by
  rw [received, Finset.filter_eq_empty_iff.mpr fun s hs hc ↦ h ⟨s, hs, hc⟩, Finset.sum_empty]

theorem touches_open {e : Entry} {v : UInt64} (h : e.blockType = .open v) :
    Touches W e ↔ e.nonce = 1 := by
  simp [Touches, Credits, h, BlockType.isOpen, BlockType.isSend]

theorem touches_send {e : Entry} {d : String} {v : UInt64} (h : e.blockType = .send d v) :
    Touches W e := Or.inr (Or.inl (BlockType.isSend_iff.mpr ⟨d, v, h⟩))

theorem touches_receive {e : Entry} {x : String} (h : e.blockType = .receive x) :
    Touches W e ↔ ∃ s ∈ W, Credits e s := by
  simp [Touches, h, BlockType.isOpen, BlockType.isSend]

theorem not_touches_revoke {e : Entry} {x : String} (h : e.blockType = .revoke x) :
    ¬ Touches W e := by
  simp [Touches, Credits, h, BlockType.isOpen, BlockType.isSend]

theorem credit_of_open {e : Entry} {v : UInt64} (h : e.blockType = .open v) (hnonce : e.nonce = 1) :
    credit W e = v.toNat := by
  have hnone : ¬ ∃ s ∈ W, Credits e s := fun ⟨s, _, hc⟩ ↦ by
    rw [Credits, h] at hc
    cases hc.1
  rw [credit, received_eq_zero hnone, issued, h]
  exact if_pos hnonce

theorem credit_of_send {e : Entry} {d : String} {v : UInt64} (h : e.blockType = .send d v) :
    credit W e = 0 := by
  have hnone : ¬ ∃ s ∈ W, Credits e s := fun ⟨s, _, hc⟩ ↦ by
    rw [Credits, h] at hc
    cases hc.1
  rw [credit, received_eq_zero hnone, issued, h]

theorem credit_of_receive {e s : Entry} {x : String} (h : e.blockType = .receive x)
    (hs : ∀ c ∈ W, Credits e c ↔ c = s) (hmem : s ∈ W) : credit W e = s.sent := by
  have hfilter : W.filter (Credits e) = {s} := by
    ext c
    rw [Finset.mem_filter, Finset.mem_singleton]
    constructor
    · exact fun ⟨hc, hcred⟩ ↦ (hs c hc).mp hcred
    · rintro rfl
      exact ⟨hmem, (hs c hmem).mpr rfl⟩
  rw [credit, received, hfilter, Finset.sum_singleton, issued, h, Nat.zero_add]

/-- An entry that opens no counter moves nothing. -/
theorem credit_sent_of_not_touches {e : Entry} (h : ¬ Touches W e) :
    credit W e = 0 ∧ e.sent = 0 := by
  rw [Touches, not_or, not_or] at h
  obtain ⟨hopen, hsend, hreceive⟩ := h
  have hissued : e.issued = 0 := by
    rw [issued]
    split
    · rename_i v htype
      exact if_neg fun hnonce ↦ hopen ⟨BlockType.isOpen_iff.mpr ⟨v, htype⟩, hnonce⟩
    · rfl
  rw [credit, hissued, received_eq_zero hreceive, sent_of_not_isSend (by simpa using hsend)]
  exact ⟨rfl, rfl⟩

/-! ## Entries that are not rejected -/

theorem rejectGenesis_of_not_isOpen {e : Entry} (h : e.blockType.isOpen = false) :
    rejectGenesis e = none := by
  rw [rejectGenesis, h]
  exact if_neg fun hopen ↦ Bool.false_ne_true hopen.1

theorem rejectReceive_of_not_isReceive {e : Entry} (h : e.blockType.isReceive = false) :
    rejectReceive W e = none := by
  rw [rejectReceive]
  split
  · rename_i htype
    rw [htype] at h
    cases h
  · rfl

/-! ## The settlement -/

/-- Every account that gets a counter has a first slice of eight bytes. -/
def Sliceable (W : Finset Entry) : Prop := ∀ a ∈ accounts W, (bytePrefix a.toList 8).isSome

/-- No account comes out below zero. -/
def Solvent (W : Finset Entry) : Prop := ∀ a ∈ accounts W, 0 ≤ balance W a

instance : DecidablePred Sliceable := fun W ↦
  inferInstanceAs (Decidable (∀ a ∈ accounts W, (bytePrefix a.toList 8).isSome))

instance : DecidablePred Solvent := fun W ↦
  inferInstanceAs (Decidable (∀ a ∈ accounts W, 0 ≤ balance W a))

/-- The report states the settlement of `E`. -/
structure Settles (E : Finset Entry) (report : ReconciliationReport) : Prop where
  balances : ∀ a, report.balances.lookup a =
    if a ∈ accounts (winners E) then some (balance (winners E) a) else none
  conflicts : ∀ x, x ∈ report.conflicts ↔ ∃ w ∈ winners E, conflictOf E w = some x
  nodup_conflicts : report.conflicts.Nodup
  rejectedReceives : ∀ x, x ∈ report.rejectedReceives ↔
    ∃ w ∈ winners E, rejectReceive (winners E) w = some x
  nodup_receives : report.rejectedReceives.Nodup
  rejectedGenesis : ∀ x, x ∈ report.rejectedGenesis ↔ ∃ w ∈ winners E, rejectGenesis w = some x
  nodup_genesis : report.rejectedGenesis.Nodup

/-- The outcomes that settle `E`. -/
inductive Outcome (E : Finset Entry) : Option (Except ArxiaError ReconciliationReport) → Prop
  /-- An account that cannot be sliced stops the call. -/
  | panic (h : ¬ Sliceable (winners E)) : Outcome E none
  /-- Otherwise an account below zero is reported. -/
  | insolvent (h : Sliceable (winners E)) (a : String) (ha : a ∈ accounts (winners E))
      (hneg : balance (winners E) a < 0) :
      Outcome E (some (.error (.negativeBalance a (balance (winners E) a))))
  /-- Otherwise the settlement is. -/
  | settled (h : Sliceable (winners E)) (hsolvent : Solvent (winners E))
      (report : ReconciliationReport) (hreport : Settles E report) :
      Outcome E (some (.ok report))

/-- The same report, up to the order of its lists. -/
structure SameReport (r r' : ReconciliationReport) : Prop where
  balances : ∀ a, r.balances.lookup a = r'.balances.lookup a
  conflicts : r.conflicts.Perm r'.conflicts
  rejectedReceives : r.rejectedReceives.Perm r'.rejectedReceives
  rejectedGenesis : r.rejectedGenesis.Perm r'.rejectedGenesis

/-- The same report, up to the order of its lists, or an error in both cases. -/
inductive SameOutcome : Option (Except ArxiaError ReconciliationReport) →
    Option (Except ArxiaError ReconciliationReport) → Prop
  | ok {r r' : ReconciliationReport} (h : SameReport r r') :
      SameOutcome (some (.ok r)) (some (.ok r'))
  | error (e e' : ArxiaError) : SameOutcome (some (.error e)) (some (.error e'))

theorem SameOutcome.ne_none {o o' : Option (Except ArxiaError ReconciliationReport)}
    (h : SameOutcome o o') : o' ≠ none := by
  rintro rfl
  cases h

/-- The balance of an account, if the call reports balances. -/
def reported (o : Option (Except ArxiaError ReconciliationReport)) (a : String) :
    Option (Option ℤ) :=
  o.bind fun r ↦ r.toOption.map fun report ↦ report.balances.lookup a

theorem SameOutcome.reported_eq {o o' : Option (Except ArxiaError ReconciliationReport)}
    (h : SameOutcome o o') (a : String) : reported o a = reported o' a := by
  cases h with
  | ok h => exact congrArg some (h.balances a)
  | error e e' => rfl

theorem Settles.sameReport {E : Finset Entry} {r r' : ReconciliationReport} (h : Settles E r)
    (h' : Settles E r') : SameReport r r' where
  balances := fun a ↦ (h.balances a).trans (h'.balances a).symm
  conflicts := (List.perm_ext_iff_of_nodup h.nodup_conflicts h'.nodup_conflicts).mpr fun x ↦
    (h.conflicts x).trans (h'.conflicts x).symm
  rejectedReceives := (List.perm_ext_iff_of_nodup h.nodup_receives h'.nodup_receives).mpr fun x ↦
    (h.rejectedReceives x).trans (h'.rejectedReceives x).symm
  rejectedGenesis := (List.perm_ext_iff_of_nodup h.nodup_genesis h'.nodup_genesis).mpr fun x ↦
    (h.rejectedGenesis x).trans (h'.rejectedGenesis x).symm

/-- **The outcome is determined by the entries**, unless the call panics. -/
theorem Outcome.sameOutcome {E : Finset Entry} (hslice : Sliceable (winners E))
    {o o' : Option (Except ArxiaError ReconciliationReport)} (h : Outcome E o)
    (h' : Outcome E o') : SameOutcome o o' := by
  cases h with
  | panic hnot => exact absurd hslice hnot
  | insolvent _ a ha hneg =>
    cases h' with
    | panic hnot => exact absurd hslice hnot
    | insolvent => exact .error _ _
    | settled _ hsolvent => exact absurd (hsolvent a ha) (not_le.mpr hneg)
  | settled _ hsolvent r hr =>
    cases h' with
    | panic hnot => exact absurd hslice hnot
    | insolvent _ a ha hneg => exact absurd (hsolvent a ha) (not_le.mpr hneg)
    | settled _ _ r' hr' => exact .ok (hr.sameReport hr')

end Settlement

end Arxia
