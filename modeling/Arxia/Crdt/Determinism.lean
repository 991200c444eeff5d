import Arxia.Crdt.Refinement
import Arxia.Lattice.Reference
import Arxia.Rust.Ordered

/-!
# Identical reports

Two nodes that reconcile the same partitions can differ in the orders in which they iterate their
hash maps. The rejections do not show them, because the winners are applied by their sorted keys,
and a map of balances has no order. But the conflicts are listed as the groups come, and of the
accounts that end below zero the error names the one that comes first.

Where there is one conflict, or one such account, there is one order.
-/

namespace Arxia

open Rust

namespace Settlement

open Reconciliation

/-- Equal results. Maps of balances are equal if they say the same of each account. -/
inductive SameResult : Option (Except ArxiaError ReconciliationReport) →
    Option (Except ArxiaError ReconciliationReport) → Prop
  | panic : SameResult none none
  | error (e : ArxiaError) : SameResult (some (.error e)) (some (.error e))
  | ok {r r' : ReconciliationReport} (balances : ∀ a, r.balances.lookup a = r'.balances.lookup a)
      (conflicts : r.conflicts = r'.conflicts)
      (rejectedReceives : r.rejectedReceives = r'.rejectedReceives)
      (rejectedGenesis : r.rejectedGenesis = r'.rejectedGenesis) :
      SameResult (some (.ok r)) (some (.ok r'))

theorem SameResult.error_inj {e e' : ArxiaError}
    (h : SameResult (some (.error e)) (some (.error e'))) : e = e' := by
  cases h
  rfl

/-- The conflicts or the error. -/
def observed (o : Option (Except ArxiaError ReconciliationReport)) :
    Option (Except ArxiaError (List ResolvedConflict)) :=
  o.map fun r ↦ r.map ReconciliationReport.conflicts

theorem SameResult.observed_eq {o o' : Option (Except ArxiaError ReconciliationReport)}
    (h : SameResult o o') : observed o = observed o' := by
  rcases h with _ | _ | ⟨-, hconflicts, -, -⟩
  · rfl
  · rfl
  · rw [observed, observed, Option.map_some, Option.map_some, Except.map, Except.map, hconflicts]

/-- There are entries with this account and nonce, and different hashes. -/
def Contested (E : Finset Entry) (k : Key) : Prop :=
  ∃ e ∈ E, ∃ e' ∈ E, e.key = k ∧ e'.key = k ∧ e.hash ≠ e'.hash

/-- The account ends below zero. -/
def Overdrawn (W : Finset Entry) (a : String) : Prop := a ∈ accounts W ∧ balance W a < 0

/-- Reconciliation of the entries has nothing to put into an order. -/
def Orderless (E : Finset Entry) : Prop :=
  ¬ Sliceable (winners E) ∨
    (Solvent (winners E) ∧ ∀ k k', Contested E k → Contested E k' → k = k') ∨
    ∃! a, Overdrawn (winners E) a

variable {E : Finset Entry}

theorem mem_losers {w : Entry} {hash : String} :
    hash ∈ losers E w ↔ hash ≠ w.hash ∧ ∃ e ∈ E, e.key = w.key ∧ e.hash = hash := by
  simp only [losers, Finset.mem_sort, Finset.mem_erase, Finset.mem_image, Finset.mem_filter,
    and_assoc]

theorem conflictOf_eq_some {w : Entry} {x : ResolvedConflict} (h : conflictOf E w = some x) :
    losers E w ≠ [] ∧ (x.account, x.nonce) = w.key := by
  rw [conflictOf] at h
  split at h
  · cases h
  · rename_i hlosers
    obtain rfl := Option.some_inj.mp h
    exact ⟨hlosers, rfl⟩

/-- **A conflict** is about a contested key, -/
theorem contested_of_conflictOf {w : Entry} {x : ResolvedConflict} (hw : w ∈ winners E)
    (h : conflictOf E w = some x) : Contested E (x.account, x.nonce) := by
  obtain ⟨hlosers, hkey⟩ := conflictOf_eq_some h
  obtain ⟨hash, rest, hcons⟩ := List.exists_cons_of_ne_nil hlosers
  obtain ⟨hne, e, he, hek, rfl⟩ := mem_losers.mp (hcons ▸ List.mem_cons_self)
  exact ⟨e, he, w, winners_subset E hw, hek.trans hkey.symm, hkey.symm, hne⟩

/-- and every contested key has one. -/
theorem Contested.exists_conflictOf {k : Key} (h : Contested E k) :
    ∃ w ∈ winners E, w.key = k ∧ ∃ x, conflictOf E w = some x := by
  obtain ⟨e, he, e', he', hek, hek', hne⟩ := h
  obtain ⟨w, hw, hle⟩ := Finset.exists_min_image (E.filter fun c ↦ c.key = k) Entry.hash
    ⟨e, Finset.mem_filter.mpr ⟨he, hek⟩⟩
  obtain ⟨hw, hwk⟩ := Finset.mem_filter.mp hw
  have hwinner : w ∈ winners E := mem_winners.mpr ⟨hw, fun c hc hck ↦
    hle c (Finset.mem_filter.mpr ⟨hc, hck.trans hwk⟩)⟩
  have hlosers : losers E w ≠ [] := by
    by_cases hsame : e.hash = w.hash
    · exact List.ne_nil_of_mem (mem_losers.mpr
        ⟨fun heq ↦ hne (hsame.trans heq.symm), e', he', hek'.trans hwk.symm, rfl⟩)
    · exact List.ne_nil_of_mem (mem_losers.mpr ⟨hsame, e, he, hek.trans hwk.symm, rfl⟩)
  exact ⟨w, hwinner, hwk, _, if_neg hlosers⟩

end Settlement

namespace Reconciliation

open Settlement

variable {σ : Orders} {partitionA partitionB : List Block} {report : ReconciliationReport}

/-! ## What does not show the order -/

theorem keyOrder_injective : Function.Injective keyOrder := by
  intro k k' h
  obtain ⟨haccount, hnonce⟩ := Prod.mk.inj (toLex.injective h)
  exact Prod.ext haccount (UInt64.toNat_inj.mp hnonce)

/-- **The winners** are applied in one order. -/
theorem winningBlocks_eq (σ σ' : Orders) (blocks : List Block) :
    winningBlocks σ blocks = winningBlocks σ' blocks := by
  have hlookup : (winnersIn σ blocks).lookup = (winnersIn σ' blocks).lookup := by
    funext k
    refine Option.ext fun b ↦ ?_
    rw [lookup_winnersIn, lookup_winnersIn]
  have hkeys := ((groupsIn_perm σ blocks).trans (groupsIn_perm σ' blocks).symm).map fun e ↦ e.1
  rw [winningBlocks, winningBlocks, hlookup, sortBy_eq_of_perm keyOrder_injective hkeys]

/-- **The lists** of a report. -/
theorem lists_of_ok (h : (reconcilePartitions σ partitionA partitionB).exec = some (.ok report)) :
    report.conflicts = (groupsIn σ (partitionA ++ partitionB)).flatMap clash ∧
      report.rejectedReceives =
        ((winningBlocks σ (partitionA ++ partitionB)).map Block.entry).filterMap
          (rejectReceive (winners (entries (partitionA ++ partitionB)))) ∧
      report.rejectedGenesis =
        ((winningBlocks σ (partitionA ++ partitionB)).map Block.entry).filterMap rejectGenesis := by
  rw [exec_reconcilePartitions] at h
  rcases appliedIn_cases σ (partitionA ++ partitionB) with ⟨⟨st, hst, htracks⟩, -⟩ | ⟨hst, -⟩
  · rw [hst, Option.map_some, Option.some_inj] at h
    rcases hmaterialize : materialize (σ.crdts.arrange st.crdts.entries) ∅ with e | balances
    · rw [hmaterialize] at h
      cases h
    · rw [hmaterialize] at h
      cases h
      exact ⟨rfl, htracks.receives, htracks.genesis⟩
  · rw [hst] at h
    cases h

/-- **One conflict** at most leaves one order. -/
theorem sameResult_of_solvent (hslice : Sliceable (winners (entries (partitionA ++ partitionB))))
    (hsolvent : Solvent (winners (entries (partitionA ++ partitionB))))
    (hone : ∀ k k', Contested (entries (partitionA ++ partitionB)) k →
      Contested (entries (partitionA ++ partitionB)) k' → k = k') (σ σ' : Orders) :
    SameResult (reconcilePartitions σ partitionA partitionB).exec
      (reconcilePartitions σ' partitionA partitionB).exec := by
  obtain ⟨r, hr, hsettles⟩ := exists_settles hslice hsolvent σ
  obtain ⟨r', hr', hsettles'⟩ := exists_settles hslice hsolvent σ'
  obtain ⟨-, hreceives, hgenesis⟩ := lists_of_ok hr
  obtain ⟨-, hreceives', hgenesis'⟩ := lists_of_ok hr'
  have hsame := hsettles.sameReport hsettles'
  -- the conflicts that there are have the same key, hence the same winner
  have hconflicts : ∀ x ∈ r.conflicts, ∀ y ∈ r'.conflicts, x = y := by
    intro x hx y hy
    obtain ⟨w, hw, hconflict⟩ := (hsettles.conflicts x).mp hx
    obtain ⟨w', hw', hconflict'⟩ := (hsettles'.conflicts y).mp hy
    have hkey := hone _ _ (contested_of_conflictOf hw hconflict)
      (contested_of_conflictOf hw' hconflict')
    rw [(conflictOf_eq_some hconflict).2, (conflictOf_eq_some hconflict').2] at hkey
    obtain rfl := eq_of_key_eq (injOn_hash_entries _) hw hw' hkey
    exact Option.some_inj.mp (hconflict.symm.trans hconflict')
  rw [hr, hr']
  refine .ok hsame.balances ?_ ?_ ?_
  · have htrivial : ∀ l : List ResolvedConflict, l.Pairwise fun _ _ ↦ True := fun l ↦
      List.pairwise_of_forall fun _ _ ↦ trivial
    exact hsame.conflicts.eq_of_pairwise (fun x y hx hy _ _ ↦ hconflicts x hx y hy) (htrivial _)
      (htrivial _)
  · rw [hreceives, hreceives', winningBlocks_eq σ σ']
  · rw [hgenesis, hgenesis', winningBlocks_eq σ σ']

/-- **One account below zero** leaves one error. -/
theorem sameResult_of_overdrawn (hslice : Sliceable (winners (entries (partitionA ++ partitionB))))
    (hone : ∃! a, Overdrawn (winners (entries (partitionA ++ partitionB))) a) (σ σ' : Orders) :
    SameResult (reconcilePartitions σ partitionA partitionB).exec
      (reconcilePartitions σ' partitionA partitionB).exec := by
  obtain ⟨a, hover, hunique⟩ := hone
  have herror : ∀ σ : Orders, (reconcilePartitions σ partitionA partitionB).exec =
      some (.error (.negativeBalance a
        (balance (winners (entries (partitionA ++ partitionB))) a))) := by
    intro σ
    have houtcome := outcome_reconcilePartitions σ partitionA partitionB
    generalize (reconcilePartitions σ partitionA partitionB).exec = o at houtcome
    rcases houtcome with hpanic | ⟨-, a', ha', hneg⟩ | ⟨-, hsolvent, -⟩
    · exact absurd hslice hpanic
    · rw [hunique a' ⟨ha', hneg⟩]
    · exact absurd (hsolvent a hover.1) (not_le.mpr hover.2)
  rw [herror σ, herror σ']
  exact .error _

/-! ## What shows it -/

/-- The groups from the end. -/
def Orders.groupsReversed : Orders := { Orders.asListed with byKey := .reversed _ _ }

/-- The counters from the end. -/
def Orders.crdtsReversed : Orders := { Orders.asListed with crdts := .reversed _ _ }

theorem reverse_clash (e : Σ _ : Key, List Block) : (clash e).reverse = clash e := by
  rw [clash]
  split
  · exact List.reverse_singleton
  · exact List.reverse_nil

/-- **The conflicts** are listed from the end, if the groups are. -/
theorem flatMap_clash_groupsReversed (blocks : List Block) :
    (groupsIn .groupsReversed blocks).flatMap clash =
      ((groupsIn .asListed blocks).flatMap clash).reverse := by
  rw [List.reverse_flatMap]
  have hreverse : List.reverse ∘ clash = clash := funext reverse_clash
  rw [hreverse]
  rfl

/-- So there is at most one, if that does not show. -/
theorem contested_of_sameResult (hslice : Sliceable (winners (entries (partitionA ++ partitionB))))
    (hsolvent : Solvent (winners (entries (partitionA ++ partitionB))))
    (hsame : SameResult (reconcilePartitions .groupsReversed partitionA partitionB).exec
      (reconcilePartitions .asListed partitionA partitionB).exec) {k k' : Key}
    (hk : Contested (entries (partitionA ++ partitionB)) k)
    (hk' : Contested (entries (partitionA ++ partitionB)) k') : k = k' := by
  obtain ⟨r, hr, hsettles⟩ := exists_settles hslice hsolvent Orders.asListed
  obtain ⟨r', hr', -⟩ := exists_settles hslice hsolvent Orders.groupsReversed
  have hconflicts : r.conflicts.reverse = r.conflicts := by
    rw [hr, hr'] at hsame
    rcases hsame with _ | _ | ⟨-, hconflicts, -, -⟩
    rw [(lists_of_ok hr').1, (lists_of_ok hr).1, flatMap_clash_groupsReversed] at hconflicts
    rw [(lists_of_ok hr).1, hconflicts]
  have hone := subsingleton_of_reverse hsettles.nodup_conflicts (congrArg List.head? hconflicts)
  obtain ⟨w, hw, rfl, x, hx⟩ := hk.exists_conflictOf
  obtain ⟨w', hw', rfl, x', hx'⟩ := hk'.exists_conflictOf
  have heq := hone x ((hsettles.conflicts x).mpr ⟨w, hw, hx⟩) x'
    ((hsettles.conflicts x').mpr ⟨w', hw', hx'⟩)
  rw [← (conflictOf_eq_some hx).2, ← (conflictOf_eq_some hx').2, heq]

/-- A call that finds an account below zero reports the first one. -/
theorem exec_of_find? {st : Applied} {e : Σ _ : String, PNCounter}
    (hst : appliedIn σ (partitionA ++ partitionB) = some st)
    (hfind : (σ.crdts.arrange st.crdts.entries).find? (fun e ↦ e.2.value < 0) = some e) :
    (reconcilePartitions σ partitionA partitionB).exec =
      some (.error (.negativeBalance e.1 e.2.value)) := by
  rw [exec_reconcilePartitions, hst, Option.map_some, materialize_of_find? hfind]
  rfl

/-- **The error** names the first account below zero, counted from the front or from the end. -/
theorem overdrawn_of_sameResult (hslice : Sliceable (winners (entries (partitionA ++ partitionB))))
    (hsame : SameResult (reconcilePartitions .crdtsReversed partitionA partitionB).exec
      (reconcilePartitions .asListed partitionA partitionB).exec) {a a' : String}
    (ha : Overdrawn (winners (entries (partitionA ++ partitionB))) a)
    (ha' : Overdrawn (winners (entries (partitionA ++ partitionB))) a') : a = a' := by
  set blocks := partitionA ++ partitionB
  have hrep := represents_entries blocks
  have hlists := lists_winningBlocks .asListed blocks
  rcases appliedIn_cases .asListed blocks with ⟨⟨st, hst, htracks⟩, -⟩ | ⟨-, hpanic⟩
  swap
  · exact absurd hslice hpanic
  let below : (Σ _ : String, PNCounter) → Bool := fun e ↦ e.2.value < 0
  have hmem : ∀ {a}, Overdrawn (winners (entries blocks)) a →
      a ∈ (st.crdts.entries.filter below).map fun e ↦ e.1 := by
    rintro a ⟨ha, hneg⟩
    obtain ⟨c, hc⟩ := exists_mem_crdts hlists hrep htracks ha
    have hvalue := (balance_of_mem_crdts hlists hrep htracks hslice hc).2
    refine List.mem_map.mpr ⟨⟨a, c⟩, List.mem_filter.mpr ⟨hc, decide_eq_true ?_⟩, rfl⟩
    exact hvalue ▸ hneg
  have hnodup : ((st.crdts.entries.filter below).map fun e ↦ e.1).Nodup :=
    List.Nodup.sublist (List.filter_sublist.map _) st.crdts.nodupKeys
  refine subsingleton_of_reverse hnodup ?_ a (hmem ha) a' (hmem ha')
  -- the heads are the accounts that the two errors name
  have hfirst : ∀ es : List (Σ _ : String, PNCounter), es.Perm st.crdts.entries →
      ∃ e, es.find? below = some e := by
    intro es hperm
    obtain ⟨e, he, -⟩ := List.mem_map.mp (hmem ha)
    obtain ⟨he, hbelow⟩ := List.mem_filter.mp he
    exact Option.isSome_iff_exists.mp (List.find?_isSome.mpr ⟨e, hperm.symm.subset he, hbelow⟩)
  obtain ⟨e, hfind⟩ := hfirst st.crdts.entries (List.Perm.refl _)
  obtain ⟨e', hfind'⟩ := hfirst st.crdts.entries.reverse (List.reverse_perm _)
  have herror : (reconcilePartitions .asListed partitionA partitionB).exec =
      some (.error (.negativeBalance e.1 e.2.value)) := exec_of_find? hst hfind
  have herror' : (reconcilePartitions .crdtsReversed partitionA partitionB).exec =
      some (.error (.negativeBalance e'.1 e'.2.value)) :=
    exec_of_find? (σ := .crdtsReversed) hst hfind'
  have hname : e'.1 = e.1 := by
    rw [herror, herror'] at hsame
    exact (ArxiaError.negativeBalance.inj hsame.error_inj).1
  rw [← List.map_reverse, ← List.filter_reverse, List.head?_map, List.head?_map,
    List.head?_filter, List.head?_filter, hfind, hfind', Option.map_some, Option.map_some, hname]

/-- **Reports are identical** for just the partitions that leave nothing to be put into an order. -/
theorem sameResult_iff (partitionA partitionB : List Block) :
    (∀ σ σ' : Orders, SameResult (reconcilePartitions σ partitionA partitionB).exec
      (reconcilePartitions σ' partitionA partitionB).exec) ↔
    Orderless (entries (partitionA ++ partitionB)) := by
  by_cases hslice : Sliceable (winners (entries (partitionA ++ partitionB)))
  swap
  · -- the call panics whatever the order
    refine iff_of_true (fun σ σ' ↦ ?_) (.inl hslice)
    rw [exec_reconcilePartitions_eq_none.mpr hslice, exec_reconcilePartitions_eq_none.mpr hslice]
    exact .panic
  constructor
  · -- two of the orders that a map can have are enough to see the difference
    intro hsame
    by_cases hsolvent : Solvent (winners (entries (partitionA ++ partitionB)))
    · exact .inr (.inl ⟨hsolvent, fun k k' ↦
        contested_of_sameResult hslice hsolvent (hsame .groupsReversed .asListed)⟩)
    · rw [Solvent] at hsolvent
      push Not at hsolvent
      obtain ⟨a, ha, hneg⟩ := hsolvent
      exact .inr (.inr ⟨a, ⟨ha, hneg⟩, fun a' ha' ↦
        overdrawn_of_sameResult hslice (hsame .crdtsReversed .asListed) ha' ⟨ha, hneg⟩⟩)
  · rintro (hpanic | ⟨hsolvent, hone⟩ | hone) σ σ'
    · exact absurd hslice hpanic
    · exact sameResult_of_solvent hslice hsolvent hone σ σ'
    · exact sameResult_of_overdrawn hslice hone σ σ'

/-- On each side both accounts open. -/
def rivalOpens : List Block × List Block :=
  ([Reference.openAlice, Reference.openBob],
    [Reference.sealBlock Reference.alice "" (.open 7) 7 1 1,
      Reference.sealBlock Reference.bob "" (.open 7) 7 1 2])

/-- On each side an account sends what it has not got. -/
def rivalSends : List Block × List Block :=
  ([Reference.sendToBob], [Reference.sealBlock Reference.bob "" (.send Reference.alice 5) 0 2 4])

/-- Two conflicts are listed either way, and two accounts below zero are reported either way. -/
theorem not_sameResult :
    ¬ SameResult (reconcilePartitions .asListed rivalOpens.1 rivalOpens.2).exec
        (reconcilePartitions .groupsReversed rivalOpens.1 rivalOpens.2).exec ∧
      ¬ SameResult (reconcilePartitions .asListed rivalSends.1 rivalSends.2).exec
        (reconcilePartitions .crdtsReversed rivalSends.1 rivalSends.2).exec := by
  have hopens : observed (reconcilePartitions .asListed rivalOpens.1 rivalOpens.2).exec ≠
      observed (reconcilePartitions .groupsReversed rivalOpens.1 rivalOpens.2).exec := by
    decide +kernel
  have hsends : observed (reconcilePartitions .asListed rivalSends.1 rivalSends.2).exec ≠
      observed (reconcilePartitions .crdtsReversed rivalSends.1 rivalSends.2).exec := by
    decide +kernel
  exact ⟨fun h ↦ hopens h.observed_eq, fun h ↦ hsends h.observed_eq⟩

end Reconciliation

end Arxia
