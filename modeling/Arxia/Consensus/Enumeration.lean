import Arxia.Crdt.Determinism
import Arxia.Crdt.Unvoted
import Arxia.Rust.Ordered

/-!
# Double-spend enumeration

`detect_double_spend` groups blocks by account and nonce and reports every group of more than one
block, in the order of the keys. Reconciliation groups by the same keys, but drops blocks whose hash
it has seen before, so it reports the groups in which two hashes are left.

A group of copies of one block is no double spend, and reconciliation says so; the enumeration
reports it all the same. It reports what a double spend is, and what reconciliation reports, exactly
when every key that comes more than once has two blocks of different hashes that are the first with
their hash.
-/

namespace Arxia

open Rust Reconciliation

/-- A collision: the first block, the others, and the reason. -/
abbrev Collision := Block × List Block × String

/-- The collision of a group, if it has more than one block. -/
def collision : List Block → Option Collision
  | [] => none
  | winner :: losers =>
    if 1 < (winner :: losers).length then some (winner, losers, "same_nonce") else none

/-- Detects double-spend conflicts among a set of blocks. -/
def detectDoubleSpend (blocks : List Block) : List Collision :=
  ((group key blocks).inOrder keyOrder).filterMap fun e ↦ collision e.2

/-- The conflicts that a reconciliation finds in its groups. -/
def recordedConflicts (σ : Orders) (partitionA partitionB : List Block) :
    Option (List ResolvedConflict) := do
  let all := firsts Block.hash (partitionA ++ partitionB) ∅
  let picked ← pickWinners (σ.byKey.arrange (group key all).entries)
  picked.conflicts

/-- The collisions are the groups of the keys with two hashes, in key order. -/
structure Enumerates (blocks : List Block) (out : List Collision) : Prop where
  ascending : out.Pairwise fun t t' ↦ keyOrder (key t.1) < keyOrder (key t'.1)
  complete : ∀ t ∈ out, t.1 :: t.2.1 = blocks.filter (fun b ↦ key b = key t.1) ∧
    t.2.2 = "same_nonce"
  reported : ∀ k, k ∈ out.map (fun t ↦ key t.1) ↔
    ∃ b ∈ blocks, ∃ b' ∈ blocks, key b = k ∧ key b' = k ∧ b.hash ≠ b'.hash

/-- Reconciliation, however the blocks are partitioned, finds conflicts at the same keys, and has
them in its report if it gets that far. -/
structure MatchesReconciliation (blocks : List Block) (out : List Collision) : Prop where
  conflicts : ∀ σ partitionA partitionB, partitionA ++ partitionB = blocks →
    ∃ conflicts, recordedConflicts σ partitionA partitionB = some conflicts ∧
      (∀ k, k ∈ out.map (fun t ↦ key t.1) ↔ k ∈ conflicts.map fun c ↦ (c.account, c.nonce)) ∧
      ∀ report, (reconcilePartitions σ partitionA partitionB).exec = some (.ok report) →
        report.conflicts = conflicts

/-- Every key that comes more than once has two blocks of different hashes, both of them the first
block with their hash. -/
def RivalsLead (blocks : List Block) : Prop :=
  ∀ k, 1 < (blocks.filter fun b ↦ key b = k).length →
    ∃ b b', key b = k ∧ key b' = k ∧ b.hash ≠ b'.hash ∧
      (blocks.find? fun c ↦ c.hash = b.hash) = some b ∧
      (blocks.find? fun c ↦ c.hash = b'.hash) = some b'

variable {blocks : List Block} {k : Key} {t : Collision}

/-! ## What is reported -/

theorem collision_eq_some {g : List Block} : collision g = some t ↔
    1 < g.length ∧ t.1 :: t.2.1 = g ∧ t.2.2 = "same_nonce" := by
  obtain ⟨winner, losers, reason⟩ := t
  cases g with
  | nil => simp [collision]
  | cons b g =>
    rw [collision]
    split
    · rename_i h
      simp only [Option.some_inj, Prod.mk.injEq, List.cons.injEq]
      constructor
      · rintro ⟨rfl, rfl, rfl⟩
        exact ⟨h, ⟨rfl, rfl⟩, rfl⟩
      · rintro ⟨-, ⟨rfl, rfl⟩, rfl⟩
        exact ⟨rfl, rfl, rfl⟩
    · rename_i h
      simp only [reduceCtorEq, h, false_and]

/-- The collision of a group has its key, and the group is that of all blocks with the key. -/
theorem key_of_collision {e : Key × List Block}
    (he : e ∈ (group key blocks).inOrder keyOrder) (h : collision e.2 = some t) :
    key t.1 = e.1 ∧ e.2 = blocks.filter fun b ↦ key b = e.1 := by
  obtain ⟨hgroup, -⟩ := lookup_group_eq_some.mp (HashMap.mem_inOrder.mp he)
  have hmem : t.1 ∈ e.2 := (collision_eq_some.mp h).2.1 ▸ List.mem_cons_self
  rw [hgroup] at hmem
  exact ⟨of_decide_eq_true (List.mem_filter.mp hmem).2, hgroup⟩

/-- **A collision** is the group of a key that comes more than once. -/
theorem mem_detectDoubleSpend : t ∈ detectDoubleSpend blocks ↔
    1 < (blocks.filter fun b ↦ key b = key t.1).length ∧
      t.1 :: t.2.1 = blocks.filter (fun b ↦ key b = key t.1) ∧ t.2.2 = "same_nonce" := by
  rw [detectDoubleSpend, List.mem_filterMap]
  constructor
  · rintro ⟨e, he, hcollision⟩
    obtain ⟨hkey, hgroup⟩ := key_of_collision he hcollision
    rw [hkey, ← hgroup]
    exact collision_eq_some.mp hcollision
  · rintro ⟨hlength, hgroup, hreason⟩
    refine ⟨(key t.1, blocks.filter fun b ↦ key b = key t.1), ?_,
      collision_eq_some.mpr ⟨hlength, hgroup, hreason⟩⟩
    refine HashMap.mem_inOrder.mpr (lookup_group_eq_some.mpr ⟨rfl, ?_⟩)
    exact List.ne_nil_of_length_pos (Nat.zero_lt_of_lt hlength)

theorem detectDoubleSpend_pairwise (blocks : List Block) :
    (detectDoubleSpend blocks).Pairwise fun t t' ↦ keyOrder (key t.1) < keyOrder (key t'.1) := by
  have hgroups := HashMap.inOrder_pairwise (m := group key blocks) keyOrder_injective
  refine List.pairwise_filterMap.mpr (hgroups.imp_of_mem fun {e e'} he he' hlt t ht t' ht' ↦ ?_)
  rw [(key_of_collision he ht).1, (key_of_collision he' ht').1]
  exact hlt

/-- **The keys** that are reported are those that come more than once. -/
theorem mem_keys_detectDoubleSpend :
    k ∈ (detectDoubleSpend blocks).map (fun t ↦ key t.1) ↔
      1 < (blocks.filter fun b ↦ key b = k).length := by
  rw [List.mem_map]
  constructor
  · rintro ⟨t, ht, rfl⟩
    exact (mem_detectDoubleSpend.mp ht).1
  · intro hlength
    obtain ⟨winner, losers, hgroup⟩ :=
      List.exists_cons_of_ne_nil (List.ne_nil_of_length_pos (Nat.zero_lt_of_lt hlength))
    have hmem : winner ∈ blocks.filter fun b ↦ key b = k := hgroup ▸ List.mem_cons_self
    have hkey : key winner = k := of_decide_eq_true (List.mem_filter.mp hmem).2
    refine ⟨(winner, losers, "same_nonce"), mem_detectDoubleSpend.mpr ?_, hkey⟩
    rw [hkey]
    exact ⟨hlength, hgroup.symm, rfl⟩

/-! ## What reconciliation reports -/

theorem length_clash (e : Σ _ : Key, List Block) : 0 < (clash e).length ↔ 1 < e.2.length := by
  rw [← (sortBy_perm Block.hash e.2).length_eq, clash]
  rcases sortBy Block.hash e.2 with _ | ⟨winner, _ | ⟨loser, rest⟩⟩ <;> simp

theorem key_of_mem_clash {e : Σ _ : Key, List Block} {c : ResolvedConflict} (h : c ∈ clash e) :
    (c.account, c.nonce) = e.1 := by
  rw [clash] at h
  split at h
  · rw [List.mem_singleton.mp h]
  · exact absurd h List.not_mem_nil

theorem mem_keys_conflicts (σ : Orders) :
    k ∈ ((groupsIn σ blocks).flatMap clash).map (fun c ↦ (c.account, c.nonce)) ↔
      1 < (groupOf blocks k).length := by
  rw [List.mem_map]
  constructor
  · rintro ⟨c, hc, rfl⟩
    obtain ⟨e, he, hclash⟩ := List.mem_flatMap.mp hc
    have hlength := (length_clash e).mp (List.length_pos_of_mem hclash)
    rw [((mem_groups (groupsIn_perm σ blocks)).mp he).1, ← key_of_mem_clash hclash] at hlength
    exact hlength
  · intro hlength
    have hgroup : (⟨k, groupOf blocks k⟩ : Σ _ : Key, List Block) ∈ groupsIn σ blocks :=
      (mem_groups (groupsIn_perm σ blocks)).mpr
        ⟨rfl, List.ne_nil_of_length_pos (Nat.zero_lt_of_lt hlength)⟩
    obtain ⟨c, hc⟩ := List.exists_mem_of_length_pos ((length_clash ⟨k, _⟩).mpr hlength)
    exact ⟨c, List.mem_flatMap.mpr ⟨_, hgroup, hc⟩, key_of_mem_clash hc⟩

theorem recordedConflicts_eq (σ : Orders) (partitionA partitionB : List Block) :
    recordedConflicts σ partitionA partitionB =
      some ((groupsIn σ (partitionA ++ partitionB)).flatMap clash) := by
  have hperm := groupsIn_perm σ (partitionA ++ partitionB)
  have hpick := foldlM_pickWinner (fun e he ↦ ((mem_groups hperm).mp he).2) ⟨∅, []⟩
  rw [← pickWinners, List.nil_append] at hpick
  have hcode : recordedConflicts σ partitionA partitionB =
      (pickWinners (groupsIn σ (partitionA ++ partitionB))).bind
        fun picked ↦ some picked.conflicts := rfl
  rw [hcode, hpick, Option.bind_some]

/-! ## When it is the same -/

/-- Two different elements are more than one. -/
theorem one_lt_length_of_ne {α : Type} {l : List α} {x y : α} (hx : x ∈ l) (hy : y ∈ l)
    (hne : x ≠ y) : 1 < l.length := by
  rcases l with _ | ⟨z, _ | ⟨z', rest⟩⟩
  · exact absurd hx List.not_mem_nil
  · exact absurd ((List.mem_singleton.mp hx).trans (List.mem_singleton.mp hy).symm) hne
  · exact Nat.one_lt_succ_succ _

/-- Two hashes at a key are two blocks. -/
theorem one_lt_length_filter {b b' : Block} (hb : b ∈ blocks) (hb' : b' ∈ blocks)
    (hkey : key b = k) (hkey' : key b' = k) (hne : b.hash ≠ b'.hash) :
    1 < (blocks.filter fun b ↦ key b = k).length :=
  one_lt_length_of_ne (List.mem_filter.mpr ⟨hb, decide_eq_true hkey⟩)
    (List.mem_filter.mpr ⟨hb', decide_eq_true hkey'⟩) fun heq ↦ hne (congrArg Block.hash heq)

/-- A group keeps two blocks exactly if two of its hashes come first in it. -/
theorem one_lt_length_groupOf : 1 < (groupOf blocks k).length ↔
    ∃ b b', key b = k ∧ key b' = k ∧ b.hash ≠ b'.hash ∧
      (blocks.find? fun c ↦ c.hash = b.hash) = some b ∧
      (blocks.find? fun c ↦ c.hash = b'.hash) = some b' := by
  have hmem : ∀ {b}, b ∈ groupOf blocks k ↔
      (blocks.find? fun c ↦ c.hash = b.hash) = some b ∧ key b = k := fun {b} ↦ by
    rw [mem_groupOf, mem_firsts, and_iff_right (Finset.notMem_empty _)]
  constructor
  · intro hlength
    have hnodup := nodup_groupOf blocks k
    rcases hgroup : groupOf blocks k with _ | ⟨b, _ | ⟨b', rest⟩⟩
    · rw [hgroup] at hlength
      simp at hlength
    · rw [hgroup] at hlength
      simp at hlength
    · rw [hgroup] at hnodup
      have hb := hmem.mp (hgroup ▸ List.mem_cons_self)
      have hb' := hmem.mp (hgroup ▸ List.mem_cons_of_mem b List.mem_cons_self)
      refine ⟨b, b', hb.2, hb'.2, fun heq ↦ ?_, hb.1, hb'.1⟩
      exact (List.nodup_cons.mp hnodup).1 (List.mem_map.mpr ⟨b', List.mem_cons_self, heq.symm⟩)
  · rintro ⟨b, b', hkey, hkey', hne, hfind, hfind'⟩
    exact one_lt_length_of_ne (hmem.mpr ⟨hfind, hkey⟩) (hmem.mpr ⟨hfind', hkey'⟩)
      fun heq ↦ hne (congrArg Block.hash heq)

/-- **The keys of reconciliation** are among those that come more than once. -/
theorem one_lt_length_of_groupOf (h : 1 < (groupOf blocks k).length) :
    1 < (blocks.filter fun b ↦ key b = k).length := by
  obtain ⟨b, b', hkey, hkey', hne, hfind, hfind'⟩ := one_lt_length_groupOf.mp h
  exact one_lt_length_filter (List.mem_of_find?_eq_some hfind) (List.mem_of_find?_eq_some hfind')
    hkey hkey' hne

/-- **The enumeration is exact**, and what reconciliation reports, exactly when every key that comes
more than once has two blocks of different hashes that are the first with their hash. -/
theorem enumerates_iff_rivalsLead (blocks : List Block) :
    Enumerates blocks (detectDoubleSpend blocks) ∧
        MatchesReconciliation blocks (detectDoubleSpend blocks) ↔
      RivalsLead blocks := by
  constructor
  · rintro ⟨-, hmatches⟩ k hlength
    obtain ⟨conflicts, hrecorded, hkeys, -⟩ :=
      hmatches.conflicts .asListed blocks [] (List.append_nil blocks)
    rw [recordedConflicts_eq, List.append_nil, Option.some_inj] at hrecorded
    have hreported := (hkeys k).mp (mem_keys_detectDoubleSpend.mpr hlength)
    rw [← hrecorded, mem_keys_conflicts] at hreported
    exact one_lt_length_groupOf.mp hreported
  · intro hrivals
    refine ⟨⟨detectDoubleSpend_pairwise blocks, fun t ht ↦ (mem_detectDoubleSpend.mp ht).2,
      fun k ↦ ?_⟩, ⟨fun σ partitionA partitionB hblocks ↦ ?_⟩⟩
    · rw [mem_keys_detectDoubleSpend]
      constructor
      · intro hlength
        obtain ⟨b, b', hkey, hkey', hne, hfind, hfind'⟩ := hrivals k hlength
        exact ⟨b, List.mem_of_find?_eq_some hfind, b', List.mem_of_find?_eq_some hfind', hkey,
          hkey', hne⟩
      · rintro ⟨b, hb, b', hb', hkey, hkey', hne⟩
        exact one_lt_length_filter hb hb' hkey hkey' hne
    · refine ⟨_, recordedConflicts_eq σ partitionA partitionB, fun k ↦ ?_,
        fun report hreport ↦ (lists_of_ok hreport).1⟩
      rw [hblocks, mem_keys_detectDoubleSpend, mem_keys_conflicts]
      exact ⟨fun hlength ↦ one_lt_length_groupOf.mpr (hrivals k hlength), one_lt_length_of_groupOf⟩

/-- The same block twice is reported. -/
theorem not_enumerates_copies :
    ¬ Enumerates [Reference.openAlice, Reference.openAlice]
      (detectDoubleSpend [Reference.openAlice, Reference.openAlice]) := by
  intro h
  have hlength : 1 < ([Reference.openAlice, Reference.openAlice].filter
      fun b ↦ key b = key Reference.openAlice).length := by simp
  obtain ⟨b, hb, b', hb', -, -, hne⟩ :=
    (h.reported (key Reference.openAlice)).mp (mem_keys_detectDoubleSpend.mpr hlength)
  simp only [List.mem_cons, List.not_mem_nil, or_false, or_self] at hb hb'
  exact hne (hb ▸ hb' ▸ rfl)

end Arxia
