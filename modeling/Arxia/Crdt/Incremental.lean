import Arxia.Crdt.Determinism
import Arxia.Crdt.Independence

/-!
# One partition after another

A node that meets many partitions reconciles with one after another. Of the blocks it and the
partition had it can drop those that the report lists as losers, and nothing is lost with them: the
balances and the rejections depend on the winners alone, and what has lost once cannot win later.
The last report states the balances and the rejections of all the blocks there ever were, and every
block that loses among all of them is listed as a loser in some report on the way.
-/

namespace Arxia

open Rust

namespace Settlement

variable {E H F : Finset Entry} {e : Entry} {reported losers : List String}

/-! ## Losers -/

/-- The entries that do not win. -/
def lost (E : Finset Entry) : Finset Entry := E \ winners E

theorem mem_lost : e ∈ lost E ↔ e ∈ E ∧ ∃ c ∈ E, c.key = e.key ∧ c.hash < e.hash := by
  rw [lost, Finset.mem_sdiff, mem_winners, not_and, and_congr_right_iff]
  intro he
  simp only [he, true_imp_iff, not_forall, not_le, exists_prop]

/-- Every entry has a winner, if it is not one itself. -/
theorem exists_winner (he : e ∈ E) : ∃ w ∈ winners E, w.key = e.key ∧ w.hash ≤ e.hash := by
  obtain ⟨w, hw, hle⟩ := Finset.exists_min_image (E.filter fun c ↦ c.key = e.key) Entry.hash
    ⟨e, Finset.mem_filter.mpr ⟨he, rfl⟩⟩
  obtain ⟨hmem, hkey⟩ := Finset.mem_filter.mp hw
  refine ⟨w, mem_winners.mpr ⟨hmem, fun c hc hck ↦ ?_⟩, hkey,
    hle e (Finset.mem_filter.mpr ⟨he, rfl⟩)⟩
  exact hle c (Finset.mem_filter.mpr ⟨hc, hck.trans hkey⟩)

/-- What has lost cannot win later. -/
theorem lost_mono (h : H ⊆ E) : lost H ⊆ lost E := by
  intro e he
  obtain ⟨hmem, c, hc, hkey, hlt⟩ := mem_lost.mp he
  exact mem_lost.mpr ⟨h hmem, c, h hc, hkey, hlt⟩

/-- Entries that keep the winners have the same winners. -/
theorem winners_eq_of_subset (h : H ⊆ E) (hwinners : winners E ⊆ H) : winners H = winners E := by
  ext e
  constructor
  · intro he
    obtain ⟨hmem, hle⟩ := mem_winners.mp he
    refine mem_winners.mpr ⟨h hmem, fun c hc hkey ↦ ?_⟩
    obtain ⟨w, hw, hwkey, hwle⟩ := exists_winner hc
    exact (hle w (hwinners hw) (hwkey.trans hkey)).trans hwle
  · exact fun he ↦ mem_winners.mpr ⟨hwinners he, fun c hc ↦ (mem_winners.mp he).2 c (h hc)⟩

/-- A report lists the losers. -/
theorem Settles.mem_loserHashes {report : ReconciliationReport} (h : Settles E report)
    {hash : String} : hash ∈ report.conflicts.flatMap ResolvedConflict.loserHashes ↔
      ∃ e ∈ lost E, e.hash = hash := by
  rw [List.mem_flatMap]
  constructor
  · rintro ⟨x, hx, hhash⟩
    obtain ⟨w, hw, hconflict⟩ := (h.conflicts x).mp hx
    rw [conflictOf] at hconflict
    split at hconflict
    · cases hconflict
    obtain rfl := Option.some_inj.mp hconflict
    obtain ⟨hne, e, he, hkey, rfl⟩ := mem_losers.mp hhash
    obtain ⟨hmem, hle⟩ := mem_winners.mp hw
    exact ⟨e, mem_lost.mpr ⟨he, w, hmem, hkey.symm, lt_of_le_of_ne (hle e he hkey) hne.symm⟩, rfl⟩
  · rintro ⟨e, he, rfl⟩
    obtain ⟨hmem, c, hc, hkey, hlt⟩ := mem_lost.mp he
    obtain ⟨w, hw, hwkey, hle⟩ := exists_winner hc
    have hloser : e.hash ∈ losers E w := mem_losers.mpr
      ⟨(hle.trans_lt hlt).ne', e, hmem, (hwkey.trans hkey).symm, rfl⟩
    exact ⟨_, (h.conflicts _).mpr ⟨w, hw, if_neg (List.ne_nil_of_mem hloser)⟩, hloser⟩

/-! ## What is kept -/

/-- Of the entries `E` those in `H` have been kept. The winners are among them, and the losers that
have been dropped are among the hashes reported, which are hashes of losers. -/
structure Keeps (E H : Finset Entry) (reported : List String) : Prop where
  subset : H ⊆ E
  winners_subset : winners E ⊆ H
  dropped : ∀ e ∈ E, e ∉ H → e.hash ∈ reported
  lost : ∀ hash ∈ reported, ∃ e ∈ lost E, e.hash = hash

namespace Keeps

theorem all (E : Finset Entry) : Keeps E E [] where
  subset := Finset.Subset.refl E
  winners_subset := Settlement.winners_subset E
  dropped := fun _ he hne ↦ absurd he hne
  lost := fun _ h ↦ absurd h List.not_mem_nil

variable (h : Keeps E H reported)

include h

theorem winners_eq : winners H = winners E := winners_eq_of_subset h.subset h.winners_subset

/-- New entries are kept for the time being. -/
theorem union (F : Finset Entry) : Keeps (E ∪ F) (H ∪ F) reported where
  subset := Finset.union_subset_union h.subset (Finset.Subset.refl F)
  winners_subset := by
    intro w hw
    obtain ⟨hmem, hle⟩ := mem_winners.mp hw
    rcases Finset.mem_union.mp hmem with hmem | hmem
    · refine Finset.mem_union_left F (h.winners_subset (mem_winners.mpr ⟨hmem, fun c hc ↦ ?_⟩))
      exact hle c (Finset.mem_union_left F hc)
    · exact Finset.mem_union_right H hmem
  dropped := by
    intro e he hne
    rw [Finset.mem_union, not_or] at hne
    exact h.dropped e ((Finset.mem_union.mp he).resolve_right hne.2) hne.1
  lost := by
    intro hash hhash
    obtain ⟨e, he, heq⟩ := h.lost hash hhash
    exact ⟨e, lost_mono Finset.subset_union_left he, heq⟩

/-- The losers can be dropped when they are reported. -/
theorem drop (hlosers : ∀ hash, hash ∈ losers ↔ ∃ e ∈ Settlement.lost H, e.hash = hash) :
    Keeps E (winners H) (reported ++ losers) where
  subset := (Settlement.winners_subset H).trans h.subset
  winners_subset := h.winners_eq.ge
  dropped := by
    intro e he hne
    by_cases hmem : e ∈ H
    · exact List.mem_append_right _ ((hlosers _).mpr ⟨e, Finset.mem_sdiff.mpr ⟨hmem, hne⟩, rfl⟩)
    · exact List.mem_append_left _ (h.dropped e he hmem)
  lost := by
    intro hash hhash
    rcases List.mem_append.mp hhash with hhash | hhash
    · exact h.lost hash hhash
    · obtain ⟨e, he, heq⟩ := (hlosers hash).mp hhash
      exact ⟨e, lost_mono h.subset he, heq⟩

/-- The losers are those reported and those that are still kept. -/
theorem exists_lost_iff {hash : String} : (∃ e ∈ Settlement.lost E, e.hash = hash) ↔
    hash ∈ reported ∨ ∃ e ∈ Settlement.lost H, e.hash = hash := by
  constructor
  · rintro ⟨e, he, rfl⟩
    by_cases hmem : e ∈ H
    · refine .inr ⟨e, Finset.mem_sdiff.mpr ⟨hmem, ?_⟩, rfl⟩
      rw [h.winners_eq]
      exact (Finset.mem_sdiff.mp he).2
    · exact .inl (h.dropped e (Finset.mem_sdiff.mp he).1 hmem)
  · rintro (hhash | ⟨e, he, heq⟩)
    · exact h.lost hash hhash
    · exact ⟨e, lost_mono h.subset he, heq⟩

end Keeps

/-- The outcome without the conflicts it reports. -/
def books (o : Option (Except ArxiaError ReconciliationReport)) :
    Option (Except ArxiaError ReconciliationReport) :=
  o.map fun r ↦ r.map fun report ↦ { report with conflicts := [] }

/-- The books depend on the winners alone. -/
theorem Outcome.sameBooks {E' : Finset Entry} (hwinners : winners E = winners E')
    (hslice : Sliceable (winners E)) {o o' : Option (Except ArxiaError ReconciliationReport)}
    (h : Outcome E o) (h' : Outcome E' o') : SameOutcome (books o) (books o') := by
  cases h with
  | panic hnot => exact absurd hslice hnot
  | insolvent _ a ha hneg =>
    rw [hwinners] at hslice ha hneg
    cases h' with
    | panic hnot => exact absurd hslice hnot
    | insolvent => exact .error _ _
    | settled _ hsolvent => exact absurd (hsolvent a ha) (not_le.mpr hneg)
  | settled _ hsolvent r hr =>
    rw [hwinners] at hslice hsolvent
    cases h' with
    | panic hnot => exact absurd hslice hnot
    | insolvent _ a ha hneg => exact absurd (hsolvent a ha) (not_le.mpr hneg)
    | settled _ _ r' hr' =>
      exact .ok {
        balances := fun a ↦ (hr.balances a).trans (hwinners ▸ (hr'.balances a).symm)
        conflicts := .refl []
        rejectedReceives := (List.perm_ext_iff_of_nodup hr.nodup_receives hr'.nodup_receives).mpr
          fun x ↦ (hr.rejectedReceives x).trans (hwinners ▸ (hr'.rejectedReceives x).symm)
        rejectedGenesis := (List.perm_ext_iff_of_nodup hr.nodup_genesis hr'.nodup_genesis).mpr
          fun x ↦ (hr.rejectedGenesis x).trans (hwinners ▸ (hr'.rejectedGenesis x).symm) }

end Settlement

namespace Reconciliation

open Settlement

variable {K : Crates}

/-- The losers that an outcome reports. -/
def reportedLosers (o : Option (Except ArxiaError ReconciliationReport)) : List String :=
  (o.bind Except.toOption).elim [] fun report ↦
    report.conflicts.flatMap ResolvedConflict.loserHashes

/-- What a node holds, and which losers have been reported to it. -/
structure Holdings where
  blocks : List Block
  reported : List String

/-- A node reconciles with a partition, and drops the losers. -/
def Holdings.absorb (h : Holdings) (next : Orders × List Block) : Holdings :=
  let losers := reportedLosers (reconcilePartitions next.1 h.blocks next.2).exec
  { blocks := (h.blocks ++ next.2).filter fun b ↦ b.hash ∉ losers
    reported := h.reported ++ losers }

/-- One partition after another. -/
def absorbAll (first : List Block) (partitions : List (Orders × List Block)) : Holdings :=
  partitions.foldl Holdings.absorb ⟨first, []⟩

/-- All the blocks there ever were. -/
def allBlocks (first : List Block) (partitions : List (Orders × List Block)) : List Block :=
  first ++ partitions.flatMap Prod.snd

theorem reportedLosers_cases {E : Finset Entry}
    {o : Option (Except ArxiaError ReconciliationReport)} (h : Outcome E o) :
    reportedLosers o = [] ∨ ∀ hash, hash ∈ reportedLosers o ↔ ∃ e ∈ lost E, e.hash = hash := by
  cases h with
  | panic => exact .inl rfl
  | insolvent => exact .inl rfl
  | settled _ _ report hreport => exact .inr fun hash ↦ hreport.mem_loserHashes

/-! ## Blocks under their own hashes -/

section Hashed

variable (hserde : Serde K) {blocks blocks' : List Block}

include hserde

theorem entries_append (hhashed : ∀ b ∈ blocks ++ blocks', b.Hashed K)
    (hcf : Block.CollisionFree K (blocks ++ blocks')) :
    entries (blocks ++ blocks') = entries blocks ∪ entries blocks' := by
  have hleft : ∀ b ∈ blocks, b ∈ blocks ++ blocks' := fun _ hb ↦ List.mem_append_left _ hb
  have hright : ∀ b ∈ blocks', b ∈ blocks ++ blocks' := fun _ hb ↦ List.mem_append_right _ hb
  ext e
  rw [Finset.mem_union, mem_entries_of_collisionFree hserde hhashed hcf,
    mem_entries_of_collisionFree hserde (fun b hb ↦ hhashed b (hleft b hb)) (hcf.mono hleft),
    mem_entries_of_collisionFree hserde (fun b hb ↦ hhashed b (hright b hb)) (hcf.mono hright)]
  simp only [List.mem_append, or_and_right, exists_or]

/-- Without the losers the winners are left. -/
theorem entries_filter (hhashed : ∀ b ∈ blocks, b.Hashed K) (hcf : Block.CollisionFree K blocks)
    {losers : List String}
    (hlosers : ∀ hash, hash ∈ losers ↔ ∃ e ∈ lost (entries blocks), e.hash = hash) :
    entries (blocks.filter fun b ↦ b.hash ∉ losers) = winners (entries blocks) := by
  have hsub : ∀ b ∈ blocks.filter fun b ↦ b.hash ∉ losers, b ∈ blocks := fun _ hb ↦
    List.mem_of_mem_filter hb
  ext e
  rw [mem_entries_of_collisionFree hserde (fun b hb ↦ hhashed b (hsub b hb)) (hcf.mono hsub)]
  constructor
  · rintro ⟨b, hb, rfl⟩
    obtain ⟨hmem, hnot⟩ := List.mem_filter.mp hb
    have he := (mem_entries_of_collisionFree hserde hhashed hcf).mpr ⟨b, hmem, rfl⟩
    by_contra hloses
    exact of_decide_eq_true hnot ((hlosers _).mpr ⟨_, Finset.mem_sdiff.mpr ⟨he, hloses⟩, rfl⟩)
  · intro he
    have hentry := winners_subset _ he
    obtain ⟨b, hb, rfl⟩ := (mem_entries_of_collisionFree hserde hhashed hcf).mp hentry
    refine ⟨b, List.mem_filter.mpr ⟨hb, decide_eq_true fun hloses ↦ ?_⟩, rfl⟩
    obtain ⟨e, hlost, hhash⟩ := (hlosers _).mp hloses
    obtain ⟨hmem, hnot⟩ := Finset.mem_sdiff.mp hlost
    obtain rfl := injOn_hash_entries blocks hmem hentry hhash
    exact hnot he

/-- What a node holds, after it has seen these blocks. -/
structure Follows (seen : List Block) (h : Holdings) : Prop where
  subset : ∀ b ∈ h.blocks, b ∈ seen
  keeps : Keeps (entries seen) (entries h.blocks) h.reported

omit hserde in
theorem Follows.mem_append {seen : List Block} {held : Holdings} (h : Follows seen held) :
    ∀ b ∈ held.blocks ++ blocks, b ∈ seen ++ blocks := fun b hb ↦
  List.mem_append.mpr ((List.mem_append.mp hb).imp_left (h.subset b))

/-- New blocks are kept for the time being. -/
theorem Follows.keeps_append {seen : List Block} {held : Holdings} (h : Follows seen held)
    (hhashed : ∀ b ∈ seen ++ blocks, b.Hashed K) (hcf : Block.CollisionFree K (seen ++ blocks)) :
    Keeps (entries (seen ++ blocks)) (entries (held.blocks ++ blocks)) held.reported := by
  rw [entries_append hserde hhashed hcf,
    entries_append hserde (fun b hb ↦ hhashed b (h.mem_append b hb)) (hcf.mono h.mem_append)]
  exact h.keeps.union (entries blocks)

theorem Follows.absorb {seen : List Block} {held : Holdings} {next : Orders × List Block}
    (hhashed : ∀ b ∈ seen ++ next.2, b.Hashed K)
    (hcf : Block.CollisionFree K (seen ++ next.2)) (h : Follows seen held) :
    Follows (seen ++ next.2) (held.absorb next) := by
  have hheld : ∀ b ∈ held.blocks ++ next.2, b.Hashed K := fun b hb ↦ hhashed b (h.mem_append b hb)
  have hkeeps := h.keeps_append hserde hhashed hcf
  refine ⟨fun b hb ↦ h.mem_append b (List.mem_of_mem_filter hb), ?_⟩
  rw [Holdings.absorb]
  rcases reportedLosers_cases (outcome_reconcilePartitions next.1 held.blocks next.2)
    with hnone | hlosers
  · rw [hnone]
    simpa using hkeeps
  · rw [entries_filter hserde hheld (hcf.mono h.mem_append) hlosers]
    exact hkeeps.drop hlosers

theorem follows_absorbAll {first : List Block} {partitions : List (Orders × List Block)}
    (hhashed : ∀ b ∈ allBlocks first partitions, b.Hashed K)
    (hcf : Block.CollisionFree K (allBlocks first partitions)) :
    Follows (allBlocks first partitions) (absorbAll first partitions) := by
  induction partitions using List.reverseRecOn with
  | nil =>
    rw [allBlocks, List.flatMap_nil, List.append_nil]
    exact ⟨fun _ hb ↦ hb, .all _⟩
  | append_singleton partitions next ih =>
    have hall : allBlocks first (partitions ++ [next]) = allBlocks first partitions ++ next.2 := by
      rw [allBlocks, allBlocks, List.flatMap_append, List.flatMap_singleton, List.append_assoc]
    have hsub : ∀ b ∈ allBlocks first partitions, b ∈ allBlocks first partitions ++ next.2 :=
      fun _ hb ↦ List.mem_append_left _ hb
    rw [hall] at hhashed hcf ⊢
    rw [absorbAll, List.foldl_concat]
    exact (ih (fun b hb ↦ hhashed b (hsub b hb)) (hcf.mono hsub)).absorb hserde hhashed hcf

/-- **Reconciling step by step.** A node reconciles with any partitions one after another, each time
drops the losers that the report lists, and reconciles what it holds with one more. The balances and
the rejections are those of all the blocks at once, or both calls fail. And the losers among all the
blocks are those that one of the reports has listed. -/
theorem sameOutcome_absorbAll {first last : List Block} {partitions : List (Orders × List Block)}
    (hhash : ∀ b ∈ allBlocks first partitions ++ last, Block.computeHash K b.account b.previous
      b.blockType b.balance b.nonce b.timestamp = .ok b.hash)
    (hcf : Block.CollisionFree K (allBlocks first partitions ++ last)) (σ σ' : Orders) :
    SameOutcome (books (reconcilePartitions σ (absorbAll first partitions).blocks last).exec)
        (books (reconcilePartitions σ' (allBlocks first partitions) last).exec) ∧
      ∀ report, (reconcilePartitions σ' (allBlocks first partitions) last).exec =
          some (.ok report) →
        ∀ hash, hash ∈ report.conflicts.flatMap ResolvedConflict.loserHashes ↔
          hash ∈ (absorbAll first partitions).reported ∨ hash ∈ reportedLosers
            (reconcilePartitions σ (absorbAll first partitions).blocks last).exec := by
  have hhashed : ∀ b ∈ allBlocks first partitions ++ last, b.Hashed K := fun b hb ↦
    Block.computeHash_eq_ok.mp (hhash b hb)
  have hsub : ∀ b ∈ allBlocks first partitions, b ∈ allBlocks first partitions ++ last :=
    fun _ hb ↦ List.mem_append_left _ hb
  have hfollows := follows_absorbAll hserde (fun b hb ↦ hhashed b (hsub b hb)) (hcf.mono hsub)
  have hkeeps := hfollows.keeps_append hserde hhashed hcf
  have houtcome := outcome_reconcilePartitions σ (absorbAll first partitions).blocks last
  have houtcome' := outcome_reconcilePartitions σ' (allBlocks first partitions) last
  have hslice := sliceable_of_hashed fun b hb ↦ hhashed b (hfollows.mem_append b hb)
  refine ⟨houtcome.sameBooks hkeeps.winners_eq hslice houtcome', fun report hok hash ↦ ?_⟩
  rw [hok] at houtcome'
  cases houtcome' with
  | settled _ hsolvent _ hreport =>
    rw [hreport.mem_loserHashes, hkeeps.exists_lost_iff]
    -- with the same winners the last call of the node does not fail either
    obtain ⟨report', hok', hreport'⟩ := exists_settles hslice (hkeeps.winners_eq ▸ hsolvent) σ
    rw [hok']
    exact or_congr_right hreport'.mem_loserHashes.symm

end Hashed

end Reconciliation

namespace Reference

open Reconciliation

/-- A second Send of Alice at the same nonce. -/
def sendAgain : Block := sealBlock alice openAlice.hash (.send bob 30) 70 2 5

/-- Bob's first block comes with the second Send. -/
def arrivals : List (Orders × List Block) := [(.asListed, [openBob, sendAgain])]

/-- His Receive comes after that. -/
theorem sameOutcome_absorbAll_arrivals :
    Settlement.SameOutcome
        (Settlement.books (reconcilePartitions .asListed
          (absorbAll [openAlice, sendToBob] arrivals).blocks [receiveFromAlice]).exec)
        (Settlement.books (reconcilePartitions .asListed
          (allBlocks [openAlice, sendToBob] arrivals) [receiveFromAlice]).exec) ∧
      ∀ report, (reconcilePartitions .asListed (allBlocks [openAlice, sendToBob] arrivals)
          [receiveFromAlice]).exec = some (.ok report) →
        ∀ hash, hash ∈ report.conflicts.flatMap ResolvedConflict.loserHashes ↔
          hash ∈ (absorbAll [openAlice, sendToBob] arrivals).reported ∨ hash ∈ reportedLosers
            (reconcilePartitions .asListed (absorbAll [openAlice, sendToBob] arrivals).blocks
              [receiveFromAlice]).exec := by
  have hhash : ∀ b ∈ allBlocks [openAlice, sendToBob] arrivals ++ [receiveFromAlice],
      Block.computeHash serde b.account b.previous b.blockType b.balance b.nonce b.timestamp =
        .ok b.hash := by
    decide +kernel
  exact sameOutcome_absorbAll serde_serde hhash (Block.collisionFree_of_nodup (fun b hb ↦
    Block.computeHash_eq_ok.mp (hhash b hb)) (by decide +kernel)) .asListed .asListed

end Reference

end Arxia
