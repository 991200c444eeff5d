import Arxia.Core.Crypto
import Arxia.Rust.Ordered
import Arxia.Rust.Removals
import Arxia.Rust.UInt64
import Mathlib.Data.Prod.Lex

/-!
# Pruning of clocks

A clock with timestamps is pruned in two passes: entries that have been silent for too long go, and
if more than `cap` are left, those that count least, until `cap` are left. Entries that count the
same go by the bytes of their node.

`PrunedAs young` is what pruning is for, when `young` says which entries stay in the first pass. The
code is pruned as its own test says. That test compares two saturating numbers, so it is not quite
the comparison of an age with a number of days. An entry that is `u64::MAX` seconds old goes however
long the expiry, and an entry seen after the reference time goes when the expiry is zero days,
although its age is negative. `pruned_exactly_iff` says that these are the only two exceptions.
-/

open Rust

namespace Arxia

/-- `SECS_PER_DAY`. -/
def SECS_PER_DAY : UInt64 := 86400

/-- A timestamped vector clock entry. -/
structure VectorClockEntry where
  counter : UInt64
  lastSeenUnix : UInt64
  deriving DecidableEq

/-- Result of a pruning operation. -/
inductive PruningResult
  | clean
  | expiredRemoved (count : ℕ)
  | forcedPruning (evicted : ℕ)
  deriving DecidableEq

/-- The clock: node ids and their entries. -/
abbrev TimedClock := HashMap AccountId VectorClockEntry

namespace TimedClock

/-- The closure of `retain` in `prune_expired`. -/
def isRetained (expiryDays referenceTimeUnix : UInt64) (entry : VectorClockEntry) : Bool :=
  decide (referenceTimeUnix.saturatingSub entry.lastSeenUnix <
    expiryDays.saturatingMul SECS_PER_DAY)

/-- `prune_expired`. -/
def pruneExpired (clock : TimedClock) (expiryDays referenceTimeUnix : UInt64) :
    PruningResult × TimedClock :=
  let kept := clock.retain fun _ entry ↦ isRetained expiryDays referenceTimeUnix entry
  let removed := clock.size - kept.size
  (if removed = 0 then .clean else .expiredRemoved removed, kept)

/-- Ids are compared by their bytes. -/
def idOrder (id : AccountId) : List ℕ := id.toList.map UInt8.toNat

/-- Entries are sorted by counter, and then by id. -/
def evictionOrder (e : AccountId × UInt64) : ℕ ×ₗ List ℕ := toLex (e.2.toNat, idOrder e.1)

/-- `prune_to_cap`. -/
def pruneToCap (clock : TimedClock) (cap : ℕ) : PruningResult × TimedClock :=
  if clock.size ≤ cap then (.clean, clock)
  else
    let toEvict := clock.size - cap
    let entries := (clock.inOrder idOrder).map fun e ↦ (e.1, e.2.counter)
    let entries := sortBy evictionOrder entries
    let evictedIds := (entries.take toEvict).map Prod.fst
    (.forcedPruning evictedIds.length, clock.removeAll evictedIds)

/-- `prune_all`. -/
def pruneAll (clock : TimedClock) (expiryDays : UInt64) (cap : ℕ) (referenceTimeUnix : UInt64) :
    PruningResult × TimedClock :=
  let (expiredResult, clock) := clock.pruneExpired expiryDays referenceTimeUnix
  let (forcedResult, clock) := clock.pruneToCap cap
  match forcedResult with
  | .forcedPruning evicted => (.forcedPruning evicted, clock)
  | _ => (expiredResult, clock)

/-! ## What pruning is for -/

section PrunedAs

variable (young : VectorClockEntry → Prop) [DecidablePred young] (clock : TimedClock) (cap : ℕ)

/-- The young entries, with what they are ranked by. -/
def ranked : List (AccountId × UInt64) :=
  (clock.entries.filter fun e ↦ young e.2).map fun e ↦ (e.1, e.2.counter)

/-- The entry is young, and fewer than `cap` young ones rank above it. -/
def Survives (id : AccountId) (entry : VectorClockEntry) : Prop :=
  young entry ∧ Ranking.countAbove evictionOrder (ranked young clock) (id, entry.counter) < cap

/-- The most severe of what had to be done. -/
def severest : PruningResult :=
  let kept := clock.entries.countP fun e ↦ young e.2
  let expired := clock.entries.countP fun e ↦ ¬ young e.2
  if cap < kept then .forcedPruning (kept - cap)
  else if 0 < expired then .expiredRemoved expired
  else .clean

/-- The entries left are the `cap` greatest of the young ones, as they were, and the result says
what had to be done. -/
structure PrunedAs (out : PruningResult × TimedClock) : Prop where
  lookup : ∀ id entry, out.2.lookup id = some entry ↔
    clock.lookup id = some entry ∧ Survives young clock cap id entry
  size : out.2.size = min cap (clock.entries.countP fun e ↦ young e.2)
  result : out.1 = severest young clock cap

end PrunedAs

/-! ## Enforcing the cap -/

variable {clock : TimedClock} {cap : ℕ} {id : AccountId} {entry : VectorClockEntry}

theorem idOrder_injective : Function.Injective idOrder := by
  intro id id' h
  exact Vector.toList_inj.mp (List.map_injective_iff.mpr (fun _ _ ↦ UInt8.toNat_inj.mp) h)

theorem evictionOrder_injective : Function.Injective evictionOrder := by
  rintro ⟨id, counter⟩ ⟨id', counter'⟩ h
  obtain ⟨hcounter, hid⟩ := Prod.mk.inj (toLex.injective h)
  exact Prod.ext (idOrder_injective hid) (UInt64.toNat_inj.mp hcounter)

/-- The entries of a clock, with what they are ranked by. -/
def standings (clock : TimedClock) : List (AccountId × UInt64) :=
  clock.entries.map fun e ↦ (e.1, e.2.counter)

/-- The entries as `prune_to_cap` sorts them. -/
def byStanding (clock : TimedClock) : List (AccountId × UInt64) :=
  sortBy evictionOrder ((clock.inOrder idOrder).map fun e ↦ (e.1, e.2.counter))

theorem length_standings (clock : TimedClock) : (standings clock).length = clock.size :=
  List.length_map _

theorem mem_standings (h : clock.lookup id = some entry) :
    (id, entry.counter) ∈ standings clock :=
  List.mem_map_of_mem (f := fun e : Σ _ : AccountId, VectorClockEntry ↦ (e.1, e.2.counter))
    (AList.mem_lookup_iff.mp h)

theorem byStanding_perm (clock : TimedClock) : (byStanding clock).Perm (standings clock) := by
  refine (sortBy_perm _ _).trans ?_
  have h := (sortBy_perm (fun e : AccountId × VectorClockEntry ↦ idOrder e.1)
    (clock.entries.map fun e ↦ (e.1, e.2))).map fun e ↦ (e.1, e.2.counter)
  rwa [List.map_map] at h

theorem nodup_ids_byStanding (clock : TimedClock) : ((byStanding clock).map Prod.fst).Nodup := by
  refine ((byStanding_perm clock).map Prod.fst).nodup_iff.mpr ?_
  rw [standings, List.map_map]
  exact clock.keys_nodup

theorem byStanding_pairwise (clock : TimedClock) :
    (byStanding clock).Pairwise fun e e' ↦ evictionOrder e < evictionOrder e' := by
  have hnodup : (byStanding clock).Nodup := (nodup_ids_byStanding clock).of_map _
  refine ((sortBy_pairwise evictionOrder _).and hnodup).imp fun {e e'} h ↦ ?_
  exact lt_of_le_of_ne h.1 fun heq ↦ h.2 (evictionOrder_injective heq)

/-- The ids that `prune_to_cap` removes from a clock that is over the cap. -/
def evictedIds (clock : TimedClock) (cap : ℕ) : List AccountId :=
  ((byStanding clock).take (clock.size - cap)).map Prod.fst

theorem length_evictedIds (clock : TimedClock) (cap : ℕ) :
    (evictedIds clock cap).length = clock.size - cap := by
  rw [evictedIds, List.length_map, List.length_take, (byStanding_perm clock).length_eq,
    length_standings, Nat.min_eq_left (Nat.sub_le _ _)]

theorem nodup_evictedIds (clock : TimedClock) (cap : ℕ) : (evictedIds clock cap).Nodup :=
  (nodup_ids_byStanding clock).sublist ((List.take_sublist _ _).map _)

theorem mem_of_mem_evictedIds (h : id ∈ evictedIds clock cap) : id ∈ clock := by
  obtain ⟨standing, htake, rfl⟩ := List.mem_map.mp h
  have hmem := (byStanding_perm clock).mem_iff.mp (List.mem_of_mem_take htake)
  obtain ⟨e, he, rfl⟩ := List.mem_map.mp hmem
  exact AList.mem_keys.mpr (List.mem_keys_of_mem he)

/-- **The ids that stay** are those of the `cap` greatest entries. -/
theorem notMem_evictedIds_iff (h : clock.lookup id = some entry) :
    id ∉ evictedIds clock cap ↔
      Ranking.countAbove evictionOrder (standings clock) (id, entry.counter) < cap := by
  have hperm := byStanding_perm clock
  have hmem : (id, entry.counter) ∈ byStanding clock := hperm.mem_iff.mpr (mem_standings h)
  have hlen : clock.size = (byStanding clock).length :=
    (length_standings clock).symm.trans hperm.length_eq.symm
  have hsplit := List.take_append_drop (clock.size - cap) (byStanding clock)
  have hnodup := nodup_ids_byStanding clock
  rw [← hsplit, List.map_append] at hnodup
  have hdisjoint := (List.nodup_append.mp hnodup).2.2
  have hdrop := Ranking.mem_drop_iff (n := cap) (x := (id, entry.counter))
    (byStanding_pairwise clock)
  rw [← hlen, Ranking.countAbove_perm hperm] at hdrop
  rw [evictedIds]
  constructor
  · intro hnot
    rw [← hsplit, List.mem_append] at hmem
    refine (hdrop.mp (hmem.resolve_left fun htake ↦ hnot ?_)).2
    exact List.mem_map_of_mem (f := Prod.fst) htake
  · intro hlt hid
    have hin := List.mem_map_of_mem (f := Prod.fst) (hdrop.mpr ⟨hmem, hlt⟩)
    exact hdisjoint id hid id hin rfl

theorem pruneToCap_of_le (h : clock.size ≤ cap) : clock.pruneToCap cap = (.clean, clock) :=
  if_pos h

theorem pruneToCap_of_lt (h : cap < clock.size) :
    clock.pruneToCap cap =
      (.forcedPruning (clock.size - cap), clock.removeAll (evictedIds clock cap)) := by
  have hcode : clock.pruneToCap cap = (.forcedPruning (evictedIds clock cap).length,
      clock.removeAll (evictedIds clock cap)) := if_neg (not_le.mpr h)
  rw [hcode, length_evictedIds]

theorem lookup_pruneToCap : (clock.pruneToCap cap).2.lookup id = some entry ↔
    clock.lookup id = some entry ∧
      Ranking.countAbove evictionOrder (standings clock) (id, entry.counter) < cap := by
  rcases Nat.lt_or_ge cap clock.size with h | h
  · rw [pruneToCap_of_lt h, HashMap.lookup_removeAll_eq_some]
    exact and_congr_right notMem_evictedIds_iff
  · rw [pruneToCap_of_le h]
    refine (and_iff_left_of_imp fun hlookup ↦ ?_).symm
    have hlt : Ranking.countAbove evictionOrder (standings clock) (id, entry.counter) <
        (standings clock).length := Ranking.countAbove_lt_length (mem_standings hlookup)
    rw [length_standings] at hlt
    exact hlt.trans_le h

theorem size_pruneToCap : (clock.pruneToCap cap).2.size = min cap clock.size := by
  rcases Nat.lt_or_ge cap clock.size with h | h
  · have hsize := HashMap.size_removeAll (nodup_evictedIds clock cap)
      fun id ↦ mem_of_mem_evictedIds
    rw [length_evictedIds] at hsize
    rw [pruneToCap_of_lt h]
    dsimp only
    omega
  · rw [pruneToCap_of_le h, Nat.min_eq_right h]

/-! ## Both passes -/

variable {expiryDays referenceTimeUnix : UInt64}

/-- The clock after the first pass. -/
def fresh (clock : TimedClock) (expiryDays referenceTimeUnix : UInt64) : TimedClock :=
  clock.retain fun _ entry ↦ isRetained expiryDays referenceTimeUnix entry

/-- The entry stays in the first pass. -/
def IsFresh (expiryDays referenceTimeUnix : UInt64) (entry : VectorClockEntry) : Prop :=
  isRetained expiryDays referenceTimeUnix entry = true

instance : DecidablePred (IsFresh expiryDays referenceTimeUnix) :=
  fun entry ↦ inferInstanceAs (Decidable (isRetained expiryDays referenceTimeUnix entry = true))

theorem decide_isFresh (entry : VectorClockEntry) :
    decide (IsFresh expiryDays referenceTimeUnix entry) =
      isRetained expiryDays referenceTimeUnix entry := Bool.decide_eq_true

theorem lookup_fresh_eq_some :
    (clock.fresh expiryDays referenceTimeUnix).lookup id = some entry ↔
      clock.lookup id = some entry ∧ IsFresh expiryDays referenceTimeUnix entry :=
  HashMap.lookup_retain_eq_some

theorem size_fresh : (clock.fresh expiryDays referenceTimeUnix).size =
    clock.entries.countP fun e ↦ IsFresh expiryDays referenceTimeUnix e.2 := by
  simp_rw [decide_isFresh]
  exact HashMap.size_retain _ _

/-- Those that do not stay are the others. -/
theorem size_sub_size_fresh : clock.size - (clock.fresh expiryDays referenceTimeUnix).size =
    clock.entries.countP fun e ↦ ¬ IsFresh expiryDays referenceTimeUnix e.2 := by
  rw [size_fresh, HashMap.size,
    List.length_eq_countP_add_countP fun e ↦ decide (IsFresh expiryDays referenceTimeUnix e.2),
    Nat.add_sub_cancel_left]
  simp

theorem standings_fresh : standings (clock.fresh expiryDays referenceTimeUnix) =
    ranked (IsFresh expiryDays referenceTimeUnix) clock := by
  rw [ranked]
  simp_rw [decide_isFresh]
  rfl

theorem pruneAll_eq (clock : TimedClock) (expiryDays : UInt64) (cap : ℕ)
    (referenceTimeUnix : UInt64) :
    clock.pruneAll expiryDays cap referenceTimeUnix =
      (severest (IsFresh expiryDays referenceTimeUnix) clock cap,
        ((clock.fresh expiryDays referenceTimeUnix).pruneToCap cap).2) := by
  have hexpired : clock.pruneExpired expiryDays referenceTimeUnix =
      (if clock.size - (clock.fresh expiryDays referenceTimeUnix).size = 0 then .clean
        else .expiredRemoved (clock.size - (clock.fresh expiryDays referenceTimeUnix).size),
        clock.fresh expiryDays referenceTimeUnix) := rfl
  rw [pruneAll, hexpired, severest, ← size_fresh, ← size_sub_size_fresh]
  dsimp only
  rcases Nat.lt_or_ge cap (clock.fresh expiryDays referenceTimeUnix).size with h | h
  · rw [if_pos h, pruneToCap_of_lt h]
  · rw [if_neg (not_lt.mpr h), pruneToCap_of_le h]
    dsimp only
    rcases Nat.eq_zero_or_pos (clock.size - (clock.fresh expiryDays referenceTimeUnix).size)
      with hnone | hsome
    · rw [if_pos hnone, if_neg (Nat.not_lt.mpr hnone.le)]
    · rw [if_neg hsome.ne', if_pos hsome]

/-- **The code prunes** by its own test. -/
theorem prunedAs_pruneAll (clock : TimedClock) (expiryDays : UInt64) (cap : ℕ)
    (referenceTimeUnix : UInt64) :
    PrunedAs (IsFresh expiryDays referenceTimeUnix) clock cap
      (clock.pruneAll expiryDays cap referenceTimeUnix) := by
  rw [pruneAll_eq]
  refine ⟨fun id entry ↦ ?_, ?_, rfl⟩
  · rw [lookup_pruneToCap, lookup_fresh_eq_some, standings_fresh, and_assoc]
    rfl
  · rw [size_pruneToCap, size_fresh]

/-- **A pruned clock** is not pruned again. -/
theorem pruneAll_pruneAll (clock : TimedClock) (expiryDays : UInt64) (cap : ℕ)
    (referenceTimeUnix : UInt64) :
    (clock.pruneAll expiryDays cap referenceTimeUnix).2.pruneAll expiryDays cap
        referenceTimeUnix =
      (.clean, (clock.pruneAll expiryDays cap referenceTimeUnix).2) := by
  have h := prunedAs_pruneAll clock expiryDays cap referenceTimeUnix
  generalize clock.pruneAll expiryDays cap referenceTimeUnix = out at h ⊢
  have hfresh : ∀ e ∈ out.2.entries, IsFresh expiryDays referenceTimeUnix e.2 := fun e he ↦
    ((h.lookup e.1 e.2).mp (AList.mem_lookup_iff.mpr he)).2.1
  have hself : out.2.fresh expiryDays referenceTimeUnix = out.2 := HashMap.retain_eq_self hfresh
  have hsize : out.2.size ≤ cap := h.size ▸ Nat.min_le_left _ _
  have hkept : ¬ cap < out.2.entries.countP fun e ↦ IsFresh expiryDays referenceTimeUnix e.2 :=
    not_lt.mpr (List.countP_le_length.trans hsize)
  have hexpired : (out.2.entries.countP fun e ↦ ¬ IsFresh expiryDays referenceTimeUnix e.2) = 0 :=
    List.countP_eq_zero.mpr fun e he ↦ by simpa using hfresh e he
  rw [pruneAll_eq, hself, pruneToCap_of_le hsize, severest, if_neg hkept, hexpired,
    if_neg (lt_irrefl 0)]

/-! ## Ages -/

/-- The seconds from when the entry was last seen to the reference time. -/
def age (referenceTimeUnix : UInt64) (entry : VectorClockEntry) : ℤ :=
  (referenceTimeUnix.toNat : ℤ) - entry.lastSeenUnix.toNat

/-- The seconds in that many days. -/
def expiry (expiryDays : UInt64) : ℤ := (expiryDays.toNat : ℤ) * 86400

/-- The entry was last seen less than that many days ago. -/
def IsYounger (expiryDays referenceTimeUnix : UInt64) (entry : VectorClockEntry) : Prop :=
  age referenceTimeUnix entry < expiry expiryDays

instance : DecidablePred (IsYounger expiryDays referenceTimeUnix) :=
  fun _ ↦ inferInstanceAs (Decidable (_ < _))

/-- Saturation makes the two equal: the threshold comes down to an age of `u64::MAX` seconds, or a
negative age comes up to an expiry of zero. -/
def Saturates (expiryDays referenceTimeUnix : UInt64) (entry : VectorClockEntry) : Prop :=
  (age referenceTimeUnix entry = u64Max ∧ u64Max < expiry expiryDays) ∨
    (age referenceTimeUnix entry < 0 ∧ expiry expiryDays = 0)

theorem Saturates.isYounger (h : Saturates expiryDays referenceTimeUnix entry) :
    IsYounger expiryDays referenceTimeUnix entry := by
  rw [IsYounger]
  rcases h with ⟨hage, hlong⟩ | ⟨hage, hzero⟩
  · rwa [hage]
  · rwa [hzero]

/-- **The code's test** is too strict where one of its sides saturates and leaves them equal. -/
theorem isFresh_iff : IsFresh expiryDays referenceTimeUnix entry ↔
    IsYounger expiryDays referenceTimeUnix entry ∧
      ¬ Saturates expiryDays referenceTimeUnix entry := by
  have hnow := referenceTimeUnix.toNat_le_u64Max
  have hmax : 0 < u64Max := by decide
  have hday : SECS_PER_DAY.toNat = 86400 := rfl
  rw [IsFresh, isRetained, decide_eq_true_iff, UInt64.lt_iff_toNat_lt, UInt64.toNat_saturatingSub,
    UInt64.toNat_saturatingMul, hday, IsYounger, Saturates, age, expiry]
  omega

section Congr

variable {young young' : VectorClockEntry → Prop} [DecidablePred young] [DecidablePred young']

/-- Tests that agree on the entries of the clock ask for the same. -/
theorem PrunedAs.congr {out : PruningResult × TimedClock}
    (h : ∀ e ∈ clock.entries, young e.2 ↔ young' e.2) (hpruned : PrunedAs young clock cap out) :
    PrunedAs young' clock cap out := by
  have hfilter : ranked young clock = ranked young' clock :=
    congrArg _ (List.filter_congr fun e he ↦ decide_eq_decide.mpr (h e he))
  have hkept : (clock.entries.countP fun e ↦ young e.2) = clock.entries.countP fun e ↦ young' e.2 :=
    List.countP_congr fun e he ↦ by simpa using h e he
  have hexpired : (clock.entries.countP fun e ↦ ¬ young e.2) =
      clock.entries.countP fun e ↦ ¬ young' e.2 :=
    List.countP_congr fun e he ↦ by simpa using not_congr (h e he)
  refine ⟨fun id entry ↦ ?_, hkept ▸ hpruned.size, ?_⟩
  · rw [hpruned.lookup, Survives, Survives, hfilter]
    refine and_congr_right fun hlookup ↦ and_congr_left' ?_
    exact h ⟨id, entry⟩ (AList.mem_lookup_iff.mp hlookup)
  · rw [hpruned.result, severest, severest, hkept, hexpired]

/-- **What was pruned tells the test**, if one test is stricter than the other. -/
theorem PrunedAs.agree {out : PruningResult × TimedClock} (hle : ∀ e, young e → young' e)
    (hpruned : PrunedAs young clock cap out) (hpruned' : PrunedAs young' clock cap out)
    (hlookup : clock.lookup id = some entry) (hyoung : young' entry) : young entry := by
  have hmem : (⟨id, entry⟩ : Σ _ : AccountId, VectorClockEntry) ∈ clock.entries :=
    AList.mem_lookup_iff.mp hlookup
  have hsublist : (clock.entries.filter fun e ↦ young e.2).Sublist
      (clock.entries.filter fun e ↦ young' e.2) :=
    List.monotone_filter_right _ fun e he ↦ decide_eq_true (hle e.2 (of_decide_eq_true he))
  by_contra hnot
  have hlt : (clock.entries.countP fun e ↦ young e.2) <
      clock.entries.countP fun e ↦ young' e.2 := by
    rw [List.countP_eq_length_filter, List.countP_eq_length_filter]
    refine lt_of_le_of_ne hsublist.length_le fun hlen ↦ hnot ?_
    have hin : (⟨id, entry⟩ : Σ _ : AccountId, VectorClockEntry) ∈
        clock.entries.filter fun e ↦ young' e.2 :=
      List.mem_filter.mpr ⟨hmem, decide_eq_true hyoung⟩
    rw [← hsublist.eq_of_length hlen] at hin
    exact of_decide_eq_true (List.mem_filter.mp hin).2
  have hsize := hpruned.size.symm.trans hpruned'.size
  have hresult := hpruned.result.symm.trans hpruned'.result
  have hcap : cap < clock.entries.countP fun e ↦ young' e.2 := by omega
  rw [severest, severest, if_pos hcap] at hresult
  split at hresult
  · have heq := PruningResult.forcedPruning.inj hresult
    omega
  · split at hresult <;> cases hresult

end Congr

/-- **Pruning** keeps the `cap` greatest of the entries younger than the expiry, says what it had to
do and has nothing to do when it is repeated, unless some entry is `u64::MAX` seconds old and the
expiry is longer still, or some entry was seen after the reference time and the expiry is zero. -/
theorem pruned_exactly_iff (clock : TimedClock) (expiryDays : UInt64) (cap : ℕ)
    (referenceTimeUnix : UInt64) :
    (PrunedAs (IsYounger expiryDays referenceTimeUnix) clock cap
        (clock.pruneAll expiryDays cap referenceTimeUnix) ∧
      (clock.pruneAll expiryDays cap referenceTimeUnix).2.pruneAll expiryDays cap
          referenceTimeUnix =
        (.clean, (clock.pruneAll expiryDays cap referenceTimeUnix).2)) ↔
      ¬ ∃ id entry, clock.lookup id = some entry ∧
        Saturates expiryDays referenceTimeUnix entry := by
  have hcode := prunedAs_pruneAll clock expiryDays cap referenceTimeUnix
  constructor
  · rintro ⟨hpruned, -⟩ ⟨id, entry, hlookup, hsaturates⟩
    have hfresh := hcode.agree (fun e he ↦ (isFresh_iff.mp he).1) hpruned hlookup
      hsaturates.isYounger
    exact (isFresh_iff.mp hfresh).2 hsaturates
  · intro hnone
    refine ⟨hcode.congr fun e he ↦ ?_, pruneAll_pruneAll clock expiryDays cap referenceTimeUnix⟩
    rw [isFresh_iff]
    exact and_iff_left fun h ↦ hnone ⟨e.1, e.2, AList.mem_lookup_iff.mpr he, h⟩

/-- A clock with one entry, last seen at the epoch. -/
def silentClock : TimedClock := AList.singleton (Vector.replicate 32 0) ⟨1, 0⟩

/-- At the last second of `u64` the entry of this clock is gone, although the expiry is longer than
that. -/
theorem not_pruned_exactly : ¬ PrunedAs (IsYounger 18446744073709551615 18446744073709551615)
    silentClock 1 (silentClock.pruneAll 18446744073709551615 1 18446744073709551615) :=
  fun h ↦ absurd h.result (by decide +kernel)

end TimedClock

end Arxia
