import Arxia.Core.Error
import Arxia.Rust.Counters
import Arxia.Rust.Grouping
import Mathlib.Data.String.Basic

/-!
# The lattice vector clock

The vector clock of block creation takes no entries beyond `MAX_VECTOR_CLOCK_ENTRIES`: a tick or a
merge that would need one is dropped. The comparison is the one the other clock type has as well, so
it is stated for the maps. It walks over both maps; what comes out is the order of the readings.
-/

namespace Arxia

open Rust HashMap

/-! ## Comparing maps of counters -/

namespace Clocks

/-- The loop over the own entries: `none` is the early return of `false`. -/
def compareEntries (other : HashMap String UInt64) :
    List (Σ _ : String, UInt64) → Bool → Option Bool
  | [], atLeastOneLess => some atLeastOneLess
  | ⟨nodeId, selfVal⟩ :: rest, atLeastOneLess =>
    let otherVal := (other.lookup nodeId).getD 0
    if otherVal < selfVal then none
    else compareEntries other rest (atLeastOneLess || decide (selfVal < otherVal))

/-- Whether the first clock causally happened before the second. -/
def happenedBefore (clocks other : HashMap String UInt64) : Bool :=
  match compareEntries other clocks.entries false with
  | none => false
  | some atLeastOneLess =>
    atLeastOneLess || other.entries.any fun e ↦ decide (e.1 ∉ clocks) && decide (0 < e.2)

/-- Whether neither happened before the other, and they are not equal. -/
def isConcurrent (clocks other : HashMap String UInt64) : Bool :=
  !happenedBefore clocks other && !happenedBefore other clocks && !same clocks other

variable {clocks other : HashMap String UInt64}

theorem compareEntries_eq_some {l : List (Σ _ : String, UInt64)} {less result : Bool} :
    compareEntries other l less = some result ↔ (∀ e ∈ l, e.2.toNat ≤ reading other e.1) ∧
      result = (less || l.any fun e ↦ decide (e.2.toNat < reading other e.1)) := by
  induction l generalizing less with
  | nil => simp [compareEntries, eq_comm]
  | cons e l ih =>
    obtain ⟨k, v⟩ := e
    have hreading : ((other.lookup k).getD 0).toNat = reading other k := rfl
    rw [compareEntries]
    simp only [UInt64.lt_iff_toNat_lt, hreading, List.forall_mem_cons, List.any_cons]
    split
    · rename_i hgt
      exact iff_of_false (by simp) fun h ↦ (h.1.1.trans_lt hgt).false
    · rename_i hle
      rw [ih, Bool.or_assoc, and_assoc]
      exact (and_iff_right (Nat.le_of_not_lt hle)).symm

/-- **The comparison of the code is the order of the readings.** -/
theorem happenedBefore_iff :
    happenedBefore clocks other = true ↔ reading clocks < reading other := by
  have hentry : ∀ {m : HashMap String UInt64} {e : Σ _ : String, UInt64}, e ∈ m.entries →
      reading m e.1 = e.2.toNat := fun he ↦ reading_of_lookup (AList.mem_lookup_iff.mpr he)
  rw [happenedBefore, Pi.lt_def]
  rcases hcompare : compareEntries other clocks.entries false with _ | less
  · refine iff_of_false (by simp) fun ⟨hle, _⟩ ↦ ?_
    have hsome : compareEntries other clocks.entries false = some _ := compareEntries_eq_some.mpr
      ⟨fun e he ↦ (hentry (m := clocks) he).symm.trans_le (hle e.1), rfl⟩
    rw [hcompare] at hsome
    simp at hsome
  · obtain ⟨hle, hless⟩ := compareEntries_eq_some.mp hcompare
    have hreading : reading clocks ≤ reading other := by
      intro k
      by_cases hk : k ∈ clocks
      · obtain ⟨v, hv⟩ := exists_lookup hk
        rw [reading_of_lookup hv]
        exact hle ⟨k, v⟩ (AList.mem_lookup_iff.mp hv)
      · rw [reading_of_notMem hk]
        exact Nat.zero_le _
    simp only [hless, Bool.false_or, Bool.or_eq_true, List.any_eq_true, decide_eq_true_iff,
      Bool.and_eq_true]
    constructor
    · rintro (⟨e, he, hlt⟩ | ⟨e, he, hnot, hpos⟩)
      · exact ⟨hreading, e.1, (hentry he).trans_lt hlt⟩
      · refine ⟨hreading, e.1, ?_⟩
        rw [reading_of_notMem hnot, hentry he]
        exact UInt64.lt_iff_toNat_lt.mp hpos
    · rintro ⟨-, k, hlt⟩
      by_cases hk : k ∈ clocks
      · obtain ⟨v, hv⟩ := exists_lookup hk
        rw [reading_of_lookup hv] at hlt
        exact Or.inl ⟨⟨k, v⟩, AList.mem_lookup_iff.mp hv, hlt⟩
      · -- only the second loop sees a name the first map has no entry for
        rw [reading_of_notMem hk] at hlt
        have hmem : k ∈ other := by
          by_contra hnot
          rw [reading_of_notMem hnot] at hlt
          exact lt_irrefl 0 hlt
        obtain ⟨v, hv⟩ := exists_lookup hmem
        rw [reading_of_lookup hv] at hlt
        exact Or.inr ⟨⟨k, v⟩, AList.mem_lookup_iff.mp hv, hk, UInt64.lt_iff_toNat_lt.mpr hlt⟩

section Shows

variable {v w : String → ℕ}

theorem happenedBefore_iff_of_shows (h : Shows clocks v) (h' : Shows other w) :
    happenedBefore clocks other = true ↔ v < w := by
  rw [happenedBefore_iff, h.reading_eq, h'.reading_eq]

theorem isConcurrent_iff_of_shows (h : Shows clocks v) (h' : Shows other w) :
    isConcurrent clocks other = true ↔ ¬ v < w ∧ ¬ w < v ∧ v ≠ w := by
  have hsame : same clocks other = true ↔ v = w := by
    rw [same_iff]
    constructor
    · intro hlookup
      rw [← h.reading_eq, ← h'.reading_eq]
      funext k
      rw [reading, reading, hlookup k]
    · rintro rfl
      exact h.lookup_eq h'
  simp only [isConcurrent, Bool.and_eq_true, Bool.not_eq_true', ← Bool.not_eq_true,
    happenedBefore_iff_of_shows h h', happenedBefore_iff_of_shows h' h, hsame, and_assoc, Ne]

end Shows

end Clocks

/-! ## The clock -/

/-- Vector clock for causal ordering. -/
structure VectorClock where
  /-- Map from node ID to logical clock value. -/
  clocks : HashMap String UInt64

namespace VectorClock

/-- Create a new empty vector clock. -/
def new : VectorClock := ⟨∅⟩

/-- Increment the clock for the given node; a full clock takes no new entries. -/
def tick (vc : VectorClock) (nodeId : String) : VectorClock :=
  if nodeId ∉ vc.clocks ∧ MAX_VECTOR_CLOCK_ENTRIES ≤ vc.clocks.entries.length then vc
  else ⟨vc.clocks.insert nodeId (((vc.clocks.lookup nodeId).getD 0).saturatingAdd 1)⟩

/-- One entry of the clock merged with. -/
def mergeEntry (clocks : HashMap String UInt64) (e : Σ _ : String, UInt64) :
    HashMap String UInt64 :=
  if e.1 ∉ clocks ∧ MAX_VECTOR_CLOCK_ENTRIES ≤ clocks.entries.length then clocks
  else raise clocks e.1 e.2

/-- Merge with another vector clock (element-wise max). The names come sorted. -/
def merge (c other : VectorClock) : VectorClock :=
  ⟨(sortBy Sigma.fst other.clocks.entries).foldl mergeEntry c.clocks⟩

/-- Returns true if the clock causally happened before the other. -/
def happenedBefore (c other : VectorClock) : Bool := Clocks.happenedBefore c.clocks other.clocks

/-- Returns true if the two are concurrent. -/
def isConcurrent (c other : VectorClock) : Bool := Clocks.isConcurrent c.clocks other.clocks

/-! ## While there is room -/

/-- Among few enough names there is room for one more. -/
theorem has_room {clocks : HashMap String UInt64} {ids : Finset String}
    (hids : ids.card ≤ MAX_VECTOR_CLOCK_ENTRIES) (hsub : ∀ k ∈ clocks, k ∈ ids) {nodeId : String}
    (hmem : nodeId ∈ ids) :
    ¬ (nodeId ∉ clocks ∧ MAX_VECTOR_CLOCK_ENTRIES ≤ clocks.entries.length) := by
  rintro ⟨hnot, hfull⟩
  have hkeys : clocks.keys.toFinset ⊆ ids.erase nodeId := by
    intro k hk
    have hk := AList.mem_keys.mpr (List.mem_toFinset.mp hk)
    exact Finset.mem_erase.mpr ⟨fun heq ↦ hnot (heq ▸ hk), hsub k hk⟩
  have hcard := Finset.card_le_card hkeys
  rw [List.toFinset_card_of_nodup clocks.keys_nodup, Finset.card_erase_of_mem hmem, AList.keys,
    List.keys, List.length_map] at hcard
  have hpos := Finset.card_pos.mpr ⟨nodeId, hmem⟩
  omega

/-- Merging names among few enough is merging without a cap. -/
theorem foldl_mergeEntry {ids : Finset String} (hids : ids.card ≤ MAX_VECTOR_CLOCK_ENTRIES)
    {l : List (Σ _ : String, UInt64)} (hl : ∀ e ∈ l, e.1 ∈ ids) {clocks : HashMap String UInt64}
    (hsub : ∀ k ∈ clocks, k ∈ ids) :
    l.foldl mergeEntry clocks = l.foldl (fun m e ↦ raise m e.1 e.2) clocks := by
  induction l generalizing clocks with
  | nil => rfl
  | cons e l ih =>
    obtain ⟨he, hl⟩ := List.forall_mem_cons.mp hl
    rw [List.foldl_cons, List.foldl_cons, mergeEntry, if_neg (has_room hids hsub he)]
    refine ih hl fun k hk ↦ ?_
    rcases (AList.mem_insert _).mp hk with rfl | hk
    · exact he
    · exact hsub k hk

section Shows

variable {c other : VectorClock} {v w : String → ℕ} {ids : Finset String}

/-- The names a clock shows are those that have been counted. -/
theorem mem_of_shows {clocks : HashMap String UInt64} (h : Shows clocks v)
    (hv : ∀ k, v k ≠ 0 → k ∈ ids) : ∀ k ∈ clocks, k ∈ ids := fun k hk ↦ hv k (h.mem_iff.mp hk)

theorem shows_tick (h : Shows c.clocks v) (hids : ids.card ≤ MAX_VECTOR_CLOCK_ENTRIES)
    (hv : ∀ k, v k ≠ 0 → k ∈ ids) {nodeId : String} (hmem : nodeId ∈ ids)
    (hmax : v nodeId + 1 ≤ u64Max) :
    Shows (c.tick nodeId).clocks (Function.update v nodeId (v nodeId + 1)) := by
  rw [tick, if_neg (has_room hids (mem_of_shows h hv) hmem)]
  apply h.insert
  rw [UInt64.toNat_saturatingAdd, ← reading, h.reading_eq, UInt64.toNat_one]
  exact min_eq_left hmax

theorem shows_merge (h : Shows c.clocks v) (h' : Shows other.clocks w)
    (hids : ids.card ≤ MAX_VECTOR_CLOCK_ENTRIES) (hv : ∀ k, v k ≠ 0 → k ∈ ids)
    (hw : ∀ k, w k ≠ 0 → k ∈ ids) : Shows (c.merge other).clocks (v ⊔ w) := by
  have hperm := sortBy_perm Sigma.fst other.clocks.entries
  have hnodup := (List.perm_nodupKeys hperm).mpr other.clocks.nodupKeys
  have hmem : ∀ e ∈ sortBy Sigma.fst other.clocks.entries, e.1 ∈ ids := fun e he ↦
    mem_of_shows h' hw e.1 (AList.mem_keys.mpr (List.mem_keys_of_mem (hperm.subset he)))
  refine h.merge h' fun k ↦ ?_
  rw [merge, foldl_mergeEntry hids hmem (mem_of_shows h hv), count?_foldl_raise hnodup,
    List.perm_dlookup k hnodup hperm]
  rfl

end Shows

end VectorClock

end Arxia
