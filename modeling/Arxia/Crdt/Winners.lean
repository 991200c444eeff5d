import Arxia.Crdt.Settlement

/-!
# The winners of a reconciliation

The first half of `reconcile_partitions` on blocks refines the choice of winners on entries. The
blocks left after deduplication have distinct hashes, so a group has exactly one block of smallest
hash, whatever order the groups come in; the map of winners, the index of the Sends among them and
the list of conflicts are all described by the entries alone.
-/

namespace Arxia

open Rust

namespace Reconciliation

open Settlement

/-- The entries left after deduplication by hash. -/
def entries (blocks : List Block) : Finset Entry :=
  ((firsts Block.hash blocks ∅).map Block.entry).toFinset

theorem mem_entries {blocks : List Block} {e : Entry} :
    e ∈ entries blocks ↔
      (blocks.find? fun b ↦ b.hash = e.hash).map Block.entry = some e := by
  rw [entries, List.mem_toFinset, List.mem_map, Option.map_eq_some_iff]
  constructor
  · rintro ⟨b, hb, rfl⟩
    exact ⟨b, (mem_firsts.mp hb).2, rfl⟩
  · rintro ⟨b, hb, rfl⟩
    exact ⟨b, mem_firsts.mpr ⟨Finset.notMem_empty _, hb⟩, rfl⟩

/-- The entry of the first block with a hash. -/
def firstEntry (blocks : List Block) (hash : String) : Option Entry :=
  (blocks.find? fun b ↦ b.hash = hash).map Block.entry

theorem entries_eq_of_firstEntry {blocks blocks' : List Block}
    (h : ∀ hash, firstEntry blocks' hash = firstEntry blocks hash) :
    entries blocks' = entries blocks := by
  ext e
  rw [mem_entries, mem_entries, ← firstEntry, ← firstEntry, h]

/-- Hashes identify entries. -/
theorem injOn_hash_entries (blocks : List Block) : Set.InjOn Entry.hash (entries blocks) := by
  intro e he e' he' h
  have he := mem_entries.mp he
  rw [h] at he
  exact Option.some_inj.mp (he.symm.trans (mem_entries.mp he'))

/-! ## One group -/

/-- The winner of a group under its key. -/
def winnerOf (e : Σ _ : Key, List Block) : Option (Key × Block) :=
  (sortBy Block.hash e.2).head?.map fun b ↦ (e.1, b)

/-- The conflict of a group, if it has more than one block. -/
def clash (e : Σ _ : Key, List Block) : List ResolvedConflict :=
  match sortBy Block.hash e.2 with
  | winner :: loser :: rest => [{
      account := e.1.1, nonce := e.1.2, winnerHash := winner.hash
      loserHashes := (loser :: rest).map Block.hash, method := "hash_tiebreaker" }]
  | _ => []

theorem exists_sortBy_cons {g : List Block} (h : g ≠ []) :
    ∃ w rest, sortBy Block.hash g = w :: rest := by
  refine List.exists_cons_of_ne_nil fun hnil ↦ h ?_
  exact List.Perm.nil_eq (hnil ▸ sortBy_perm Block.hash g) |>.symm

/-- On a group that is not empty the indices are in bounds. -/
theorem pickWinner_eq (st : Picked) (k : Key) {g : List Block} (h : g ≠ []) :
    ∃ w, winnerOf ⟨k, g⟩ = some (k, w) ∧
      pickWinner st k g = some ⟨st.winners.insert k w, st.conflicts ++ clash ⟨k, g⟩⟩ := by
  obtain ⟨w, rest, hsort⟩ := exists_sortBy_cons h
  refine ⟨w, by rw [winnerOf, hsort]; rfl, ?_⟩
  rw [pickWinner]
  by_cases hlen : g.length = 1
  · obtain ⟨b, rfl⟩ := List.length_eq_one_iff.mp hlen
    rw [sortBy_singleton, List.cons.injEq] at hsort
    obtain ⟨rfl, rfl⟩ := hsort
    rw [if_pos hlen, clash, sortBy_singleton]
    simp
  · have hcard := (sortBy_perm Block.hash g).length_eq
    rw [hsort, List.length_cons] at hcard
    cases rest with
    | nil => exact absurd hcard.symm hlen
    | cons loser rest =>
      rw [if_neg hlen, clash, hsort]
      rfl

/-- The loop over the groups never stops early: it fills the map and appends the conflicts. -/
theorem foldlM_pickWinner {groups : List (Σ _ : Key, List Block)} (h : ∀ e ∈ groups, e.2 ≠ [])
    (st : Picked) : groups.foldlM (fun st e ↦ pickWinner st e.1 e.2) st =
      some ⟨insertAll st.winners (groups.filterMap winnerOf),
        st.conflicts ++ groups.flatMap clash⟩ := by
  induction groups generalizing st with
  | nil => simp [insertAll]
  | cons e groups ih =>
    obtain ⟨w, hwinner, hpick⟩ := pickWinner_eq st e.1 (h e List.mem_cons_self)
    rw [List.foldlM_cons, hpick, Option.bind_eq_bind, Option.bind_some,
      ih fun e he ↦ h e (List.mem_cons_of_mem _ he), List.filterMap_cons_some hwinner,
      insertAll_cons, List.flatMap_cons, List.append_assoc]

/-! ## All groups -/

/-- The block is kept: no block with its account and nonce has a smaller hash. -/
def Wins (all : List Block) (b : Block) : Prop :=
  b ∈ all ∧ ∀ c ∈ all, key c = key b → b.hash ≤ c.hash

section Groups

variable {all : List Block} {groups : List (Σ _ : Key, List Block)}

theorem mem_groups (hperm : groups.Perm (group key all).entries) {k : Key} {g : List Block} :
    (⟨k, g⟩ : Σ _ : Key, List Block) ∈ groups ↔ g = all.filter (fun b ↦ key b = k) ∧ g ≠ [] := by
  rw [hperm.mem_iff, ← lookup_group_eq_some, ← AList.mem_lookup_iff, Option.mem_def]

theorem nodup_keys_groups (hperm : groups.Perm (group key all).entries) :
    (groups.map fun e ↦ e.1).Nodup :=
  ((hperm.map _).nodup_iff).mpr (group key all).nodupKeys

/-- The head of a sorted group wins. -/
theorem wins_of_sortBy {k : Key} {w : Block} {rest : List Block}
    (hsort : sortBy Block.hash (all.filter fun b ↦ key b = k) = w :: rest) :
    Wins all w ∧ key w = k := by
  obtain ⟨hw, hle⟩ := head_sortBy_le hsort
  obtain ⟨hw, hkey⟩ := List.mem_filter.mp hw
  have hkey : key w = k := of_decide_eq_true hkey
  refine ⟨⟨hw, fun c hc hck ↦ hle c (List.mem_filter.mpr ⟨hc, ?_⟩)⟩, hkey⟩
  exact decide_eq_true (hck.trans hkey)

/-- Every winner is the head of the sorted group of its key. -/
theorem Wins.sortBy_eq (hnodup : (all.map Block.hash).Nodup) {b : Block} (h : Wins all b) :
    ∃ rest, sortBy Block.hash (all.filter fun c ↦ key c = key b) = b :: rest := by
  have hmem : b ∈ all.filter fun c ↦ key c = key b :=
    List.mem_filter.mpr ⟨h.1, decide_eq_true rfl⟩
  obtain ⟨w, rest, hsort⟩ := exists_sortBy_cons (List.ne_nil_of_mem hmem)
  obtain ⟨hw, hkey⟩ := wins_of_sortBy hsort
  -- two winners of one key share their hash
  have hhash : w.hash = b.hash := le_antisymm (hw.2 b h.1 hkey.symm) (h.2 w hw.1 hkey)
  obtain rfl := List.inj_on_of_nodup_map hnodup hw.1 h.1 hhash
  exact ⟨rest, hsort⟩

theorem Wins.group_mem (hperm : groups.Perm (group key all).entries) {b : Block}
    (h : Wins all b) :
    (⟨key b, all.filter fun c ↦ key c = key b⟩ : Σ _ : Key, List Block) ∈ groups :=
  (mem_groups hperm).mpr ⟨rfl, List.ne_nil_of_mem
    (List.mem_filter.mpr ⟨h.1, decide_eq_true rfl⟩)⟩

theorem mem_filterMap_winnerOf (hnodup : (all.map Block.hash).Nodup)
    (hperm : groups.Perm (group key all).entries) {k : Key} {b : Block} :
    (k, b) ∈ groups.filterMap winnerOf ↔ Wins all b ∧ key b = k := by
  rw [List.mem_filterMap]
  constructor
  · rintro ⟨⟨k', g⟩, he, hwinner⟩
    obtain ⟨rfl, hne⟩ := (mem_groups hperm).mp he
    obtain ⟨w, rest, hsort⟩ := exists_sortBy_cons hne
    rw [winnerOf, hsort, List.head?_cons, Option.map_some, Option.some_inj,
      Prod.mk.injEq] at hwinner
    obtain ⟨rfl, rfl⟩ := hwinner
    exact wins_of_sortBy hsort
  · rintro ⟨hwins, rfl⟩
    obtain ⟨rest, hsort⟩ := hwins.sortBy_eq hnodup
    refine ⟨_, hwins.group_mem hperm, ?_⟩
    rw [winnerOf, hsort]
    rfl

theorem map_fst_filterMap_winnerOf (hne : ∀ e ∈ groups, e.2 ≠ []) :
    (groups.filterMap winnerOf).map Prod.fst = groups.map fun e ↦ e.1 := by
  rw [List.map_filterMap, ← List.filterMap_eq_map]
  refine List.filterMap_congr fun e he ↦ ?_
  obtain ⟨w, rest, hsort⟩ := exists_sortBy_cons (hne e he)
  rw [winnerOf, hsort]
  rfl

/-- **The map of winners**, for every order of the groups. -/
theorem lookup_winners (hnodup : (all.map Block.hash).Nodup)
    (hperm : groups.Perm (group key all).entries) {k : Key} {b : Block} :
    (insertAll ∅ (groups.filterMap winnerOf)).lookup k = some b ↔ Wins all b ∧ key b = k := by
  have hne : ∀ e ∈ groups, e.2 ≠ [] := fun e he ↦ ((mem_groups hperm).mp he).2
  have hkeys : ((groups.filterMap winnerOf).map Prod.fst).Nodup := by
    rw [map_fst_filterMap_winnerOf hne]
    exact nodup_keys_groups hperm
  rw [lookup_insertAll_empty hkeys, mem_filterMap_winnerOf hnodup hperm]

end Groups

/-! ## Winning blocks and winning entries -/

section Entries

variable {all : List Block} {E : Finset Entry}

/-- The entries of the blocks. -/
def Represents (all : List Block) (E : Finset Entry) : Prop :=
  ∀ e, e ∈ E ↔ ∃ b ∈ all, b.entry = e

theorem Represents.entry_mem (hrep : Represents all E) {b : Block} (hb : b ∈ all) : b.entry ∈ E :=
  (hrep _).mpr ⟨b, hb, rfl⟩

theorem Wins.entry_mem (hrep : Represents all E) {b : Block} (h : Wins all b) :
    b.entry ∈ winners E := by
  refine mem_winners.mpr ⟨hrep.entry_mem h.1, fun e he hkey ↦ ?_⟩
  obtain ⟨c, hc, rfl⟩ := (hrep e).mp he
  exact h.2 c hc hkey

theorem exists_wins (hrep : Represents all E) {w : Entry} (hw : w ∈ winners E) :
    ∃ b, Wins all b ∧ b.entry = w := by
  obtain ⟨hmem, hle⟩ := mem_winners.mp hw
  obtain ⟨b, hb, rfl⟩ := (hrep w).mp hmem
  exact ⟨b, ⟨hb, fun c hc hkey ↦ hle _ (hrep.entry_mem hc) hkey⟩, rfl⟩

/-! ## Conflicts -/

/-- The blocks behind the head of a sorted group are the losers against it. -/
theorem losers_eq (hrep : Represents all E) (hnodup : (all.map Block.hash).Nodup) {k : Key}
    {w : Block} {rest : List Block}
    (hsort : sortBy Block.hash (all.filter fun b ↦ key b = k) = w :: rest) :
    losers E w.entry = rest.map Block.hash := by
  have hperm : (w :: rest).Perm (all.filter fun b ↦ key b = k) := hsort ▸ sortBy_perm _ _
  have hmem : ∀ c, c ∈ w :: rest ↔ c ∈ all ∧ key c = k := fun c ↦ by
    rw [hperm.mem_iff, List.mem_filter, decide_eq_true_iff]
  have hhash : ((w :: rest).map Block.hash).Nodup :=
    ((hperm.map _).nodup_iff).mpr (hnodup.sublist (List.filter_sublist.map _))
  have hsorted : ((w :: rest).map Block.hash).Pairwise (· ≤ ·) :=
    List.pairwise_map.mpr (hsort ▸ sortBy_pairwise Block.hash _)
  rw [List.map_cons, List.nodup_cons] at hhash
  have hkey : key w = k := ((hmem w).mp List.mem_cons_self).2
  -- both lists are sorted and hold the same hashes
  refine List.Perm.eq_of_pairwise (fun a b _ _ ↦ le_antisymm) (Finset.pairwise_sort _ _)
    (List.pairwise_cons.mp hsorted).2 ?_
  refine (List.perm_ext_iff_of_nodup (Finset.sort_nodup _ _) hhash.2).mpr fun x ↦ ?_
  rw [Finset.mem_sort, Finset.mem_erase, Finset.mem_image, List.mem_map]
  constructor
  · rintro ⟨hne, e, he, rfl⟩
    obtain ⟨he, hek⟩ := Finset.mem_filter.mp he
    obtain ⟨c, hc, rfl⟩ := (hrep e).mp he
    have hc : c ∈ w :: rest := (hmem c).mpr ⟨hc, Eq.trans hek hkey⟩
    refine ⟨c, (List.mem_cons.mp hc).resolve_left ?_, rfl⟩
    rintro rfl
    exact hne rfl
  · rintro ⟨c, hc, rfl⟩
    obtain ⟨hall, hck⟩ := (hmem c).mp (List.mem_cons_of_mem _ hc)
    refine ⟨fun h ↦ hhash.1 (List.mem_map.mpr ⟨c, hc, h⟩), c.entry, ?_, rfl⟩
    exact Finset.mem_filter.mpr ⟨hrep.entry_mem hall, hck.trans hkey.symm⟩

theorem clash_eq (hrep : Represents all E) (hnodup : (all.map Block.hash).Nodup) {k : Key}
    {w : Block} {rest : List Block} (hkey : key w = k)
    (hsort : sortBy Block.hash (all.filter fun b ↦ key b = k) = w :: rest) :
    clash ⟨k, all.filter fun b ↦ key b = k⟩ = (conflictOf E w.entry).toList := by
  have hlosers := losers_eq hrep hnodup hsort
  subst hkey
  rw [conflictOf, hlosers]
  cases rest with
  | nil =>
    rw [clash, hsort]
    rfl
  | cons loser rest =>
    rw [clash, hsort, if_neg (by simp)]
    rfl

/-- **The conflicts are those of the winners.** -/
theorem mem_flatMap_clash (hrep : Represents all E) (hnodup : (all.map Block.hash).Nodup)
    {groups : List (Σ _ : Key, List Block)} (hperm : groups.Perm (group key all).entries)
    {x : ResolvedConflict} :
    x ∈ groups.flatMap clash ↔ ∃ w ∈ winners E, conflictOf E w = some x := by
  rw [List.mem_flatMap]
  constructor
  · rintro ⟨⟨k, g⟩, he, hx⟩
    obtain ⟨rfl, hne⟩ := (mem_groups hperm).mp he
    obtain ⟨w, rest, hsort⟩ := exists_sortBy_cons hne
    obtain ⟨hw, hkey⟩ := wins_of_sortBy hsort
    rw [clash_eq hrep hnodup hkey hsort, Option.mem_toList] at hx
    exact ⟨w.entry, hw.entry_mem hrep, hx⟩
  · rintro ⟨w, hw, hx⟩
    obtain ⟨b, hb, rfl⟩ := exists_wins hrep hw
    obtain ⟨rest, hsort⟩ := hb.sortBy_eq hnodup
    refine ⟨_, hb.group_mem hperm, ?_⟩
    rw [clash_eq hrep hnodup rfl hsort, Option.mem_toList]
    exact hx

theorem key_of_mem_clash {e : Σ _ : Key, List Block} {x : ResolvedConflict} (h : x ∈ clash e) :
    (x.account, x.nonce) = e.1 := by
  rw [clash] at h
  split at h
  · rw [List.mem_singleton.mp h]
  · simp at h

theorem nodup_flatMap_clash {groups : List (Σ _ : Key, List Block)}
    (hperm : groups.Perm (group key all).entries) : (groups.flatMap clash).Nodup := by
  rw [List.nodup_flatMap]
  constructor
  · intro e _
    rw [clash]
    split
    · exact List.nodup_singleton _
    · exact List.nodup_nil
  · refine (List.pairwise_map.mp (nodup_keys_groups hperm)).imp fun hne x hx hx' ↦ hne ?_
    exact (key_of_mem_clash hx).symm.trans (key_of_mem_clash hx')

end Entries

end Reconciliation

end Arxia
