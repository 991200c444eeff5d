import Arxia.Core.Crypto
import Arxia.Rust.Ordered
import Mathlib.Data.Prod.Lex

/-!
# The nonce registry

The registry maps an account and a nonce to the hash of the block that claimed them. Registries are
exchanged between neighbours: a merge takes over the keys that are new and reports those that are
claimed by another block, and the comparison before L1 finality counts where two registries differ.

A merge is described by what it leaves behind. What it reports is a list in key order, so the two
merges of an exchange report the same conflicts one after the other, and once both are done the only
keys the registries differ in are those.
-/

namespace Arxia

open Rust

/-- Key used by the nonce registry: (account public key, nonce). -/
abbrev NonceKey := AccountId × UInt64

/-- Registry value: the hash of the block that claimed this `(account, nonce)`. -/
abbrev NonceEntry := BlockHash

/-- Main registry type. -/
abbrev NonceRegistry := HashMap NonceKey NonceEntry

/-- Keys are compared by the bytes of the account, and then by the nonce. -/
def NonceKey.order (key : NonceKey) : List ℕ ×ₗ ℕ :=
  toLex (key.1.toList.map UInt8.toNat, key.2.toNat)

theorem NonceKey.order_injective : Function.Injective NonceKey.order := by
  rintro ⟨account, nonce⟩ ⟨account', nonce'⟩ h
  obtain ⟨haccount, hnonce⟩ := Prod.mk.inj (toLex.injective h)
  have hbytes := List.map_injective_iff.mpr (fun _ _ ↦ UInt8.toNat_inj.mp) haccount
  exact Prod.ext (Vector.toList_inj.mp hbytes) (UInt64.toNat_inj.mp hnonce)

/-- A detected conflict: same `(account, nonce)`, divergent hashes. -/
structure NonceConflict where
  key : NonceKey
  /-- The hash already stored locally. -/
  localHash : NonceEntry
  /-- The hash offered by the remote registry. -/
  remoteHash : NonceEntry
  deriving DecidableEq

/-- Result of a nonce synchronization attempt. -/
inductive SyncResult
  | success
  | mismatch (count : ℕ)
  | noNeighbors
  deriving DecidableEq

/-- The body of the merge loop: the conflicts so far and the local registry. -/
def mergeEntry (acc : List NonceConflict × NonceRegistry) (e : NonceKey × NonceEntry) :
    List NonceConflict × NonceRegistry :=
  match acc.2.lookup e.1 with
  | some localHash =>
    if localHash = e.2 then acc else (acc.1 ++ [⟨e.1, localHash, e.2⟩], acc.2)
  | none => (acc.1, acc.2.insert e.1 e.2)

/-- Merge `remote` into `local`; the conflicts, and the local registry after the merge. -/
def mergeNonceRegistries («local» remote : NonceRegistry) : List NonceConflict × NonceRegistry :=
  (remote.inOrder NonceKey.order).foldl mergeEntry ([], «local»)

/-- Checks whether nonce registries are synchronized for L1 finality. -/
def syncNoncesBeforeL1 («local» remote : NonceRegistry) : SyncResult :=
  if remote.entries = [] then .noNeighbors
  else
    let mismatches := («local».inOrder NonceKey.order).foldl
      (fun n e ↦ if remote.lookup e.1 = some e.2 then n else n + 1) 0
    let mismatches := (remote.keysInOrder NonceKey.order).foldl
      (fun n key ↦ if key ∈ «local» then n else n + 1) mismatches
    if mismatches = 0 then .success else .mismatch mismatches

/-! ## What a merge leaves behind -/

/-- The conflict that an offered entry is reported as. -/
def conflictWith («local» : NonceRegistry) (e : NonceKey × NonceEntry) : Option NonceConflict :=
  («local».lookup e.1).bind fun localHash ↦
    if localHash = e.2 then none else some ⟨e.1, localHash, e.2⟩

theorem conflictWith_insert_of_ne {«local» : NonceRegistry} {key : NonceKey} {hash : NonceEntry}
    {e : NonceKey × NonceEntry} (h : e.1 ≠ key) :
    conflictWith («local».insert key hash) e = conflictWith «local» e := by
  rw [conflictWith, AList.lookup_insert_ne h, conflictWith]

/-- Entries with distinct keys do not interfere. -/
theorem foldl_mergeEntry {l : List (NonceKey × NonceEntry)} (hl : (l.map Prod.fst).Nodup)
    (conflicts : List NonceConflict) («local» : NonceRegistry) :
    l.foldl mergeEntry (conflicts, «local») =
      (conflicts ++ l.filterMap (conflictWith «local»),
        insertAll «local» (l.filter fun e ↦ e.1 ∉ «local»)) := by
  induction l generalizing conflicts «local» with
  | nil => simp [insertAll]
  | cons e l ih =>
    rw [List.map_cons, List.nodup_cons] at hl
    have hne : ∀ e' ∈ l, e'.1 ≠ e.1 := fun e' he' heq ↦
      hl.1 (heq ▸ List.mem_map_of_mem he')
    rw [List.foldl_cons, mergeEntry]
    rcases hlookup : «local».lookup e.1 with _ | hash
    · -- the key is new, and none of the later keys
      have hnew : e.1 ∉ «local» := AList.lookup_eq_none.mp hlookup
      have hconflicts : l.filterMap (conflictWith («local».insert e.1 e.2)) =
          l.filterMap (conflictWith «local») :=
        List.filterMap_congr fun e' he' ↦ conflictWith_insert_of_ne (hne e' he')
      have hrest : (l.filter fun e' ↦ e'.1 ∉ «local».insert e.1 e.2) =
          l.filter fun e' ↦ e'.1 ∉ «local» := by
        refine List.filter_congr fun e' he' ↦ ?_
        simp only [AList.mem_insert, hne e' he', false_or]
      dsimp only
      rw [ih hl.2, hconflicts, hrest, List.filterMap_cons_none (by rw [conflictWith, hlookup]; rfl),
        List.filter_cons_of_pos (by simpa using hnew), insertAll_cons]
    · have hold : e.1 ∈ «local» := HashMap.mem_of_lookup hlookup
      rw [List.filter_cons_of_neg (by simpa using hold)]
      dsimp only
      by_cases hsame : hash = e.2
      · rw [if_pos hsame, ih hl.2, List.filterMap_cons_none]
        rw [conflictWith, hlookup, Option.bind_some, if_pos hsame]
      · rw [if_neg hsame, ih hl.2, List.filterMap_cons_some (b := ⟨e.1, hash, e.2⟩),
          List.append_assoc, List.singleton_append]
        rw [conflictWith, hlookup, Option.bind_some, if_neg hsame]

variable {«local» remote : NonceRegistry} {key : NonceKey} {hash : NonceEntry}

/-- **A merge** reports what is claimed twice, and takes over what is new. -/
theorem mergeNonceRegistries_eq («local» remote : NonceRegistry) :
    mergeNonceRegistries «local» remote =
      ((remote.inOrder NonceKey.order).filterMap (conflictWith «local»),
        insertAll «local» ((remote.inOrder NonceKey.order).filter fun e ↦ e.1 ∉ «local»)) := by
  rw [mergeNonceRegistries, foldl_mergeEntry HashMap.nodup_keysInOrder, List.nil_append]

/-- A conflict is reported for each key that both registries have, with different hashes. -/
theorem mem_conflicts_iff {c : NonceConflict} :
    c ∈ (mergeNonceRegistries «local» remote).1 ↔
      «local».lookup c.key = some c.localHash ∧ remote.lookup c.key = some c.remoteHash ∧
        c.localHash ≠ c.remoteHash := by
  rw [mergeNonceRegistries_eq, List.mem_filterMap]
  constructor
  · rintro ⟨e, he, hc⟩
    rw [conflictWith, Option.bind_eq_some_iff] at hc
    obtain ⟨localHash, hlookup, hc⟩ := hc
    split at hc
    · cases hc
    · rename_i hne
      obtain rfl := Option.some_inj.mp hc
      exact ⟨hlookup, HashMap.mem_inOrder.mp he, hne⟩
  · rintro ⟨hlocal, hremote, hne⟩
    refine ⟨(c.key, c.remoteHash), HashMap.mem_inOrder.mpr hremote, ?_⟩
    rw [conflictWith, hlocal, Option.bind_some, if_neg hne]

/-- **No entry is overwritten**, and what the other registry has under other keys is added. -/
theorem lookup_mergeNonceRegistries :
    (mergeNonceRegistries «local» remote).2.lookup key =
      («local».lookup key).or (remote.lookup key) := by
  have hnodup : (((remote.inOrder NonceKey.order).filter fun e ↦ e.1 ∉ «local»).map
      Prod.fst).Nodup :=
    HashMap.nodup_keysInOrder.sublist (List.filter_sublist.map Prod.fst)
  refine Option.ext fun hash ↦ ?_
  rw [mergeNonceRegistries_eq, lookup_insertAll hnodup, List.mem_filter, HashMap.mem_inOrder]
  by_cases hmem : key ∈ «local»
  · obtain ⟨localHash, hlookup⟩ := HashMap.exists_lookup hmem
    simp [hmem, hlookup]
  · have hnone := AList.lookup_eq_none.mpr hmem
    simp [hmem, hnone]

theorem mem_mergeNonceRegistries :
    key ∈ (mergeNonceRegistries «local» remote).2 ↔ key ∈ «local» ∨ key ∈ remote := by
  rw [← AList.lookup_isSome, lookup_mergeNonceRegistries, Option.isSome_or, Bool.or_eq_true,
    AList.lookup_isSome, AList.lookup_isSome]

/-! ## Exchanges -/

/-- The keys that are claimed for different blocks. -/
def conflictingKeys («local» remote : NonceRegistry) : Finset NonceKey :=
  «local».keys.toFinset.filter fun key ↦
    key ∈ remote ∧ «local».lookup key ≠ remote.lookup key

/-- The conflict as the other side sees it. -/
def NonceConflict.swap (c : NonceConflict) : NonceConflict := ⟨c.key, c.remoteHash, c.localHash⟩

theorem mem_conflictingKeys : key ∈ conflictingKeys «local» remote ↔
    key ∈ «local» ∧ key ∈ remote ∧ «local».lookup key ≠ remote.lookup key := by
  rw [conflictingKeys, Finset.mem_filter, List.mem_toFinset, ← AList.mem_keys]

theorem conflictingKeys_comm («local» remote : NonceRegistry) :
    conflictingKeys remote «local» = conflictingKeys «local» remote := by
  ext key
  rw [mem_conflictingKeys, mem_conflictingKeys, ne_comm, and_left_comm]

/-- Conflicts are reported in key order. -/
theorem conflicts_pairwise («local» remote : NonceRegistry) :
    (mergeNonceRegistries «local» remote).1.Pairwise fun c c' ↦ c.key.order < c'.key.order := by
  rw [mergeNonceRegistries_eq]
  have hkey : ∀ {e c}, conflictWith «local» e = some c → c.key = e.1 := by
    intro e c hc
    rw [conflictWith, Option.bind_eq_some_iff] at hc
    obtain ⟨localHash, -, hc⟩ := hc
    split at hc
    · cases hc
    · exact (Option.some_inj.mp hc) ▸ rfl
  refine List.Pairwise.filterMap _ (fun e e' hlt c hc c' hc' ↦ ?_)
    (HashMap.inOrder_pairwise NonceKey.order_injective)
  rw [hkey hc, hkey hc']
  exact hlt

/-- **Both sides report the same conflicts.** -/
theorem conflicts_swap («local» remote : NonceRegistry) :
    (mergeNonceRegistries remote «local»).1 =
      (mergeNonceRegistries «local» remote).1.map NonceConflict.swap := by
  refine eq_of_ascending (fun c ↦ NonceKey.order c.key) (conflicts_pairwise _ _)
    (List.pairwise_map.mpr (conflicts_pairwise _ _)) fun c ↦ ?_
  rw [List.mem_map_of_involutive (fun _ ↦ rfl), mem_conflicts_iff, mem_conflicts_iff]
  exact ⟨fun ⟨hlocal, hremote, hne⟩ ↦ ⟨hremote, hlocal, hne.symm⟩,
    fun ⟨hremote, hlocal, hne⟩ ↦ ⟨hlocal, hremote, hne.symm⟩⟩

/-- **Every conflicting key is reported**, once. -/
theorem map_key_conflicts («local» remote : NonceRegistry) :
    ((mergeNonceRegistries «local» remote).1.map NonceConflict.key).Nodup ∧
      ((mergeNonceRegistries «local» remote).1.map NonceConflict.key).toFinset =
        conflictingKeys «local» remote := by
  refine ⟨List.pairwise_map.mpr ((conflicts_pairwise _ _).imp fun hlt heq ↦ ?_), ?_⟩
  · exact absurd (heq ▸ hlt) (lt_irrefl _)
  ext key
  rw [List.mem_toFinset, List.mem_map, mem_conflictingKeys]
  constructor
  · rintro ⟨c, hc, rfl⟩
    obtain ⟨hlocal, hremote, hne⟩ := mem_conflicts_iff.mp hc
    refine ⟨HashMap.mem_of_lookup hlocal, HashMap.mem_of_lookup hremote, ?_⟩
    rw [hlocal, hremote]
    exact fun heq ↦ hne (Option.some_inj.mp heq)
  · rintro ⟨hlocal, hremote, hne⟩
    obtain ⟨localHash, hlocal⟩ := HashMap.exists_lookup hlocal
    obtain ⟨remoteHash, hremote⟩ := HashMap.exists_lookup hremote
    refine ⟨⟨key, localHash, remoteHash⟩, mem_conflicts_iff.mpr ⟨hlocal, hremote, ?_⟩, rfl⟩
    rw [hlocal, hremote] at hne
    exact fun heq ↦ hne (congrArg some heq)

/-- A loop that counts the elements that fail a test. -/
theorem foldl_count {α : Type} (p : α → Prop) [DecidablePred p] (l : List α) (n : ℕ) :
    l.foldl (fun n x ↦ if p x then n else n + 1) n = n + l.countP fun x ↦ ¬ p x := by
  induction l generalizing n with
  | nil => rfl
  | cons x l ih =>
    rw [List.foldl_cons, ih]
    by_cases hx : p x
    · rw [if_pos hx, List.countP_cons_of_neg (by simpa using hx)]
    · rw [if_neg hx, List.countP_cons_of_pos (by simpa using hx)]
      omega

/-- The entries that the first pass counts, where both have the key. -/
theorem countP_inOrder (hkeys : ∀ key ∈ «local», key ∈ remote) :
    (HashMap.inOrder NonceKey.order «local»).countP (fun e ↦ ¬ remote.lookup e.1 = some e.2) =
      (conflictingKeys «local» remote).card := by
  have hnodup : (((HashMap.inOrder NonceKey.order «local»).filter fun e ↦
      ¬ remote.lookup e.1 = some e.2).map Prod.fst).Nodup :=
    HashMap.nodup_keysInOrder.sublist (List.filter_sublist.map Prod.fst)
  rw [List.countP_eq_length_filter, ← List.length_map (f := Prod.fst),
    ← List.toFinset_card_of_nodup hnodup]
  -- both sides count keys, so they have to be the same keys
  congr 1
  ext key
  rw [List.mem_toFinset, List.mem_map, mem_conflictingKeys]
  constructor
  · rintro ⟨e, he, rfl⟩
    obtain ⟨he, hne⟩ := List.mem_filter.mp he
    have hlookup := HashMap.mem_inOrder.mp he
    have hmem := HashMap.mem_of_lookup hlookup
    refine ⟨hmem, hkeys _ hmem, ?_⟩
    rw [hlookup]
    exact fun heq ↦ of_decide_eq_true hne heq.symm
  · rintro ⟨hmem, -, hne⟩
    obtain ⟨hash, hlookup⟩ := HashMap.exists_lookup hmem
    refine ⟨(key, hash), List.mem_filter.mpr ⟨HashMap.mem_inOrder.mpr hlookup, ?_⟩, rfl⟩
    rw [hlookup] at hne
    exact decide_eq_true fun heq ↦ hne heq.symm

/-- Registries with the same keys differ in the conflicting ones. -/
theorem syncNoncesBeforeL1_eq (hkeys : ∀ key, key ∈ «local» ↔ key ∈ remote) :
    syncNoncesBeforeL1 «local» remote =
      if remote = ∅ then .noNeighbors
      else if conflictingKeys «local» remote = ∅ then .success
      else .mismatch (conflictingKeys «local» remote).card := by
  have hempty : remote.entries = [] ↔ remote = ∅ := by
    rw [AList.ext_iff, AList.empty_entries]
  have hsecond : (remote.keysInOrder NonceKey.order).countP (fun key ↦ ¬ key ∈ «local») = 0 :=
    List.countP_eq_zero.mpr fun key hkey ↦
      by simpa using (hkeys key).mpr (HashMap.mem_keysInOrder.mp hkey)
  rw [syncNoncesBeforeL1]
  simp only [hempty, foldl_count, Nat.zero_add, hsecond, Nat.add_zero,
    countP_inOrder fun key ↦ (hkeys key).mp, Finset.card_eq_zero]

/-- After an exchange the registries differ in the keys that were claimed twice. -/
theorem conflictingKeys_exchange («local» remote : NonceRegistry) :
    conflictingKeys (mergeNonceRegistries «local» remote).2
      (mergeNonceRegistries remote «local»).2 = conflictingKeys «local» remote := by
  ext key
  rw [mem_conflictingKeys, mem_conflictingKeys, mem_mergeNonceRegistries, mem_mergeNonceRegistries,
    lookup_mergeNonceRegistries, lookup_mergeNonceRegistries, ← AList.lookup_isSome,
    ← AList.lookup_isSome]
  rcases «local».lookup key with _ | localHash
  · rcases remote.lookup key with _ | remoteHash <;> simp
  · rcases remote.lookup key with _ | remoteHash <;> simp

/-- What the comparison of two registries says once they have been exchanged. -/
def Exchanged («local» remote : NonceRegistry) (result : SyncResult) : Prop :=
  (result = .success ↔
    conflictingKeys «local» remote = ∅ ∧ («local» ≠ ∅ ∨ remote ≠ ∅)) ∧
  («local» ≠ ∅ ∨ remote ≠ ∅ → result ≠ .success →
    result = .mismatch (conflictingKeys «local» remote).card)

theorem exchanged_sync («local» remote : NonceRegistry) :
    Exchanged «local» remote (syncNoncesBeforeL1 (mergeNonceRegistries «local» remote).2
      (mergeNonceRegistries remote «local»).2) := by
  have hempty : (mergeNonceRegistries remote «local»).2 = ∅ ↔ ¬ («local» ≠ ∅ ∨ remote ≠ ∅) := by
    simp only [HashMap.eq_empty_iff, mem_mergeNonceRegistries, not_or, not_not, forall_and]
    exact and_comm
  rw [syncNoncesBeforeL1_eq fun key ↦ by
    rw [mem_mergeNonceRegistries, mem_mergeNonceRegistries, or_comm], conflictingKeys_exchange]
  by_cases hsome : «local» ≠ ∅ ∨ remote ≠ ∅
  · rw [if_neg fun h ↦ hempty.mp h hsome]
    by_cases hnone : conflictingKeys «local» remote = ∅
    · simp [Exchanged, hnone, hsome]
    · simp [Exchanged, hnone]
  · rw [if_pos (hempty.mpr hsome)]
    simp [Exchanged, hsome]

/-- **An exchange converges** up to the keys that are claimed twice: both sides report these, with
the hashes swapped, and nothing else differs afterwards. -/
theorem exchange_converges («local» remote : NonceRegistry) :
    (mergeNonceRegistries remote «local»).1 =
        (mergeNonceRegistries «local» remote).1.map NonceConflict.swap ∧
      ((mergeNonceRegistries «local» remote).1.map NonceConflict.key).Nodup ∧
      ((mergeNonceRegistries «local» remote).1.map NonceConflict.key).toFinset =
        conflictingKeys «local» remote ∧
      Exchanged «local» remote (syncNoncesBeforeL1 (mergeNonceRegistries «local» remote).2
        (mergeNonceRegistries remote «local»).2) ∧
      Exchanged «local» remote (syncNoncesBeforeL1 (mergeNonceRegistries remote «local»).2
        (mergeNonceRegistries «local» remote).2) := by
  have hback : Exchanged «local» remote (syncNoncesBeforeL1 (mergeNonceRegistries remote «local»).2
      (mergeNonceRegistries «local» remote).2) := by
    have h := exchanged_sync remote «local»
    rwa [Exchanged, conflictingKeys_comm, or_comm] at h
  exact ⟨conflicts_swap _ _, (map_key_conflicts _ _).1, (map_key_conflicts _ _).2,
    exchanged_sync _ _, hback⟩

end Arxia
