import Arxia.Rust.Collections

/-!
# Maps that lose entries

`retain` keeps the entries that pass a test, and `removeAll` removes the entries of some keys. What
is left is as it was, and the number of entries goes down by as many as have gone.
-/

namespace Rust.HashMap

variable {κ ν : Type}

/-- `map.len()`. -/
def size (m : HashMap κ ν) : ℕ := m.entries.length

theorem size_eq_length_keys (m : HashMap κ ν) : size m = m.keys.length :=
  (List.length_map _).symm

/-- `map.retain(|k, v| p(k, v))`. -/
def retain (p : κ → ν → Bool) (m : HashMap κ ν) : HashMap κ ν :=
  ⟨m.entries.filter fun e ↦ p e.1 e.2, m.nodupKeys.sublist List.filter_sublist⟩

theorem size_retain (p : κ → ν → Bool) (m : HashMap κ ν) :
    (retain p m).size = m.entries.countP fun e ↦ p e.1 e.2 :=
  List.countP_eq_length_filter.symm

/-- Nothing goes if every entry passes. -/
theorem retain_eq_self {p : κ → ν → Bool} {m : HashMap κ ν} (h : ∀ e ∈ m.entries, p e.1 e.2) :
    retain p m = m := AList.ext (List.filter_eq_self.mpr h)

variable [DecidableEq κ] {m : HashMap κ ν} {k : κ} {v : ν}

theorem lookup_retain_eq_some {p : κ → ν → Bool} :
    (retain p m).lookup k = some v ↔ m.lookup k = some v ∧ p k v := by
  rw [← Option.mem_def, ← Option.mem_def, AList.mem_lookup_iff, AList.mem_lookup_iff, retain,
    List.mem_filter]

theorem size_erase (h : k ∈ m) : size (m.erase k) + 1 = size m := by
  have hkeys : (m.erase k).keys.length = m.keys.length - 1 := by
    rw [AList.keys_erase, List.length_erase_of_mem (AList.mem_keys.mp h)]
  have hpos := List.length_pos_of_mem (AList.mem_keys.mp h)
  rw [size_eq_length_keys, hkeys, size_eq_length_keys]
  omega

/-- `for k in ks { map.remove(k); }`. -/
def removeAll (m : HashMap κ ν) (ks : List κ) : HashMap κ ν := ks.foldl (fun m k ↦ m.erase k) m

theorem lookup_removeAll_eq_some {ks : List κ} :
    (removeAll m ks).lookup k = some v ↔ m.lookup k = some v ∧ k ∉ ks := by
  induction ks generalizing m with
  | nil => simp [removeAll]
  | cons k' ks ih =>
    rw [removeAll, List.foldl_cons, ← removeAll, ih, List.mem_cons, not_or]
    by_cases h : k = k'
    · subst h
      simp [AList.lookup_erase]
    · rw [AList.lookup_erase_ne h]
      tauto

/-- **Distinct keys that are there** go one by one. -/
theorem size_removeAll {ks : List κ} (hnodup : ks.Nodup) (hmem : ∀ k ∈ ks, k ∈ m) :
    (removeAll m ks).size + ks.length = m.size := by
  induction ks generalizing m with
  | nil => rfl
  | cons k ks ih =>
    obtain ⟨hnot, hnodup⟩ := List.nodup_cons.mp hnodup
    have hrest : ∀ k' ∈ ks, k' ∈ m.erase k := fun k' hk' ↦
      AList.mem_erase.mpr ⟨fun heq ↦ hnot (heq ▸ hk'), hmem k' (List.mem_cons_of_mem k hk')⟩
    have hk : k ∈ m := hmem k List.mem_cons_self
    rw [removeAll, List.foldl_cons, ← removeAll, List.length_cons, ← Nat.add_assoc, ih hnodup hrest,
      size_erase hk]

end Rust.HashMap
