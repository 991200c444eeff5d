import Mathlib.Data.List.Nodup

/-!
# Association lists in order

A queue of keys with their values, in the order in which the keys came. `put` writes a value in the
place of the old one, or at the end if the key is new; `remove` takes a key out of the list. Code
that works on such a queue by index looks the key up first, and then does one of the two.
-/

namespace Lists.Assoc

variable {κ ν : Type} [DecidableEq κ] {l : List (κ × ν)} {k k' : κ} {v v' : ν}

/-- The value of the key. -/
def find (l : List (κ × ν)) (k : κ) : Option ν := (l.find? fun e ↦ e.1 = k).map Prod.snd

/-- Write a value: in the place of the old one, or at the end. -/
def put : List (κ × ν) → κ → ν → List (κ × ν)
  | [], k, v => [(k, v)]
  | e :: l, k, v => if e.1 = k then (k, v) :: l else e :: put l k v

/-- Take a key out. -/
def remove (l : List (κ × ν)) (k : κ) : List (κ × ν) := l.filter fun e ↦ e.1 ≠ k

@[simp] theorem find_nil (k : κ) : find ([] : List (κ × ν)) k = none := rfl

theorem find_cons (e : κ × ν) (l : List (κ × ν)) (k : κ) :
    find (e :: l) k = if e.1 = k then some e.2 else find l k := by
  rw [find, List.find?_cons]
  by_cases h : e.1 = k
  · simp [h]
  · simp [h, find]

theorem find_eq_none : find l k = none ↔ k ∉ l.map Prod.fst := by
  induction l with
  | nil => simp
  | cons e l ih =>
    rw [find_cons, List.map_cons, List.mem_cons, not_or, ← ih]
    by_cases h : e.1 = k
    · simp [h]
    · simp [h, Ne.symm h]

theorem mem_of_find (h : find l k = some v) : (k, v) ∈ l := by
  induction l with
  | nil => cases h
  | cons e l ih =>
    rw [find_cons] at h
    split at h
    · rename_i hkey
      obtain rfl := Option.some_inj.mp h
      exact hkey ▸ List.mem_cons_self
    · exact List.mem_cons_of_mem _ (ih h)

/-! ## Writing -/

theorem find_put (l : List (κ × ν)) (k : κ) (v : ν) (k' : κ) :
    find (put l k v) k' = if k = k' then some v else find l k' := by
  induction l with
  | nil => rw [put, find_cons, find_nil]
  | cons e l ih =>
    rw [put, find_cons]
    split
    · rename_i he
      rw [find_cons]
      split
      · rfl
      · rename_i hk
        rw [if_neg (he ▸ hk)]
    · rename_i he
      rw [find_cons, ih]
      split
      · rename_i he'
        rw [if_neg fun hk ↦ he (he'.trans hk.symm)]
      · rfl

theorem put_ne_nil (l : List (κ × ν)) (k : κ) (v : ν) : put l k v ≠ [] := by
  cases l with
  | nil => exact List.cons_ne_nil _ _
  | cons e l =>
    rw [put]
    split <;> exact List.cons_ne_nil _ _

/-- A key that is there keeps its place. -/
theorem keys_put_of_mem (h : k ∈ l.map Prod.fst) : (put l k v).map Prod.fst = l.map Prod.fst := by
  induction l with
  | nil => cases h
  | cons e l ih =>
    rw [put]
    split
    · rename_i he
      rw [List.map_cons, List.map_cons, he]
    · rename_i he
      rw [List.map_cons, List.mem_cons] at h
      rw [List.map_cons, List.map_cons, ih (h.resolve_left (Ne.symm he))]

/-- A new key goes to the end. -/
theorem put_of_notMem (h : k ∉ l.map Prod.fst) : put l k v = l ++ [(k, v)] := by
  induction l with
  | nil => rfl
  | cons e l ih =>
    rw [List.map_cons, List.mem_cons, not_or] at h
    rw [put, if_neg (Ne.symm h.1), ih h.2, List.cons_append]

theorem length_put_of_mem (h : k ∈ l.map Prod.fst) : (put l k v).length = l.length := by
  rw [← List.length_map (f := Prod.fst), keys_put_of_mem h, List.length_map]

theorem length_put_le (l : List (κ × ν)) (k : κ) (v : ν) : (put l k v).length ≤ l.length + 1 := by
  by_cases h : k ∈ l.map Prod.fst
  · rw [length_put_of_mem h]
    exact Nat.le_succ _
  · rw [put_of_notMem h]
    exact Nat.le_of_eq List.length_append

theorem nodup_put (h : (l.map Prod.fst).Nodup) (k : κ) (v : ν) :
    ((put l k v).map Prod.fst).Nodup := by
  by_cases hmem : k ∈ l.map Prod.fst
  · rw [keys_put_of_mem hmem]
    exact h
  · rw [put_of_notMem hmem, List.map_append, List.map_singleton, ← List.concat_eq_append]
    exact h.concat hmem

theorem forall_put {P : κ × ν → Prop} (h : ∀ e ∈ l, P e) (hnew : P (k, v)) :
    ∀ e ∈ put l k v, P e := by
  induction l with
  | nil => exact List.forall_mem_singleton.mpr hnew
  | cons e l ih =>
    rw [List.forall_mem_cons] at h
    rw [put]
    split
    · exact List.forall_mem_cons.mpr ⟨hnew, h.2⟩
    · exact List.forall_mem_cons.mpr ⟨h.1, ih h.2⟩

/-- Writing twice is writing the second value. -/
theorem put_put (l : List (κ × ν)) (k : κ) (v v' : ν) : put (put l k v) k v' = put l k v' := by
  induction l with
  | nil => exact if_pos rfl
  | cons e l ih =>
    rw [put, put]
    split
    · rw [put, if_pos rfl]
    · rename_i he
      rw [put, if_neg he, ih]

/-! ## Taking out -/

theorem find_remove (l : List (κ × ν)) (k k' : κ) :
    find (remove l k) k' = if k = k' then none else find l k' := by
  induction l with
  | nil => simp [remove]
  | cons e l ih =>
    rw [remove, List.filter_cons]
    by_cases he : e.1 = k
    · rw [if_neg (by simp [he]), ← remove, ih, find_cons]
      by_cases hk : k = k'
      · rw [if_pos hk, if_pos hk]
      · rw [if_neg hk, if_neg hk, if_neg (he ▸ hk)]
    · rw [if_pos (by simp [he]), ← remove, find_cons, ih, find_cons]
      by_cases he' : e.1 = k'
      · rw [if_pos he', if_pos he', if_neg fun hk ↦ he (he'.trans hk.symm)]
      · rw [if_neg he', if_neg he']

theorem remove_sublist (l : List (κ × ν)) (k : κ) : (remove l k).Sublist l := List.filter_sublist

/-- What has been written is taken out together with what was there. -/
theorem remove_put (l : List (κ × ν)) (k : κ) (v : ν) : remove (put l k v) k = remove l k := by
  induction l with
  | nil => simp [put, remove]
  | cons e l ih =>
    rw [put]
    split
    · rename_i he
      rw [remove, remove, List.filter_cons_of_neg (by simp), List.filter_cons_of_neg (by simp [he])]
    · rename_i he
      rw [remove, List.filter_cons_of_pos (by simp [he]), ← remove, ih, remove, remove,
        List.filter_cons_of_pos (by simp [he])]

/-! ## Taking the first out -/

/-- Without the first key the others are as they were. -/
theorem find_tail (h : (l.map Prod.fst).Nodup) (k : κ) :
    find l.tail k = if l.head?.map Prod.fst = some k then none else find l k := by
  cases l with
  | nil => simp
  | cons e l =>
    rw [List.map_cons, List.nodup_cons] at h
    rw [List.tail_cons, List.head?_cons, Option.map_some, find_cons]
    by_cases he : e.1 = k
    · rw [if_pos (congrArg some he), find_eq_none]
      exact he ▸ h.1
    · rw [if_neg fun hk ↦ he (Option.some_inj.mp hk), if_neg he]

/-! ## By index -/

/-- The index of a key: its entry is there, and it can be written there. -/
theorem findIdx?_eq_some {i : ℕ} (h : l.findIdx? (fun e ↦ e.1 = k) = some i) :
    ∃ v, l[i]? = some (k, v) ∧ find l k = some v ∧ ∀ v', l.set i (k, v') = put l k v' := by
  induction l generalizing i with
  | nil => cases h
  | cons e l ih =>
    rw [List.findIdx?_cons] at h
    by_cases he : e.1 = k
    · rw [if_pos (decide_eq_true he)] at h
      obtain rfl := Option.some_inj.mp h
      refine ⟨e.2, ?_, ?_, fun v' ↦ ?_⟩
      · rw [List.getElem?_cons_zero, ← he]
      · rw [find_cons, if_pos he]
      · rw [List.set_cons_zero, put, if_pos he]
    · rw [if_neg (by simp [he])] at h
      obtain ⟨j, hj, rfl⟩ := Option.map_eq_some_iff.mp h
      obtain ⟨v, hget, hfind, hset⟩ := ih hj
      refine ⟨v, ?_, ?_, fun v' ↦ ?_⟩
      · rw [List.getElem?_cons_succ, hget]
      · rw [find_cons, if_neg he, hfind]
      · rw [List.set_cons_succ, hset, put, if_neg he]

theorem findIdx?_eq_none (h : l.findIdx? (fun e ↦ e.1 = k) = none) : k ∉ l.map Prod.fst := by
  rw [List.findIdx?_eq_none_iff] at h
  intro hmem
  obtain ⟨e, he, hkey⟩ := List.mem_map.mp hmem
  exact of_decide_eq_false (h e he) hkey

end Lists.Assoc
