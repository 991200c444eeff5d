import Mathlib.Data.Nat.Digits.Lemmas

/-!
# Change of base

Digit lists are most significant first. A number does not remember the leading zeros of the list it
was read from, so a change of base that is to be undone copies them: the leading zeros stay, and
only what follows is read in one base and written in the other. A list of digits is then given by
two numbers, how many zeros lead it and what it is worth, in any base. Going back is the same
function with the bases exchanged. From a larger base to a smaller one the list does not get
shorter, and it gets longer by no more than the ratio of the bases requires.
-/

namespace Radix

/-- `ds` read in base `b` and written in base `c`, its leading zeros kept. -/
def rebase (b c : ℕ) : List ℕ → List ℕ
  | [] => []
  | d :: ds =>
    if d = 0 then 0 :: rebase b c ds else (c.digits (Nat.ofDigits b (d :: ds).reverse)).reverse

/-- `k` zeros and the digits of `n` in base `b`. -/
def spell (b k n : ℕ) : List ℕ := List.replicate k 0 ++ (b.digits n).reverse

theorem spell_succ (b k n : ℕ) : spell b (k + 1) n = 0 :: spell b k n := by
  rw [spell, List.replicate_succ, List.cons_append, ← spell]

theorem length_spell (b k n : ℕ) : (spell b k n).length = k + (b.digits n).length := by
  rw [spell, List.length_append, List.length_replicate, List.length_reverse]

/-- **Every list of digits is a run of zeros and a number.** -/
theorem exists_spell {b : ℕ} (hb : 1 < b) {ds : List ℕ} (hds : ∀ d ∈ ds, d < b) :
    ∃ k n, ds = spell b k n := by
  induction ds with
  | nil => exact ⟨0, 0, by simp [spell]⟩
  | cons d ds ih =>
    by_cases hd : d = 0
    · obtain ⟨k, n, hkn⟩ := ih fun x hx ↦ hds x (List.mem_cons_of_mem _ hx)
      exact ⟨k + 1, n, by rw [spell_succ, hd, ← hkn]⟩
    · refine ⟨0, Nat.ofDigits b (d :: ds).reverse, ?_⟩
      rw [spell, Nat.digits_ofDigits b hb _ (fun x hx ↦ hds x (List.mem_reverse.mp hx)),
        List.replicate_zero, List.nil_append, List.reverse_reverse]
      intro hne
      rwa [List.getLast_reverse, List.head_cons]

theorem digits_lt_of_mem_spell {b : ℕ} (hb : 1 < b) {k n : ℕ} : ∀ d ∈ spell b k n, d < b := by
  intro d hd
  rcases List.mem_append.mp hd with hd | hd
  · rw [List.eq_of_mem_replicate hd]
    exact Nat.zero_lt_of_lt hb
  · exact Nat.digits_lt_base hb (List.mem_reverse.mp hd)

/-- **A change of base keeps the zeros and the number.** -/
theorem rebase_spell {b : ℕ} (c k n : ℕ) : rebase b c (spell b k n) = spell c k n := by
  induction k with
  | succ k ih => rw [spell_succ, rebase, if_pos rfl, ih, spell_succ]
  | zero =>
    simp only [spell, List.replicate_zero, List.nil_append]
    by_cases hn : n = 0
    · rw [hn, Nat.digits_zero, Nat.digits_zero, List.reverse_nil, rebase]
    · have hne : b.digits n ≠ [] := Nat.digits_ne_nil_iff_ne_zero.mpr hn
      obtain ⟨d, ds, hds⟩ := List.exists_cons_of_ne_nil (List.reverse_ne_nil_iff.mpr hne)
      have hd : d ≠ 0 := by
        have hlast := Nat.getLast_digit_ne_zero b hn
        rw [← List.head_reverse (by rw [hds]; exact List.cons_ne_nil d ds)] at hlast
        simpa only [hds, List.head_cons] using hlast
      rw [hds, rebase, if_neg hd, ← hds, List.reverse_reverse, Nat.ofDigits_digits]

/-- **Changing the base back restores the list.** -/
theorem rebase_rebase {b : ℕ} (hb : 1 < b) (c : ℕ) {ds : List ℕ} (hds : ∀ d ∈ ds, d < b) :
    rebase c b (rebase b c ds) = ds := by
  obtain ⟨k, n, rfl⟩ := exists_spell hb hds
  rw [rebase_spell, rebase_spell]

section Bases

variable {b c : ℕ} (hb : 1 < b) (hc : 1 < c)

include hb hc

theorem lt_of_mem_rebase {ds : List ℕ} (hds : ∀ d ∈ ds, d < b) : ∀ d ∈ rebase b c ds, d < c := by
  obtain ⟨k, n, rfl⟩ := exists_spell hb hds
  rw [rebase_spell]
  exact digits_lt_of_mem_spell hc

/-- Fewer digits to choose from, no fewer places. -/
theorem length_le_length_rebase (hcb : c ≤ b) {ds : List ℕ} (hds : ∀ d ∈ ds, d < b) :
    ds.length ≤ (rebase b c ds).length := by
  obtain ⟨k, n, rfl⟩ := exists_spell hb hds
  rw [rebase_spell, length_spell, length_spell]
  refine Nat.add_le_add_left ((Nat.digits_length_le_iff hb n).mpr ?_) k
  calc n < c ^ (c.digits n).length := Nat.lt_base_pow_length_digits hc
    _ ≤ b ^ (c.digits n).length := Nat.pow_le_pow_left hcb _

/-- `m` places are enough for `ds` when they are enough for every list of its length. -/
theorem length_rebase_le (hcb : c ≤ b) {ds : List ℕ} (hds : ∀ d ∈ ds, d < b) {m : ℕ}
    (hm : b ^ ds.length ≤ c ^ m) : (rebase b c ds).length ≤ m := by
  obtain ⟨k, n, rfl⟩ := exists_spell hb hds
  rw [rebase_spell, length_spell]
  rw [length_spell] at hm
  have hpow : c ^ k ≤ b ^ k := Nat.pow_le_pow_left hcb k
  have hk : k ≤ m := by
    rw [← Nat.pow_le_pow_iff_right hc]
    exact (hpow.trans (Nat.pow_le_pow_right (Nat.zero_lt_of_lt hb) (Nat.le_add_right _ _))).trans hm
  have hn : c ^ k * n < c ^ k * c ^ (m - k) := by
    calc c ^ k * n ≤ b ^ k * n := Nat.mul_le_mul_right n hpow
      _ < b ^ k * b ^ (b.digits n).length :=
        Nat.mul_lt_mul_of_pos_left (Nat.lt_base_pow_length_digits hb)
          (Nat.pow_pos (Nat.zero_lt_of_lt hb))
      _ = b ^ (k + (b.digits n).length) := (pow_add _ _ _).symm
      _ ≤ c ^ m := hm
      _ = c ^ k * c ^ (m - k) := by rw [← pow_add, Nat.add_sub_cancel' hk]
  have hlength := (Nat.digits_length_le_iff hc n).mpr (Nat.lt_of_mul_lt_mul_left hn)
  omega

end Bases

end Radix
