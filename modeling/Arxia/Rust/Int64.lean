import Arxia.Rust.UInt64
import Mathlib.Algebra.Order.Group.Abs
import Mathlib.Algebra.Order.Ring.Int

/-!
# Rust arithmetic on `i64`

As with `u64`, plain `+` and `-` panic or wrap as the build profile decides, and the saturating
operations clamp. Callers reason about `toInt`.
-/

namespace Int64

open Rust

theorem i64Min_le_toInt (a : Int64) : i64Min ≤ a.toInt := a.le_toInt

theorem toInt_le_i64Max (a : Int64) : a.toInt ≤ i64Max := by
  have := a.toInt_lt
  rw [i64Max]
  omega

/-- The result of an operation that is exact in `exact`, as the build profile compiles it: `none` is
the overflow panic. -/
def plain (m : Overflow) (exact : ℤ) (wrapped : Int64) : Option Int64 :=
  match m with
  | .panics => if i64Min ≤ exact ∧ exact ≤ i64Max then some wrapped else none
  | .wraps => some wrapped

/-- `a + b`. -/
def plus (m : Overflow) (a b : Int64) : Option Int64 := plain m (a.toInt + b.toInt) (a + b)

/-- `a - b`. -/
def minus (m : Overflow) (a b : Int64) : Option Int64 := plain m (a.toInt - b.toInt) (a - b)

/-- `a.saturating_add(b)`. -/
def saturatingAdd (a b : Int64) : Int64 := Int64.ofInt (clampI64 (a.toInt + b.toInt))

/-- `iter.sum::<i64>()`, which adds with a plain `+`. -/
def sum (m : Overflow) (l : List Int64) : Option Int64 := l.foldlM (fun a d ↦ a.plus m d) 0

/-- `a.saturating_sub(b)`. -/
def saturatingSub (a b : Int64) : Int64 := Int64.ofInt (clampI64 (a.toInt - b.toInt))

variable {m : Overflow} {a b c : Int64} {exact : ℤ}

theorem plain_of_mem (m : Overflow) (h : i64Min ≤ exact) (h' : exact ≤ i64Max) (wrapped : Int64) :
    plain m exact wrapped = some wrapped := by
  rcases m with _ | _
  · exact if_pos ⟨h, h'⟩
  · rfl

theorem plain_panics_eq_none (h : exact < i64Min) (wrapped : Int64) :
    plain .panics exact wrapped = none :=
  if_neg fun hmem ↦ absurd hmem.1 (not_le.mpr h)

theorem plus_of_mem (m : Overflow) (h : i64Min ≤ a.toInt + b.toInt)
    (h' : a.toInt + b.toInt ≤ i64Max) : a.plus m b = some (a + b) := plain_of_mem m h h' _

theorem minus_of_mem (m : Overflow) (h : i64Min ≤ a.toInt - b.toInt)
    (h' : a.toInt - b.toInt ≤ i64Max) : a.minus m b = some (a - b) := plain_of_mem m h h' _

/-- **Sums in range** are exact. -/
theorem plus_eq_some (h : i64Min ≤ a.toInt + b.toInt) (h' : a.toInt + b.toInt ≤ i64Max) :
    a.plus m b = some c ↔ c.toInt = a.toInt + b.toInt := by
  rw [i64Min] at h
  rw [i64Max] at h'
  have hexact : (a + b).toInt = a.toInt + b.toInt := by
    rw [Int64.toInt_add]
    exact Int.bmod_eq_of_le (by omega) (by omega)
  rw [plus_of_mem m (by rwa [i64Min]) (by rwa [i64Max]), Option.some_inj, ← hexact,
    Int64.toInt_inj, eq_comm]

/-- **Differences in range** are exact. -/
theorem minus_eq_some (h : i64Min ≤ a.toInt - b.toInt) (h' : a.toInt - b.toInt ≤ i64Max) :
    a.minus m b = some c ↔ c.toInt = a.toInt - b.toInt := by
  rw [i64Min] at h
  rw [i64Max] at h'
  have hexact : (a - b).toInt = a.toInt - b.toInt := by
    rw [Int64.toInt_sub]
    exact Int.bmod_eq_of_le (by omega) (by omega)
  rw [minus_of_mem m (by rwa [i64Min]) (by rwa [i64Max]), Option.some_inj, ← hexact,
    Int64.toInt_inj, eq_comm]

theorem toInt_ofInt_clampI64 (x : ℤ) : (Int64.ofInt (clampI64 x)).toInt = clampI64 x := by
  apply Int64.toInt_ofInt_of_le
  · simp only [clampI64, i64Min, i64Max]
    omega
  · simp only [clampI64, i64Min, i64Max]
    omega

theorem toInt_saturatingSub (a b : Int64) :
    (a.saturatingSub b).toInt = clampI64 (a.toInt - b.toInt) := toInt_ofInt_clampI64 _

theorem toInt_saturatingAdd (a b : Int64) :
    (a.saturatingAdd b).toInt = clampI64 (a.toInt + b.toInt) := toInt_ofInt_clampI64 _

/-- Adding summands that are no greater than `bound`, with room for all of them. -/
theorem exists_foldlM_plus {bound : ℤ} {l : List Int64} (h : ∀ d ∈ l, |d.toInt| ≤ bound)
    (hroom : |a.toInt| + bound * l.length ≤ i64Max) :
    ∃ total, l.foldlM (fun a d ↦ a.plus m d) a = some total ∧
      total.toInt = a.toInt + (l.map Int64.toInt).sum ∧
      |total.toInt| ≤ |a.toInt| + bound * l.length := by
  induction l generalizing a with
  | nil => exact ⟨a, rfl, by simp, by simp⟩
  | cons d l ih =>
    have hd := h d List.mem_cons_self
    have hnonneg : 0 ≤ bound * l.length :=
      mul_nonneg ((abs_nonneg _).trans hd) (Int.natCast_nonneg _)
    rw [List.length_cons, Int.natCast_succ, Int.mul_add, Int.mul_one] at hroom
    have habs := (abs_add_le a.toInt d.toInt).trans (Int.add_le_add_left hd |a.toInt|)
    have hrange := abs_le.mp (show |a.toInt + d.toInt| ≤ i64Max by omega)
    have hmin : i64Min ≤ -i64Max := by decide
    obtain ⟨c, hc⟩ : ∃ c, a.plus m d = some c := ⟨_, plus_of_mem m (hmin.trans hrange.1) hrange.2⟩
    have htoInt := (plus_eq_some (hmin.trans hrange.1) hrange.2).mp hc
    obtain ⟨total, htotal, hsum, hbound⟩ := ih (a := c)
      (fun d hd ↦ h d (List.mem_cons_of_mem _ hd)) (by rw [htoInt]; omega)
    refine ⟨total, ?_, ?_, ?_⟩
    · rw [List.foldlM_cons, hc]
      exact htotal
    · rw [hsum, htoInt, List.map_cons, List.sum_cons, add_assoc]
    · rw [htoInt] at hbound
      rw [List.length_cons, Int.natCast_succ, Int.mul_add, Int.mul_one]
      omega

/-- **Sums that cannot overflow** are exact. -/
theorem exists_sum {bound : ℤ} {l : List Int64} (h : ∀ d ∈ l, |d.toInt| ≤ bound)
    (hroom : bound * l.length ≤ i64Max) :
    ∃ total, sum m l = some total ∧ total.toInt = (l.map Int64.toInt).sum ∧
      |total.toInt| ≤ bound * l.length := by
  obtain ⟨total, htotal, hsum, hbound⟩ := exists_foldlM_plus (m := m) (a := 0) h
    (by rwa [Int64.toInt_zero, abs_zero, zero_add])
  rw [Int64.toInt_zero, zero_add] at hsum
  rw [Int64.toInt_zero, abs_zero, zero_add] at hbound
  exact ⟨total, htotal, hsum, hbound⟩

end Int64
