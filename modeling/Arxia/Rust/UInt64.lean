import Mathlib.Algebra.BigOperators.Group.List.Basic
import Mathlib.Algebra.Order.BigOperators.Group.List
import Mathlib.Logic.Function.Iterate
import Mathlib.Tactic.Ring

/-!
# Rust arithmetic on unsigned words

The operations Rust offers on `u64` beside the built-in operators, each with the one lemma that
says what it computes in `ℕ`. Callers reason about `toNat` and never about the words themselves. Of
`u16` there is what a counter needs, and a `u128` is a natural number below its limit.

Plain `+` is not one operation: with overflow checks (the development profile) it panics, without
them (the release profile) it wraps. `Overflow` names the profile, and everything written with a
plain `+` in the source takes it as an argument.
-/

namespace Rust

/-- What plain arithmetic does on overflow, as the build profile decides. -/
inductive Overflow
  | panics
  | wraps
  deriving DecidableEq, Repr

/-- `u64::MAX`. -/
def u64Max : ℕ := 2 ^ 64 - 1

/-- `u16::MAX`. -/
def u16Max : ℕ := 2 ^ 16 - 1

/-- `u32::MAX`. -/
def u32Max : ℕ := 2 ^ 32 - 1

/-- `u128::MAX`. -/
def u128Max : ℕ := 2 ^ 128 - 1

/-- `i64::MAX`. -/
def i64Max : ℤ := 2 ^ 63 - 1

/-- `i64::MIN`. -/
def i64Min : ℤ := -2 ^ 63

/-- An integer clamped to the range of `i64`. -/
def clampI64 (x : ℤ) : ℤ := max i64Min (min x i64Max)

end Rust

namespace UInt64

open Rust

theorem toNat_le_u64Max (a : UInt64) : a.toNat ≤ u64Max := by
  have := a.toNat_lt
  rw [u64Max]
  omega

/-- `a.checked_add(b)`. -/
def checkedAdd (a b : UInt64) : Option UInt64 :=
  if a.toNat + b.toNat ≤ u64Max then some (a + b) else none

theorem toNat_add_of_le {a b : UInt64} (h : a.toNat + b.toNat ≤ u64Max) :
    (a + b).toNat = a.toNat + b.toNat := by
  rw [u64Max] at h
  rw [UInt64.toNat_add]
  omega

theorem checkedAdd_eq_some {a b c : UInt64} :
    a.checkedAdd b = some c ↔ c.toNat = a.toNat + b.toNat := by
  rw [checkedAdd]
  split
  · rename_i h
    rw [Option.some_inj, ← UInt64.toNat_inj, toNat_add_of_le h, eq_comm]
  · rename_i h
    have := c.toNat_le_u64Max
    simp only [reduceCtorEq, false_iff]
    omega

/-- `a + b`, as the build profile compiles it: `none` is the overflow panic. -/
def plus (m : Overflow) (a b : UInt64) : Option UInt64 :=
  match m with
  | .panics => a.checkedAdd b
  | .wraps => some (a + b)

/-- Away from the overflow the two profiles agree with `ℕ`. -/
theorem plus_of_le (m : Overflow) {a b : UInt64} (h : a.toNat + b.toNat ≤ u64Max) :
    a.plus m b = some (a + b) := by
  cases m
  · rw [plus, checkedAdd, if_pos h]
  · rfl

theorem plus_eq_some_of_le {m : Overflow} {a b c : UInt64} (h : a.toNat + b.toNat ≤ u64Max) :
    a.plus m b = some c ↔ c.toNat = a.toNat + b.toNat := by
  rw [plus_of_le m h, Option.some_inj, ← UInt64.toNat_inj, toNat_add_of_le h, eq_comm]

/-- `a - b`, as the build profile compiles it: `none` is the overflow panic. -/
def minus (m : Overflow) (a b : UInt64) : Option UInt64 :=
  match m with
  | .panics => if b ≤ a then some (a - b) else none
  | .wraps => some (a - b)

theorem minus_of_le (m : Overflow) {a b : UInt64} (h : b ≤ a) : a.minus m b = some (a - b) := by
  cases m
  · rw [minus, if_pos h]
  · rfl

/-- `a.saturating_add(b)`. -/
def saturatingAdd (a b : UInt64) : UInt64 := (a.checkedAdd b).getD (UInt64.ofNat u64Max)

theorem toNat_ofNat_u64Max : (UInt64.ofNat u64Max).toNat = u64Max := by decide

@[simp] theorem toNat_saturatingAdd (a b : UInt64) :
    (a.saturatingAdd b).toNat = min (a.toNat + b.toNat) u64Max := by
  rw [saturatingAdd]
  by_cases h : a.toNat + b.toNat ≤ u64Max
  · rw [checkedAdd, if_pos h, Option.getD_some, toNat_add_of_le h, min_eq_left h]
  · rw [checkedAdd, if_neg h, Option.getD_none, toNat_ofNat_u64Max, min_eq_right (by omega)]

/-- `a.saturating_sub(b)`. -/
def saturatingSub (a b : UInt64) : UInt64 := if b ≤ a then a - b else 0

@[simp] theorem toNat_saturatingSub (a b : UInt64) :
    (a.saturatingSub b).toNat = a.toNat - b.toNat := by
  rw [saturatingSub]
  split
  · rename_i h
    exact UInt64.toNat_sub_of_le _ _ h
  · rename_i h
    have hlt := UInt64.lt_iff_toNat_lt.mp (UInt64.not_le.mp h)
    rw [UInt64.toNat_zero]
    omega

theorem toNat_mul_of_le {a b : UInt64} (h : a.toNat * b.toNat ≤ u64Max) :
    (a * b).toNat = a.toNat * b.toNat := by
  rw [u64Max] at h
  rw [UInt64.toNat_mul, Nat.mod_eq_of_lt (by omega)]

/-- `a.checked_mul(b)`. -/
def checkedMul (a b : UInt64) : Option UInt64 :=
  if a.toNat * b.toNat ≤ u64Max then some (a * b) else none

/-- `a * b`, as the build profile compiles it: `none` is the overflow panic. -/
def times (m : Overflow) (a b : UInt64) : Option UInt64 :=
  match m with
  | .panics => a.checkedMul b
  | .wraps => some (a * b)

theorem times_of_le (m : Overflow) {a b : UInt64} (h : a.toNat * b.toNat ≤ u64Max) :
    a.times m b = some (a * b) := by
  cases m
  · rw [times, checkedMul, if_pos h]
  · rfl

theorem times_panics_of_lt {a b : UInt64} (h : u64Max < a.toNat * b.toNat) :
    a.times .panics b = none := by
  rw [times, checkedMul, if_neg h.not_ge]

/-- `a.saturating_mul(b)`. -/
def saturatingMul (a b : UInt64) : UInt64 :=
  if a.toNat * b.toNat ≤ u64Max then a * b else UInt64.ofNat u64Max

@[simp] theorem toNat_saturatingMul (a b : UInt64) :
    (a.saturatingMul b).toNat = min (a.toNat * b.toNat) u64Max := by
  rw [saturatingMul]
  split
  · rename_i h
    rw [min_eq_left h, toNat_mul_of_le h]
  · rename_i h
    rw [toNat_ofNat_u64Max, min_eq_right (by omega)]

/-- `a.abs_diff(b)`. -/
def absDiff (a b : UInt64) : UInt64 := if a < b then b - a else a - b

@[simp] theorem toNat_absDiff (a b : UInt64) :
    (a.absDiff b).toNat = (a.toNat - b.toNat) + (b.toNat - a.toNat) := by
  rw [absDiff]
  split
  · rename_i h
    have hlt := UInt64.lt_iff_toNat_lt.mp h
    rw [UInt64.toNat_sub_of_le _ _ (UInt64.le_iff_toNat_le.mpr hlt.le)]
    omega
  · rename_i h
    have hle := UInt64.not_lt.mp h
    rw [UInt64.toNat_sub_of_le _ _ hle]
    have := UInt64.le_iff_toNat_le.mp hle
    omega

/-! ## Sums -/

/-- The exact sum of a list of words. -/
def exactSum (l : List UInt64) : ℕ := (l.map UInt64.toNat).sum

@[simp] theorem exactSum_nil : exactSum [] = 0 := rfl

@[simp] theorem exactSum_cons (a : UInt64) (l : List UInt64) :
    exactSum (a :: l) = a.toNat + exactSum l := by
  rw [exactSum, List.map_cons, List.sum_cons, exactSum]

/-- A left fold of `saturating_add` is the exact sum, capped once at the end. -/
theorem toNat_foldl_saturatingAdd (l : List UInt64) (a : UInt64) :
    (l.foldl saturatingAdd a).toNat = min (a.toNat + exactSum l) u64Max := by
  induction l generalizing a with
  | nil => rw [List.foldl_nil, exactSum_nil, Nat.add_zero, min_eq_left a.toNat_le_u64Max]
  | cons b l ih =>
    rw [List.foldl_cons, ih, toNat_saturatingAdd, exactSum_cons]
    omega

/-- `iter().sum::<u64>()`, as the build profile compiles it. -/
def sum (m : Overflow) (l : List UInt64) : Option UInt64 := l.foldlM (fun a b ↦ a.plus m b) 0

private theorem foldlM_plus_panics (l : List UInt64) (a : UInt64) :
    (l.foldlM (fun a b ↦ a.plus .panics b) a) =
      if a.toNat + exactSum l ≤ u64Max then some (UInt64.ofNat (a.toNat + exactSum l))
      else none := by
  induction l generalizing a with
  | nil =>
    rw [exactSum_nil, Nat.add_zero, if_pos a.toNat_le_u64Max, UInt64.ofNat_toNat]
    rfl
  | cons b l ih =>
    rw [List.foldlM_cons, exactSum_cons, plus, checkedAdd]
    by_cases h : a.toNat + b.toNat ≤ u64Max
    · rw [if_pos h, Option.bind_eq_bind, Option.bind_some, ih, toNat_add_of_le h, Nat.add_assoc]
    · rw [if_neg h, if_neg (by omega)]
      rfl

private theorem foldlM_plus_wraps (l : List UInt64) (a : UInt64) :
    (l.foldlM (fun a b ↦ a.plus .wraps b) a) = some (UInt64.ofNat (a.toNat + exactSum l)) := by
  induction l generalizing a with
  | nil =>
    rw [exactSum_nil, Nat.add_zero, UInt64.ofNat_toNat]
    rfl
  | cons b l ih =>
    rw [List.foldlM_cons, exactSum_cons, plus, Option.bind_eq_bind, Option.bind_some, ih,
      ← Nat.add_assoc, Option.some_inj]
    apply UInt64.toNat_inj.mp
    rw [UInt64.toNat_ofNat', UInt64.toNat_ofNat', UInt64.toNat_add]
    omega

/-- Without overflow checks the sum is the exact one modulo `2 ^ 64`. -/
theorem sum_wraps (l : List UInt64) : sum .wraps l = some (UInt64.ofNat (exactSum l)) := by
  rw [sum, foldlM_plus_wraps, UInt64.toNat_zero, Nat.zero_add]

/-- A sum that fits is exact in both profiles. -/
theorem sum_of_le (m : Overflow) {l : List UInt64} (h : exactSum l ≤ u64Max) :
    sum m l = some (UInt64.ofNat (exactSum l)) := by
  cases m
  · rw [sum, foldlM_plus_panics, UInt64.toNat_zero, Nat.zero_add, if_pos h]
  · exact sum_wraps l

/-- The sum panics exactly when the profile checks for overflow and the exact sum overflows. -/
theorem sum_eq_none {m : Overflow} {l : List UInt64} :
    sum m l = none ↔ m = .panics ∧ u64Max < exactSum l := by
  cases m
  · rw [sum, foldlM_plus_panics]
    simp
  · rw [sum, foldlM_plus_wraps]
    simp

end UInt64

namespace UInt16

open Rust

theorem toNat_le_u16Max (a : UInt16) : a.toNat ≤ u16Max := by
  have := a.toNat_lt
  rw [u16Max]
  omega

/-- `a.saturating_add(b)`. -/
def saturatingAdd (a b : UInt16) : UInt16 :=
  if a.toNat + b.toNat ≤ u16Max then a + b else UInt16.ofNat u16Max

@[simp] theorem toNat_saturatingAdd (a b : UInt16) :
    (a.saturatingAdd b).toNat = min (a.toNat + b.toNat) u16Max := by
  rw [saturatingAdd]
  split
  · rename_i h
    rw [min_eq_left h, UInt16.toNat_add, Nat.mod_eq_of_lt]
    rw [u16Max] at h
    omega
  · rename_i h
    rw [min_eq_right (by omega)]
    decide

end UInt16

/-! ## Shifts

A word that is combined with a shifted copy of itself by exclusive or is zero only if it was zero
before: were it equal to its own shift it would be equal to every multiple of that shift, and the
bits run out. -/

namespace BitVec

variable {w k : ℕ} {x : BitVec w}

theorem eq_zero_of_xor_shiftLeft (hk : 0 < k) (h : x ^^^ (x <<< k) = 0#w) : x = 0#w := by
  have hx : x = x <<< k := xor_eq_zero_iff.mp h
  have hshift : ∀ n, x = x <<< (n * k) := by
    intro n
    induction n with
    | zero => rw [Nat.zero_mul, shiftLeft_zero]
    | succ n ih => rw [Nat.succ_mul, shiftLeft_add, ← ih, ← hx]
  rw [hshift w]
  exact shiftLeft_eq_zero (Nat.le_mul_of_pos_right w hk)

theorem eq_zero_of_xor_ushiftRight (hk : 0 < k) (h : x ^^^ (x >>> k) = 0#w) : x = 0#w := by
  have hx : x = x >>> k := xor_eq_zero_iff.mp h
  have hshift : ∀ n, x = x >>> (n * k) := by
    intro n
    induction n with
    | zero => rw [Nat.zero_mul, ushiftRight_zero]
    | succ n ih => rw [Nat.succ_mul, shiftRight_add, ← ih, ← hx]
  rw [hshift w]
  exact ushiftRight_eq_zero (Nat.le_mul_of_pos_right w hk)

end BitVec

namespace UInt64

variable {a b : UInt64}

theorem eq_zero_of_xor_shiftLeft (hb : 0 < b.toNat % 64) (h : a ^^^ (a <<< b) = 0) : a = 0 := by
  have hbits := congrArg UInt64.toBitVec h
  rw [UInt64.toBitVec_xor, UInt64.toBitVec_shiftLeft, BitVec.shiftLeft_eq'] at hbits
  refine UInt64.toBitVec_inj.mp (BitVec.eq_zero_of_xor_shiftLeft ?_ hbits)
  rwa [BitVec.toNat_umod]

theorem eq_zero_of_xor_shiftRight (hb : 0 < b.toNat % 64) (h : a ^^^ (a >>> b) = 0) : a = 0 := by
  have hbits := congrArg UInt64.toBitVec h
  rw [UInt64.toBitVec_xor, UInt64.toBitVec_shiftRight, BitVec.ushiftRight_eq'] at hbits
  refine UInt64.toBitVec_inj.mp (BitVec.eq_zero_of_xor_ushiftRight ?_ hbits)
  rwa [BitVec.toNat_umod]

end UInt64
