import Mathlib.Algebra.Order.Group.Nat
import Mathlib.Data.List.Basic
import Mathlib.Data.Nat.Notation
import Mathlib.Tactic.Ring

/-!
# Rust byte strings

The big-endian and the little-endian bytes of a number, and slices by offset, which panic when they
do not fit.

A record of fields of fixed width is written by appending them and read by slicing at the sums of
the widths. `slice_flatten` says that the second undoes the first; `exists_fields` that every byte
string of sufficient length reads as a record; and `flatten_append_inj` that it does so in one way.
-/

namespace Rust

/-! ## Big-endian numbers -/

/-- The last `k` big-endian bytes of a number. -/
def beBytes : ℕ → ℕ → List UInt8
  | 0, _ => []
  | k + 1, n => UInt8.ofNat (n / 256 ^ k) :: beBytes k n

/-- The number big-endian bytes denote. -/
def ofBeBytes : List UInt8 → ℕ
  | [] => 0
  | b :: bs => b.toNat * 256 ^ bs.length + ofBeBytes bs

@[simp] theorem length_beBytes (k n : ℕ) : (beBytes k n).length = k := by
  induction k with
  | zero => rfl
  | succ k ih => rw [beBytes, List.length_cons, ih]

theorem ofBeBytes_lt (bs : List UInt8) : ofBeBytes bs < 256 ^ bs.length := by
  induction bs with
  | nil => exact Nat.one_pos
  | cons b bs ih =>
    have hb : b.toNat * 256 ^ bs.length ≤ 255 * 256 ^ bs.length :=
      Nat.mul_le_mul_right _ (Nat.le_of_lt_succ b.toNat_lt)
    rw [ofBeBytes, List.length_cons, pow_succ]
    omega

theorem ofBeBytes_beBytes (k n : ℕ) : ofBeBytes (beBytes k n) = n % 256 ^ k := by
  induction k with
  | zero => rw [pow_zero, Nat.mod_one]; rfl
  | succ k ih =>
    have hmod : n % 256 ^ (k + 1) = n % 256 ^ k + 256 ^ k * (n / 256 ^ k % 256) :=
      Nat.mod_pow_succ
    rw [beBytes, ofBeBytes, length_beBytes, ih, UInt8.toNat_ofNat', hmod]
    ring

/-- Only the last bytes of a number matter. -/
theorem beBytes_add_mul (k n c : ℕ) : beBytes k (n + c * 256 ^ k) = beBytes k n := by
  induction k generalizing c with
  | zero => rfl
  | succ k ih =>
    have hc : c * 256 ^ (k + 1) = (c * 256) * 256 ^ k := by rw [pow_succ]; ring
    rw [beBytes, hc, ih, Nat.add_mul_div_right _ _ (Nat.pow_pos (by decide)), beBytes]
    congr 1
    apply UInt8.toNat_inj.mp
    rw [UInt8.toNat_ofNat', UInt8.toNat_ofNat']
    omega

theorem beBytes_ofBeBytes (bs : List UInt8) : beBytes bs.length (ofBeBytes bs) = bs := by
  induction bs with
  | nil => rfl
  | cons b bs ih =>
    have hlt := ofBeBytes_lt bs
    rw [List.length_cons, beBytes, ofBeBytes]
    congr 1
    · rw [Nat.add_comm, Nat.add_mul_div_right _ _ (Nat.pow_pos (by decide)),
        Nat.div_eq_of_lt hlt, Nat.zero_add, UInt8.ofNat_toNat]
    · rw [Nat.add_comm, beBytes_add_mul, ih]

/-- `n.to_le_bytes()` for a number of `k` bytes. -/
def leBytes (k n : ℕ) : List UInt8 := (beBytes k n).reverse

@[simp] theorem length_leBytes (k n : ℕ) : (leBytes k n).length = k := by
  rw [leBytes, List.length_reverse, length_beBytes]

theorem leBytes_inj {k m n : ℕ} (hm : m < 256 ^ k) (hn : n < 256 ^ k)
    (h : leBytes k m = leBytes k n) : m = n := by
  have hbytes := congrArg ofBeBytes (List.reverse_injective h)
  rwa [ofBeBytes_beBytes, ofBeBytes_beBytes, Nat.mod_eq_of_lt hm, Nat.mod_eq_of_lt hn] at hbytes

/-! ## Slices -/

section Fields

variable {α : Type}

/-- `l[i..j]`: `none` is the panic on an offset out of order or out of bounds. -/
def slice (l : List α) (i j : ℕ) : Option (List α) :=
  if i ≤ j ∧ j ≤ l.length then some ((l.take j).drop i) else none

theorem slice_append (pre field post : List α) :
    slice (pre ++ (field ++ post)) pre.length (pre.length + field.length) = some field := by
  rw [slice, if_pos ⟨Nat.le_add_right _ _, by simp only [List.length_append]; omega⟩,
    List.take_length_add_append, List.take_left, List.drop_left]

/-! ### Records of fixed-width fields

A record is the list of its fields; `ns` are their widths. -/

variable {fields fields' : List (List α)} {ns : List ℕ}

theorem length_flatten_eq_sum (h : fields.map List.length = ns) :
    fields.flatten.length = ns.sum := by
  rw [List.length_flatten, h]

/-- **The fields of a record** are the slices at the sums of their widths. -/
theorem slice_flatten (h : fields.map List.length = ns) {k : ℕ} {field : List α}
    (hfield : fields[k]? = some field) (rest : List α) :
    slice (fields.flatten ++ rest) (ns.take k).sum (ns.take (k + 1)).sum = some field := by
  obtain ⟨hk, rfl⟩ := List.getElem?_eq_some_iff.mp hfield
  have hpre : (fields.take k).flatten.length = (ns.take k).sum :=
    length_flatten_eq_sum (by rw [List.map_take, h])
  have hnext : (ns.take (k + 1)).sum = (ns.take k).sum + fields[k].length := by
    have hlt : k < ns.length := by rw [← h, List.length_map]; exact hk
    have hwidth : ns[k] = fields[k].length := by subst h; rw [List.getElem_map]
    rw [List.take_succ_eq_append_getElem hlt, List.sum_append, List.sum_singleton, hwidth]
  have hsplit : fields.flatten ++ rest =
      (fields.take k).flatten ++ (fields[k] ++ ((fields.drop (k + 1)).flatten ++ rest)) := by
    conv_lhs => rw [← List.take_append_drop k fields, List.drop_eq_getElem_cons hk]
    rw [List.flatten_append, List.flatten_cons, List.append_assoc, List.append_assoc]
  rw [hnext, ← hpre, hsplit, slice_append]

/-- Every long enough byte string is a record and what follows it. -/
theorem exists_fields {l : List α} (h : ns.sum ≤ l.length) :
    ∃ (fields : List (List α)) (rest : List α), fields.map List.length = ns ∧
      l = fields.flatten ++ rest := by
  induction ns generalizing l with
  | nil => exact ⟨[], l, rfl, rfl⟩
  | cons n ns ih =>
    rw [List.sum_cons] at h
    obtain ⟨fields, rest, hns, hl⟩ := @ih (l.drop n) (by rw [List.length_drop]; omega)
    refine ⟨l.take n :: fields, rest, ?_, ?_⟩
    · rw [List.map_cons, hns, List.length_take, Nat.min_eq_left (by omega)]
    · rw [List.flatten_cons, List.append_assoc, ← hl, List.take_append_drop]

/-- The record is determined by the bytes, and so is what follows it. -/
theorem flatten_append_inj (h : fields.map List.length = fields'.map List.length)
    {rest rest' : List α} (heq : fields.flatten ++ rest = fields'.flatten ++ rest') :
    fields = fields' ∧ rest = rest' := by
  induction fields generalizing fields' with
  | nil =>
    rw [List.map_nil, eq_comm, List.map_eq_nil_iff] at h
    subst h
    exact ⟨rfl, heq⟩
  | cons field fields ih =>
    rcases fields' with _ | ⟨field', fields'⟩
    · simp at h
    · rw [List.map_cons, List.map_cons, List.cons.injEq] at h
      rw [List.flatten_cons, List.flatten_cons, List.append_assoc, List.append_assoc] at heq
      obtain ⟨rfl, hrest⟩ := List.append_inj heq h.1
      obtain ⟨rfl, rfl⟩ := ih h.2 hrest
      exact ⟨rfl, rfl⟩

private theorem flatMap_cons_ne_nil {β : Type} {f : β → List α} {n : ℕ} (hn : 0 < n)
    (hlength : ∀ x, (f x).length = n) (x : β) (l : List β) : (x :: l).flatMap f ≠ [] := by
  rw [List.flatMap_cons]
  exact List.append_ne_nil_of_left_ne_nil
    (List.ne_nil_of_length_pos ((hlength x).symm ▸ hn)) _

/-- Records of one width, one after the other, are determined by their bytes. -/
theorem flatMap_injective_of_length {β : Type} {f : β → List α} {n : ℕ} (hn : 0 < n)
    (hlength : ∀ x, (f x).length = n) (hf : Function.Injective f) :
    Function.Injective fun l : List β ↦ l.flatMap f := by
  intro l l' h
  dsimp only at h
  induction l generalizing l' with
  | nil =>
    rcases l' with _ | ⟨x', l'⟩
    · rfl
    · exact absurd h.symm (flatMap_cons_ne_nil hn hlength x' l')
  | cons x l ih =>
    rcases l' with _ | ⟨x', l'⟩
    · exact absurd h (flatMap_cons_ne_nil hn hlength x l)
    · rw [List.flatMap_cons, List.flatMap_cons] at h
      obtain ⟨hfirst, hrest⟩ := List.append_inj h (by rw [hlength, hlength])
      rw [hf hfirst, ih hrest]

/-- A field of known width is a vector. -/
theorem exists_vector {n : ℕ} {l : List α} (h : l.length = n) : ∃ v : Vector α n, v.toList = l :=
  ⟨⟨l.toArray, by rw [List.size_toArray, h]⟩, rfl⟩

end Fields

end Rust

namespace UInt64

open Rust

/-- `x.to_be_bytes()`. -/
def toBeBytes (x : UInt64) : List UInt8 := beBytes 8 x.toNat

/-- `u64::from_be_bytes(bytes)`. -/
def fromBeBytes (bytes : Vector UInt8 8) : UInt64 := UInt64.ofNat (ofBeBytes bytes.toList)

@[simp] theorem length_toBeBytes (x : UInt64) : x.toBeBytes.length = 8 := length_beBytes 8 _

theorem ofBeBytes_toBeBytes (x : UInt64) : ofBeBytes x.toBeBytes = x.toNat := by
  rw [toBeBytes, ofBeBytes_beBytes]
  exact Nat.mod_eq_of_lt x.toNat_lt

theorem fromBeBytes_eq {x : UInt64} {bytes : Vector UInt8 8} (h : bytes.toList = x.toBeBytes) :
    fromBeBytes bytes = x := by
  rw [fromBeBytes, h, ofBeBytes_toBeBytes, UInt64.ofNat_toNat]

theorem toBeBytes_fromBeBytes (bytes : Vector UInt8 8) :
    (fromBeBytes bytes).toBeBytes = bytes.toList := by
  have hlt : ofBeBytes bytes.toList < 2 ^ 64 := by
    have := ofBeBytes_lt bytes.toList
    rwa [Vector.length_toList] at this
  have hbytes := beBytes_ofBeBytes bytes.toList
  rw [Vector.length_toList] at hbytes
  rw [toBeBytes, fromBeBytes, UInt64.toNat_ofNat', Nat.mod_eq_of_lt hlt, hbytes]

theorem toBeBytes_injective : Function.Injective toBeBytes := fun x y h ↦ by
  rw [← UInt64.toNat_inj, ← ofBeBytes_toBeBytes, h, ofBeBytes_toBeBytes]

end UInt64

namespace UInt16

open Rust

/-- `x.to_be_bytes()`. -/
def toBeBytes (x : UInt16) : List UInt8 := beBytes 2 x.toNat

@[simp] theorem length_toBeBytes (x : UInt16) : x.toBeBytes.length = 2 := length_beBytes 2 _

theorem toBeBytes_injective : Function.Injective toBeBytes := fun x y h ↦ by
  have hx : ofBeBytes x.toBeBytes = x.toNat := by
    rw [toBeBytes, ofBeBytes_beBytes]
    exact Nat.mod_eq_of_lt x.toNat_lt
  have hy : ofBeBytes y.toBeBytes = y.toNat := by
    rw [toBeBytes, ofBeBytes_beBytes]
    exact Nat.mod_eq_of_lt y.toNat_lt
  rw [← UInt16.toNat_inj, ← hx, h, hy]

end UInt16
