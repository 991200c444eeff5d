import Mathlib.Data.List.Basic
import Mathlib.Data.String.Basic
import Mathlib.Tactic.IntervalCases

/-!
# Rust strings

`String` stands for both `String` and `&str`; its bytes are its UTF-8 encoding. Three things the
sources do with text need more than the library offers: slicing at a byte offset, which panics off
a character boundary; hexadecimal notation, which has two spellings for most bytes; and joining
fields by a separator, which is only unambiguous when the fields cannot contain it.
-/

namespace Rust

/-- `s.as_bytes()`. -/
def asBytes (s : String) : List UInt8 := s.toByteArray.data.toList

theorem asBytes_append (s t : String) : asBytes (s ++ t) = asBytes s ++ asBytes t := by
  rw [asBytes, String.toByteArray_append, ByteArray.data_append, Array.toList_append, asBytes,
    asBytes]

theorem asBytes_inj {s t : String} : asBytes s = asBytes t ↔ s = t := by
  rw [asBytes, asBytes, Array.toList_inj, ← ByteArray.ext_iff, String.toByteArray_inj]

theorem asBytes_eq_flatMap (s : String) :
    asBytes s = s.toList.flatMap String.utf8EncodeChar := by
  rw [asBytes, ← String.utf8Encode_toList, List.utf8Encode, List.data_toByteArray]

/-- No character is written with fewer bytes than one. -/
theorem length_le_length_asBytes (s : String) : s.length ≤ (asBytes s).length := by
  rw [asBytes_eq_flatMap, ← String.length_toList]
  induction s.toList with
  | nil => exact Nat.le_refl _
  | cons c cs ih =>
    have hpos := c.utf8Size_pos
    rw [List.flatMap_cons, List.length_append, List.length_cons, String.length_utf8EncodeChar]
    omega

theorem length_asBytes_of_utf8Size {s : String} (h : ∀ c ∈ s.toList, c.utf8Size = 1) :
    (asBytes s).length = s.length := by
  rw [asBytes_eq_flatMap, ← String.length_toList]
  generalize s.toList = cs at h ⊢
  induction cs with
  | nil => rfl
  | cons c cs ih =>
    obtain ⟨hc, hcs⟩ := List.forall_mem_cons.mp h
    rw [List.flatMap_cons, List.length_append, List.length_cons, String.length_utf8EncodeChar, hc,
      ih hcs, Nat.add_comm]

/-- Where a concatenation is split is a matter of length. -/
theorem append_inj_of_length {s t s' t' : String} (h : s ++ t = s' ++ t')
    (hlength : s.length = s'.length) : s = s' ∧ t = t' := by
  rw [← String.toList_inj, String.toList_append, String.toList_append] at h
  obtain ⟨hs, ht⟩ := List.append_inj h hlength
  exact ⟨String.toList_inj.mp hs, String.toList_inj.mp ht⟩

/-- `s.strip_prefix(p)`. -/
def stripPrefix (p s : String) : Option String :=
  if p.toList <+: s.toList then some (String.ofList (s.toList.drop p.length)) else none

theorem stripPrefix_eq_some {p s t : String} : stripPrefix p s = some t ↔ s = p ++ t := by
  rw [stripPrefix]
  split
  · rename_i h
    obtain ⟨cs, hcs⟩ := h
    rw [Option.some_inj, ← hcs, ← String.toList_inj, ← String.toList_inj, String.toList_append,
      ← hcs, List.append_cancel_left_eq, String.toList_ofList, ← String.length_toList,
      List.drop_left]
  · rename_i h
    simp only [reduceCtorEq, false_iff]
    rintro rfl
    exact h (String.toList_append ▸ List.prefix_append _ _)

/-! ## Slicing -/

/-- The characters of the slice `s[..n]` at a byte offset. `none` is the panic: the string is
shorter, or the offset falls inside a character. -/
def bytePrefix : List Char → ℕ → Option (List Char)
  | _, 0 => some []
  | [], _ + 1 => none
  | c :: cs, n + 1 =>
    if c.utf8Size ≤ n + 1 then (bytePrefix cs (n + 1 - c.utf8Size)).map (c :: ·) else none

/-- On single-byte characters the byte offset is the character index. -/
theorem bytePrefix_eq_take {cs : List Char} {n : ℕ} (hc : ∀ c ∈ cs, c.utf8Size = 1)
    (hn : n ≤ cs.length) : bytePrefix cs n = some (cs.take n) := by
  induction cs generalizing n with
  | nil =>
    obtain rfl := Nat.le_zero.mp hn
    rfl
  | cons c cs ih =>
    cases n with
    | zero => rfl
    | succ n =>
      have h1 : c.utf8Size = 1 := hc c List.mem_cons_self
      rw [bytePrefix, h1, if_pos (by omega), Nat.add_sub_cancel,
        ih (fun d hd ↦ hc d (List.mem_cons_of_mem c hd)) (by simpa using hn), List.take_succ_cons]
      rfl

/-! ## Hexadecimal notation -/

namespace Hex

/-- The value of a hexadecimal digit, in either case. -/
def digit (c : Char) : Option ℕ :=
  if 48 ≤ c.toNat ∧ c.toNat ≤ 57 then some (c.toNat - 48)
  else if 97 ≤ c.toNat ∧ c.toNat ≤ 102 then some (c.toNat - 87)
  else if 65 ≤ c.toNat ∧ c.toNat ≤ 70 then some (c.toNat - 55)
  else none

/-- The lowercase digit of a value below sixteen. -/
def lower (d : ℕ) : Char := if d < 10 then Char.ofNat (48 + d) else Char.ofNat (87 + d)

/-- The bytes a string of hexadecimal digit pairs denotes. -/
def decode : List Char → Option (List UInt8)
  | [] => some []
  | [_] => none
  | h :: l :: cs =>
    match digit h, digit l, decode cs with
    | some a, some b, some bs => some (UInt8.ofNat (16 * a + b) :: bs)
    | _, _, _ => none

/-- The lowercase digit pairs of a byte string. -/
def encodeChars : List UInt8 → List Char
  | [] => []
  | b :: bs => lower (b.toNat / 16) :: lower (b.toNat % 16) :: encodeChars bs

/-- The lowercase notation of a byte string. -/
def encode (bs : List UInt8) : String := String.ofList (encodeChars bs)

theorem digit_lower {d : ℕ} (h : d < 16) : digit (lower d) = some d := by
  interval_cases d <;> decide

theorem decode_encodeChars (bs : List UInt8) : decode (encodeChars bs) = some bs := by
  induction bs with
  | nil => rfl
  | cons b bs ih =>
    have hb := b.toNat_lt
    rw [encodeChars, decode, digit_lower (by omega), digit_lower (by omega), ih]
    simp only [Option.some_inj, List.cons.injEq, and_true]
    rw [Nat.div_add_mod, UInt8.ofNat_toNat]

theorem decode_encode (bs : List UInt8) : decode (encode bs).toList = some bs := by
  rw [encode, String.toList_ofList, decode_encodeChars]

theorem encode_injective : Function.Injective encode := fun a b h ↦ by
  have ha := decode_encode a
  rwa [h, decode_encode, Option.some_inj, eq_comm] at ha

/-- What decoding succeeds on: an even number of digits. -/
theorem decode_eq_some {cs : List Char} {bs : List UInt8} (h : decode cs = some bs) :
    cs.length = 2 * bs.length ∧ ∀ c ∈ cs, (digit c).isSome := by
  induction cs using decode.induct generalizing bs with
  | case1 =>
    obtain rfl := Option.some_inj.mp h
    simp
  | case2 c => simp [decode] at h
  | case3 hd lo cs a b tl htl hlo hhd ih =>
    rw [decode, hhd, hlo, htl] at h
    obtain rfl := Option.some_inj.mp h
    obtain ⟨hlen, hall⟩ := ih htl
    refine ⟨by simp only [List.length_cons, hlen]; omega, fun c hc ↦ ?_⟩
    rcases List.mem_cons.mp hc with rfl | hc
    · rw [hhd]; rfl
    rcases List.mem_cons.mp hc with rfl | hc
    · rw [hlo]; rfl
    · exact hall c hc
  | case4 hd lo cs hnone ih =>
    rw [decode] at h
    split at h
    · rename_i a b tl hhd hlo htl
      exact absurd htl (hnone a b tl hhd hlo)
    · simp at h

/-- It succeeds on every even number of digits. -/
theorem exists_decode {n : ℕ} {cs : List Char} (hlength : cs.length = 2 * n)
    (hdigits : ∀ c ∈ cs, (digit c).isSome) : ∃ bs, decode cs = some bs ∧ bs.length = n := by
  induction n generalizing cs with
  | zero =>
    obtain rfl := List.length_eq_zero_iff.mp hlength
    exact ⟨[], rfl, rfl⟩
  | succ n ih =>
    obtain ⟨h, l, cs, rfl⟩ : ∃ h l cs', cs = h :: l :: cs' := by
      rcases cs with _ | ⟨h, _ | ⟨l, cs⟩⟩
      · simp at hlength
      · rw [List.length_singleton] at hlength
        omega
      · exact ⟨h, l, cs, rfl⟩
    rw [List.forall_mem_cons, List.forall_mem_cons] at hdigits
    obtain ⟨hh, hl, hrest⟩ := hdigits
    obtain ⟨bs, hbs, hn⟩ := ih (by simp only [List.length_cons] at hlength; omega) hrest
    obtain ⟨a, ha⟩ := Option.isSome_iff_exists.mp hh
    obtain ⟨b, hb⟩ := Option.isSome_iff_exists.mp hl
    exact ⟨UInt8.ofNat (16 * a + b) :: bs, by rw [decode, ha, hb, hbs], by
      rw [List.length_cons, hn]⟩

theorem toNat_lt_of_digit {c : Char} (h : (digit c).isSome) : c.toNat < 103 := by
  rw [digit] at h
  split at h
  · omega
  split at h
  · omega
  split at h
  · omega
  · simp at h

theorem utf8Size_of_digit {c : Char} (h : (digit c).isSome) : c.utf8Size = 1 := by
  have hlt : c.toNat < 103 := toNat_lt_of_digit h
  rw [Char.utf8Size, if_pos]
  exact UInt32.le_iff_toNat_le.mpr (Nat.le_of_lt_succ (hlt.trans (by decide)))

theorem colon_notMem_of_decode {cs : List Char} {bs : List UInt8} (h : decode cs = some bs) :
    ':' ∉ cs := fun hc ↦ by
  have := (decode_eq_some h).2 _ hc
  revert this
  decide

/-- A lowercase hexadecimal digit. -/
def IsLower (c : Char) : Prop := 48 ≤ c.toNat ∧ c.toNat ≤ 57 ∨ 97 ≤ c.toNat ∧ c.toNat ≤ 102

instance : DecidablePred IsLower := fun _ ↦ inferInstanceAs (Decidable (_ ∨ _))

theorem isLower_lower {d : ℕ} (h : d < 16) : IsLower (lower d) := by
  interval_cases d <;> decide

theorem isLower_iff {c : Char} : IsLower c ↔ ∃ d < 16, c = lower d := by
  constructor
  · rintro (⟨hlo, hhi⟩ | ⟨hlo, hhi⟩)
    · refine ⟨c.toNat - 48, by omega, ?_⟩
      rw [lower, if_pos (by omega), show 48 + (c.toNat - 48) = c.toNat by omega, Char.ofNat_toNat]
    · refine ⟨c.toNat - 87, by omega, ?_⟩
      rw [lower, if_neg (by omega), show 87 + (c.toNat - 87) = c.toNat by omega, Char.ofNat_toNat]
  · rintro ⟨d, hd, rfl⟩
    exact isLower_lower hd

/-- Of the digits in either case, the lowercase ones are those that are not uppercase letters. -/
theorem isLower_iff_isUpper_eq_false {c : Char} (h : (digit c).isSome) :
    IsLower c ↔ c.isUpper = false := by
  have hupper : c.isUpper = true ↔ 65 ≤ c.toNat ∧ c.toNat ≤ 90 :=
    decide_eq_true_iff.trans (Iff.and UInt32.le_iff_toNat_le UInt32.le_iff_toNat_le)
  rw [← Bool.not_eq_true, hupper, IsLower]
  rw [digit] at h
  split at h
  · omega
  split at h
  · omega
  split at h
  · omega
  · cases h

theorem length_encodeChars (bs : List UInt8) : (encodeChars bs).length = 2 * bs.length := by
  induction bs with
  | nil => rfl
  | cons b bs ih =>
    rw [encodeChars, List.length_cons, List.length_cons, ih, List.length_cons]
    omega

theorem isLower_encodeChars (bs : List UInt8) : ∀ c ∈ encodeChars bs, IsLower c := by
  induction bs with
  | nil => exact fun c hc ↦ absurd hc List.not_mem_nil
  | cons b bs ih =>
    have hb := b.toNat_lt
    rw [encodeChars, List.forall_mem_cons, List.forall_mem_cons]
    exact ⟨isLower_lower (by omega), isLower_lower (by omega), ih⟩

theorem lower_eq_zero {d : ℕ} (h : d < 16) : lower d = '0' ↔ d = 0 := by
  interval_cases d <;> decide

/-- The zero bytes are the ones written with zeros. -/
theorem forall_encodeChars_eq_zero (bs : List UInt8) :
    (∀ c ∈ encodeChars bs, c = '0') ↔ ∀ b ∈ bs, b = 0 := by
  induction bs with
  | nil => simp [encodeChars]
  | cons b bs ih =>
    have hb := b.toNat_lt
    rw [encodeChars, List.forall_mem_cons, List.forall_mem_cons, List.forall_mem_cons, ih,
      lower_eq_zero (by omega), lower_eq_zero (by omega), ← and_assoc, ← UInt8.toNat_inj,
      UInt8.toNat_zero]
    refine and_congr_left fun _ ↦ ?_
    omega

/-- An even number of lowercase digits is the notation of a byte string. -/
theorem exists_encodeChars {n : ℕ} {cs : List Char} (hlen : cs.length = 2 * n)
    (hlower : ∀ c ∈ cs, IsLower c) : ∃ bs : List UInt8, bs.length = n ∧ cs = encodeChars bs := by
  induction n generalizing cs with
  | zero => exact ⟨[], rfl, List.length_eq_zero_iff.mp hlen⟩
  | succ n ih =>
    obtain ⟨h, l, cs, rfl⟩ : ∃ h l cs', cs = h :: l :: cs' := by
      rcases cs with _ | ⟨h, _ | ⟨l, cs⟩⟩
      · simp at hlen
      · rw [List.length_singleton] at hlen
        omega
      · exact ⟨h, l, cs, rfl⟩
    rw [List.forall_mem_cons, List.forall_mem_cons] at hlower
    obtain ⟨hh, hl, hrest⟩ := hlower
    obtain ⟨bs, hbs, rfl⟩ := ih (by simp only [List.length_cons] at hlen; omega) hrest
    obtain ⟨a, ha, rfl⟩ := isLower_iff.mp hh
    obtain ⟨b, hb, rfl⟩ := isLower_iff.mp hl
    have hbyte : (UInt8.ofNat (16 * a + b)).toNat = 16 * a + b := by
      rw [UInt8.toNat_ofNat']
      exact Nat.mod_eq_of_lt (by omega)
    refine ⟨UInt8.ofNat (16 * a + b) :: bs, by rw [List.length_cons, hbs], ?_⟩
    rw [encodeChars, hbyte, show (16 * a + b) / 16 = a by omega,
      show (16 * a + b) % 16 = b by omega]

end Hex

/-! ## Fields joined by a separator -/

/-- Two joins of a field that cannot contain the separator split at the same place. -/
theorem split_left {α : Type} {sep : α} {a a' x x' : List α} (ha : sep ∉ a) (ha' : sep ∉ a')
    (h : a ++ sep :: x = a' ++ sep :: x') : a = a' ∧ x = x' := by
  induction a generalizing a' with
  | nil =>
    cases a' with
    | nil => exact ⟨rfl, (List.cons_eq_cons.mp h).2⟩
    | cons c a' => exact absurd ((List.cons_eq_cons.mp h).1 ▸ List.mem_cons_self) ha'
  | cons c a ih =>
    cases a' with
    | nil => exact absurd ((List.cons_eq_cons.mp h).1 ▸ List.mem_cons_self) ha
    | cons c' a' =>
      obtain ⟨rfl, htl⟩ := List.cons_eq_cons.mp h
      obtain ⟨rfl, rfl⟩ := ih (fun hm ↦ ha (List.mem_cons_of_mem c hm))
        (fun hm ↦ ha' (List.mem_cons_of_mem c hm)) htl
      exact ⟨rfl, rfl⟩

theorem split_right {α : Type} {sep : α} {a a' x x' : List α} (ha : sep ∉ a) (ha' : sep ∉ a')
    (h : x ++ sep :: a = x' ++ sep :: a') : x = x' ∧ a = a' := by
  have hrev : a.reverse ++ sep :: x.reverse = a'.reverse ++ sep :: x'.reverse := by
    simpa using congrArg List.reverse h
  obtain ⟨h1, h2⟩ := split_left (by simpa using ha) (by simpa using ha') hrev
  exact ⟨List.reverse_inj.mp h2, List.reverse_inj.mp h1⟩

theorem eq_of_toList_repr_eq {m n : ℕ} (h : m.repr.toList = n.repr.toList) : m = n := by
  rw [Nat.toList_repr, Nat.toList_repr] at h
  rw [← Nat.ofDigitChars_ten_toDigits (n := m), h, Nat.ofDigitChars_ten_toDigits]

theorem colon_notMem_repr (n : ℕ) : ':' ∉ n.repr.toList := fun h ↦ by
  rw [Nat.toList_repr] at h
  exact absurd (Nat.isDigit_of_mem_toDigits (by decide) (by decide) h) (by decide)

end Rust
