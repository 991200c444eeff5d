import Arxia.Lists.Radix
import Arxia.Rust.Text

/-!
# Base 58

The notation of the `bs58` crate in its default alphabet: the bytes are the digits of a number in
base 256, written in base 58, and each leading zero byte is written as a leading `1`. Every byte
string has one spelling, and every string over the alphabet spells one.
-/

namespace Rust.Base58

open Radix

/-- The digits in order; the four characters that are easily misread are missing. -/
def alphabet : List Char := "123456789ABCDEFGHJKLMNPQRSTUVWXYZabcdefghijkmnopqrstuvwxyz".toList

/-- The character of a digit. -/
def symbol (d : ℕ) : Char := alphabet.getD d '1'

/-- The digit a character stands for. -/
def digit (c : Char) : Option ℕ := alphabet.idxOf? c

/-- The digits a string stands for. `none`: a character is not in the alphabet. -/
def digits : List Char → Option (List ℕ)
  | [] => some []
  | c :: cs => do
    let d ← digit c
    let ds ← digits cs
    return d :: ds

/-- The bytes a string spells. -/
def decode (cs : List Char) : Option (List UInt8) :=
  (digits cs).map fun ds ↦ (rebase 58 256 ds).map UInt8.ofNat

/-- The characters spelling `bs`. -/
def encodeChars (bs : List UInt8) : List Char := (rebase 256 58 (bs.map UInt8.toNat)).map symbol

/-- The string spelling `bs`. -/
def encode (bs : List UInt8) : String := String.ofList (encodeChars bs)

theorem digit_symbol {d : ℕ} (h : d < 58) : digit (symbol d) = some d := by
  revert d
  decide +kernel

theorem symbol_of_digit {c : Char} {d : ℕ} (h : digit c = some d) : d < 58 ∧ symbol d = c := by
  rw [digit, List.idxOf?_eq_some_iff] at h
  obtain ⟨hlt, hc, _⟩ := h
  refine ⟨hlt, ?_⟩
  rw [symbol, List.getD_eq_getElem?_getD, List.getElem?_eq_getElem hlt, Option.getD_some]
  exact hc

theorem digits_eq_some {cs : List Char} {ds : List ℕ} :
    digits cs = some ds ↔ (∀ d ∈ ds, d < 58) ∧ ds.map symbol = cs := by
  induction cs generalizing ds with
  | nil =>
    simp only [digits, Option.some_inj, List.map_eq_nil_iff]
    constructor
    · rintro rfl
      exact ⟨fun d hd ↦ absurd hd List.not_mem_nil, rfl⟩
    · exact fun h ↦ h.2.symm
  | cons c cs ih =>
    simp only [digits, Option.bind_eq_bind, Option.bind_eq_some_iff, Option.pure_def,
      Option.some_inj, ih]
    constructor
    · rintro ⟨d, hd, ds', ⟨hlt, rfl⟩, rfl⟩
      obtain ⟨hd58, rfl⟩ := symbol_of_digit hd
      exact ⟨List.forall_mem_cons.mpr ⟨hd58, hlt⟩, rfl⟩
    · rintro ⟨hlt, hmap⟩
      obtain ⟨d, ds', rfl, rfl, hcs⟩ := List.map_eq_cons_iff.mp hmap
      obtain ⟨hd58, hlt'⟩ := List.forall_mem_cons.mp hlt
      exact ⟨d, digit_symbol hd58, ds', ⟨hlt', hcs⟩, rfl⟩

theorem symbol_mem {d : ℕ} (h : d < 58) : symbol d ∈ alphabet := by
  rw [symbol, List.getD_eq_getElem?_getD, List.getElem?_eq_getElem h, Option.getD_some]
  exact List.getElem_mem h

theorem exists_digits {cs : List Char} :
    (∃ ds, digits cs = some ds) ↔ ∀ c ∈ cs, c ∈ alphabet := by
  constructor
  · rintro ⟨ds, hds⟩ c hc
    obtain ⟨hlt, rfl⟩ := digits_eq_some.mp hds
    obtain ⟨d, hd, rfl⟩ := List.mem_map.mp hc
    exact symbol_mem (hlt d hd)
  · intro h
    induction cs with
    | nil => exact ⟨[], rfl⟩
    | cons c cs ih =>
      obtain ⟨hc, hcs⟩ := List.forall_mem_cons.mp h
      obtain ⟨ds, hds⟩ := ih hcs
      have hne : alphabet.idxOf? c ≠ none := mt List.idxOf?_eq_none_iff.mp (not_not.mpr hc)
      obtain ⟨d, hd⟩ := Option.ne_none_iff_exists'.mp hne
      exact ⟨d :: ds, by rw [digits, digit, hd, hds]; rfl⟩

theorem utf8Size_of_mem {c : Char} (h : c ∈ alphabet) : c.utf8Size = 1 := by
  have hall : alphabet.all fun c ↦ c.utf8Size == 1 := by decide +kernel
  exact beq_iff_eq.mp (List.all_eq_true.mp hall c h)

theorem toNat_lt_of_mem (bs : List UInt8) : ∀ d ∈ bs.map UInt8.toNat, d < 256 := by
  intro d hd
  obtain ⟨b, _, rfl⟩ := List.mem_map.mp hd
  exact b.toNat_lt

theorem map_ofNat_map_toNat (bs : List UInt8) : (bs.map UInt8.toNat).map UInt8.ofNat = bs := by
  rw [List.map_map]
  exact List.map_id'' (fun b ↦ UInt8.ofNat_toNat) bs

theorem map_toNat_map_ofNat {ds : List ℕ} (h : ∀ d ∈ ds, d < 256) :
    (ds.map UInt8.ofNat).map UInt8.toNat = ds := by
  rw [List.map_map]
  conv_rhs => rw [← List.map_id ds]
  exact List.map_congr_left fun d hd ↦ UInt8.toNat_ofNat_of_lt' (h d hd)

/-- **A string spells `bs` exactly when it is the spelling of `bs`.** -/
theorem decode_eq_some {cs : List Char} {bs : List UInt8} :
    decode cs = some bs ↔ encodeChars bs = cs := by
  rw [decode, Option.map_eq_some_iff, encodeChars]
  constructor
  · rintro ⟨ds, hds, rfl⟩
    obtain ⟨hlt, rfl⟩ := digits_eq_some.mp hds
    have hbytes := lt_of_mem_rebase (b := 58) (c := 256) (by decide) (by decide) hlt
    rw [map_toNat_map_ofNat hbytes, rebase_rebase (by decide) 256 hlt]
  · intro h
    have hbytes := toNat_lt_of_mem bs
    have hlt := lt_of_mem_rebase (b := 256) (c := 58) (by decide) (by decide) hbytes
    refine ⟨_, digits_eq_some.mpr ⟨hlt, h⟩, ?_⟩
    rw [rebase_rebase (by decide) 58 hbytes, map_ofNat_map_toNat]

example : encode "Hello World!".toUTF8.toList = "2NEpo7TZRRrLZSi2U" := by decide +kernel

/-- The strings that spell something are those over the alphabet. -/
theorem exists_decode {cs : List Char} :
    (∃ bs, decode cs = some bs) ↔ ∀ c ∈ cs, c ∈ alphabet := by
  rw [← exists_digits]
  constructor
  · rintro ⟨bs, hbs⟩
    obtain ⟨ds, hds, _⟩ := Option.map_eq_some_iff.mp hbs
    exact ⟨ds, hds⟩
  · rintro ⟨ds, hds⟩
    exact ⟨_, Option.map_eq_some_iff.mpr ⟨ds, hds, rfl⟩⟩

/-- Spelling out takes no fewer characters than there are bytes. -/
theorem length_le_length_encodeChars (bs : List UInt8) : bs.length ≤ (encodeChars bs).length := by
  have h := length_le_length_rebase (b := 256) (c := 58) (by decide) (by decide) (by decide)
    (toNat_lt_of_mem bs)
  rwa [List.length_map, ← List.length_map symbol] at h

theorem length_encodeChars_le {bs : List UInt8} {m : ℕ} (hm : 256 ^ bs.length ≤ 58 ^ m) :
    (encodeChars bs).length ≤ m := by
  rw [encodeChars, List.length_map]
  refine length_rebase_le (by decide) (by decide) (by decide) (toNat_lt_of_mem bs) ?_
  rwa [List.length_map]

theorem length_asBytes_encode (bs : List UInt8) :
    (asBytes (encode bs)).length = (encodeChars bs).length := by
  rw [length_asBytes_of_utf8Size, ← String.length_toList, encode, String.toList_ofList]
  intro c hc
  rw [encode, String.toList_ofList] at hc
  exact utf8Size_of_mem (exists_decode.mp ⟨bs, decode_eq_some.mpr rfl⟩ c hc)

end Rust.Base58
