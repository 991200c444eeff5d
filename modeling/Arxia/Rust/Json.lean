import Arxia.Rust.Text

/-!
# JSON text

What `serde_json` writes, in its compact form. A string is written between quotation marks with the
characters JSON reserves escaped; a variant of an enum with named fields is an object with the name
of the variant as its only key.

Two facts make such text readable. A string can be read back off the front of any text that starts
with it. And no object opens inside a string, because a quotation mark there comes after a
backslash; so an object whose first key is capitalized is recognized wherever it stands.
-/

namespace Rust.Json

/-! ## Strings -/

/-- The escape of a character, by its code point: the short forms, the `\u00` form of the other
control characters, and the character itself. -/
def escapeChar (c : Char) : List Char :=
  match c.toNat with
  | 8 => "\\b".toList
  | 9 => "\\t".toList
  | 10 => "\\n".toList
  | 12 => "\\f".toList
  | 13 => "\\r".toList
  | 34 => "\\\"".toList
  | 92 => "\\\\".toList
  | n => if n < 32 then "\\u00".toList ++ [Hex.lower (n / 16), Hex.lower (n % 16)] else [c]

/-- The escaped characters of a string. -/
def escape (cs : List Char) : List Char := cs.flatMap escapeChar

@[simp] theorem escape_nil : escape [] = [] := rfl

theorem escape_cons (c : Char) (cs : List Char) : escape (c :: cs) = escapeChar c ++ escape cs :=
  List.flatMap_cons

theorem isUpper_eq_false {c : Char} (h : c.toNat < 65 ∨ 90 < c.toNat) : c.isUpper = false := by
  apply decide_eq_false
  rintro ⟨hlo, hhi⟩
  have hlo : 65 ≤ c.toNat := UInt32.le_iff_toNat_le.mp hlo
  have hhi : c.toNat ≤ 90 := UInt32.le_iff_toNat_le.mp hhi
  omega

/-- A character stands for itself, or its escape starts with a backslash. -/
theorem escapeChar_eq_or (c : Char) :
    (escapeChar c = [c] ∧ c.toNat ≠ 34 ∧ c.toNat ≠ 92) ∨
      c.isUpper = false ∧ ∃ d rest, escapeChar c = '\\' :: d :: rest ∧ d.toNat ≠ 123 ∧
        ∀ e ∈ rest, (Hex.digit e).isSome := by
  rw [escapeChar]
  split
  iterate 7
    rename_i h
    exact Or.inr ⟨isUpper_eq_false (by omega), _, [], rfl, by decide, by simp⟩
  · rename_i h34 h92
    split
    · rename_i hlt
      refine Or.inr ⟨isUpper_eq_false (by omega), 'u', ['0', '0', _, _], rfl, by decide, ?_⟩
      simp only [List.forall_mem_cons]
      refine ⟨by decide, by decide, ?_, ?_, by simp⟩
      · rw [Hex.digit_lower (by omega)]
        rfl
      · rw [Hex.digit_lower (by omega)]
        rfl
    · exact Or.inl ⟨rfl, h34, h92⟩

/-- The text of a string. -/
def string (s : String) : List Char := '"' :: (escape s.toList ++ ['"'])

/-- The text of an unsigned number. -/
def number (v : UInt64) : List Char := v.toNat.repr.toList

/-! ## Objects -/

/-- The text of a key with its value. -/
def member (key : String) (value : List Char) : List Char := string key ++ ':' :: value

/-- The text of an object. -/
def object (members : List (List Char)) : List Char :=
  '\x7b' :: ([','].intercalate members ++ ['\x7d'])

/-- The text of a variant with named fields, externally tagged. -/
def variant (name : String) (fields : List (List Char)) : List Char :=
  object [member name (object fields)]

theorem string_append (s : String) (r : List Char) :
    string s ++ r = '"' :: (escape s.toList ++ '"' :: r) := by
  rw [string, List.cons_append, List.append_assoc]
  rfl

theorem variant_eq (name : String) (fields : List (List Char)) :
    variant name fields = '\x7b' :: '"' :: (escape name.toList ++
      '"' :: ':' :: '\x7b' :: ([','].intercalate fields ++ ['\x7d', '\x7d'])) := by
  rw [variant, object, List.intercalate_singleton, member, List.append_assoc, string_append,
    object, List.cons_append, List.cons_append, List.append_assoc]
  rfl

theorem length_le_length_escape (cs : List Char) : cs.length ≤ (escape cs).length := by
  induction cs with
  | nil => exact Nat.le_refl _
  | cons c cs ih =>
    have hpos : 0 < (escapeChar c).length := by
      rcases escapeChar_eq_or c with ⟨h, -⟩ | ⟨-, d, rest, h, -⟩
      · rw [h]
        exact Nat.one_pos
      · rw [h]
        exact Nat.succ_pos _
    rw [escape_cons, List.length_append, List.length_cons]
    omega

/-- The name of a variant is in its text, with the braces around it. -/
theorem length_le_length_variant (name : String) (fields : List (List Char)) :
    name.length + 7 ≤ (variant name fields).length := by
  have hname := length_le_length_escape name.toList
  rw [String.length_toList] at hname
  rw [variant_eq]
  simp only [List.length_cons, List.length_append, List.length_nil]
  omega

/-! ## Reading a string back -/

/-- The code point an escape stands for, after its backslash, and the rest of the text. -/
def readEscape : List Char → Option (ℕ × List Char)
  | 'b' :: cs => some (8, cs)
  | 't' :: cs => some (9, cs)
  | 'n' :: cs => some (10, cs)
  | 'f' :: cs => some (12, cs)
  | 'r' :: cs => some (13, cs)
  | 'u' :: _ :: _ :: h :: l :: cs =>
    match Hex.digit h, Hex.digit l with
    | some a, some b => some (16 * a + b, cs)
    | _, _ => none
  | c :: cs => some (c.toNat, cs)
  | [] => none

/-- The first character of the text of a string, as a code point, and the rest of the text. -/
def readChar : List Char → Option (ℕ × List Char)
  | [] => none
  | c :: cs => if c.toNat = 92 then readEscape cs else some (c.toNat, cs)

theorem readChar_escapeChar (c : Char) (x : List Char) :
    readChar (escapeChar c ++ x) = some (c.toNat, x) := by
  rw [escapeChar]
  split
  iterate 7
    rename_i h
    rw [h]
    rfl
  · rename_i h92
    split
    · rename_i hlt
      change readEscape ('u' :: '0' :: '0' :: Hex.lower _ :: Hex.lower _ :: x) = _
      rw [readEscape, Hex.digit_lower (by omega), Hex.digit_lower (by omega)]
      simp only [Option.some_inj, Prod.mk.injEq, and_true]
      omega
    · exact if_neg h92

/-- The text of a string is not mistaken for its end. -/
theorem head_escapeChar_append_ne (c : Char) (x r : List Char) :
    escapeChar c ++ x ≠ '"' :: r := by
  intro h
  rcases escapeChar_eq_or c with ⟨hself, hquote, -⟩ | ⟨-, d, rest, hesc, -⟩
  · rw [hself, List.singleton_append, List.cons.injEq] at h
    exact hquote (congrArg Char.toNat h.1)
  · rw [hesc, List.cons_append, List.cons.injEq] at h
    exact absurd h.1 (by decide)

/-- **A string ends at the first quotation mark that is not escaped.** -/
theorem escape_append_inj {s s' r r' : List Char}
    (h : escape s ++ '"' :: r = escape s' ++ '"' :: r') : s = s' ∧ r = r' := by
  induction s generalizing s' with
  | nil =>
    cases s' with
    | nil => exact ⟨rfl, (List.cons_eq_cons.mp h).2⟩
    | cons c' s' =>
      rw [escape_cons, List.append_assoc] at h
      exact absurd h.symm (head_escapeChar_append_ne _ _ _)
  | cons c s ih =>
    cases s' with
    | nil =>
      rw [escape_cons, List.append_assoc] at h
      exact absurd h (head_escapeChar_append_ne _ _ _)
    | cons c' s' =>
      rw [escape_cons, escape_cons, List.append_assoc, List.append_assoc] at h
      -- one character is read back from either side
      have hread := readChar_escapeChar c (escape s ++ '"' :: r)
      rw [h, readChar_escapeChar, Option.some_inj, Prod.mk.injEq] at hread
      obtain ⟨hs, hr⟩ := ih hread.2.symm
      exact ⟨by rw [Char.toNat_inj.mp hread.1, hs], hr⟩

theorem string_append_inj {s s' : String} {r r' : List Char}
    (h : string s ++ r = string s' ++ r') : s = s' ∧ r = r' := by
  rw [string_append, string_append, List.cons.injEq] at h
  obtain ⟨hs, hr⟩ := escape_append_inj h.2
  exact ⟨String.toList_inj.mp hs, hr⟩

theorem number_append_inj {v v' : UInt64} {r : List Char} (h : number v ++ r = number v' ++ r) :
    v = v' :=
  UInt64.toNat_inj.mp (eq_of_toList_repr_eq (List.append_cancel_right h))

/-- A variant determines its name and its fields. -/
theorem variant_inj {n n' : String} {f f' : List (List Char)} (h : variant n f = variant n' f') :
    n = n' ∧ [','].intercalate f = [','].intercalate f' := by
  rw [variant_eq, variant_eq, List.cons.injEq, List.cons.injEq] at h
  obtain ⟨hn, hrest⟩ := escape_append_inj h.2.2
  simp only [List.cons.injEq, true_and] at hrest
  exact ⟨String.toList_inj.mp hn, List.append_cancel_right hrest⟩

theorem intercalate_pair (x y : List Char) : [','].intercalate [x, y] = x ++ ',' :: y := by
  simp [List.intercalate]

theorem member_inj {key : String} {value value' : List Char} :
    member key value = member key value' ↔ value = value' := by
  simp [member]

/-- A variant with one field determines its value. -/
theorem variant_one_inj {n key : String} {v v' : List Char}
    (h : variant n [member key v] = variant n [member key v']) : v = v' := by
  have hfields := (variant_inj h).2
  rw [List.intercalate_singleton, List.intercalate_singleton] at hfields
  exact member_inj.mp hfields

/-- A variant with a string and another field determines both. -/
theorem variant_two_inj {n key key' s s' : String} {v v' : List Char}
    (h : variant n [member key (string s), member key' v] =
      variant n [member key (string s'), member key' v']) : s = s' ∧ v = v' := by
  have hfields := (variant_inj h).2
  simp only [intercalate_pair, member, List.append_assoc, List.append_cancel_left_eq,
    List.cons_append, List.cons.injEq, true_and] at hfields
  obtain ⟨rfl, hrest⟩ := string_append_inj hfields
  simp only [List.cons.injEq, true_and, List.append_cancel_left_eq] at hrest
  exact ⟨rfl, hrest⟩

/-! ## Where objects open -/

/-- The text starts with an object whose first key is capitalized. -/
def opens : List Char → Bool
  | b :: q :: k :: _ => b.toNat = 123 && q.toNat = 34 && k.isUpper
  | _ => false

/-- No such object opens anywhere in the text. -/
def Quiet (cs : List Char) : Prop := ∀ s, s <:+ cs → opens s = false

theorem quiet_nil : Quiet [] := fun s hs ↦ by
  rw [List.suffix_nil.mp hs]
  rfl

theorem quiet_cons {c : Char} {cs : List Char} :
    Quiet (c :: cs) ↔ opens (c :: cs) = false ∧ Quiet cs := by
  simp only [Quiet, List.suffix_cons_iff]
  constructor
  · exact fun h ↦ ⟨h _ (Or.inl rfl), fun s hs ↦ h s (Or.inr hs)⟩
  · rintro ⟨hhead, htail⟩ s (rfl | hs)
    · exact hhead
    · exact htail s hs

theorem opens_eq_false {c : Char} {cs : List Char} (h : c.toNat ≠ 123) :
    opens (c :: cs) = false := by
  rcases cs with _ | ⟨q, _ | ⟨k, cs⟩⟩
  · rfl
  · rfl
  · simp [opens, h]

/-- Text without an opening brace is quiet, whatever comes next. -/
theorem quiet_append {a cs : List Char} (ha : ∀ c ∈ a, c.toNat ≠ 123) :
    Quiet (a ++ cs) ↔ Quiet cs := by
  induction a with
  | nil => rfl
  | cons c a ih =>
    rw [List.forall_mem_cons] at ha
    rw [List.cons_append, quiet_cons, ih ha.2, opens_eq_false ha.1]
    simp

theorem ne_brace_of_digit {c : Char} (h : (Hex.digit c).isSome) : c.toNat ≠ 123 := by
  have := Hex.toNat_lt_of_digit h
  omega

theorem quiet_number_append {v : UInt64} {cs : List Char} :
    Quiet (number v ++ cs) ↔ Quiet cs := by
  refine quiet_append fun c hc hbrace ↦ ?_
  rw [number, Nat.toList_repr] at hc
  have hdigit := Nat.isDigit_of_mem_toDigits (by decide) (by decide) hc
  rw [Char.toNat_inj.mp (show c.toNat = '\x7b'.toNat from hbrace)] at hdigit
  revert hdigit
  decide

/-- **Nothing opens inside a string**, nor at its end when no capital letter follows. -/
theorem quiet_escape_append {s : List Char} {k : Char} {r : List Char} (hk : k.isUpper = false)
    (hr : Quiet (k :: r)) : Quiet (escape s ++ '"' :: k :: r) := by
  induction s with
  | nil => exact quiet_cons.mpr ⟨opens_eq_false (by decide), hr⟩
  | cons c s ih =>
    rw [escape_cons, List.append_assoc]
    rcases escapeChar_eq_or c with ⟨hself, -, -⟩ | ⟨-, d, rest, hesc, hd, hrest⟩
    · rw [hself, List.singleton_append, quiet_cons]
      refine ⟨?_, ih⟩
      -- the character after an opening brace is not a quotation mark, or the string is over
      cases s with
      | nil => simp [opens, hk]
      | cons c' s =>
        rw [escape_cons, List.append_assoc]
        rcases escapeChar_eq_or c' with ⟨hself', hquote, -⟩ | ⟨-, d, rest, hesc, -⟩
        · rw [hself', List.singleton_append]
          rcases hx : escape s ++ '"' :: k :: r with _ | ⟨x, xs⟩
          · rfl
          · simp [opens, hquote]
        · rw [hesc]
          simp [opens]
    · rw [hesc, List.cons_append, List.cons_append, quiet_cons, quiet_cons,
        quiet_append fun e he ↦ ne_brace_of_digit (hrest e he)]
      exact ⟨opens_eq_false (by decide), opens_eq_false hd, ih⟩

theorem quiet_string_append {s : String} {k : Char} {r : List Char} (hk : k.isUpper = false)
    (hr : Quiet (k :: r)) : Quiet (string s ++ k :: r) := by
  rw [string_append]
  exact quiet_cons.mpr ⟨opens_eq_false (by decide), quiet_escape_append hk hr⟩

/-- The first character of a string is a capital letter. -/
def capitalized (s : String) : Bool := s.toList.head?.any Char.isUpper

theorem opens_brace_string (s : String) (x : List Char) :
    opens ('\x7b' :: (string s ++ x)) = capitalized s := by
  rw [string_append, capitalized]
  rcases s.toList with _ | ⟨c, cs⟩
  · rfl
  · rw [escape_cons, List.append_assoc, List.head?_cons, Option.any_some]
    rcases escapeChar_eq_or c with ⟨hself, -⟩ | ⟨hupper, d, rest, hesc, -⟩
    · rw [hself, List.singleton_append]
      rfl
    · rw [hesc, hupper]
      rfl

theorem opens_variant (name : String) (fields : List (List Char)) :
    opens (variant name fields) = capitalized name := by
  rw [variant, object, List.intercalate_singleton, member, List.append_assoc]
  exact opens_brace_string name _

/-- Behind its first brace the text of a variant opens no other one, when the text of its fields
does not. -/
theorem quiet_tail_variant {name : String} {fields : List (List Char)}
    (hfields : Quiet ('\x7b' :: ([','].intercalate fields ++ ['\x7d', '\x7d']))) :
    Quiet (variant name fields).tail := by
  rw [variant_eq, List.tail_cons, quiet_cons]
  refine ⟨opens_eq_false (by decide), quiet_escape_append (by decide) ?_⟩
  exact quiet_cons.mpr ⟨opens_eq_false (by decide), hfields⟩

/-- A member with a key that is not capitalized opens nothing at the start of an object. -/
theorem quiet_brace_member {key : String} {value r : List Char} (hkey : capitalized key = false)
    (hvalue : Quiet (value ++ r)) : Quiet ('\x7b' :: (member key value ++ r)) := by
  rw [member, List.append_assoc, quiet_cons, opens_brace_string]
  exact ⟨hkey, quiet_string_append (by decide)
    (quiet_cons.mpr ⟨opens_eq_false (by decide), hvalue⟩)⟩

/-- The end of a variant. -/
theorem quiet_end : Quiet ['\x7d', '\x7d'] :=
  quiet_cons.mpr ⟨opens_eq_false (by decide), quiet_cons.mpr
    ⟨opens_eq_false (by decide), quiet_nil⟩⟩

theorem quiet_tail_variant_one {name key : String} {value : List Char}
    (hkey : capitalized key = false) (hvalue : Quiet (value ++ ['\x7d', '\x7d'])) :
    Quiet (variant name [member key value]).tail := by
  apply quiet_tail_variant
  rw [List.intercalate_singleton]
  exact quiet_brace_member hkey hvalue

theorem quiet_tail_variant_two {name key key' s : String} {value : List Char}
    (hkey : capitalized key = false) (hvalue : Quiet (value ++ ['\x7d', '\x7d'])) :
    Quiet (variant name [member key (string s), member key' value]).tail := by
  apply quiet_tail_variant
  rw [intercalate_pair, List.append_assoc, List.cons_append]
  refine quiet_brace_member hkey (quiet_string_append (by decide) ?_)
  rw [member, List.append_assoc, quiet_cons]
  exact ⟨opens_eq_false (by decide), quiet_string_append (by decide)
    (quiet_cons.mpr ⟨opens_eq_false (by decide), hvalue⟩)⟩

end Rust.Json
