import Arxia.Lattice.Block
import Arxia.Rust.Json

/-!
# The JSON of a block type

`serde_json::to_string` writes the externally tagged form: an object with the variant's name as its
only key and an object with the fields as its value. `Serde` says that the serializer of `Crates`
writes this text, which is the documented behaviour of the crate on the derived implementation.

The text can be read from both ends. From the front a string field is found by its quotation marks.
From the back, no text of a block type is a proper suffix of another, since none of them contains a
second object that opens with a variant's name, whatever the string fields hold. So the content of a
block determines all its hashed fields, `previous` included, and without collisions so does the
hash.
-/

namespace Arxia

open Rust Json

namespace BlockType

/-- The JSON text of a block type. -/
def json : BlockType → List Char
  | .open initialBalance => variant "Open" [member "initial_balance" (number initialBalance)]
  | .send destination amount =>
    variant "Send" [member "destination" (string destination), member "amount" (number amount)]
  | .receive sourceHash => variant "Receive" [member "source_hash" (string sourceHash)]
  | .revoke credentialHash => variant "Revoke" [member "credential_hash" (string credentialHash)]

theorem number_inj {v v' : UInt64} (h : number v = number v') : v = v' :=
  number_append_inj (congrArg (· ++ []) h)

theorem string_inj {x x' : String} (h : string x = string x') : x = x' :=
  (string_append_inj (congrArg (· ++ []) h)).1

/-- From the front: the text determines the block type. -/
theorem json_injective : Function.Injective json := by
  intro t t' h
  cases t <;> cases t' <;> first | exact absurd (variant_inj h).1 (by decide) | skip
  · rw [number_inj (variant_one_inj h)]
  · obtain ⟨hd, hv⟩ := variant_two_inj h
    rw [hd, number_inj hv]
  · rw [string_inj (variant_one_inj h)]
  · rw [string_inj (variant_one_inj h)]

theorem opens_json (t : BlockType) : opens t.json = true := by
  cases t <;> exact opens_variant _ _

/-- From the back: behind its first brace the text contains no text of a block type. -/
theorem quiet_tail_json (t : BlockType) : Quiet t.json.tail := by
  cases t with
  | «open» v => exact quiet_tail_variant_one (by decide) (quiet_number_append.mpr quiet_end)
  | send d v => exact quiet_tail_variant_two (by decide) (quiet_number_append.mpr quiet_end)
  | receive x =>
    exact quiet_tail_variant_one (by decide) (quiet_string_append (by decide) quiet_end)
  | revoke x =>
    exact quiet_tail_variant_one (by decide) (quiet_string_append (by decide) quiet_end)

/-- **The text of a block type is found at the end of any text.** -/
theorem append_json_inj {p p' : List Char} {t t' : BlockType}
    (h : p ++ ':' :: t.json = p' ++ ':' :: t'.json) : p = p' ∧ t = t' := by
  -- a text that ended further left would contain the other one as an object of its own
  have hnot : ∀ {q : List Char} {s s' : BlockType}, s.json ≠ q ++ ':' :: s'.json := by
    intro q s s' heq
    have hsuffix : s'.json <:+ s.json.tail := by
      cases q with
      | nil =>
        have hopens := opens_json s
        rw [heq, List.nil_append, opens_eq_false (by decide)] at hopens
        simp at hopens
      | cons c q =>
        rw [heq]
        exact ⟨q ++ [':'], by simp⟩
    have hquiet := quiet_tail_json s _ hsuffix
    rw [opens_json] at hquiet
    simp at hquiet
  rcases List.append_eq_append_iff.mp h with ⟨q, hp, hj⟩ | ⟨q, hp, hj⟩
  · cases q with
    | nil =>
      rw [List.nil_append, List.cons.injEq] at hj
      exact ⟨by simpa using hp.symm, json_injective hj.2⟩
    | cons c q =>
      rw [List.cons_append, List.cons.injEq] at hj
      exact absurd hj.2 hnot
  · cases q with
    | nil =>
      rw [List.nil_append, List.cons.injEq] at hj
      exact ⟨by simpa using hp, (json_injective hj.2).symm⟩
    | cons c q =>
      rw [List.cons_append, List.cons.injEq] at hj
      exact absurd hj.2 hnot

end BlockType

/-- The serializer writes the documented text. -/
def Serde (K : Crates) : Prop := ∀ t, K.blockTypeJson t = .ok (String.ofList t.json)

namespace Block

variable {K : Crates}

/-- The two blocks agree on every field that is hashed. -/
structure SameContents (b b' : Block) : Prop where
  account : b.account = b'.account
  previous : b.previous = b'.previous
  blockType : b.blockType = b'.blockType
  balance : b.balance = b'.balance
  nonce : b.nonce = b'.nonce
  timestamp : b.timestamp = b'.timestamp

/-- **The preimage determines every field it is made of.** -/
theorem sameContents_of_preimage (hserde : Serde K) {b b' : Block} {s : String}
    (hb : ':' ∉ b.account.toList) (hb' : ':' ∉ b'.account.toList) (h : b.preimage K = some s)
    (h' : b'.preimage K = some s) : SameContents b b' := by
  obtain ⟨j, hj, hcontent⟩ := preimage_eq_some.mp h
  obtain ⟨j', hj', hcontent'⟩ := preimage_eq_some.mp h'
  rw [hserde, Except.ok.injEq] at hj hj'
  subst hj hj'
  obtain ⟨hacc, hmid, hbal, hnonce, htime⟩ := content_parts hb hb' (hcontent.trans hcontent'.symm)
  rw [String.toList_ofList, String.toList_ofList] at hmid
  obtain ⟨hprev, htype⟩ := BlockType.append_json_inj hmid
  exact ⟨hacc, String.toList_inj.mp hprev, htype, hbal, hnonce, htime⟩

/-- Without collisions the hash of a block determines every field it is made of. -/
theorem CollisionFree.sameContents (hserde : Serde K) {bs : List Block}
    (hcf : CollisionFree K bs) {b b' : Block} (hb : b ∈ bs) (hb' : b' ∈ bs) (hv : b.Hashed K)
    (hv' : b'.Hashed K) (h : b.hash = b'.hash) : SameContents b b' := by
  obtain ⟨s, hs, hs'⟩ := hcf.preimage_eq hb hb' hv hv' h
  exact sameContents_of_preimage hserde hv.colon_notMem hv'.colon_notMem hs hs'

end Block

end Arxia
