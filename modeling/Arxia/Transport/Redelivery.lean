import Arxia.Transport.Assembly

/-!
# Fragments of a delivered message

The buffer of a message goes when the message is delivered, and with it everything that is known of
the message. A copy of one of its fragments is then the first fragment of a new message: it opens a
buffer, or is delivered again at once if the message has one fragment only.

So the run of calls delivers every message once exactly when no copy is late. `Completes` says, of
the state before a call, that the call is the one that delivers.
-/

namespace Arxia.Reassembler

open Rust Transition Lists

variable {K : Crypto} {tr : List Handled} {r r' : Reassembler} {f : Fragment}
  {m : AccountId × MessageId}

/-- The fragment fills the last empty slot of its message. -/
structure Completes (K : Crypto) (r : Reassembler) (f : Fragment) : Prop where
  takes : Takes K r f
  empty : (r.base f).slots[f.header.seq.toNat]? = some none
  last : countFilled (r.base f).slots + 1 = f.header.total.toNat

/-- The message that a call has delivered. -/
def Handled.delivery (a : Handled) : Option (AccountId × MessageId) :=
  match a.result with
  | .ok (some _) => some a.fragment.key
  | _ => none

/-- The messages delivered in a run, in order. -/
def deliveries (tr : List Handled) : List (AccountId × MessageId) := tr.filterMap Handled.delivery

/-- A copy of a fragment of a message that has been delivered leaves no buffer behind and evicts
nothing. -/
def LeavesNoTrace (K : Crypto) (tr : List Handled) : Prop :=
  ∀ tr' a r, (system K).Run (tr' ++ [a]) r → tr' ++ [a] <+: tr → a.fragment.Valid K →
    a.fragment.key ∈ deliveries tr' →
    r.buffer a.fragment.key = none ∧ ∀ m, ¬ Evicts K a.before a.fragment m

/-- No fragment of a message comes after the one that completed it. -/
def NoneLate (K : Crypto) (tr : List Handled) : Prop :=
  tr.Pairwise fun b a ↦ Completes K b.before b.fragment → a.fragment.Valid K →
    a.fragment.key ≠ b.fragment.key

theorem deliveries_concat (tr : List Handled) (a : Handled) :
    deliveries (tr ++ [a]) = deliveries tr ++ a.delivery.toList :=
  filterMap_concat Handled.delivery tr a

theorem noneLate_concat {a : Handled} : NoneLate K (tr ++ [a]) ↔ NoneLate K tr ∧
    ∀ b ∈ tr, Completes K b.before b.fragment → a.fragment.Valid K →
      a.fragment.key ≠ b.fragment.key := by
  rw [NoneLate, List.pairwise_append]
  simp [NoneLate]

theorem LeavesNoTrace.of_prefix {tr' : List Handled} (h : LeavesNoTrace K tr) (hpre : tr' <+: tr) :
    LeavesNoTrace K tr' := fun _ _ _ run hrun ↦ h _ _ _ run (hrun.trans hpre)

theorem delivery_eq_some {a : Handled} :
    a.delivery = some m ↔ (∃ p, a.result = .ok (some p)) ∧ a.fragment.key = m := by
  rw [Handled.delivery]
  split
  · rename_i p hresult
    rw [Option.some_inj, and_iff_right ⟨p, hresult⟩]
  · rename_i hresult
    constructor
    · intro h
      cases h
    · rintro ⟨⟨p, h⟩, -⟩
      exact absurd h (hresult p)

/-- A call delivers when it completes. -/
theorem Does.completes_iff {out : Except ReassemblyError (Option (List UInt8))}
    (hdoes : Does K r f out r') : Completes K r f ↔ ∃ p, out = .ok (some p) := by
  cases hdoes with
  | rejected hnot => exact ⟨fun h ↦ absurd h.takes hnot, fun ⟨_, h⟩ ↦ by cases h⟩
  | repeated _ hbuffer hslot =>
    refine ⟨fun h ↦ ?_, fun ⟨_, h⟩ ↦ by cases h⟩
    have hempty := h.empty
    rw [base_of_some hbuffer, hslot] at hempty
    cases hempty
  | stored _ _ hlt _ =>
    exact ⟨fun h ↦ absurd h.last (Nat.ne_of_lt hlt), fun ⟨_, h⟩ ↦ by cases h⟩
  | delivered htakes hslot heq _ => exact ⟨fun _ ↦ ⟨_, rfl⟩, fun _ ↦ ⟨htakes, hslot, heq⟩⟩

theorem completes_iff_of_mem (run : (system K).Run tr r) {b : Handled} (hb : b ∈ tr) :
    Completes K b.before b.fragment ↔ ∃ p, b.result = .ok (some p) := by
  obtain ⟨pre, post, rfl⟩ := List.append_of_mem hb
  obtain ⟨r₁, r₂, run₁, hstep, -⟩ := run.exists_step
  have hcompletes := (does_of_step run₁ hstep).completes_iff
  rwa [← hstep.1] at hcompletes

/-- A message has been delivered by a call that completed it. -/
theorem mem_deliveries (run : (system K).Run tr r) :
    m ∈ deliveries tr ↔ ∃ b ∈ tr, Completes K b.before b.fragment ∧ b.fragment.key = m := by
  rw [deliveries, List.mem_filterMap]
  refine exists_congr fun b ↦ and_congr_right fun hb ↦ ?_
  rw [delivery_eq_some, completes_iff_of_mem run hb]

/-- The buffer of a message goes with the call that completes it. -/
theorem Does.buffer_of_completes {out : Except ReassemblyError (Option (List UInt8))}
    (hdoes : Does K r f out r') (h : Completes K r f) : r'.buffer f.key = none := by
  obtain ⟨p, rfl⟩ := hdoes.completes_iff.mp h
  cases hdoes with
  | delivered _ _ _ hupdate => exact buffer_of_delivered hupdate

/-- As long as no fragment is late, there is no buffer for a message that has been delivered. -/
theorem buffer_eq_none_of_delivered (run : (system K).Run tr r) (h : NoneLate K tr)
    (hm : m ∈ deliveries tr) : r.buffer m = none := by
  induction run with
  | start _ => simp [deliveries] at hm
  | @step tr r r' a run hstep ih =>
    have hdoes := does_of_step run hstep
    obtain ⟨hnoneLate, hlate⟩ := noneLate_concat.mp h
    rcases (mem_deliveries (run.step hstep)).mp hm with ⟨b, hb, hcompletes, rfl⟩
    rcases List.mem_append.mp hb with hb | hb
    · -- an earlier call has delivered it
      have hnone := ih hnoneLate ((mem_deliveries run).mpr ⟨b, hb, hcompletes, rfl⟩)
      by_cases hvalid : a.fragment.Valid K
      · cases hbuffer : r'.buffer b.fragment.key with
        | none => rfl
        | some p =>
          have hsame := hdoes.buffer_of_some (kept_of_run run) (hlate b hb hcompletes hvalid).symm
            hbuffer
          cases hnone.symm.trans hsame
      · rw [hdoes.eq_of_not_takes fun htakes ↦ hvalid htakes.valid, hnone]
    · obtain rfl := List.mem_singleton.mp hb
      exact hdoes.buffer_of_completes (hstep.1 ▸ hcompletes)

/-- A late fragment opens a buffer, or is delivered. -/
theorem Does.of_buffer_eq_none {out : Except ReassemblyError (Option (List UInt8))}
    (hdoes : Does K r f out r') (hvalid : f.Valid K) (hbuffer : r.buffer f.key = none) :
    r'.buffer f.key ≠ none ∨ Completes K r f := by
  have hbase := base_of_none hbuffer
  have hslot := PendingMessage.getElem?_empty hvalid.seq
  rw [← hbase] at hslot
  cases hdoes with
  | rejected hnot =>
    refine absurd ⟨hvalid, hbase ▸ rfl, fun x hx ↦ ?_⟩ hnot
    cases hslot.symm.trans hx
  | repeated _ hsome _ => cases hbuffer.symm.trans hsome
  | stored _ _ _ hupdate =>
    refine .inl ?_
    rw [buffer_of_stored hupdate]
    exact Option.some_ne_none _
  | delivered htakes hslot heq _ => exact .inr ⟨htakes, hslot, heq⟩

/-- **Where nothing is late**, every message is delivered once, and stays delivered. -/
theorem delivers_once_of_noneLate (run : (system K).Run tr r) (h : NoneLate K tr) :
    (deliveries tr).Nodup ∧ LeavesNoTrace K tr := by
  constructor
  · induction run with
    | start _ => exact List.nodup_nil
    | @step tr r r' a run hstep ih =>
      obtain ⟨hnoneLate, hlate⟩ := noneLate_concat.mp h
      rw [deliveries_concat]
      cases hdelivery : a.delivery with
      | none =>
        rw [Option.toList_none, List.append_nil]
        exact ih hnoneLate
      | some m =>
        obtain ⟨hresult, rfl⟩ := delivery_eq_some.mp hdelivery
        rw [Option.toList_some, ← List.concat_eq_append]
        refine (ih hnoneLate).concat fun hmem ↦ ?_
        obtain ⟨b, hb, hcompletes, hkey⟩ := (mem_deliveries run).mp hmem
        have hnow := (does_of_step run hstep).completes_iff.mpr hresult
        exact hlate b hb hcompletes hnow.takes.valid hkey.symm
  · rintro tr' a s run' hpre hvalid hmem
    -- such a copy would be late
    obtain ⟨b, hb, hcompletes, hkey⟩ :=
      (mem_deliveries run'.exists_start.choose_spec).mp hmem
    have hnoneLate : NoneLate K (tr' ++ [a]) := List.Pairwise.sublist hpre.sublist h
    exact absurd hkey.symm ((noneLate_concat.mp hnoneLate).2 b hb hcompletes hvalid)

/-- **Network duplicates.** In a run every message is delivered at most once, and the copies of its
fragments that come afterwards leave no trace, exactly when no fragment of a message comes after the
one that completed it. -/
theorem delivers_once_iff (run : (system K).Run tr r) :
    ((deliveries tr).Nodup ∧ LeavesNoTrace K tr) ↔ NoneLate K tr := by
  refine ⟨fun h ↦ ?_, delivers_once_of_noneLate run⟩
  induction run with
  | start _ => exact List.Pairwise.nil
  | @step tr r r' a run hstep ih =>
    obtain ⟨hnodup, htrace⟩ := h
    have hdoes := does_of_step run hstep
    have hnoneLate : NoneLate K tr := by
      refine ih (And.intro ?_ (htrace.of_prefix (List.prefix_append _ _)))
      rw [deliveries_concat] at hnodup
      exact (List.nodup_append.mp hnodup).1
    refine noneLate_concat.mpr ⟨hnoneLate, fun b hb hcompletes hvalid hkey ↦ ?_⟩
    have hmem : a.fragment.key ∈ deliveries tr :=
      (mem_deliveries run).mpr ⟨b, hb, hcompletes, hkey.symm⟩
    rcases hdoes.of_buffer_eq_none hvalid (buffer_eq_none_of_delivered run hnoneLate hmem) with
      hopened | hagain
    · exact hopened
        (htrace tr a r' (run.step hstep) (List.prefix_refl _) hvalid hmem).1
    · have hdelivery := delivery_eq_some.mpr ⟨hdoes.completes_iff.mp hagain, rfl⟩
      rw [deliveries_concat, hdelivery, Option.toList_some] at hnodup
      exact List.disjoint_of_nodup_append hnodup hmem (List.mem_singleton_self _)

/-! ### A copy in time -/

/-- The outcomes of the calls that are fed these fragments in turn. -/
def outcomes (K : Crypto) :
    List Fragment → Reassembler → Option (List (Except ReassemblyError (Option (List UInt8))))
  | [], _ => some []
  | f :: fs, r => ((feed K f).exec r).bind fun out ↦ (outcomes K fs out.2).map (out.1 :: ·)

theorem exists_run_of_outcomes {fs : List Fragment}
    {outs : List (Except ReassemblyError (Option (List UInt8)))} (run : (system K).Run tr r)
    (h : outcomes K fs r = some outs) : ∃ tr' r', (system K).Run (tr ++ tr') r' ∧
      tr'.map (fun a ↦ (a.fragment, a.result)) = fs.zip outs := by
  induction fs generalizing tr r outs with
  | nil => exact ⟨[], r, by rwa [List.append_nil], rfl⟩
  | cons f fs ih =>
    obtain ⟨⟨out, r₁⟩, hexec, hrest⟩ := Option.bind_eq_some_iff.mp h
    obtain ⟨outs', houts, rfl⟩ := Option.map_eq_some_iff.mp hrest
    have hstep : (system K).step r ⟨r, f, out⟩ r₁ := ⟨rfl, hexec⟩
    obtain ⟨tr', r', run', hmap⟩ := ih (run.step hstep) houts
    rw [List.append_assoc, List.singleton_append] at run'
    refine ⟨⟨r, f, out⟩ :: tr', r', run', ?_⟩
    rw [List.map_cons, hmap, List.zip_cons_cons]

/-- A message in one fragment, under another id. -/
def single : Fragment where
  header :=
    { peerPubkey := Vector.replicate 32 0
      messageId := Vector.replicate 16 1
      seq := 0
      total := 1
      signature := Reference.sign (Vector.replicate 32 0) (Fragment.canonicalBytes
        (Vector.replicate 32 0) (Vector.replicate 16 1) 0 1 [9]) }
  payload := [9]

/-- The first fragment of a message comes twice before the second, and then another message. -/
theorem delivers_once_copied : ∃ tr r, (system Reference.crypto).Run tr r ∧
    fed tr = [sample 0 2 [5], sample 0 2 [5], sample 1 2 [7], single] ∧
      deliveries tr = [(sample 1 2 [7]).key, single.key] ∧
      (deliveries tr).Nodup ∧ LeavesNoTrace Reference.crypto tr := by
  have houtcomes : outcomes Reference.crypto
      [sample 0 2 [5], sample 0 2 [5], sample 1 2 [7], single] new =
      some [.ok none, .ok none, .ok (some [5, 7]), .ok (some [9])] := by decide +kernel
  obtain ⟨tr, r, run, hmap⟩ := exists_run_of_outcomes (.start rfl) houtcomes
  rw [List.nil_append] at run
  obtain ⟨⟨r₁, _, _⟩, tr, rfl, h₁, hmap⟩ := List.map_eq_cons_iff.mp hmap
  obtain ⟨⟨r₂, _, _⟩, tr, rfl, h₂, hmap⟩ := List.map_eq_cons_iff.mp hmap
  obtain ⟨⟨r₃, _, _⟩, tr, rfl, h₃, hmap⟩ := List.map_eq_cons_iff.mp hmap
  obtain ⟨⟨r₄, _, _⟩, tr, rfl, h₄, hmap⟩ := List.map_eq_cons_iff.mp hmap
  obtain rfl := List.map_eq_nil_iff.mp hmap
  obtain ⟨rfl, rfl⟩ := Prod.mk.inj h₁
  obtain ⟨rfl, rfl⟩ := Prod.mk.inj h₂
  obtain ⟨rfl, rfl⟩ := Prod.mk.inj h₃
  obtain ⟨rfl, rfl⟩ := Prod.mk.inj h₄
  refine ⟨_, r, run, rfl, rfl, (delivers_once_iff run).mpr ?_⟩
  -- of the calls that deliver, the first is followed by a fragment of another message
  refine List.Pairwise.imp_of_mem (R := fun b a ↦ (∃ p, b.result = .ok (some p)) →
    a.fragment.key ≠ b.fragment.key) (fun hb _ h hcompletes _ ↦
      h ((completes_iff_of_mem run hb).mp hcompletes)) ?_
  have hkey : single.key ≠ (sample 1 2 [7]).key := by decide
  simp [hkey]

/-! ### A message in one fragment -/

/-- The message is returned whenever its fragment comes. -/
theorem exec_sample (h : Kept r) (hbuffer : r.buffer (sample 0 1 [5]).key = none) :
    ∃ r', (feed Reference.crypto (sample 0 1 [5])).exec r = some (.ok (some [5]), r') ∧
      Kept r' ∧ r'.buffer (sample 0 1 [5]).key = none := by
  obtain ⟨out, r', hexec, hdoes⟩ := exec_feed h Reference.crypto (sample 0 1 [5])
  have hfollows : Follows Reference.crypto (sample 0 1 [5]).key [[5]] [] r :=
    follows_of_buffer_eq_none hbuffer
  have hout := hfollows.last h hdoes (fun _ _ ↦ ⟨rfl, fun x hx ↦ Option.some_inj.mp hx⟩)
    (verify_sample _ _ _) (by decide) (fun ⟨f, hf, _⟩ ↦ by cases hf) fun i hi hne ↦ by
      exact absurd (Nat.lt_one_iff.mp hi) hne
  refine ⟨r', hout ▸ hexec, hdoes.kept h, hdoes.buffer_of_completes ?_⟩
  exact hdoes.completes_iff.mpr ⟨_, hout⟩

/-- A copy of its fragment makes it be delivered twice. -/
theorem redelivers : ∃ tr r, (system Reference.crypto).Run tr r ∧
    (∀ m, ∃ payloads, ∀ f ∈ fed tr, Consistent Reference.crypto m payloads f) ∧
      ¬ ((deliveries tr).Nodup ∧ LeavesNoTrace Reference.crypto tr) := by
  obtain ⟨r, hexec, hkept, hbuffer⟩ := exec_sample kept_new (buffer_new _)
  obtain ⟨r', hexec', -, -⟩ := exec_sample hkept hbuffer
  have start : (system Reference.crypto).Run [] new := .start rfl
  have run : (system Reference.crypto).Run [⟨new, sample 0 1 [5], .ok (some [5])⟩] r :=
    start.step ⟨rfl, hexec⟩
  have run' : (system Reference.crypto).Run
      [⟨new, sample 0 1 [5], .ok (some [5])⟩, ⟨r, sample 0 1 [5], .ok (some [5])⟩] r' :=
    run.step ⟨rfl, hexec'⟩
  refine ⟨_, r', run', fun m ↦ ⟨[[5]], fun f hf _ _ ↦ ?_⟩, fun h ↦ ?_⟩
  · have hf : f = sample 0 1 [5] := by simpa [fed] using hf
    rw [hf]
    exact ⟨rfl, fun x hx ↦ Option.some_inj.mp hx⟩
  · have hnodup : [(sample 0 1 [5]).key, (sample 0 1 [5]).key].Nodup := h.1
    simp at hnodup

end Arxia.Reassembler
