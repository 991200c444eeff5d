import Arxia.Core.Crypto
import Arxia.Transport.Reassembly

/-!
# What is assembled

A message that `feed` returns is made of fragments that the run has been fed, one for each place.
Conversely a message of which every fragment comes is returned, in any order of arrival, when its
peer does not contradict itself and its buffer is not dropped on the way.

Both are statements about what a buffer holds: `Sourced` says where it is from, and `Follows` what
it is of the fragments that have come since the buffer was opened.
-/

namespace Arxia.Reassembler

open Rust Transition Lists

variable {K : Crypto} {tr : List Handled} {r r' : Reassembler} {f : Fragment}
  {m : AccountId × MessageId} {payloads : List (List UInt8)}

/-- The fragments that a run has been fed. -/
def fed (tr : List Handled) : List Fragment := tr.map Handled.fragment

/-- A fragment that the run has been fed, and that verifies, is the one in this place of the
message. -/
structure Supplies (K : Crypto) (tr : List Handled) (m : AccountId × MessageId) (total : UInt16)
    (i : ℕ) (f : Fragment) : Prop where
  mem : f ∈ fed tr
  verify : f.verify K = .ok ()
  key : f.key = m
  total : f.header.total = total
  seq : f.header.seq.toNat = i

theorem fed_append (tr tr' : List Handled) : fed (tr ++ tr') = fed tr ++ fed tr' := List.map_append

theorem mem_fed_concat {a : Handled} : f ∈ fed (tr ++ [a]) ↔ f ∈ fed tr ∨ f = a.fragment := by
  rw [fed_append, List.mem_append, fed, fed, List.map_singleton, List.mem_singleton]

theorem Supplies.concat {total : UInt16} {i : ℕ} (h : Supplies K tr m total i f) (a : Handled) :
    Supplies K (tr ++ [a]) m total i f :=
  { h with mem := mem_fed_concat.mpr (.inl h.mem) }

/-! ## Where the payloads come from -/

/-- Every payload that is kept is that of a fragment which has come. -/
def Sourced (K : Crypto) (tr : List Handled) (r : Reassembler) : Prop :=
  ∀ m p, r.buffer m = some p → ∀ i x, p.slots[i]? = some (some x) →
    ∃ f : Fragment, f.payload = x ∧ Supplies K tr m p.total i f

theorem Sourced.base (h : Sourced K tr r) (f : Fragment) {i : ℕ} {x : List UInt8}
    (hslot : (r.base f).slots[i]? = some (some x)) :
    ∃ g : Fragment, g.payload = x ∧ Supplies K tr f.key (r.base f).total i g := by
  cases hbuffer : r.buffer f.key with
  | none =>
    rw [base_of_none hbuffer, PendingMessage.empty, List.getElem?_replicate] at hslot
    split at hslot <;> cases hslot
  | some p =>
    rw [base_of_some hbuffer] at hslot ⊢
    exact h _ p hbuffer i x hslot

/-- The payload that goes into an empty slot is that of the fragment. -/
theorem Sourced.fill {a : Handled} (h : Sourced K tr r) (htakes : Takes K r a.fragment)
    (hslot : (r.base a.fragment).slots[a.fragment.header.seq.toNat]? = some none) {i : ℕ}
    {x : List UInt8}
    (hfilled : ((r.base a.fragment).fill a.fragment.header.seq a.fragment.payload).slots[i]? =
      some (some x)) :
    ∃ g : Fragment, g.payload = x ∧
      Supplies K (tr ++ [a]) a.fragment.key (r.base a.fragment).total i g := by
  rcases (getElem?_set_eq_some hslot).mp hfilled with ⟨rfl, rfl⟩ | hold
  · exact ⟨a.fragment, rfl, mem_fed_concat.mpr (.inr rfl), htakes.valid.verify, rfl,
      htakes.total.symm, rfl⟩
  · obtain ⟨g, hpayload, hsupplies⟩ := h.base a.fragment hold
    exact ⟨g, hpayload, hsupplies.concat a⟩

theorem sourced_of_run (run : (system K).Run tr r) : Sourced K tr r := by
  refine run.invariant ?_ ?_
  · rintro r rfl m p hbuffer
    cases hbuffer
  · intro tr r a r' run h hstep m p hbuffer i x hslot
    have hdoes := does_of_step run hstep
    have hold : ∀ q, r.buffer m = some q → q.slots[i]? = some (some x) →
        ∃ f : Fragment, f.payload = x ∧ Supplies K (tr ++ [a]) m q.total i f := fun q hq hslot ↦ by
      obtain ⟨f, hpayload, hsupplies⟩ := h m q hq i x hslot
      exact ⟨f, hpayload, hsupplies.concat a⟩
    by_cases hkey : m = a.fragment.key
    · subst hkey
      generalize a.result = out at hdoes
      cases hdoes with
      | rejected => exact hold p hbuffer hslot
      | repeated => exact hold p hbuffer hslot
      | stored htakes hempty _ hupdate =>
        obtain rfl := Option.some_inj.mp ((buffer_of_stored hupdate).symm.trans hbuffer)
        exact h.fill htakes hempty hslot
      | delivered _ _ _ hupdate => cases (buffer_of_delivered hupdate).symm.trans hbuffer
    · exact hold p (hdoes.buffer_of_some (kept_of_run run) hkey hbuffer) hslot

/-- The message that a call returns. -/
theorem exists_fragments {a : Handled} (run : (system K).Run (tr ++ [a]) r) {p : List UInt8}
    (h : a.result = .ok (some p)) :
    ∃ fragments : List Fragment, fragments.length = a.fragment.header.total.toNat ∧
      p = (fragments.map Fragment.payload).flatten ∧
      ∀ i f, fragments[i]? = some f →
        Supplies K (tr ++ [a]) a.fragment.key a.fragment.header.total i f := by
  obtain ⟨t, t', run', hstep, -⟩ := run.exists_step
  have hdoes := does_of_step run' hstep
  have hsourced := sourced_of_run run'
  have hcounted := (kept_of_run run').counted_base a.fragment
  rw [h] at hdoes
  cases hdoes with
  | delivered htakes hslot heq hupdate =>
    have hlength := hcounted.length.trans (congrArg UInt16.toNat htakes.total)
    have hfull : countFilled ((t.base a.fragment).fill a.fragment.header.seq
        a.fragment.payload).slots = ((t.base a.fragment).fill a.fragment.header.seq
          a.fragment.payload).slots.length := by
      rw [PendingMessage.countFilled_fill hslot, heq, ← hlength]
      exact List.length_set.symm
    obtain ⟨fragments, hfragments, hcontents, hplaces⟩ := exists_contents hfull
      fun i x ↦ hsourced.fill htakes hslot
    refine ⟨fragments, ?_, congrArg List.flatten hcontents, fun i f hf ↦ ?_⟩
    · exact hfragments.trans (List.length_set.trans hlength)
    · exact htakes.total ▸ hplaces i f hf

/-! ## Where the payloads go -/

/-- This payload is kept in this place of the message. -/
def Holds (r : Reassembler) (m : AccountId × MessageId) (i : ℕ) (x : List UInt8) : Prop :=
  ∃ p, r.buffer m = some p ∧ p.slots[i]? = some (some x)

/-- A fragment for this place of the message has come. -/
def Has (K : Crypto) (l : List Handled) (m : AccountId × MessageId) (i : ℕ) : Prop :=
  ∃ f ∈ fed l, f.verify K = .ok () ∧ f.key = m ∧ f.header.seq.toNat = i

/-- If the fragment is a signed one of the message, it says of the message what the others say. -/
def Consistent (K : Crypto) (m : AccountId × MessageId) (payloads : List (List UInt8))
    (f : Fragment) : Prop :=
  f.key = m → f.verify K = .ok () → f.header.total.toNat = payloads.length ∧
    ∀ x, payloads[f.header.seq.toNat]? = some x → f.payload = x

theorem holds_key {i : ℕ} {x : List UInt8} :
    r.Holds f.key i x ↔ (r.base f).slots[i]? = some (some x) := by
  cases hbuffer : r.buffer f.key with
  | none =>
    rw [Holds, hbuffer, base_of_none hbuffer, PendingMessage.empty, List.getElem?_replicate]
    split <;> simp
  | some p => rw [Holds, hbuffer, base_of_some hbuffer]; simp

theorem has_concat {a : Handled} {i : ℕ} : Has K (tr ++ [a]) m i ↔ Has K tr m i ∨
    (a.fragment.verify K = .ok () ∧ a.fragment.key = m ∧ a.fragment.header.seq.toNat = i) := by
  constructor
  · rintro ⟨f, hf, h⟩
    rcases mem_fed_concat.mp hf with hf | rfl
    · exact .inl ⟨f, hf, h⟩
    · exact .inr h
  · rintro (⟨f, hf, h⟩ | h)
    · exact ⟨f, mem_fed_concat.mpr (.inl hf), h⟩
    · exact ⟨a.fragment, mem_fed_concat.mpr (.inr rfl), h⟩

/-- **What a buffer holds**: of the message with these payloads, those in the places for which a
fragment has come. -/
structure Follows (K : Crypto) (m : AccountId × MessageId) (payloads : List (List UInt8))
    (l : List Handled) (r : Reassembler) : Prop where
  total : ∀ p, r.buffer m = some p → p.total.toNat = payloads.length
  payload : ∀ i x, r.Holds m i x → payloads[i]? = some x
  has : ∀ i < payloads.length, (∃ x, r.Holds m i x) ↔ Has K l m i

variable {l : List Handled}

theorem follows_of_buffer_eq_none (hbuffer : r.buffer m = none) : Follows K m payloads [] r where
  total := fun p hp ↦ by cases hbuffer.symm.trans hp
  payload := by
    rintro i x ⟨p, hp, -⟩
    cases hbuffer.symm.trans hp
  has := fun i _ ↦ by
    constructor
    · rintro ⟨x, p, hp, -⟩
      cases hbuffer.symm.trans hp
    · rintro ⟨f, hf, -⟩
      cases hf

/-- A call that has nothing to do with the message. -/
theorem Follows.of_buffer_eq {a : Handled} (h : Follows K m payloads l r)
    (hbuffer : r'.buffer m = r.buffer m)
    (hhas : ∀ i < payloads.length, Has K (l ++ [a]) m i → Has K l m i) :
    Follows K m payloads (l ++ [a]) r' where
  total := hbuffer ▸ h.total
  payload := fun i x hholds ↦ h.payload i x (by rwa [Holds, ← hbuffer])
  has := fun i hi ↦ by
    simp only [Holds, hbuffer]
    exact (h.has i hi).trans ⟨fun hi ↦ has_concat.mpr (.inl hi), hhas i hi⟩

/-- A fragment of the message that names one of its places is taken. -/
theorem Follows.takes (h : Follows K f.key payloads l r)
    (hconsistent : Consistent K f.key payloads f) (hverify : f.verify K = .ok ())
    (hseq : f.header.seq.toNat < payloads.length) : Takes K r f := by
  obtain ⟨htotal, hpayload⟩ := hconsistent rfl hverify
  have hlt : f.header.seq < f.header.total := by rwa [UInt16.lt_iff_toNat_lt, htotal]
  refine ⟨⟨hverify, fun hzero ↦ ?_, hlt⟩, ?_, fun x hx ↦ ?_⟩
  · rw [hzero] at hlt
    exact UInt16.not_lt_zero hlt
  · cases hbuffer : r.buffer f.key with
    | none => rw [base_of_none hbuffer]; rfl
    | some p => rw [base_of_some hbuffer, ← UInt16.toNat_inj, h.total p hbuffer, htotal]
  · exact (hpayload x (h.payload _ x (holds_key.mpr hx))).symm

/-- What is kept once the payload of the fragment is stored. -/
theorem holds_of_stored {i : ℕ} {x : List UInt8} {evicted : UInt64}
    (hslot : (r.base f).slots[f.header.seq.toNat]? = some none)
    (hupdate : r.Updates f.key.1 (Assoc.put (r.room f) f.key.2
      ((r.base f).fill f.header.seq f.payload)) evicted r') :
    r'.Holds f.key i x ↔ (i = f.header.seq.toNat ∧ x = f.payload) ∨ r.Holds f.key i x := by
  rw [holds_key (r := r), ← getElem?_set_eq_some hslot, Holds, buffer_of_stored hupdate]
  simp [PendingMessage.fill]

/-- The last place is filled by the call that delivers. -/
theorem holds_of_delivered (hcounted : (r.base f).Counted)
    (hslot : (r.base f).slots[f.header.seq.toNat]? = some none)
    (heq : countFilled (r.base f).slots + 1 = (r.base f).total.toNat) {i : ℕ}
    (hi : i < (r.base f).total.toNat) (hne : i ≠ f.header.seq.toNat) :
    ∃ x, r.Holds f.key i x := by
  have hlength : ((r.base f).fill f.header.seq f.payload).slots.length =
      (r.base f).total.toNat := List.length_set.trans hcounted.length
  obtain ⟨x, hx⟩ := forall_filled
    ((PendingMessage.countFilled_fill hslot f.payload).trans (heq.trans hlength.symm))
    (hi.trans_eq hlength.symm)
  exact ⟨x, holds_key.mpr (((getElem?_set_eq_some hslot).mp hx).resolve_left fun h ↦ hne h.1)⟩

/-- **One call**, as long as some place of the message has not been named. -/
theorem Follows.step {a : Handled} {j : ℕ} (h : Follows K m payloads l r) (hkept : Kept r)
    (hdoes : Does K r a.fragment a.result r') (hevicts : ¬ Evicts K r a.fragment m)
    (hconsistent : Consistent K m payloads a.fragment) (hj : j < payloads.length)
    (hmissing : ¬ Has K (l ++ [a]) m j) : Follows K m payloads (l ++ [a]) r' := by
  by_cases hfragment : a.fragment.key = m ∧ a.fragment.verify K = .ok () ∧
      a.fragment.header.seq.toNat < payloads.length
  · obtain ⟨rfl, hverify, hseq⟩ := hfragment
    have htakes := h.takes hconsistent hverify hseq
    obtain ⟨htotal, hpayload⟩ := hconsistent rfl hverify
    have hplace : payloads[a.fragment.header.seq.toNat]? = some a.fragment.payload := by
      rw [List.getElem?_eq_getElem hseq, hpayload _ (List.getElem?_eq_getElem hseq)]
    generalize a.result = out at hdoes
    cases hdoes with
    | rejected hnot => exact absurd htakes hnot
    | repeated _ hbuffer hslot =>
      refine h.of_buffer_eq rfl fun i hi hhas ↦ ?_
      rcases has_concat.mp hhas with hhas | ⟨-, -, rfl⟩
      · exact hhas
      · exact (h.has _ hi).mp ⟨_, _, hbuffer, hslot⟩
    | stored _ hslot _ hupdate =>
      refine ⟨fun p hp ↦ ?_, fun i x hholds ↦ ?_, fun i hi ↦ ?_⟩
      · obtain rfl := Option.some_inj.mp ((buffer_of_stored hupdate).symm.trans hp)
        exact (congrArg UInt16.toNat htakes.total).trans htotal
      · rcases (holds_of_stored hslot hupdate).mp hholds with ⟨rfl, rfl⟩ | hold
        · exact hplace
        · exact h.payload i x hold
      · rw [has_concat, ← h.has i hi]
        simp only [holds_of_stored hslot hupdate]
        constructor
        · rintro ⟨x, ⟨rfl, -⟩ | hold⟩
          · exact .inr ⟨hverify, trivial, rfl⟩
          · exact .inl ⟨x, hold⟩
        · rintro (⟨x, hold⟩ | ⟨-, -, rfl⟩)
          · exact ⟨x, .inr hold⟩
          · exact ⟨_, .inl ⟨rfl, rfl⟩⟩
    | delivered _ hslot heq hupdate =>
      -- the place that is missing would have been filled
      rw [← htakes.total] at heq htotal
      refine absurd (has_concat.mpr ?_) hmissing
      by_cases hne : j = a.fragment.header.seq.toNat
      · exact .inr ⟨hverify, rfl, hne.symm⟩
      · exact .inl ((h.has j hj).mp
          (holds_of_delivered (hkept.counted_base _) hslot heq (htotal ▸ hj) hne))
  · -- the fragment does not name a place of the message
    refine h.of_buffer_eq ?_ fun i hi hhas ↦ ?_
    · by_cases hkey : a.fragment.key = m
      · have hnot : ¬ Takes K r a.fragment := fun htakes ↦ hfragment ⟨hkey, htakes.valid.verify, by
          rw [← (hconsistent hkey htakes.valid.verify).1]
          exact UInt16.lt_iff_toNat_lt.mp htakes.valid.seq⟩
        rw [hdoes.eq_of_not_takes hnot]
      · exact hdoes.buffer_of_ne hkept (Ne.symm hkey) hevicts
    · rcases has_concat.mp hhas with hhas | ⟨hverify, hkey, rfl⟩
      · exact hhas
      · exact absurd ⟨hkey, hverify, hi⟩ hfragment

/-- **The last fragment** completes the message. -/
theorem Follows.last {out : Except ReassemblyError (Option (List UInt8))}
    (h : Follows K f.key payloads l r) (hkept : Kept r) (hdoes : Does K r f out r')
    (hconsistent : Consistent K f.key payloads f) (hverify : f.verify K = .ok ())
    (hseq : f.header.seq.toNat < payloads.length) (hlast : ¬ Has K l f.key f.header.seq.toNat)
    (hrest : ∀ i < payloads.length, i ≠ f.header.seq.toNat → Has K l f.key i) :
    out = .ok (some payloads.flatten) := by
  have htakes := h.takes hconsistent hverify hseq
  obtain ⟨htotal, hpayload⟩ := hconsistent rfl hverify
  have hcounted := hkept.counted_base f
  have hslots : (r.base f).slots[f.header.seq.toNat]? = some none →
      ((r.base f).fill f.header.seq f.payload).slots = payloads.map some := fun hslot ↦ by
    refine eq_map_some (List.length_set.trans (hcounted.length.trans ?_)) fun i x hx ↦ ?_
    · rw [htakes.total, htotal]
    · refine (getElem?_set_eq_some hslot).mpr ?_
      by_cases hne : i = f.header.seq.toNat
      · subst hne
        exact .inl ⟨rfl, (hpayload x hx).symm⟩
      · have hi := (List.getElem?_eq_some_iff.mp hx).1
        obtain ⟨y, hholds⟩ := (h.has i hi).mpr (hrest i hi hne)
        obtain rfl := Option.some_inj.mp (hx.symm.trans (h.payload i y hholds))
        exact .inr (holds_key.mp hholds)
  cases hdoes with
  | rejected hnot => exact absurd htakes hnot
  | repeated _ hbuffer hslot => exact absurd ((h.has _ hseq).mp ⟨_, _, hbuffer, hslot⟩) hlast
  | stored _ hslot hlt _ =>
    rw [← PendingMessage.countFilled_fill hslot f.payload, hslots hslot, countFilled_map_some,
      htotal] at hlt
    exact absurd hlt (Nat.lt_irrefl _)
  | delivered _ hslot _ _ =>
    have hcontents : (payloads.map some).reduceOption = payloads := by
      rw [List.reduceOption, List.filterMap_map]
      exact List.filterMap_some
    rw [PendingMessage.drain, hslots hslot, hcontents]

/-- From a state without a buffer for the message, over calls that neither contradict it nor drop it
nor complete it. -/
theorem follows_of_run {tr' : List Handled} {j : ℕ} (run : (system K).Run tr r)
    (run' : (system K).Run (tr ++ tr') r') (hfirst : r.buffer m = none)
    (hevicts : ∀ a ∈ tr', ¬ Evicts K a.before a.fragment m)
    (hconsistent : ∀ f ∈ fed tr', Consistent K m payloads f) (hj : j < payloads.length)
    (hmissing : ¬ Has K tr' m j) : Follows K m payloads tr' r' := by
  refine (system_deterministic K).invariant_from (J := fun l r ↦
    (∀ a ∈ l, ¬ Evicts K a.before a.fragment m) → (∀ f ∈ fed l, Consistent K m payloads f) →
      ¬ Has K l m j → Follows K m payloads l r) run run' ?_ ?_ hevicts hconsistent hmissing
  · intro _ _ _
    exact follows_of_buffer_eq_none hfirst
  · intro l r₁ a r₂ hrun h hstep hevicts hconsistent hmissing
    have hfollows := h (fun b hb ↦ hevicts b (List.mem_append_left _ hb))
      (fun f hf ↦ hconsistent f (mem_fed_concat.mpr (.inl hf)))
      (fun hhas ↦ hmissing (has_concat.mpr (.inl hhas)))
    have hlast := hevicts a List.mem_concat_self
    rw [hstep.1] at hlast
    exact hfollows.step (kept_of_run hrun) (does_of_step hrun hstep) hlast
      (hconsistent _ (mem_fed_concat.mpr (.inr rfl))) hj hmissing

/-- No buffer is kept for a message of which no signed fragment has come. -/
theorem buffer_eq_none_of_run (run : (system K).Run tr r)
    (h : ∀ f ∈ fed tr, f.verify K = .ok () → f.key ≠ m) : r.buffer m = none := by
  cases hbuffer : r.buffer m with
  | none => rfl
  | some p =>
    obtain ⟨i, x, hx⟩ := exists_filled ((kept_of_run run).buffer hbuffer).pos
    obtain ⟨f, -, hsupplies⟩ := sourced_of_run run m p hbuffer i x hx
    exact absurd hsupplies.key (h f hsupplies.mem hsupplies.verify)

/-- **Reassembly is correct for every order of arrival.** A message that a call returns is the
payloads of fragments that have been fed and verify, one for each place, in order. No buffer is kept
before the first fragment of a message; and from a state in which none is, over calls that are fed
nothing which contradicts the message and that do not evict it, the last fragment that is missing
makes the call return the whole message. -/
theorem feed_reassembles (K : Crypto) :
    (∀ tr a r p, (system K).Run (tr ++ [a]) r → a.result = .ok (some p) →
      ∃ fragments : List Fragment, fragments.length = a.fragment.header.total.toNat ∧
        p = (fragments.map Fragment.payload).flatten ∧
        ∀ i f, fragments[i]? = some f →
          Supplies K (tr ++ [a]) a.fragment.key a.fragment.header.total i f) ∧
    (∀ tr r m, (system K).Run tr r → (∀ f ∈ fed tr, f.verify K = .ok () → f.key ≠ m) →
      r.buffer m = none) ∧
    ∀ tr tr' r r' f payloads, (system K).Run tr r → (system K).Run (tr ++ tr') r' →
      r.buffer f.key = none →
      (∀ a ∈ tr', ¬ Evicts K a.before a.fragment f.key) →
      (∀ g ∈ fed tr', Consistent K f.key payloads g) → Consistent K f.key payloads f →
      f.verify K = .ok () → f.header.seq.toNat < payloads.length →
      ¬ Has K tr' f.key f.header.seq.toNat →
      (∀ i < payloads.length, i ≠ f.header.seq.toNat → Has K tr' f.key i) →
      ∃ r'', (feed K f).exec r' = some (.ok (some payloads.flatten), r'') := by
  refine ⟨fun tr a r p run h ↦ exists_fragments run h,
    fun tr r m run h ↦ buffer_eq_none_of_run run h, ?_⟩
  intro tr tr' r r' f payloads run run' hfirst hevicts hall hconsistent hverify hseq hlast hrest
  have hfollows := follows_of_run run run' hfirst hevicts hall hseq hlast
  obtain ⟨out, r'', hexec, hdoes⟩ := exec_feed (kept_of_run run') K f
  have hout := hfollows.last (kept_of_run run') hdoes hconsistent hverify hseq hlast hrest
  exact ⟨r'', hout ▸ hexec⟩

/-! ### A message in two fragments -/

/-- A fragment of the peer with the zero key, signed. -/
def sample (seq total : UInt16) (payload : List UInt8) : Fragment where
  header :=
    { peerPubkey := Vector.replicate 32 0
      messageId := Vector.replicate 16 0
      seq
      total
      signature := Reference.sign (Vector.replicate 32 0) (Fragment.canonicalBytes
        (Vector.replicate 32 0) (Vector.replicate 16 0) seq total payload) }
  payload

theorem verify_sample (seq total : UInt16) (payload : List UInt8) :
    (sample seq total payload).verify Reference.crypto = .ok () :=
  mapError_eq_ok.mpr (Reference.verify_sign _ _)

/-- The second fragment comes first. -/
theorem feed_reassembles_reversed : ∃ out r r',
    (feed Reference.crypto (sample 1 2 [7])).exec new = some (out, r) ∧
      (feed Reference.crypto (sample 0 2 [5])).exec r = some (.ok (some [5, 7]), r') ∧
      ∃ fragments : List Fragment, fragments.length = 2 ∧
        [5, 7] = (fragments.map Fragment.payload).flatten := by
  obtain ⟨hsound, hfirst, hcomplete⟩ := feed_reassembles Reference.crypto
  obtain ⟨out, r, hexec, -⟩ := exec_feed kept_new Reference.crypto (sample 1 2 [7])
  have start : (system Reference.crypto).Run [] new := .start rfl
  have run : (system Reference.crypto).Run ([] ++ [⟨new, sample 1 2 [7], out⟩]) r :=
    start.step ⟨rfl, hexec⟩
  have hlast := hcomplete [] _ new r (sample 0 2 [5]) [[5], [7]] start run
    (hfirst [] new _ start fun f hf ↦ by cases hf) ?_ ?_ ?_ (verify_sample _ _ _) (by decide) ?_ ?_
  · obtain ⟨r', hexec'⟩ := hlast
    obtain ⟨fragments, hlength, hpayload, -⟩ := hsound _ ⟨r, sample 0 2 [5], _⟩ r' [5, 7]
      (run.step ⟨rfl, hexec'⟩) rfl
    exact ⟨out, r, r', hexec, hexec', fragments, hlength, hpayload⟩
  · rintro a ha hevicts
    obtain rfl := List.mem_singleton.mp ha
    have hfull : 16 ≤ 0 := hevicts.crowded.2
    exact absurd hfull (by decide)
  · rintro g hg - -
    obtain rfl := List.mem_singleton.mp hg
    exact ⟨rfl, fun x hx ↦ Option.some_inj.mp hx⟩
  · rintro - -
    exact ⟨rfl, fun x hx ↦ Option.some_inj.mp hx⟩
  · rintro ⟨g, hg, -, -, hseq⟩
    obtain rfl := List.mem_singleton.mp hg
    have hzero : 1 = 0 := hseq
    exact absurd hzero (by decide)
  · intro i hi hne
    have hone : i = 1 := by
      have : i < 2 := hi
      have : i ≠ 0 := hne
      omega
    exact hone ▸ ⟨_, List.mem_singleton_self _, verify_sample _ _ _, rfl, rfl⟩

end Arxia.Reassembler
