import Arxia.Core.Crypto
import Arxia.Storage.Concurrent

/-!
# Checksummed values

An envelope is the Blake3 hash of a value followed by the value, so a value has one envelope and an
envelope one value. Threads that put nothing but envelopes into the store they share get nothing but
envelopes back, each one that was put under the key, whatever the interleaving.
-/

namespace Arxia

open Rust Transition Concurrency

/-- Blake3-checksummed value envelope. -/
def wrapWithChecksum (K : Crypto) (value : List UInt8) : List UInt8 :=
  (K.blake3 value).toList ++ value

/-- Unwrap and verify a checksummed value envelope. -/
def unwrapWithChecksum (K : Crypto) (combined : List UInt8) : Except ArxiaError (List UInt8) := do
  ensure (32 ≤ combined.length) (.invalidKey ("checksumed value too short: got " ++
    toString combined.length ++ " bytes, need >= 32 for prefix"))
  let (pre, value) := combined.splitAt 32
  ensure (pre = (K.blake3 value).toList) (.invalidKey ("checksumed value: Blake3 prefix does " ++
    "not match recomputed hash (corruption or tampering)"))
  pure value

/-- **Envelopes**: what unwraps to a value is its envelope, and nothing else. -/
theorem unwrapWithChecksum_eq_ok {K : Crypto} {combined value : List UInt8} :
    unwrapWithChecksum K combined = .ok value ↔ combined = wrapWithChecksum K value := by
  have hlength : (K.blake3 value).toList.length = 32 := Vector.length_toList
  rw [unwrapWithChecksum, List.splitAt_eq]
  simp only [bind_eq_ok, ensure_eq_ok, pure, Except.pure, Except.ok.injEq]
  constructor
  · rintro ⟨_, -, _, hprefix, rfl⟩
    rw [wrapWithChecksum, ← hprefix, List.take_append_drop]
  · rintro rfl
    have hdrop : (wrapWithChecksum K value).drop 32 = value := by
      rw [wrapWithChecksum, List.drop_left' hlength]
    refine ⟨(), ?_, (), ?_, hdrop⟩
    · rw [wrapWithChecksum, List.length_append, hlength]
      exact Nat.le_add_right _ _
    · rw [hdrop, wrapWithChecksum, List.take_left' hlength]

namespace ConcurrentMemoryStorage

variable {T : Type} {K : Crypto} {P : List UInt8 → List UInt8 → Prop} {data data' : Data}
  {key value : List UInt8}

/-- A value that is stored was there before or is put. -/
theorem lookup_apply {op : Op} (h : (apply op data).2.lookup key = some value) :
    data.lookup key = some value ∨ op = .request (.put key value) := by
  rcases op with (⟨key', value'⟩ | key' | key' | key') | _ | _
  · by_cases hkey : key = key'
    · subst hkey
      have hvalue : some value' = some value := (AList.lookup_insert data).symm.trans h
      exact Or.inr (by rw [Option.some_inj.mp hvalue])
    · exact Or.inl ((AList.lookup_insert_ne hkey).symm.trans h)
  · by_cases hkey : key = key'
    · subst hkey
      cases (AList.lookup_erase _ data).symm.trans h
    · exact Or.inl ((AList.lookup_erase_ne hkey).symm.trans h)
  · exact Or.inl h
  · exact Or.inl h
  · exact Or.inl h
  · exact Or.inl h

/-- What `get` returns is stored. -/
theorem exists_get_of_apply {op : Op}
    (h : (apply op data).1 = .ok (.answer (.get (some value)))) :
    ∃ key, op = .request (.get key) ∧ data.lookup key = some value := by
  rcases op with (⟨key', value'⟩ | key' | key' | key') | _ | _
  · cases h
  · cases h
  · exact ⟨key', rfl, Answer.get.inj (Returned.answer.inj (Except.ok.inj h))⟩
  · cases h
  · cases h
  · cases h

/-- **What is got** meets what everything that is stored or put meets. -/
theorem gets_of_legal {l : List (T × Op × Except ArxiaError Returned)}
    (h : object.Legal data l data')
    (hdata : ∀ key value, data.lookup key = some value → P key value)
    (hputs : ∀ e ∈ l, ∀ key value, e.2.1 = .request (.put key value) → P key value) :
    ∀ e ∈ l, e.2.2 = .ok (.answer (.get (some value))) →
      ∃ key, e.2.1 = .request (.get key) ∧ P key value := by
  induction l generalizing data with
  | nil => exact fun e he ↦ absurd he List.not_mem_nil
  | cons first l ih =>
    intro e he hresult
    rcases List.mem_cons.mp he with rfl | he
    · obtain ⟨key, hop, hlookup⟩ := exists_get_of_apply (h.1.trans hresult)
      exact ⟨key, hop, hdata key value hlookup⟩
    · refine ih h.2 (fun key value hlookup ↦ ?_)
        (fun e he ↦ hputs e (List.mem_cons_of_mem _ he)) e he hresult
      rcases lookup_apply hlookup with hold | hput
      · exact hdata key value hold
      · exact hputs first List.mem_cons_self key value hput

variable [DecidableEq T] {tr : List (Step T Op (Except ArxiaError Returned))}
  {st : State T Data Op (Except ArxiaError Returned)}

theorem mem_of_calledBy {t : T} {op : Op} (h : op ∈ tr.filterMap (Step.calledBy t)) :
    Step.call t op ∈ tr := by
  obtain ⟨a, ha, hcalled⟩ := List.mem_filterMap.mp h
  rcases a with ⟨t', op'⟩ | t' | t' | ⟨t', op', result⟩ | t' | ⟨t', result⟩
  · obtain ⟨rfl, hop⟩ := Option.ite_none_right_eq_some.mp hcalled
    exact Option.some_inj.mp hop ▸ ha
  all_goals cases hcalled

/-- What has taken effect has been called. -/
theorem called_of_effect (run : (object.system T).Run tr st)
    {e : T × Op × Except ArxiaError Returned} (he : e ∈ tr.filterMap Step.effect) :
    Step.call e.1 e.2.1 ∈ tr := by
  refine mem_of_calledBy ?_
  rw [((Object.consistent_of_run run).accounts e.1).1]
  refine List.mem_append_left _ (List.mem_map_of_mem (f := Prod.fst) (a := e.2) ?_)
  obtain ⟨a, ha, heffect⟩ := List.mem_filterMap.mp he
  exact List.mem_filterMap.mpr ⟨a, ha, by rw [Step.effectOf, heffect]; exact if_pos rfl⟩

/-- What returns has taken effect. -/
theorem effect_of_returned (run : (object.system T).Run tr st) {t : T}
    {result : Except ArxiaError Returned} (hret : Step.ret t result ∈ tr) :
    ∃ op, (t, op, result) ∈ tr.filterMap Step.effect := by
  have hmem : result ∈ tr.filterMap (Step.returnedTo t) :=
    List.mem_filterMap.mpr ⟨_, hret, if_pos rfl⟩
  have hall := List.mem_append_left (st.phase t).unreturned.toList hmem
  rw [← ((Object.consistent_of_run run).accounts t).2] at hall
  obtain ⟨⟨op, _⟩, heffect, rfl⟩ := List.mem_map.mp hall
  obtain ⟨a, ha, hbind⟩ := List.mem_filterMap.mp heffect
  obtain ⟨e, he, hif⟩ := Option.bind_eq_some_iff.mp hbind
  obtain ⟨rfl, hsame⟩ := Option.ite_none_right_eq_some.mp hif
  exact ⟨op, List.mem_filterMap.mpr ⟨a, ha, he.trans (by rw [← Option.some_inj.mp hsame])⟩⟩

/-- What a thread gets unwraps to a value whose envelope some thread has put under the key. -/
theorem exists_put_of_ret (run : (object.system T).Run tr st)
    (hputs : ∀ t key value, Step.call t (.request (.put key value)) ∈ tr →
      ∃ inner, value = wrapWithChecksum K inner) {t : T}
    (hret : Step.ret t (.ok (.answer (.get (some value)))) ∈ tr) :
    ∃ key inner, unwrapWithChecksum K value = .ok inner ∧
      Step.call t (.request (.get key)) ∈ tr ∧
      ∃ t', Step.call t' (.request (.put key (wrapWithChecksum K inner))) ∈ tr := by
  obtain ⟨op, heffect⟩ := effect_of_returned run hret
  -- the history has a put for everything that is stored in its course
  obtain ⟨key, hop, t', hput⟩ := gets_of_legal
    (P := fun key value ↦ ∃ t', Step.call t' (.request (.put key value)) ∈ tr)
    (Object.consistent_of_run run).legal (fun key value hlookup ↦ nomatch hlookup)
    (fun e he key value hput ↦ ⟨e.1, hput ▸ called_of_effect run he⟩) _ heffect rfl
  obtain ⟨inner, rfl⟩ := hputs t' key value hput
  refine ⟨key, inner, unwrapWithChecksum_eq_ok.mpr rfl, ?_, t', hput⟩
  have hcalled := called_of_effect run heffect
  rwa [show op = .request (.get key) from hop] at hcalled

/-- **No torn reads**: if all that is put are envelopes, what a thread gets unwraps to a value whose
envelope some thread has put under the key; and nothing but an envelope unwraps. -/
theorem unwraps_of_run (K : Crypto) :
    (∀ (tr : List (Step T Op (Except ArxiaError Returned)))
      (st : State T Data Op (Except ArxiaError Returned)), (object.system T).Run tr st →
      (∀ t key value, Step.call t (.request (.put key value)) ∈ tr →
        ∃ inner, value = wrapWithChecksum K inner) →
      ∀ t value, Step.ret t (.ok (.answer (.get (some value)))) ∈ tr →
        ∃ key inner, unwrapWithChecksum K value = .ok inner ∧
          Step.call t (.request (.get key)) ∈ tr ∧
          ∃ t', Step.call t' (.request (.put key (wrapWithChecksum K inner))) ∈ tr) ∧
    ∀ combined value,
      unwrapWithChecksum K combined = .ok value ↔ combined = wrapWithChecksum K value :=
  ⟨fun _ _ run hputs _ _ hret ↦ exists_put_of_ret run hputs hret,
    fun _ _ ↦ unwrapWithChecksum_eq_ok⟩

/-- One thread puts an envelope, and another one gets it. -/
theorem unwraps_of_run_two : ∃ tr st inner, (object.system Bool).Run tr st ∧
    unwrapWithChecksum Reference.crypto (wrapWithChecksum Reference.crypto [7]) = .ok inner ∧
      wrapWithChecksum Reference.crypto [7] = wrapWithChecksum Reference.crypto inner ∧
      ∃ t key,
        Step.call t (.request (.put key (wrapWithChecksum Reference.crypto inner))) ∈ tr := by
  have run : (object.system Bool).Run _ _ := .step (.step (.step (.step (.step (.step (.step (.step
    (.step (.step (.step (.start rfl)
      (.call false (.request (.put [1] (wrapWithChecksum Reference.crypto [7]))) rfl))
      (.lock (t := false) rfl rfl)) (.load (t := false) rfl)) (.store (t := false) rfl))
      (.unlock (t := false) rfl)) (.call true (.request (.get [1])) rfl))
      (.lock (t := true) rfl rfl)) (.load (t := true) rfl)) (.store (t := true) rfl))
      (.unlock (t := true) rfl)) (.ret (t := true) rfl)
  have hunwraps := unwraps_of_run (T := Bool) Reference.crypto
  obtain ⟨key, inner, hunwrap, -, t, hput⟩ := hunwraps.1 _ _ run
    (by
      intro t key value hcall
      simp only [List.mem_append, List.mem_singleton, List.not_mem_nil, reduceCtorEq, or_false,
        false_or, Step.call.injEq, Op.request.injEq, Request.put.injEq, and_false] at hcall
      exact ⟨[7], hcall.2.2⟩) _ _
    (List.mem_append_right _ (List.mem_singleton.mpr rfl))
  exact ⟨_, _, inner, run, hunwrap, (hunwraps.2 _ _).mp hunwrap, t, key, hput⟩

end ConcurrentMemoryStorage

end Arxia
