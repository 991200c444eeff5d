import Arxia.Lattice.History
import Arxia.Lattice.Reference

/-!
# Receive referential integrity

A Receive credits its account on the word of a hash, so the two cross-chain indices decide whether
that hash means anything. They are written by one block type each and read by another, several
checks apart; over a whole run they say exactly what the accepted history says.
-/

namespace Arxia

open Rust History

namespace Ledger

/-- The Receives of the history `h` are funded, and the indices of `l` are the ones `h` has. -/
structure ReferentialIntegrity (l : Ledger) (h : List Block) : Prop where
  /-- A Receive cites an earlier Send to its account. -/
  cites : ∀ pre r post x, h = pre ++ r :: post → r.blockType = .receive x →
    ∃ s ∈ pre, s.hash = x ∧ ∃ v, s.blockType = .send r.account v
  /-- No two Receives cite the same hash. -/
  once : h.Pairwise fun r r' ↦ ∀ x, r.blockType = .receive x → r'.blockType ≠ .receive x
  sendIndex : ∀ x info, l.sendIndex.lookup x = some info ↔
    ∃ s ∈ h, s.hash = x ∧ s.blockType = .send info.destination info.amount
  consumedSends : ∀ x, x ∈ l.consumedSends ↔ ∃ r ∈ h, r.blockType = .receive x

end Ledger

namespace History.Valid

variable {K : Crates} {h : List Block}

theorem exists_send (hv : Valid K h) {pre post : List Block} {r : Block} {x : String}
    (hsplit : h = pre ++ r :: post) (hx : r.blockType = .receive x) :
    ∃ s ∈ pre, s.hash = x ∧ ∃ v, s.blockType = .send r.account v := by
  subst hsplit
  obtain ⟨info, hsent, hdest, -⟩ := hv.admissible.source x hx
  obtain ⟨s, hs, hhash, htype⟩ := exists_of_sent hsent
  exact ⟨s, hs, hhash, info.amount, hdest ▸ htype⟩

theorem pairwise_receive (hv : Valid K h) :
    h.Pairwise fun r r' ↦ ∀ x, r.blockType = .receive x → r'.blockType ≠ .receive x := by
  induction hv with
  | nil => exact List.Pairwise.nil
  | @concat h b _ adm ih =>
    refine List.pairwise_append.mpr ⟨ih, List.pairwise_singleton _ _, fun r hr r' hr' x hx hx' ↦ ?_⟩
    obtain rfl := List.mem_singleton.mp hr'
    obtain ⟨-, -, -, hfresh⟩ := adm.source x hx'
    exact hfresh ⟨r, hr, hx⟩

end History.Valid

namespace Ledger

/-- **Every reachable ledger is referentially intact.** -/
theorem referentialIntegrity_of_run {m : Overflow} {K : Crates} {attempts : List Attempt}
    {l : Ledger} (run : (system m K).Run attempts l)
    (hcf : Block.CollisionFree K (accepted attempts)) :
    l.ReferentialIntegrity (accepted attempts) := by
  obtain ⟨hv, hrep⟩ := run_represents run
  refine ⟨fun pre r post x hsplit hx ↦ hv.exists_send hsplit hx, hv.pairwise_receive, ?_, ?_⟩
  · intro x info
    rw [hrep.sendIndex]
    exact hv.sent_eq_some hcf
  · intro x
    exact hrep.consumedSends x

theorem referentialIntegrity_transfer :
    ∃ l, (system .panics Reference.crates).Reachable l ∧
      l.ReferentialIntegrity Reference.transfer := by
  obtain ⟨l, run⟩ := Reference.run_transfer
  exact ⟨l, ⟨_, run⟩, referentialIntegrity_of_run run Reference.collisionFree_transfer⟩

end Ledger

end Arxia
