import Arxia.Lists.Seniority
import Arxia.Transport.Redelivery

/-!
# Messages in flight

What holds of the stored queues after any calls: each has messages in it, in the order in which
their buffers were opened, and no more than the cap; every buffer has a slot for each fragment, some
of them filled and some not. A call for one peer leaves the queues of the others alone, a call that
returns an error leaves everything alone, and none panics.

The messages that a call drops are those in flight before it that are not in flight after it and
have not been delivered by it. The counter of evictions is their number, up to `u64::MAX`.
-/

namespace Arxia.Reassembler

open Rust Transition Lists

/-! ## The invariant -/

/-- A fragment of the message comes, and nothing is kept of the message. The last call of which this
holds is the one that made the buffer, if there is one. -/
def Handled.opens (a : Handled) (m : AccountId × MessageId) : Bool :=
  a.fragment.key = m ∧ a.before.buffer m = none

/-- What is stored for a peer. -/
structure StoredQueue (tr : List Handled) (peer : AccountId)
    (queue : List (MessageId × PendingMessage)) : Prop where
  ne_nil : queue ≠ []
  length_le : queue.length ≤ MAX_INFLIGHT_MESSAGES_PER_PEER
  nodup : (queue.map Prod.fst).Nodup
  byArrival : ByArrival (fun a messageId ↦ Handled.opens a (peer, messageId)) tr
    (queue.map Prod.fst)
  slots : ∀ e ∈ queue, 1 ≤ e.2.total.toNat ∧ e.2.slots.length = e.2.total.toNat
  filled : ∀ e ∈ queue, e.2.filled.toNat = countFilled e.2.slots ∧ e.2.filled < e.2.total

/-- Cumulative number of evicted in-flight messages. -/
def evictedCount (r : Reassembler) : UInt64 := r.evicted

/-- The incomplete messages. -/
def inFlight (r : Reassembler) : Finset (AccountId × MessageId) :=
  (r.peers.entries.flatMap fun e ↦ e.2.map fun pending ↦ (e.1, pending.1)).toFinset

/-- The state that the call leaves behind. -/
def Handled.after (K : Crypto) (a : Handled) : Reassembler :=
  ((feed K a.fragment).exec a.before).elim a.before Prod.snd

/-- The messages that have gone with the call, and not because it has delivered them. -/
def Handled.dropped (K : Crypto) (a : Handled) : Finset (AccountId × MessageId) :=
  (a.before.inFlight \ (a.after K).inFlight).filter fun m ↦ a.delivery ≠ some m

/-- The number of messages dropped in a run. -/
def dropped (K : Crypto) (tr : List Handled) : ℕ := (tr.map fun a ↦ (a.dropped K).card).sum

/-- What holds after a run, and of any call that is made then. -/
structure Sound (K : Crypto) (tr : List Handled) (r : Reassembler) : Prop where
  stored : ∀ peer queue, r.peers.lookup peer = some queue → StoredQueue tr peer queue
  evictedCount : r.evictedCount.toNat = min (dropped K tr) u64Max
  returns : ∀ f, ∃ out r', (feed K f).exec r = some (out, r')
  isolated : ∀ f out r' peer, (feed K f).exec r = some (out, r') → peer ≠ f.header.peerPubkey →
    r'.peers.lookup peer = r.peers.lookup peer
  unchanged : ∀ f e r', (feed K f).exec r = some (.error e, r') → r' = r

variable {K : Crypto} {tr : List Handled} {r r' : Reassembler} {f : Fragment}
  {m : AccountId × MessageId} {out : Except ReassemblyError (Option (List UInt8))}

theorem buffer_ne_none_iff : r.buffer m ≠ none ↔ m.2 ∈ (r.queueOf m.1).map Prod.fst := by
  rw [buffer, ne_eq, Assoc.find_eq_none, not_not]

theorem mem_inFlight : m ∈ r.inFlight ↔ r.buffer m ≠ none := by
  rw [buffer_ne_none_iff, inFlight, List.mem_toFinset, List.mem_flatMap]
  constructor
  · rintro ⟨⟨peer, queue⟩, hentry, hm⟩
    obtain ⟨pending, hpending, rfl⟩ := List.mem_map.mp hm
    have hlookup : r.peers.lookup peer = some queue := AList.mem_lookup_iff.mpr hentry
    rw [queueOf, hlookup]
    exact List.mem_map_of_mem hpending
  · intro hm
    obtain ⟨pending, hpending, hid⟩ := List.mem_map.mp hm
    rw [queueOf] at hpending
    cases hlookup : r.peers.lookup m.1 with
    | none =>
      rw [hlookup] at hpending
      cases hpending
    | some queue =>
      rw [hlookup] at hpending
      exact ⟨⟨m.1, queue⟩, AList.mem_lookup_iff.mp hlookup,
        List.mem_map.mpr ⟨pending, hpending, Prod.ext rfl hid⟩⟩

/-! ## The order of arrival -/

theorem Handled.opens_eq_false {a : Handled} (h : m.2 ∈ (a.before.queueOf m.1).map Prod.fst) :
    a.opens m = false :=
  decide_eq_false fun hopens ↦ buffer_ne_none_iff.mpr h hopens.2

theorem room_sublist (r : Reassembler) (f : Fragment) :
    (r.room f).Sublist (r.queueOf f.key.1) := by
  rw [room]
  split
  · exact List.tail_sublist _
  · exact List.Sublist.refl _

/-- **One call** takes messages out of a queue, or puts one at the end that nothing was kept of. -/
theorem Does.ids (hdoes : Does K r f out r') (peer : AccountId) :
    ((r'.queueOf peer).map Prod.fst).Sublist ((r.queueOf peer).map Prod.fst) ∨
      peer = f.key.1 ∧ r.buffer f.key = none ∧
        ∃ left, left.Sublist ((r.queueOf peer).map Prod.fst) ∧
          (r'.queueOf peer).map Prod.fst = left ++ [f.key.2] := by
  have hroom := (room_sublist r f).map Prod.fst
  cases hdoes with
  | rejected => exact .inl (List.Sublist.refl _)
  | repeated => exact .inl (List.Sublist.refl _)
  | stored htakes hslot hlt hupdate =>
    rw [hupdate.queueOf]
    split
    · rename_i hpeer
      subst hpeer
      cases hbuffer : r.buffer f.key with
      | none =>
        have hput := Assoc.put_of_notMem (v := (r.base f).fill f.header.seq f.payload)
          (notMem_room hbuffer)
        exact .inr ⟨rfl, rfl, _, hroom, (congrArg _ hput).trans List.map_append⟩
      | some p =>
        have hmem : f.key.2 ∈ (r.room f).map Prod.fst := by
          rw [(room_of_some hbuffer).1]
          exact buffer_ne_none_iff.mp (hbuffer ▸ Option.some_ne_none p)
        exact .inl (Assoc.keys_put_of_mem hmem ▸ hroom)
    · exact .inl (List.Sublist.refl _)
  | delivered htakes hslot heq hupdate =>
    rw [hupdate.queueOf]
    split
    · rename_i hpeer
      exact .inl (((Assoc.remove_sublist _ _).map Prod.fst).trans (hpeer ▸ hroom))
    · exact .inl (List.Sublist.refl _)

/-- **Every queue is in order of arrival.** -/
theorem byArrival_of_run (run : (system K).Run tr r) (peer : AccountId) :
    ByArrival (fun a messageId ↦ Handled.opens a (peer, messageId)) tr
      ((r.queueOf peer).map Prod.fst) := by
  induction run with
  | start h =>
    rw [h]
    exact .nil
  | @step tr r r' a run hstep ih =>
    have hnone : ∀ messageId ∈ (r.queueOf peer).map Prod.fst,
        a.opens (peer, messageId) = false := fun messageId hid ↦ by
      rw [← hstep.1] at hid
      exact Handled.opens_eq_false hid
    rcases (does_of_step run hstep).ids peer with hsub | ⟨rfl, hbuffer, left, hleft, hids⟩
    · exact (ih.later hnone).sublist hsub
    · rw [hids]
      refine (ih.sublist hleft).arrive (fun x hx ↦ hnone x (hleft.subset hx)) ?_
      rw [← hstep.1] at hbuffer
      exact decide_eq_true ⟨rfl, hbuffer⟩

/-! ## Evictions -/

theorem Handled.after_of_step {a : Handled} (hstep : (system K).step r a r') : a.after K = r' := by
  rw [Handled.after, hstep.1, hstep.2]
  rfl

theorem Handled.mem_dropped {a : Handled} (hstep : (system K).step r a r') :
    m ∈ a.dropped K ↔ r.buffer m ≠ none ∧ r'.buffer m = none ∧ a.delivery ≠ some m := by
  rw [Handled.dropped, Finset.mem_filter, Finset.mem_sdiff, mem_inFlight, mem_inFlight, hstep.1,
    Handled.after_of_step hstep, not_not, and_assoc]

/-- The oldest message of a full queue is gone once there is room. -/
theorem Evicts.find_room (h : Kept r) (hevicts : Evicts K r f m) :
    Assoc.find (r.room f) m.2 = none := by
  rw [room, if_pos hevicts.crowded, Assoc.find_tail (h.queueOf _).nodup, if_pos hevicts.oldest]

theorem Evicts.buffer_ne_none (hevicts : Evicts K r f m) : r.buffer m ≠ none := by
  have holdest := hevicts.oldest
  rw [← hevicts.peer] at holdest
  obtain ⟨e, he, hid⟩ := Option.map_eq_some_iff.mp holdest
  exact buffer_ne_none_iff.mpr (hid ▸ List.mem_map_of_mem (List.mem_of_head? he))

theorem Evicts.ne_key (hevicts : Evicts K r f m) : m ≠ f.key := by
  rintro rfl
  exact hevicts.buffer_ne_none hevicts.crowded.1

/-- What goes with a call that writes the queue of the peer, and is not delivered, is evicted. -/
theorem Updates.mem_dropped {a : Handled} (hstep : (system K).step r a r') (h : Kept r)
    (hvalid : a.fragment.Valid K) {queue : List (MessageId × PendingMessage)} {evicted : UInt64}
    (hupdate : r.Updates a.fragment.key.1 queue evicted r')
    (hfind : ∀ mid, mid ≠ a.fragment.key.2 →
      Assoc.find queue mid = Assoc.find (r.room a.fragment) mid)
    (hkey : r'.buffer a.fragment.key ≠ none ∨ a.delivery = some a.fragment.key) :
    m ∈ a.dropped K ↔ Evicts K r a.fragment m := by
  rw [Handled.mem_dropped hstep]
  constructor
  · rintro ⟨hbefore, hafter, hdelivery⟩
    have hne : m ≠ a.fragment.key := by
      rintro rfl
      exact hkey.elim (fun hkept ↦ hkept hafter) hdelivery
    rcases hupdate.buffer_of_ne h hvalid hfind hne with hsame | ⟨hevicts, -⟩
    · exact absurd (hsame.symm.trans hafter) hbefore
    · exact hevicts
  · intro hevicts
    have hmid : m.2 ≠ a.fragment.key.2 := fun hmid ↦ hevicts.ne_key (Prod.ext hevicts.peer hmid)
    refine ⟨hevicts.buffer_ne_none, ?_, fun hdelivery ↦ ?_⟩
    · rw [buffer, hupdate.queueOf, if_pos hevicts.peer, hfind _ hmid, hevicts.find_room h]
    · exact hevicts.ne_key (delivery_eq_some.mp hdelivery).2.symm

/-- The counter goes up by the number of messages that give way, which is one at most. -/
theorem toNat_evictedFor (hvalid : f.Valid K) {s : Finset (AccountId × MessageId)}
    (hs : ∀ m, m ∈ s ↔ Evicts K r f m) :
    (r.evictedFor f).toNat = min (r.evicted.toNat + s.card) u64Max := by
  rw [evictedFor]
  split
  · rename_i hcrowded
    obtain ⟨e, he⟩ : ∃ e, (r.queueOf f.key.1).head? = some e := by
      have hpos : 0 < (r.queueOf f.key.1).length := Nat.lt_of_lt_of_le (by decide) hcrowded.2
      exact ⟨_, List.head?_eq_some_head (List.ne_nil_of_length_pos hpos)⟩
    have hsingle : s = {(f.key.1, e.1)} := by
      ext m
      rw [hs, Finset.mem_singleton]
      constructor
      · intro hevicts
        have holdest := hevicts.oldest
        rw [he, Option.map_some, Option.some_inj] at holdest
        exact Prod.ext hevicts.peer holdest.symm
      · rintro rfl
        exact ⟨hvalid, hcrowded, rfl, by rw [he]; rfl⟩
    rw [hsingle, Finset.card_singleton, UInt64.toNat_saturatingAdd]
    rfl
  · rename_i hcrowded
    have hempty : s = ∅ :=
      Finset.eq_empty_of_forall_notMem fun m hm ↦ hcrowded ((hs m).mp hm).crowded
    rw [hempty, Finset.card_empty, Nat.add_zero, min_eq_left (UInt64.toNat_le_u64Max _)]

theorem Handled.dropped_of_eq {a : Handled} (hstep : (system K).step r a r) : a.dropped K = ∅ :=
  Finset.eq_empty_of_forall_notMem fun _ hm ↦
    ((Handled.mem_dropped hstep).mp hm).1 ((Handled.mem_dropped hstep).mp hm).2.1

/-- **One call** counts what it drops. -/
theorem evicted_step (run : (system K).Run tr r) {a : Handled} (hstep : (system K).step r a r') :
    r'.evicted.toNat = min (r.evicted.toNat + (a.dropped K).card) u64Max := by
  have h := kept_of_run run
  have hdoes := does_of_step run hstep
  have hsame : r' = r → r'.evicted.toNat = min (r.evicted.toNat + (a.dropped K).card) u64Max := by
    rintro rfl
    rw [Handled.dropped_of_eq hstep, Finset.card_empty, Nat.add_zero,
      min_eq_left (UInt64.toNat_le_u64Max _)]
  generalize hout : a.result = out at hdoes
  cases hdoes with
  | rejected => exact hsame rfl
  | repeated => exact hsame rfl
  | stored htakes hslot hlt hupdate =>
    rw [hupdate.evicted]
    refine toNat_evictedFor htakes.valid fun m ↦
      hupdate.mem_dropped hstep h htakes.valid (fun mid hmid ↦ ?_) (.inl ?_)
    · rw [Assoc.find_put, if_neg hmid.symm]
    · rw [buffer_of_stored hupdate]
      exact Option.some_ne_none _
  | delivered htakes hslot heq hupdate =>
    rw [hupdate.evicted]
    refine toNat_evictedFor htakes.valid fun m ↦
      hupdate.mem_dropped hstep h htakes.valid (fun mid hmid ↦ ?_) (.inr ?_)
    · rw [Assoc.find_remove, if_neg hmid.symm]
    · exact delivery_eq_some.mpr ⟨⟨_, hout⟩, rfl⟩

theorem dropped_concat (K : Crypto) (tr : List Handled) (a : Handled) :
    dropped K (tr ++ [a]) = dropped K tr + (a.dropped K).card := by
  rw [dropped, List.map_append, List.sum_append, List.map_singleton, List.sum_singleton, dropped]

/-- **The counter of evictions** is the number of messages dropped, up to its limit. -/
theorem evicted_of_run (run : (system K).Run tr r) :
    r.evicted.toNat = min (dropped K tr) u64Max := by
  induction run with
  | start h =>
    rw [h]
    rfl
  | @step tr r r' a run hstep ih =>
    rw [evicted_step run hstep, ih, dropped_concat]
    omega

/-! ## Other peers, and errors -/

theorem Does.lookup_of_ne (hdoes : Does K r f out r') {peer : AccountId} (hpeer : peer ≠ f.key.1) :
    r'.peers.lookup peer = r.peers.lookup peer := by
  cases hdoes with
  | rejected => rfl
  | repeated => rfl
  | stored _ _ _ hupdate => rw [hupdate.lookup, if_neg hpeer]
  | delivered _ _ _ hupdate => rw [hupdate.lookup, if_neg hpeer]

theorem Does.eq_of_error {e : ReassemblyError} (hdoes : Does K r f (.error e) r') : r' = r := by
  cases hdoes with
  | rejected => rfl

/-! ## The invariant of every run -/

theorem storedQueue_of_run (run : (system K).Run tr r) {peer : AccountId}
    {queue : List (MessageId × PendingMessage)} (hlookup : r.peers.lookup peer = some queue) :
    StoredQueue tr peer queue := by
  obtain ⟨hne, hkept⟩ := kept_of_run run peer queue hlookup
  have harrival := byArrival_of_run run peer
  rw [queueOf, hlookup, Option.getD_some] at harrival
  refine ⟨hne, hkept.length_le, harrival.nodup, harrival, fun e he ↦ ?_, fun e he ↦ ?_⟩
  · exact ⟨Nat.one_le_of_lt (hkept.kept e he).lt, (hkept.kept e he).length⟩
  · exact ⟨(hkept.kept e he).filled, (hkept.kept e he).filled_lt⟩

/-- **The invariant of the receiver.** After any calls of `feed` the stored queues are well kept and
in order of arrival, and the counter of evictions is the number of messages dropped; the next call
returns, does not touch the queues of other peers, and changes nothing if it returns an error. -/
theorem isSound_of_run (run : (system K).Run tr r) : Sound K tr r where
  stored := fun _ _ ↦ storedQueue_of_run run
  evictedCount := evicted_of_run run
  returns := fun f ↦ by
    obtain ⟨out, r', hexec, -⟩ := exec_feed (kept_of_run run) K f
    exact ⟨out, r', hexec⟩
  isolated := fun _ _ _ _ hexec hpeer ↦ (does_of_exec (kept_of_run run) hexec).lookup_of_ne hpeer
  unchanged := fun _ _ _ hexec ↦ (does_of_exec (kept_of_run run) hexec).eq_of_error

/-- The first fragment of two is kept. -/
theorem sound_sample : ∃ r, (feed Reference.crypto (sample 0 2 [5])).exec new =
    some (.ok none, r) ∧ Sound Reference.crypto [⟨new, sample 0 2 [5], .ok none⟩] r := by
  obtain ⟨out, r, hexec, -⟩ := exec_feed kept_new Reference.crypto (sample 0 2 [5])
  have hout : ((feed Reference.crypto (sample 0 2 [5])).exec new).map Prod.fst =
      some (.ok none) := by decide +kernel
  rw [hexec, Option.map_some, Option.some_inj] at hout
  obtain rfl : out = .ok none := hout
  have start : (system Reference.crypto).Run [] new := .start rfl
  have run : (system Reference.crypto).Run ([] ++ [⟨new, sample 0 2 [5], .ok none⟩]) r :=
    start.step ⟨rfl, hexec⟩
  exact ⟨r, hexec, isSound_of_run run⟩

end Arxia.Reassembler
