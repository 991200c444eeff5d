import Arxia.Core.Crypto
import Arxia.Lists.Assoc
import Arxia.Lists.Slots
import Arxia.Rust.Bytes
import Arxia.Rust.Collections
import Arxia.Rust.UInt64
import Arxia.Transition.Runs

/-!
# Reassembly of fragments

A receiver keeps a queue of incomplete messages for each peer, in the order in which they came, and
no more than a fixed number of them: the oldest gives way to a new one. A fragment carries the
signature of its peer, and it goes into the slot that its sequence number names. When the last slot
is filled the message is returned and its entry is taken out of the queue.

`feed` finds its entry by index, and writes through it. `Does` says what that comes to for the
buffers of the messages, provided that the queues are well kept.
-/

namespace Arxia

open Rust Transition Lists

/-- Identifies one logical message of a peer (16 bytes). -/
abbrev MessageId := Vector UInt8 16

/-- Maximum number of concurrent in-flight messages per peer. -/
def MAX_INFLIGHT_MESSAGES_PER_PEER : ℕ := 16

/-- Domain-separation prefix for the signature on a `Fragment`. -/
def FRAGMENT_DOMAIN : List UInt8 := asBytes "arxia-transport-fragment-v1"

/-- Errors returned by `Reassembler.feed`. -/
inductive ReassemblyError
  | invalidSignature
  | totalMismatch (got expected : UInt16)
  | seqOutOfRange (seq total : UInt16)
  | emptyMessage
  | payloadMismatch (seq : UInt16)
  deriving DecidableEq

/-- Per-fragment header. -/
structure FragmentHeader where
  peerPubkey : AccountId
  messageId : MessageId
  /-- 0-indexed sequence number within the message. -/
  seq : UInt16
  /-- Total fragment count for the message. -/
  total : UInt16
  signature : SignatureBytes
  deriving DecidableEq

/-- A single transport-layer fragment. -/
structure Fragment where
  header : FragmentHeader
  payload : List UInt8
  deriving DecidableEq

namespace Fragment

/-- The bytes that the sender signs. -/
def canonicalBytes (peerPubkey : AccountId) (messageId : MessageId) (seq total : UInt16)
    (payload : List UInt8) : List UInt8 :=
  FRAGMENT_DOMAIN ++ peerPubkey.toList ++ messageId.toList ++ seq.toBeBytes ++ total.toBeBytes ++
    payload

/-- Verify the signature on this fragment. -/
def verify (K : Crypto) (fragment : Fragment) : Except ReassemblyError Unit :=
  (K.verify fragment.header.peerPubkey
    (canonicalBytes fragment.header.peerPubkey fragment.header.messageId fragment.header.seq
      fragment.header.total fragment.payload)
    fragment.header.signature).mapError fun _ ↦ .invalidSignature

/-- The peer and the message that a fragment belongs to. -/
def key (fragment : Fragment) : AccountId × MessageId :=
  (fragment.header.peerPubkey, fragment.header.messageId)

/-- A fragment that can be looked at on its own: it is signed, and its number is one of its
message. -/
structure Valid (K : Crypto) (fragment : Fragment) : Prop where
  verify : fragment.verify K = .ok ()
  total : fragment.header.total ≠ 0
  seq : fragment.header.seq < fragment.header.total

end Fragment

/-- Reassembly buffer of one message of one peer. -/
structure PendingMessage where
  /-- Total fragment count, locked at first-seen fragment. -/
  total : UInt16
  /-- Per-seq slot. -/
  slots : List (Option (List UInt8))
  /-- Number of slots filled. -/
  filled : UInt16
  deriving DecidableEq

namespace PendingMessage

/-- The buffer that is made for the first fragment of a message. -/
def empty (total : UInt16) : PendingMessage where
  total := total
  slots := List.replicate total.toNat none
  filled := 0

/-- The buffer with one more slot filled. -/
def fill (pending : PendingMessage) (seq : UInt16) (payload : List UInt8) : PendingMessage :=
  { pending with
    slots := pending.slots.set seq.toNat (some payload)
    filled := pending.filled.saturatingAdd 1 }

/-- The payloads of the slots, one after the other. -/
def drain (pending : PendingMessage) : List UInt8 := pending.slots.reduceOption.flatten

/-- There is a slot for each fragment, and `filled` counts the ones with a payload. -/
structure Counted (pending : PendingMessage) : Prop where
  length : pending.slots.length = pending.total.toNat
  filled : pending.filled.toNat = countFilled pending.slots

/-- A buffer of a message that has begun and is not complete. -/
structure Kept (pending : PendingMessage) : Prop extends Counted pending where
  pos : 0 < countFilled pending.slots
  lt : countFilled pending.slots < pending.total.toNat

variable {pending : PendingMessage} {seq : UInt16}

theorem Kept.filled_lt (h : pending.Kept) : pending.filled < pending.total := by
  rw [UInt16.lt_iff_toNat_lt, h.filled]
  exact h.lt

theorem counted_empty (total : UInt16) : (empty total).Counted where
  length := List.length_replicate
  filled := (countFilled_replicate _).symm

theorem getElem?_empty {total : UInt16} (h : seq < total) :
    (empty total).slots[seq.toNat]? = some none := by
  rw [empty, List.getElem?_replicate, if_pos (UInt16.lt_iff_toNat_lt.mp h)]

theorem countFilled_fill (h : pending.slots[seq.toNat]? = some none) (payload : List UInt8) :
    countFilled (pending.fill seq payload).slots = countFilled pending.slots + 1 :=
  countFilled_set h payload

theorem Counted.lt (hcounted : pending.Counted) (h : pending.slots[seq.toNat]? = some none) :
    countFilled pending.slots < pending.total.toNat :=
  hcounted.length ▸ countFilled_lt h

/-- Filling an empty slot counts it. -/
theorem Counted.fill (hcounted : pending.Counted) (h : pending.slots[seq.toNat]? = some none)
    (payload : List UInt8) : (pending.fill seq payload).Counted where
  length := List.length_set.trans hcounted.length
  filled := by
    have hlt := hcounted.lt h
    have htotal := pending.total.toNat_le_u16Max
    have hfilled : (pending.fill seq payload).filled = pending.filled.saturatingAdd 1 := rfl
    have hone : (1 : UInt16).toNat = 1 := rfl
    rw [countFilled_fill h, hfilled, UInt16.toNat_saturatingAdd, hcounted.filled, hone]
    omega

/-- The message is complete when the fill was the last one. -/
theorem Counted.filled_fill_eq_total (hcounted : pending.Counted)
    (h : pending.slots[seq.toNat]? = some none) (payload : List UInt8) :
    (pending.fill seq payload).filled = (pending.fill seq payload).total ↔
      countFilled pending.slots + 1 = pending.total.toNat := by
  rw [← UInt16.toNat_inj, (hcounted.fill h payload).filled, countFilled_fill h]
  rfl

/-- A fill that was not the last one leaves a buffer. -/
theorem Counted.kept_fill (hcounted : pending.Counted) (h : pending.slots[seq.toNat]? = some none)
    (hlt : countFilled pending.slots + 1 < pending.total.toNat) (payload : List UInt8) :
    (pending.fill seq payload).Kept where
  toCounted := hcounted.fill h payload
  pos := by
    rw [countFilled_fill h]
    exact Nat.succ_pos _
  lt := by
    rw [countFilled_fill h]
    exact hlt

end PendingMessage

/-- Feeds fragments in any order and emits the completed message when all slots are filled. -/
structure Reassembler where
  /-- Per-peer FIFO of (message id, pending message). -/
  peers : HashMap AccountId (List (MessageId × PendingMessage))
  /-- Cumulative count of pending messages evicted to make room for new ones. -/
  evicted : UInt64

namespace Reassembler

/-- Empty reassembler. -/
def new : Reassembler := ⟨∅, 0⟩

/-- The in-flight messages from a peer. -/
def queueOf (r : Reassembler) (peerPubkey : AccountId) : List (MessageId × PendingMessage) :=
  (r.peers.lookup peerPubkey).getD []

/-- The map with this queue for the peer. -/
def setQueue (r : Reassembler) (peerPubkey : AccountId)
    (queue : List (MessageId × PendingMessage)) : Reassembler :=
  { r with peers := r.peers.insert peerPubkey queue }

/-- Find or create the entry of the message in the queue of its peer: the index of the entry. -/
def findOrCreate (header : FragmentHeader) : Call Reassembler ReassemblyError ℕ := do
  let r ← get
  let queue := r.queueOf header.peerPubkey
  match queue.findIdx? (fun e ↦ e.1 = header.messageId) with
  | some idx =>
    let (_, pending) ← Call.orPanic queue[idx]?
    Call.ofExcept (ensure (pending.total = header.total)
      (.totalMismatch header.total pending.total))
    pure idx
  | none =>
    let (queue, evicted) := if MAX_INFLIGHT_MESSAGES_PER_PEER ≤ queue.length then
        (queue.tail, r.evicted.saturatingAdd 1)
      else (queue, r.evicted)
    let queue := queue ++ [(header.messageId, PendingMessage.empty header.total)]
    set ({ r.setQueue header.peerPubkey queue with evicted })
    pure (queue.length - 1)

/-- Fill the slot of the fragment in the entry with this index, and complete the message if it was
the last one. -/
def fillSlot (fragment : Fragment) (idx : ℕ) :
    Call Reassembler ReassemblyError (Option (List UInt8)) := do
  let r ← get
  let queue := r.queueOf fragment.header.peerPubkey
  let (messageId, pending) ← Call.orPanic queue[idx]?
  let slot ← Call.orPanic pending.slots[fragment.header.seq.toNat]?
  match slot with
  | some existing =>
    if existing ≠ fragment.payload then throw (.payloadMismatch fragment.header.seq)
    else pure none
  | none =>
    let pending := pending.fill fragment.header.seq fragment.payload
    if pending.filled = pending.total then
      let queue := Assoc.remove (queue.set idx (messageId, { pending with slots := [] }))
        fragment.header.messageId
      if queue = [] then set { r with peers := r.peers.erase fragment.header.peerPubkey }
      else set (r.setQueue fragment.header.peerPubkey queue)
      pure (some pending.drain)
    else
      set (r.setQueue fragment.header.peerPubkey (queue.set idx (messageId, pending)))
      pure none

/-- Feed a fragment. -/
def feed (K : Crypto) (fragment : Fragment) :
    Call Reassembler ReassemblyError (Option (List UInt8)) := do
  Call.ofExcept (fragment.verify K)
  let header := fragment.header
  Call.ofExcept (ensure (header.total ≠ 0) .emptyMessage)
  Call.ofExcept (ensure (header.seq < header.total) (.seqOutOfRange header.seq header.total))
  modify fun r ↦ { r with peers := HashMap.orInsert r.peers header.peerPubkey [] }
  let idx ← findOrCreate header
  fillSlot fragment idx

/-! ## The buffers -/

variable {K : Crypto} {r r' : Reassembler} {f : Fragment} {m : AccountId × MessageId}

/-- The buffer of a message. -/
def buffer (r : Reassembler) (m : AccountId × MessageId) : Option PendingMessage :=
  Assoc.find (r.queueOf m.1) m.2

/-- The buffer that a fragment goes to, which is an empty one for the first of its message. -/
def base (r : Reassembler) (f : Fragment) : PendingMessage :=
  (r.buffer f.key).getD (PendingMessage.empty f.header.total)

/-- The queue of the peer is full, and the message of the fragment is not in it. -/
def IsCrowded (r : Reassembler) (f : Fragment) : Prop :=
  r.buffer f.key = none ∧ MAX_INFLIGHT_MESSAGES_PER_PEER ≤ (r.queueOf f.key.1).length

instance : Decidable (r.IsCrowded f) := inferInstanceAs (Decidable (_ ∧ _))

/-- The queue of the peer, with room for the message of the fragment. -/
def room (r : Reassembler) (f : Fragment) : List (MessageId × PendingMessage) :=
  if r.IsCrowded f then (r.queueOf f.key.1).tail else r.queueOf f.key.1

/-- The number of evictions once there is room. -/
def evictedFor (r : Reassembler) (f : Fragment) : UInt64 :=
  if r.IsCrowded f then r.evicted.saturatingAdd 1 else r.evicted

/-- A fragment that `feed` takes: it is well formed, and nothing that the buffer of its message
holds contradicts it. -/
structure Takes (K : Crypto) (r : Reassembler) (f : Fragment) : Prop where
  valid : f.Valid K
  total : (r.base f).total = f.header.total
  payload : ∀ x, (r.base f).slots[f.header.seq.toNat]? = some (some x) → x = f.payload

/-- The state in which the peer has this queue, and nothing is kept for a peer without messages. -/
structure Updates (r : Reassembler) (peer : AccountId) (queue : List (MessageId × PendingMessage))
    (evicted : UInt64) (r' : Reassembler) : Prop where
  lookup : ∀ k, r'.peers.lookup k =
    if k = peer then (if queue = [] then none else some queue) else r.peers.lookup k
  evicted : r'.evicted = evicted

/-- **What a call of `feed` does.** -/
inductive Does (K : Crypto) (r : Reassembler) (f : Fragment) :
    Except ReassemblyError (Option (List UInt8)) → Reassembler → Prop
  | rejected {e : ReassemblyError} (h : ¬ Takes K r f) : Does K r f (.error e) r
  | repeated (h : Takes K r f) {p : PendingMessage} (hbuffer : r.buffer f.key = some p)
    (hslot : p.slots[f.header.seq.toNat]? = some (some f.payload)) : Does K r f (.ok none) r
  | stored (h : Takes K r f) {r' : Reassembler}
    (hslot : (r.base f).slots[f.header.seq.toNat]? = some none)
    (hlt : countFilled (r.base f).slots + 1 < f.header.total.toNat)
    (hupdate : r.Updates f.key.1
      (Assoc.put (r.room f) f.key.2 ((r.base f).fill f.header.seq f.payload))
      (r.evictedFor f) r') : Does K r f (.ok none) r'
  | delivered (h : Takes K r f) {r' : Reassembler}
    (hslot : (r.base f).slots[f.header.seq.toNat]? = some none)
    (heq : countFilled (r.base f).slots + 1 = f.header.total.toNat)
    (hupdate : r.Updates f.key.1 (Assoc.remove (r.room f) f.key.2) (r.evictedFor f) r') :
    Does K r f (.ok (some ((r.base f).fill f.header.seq f.payload).drain)) r'

/-! ### Well-kept queues -/

/-- A queue of incomplete messages. -/
structure KeptQueue (queue : List (MessageId × PendingMessage)) : Prop where
  length_le : queue.length ≤ MAX_INFLIGHT_MESSAGES_PER_PEER
  nodup : (queue.map Prod.fst).Nodup
  kept : ∀ e ∈ queue, e.2.Kept

/-- All queues are well kept, and none is empty. -/
def Kept (r : Reassembler) : Prop :=
  ∀ peer queue, r.peers.lookup peer = some queue → queue ≠ [] ∧ KeptQueue queue

theorem keptQueue_nil : KeptQueue [] := ⟨Nat.zero_le _, List.nodup_nil, by simp⟩

theorem KeptQueue.sublist {queue queue' : List (MessageId × PendingMessage)} (h : KeptQueue queue)
    (hsub : queue'.Sublist queue) : KeptQueue queue' where
  length_le := hsub.length_le.trans h.length_le
  nodup := h.nodup.sublist (hsub.map _)
  kept := fun e he ↦ h.kept e (hsub.subset he)

theorem Kept.queueOf (h : Kept r) (peer : AccountId) : KeptQueue (r.queueOf peer) := by
  rw [Reassembler.queueOf]
  cases hlookup : r.peers.lookup peer with
  | none => exact keptQueue_nil
  | some queue => exact (h peer queue hlookup).2

theorem Kept.buffer (h : Kept r) {p : PendingMessage} (hbuffer : r.buffer m = some p) : p.Kept :=
  (h.queueOf m.1).kept _ (Assoc.mem_of_find hbuffer)

/-! ### The calls -/

/-- The entry of the message has this index. -/
structure IsEntry (queue : List (MessageId × PendingMessage)) (messageId : MessageId) (idx : ℕ)
    (pending : PendingMessage) : Prop where
  get : queue[idx]? = some (messageId, pending)
  set : ∀ p, queue.set idx (messageId, p) = Assoc.put queue messageId p

theorem isEntry_concat {queue : List (MessageId × PendingMessage)} {messageId : MessageId}
    (h : messageId ∉ queue.map Prod.fst) (pending : PendingMessage) :
    IsEntry (queue ++ [(messageId, pending)]) messageId queue.length pending where
  get := List.getElem?_concat_length
  set := fun p ↦ by
    rw [List.set_append_right _ _ (Nat.le_refl _), Nat.sub_self, List.set_cons_zero,
      ← Assoc.put_of_notMem h, ← Assoc.put_of_notMem h, Assoc.put_put]

theorem queueOf_setQueue_self (r : Reassembler) (peer : AccountId)
    (queue : List (MessageId × PendingMessage)) : (r.setQueue peer queue).queueOf peer = queue := by
  rw [queueOf, setQueue, AList.lookup_insert, Option.getD_some]

theorem Updates.setQueue (r : Reassembler) (peer : AccountId)
    {queue : List (MessageId × PendingMessage)} (h : queue ≠ []) :
    r.Updates peer queue r.evicted (r.setQueue peer queue) where
  lookup := fun k ↦ by
    rw [if_neg h, Reassembler.setQueue]
    split
    · rename_i hk
      rw [hk, AList.lookup_insert]
    · rename_i hk
      exact AList.lookup_insert_ne hk
  evicted := rfl

theorem Updates.erase (r : Reassembler) (peer : AccountId) :
    r.Updates peer [] r.evicted { r with peers := r.peers.erase peer } where
  lookup := fun k ↦ by
    rw [if_pos rfl]
    split
    · rename_i hk
      rw [hk]
      exact AList.lookup_erase _ _
    · rename_i hk
      exact AList.lookup_erase_ne hk
  evicted := rfl

/-- What was written to the queue of the peer before does not matter. -/
theorem Updates.of_agree {s : Reassembler} {peer : AccountId}
    {queue : List (MessageId × PendingMessage)} {evicted : UInt64}
    (h : s.Updates peer queue evicted r')
    (hagree : ∀ k, k ≠ peer → s.peers.lookup k = r.peers.lookup k) :
    r.Updates peer queue evicted r' where
  lookup := fun k ↦ by
    rw [h.lookup]
    split
    · rfl
    · rename_i hk
      exact hagree k hk
  evicted := h.evicted

/-- Both arms of a completion leave a queue only if there is something in it. -/
theorem exec_complete {α : Type} (r : Reassembler) (peer : AccountId)
    (queue : List (MessageId × PendingMessage)) (a : α) :
    ∃ r', (do
      if queue = [] then set { r with peers := r.peers.erase peer }
      else set (r.setQueue peer queue)
      pure a : Call Reassembler ReassemblyError α).exec r = some (.ok a, r') ∧
        r.Updates peer queue r.evicted r' := by
  by_cases hqueue : queue = []
  · refine ⟨{ r with peers := r.peers.erase peer }, ?_, hqueue ▸ Updates.erase r peer⟩
    rw [if_pos hqueue]
    rfl
  · refine ⟨r.setQueue peer queue, ?_, Updates.setQueue r peer hqueue⟩
    rw [if_neg hqueue]
    rfl

section FillSlot

variable {idx : ℕ} {p : PendingMessage}

theorem exec_fillSlot_of_filled
    (hentry : IsEntry (r.queueOf f.header.peerPubkey) f.header.messageId idx p)
    {x : List UInt8} (hslot : p.slots[f.header.seq.toNat]? = some (some x)) :
    (fillSlot f idx).exec r =
      some (if x ≠ f.payload then .error (.payloadMismatch f.header.seq) else .ok none, r) := by
  rw [fillSlot, Call.exec_bind_ok (Call.exec_get r)]
  dsimp only
  rw [Call.exec_some hentry.get, Call.exec_some hslot]
  dsimp only
  split
  · exact Call.exec_throw _ _
  · exact Call.exec_pure _ _

theorem exec_fillSlot_of_last
    (hentry : IsEntry (r.queueOf f.header.peerPubkey) f.header.messageId idx p)
    (hcounted : p.Counted) (hslot : p.slots[f.header.seq.toNat]? = some none)
    (heq : countFilled p.slots + 1 = p.total.toNat) :
    ∃ r', (fillSlot f idx).exec r =
        some (.ok (some (p.fill f.header.seq f.payload).drain), r') ∧
      r.Updates f.header.peerPubkey
        (Assoc.remove (r.queueOf f.header.peerPubkey) f.header.messageId) r.evicted r' := by
  rw [fillSlot, Call.exec_bind_ok (Call.exec_get r)]
  dsimp only
  rw [Call.exec_some hentry.get, Call.exec_some hslot]
  dsimp only
  rw [if_pos ((hcounted.filled_fill_eq_total hslot f.payload).mpr heq), hentry.set,
    Assoc.remove_put]
  exact exec_complete r _ _ _

theorem exec_fillSlot_of_lt
    (hentry : IsEntry (r.queueOf f.header.peerPubkey) f.header.messageId idx p)
    (hcounted : p.Counted) (hslot : p.slots[f.header.seq.toNat]? = some none)
    (hlt : countFilled p.slots + 1 < p.total.toNat) :
    ∃ r', (fillSlot f idx).exec r = some (.ok none, r') ∧
      r.Updates f.header.peerPubkey
        (Assoc.put (r.queueOf f.header.peerPubkey) f.header.messageId
          (p.fill f.header.seq f.payload)) r.evicted r' := by
  refine ⟨_, ?_, Updates.setQueue r _ (Assoc.put_ne_nil _ _ _)⟩
  rw [fillSlot, Call.exec_bind_ok (Call.exec_get r)]
  dsimp only
  rw [Call.exec_some hentry.get, Call.exec_some hslot]
  dsimp only
  rw [if_neg (mt (hcounted.filled_fill_eq_total hslot f.payload).mp (by omega)), hentry.set]
  rfl

end FillSlot

section FindOrCreate

theorem exec_findOrCreate_of_some {p : PendingMessage} (hbuffer : r.buffer f.key = some p) :
    ∃ idx, IsEntry (r.queueOf f.header.peerPubkey) f.header.messageId idx p ∧
      (findOrCreate f.header).exec r =
        some (if p.total = f.header.total then .ok idx
          else .error (.totalMismatch f.header.total p.total), r) := by
  have hfind : Assoc.find (r.queueOf f.header.peerPubkey) f.header.messageId = some p := hbuffer
  cases hidx : (r.queueOf f.header.peerPubkey).findIdx? (fun e ↦ e.1 = f.header.messageId) with
  | none =>
    rw [Assoc.find_eq_none.mpr (Assoc.findIdx?_eq_none hidx)] at hfind
    cases hfind
  | some idx =>
    obtain ⟨p', hget, hfind', hset⟩ := Assoc.findIdx?_eq_some hidx
    obtain rfl := Option.some_inj.mp (hfind.symm.trans hfind')
    refine ⟨idx, ⟨hget, hset⟩, ?_⟩
    rw [findOrCreate, Call.exec_bind_ok (Call.exec_get r)]
    dsimp only
    rw [hidx]
    dsimp only
    rw [Call.exec_some hget]
    split
    · rename_i htotal
      exact Call.exec_ensure_ok htotal r
    · rename_i htotal
      exact Call.exec_ensure_error htotal r

theorem notMem_room (hbuffer : r.buffer f.key = none) :
    f.header.messageId ∉ (r.room f).map Prod.fst := by
  have hqueue : f.header.messageId ∉ (r.queueOf f.header.peerPubkey).map Prod.fst :=
    Assoc.find_eq_none.mp hbuffer
  rw [room]
  split
  · exact fun hmem ↦ hqueue (List.mem_of_mem_tail (List.map_tail ▸ hmem))
  · exact hqueue

theorem exec_findOrCreate_of_none (hbuffer : r.buffer f.key = none) :
    ∃ idx s, (findOrCreate f.header).exec r = some (.ok idx, s) ∧
      IsEntry (s.queueOf f.header.peerPubkey) f.header.messageId idx
        (PendingMessage.empty f.header.total) ∧
      s.queueOf f.header.peerPubkey =
        Assoc.put (r.room f) f.header.messageId (PendingMessage.empty f.header.total) ∧
      s.evicted = r.evictedFor f ∧
      ∀ k, k ≠ f.header.peerPubkey → s.peers.lookup k = r.peers.lookup k := by
  have hqueue : f.header.messageId ∉ (r.queueOf f.header.peerPubkey).map Prod.fst :=
    Assoc.find_eq_none.mp hbuffer
  have hidx : (r.queueOf f.header.peerPubkey).findIdx? (fun e ↦ e.1 = f.header.messageId) = none :=
    List.findIdx?_eq_none_iff.mpr fun e he ↦
      decide_eq_false fun hkey ↦ hqueue (hkey ▸ List.mem_map_of_mem he)
  have hroom := notMem_room hbuffer
  let q := r.room f ++ [(f.header.messageId, PendingMessage.empty f.header.total)]
  let s := { r.setQueue f.header.peerPubkey q with evicted := r.evictedFor f }
  have hself : s.queueOf f.header.peerPubkey = q := queueOf_setQueue_self r _ q
  refine ⟨(r.room f).length, s, ?_, ?_, ?_, rfl, fun k hk ↦ AList.lookup_insert_ne hk⟩
  · rw [findOrCreate, Call.exec_bind_ok (Call.exec_get r)]
    dsimp only
    rw [hidx]
    dsimp only
    rw [Call.exec_bind_ok (Call.exec_set _ _), Call.exec_pure, List.length_append]
    have hcrowded : r.IsCrowded f ↔
        MAX_INFLIGHT_MESSAGES_PER_PEER ≤ (r.queueOf f.header.peerPubkey).length :=
      and_iff_right hbuffer
    by_cases hfull : MAX_INFLIGHT_MESSAGES_PER_PEER ≤ (r.queueOf f.header.peerPubkey).length
    · simp only [s, q, room, evictedFor, if_pos hfull, if_pos (hcrowded.mpr hfull)]
      rfl
    · simp only [s, q, room, evictedFor, if_neg hfull, if_neg (mt hcrowded.mp hfull)]
      rfl
  · rw [hself]
    exact isEntry_concat hroom _
  · rw [hself, Assoc.put_of_notMem hroom]

end FindOrCreate

/-! ### The whole call -/

theorem base_of_some {p : PendingMessage} (hbuffer : r.buffer f.key = some p) : r.base f = p := by
  rw [base, hbuffer, Option.getD_some]

theorem base_of_none (hbuffer : r.buffer f.key = none) :
    r.base f = PendingMessage.empty f.header.total := by
  rw [base, hbuffer, Option.getD_none]

theorem room_of_some {p : PendingMessage} (hbuffer : r.buffer f.key = some p) :
    r.room f = r.queueOf f.header.peerPubkey ∧ r.evictedFor f = r.evicted := by
  have hcrowded : ¬ r.IsCrowded f := fun h ↦ by
    rw [h.1] at hbuffer
    cases hbuffer
  exact ⟨if_neg hcrowded, if_neg hcrowded⟩

theorem Kept.counted_base (h : Kept r) (f : Fragment) : (r.base f).Counted := by
  cases hbuffer : r.buffer f.key with
  | none =>
    rw [base_of_none hbuffer]
    exact PendingMessage.counted_empty _
  | some p =>
    rw [base_of_some hbuffer]
    exact (h.buffer hbuffer).toCounted

/-- Once the checks are passed, the rest of the call is made with an entry for the peer. -/
theorem exec_feed_of_valid (h : f.Valid K) (r : Reassembler) :
    (feed K f).exec r = (findOrCreate f.header >>= fillSlot f).exec
      { r with peers := HashMap.orInsert r.peers f.header.peerPubkey [] } := by
  rw [feed, Call.exec_check_ok h.verify]
  dsimp only
  rw [Call.exec_ensure_ok h.total, Call.exec_ensure_ok h.seq,
    Call.exec_bind_ok (Call.exec_modify _ _)]

theorem exec_feed_of_not_valid (h : ¬ f.Valid K) (r : Reassembler) :
    ∃ e, (feed K f).exec r = some (.error e, r) := by
  rw [feed]
  cases hverify : f.verify K with
  | error e => exact ⟨e, Call.exec_check_error rfl r⟩
  | ok u =>
    rw [Call.exec_check_ok rfl]
    dsimp only
    by_cases htotal : f.header.total ≠ 0
    · rw [Call.exec_ensure_ok htotal]
      by_cases hseq : f.header.seq < f.header.total
      · exact absurd ⟨hverify, htotal, hseq⟩ h
      · exact ⟨_, Call.exec_ensure_error hseq r⟩
    · exact ⟨_, Call.exec_ensure_error htotal r⟩

theorem queueOf_orInsert (r : Reassembler) (peer k : AccountId) :
    ({ r with peers := HashMap.orInsert r.peers peer [] } : Reassembler).queueOf k =
      r.queueOf k := by
  by_cases hk : k = peer
  · rw [queueOf, hk, HashMap.lookup_orInsert_self, Option.getD_some, queueOf]
  · rw [queueOf, HashMap.lookup_orInsert_of_ne _ hk, queueOf]

/-- A message that has a buffer is entered already. -/
theorem orInsert_of_buffer {p : PendingMessage} (hbuffer : r.buffer f.key = some p) :
    ({ r with peers := HashMap.orInsert r.peers f.header.peerPubkey [] } : Reassembler) = r := by
  have hmem : f.header.peerPubkey ∈ r.peers := by
    by_contra hmem
    rw [buffer, queueOf, Fragment.key, AList.lookup_eq_none.mpr hmem] at hbuffer
    cases hbuffer
  rw [HashMap.orInsert_of_mem _ hmem]

/-- The call for a message that has a buffer. -/
theorem exec_feed_of_buffer (h : Kept r) (hvalid : f.Valid K) {p : PendingMessage}
    (hbuffer : r.buffer f.key = some p) :
    ∃ out r', (feed K f).exec r = some (out, r') ∧ Does K r f out r' := by
  have hbase := base_of_some hbuffer
  have hcounted := (h.buffer hbuffer).toCounted
  obtain ⟨hroom, hevicted⟩ := room_of_some hbuffer
  obtain ⟨idx, hentry, hfind⟩ := exec_findOrCreate_of_some hbuffer
  rw [exec_feed_of_valid hvalid, orInsert_of_buffer hbuffer]
  by_cases htotal : p.total = f.header.total
  · rw [if_pos htotal] at hfind
    rw [Call.exec_bind_ok hfind]
    have hlt : f.header.seq.toNat < p.slots.length := by
      rw [hcounted.length, htotal]
      exact UInt16.lt_iff_toNat_lt.mp hvalid.seq
    rcases hslot : p.slots[f.header.seq.toNat]? with _ | _ | x
    · exact absurd (List.getElem?_eq_none_iff.mp hslot) (Nat.not_le_of_lt hlt)
    · -- the slot is empty
      have htakes : Takes K r f := ⟨hvalid, hbase ▸ htotal, fun x hx ↦ by
        rw [hbase, hslot] at hx
        cases hx⟩
      have hle := hcounted.lt hslot
      rcases Nat.lt_or_eq_of_le (Nat.succ_le_of_lt hle) with hlt | heq
      · obtain ⟨r', hexec, hupdate⟩ := exec_fillSlot_of_lt hentry hcounted hslot hlt
        refine ⟨_, r', hexec, .stored htakes (hbase ▸ hslot) (hbase ▸ htotal ▸ hlt) ?_⟩
        rw [hroom, hevicted, hbase]
        exact hupdate
      · obtain ⟨r', hexec, hupdate⟩ := exec_fillSlot_of_last hentry hcounted hslot heq
        refine ⟨_, r', hexec, hbase ▸ .delivered htakes (hbase ▸ hslot) (hbase ▸ htotal ▸ heq) ?_⟩
        rw [hroom, hevicted]
        exact hupdate
    · -- the slot is filled
      have hexec := exec_fillSlot_of_filled hentry hslot
      by_cases hx : x = f.payload
      · rw [if_neg (not_not_intro hx)] at hexec
        refine ⟨_, r, hexec, .repeated ⟨hvalid, hbase ▸ htotal, fun y hy ↦ ?_⟩ hbuffer (hx ▸ hslot)⟩
        rw [hbase, hslot, Option.some_inj, Option.some_inj] at hy
        exact hy ▸ hx
      · rw [if_pos hx] at hexec
        exact ⟨_, r, hexec, .rejected fun htakes ↦ hx (htakes.payload x (hbase ▸ hslot))⟩
  · rw [if_neg htotal] at hfind
    exact ⟨_, r, Call.exec_bind_error hfind, .rejected fun htakes ↦ htotal (hbase ▸ htakes.total)⟩

/-- The call for a message that has none. -/
theorem exec_feed_of_no_buffer (hvalid : f.Valid K) (hbuffer : r.buffer f.key = none) :
    ∃ out r', (feed K f).exec r = some (out, r') ∧ Does K r f out r' := by
  let r₁ : Reassembler := { r with peers := HashMap.orInsert r.peers f.header.peerPubkey [] }
  have hqueue : ∀ k, r₁.queueOf k = r.queueOf k := queueOf_orInsert r _
  have hbuffer₁ : r₁.buffer f.key = r.buffer f.key := congrArg (Assoc.find · _) (hqueue _)
  have hcrowded : r₁.IsCrowded f ↔ r.IsCrowded f := by rw [IsCrowded, IsCrowded, hbuffer₁, hqueue]
  have hroom : r₁.room f = r.room f := by simp only [room, hcrowded, hqueue]
  have hevicted : r₁.evictedFor f = r.evictedFor f := by
    simp only [evictedFor, hcrowded]
    rfl
  obtain ⟨idx, s, hfind, hentry, hput, hs, hagree⟩ :=
    exec_findOrCreate_of_none (hbuffer₁.trans hbuffer)
  have hagree : ∀ k, k ≠ f.header.peerPubkey → s.peers.lookup k = r.peers.lookup k := fun k hk ↦
    (hagree k hk).trans (HashMap.lookup_orInsert_of_ne _ hk)
  rw [hroom] at hput
  rw [hevicted] at hs
  have hbase := base_of_none hbuffer
  have hcounted := PendingMessage.counted_empty f.header.total
  have hslot := PendingMessage.getElem?_empty hvalid.seq
  have htakes : Takes K r f := ⟨hvalid, hbase ▸ rfl, fun x hx ↦ by
    rw [hbase, hslot] at hx
    cases hx⟩
  rw [exec_feed_of_valid hvalid, Call.exec_bind_ok hfind]
  rcases Nat.lt_or_eq_of_le (Nat.succ_le_of_lt (hcounted.lt hslot)) with hlt | heq
  · obtain ⟨r', hexec, hupdate⟩ := exec_fillSlot_of_lt hentry hcounted hslot hlt
    refine ⟨_, r', hexec, .stored htakes (hbase ▸ hslot) (hbase ▸ hlt) ?_⟩
    rw [hput, Assoc.put_put, hs, ← hbase] at hupdate
    exact hupdate.of_agree hagree
  · obtain ⟨r', hexec, hupdate⟩ := exec_fillSlot_of_last hentry hcounted hslot heq
    refine ⟨_, r', hexec, hbase ▸ .delivered htakes (hbase ▸ hslot) (hbase ▸ heq) ?_⟩
    rw [hput, Assoc.remove_put, hs] at hupdate
    exact hupdate.of_agree hagree

/-- **Every call** on well-kept queues returns, and does one of four things. -/
theorem exec_feed (h : Kept r) (K : Crypto) (f : Fragment) :
    ∃ out r', (feed K f).exec r = some (out, r') ∧ Does K r f out r' := by
  by_cases hvalid : f.Valid K
  · cases hbuffer : r.buffer f.key with
    | none => exact exec_feed_of_no_buffer hvalid hbuffer
    | some p => exact exec_feed_of_buffer h hvalid hbuffer
  · obtain ⟨e, hexec⟩ := exec_feed_of_not_valid hvalid r
    exact ⟨_, r, hexec, .rejected fun htakes ↦ hvalid htakes.valid⟩

theorem does_of_exec (h : Kept r) {out : Except ReassemblyError (Option (List UInt8))}
    (hexec : (feed K f).exec r = some (out, r')) : Does K r f out r' := by
  obtain ⟨out', r'', hexec', hdoes⟩ := exec_feed h K f
  obtain ⟨rfl, rfl⟩ := Prod.mk.inj (Option.some_inj.mp (hexec.symm.trans hexec'))
  exact hdoes

/-! ### What it leaves behind -/

/-- Only a fragment that is taken changes anything. -/
theorem Does.eq_of_not_takes {out : Except ReassemblyError (Option (List UInt8))}
    (hdoes : Does K r f out r') (h : ¬ Takes K r f) : r' = r := by
  cases hdoes with
  | rejected => rfl
  | repeated htakes => exact absurd htakes h
  | stored htakes => exact absurd htakes h
  | delivered htakes => exact absurd htakes h

/-- The call makes room by dropping this message, the oldest of its peer. -/
structure Evicts (K : Crypto) (r : Reassembler) (f : Fragment) (m : AccountId × MessageId) :
    Prop where
  valid : f.Valid K
  crowded : r.IsCrowded f
  peer : m.1 = f.key.1
  oldest : (r.queueOf f.key.1).head?.map Prod.fst = some m.2

theorem Updates.queueOf {peer : AccountId} {queue : List (MessageId × PendingMessage)}
    {evicted : UInt64} (h : r.Updates peer queue evicted r') (k : AccountId) :
    r'.queueOf k = if k = peer then queue else r.queueOf k := by
  rw [Reassembler.queueOf, h.lookup]
  split
  · split
    · rename_i hqueue
      rw [hqueue]
      rfl
    · rfl
  · rfl

theorem Updates.kept {peer : AccountId} {queue : List (MessageId × PendingMessage)}
    {evicted : UInt64} (hupdate : r.Updates peer queue evicted r') (h : Kept r)
    (hqueue : KeptQueue queue) : Kept r' := by
  intro k q hlookup
  rw [hupdate.lookup] at hlookup
  split at hlookup
  · split at hlookup
    · cases hlookup
    · rename_i hne
      obtain rfl := Option.some_inj.mp hlookup
      exact ⟨hne, hqueue⟩
  · exact h k q hlookup

theorem Kept.room (h : Kept r) (f : Fragment) : KeptQueue (r.room f) := by
  rw [Reassembler.room]
  split
  · exact (h.queueOf _).sublist (List.tail_sublist _)
  · exact h.queueOf _

/-- There is a place for the message: its own, or a free one. -/
theorem Kept.length_put_room (h : Kept r) (f : Fragment) (p : PendingMessage) :
    (Assoc.put (r.room f) f.key.2 p).length ≤ MAX_INFLIGHT_MESSAGES_PER_PEER := by
  have hle := (h.queueOf f.key.1).length_le
  by_cases hcrowded : r.IsCrowded f
  · have hput := Assoc.length_put_le (r.room f) f.key.2 p
    rw [Reassembler.room, if_pos hcrowded, List.length_tail] at hput
    have hpos : 0 < MAX_INFLIGHT_MESSAGES_PER_PEER := by decide
    have hfull := hcrowded.2
    rw [Reassembler.room, if_pos hcrowded]
    omega
  · rw [Reassembler.room, if_neg hcrowded]
    by_cases hmem : f.key.2 ∈ (r.queueOf f.key.1).map Prod.fst
    · rw [Assoc.length_put_of_mem hmem]
      exact hle
    · have hlt := Nat.lt_of_not_le fun hfull ↦ hcrowded ⟨Assoc.find_eq_none.mpr hmem, hfull⟩
      exact (Assoc.length_put_le _ _ _).trans hlt

/-- **The queues stay well kept.** -/
theorem Does.kept {out : Except ReassemblyError (Option (List UInt8))} (hdoes : Does K r f out r')
    (h : Kept r) : Kept r' := by
  cases hdoes with
  | rejected => exact h
  | repeated => exact h
  | stored htakes hslot hlt hupdate =>
    refine hupdate.kept h ⟨h.length_put_room f _, Assoc.nodup_put (h.room f).nodup _ _, ?_⟩
    refine Assoc.forall_put (h.room f).kept ?_
    exact (h.counted_base f).kept_fill hslot (htakes.total ▸ hlt) f.payload
  | delivered _ _ _ hupdate =>
    exact hupdate.kept h ((h.room f).sublist (Assoc.remove_sublist _ _))

/-- Room is made for a message at the cost of one other at most. -/
theorem find_room (h : Kept r) (hvalid : f.Valid K) (hpeer : m.1 = f.key.1) :
    Assoc.find (r.room f) m.2 = r.buffer m ∨
      Evicts K r f m ∧ Assoc.find (r.room f) m.2 = none := by
  rw [room, buffer, hpeer]
  by_cases hcrowded : r.IsCrowded f
  · rw [if_pos hcrowded, Assoc.find_tail (h.queueOf _).nodup]
    split
    · rename_i holdest
      exact .inr ⟨⟨hvalid, hcrowded, hpeer, holdest⟩, rfl⟩
    · exact .inl rfl
  · rw [if_neg hcrowded]
    exact .inl rfl

/-- The buffers of the other messages, when the queue of the peer has been written. -/
theorem Updates.buffer_of_ne {queue : List (MessageId × PendingMessage)} {evicted : UInt64}
    (hupdate : r.Updates f.key.1 queue evicted r') (h : Kept r) (hvalid : f.Valid K)
    (hfind : ∀ mid, mid ≠ f.key.2 → Assoc.find queue mid = Assoc.find (r.room f) mid)
    (hne : m ≠ f.key) : r'.buffer m = r.buffer m ∨ Evicts K r f m ∧ r'.buffer m = none := by
  by_cases hpeer : m.1 = f.key.1
  · have hmid : m.2 ≠ f.key.2 := fun hmid ↦ hne (Prod.ext hpeer hmid)
    have hroom := find_room h hvalid hpeer
    rw [← hfind _ hmid] at hroom
    rwa [buffer, hupdate.queueOf, if_pos hpeer]
  · rw [buffer, hupdate.queueOf, if_neg hpeer]
    exact .inl rfl

/-- **The buffers of the other messages** are as they were, but for the one that gives way. -/
theorem Does.buffer_eq_or {out : Except ReassemblyError (Option (List UInt8))}
    (hdoes : Does K r f out r') (h : Kept r) (hne : m ≠ f.key) :
    r'.buffer m = r.buffer m ∨ Evicts K r f m ∧ r'.buffer m = none := by
  cases hdoes with
  | rejected => exact .inl rfl
  | repeated => exact .inl rfl
  | stored htakes _ _ hupdate =>
    refine hupdate.buffer_of_ne h htakes.valid (fun mid hmid ↦ ?_) hne
    rw [Assoc.find_put, if_neg hmid.symm]
  | delivered htakes _ _ hupdate =>
    refine hupdate.buffer_of_ne h htakes.valid (fun mid hmid ↦ ?_) hne
    rw [Assoc.find_remove, if_neg hmid.symm]

theorem Does.buffer_of_ne {out : Except ReassemblyError (Option (List UInt8))}
    (hdoes : Does K r f out r') (h : Kept r) (hne : m ≠ f.key) (hevicts : ¬ Evicts K r f m) :
    r'.buffer m = r.buffer m :=
  (hdoes.buffer_eq_or h hne).resolve_right fun hgone ↦ hevicts hgone.1

/-- No buffer of another message appears. -/
theorem Does.buffer_of_some {out : Except ReassemblyError (Option (List UInt8))}
    (hdoes : Does K r f out r') (h : Kept r) (hne : m ≠ f.key) {p : PendingMessage}
    (hbuffer : r'.buffer m = some p) : r.buffer m = some p := by
  rcases hdoes.buffer_eq_or h hne with hsame | ⟨-, hnone⟩
  · exact hsame ▸ hbuffer
  · cases hnone.symm.trans hbuffer

theorem buffer_of_stored {p : PendingMessage} {evicted : UInt64}
    (hupdate : r.Updates f.key.1 (Assoc.put (r.room f) f.key.2 p) evicted r') :
    r'.buffer f.key = some p := by
  rw [buffer, hupdate.queueOf, if_pos rfl, Assoc.find_put, if_pos rfl]

theorem buffer_of_delivered {evicted : UInt64}
    (hupdate : r.Updates f.key.1 (Assoc.remove (r.room f) f.key.2) evicted r') :
    r'.buffer f.key = none := by
  rw [buffer, hupdate.queueOf, if_pos rfl, Assoc.find_remove, if_pos rfl]

/-! ## Runs -/

/-- A call of `feed`, the state that it was made in, and what it returned. -/
structure Handled where
  before : Reassembler
  fragment : Fragment
  result : Except ReassemblyError (Option (List UInt8))

/-- A receiver that is fed fragments. -/
def system (K : Crypto) : System Reassembler Handled where
  init := fun r ↦ r = new
  step := fun r a r' ↦ a.before = r ∧ (feed K a.fragment).exec r = some (a.result, r')

theorem buffer_new (m : AccountId × MessageId) : new.buffer m = none := rfl

theorem kept_new : Kept new := by
  intro peer queue hlookup
  rw [new, AList.lookup_empty] at hlookup
  cases hlookup

theorem kept_of_run {tr : List Handled} (run : (system K).Run tr r) : Kept r := by
  refine run.invariant (I := fun _ r ↦ Kept r) ?_ ?_
  · rintro r rfl
    exact kept_new
  · rintro _ r a r' _ h ⟨rfl, hexec⟩
    exact (does_of_exec h hexec).kept h

/-- Every step of a run does one of the four things. -/
theorem does_of_step {tr : List Handled} {a : Handled} (run : (system K).Run tr r)
    (hstep : (system K).step r a r') : Does K r a.fragment a.result r' :=
  does_of_exec (kept_of_run run) hstep.2

theorem system_deterministic (K : Crypto) : (system K).Deterministic where
  init := by
    rintro s s' rfl rfl
    rfl
  step := by
    rintro s a s₁ s₂ ⟨-, h⟩ ⟨-, h'⟩
    exact (Prod.mk.inj (Option.some_inj.mp (h.symm.trans h'))).2

end Reassembler

end Arxia
