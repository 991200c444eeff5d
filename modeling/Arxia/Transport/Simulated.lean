import Arxia.Lists.Queues
import Arxia.Rust.UInt64
import Arxia.Transition.Runs
import Arxia.Transport.SignedMessage

/-!
# The simulated transport

Three queues and a generator. The inbox loses its oldest message when it is full. The scheduled
inbox hands a message out once it is due, and nothing past one that is not. The outbox refuses what
it has no room for, and a draw of the generator decides whether what it has room for is lost.

Which draws lose their message is fixed by the seed: refusals do not draw, and the generator never
reaches zero, where it would stay.
-/

namespace Arxia

open Rust Transition

/-- Default seed for the deterministic xorshift64 PRNG. -/
def DEFAULT_PRNG_SEED : UInt64 := 0xDEADBEEFCAFEBABE

/-- Deterministic xorshift64 PRNG: the next state is what it returns. -/
def xorshift64 (state : UInt64) : UInt64 :=
  let x := state ^^^ (state <<< 13)
  let x := x ^^^ (x >>> 7)
  x ^^^ (x <<< 17)

/-- Why a message was not sent: the variants of `TransportError` that `send` returns. -/
inductive SendError
  | payloadTooLarge (size max : ℕ)
  | messageLost
  | backPressure (capacity : ℕ)
  deriving DecidableEq

/-- A simulated transport. -/
structure SimulatedTransport where
  inbox : List TransportMessage
  /-- What is to be delivered, and when. -/
  scheduledInbox : List (UInt64 × TransportMessage)
  outbox : List TransportMessage
  inboxCapacity : ℕ
  outboxCapacity : ℕ
  inboxDropped : UInt64
  latencyMs : UInt64
  /-- The share of all words that the loss rate is, below which a draw loses its message. -/
  lossThreshold : UInt64
  mtu : ℕ
  rngState : UInt64

namespace SimulatedTransport

/-- Create a simulated transport; no capacity is zero, and neither is the seed. -/
def withCapacityAndSeed (latencyMs lossThreshold : UInt64) (mtu inboxCapacity outboxCapacity : ℕ)
    (seed : UInt64) : SimulatedTransport where
  inbox := []
  scheduledInbox := []
  outbox := []
  inboxCapacity := max inboxCapacity 1
  outboxCapacity := max outboxCapacity 1
  inboxDropped := 0
  latencyMs := latencyMs
  lossThreshold := lossThreshold
  mtu := mtu
  rngState := if seed = 0 then DEFAULT_PRNG_SEED else seed

/-- Inject a message into the inbox, in place of the oldest one if it is full. -/
def injectMessage (msg : TransportMessage) (t : SimulatedTransport) : SimulatedTransport :=
  let t := if t.inboxCapacity ≤ t.inbox.length then
      { t with inbox := t.inbox.tail, inboxDropped := t.inboxDropped.saturatingAdd 1 }
    else t
  { t with inbox := t.inbox ++ [msg] }

/-- Receive what has been injected, without regard to the latency. -/
def tryRecv (t : SimulatedTransport) : Option TransportMessage × SimulatedTransport :=
  match t.inbox with
  | [] => (none, t)
  | msg :: inbox => (some msg, { t with inbox := inbox })

/-- When a message is due that was sent then. -/
def deliverAt (latencyMs sentAtMs : UInt64) : UInt64 := sentAtMs.saturatingAdd latencyMs

/-- Schedule a message for delivery after the latency. -/
def injectMessageWithArrival (msg : TransportMessage) (sentAtMs : UInt64)
    (t : SimulatedTransport) : SimulatedTransport :=
  { t with scheduledInbox := t.scheduledInbox ++ [(deliverAt t.latencyMs sentAtMs, msg)] }

/-- Receive the first scheduled message, if it is due. -/
def tryRecvAt (nowMs : UInt64) (t : SimulatedTransport) :
    Option TransportMessage × SimulatedTransport :=
  match t.scheduledInbox with
  | [] => (none, t)
  | (deliverAt, msg) :: rest =>
    if deliverAt ≤ nowMs then (some msg, { t with scheduledInbox := rest }) else (none, t)

/-- Send a message, unless it is too large, there is no room, or it is lost. -/
def send (msg : TransportMessage) (t : SimulatedTransport) :
    Except SendError Unit × SimulatedTransport :=
  if t.mtu < msg.payload.length then (.error (.payloadTooLarge msg.payload.length t.mtu), t)
  else if t.outboxCapacity ≤ t.outbox.length then (.error (.backPressure t.outboxCapacity), t)
  else
    let rngVal := xorshift64 t.rngState
    let t := { t with rngState := rngVal }
    if rngVal < t.lossThreshold then (.error .messageLost, t)
    else (.ok (), { t with outbox := t.outbox ++ [msg] })

/-! ## Calls -/

/-- A call, and what it answered. -/
inductive Action
  | inject (msg : TransportMessage)
  | recv (answer : Option TransportMessage)
  | schedule (msg : TransportMessage) (sentAtMs : UInt64)
  | recvAt (nowMs : UInt64) (answer : Option TransportMessage)
  | send (msg : TransportMessage) (answer : Except SendError Unit)

/-- What the call makes of the transport; `none` if it would have answered something else. -/
def perform (t : SimulatedTransport) : Action → Option SimulatedTransport
  | .inject msg => some (t.injectMessage msg)
  | .recv answer => if t.tryRecv.1 = answer then some t.tryRecv.2 else none
  | .schedule msg sentAtMs => some (t.injectMessageWithArrival msg sentAtMs)
  | .recvAt nowMs answer =>
    if (t.tryRecvAt nowMs).1 = answer then some (t.tryRecvAt nowMs).2 else none
  | .send msg answer => if (t.send msg).1 = answer then some (t.send msg).2 else none

/-- A transport that starts like this. -/
def system (start : SimulatedTransport) : System SimulatedTransport Action where
  init := fun t ↦ t = start
  step := fun t a t' ↦ t.perform a = some t'

variable {latencyMs lossThreshold seed : UInt64} {mtu inboxCapacity outboxCapacity : ℕ}
  {t t' : SimulatedTransport} {a : Action} {tr : List Action}

/-- What a call does, told from the state of the queue it is about. -/
inductive Does (t : SimulatedTransport) : Action → SimulatedTransport → Prop
  | injected (msg : TransportMessage) (hroom : t.inbox.length < t.inboxCapacity) :
    Does t (.inject msg) { t with inbox := t.inbox ++ [msg] }
  | displaced (msg : TransportMessage) (hfull : t.inboxCapacity ≤ t.inbox.length) :
    Does t (.inject msg) { t with
      inbox := t.inbox.tail ++ [msg], inboxDropped := t.inboxDropped.saturatingAdd 1 }
  | nothingThere (hinbox : t.inbox = []) : Does t (.recv none) t
  | received {msg : TransportMessage} {inbox : List TransportMessage}
    (hinbox : t.inbox = msg :: inbox) : Does t (.recv (some msg)) { t with inbox := inbox }
  | scheduled (msg : TransportMessage) (sentAtMs : UInt64) :
    Does t (.schedule msg sentAtMs) { t with
      scheduledInbox := t.scheduledInbox ++ [(deliverAt t.latencyMs sentAtMs, msg)] }
  | nothingDue {nowMs : UInt64} (hearly : ∀ e ∈ t.scheduledInbox.head?, nowMs < e.1) :
    Does t (.recvAt nowMs none) t
  | due {nowMs : UInt64} {e : UInt64 × TransportMessage} {rest : List (UInt64 × TransportMessage)}
    (hscheduled : t.scheduledInbox = e :: rest) (hdue : e.1 ≤ nowMs) :
    Does t (.recvAt nowMs (some e.2)) { t with scheduledInbox := rest }
  | tooLarge {msg : TransportMessage} (hsize : t.mtu < msg.payload.length) :
    Does t (.send msg (.error (.payloadTooLarge msg.payload.length t.mtu))) t
  | refused {msg : TransportMessage} (hsize : msg.payload.length ≤ t.mtu)
    (hfull : t.outboxCapacity ≤ t.outbox.length) :
    Does t (.send msg (.error (.backPressure t.outboxCapacity))) t
  | lost {msg : TransportMessage} (hsize : msg.payload.length ≤ t.mtu)
    (hroom : t.outbox.length < t.outboxCapacity)
    (hdraw : xorshift64 t.rngState < t.lossThreshold) :
    Does t (.send msg (.error .messageLost)) { t with rngState := xorshift64 t.rngState }
  | sent {msg : TransportMessage} (hsize : msg.payload.length ≤ t.mtu)
    (hroom : t.outbox.length < t.outboxCapacity)
    (hdraw : t.lossThreshold ≤ xorshift64 t.rngState) :
    Does t (.send msg (.ok ())) { t with
      rngState := xorshift64 t.rngState, outbox := t.outbox ++ [msg] }

theorem does_of_perform (h : t.perform a = some t') : Does t a t' := by
  rcases a with msg | answer | ⟨msg, sentAtMs⟩ | ⟨nowMs, answer⟩ | ⟨msg, answer⟩
  · rw [perform, injectMessage, Option.some_inj] at h
    split at h
    · exact h ▸ .displaced msg ‹_›
    · exact h ▸ .injected msg (not_le.mp ‹_›)
  · obtain ⟨rfl, hafter⟩ := Option.ite_none_right_eq_some.mp h
    obtain rfl := Option.some_inj.mp hafter
    rw [tryRecv]
    split
    · exact .nothingThere ‹_›
    · exact .received ‹_›
  · exact Option.some_inj.mp h ▸ .scheduled msg sentAtMs
  · obtain ⟨rfl, hafter⟩ := Option.ite_none_right_eq_some.mp h
    obtain rfl := Option.some_inj.mp hafter
    rw [tryRecvAt]
    split
    · rename_i hnone
      exact .nothingDue (by simp [hnone])
    · rename_i deliverAt msg rest hsome
      split
      · exact .due hsome ‹_›
      · rename_i hlate
        exact .nothingDue (by simpa [hsome] using hlate)
  · obtain ⟨rfl, hafter⟩ := Option.ite_none_right_eq_some.mp h
    obtain rfl := Option.some_inj.mp hafter
    rw [send]
    split
    · exact .tooLarge ‹_›
    rename_i hsize
    split
    · exact .refused (not_lt.mp hsize) ‹_›
    rename_i hroom
    dsimp only
    split
    · exact .lost (not_lt.mp hsize) (not_le.mp hroom) ‹_›
    · rename_i hdraw
      exact .sent (not_lt.mp hsize) (not_le.mp hroom) (UInt64.not_lt.mp hdraw)

/-- Calls that are answered like this are a run. -/
theorem exists_run (start : SimulatedTransport) (tr : List Action)
    (h : (tr.foldlM perform start).isSome = true) : ∃ t, (system start).Run tr t := by
  obtain ⟨t, ht⟩ := Option.isSome_iff_exists.mp h
  exact ⟨t, System.run_of_foldlM (fun _ _ _ ↦ id) rfl ht⟩

/-! ## The inbox -/

/-- The messages that are injected. -/
def Action.injected : Action → Option TransportMessage
  | .inject msg => some msg
  | _ => none

/-- The messages that are received. -/
def Action.received : Action → Option TransportMessage
  | .recv answer => answer
  | _ => none

/-- What has become of the messages that were injected. -/
structure InboxKept (tr : List Action) (t : SimulatedTransport) : Prop where
  channel : Lists.Channel u64Max (tr.filterMap Action.injected) (tr.filterMap Action.received)
    t.inbox t.inboxDropped.toNat
  length_le : t.inbox.length ≤ t.inboxCapacity
  capacity_pos : 0 < t.inboxCapacity

theorem InboxKept.of_eq (h : InboxKept tr t) (hinjected : a.injected = none)
    (hreceived : a.received = none) (hinbox : t'.inbox = t.inbox)
    (hdropped : t'.inboxDropped = t.inboxDropped) (hcapacity : t'.inboxCapacity = t.inboxCapacity) :
    InboxKept (tr ++ [a]) t' := by
  refine ⟨?_, by rw [hinbox, hcapacity]; exact h.length_le, hcapacity ▸ h.capacity_pos⟩
  rw [filterMap_concat, filterMap_concat, hinjected, hreceived, hinbox, hdropped,
    Option.toList_none, List.append_nil, List.append_nil]
  exact h.channel

theorem InboxKept.step (h : InboxKept tr t) (hdoes : Does t a t') : InboxKept (tr ++ [a]) t' := by
  have hle := h.length_le
  have hpos := h.capacity_pos
  cases hdoes with
  | injected msg hroom =>
    refine ⟨?_, by simpa using Nat.succ_le_of_lt hroom, hpos⟩
    rw [filterMap_concat, filterMap_concat]
    simpa [Action.injected, Action.received] using h.channel.send msg
  | displaced msg hfull =>
    -- a full inbox is not empty, and its first message makes room
    obtain ⟨oldest, rest, hinbox⟩ :=
      List.exists_cons_of_length_pos (lt_of_lt_of_le hpos hfull)
    have hchannel := h.channel
    rw [hinbox] at hchannel hle
    rw [List.length_cons] at hle
    refine ⟨?_, by simpa [hinbox] using hle, hpos⟩
    have hlost := (hchannel.lose (UInt64.toNat_saturatingAdd t.inboxDropped 1)).send msg
    rw [filterMap_concat, filterMap_concat, hinbox]
    simpa [Action.injected, Action.received] using hlost
  | received hinbox =>
    have hchannel := h.channel
    rw [hinbox] at hchannel hle
    refine ⟨?_, Nat.le_of_succ_le hle, hpos⟩
    rw [filterMap_concat, filterMap_concat]
    simpa [Action.injected, Action.received] using hchannel.receive
  | nothingThere => exact h.of_eq rfl rfl rfl rfl rfl
  | scheduled => exact h.of_eq rfl rfl rfl rfl rfl
  | nothingDue => exact h.of_eq rfl rfl rfl rfl rfl
  | due => exact h.of_eq rfl rfl rfl rfl rfl
  | tooLarge => exact h.of_eq rfl rfl rfl rfl rfl
  | refused => exact h.of_eq rfl rfl rfl rfl rfl
  | lost => exact h.of_eq rfl rfl rfl rfl rfl
  | sent => exact h.of_eq rfl rfl rfl rfl rfl

/-- **What is injected** is received in order or dropped, and the drops are counted. -/
theorem inbox_of_run (run : (system (withCapacityAndSeed latencyMs lossThreshold mtu inboxCapacity
      outboxCapacity seed)).Run tr t) :
    Lists.Channel u64Max (tr.filterMap Action.injected) (tr.filterMap Action.received) t.inbox
        t.inboxDropped.toNat ∧
      t.inbox.length ≤ t.inboxCapacity ∧
      (t.inboxDropped = 0 →
        tr.filterMap Action.injected = tr.filterMap Action.received ++ t.inbox) := by
  have hkept : InboxKept tr t := by
    refine run.invariant (I := InboxKept) ?_ fun tr t a t' _ h hstep ↦
      h.step (does_of_perform hstep)
    rintro _ rfl
    exact ⟨Lists.Channel.start u64Max, Nat.zero_le _, lt_max_of_lt_right Nat.zero_lt_one⟩
  refine ⟨hkept.channel, hkept.length_le, fun hzero ↦ ?_⟩
  have hchannel := hkept.channel
  rw [hzero] at hchannel
  exact hchannel.eq_of_lost (by decide)

/-- A message with a payload of this size. -/
def note (size : ℕ) : TransportMessage := ⟨"aa", "bb", List.replicate size 0, 1⟩

theorem inbox_of_run_full : ∃ t, (system (withCapacityAndSeed 0 0 256 1 1 1)).Run
      [.inject (note 1), .inject (note 2), .recv (some (note 2))] t ∧
    Lists.Channel u64Max [note 1, note 2] [note 2] t.inbox t.inboxDropped.toNat := by
  obtain ⟨t, run⟩ := exists_run (withCapacityAndSeed 0 0 256 1 1 1)
    [.inject (note 1), .inject (note 2), .recv (some (note 2))] (by decide +kernel)
  exact ⟨t, run, (inbox_of_run run).1⟩

/-! ## The scheduled inbox -/

/-- The messages that are scheduled, with when they were sent. -/
def Action.arriving : Action → Option (UInt64 × TransportMessage)
  | .schedule msg sentAtMs => some (sentAtMs, msg)
  | _ => none

/-- The messages that are handed out, with when they were asked for. -/
def Action.handedOut : Action → Option (UInt64 × TransportMessage)
  | .recvAt nowMs answer => answer.map (nowMs, ·)
  | _ => none

/-- The first of these have been handed out when they were due, and the others are waiting. -/
def Scheduled (latencyMs : UInt64) (arriving handedOut waiting : List (UInt64 × TransportMessage)) :
    Prop :=
  ∃ gone rest, arriving = gone ++ rest ∧
    List.Forall₂ (fun e out ↦ out.2 = e.2 ∧ deliverAt latencyMs e.1 ≤ out.1) gone handedOut ∧
    waiting = rest.map fun e ↦ (deliverAt latencyMs e.1, e.2)

/-- What has become of the messages that were scheduled. -/
structure ScheduleKept (latencyMs : UInt64) (tr : List Action) (t : SimulatedTransport) : Prop where
  scheduled : Scheduled latencyMs (tr.filterMap Action.arriving) (tr.filterMap Action.handedOut)
    t.scheduledInbox
  latency : t.latencyMs = latencyMs

theorem ScheduleKept.of_eq (h : ScheduleKept latencyMs tr t) (harriving : a.arriving = none)
    (hhanded : a.handedOut = none) (hscheduled : t'.scheduledInbox = t.scheduledInbox)
    (hlatency : t'.latencyMs = t.latencyMs) : ScheduleKept latencyMs (tr ++ [a]) t' := by
  refine ⟨?_, hlatency.trans h.latency⟩
  rw [filterMap_concat, filterMap_concat, harriving, hhanded, hscheduled, Option.toList_none,
    List.append_nil, List.append_nil]
  exact h.scheduled

theorem ScheduleKept.step (h : ScheduleKept latencyMs tr t) (hdoes : Does t a t') :
    ScheduleKept latencyMs (tr ++ [a]) t' := by
  obtain ⟨gone, rest, harriving, hgone, hwaiting⟩ := h.scheduled
  cases hdoes with
  | scheduled msg sentAtMs =>
    refine ⟨⟨gone, rest ++ [(sentAtMs, msg)], ?_, ?_, ?_⟩, h.latency⟩
    · rw [filterMap_concat, harriving, List.append_assoc]
      rfl
    · rw [filterMap_concat]
      simpa [Action.handedOut] using hgone
    · rw [hwaiting, h.latency, List.map_append]
      rfl
  | @due nowMs e waiting hscheduled hdue =>
    -- the first that waits has been due, and goes
    obtain ⟨first, others, hrest⟩ : ∃ first others, rest = first :: others := by
      refine List.exists_cons_of_ne_nil fun hnil ↦ ?_
      rw [hwaiting, hnil] at hscheduled
      cases hscheduled
    rw [hwaiting, hrest, List.map_cons, List.cons.injEq] at hscheduled
    obtain ⟨rfl, rfl⟩ := hscheduled
    refine ⟨⟨gone ++ [first], others, ?_, ?_, rfl⟩, h.latency⟩
    · rw [filterMap_concat, harriving, hrest, List.append_cons]
      simp [Action.arriving]
    · rw [filterMap_concat]
      exact List.rel_append hgone (.cons ⟨rfl, hdue⟩ .nil)
  | nothingDue => exact h.of_eq rfl rfl rfl rfl
  | injected => exact h.of_eq rfl rfl rfl rfl
  | displaced => exact h.of_eq rfl rfl rfl rfl
  | nothingThere => exact h.of_eq rfl rfl rfl rfl
  | received => exact h.of_eq rfl rfl rfl rfl
  | tooLarge => exact h.of_eq rfl rfl rfl rfl
  | refused => exact h.of_eq rfl rfl rfl rfl
  | lost => exact h.of_eq rfl rfl rfl rfl
  | sent => exact h.of_eq rfl rfl rfl rfl

theorem deliverAt_mono {sentAtMs sentAtMs' : UInt64} (h : sentAtMs ≤ sentAtMs') :
    deliverAt latencyMs sentAtMs ≤ deliverAt latencyMs sentAtMs' := by
  rw [UInt64.le_iff_toNat_le] at h ⊢
  rw [deliverAt, deliverAt, UInt64.toNat_saturatingAdd, UInt64.toNat_saturatingAdd]
  exact min_le_min_right _ (Nat.add_le_add_right h _)

/-- **What is scheduled** is handed out in order, each message once and none before it is due. If
the clock of the sender does not go back, there is an answer exactly when some message is due. -/
theorem schedule_of_run (run : (system (withCapacityAndSeed latencyMs lossThreshold mtu
      inboxCapacity outboxCapacity seed)).Run tr t) :
    Scheduled latencyMs (tr.filterMap Action.arriving) (tr.filterMap Action.handedOut)
        t.scheduledInbox ∧
      ((tr.filterMap Action.arriving).Pairwise (fun e e' ↦ e.1 ≤ e'.1) →
        ∀ nowMs, (t.tryRecvAt nowMs).1.isSome = true ↔ ∃ e ∈ t.scheduledInbox, e.1 ≤ nowMs) := by
  have hkept : ScheduleKept latencyMs tr t := by
    refine run.invariant (I := ScheduleKept latencyMs) ?_ fun tr t a t' _ h hstep ↦
      h.step (does_of_perform hstep)
    rintro _ rfl
    exact ⟨⟨[], [], rfl, .nil, rfl⟩, rfl⟩
  refine ⟨hkept.scheduled, fun hclock nowMs ↦ ?_⟩
  obtain ⟨gone, rest, harriving, -, hwaiting⟩ := hkept.scheduled
  rw [harriving] at hclock
  have hrest := (List.pairwise_append.mp hclock).2.1
  rw [tryRecvAt]
  rcases rest with _ | ⟨first, others⟩
  · simp [hwaiting]
  rw [hwaiting, List.map_cons]
  dsimp only
  split
  · rename_i hdue
    exact iff_of_true rfl ⟨_, List.mem_cons_self, hdue⟩
  · rename_i hearly
    refine iff_of_false Bool.false_ne_true ?_
    rintro ⟨e, he, hdue⟩
    -- nothing that was sent later is due before the first
    refine hearly (UInt64.le_trans ?_ hdue)
    rcases List.mem_cons.mp he with rfl | he
    · exact UInt64.le_refl _
    · obtain ⟨later, hlater, rfl⟩ := List.mem_map.mp he
      exact deliverAt_mono ((List.pairwise_cons.mp hrest).1 later hlater)

theorem schedule_of_run_early : ∃ t, (system (withCapacityAndSeed 5 0 256 1 1 1)).Run
      [.schedule (note 1) 10, .recvAt 14 none, .recvAt 15 (some (note 1))] t ∧
    Scheduled 5 [(10, note 1)] [(15, note 1)] t.scheduledInbox := by
  obtain ⟨t, run⟩ := exists_run (withCapacityAndSeed 5 0 256 1 1 1)
    [.schedule (note 1) 10, .recvAt 14 none, .recvAt 15 (some (note 1))] (by decide +kernel)
  exact ⟨t, run, (schedule_of_run run).1⟩

/-! ## Sending -/

/-- The messages that are sent. -/
def Action.delivered : Action → Option TransportMessage
  | .send msg (.ok ()) => some msg
  | _ => none

/-- Whether the draw of the call lost the message, if it drew. -/
def Action.drawn : Action → Option Bool
  | .send _ (.ok ()) => some false
  | .send _ (.error .messageLost) => some true
  | _ => none

/-- The generator before the first draw. -/
def initialState (seed : UInt64) : UInt64 := if seed = 0 then DEFAULT_PRNG_SEED else seed

/-- Whether this draw, counted from zero, loses its message. -/
def loses (lossThreshold seed : UInt64) (n : ℕ) : Bool :=
  xorshift64^[n + 1] (initialState seed) < lossThreshold

theorem xorshift64_ne_zero {state : UInt64} (h : state ≠ 0) : xorshift64 state ≠ 0 := by
  intro hzero
  rw [xorshift64] at hzero
  have hsecond := UInt64.eq_zero_of_xor_shiftLeft (by decide) hzero
  have hfirst := UInt64.eq_zero_of_xor_shiftRight (by decide) hsecond
  exact h (UInt64.eq_zero_of_xor_shiftLeft (by decide) hfirst)

theorem iterate_xorshift64_ne_zero (seed : UInt64) (n : ℕ) :
    xorshift64^[n] (initialState seed) ≠ 0 := by
  induction n with
  | zero =>
    rw [Function.iterate_zero_apply, initialState]
    split
    · decide
    · assumption
  | succ n ih =>
    rw [Function.iterate_succ_apply']
    exact xorshift64_ne_zero ih

/-- What has become of the messages that were to be sent. -/
structure SendsKept (start : SimulatedTransport) (seed : UInt64) (tr : List Action)
    (t : SimulatedTransport) : Prop where
  outbox : t.outbox = tr.filterMap Action.delivered
  fits : ∀ msg ∈ t.outbox, msg.payload.length ≤ start.mtu
  length_le : t.outbox.length ≤ start.outboxCapacity
  drawn : tr.filterMap Action.drawn =
    (List.range (tr.filterMap Action.drawn).length).map (loses start.lossThreshold seed)
  state : t.rngState = xorshift64^[(tr.filterMap Action.drawn).length] (initialState seed)
  config : t.mtu = start.mtu ∧ t.outboxCapacity = start.outboxCapacity ∧
    t.lossThreshold = start.lossThreshold

theorem SendsKept.of_eq {start : SimulatedTransport} (h : SendsKept start seed tr t)
    (hdelivered : a.delivered = none) (hdrawn : a.drawn = none) (houtbox : t'.outbox = t.outbox)
    (hstate : t'.rngState = t.rngState) (hconfig : t'.mtu = t.mtu ∧
      t'.outboxCapacity = t.outboxCapacity ∧ t'.lossThreshold = t.lossThreshold) :
    SendsKept start seed (tr ++ [a]) t' := by
  have hall : (tr ++ [a]).filterMap Action.drawn = tr.filterMap Action.drawn := by
    rw [filterMap_concat, hdrawn, Option.toList_none, List.append_nil]
  obtain ⟨hmtu, hcapacity, hthreshold⟩ := hconfig
  obtain ⟨hmtu', hcapacity', hthreshold'⟩ := h.config
  refine ⟨?_, houtbox ▸ h.fits, houtbox ▸ h.length_le, ?_, ?_, ?_⟩
  · rw [houtbox, h.outbox, filterMap_concat, hdelivered, Option.toList_none, List.append_nil]
  · rw [hall]
    exact h.drawn
  · rw [hall, hstate, h.state]
  · exact ⟨hmtu.trans hmtu', hcapacity.trans hcapacity', hthreshold.trans hthreshold'⟩

/-- **A draw**: the generator moves on, and its new state decides. -/
theorem SendsKept.draw {start : SimulatedTransport} (h : SendsKept start seed tr t) {lost : Bool}
    (hdrawn : a.drawn = some lost)
    (hlost : lost = decide (xorshift64 t.rngState < t.lossThreshold)) :
    (tr ++ [a]).filterMap Action.drawn = (List.range
        ((tr ++ [a]).filterMap Action.drawn).length).map (loses start.lossThreshold seed) ∧
      xorshift64 t.rngState =
        xorshift64^[((tr ++ [a]).filterMap Action.drawn).length] (initialState seed) := by
  have hall : (tr ++ [a]).filterMap Action.drawn = tr.filterMap Action.drawn ++ [lost] := by
    rw [filterMap_concat, hdrawn]
    rfl
  have hnext : xorshift64 t.rngState =
      xorshift64^[(tr.filterMap Action.drawn).length + 1] (initialState seed) := by
    rw [h.state, Function.iterate_succ_apply']
  refine ⟨?_, ?_⟩
  · rw [hall, List.length_append, List.length_singleton, List.range_succ, List.map_append,
      ← h.drawn, hlost, h.config.2.2, hnext]
    rfl
  · rw [hall, List.length_append, List.length_singleton, hnext]

theorem SendsKept.step {start : SimulatedTransport} (h : SendsKept start seed tr t)
    (hdoes : Does t a t') : SendsKept start seed (tr ++ [a]) t' := by
  cases hdoes with
  | @lost msg hsize hroom hdraw =>
    obtain ⟨hdrawn, hstate⟩ := h.draw (a := .send msg (.error .messageLost)) rfl
      (decide_eq_true hdraw).symm
    refine ⟨?_, h.fits, h.length_le, hdrawn, hstate, h.config⟩
    rw [filterMap_concat, h.outbox]
    simp [Action.delivered]
  | @sent msg hsize hroom hdraw =>
    obtain ⟨hdrawn, hstate⟩ := h.draw (a := .send msg (.ok ())) rfl
      (decide_eq_false (UInt64.not_lt.mpr hdraw)).symm
    obtain ⟨hmtu, hcapacity, -⟩ := h.config
    refine ⟨?_, fun msg' hmsg' ↦ ?_, ?_, hdrawn, hstate, h.config⟩
    · rw [filterMap_concat, h.outbox]
      rfl
    · rcases List.mem_append.mp hmsg' with hold | hnew
      · exact h.fits msg' hold
      · exact List.mem_singleton.mp hnew ▸ hmtu ▸ hsize
    · rw [List.length_append, List.length_singleton, ← hcapacity]
      exact hroom
  | scheduled => exact h.of_eq rfl rfl rfl rfl ⟨rfl, rfl, rfl⟩
  | nothingDue => exact h.of_eq rfl rfl rfl rfl ⟨rfl, rfl, rfl⟩
  | due => exact h.of_eq rfl rfl rfl rfl ⟨rfl, rfl, rfl⟩
  | injected => exact h.of_eq rfl rfl rfl rfl ⟨rfl, rfl, rfl⟩
  | displaced => exact h.of_eq rfl rfl rfl rfl ⟨rfl, rfl, rfl⟩
  | nothingThere => exact h.of_eq rfl rfl rfl rfl ⟨rfl, rfl, rfl⟩
  | received => exact h.of_eq rfl rfl rfl rfl ⟨rfl, rfl, rfl⟩
  | tooLarge => exact h.of_eq rfl rfl rfl rfl ⟨rfl, rfl, rfl⟩
  | refused => exact h.of_eq rfl rfl rfl rfl ⟨rfl, rfl, rfl⟩

/-- **What is sent**, and what is lost: the outbox has the messages that went, each within the
limit, and the draws lose their messages in the pattern that the seed fixes. -/
theorem outbox_of_run (run : (system (withCapacityAndSeed latencyMs lossThreshold mtu inboxCapacity
      outboxCapacity seed)).Run tr t) :
    t.outbox = tr.filterMap Action.delivered ∧ t.outbox.length ≤ max outboxCapacity 1 ∧
      (∀ msg ∈ t.outbox, msg.payload.length ≤ mtu) ∧
      (tr.filterMap Action.drawn = (List.range (tr.filterMap Action.drawn).length).map
        (loses lossThreshold seed)) ∧
      t.rngState ≠ 0 := by
  have hkept : SendsKept (withCapacityAndSeed latencyMs lossThreshold mtu inboxCapacity
      outboxCapacity seed) seed tr t := by
    refine run.invariant (I := SendsKept _ seed) ?_ fun tr t a t' _ h hstep ↦
      h.step (does_of_perform hstep)
    rintro _ rfl
    exact ⟨rfl, fun _ h ↦ absurd h List.not_mem_nil, Nat.zero_le _, rfl, rfl, rfl, rfl, rfl⟩
  refine ⟨hkept.outbox, hkept.length_le, hkept.fits, hkept.drawn, ?_⟩
  rw [hkept.state]
  exact iterate_xorshift64_ne_zero seed _

theorem outbox_of_run_lossy : ∃ t,
    (system (withCapacityAndSeed 0 0x8000000000000000 2 1 1 1)).Run
      [.send (note 3) (.error (.payloadTooLarge 3 2)), .send (note 1) (.error .messageLost)] t ∧
    t.outbox = [] ∧ t.rngState ≠ 0 := by
  obtain ⟨t, run⟩ := exists_run (withCapacityAndSeed 0 0x8000000000000000 2 1 1 1)
    [.send (note 3) (.error (.payloadTooLarge 3 2)), .send (note 1) (.error .messageLost)]
    (by decide +kernel)
  obtain ⟨houtbox, -, -, -, hstate⟩ := outbox_of_run run
  exact ⟨t, run, houtbox, hstate⟩

end SimulatedTransport

end Arxia
