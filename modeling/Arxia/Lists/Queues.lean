import Mathlib.Data.List.Nodup
import Mathlib.Data.List.TakeWhile
import Mathlib.Order.Lattice

/-!
# Queues and what has left them

A buffer takes new elements at the back and gives up old ones at the front, so its history is what
has gone followed by what is left. Three such queues differ in what they remember of what has gone:

* a `Window` counts it, up to a limit at which the counter stops;
* a `Channel` has had some of it received and counts the rest as lost, so that what was received is
  in the order in which it was sent, and is all of it as long as the counter is zero;
* a `Recent` buffer knows that it is older than the last of the cutoffs, so that it is missed by no
  question about the events from then on. For that the buffer need not be in order.
-/

namespace Lists

/-! ## Windows -/

section Window

variable {α : Type} {limit dropped dropped' : ℕ} {history buffer buffer' new gone : List α}

/-- What is left of a history whose first elements have gone, which are counted up to a limit. -/
structure Window (limit : ℕ) (history buffer : List α) (dropped : ℕ) : Prop where
  exists_gone : ∃ gone, history = gone ++ buffer ∧ dropped = min gone.length limit

namespace Window

/-- Nothing has come, and nothing has gone. -/
theorem start (limit : ℕ) : Window limit ([] : List α) [] 0 := ⟨[], rfl, (Nat.zero_min limit).symm⟩

/-- **One round**: new elements at the back, old ones gone from the front. -/
theorem advance (h : Window limit history buffer dropped) (hround : buffer ++ new = gone ++ buffer')
    (hcount : dropped' = min (dropped + gone.length) limit) :
    Window limit (history ++ new) buffer' dropped' := by
  obtain ⟨before, rfl, rfl⟩ := h.exists_gone
  refine ⟨before ++ gone, ?_, ?_⟩
  · rw [List.append_assoc, hround, List.append_assoc]
  · rw [hcount, List.length_append]
    omega

/-- Below the limit the counter is what has come, less what is left. -/
theorem dropped_eq (h : Window limit history buffer dropped) (hlt : dropped < limit) :
    dropped = history.length - buffer.length := by
  obtain ⟨before, rfl, rfl⟩ := h.exists_gone
  rw [List.length_append]
  omega

/-- The buffer is the end of the history. -/
theorem isSuffix (h : Window limit history buffer dropped) : buffer <:+ history := by
  obtain ⟨before, rfl, -⟩ := h.exists_gone
  exact List.suffix_append before buffer

end Window

/-- What has gone in a round, of elements that were there once, are those that are not left. -/
theorem mem_gone_iff (hround : buffer ++ new = gone ++ buffer') (hnodup : (buffer ++ new).Nodup)
    {x : α} : x ∈ gone ↔ (x ∈ buffer ∨ x ∈ new) ∧ x ∉ buffer' := by
  have hdisjoint := (List.nodup_append.mp (hround ▸ hnodup)).2.2
  rw [← List.mem_append, hround, List.mem_append]
  constructor
  · exact fun hx ↦ ⟨Or.inl hx, fun hx' ↦ hdisjoint x hx x hx' rfl⟩
  · rintro ⟨hx | hx, hx'⟩
    · exact hx
    · exact absurd hx hx'

end Window

/-! ## Channels that may lose the oldest -/

section Channel

variable {α : Type} {limit lost lost' : ℕ} {sent received buffer : List α} {x : α}

/-- A history of what was sent, of which some has been received and some is still there. -/
structure Channel (limit : ℕ) (sent received buffer : List α) (lost : ℕ) : Prop where
  exists_gone : ∃ gone, sent = gone ++ buffer ∧ received.Sublist gone ∧
    lost = min (gone.length - received.length) limit

namespace Channel

/-- Nothing has been sent. -/
theorem start (limit : ℕ) : Channel limit ([] : List α) [] [] 0 :=
  ⟨[], rfl, List.Sublist.refl [], (Nat.zero_min limit).symm⟩

theorem send (h : Channel limit sent received buffer lost) (x : α) :
    Channel limit (sent ++ [x]) received (buffer ++ [x]) lost := by
  obtain ⟨gone, rfl, hsub, rfl⟩ := h.exists_gone
  exact ⟨gone, List.append_assoc _ _ _, hsub, rfl⟩

theorem receive (h : Channel limit sent received (x :: buffer) lost) :
    Channel limit sent (received ++ [x]) buffer lost := by
  obtain ⟨gone, rfl, hsub, rfl⟩ := h.exists_gone
  refine ⟨gone ++ [x], List.append_cons _ _ _, hsub.append_right [x], ?_⟩
  rw [List.length_append, List.length_append, Nat.add_sub_add_right]

theorem lose (h : Channel limit sent received (x :: buffer) lost)
    (hlost : lost' = min (lost + 1) limit) : Channel limit sent received buffer lost' := by
  obtain ⟨gone, rfl, hsub, rfl⟩ := h.exists_gone
  refine ⟨gone ++ [x], List.append_cons _ _ _, hsub.trans (List.sublist_append_left _ _), ?_⟩
  have hle := hsub.length_le
  rw [hlost, List.length_append, List.length_singleton]
  omega

/-- **Nothing is lost** while the counter is zero. -/
theorem eq_of_lost (h : Channel limit sent received buffer 0) (hlimit : 0 < limit) :
    sent = received ++ buffer := by
  obtain ⟨gone, rfl, hsub, hlost⟩ := h.exists_gone
  rw [hsub.eq_of_length_le (by omega)]

end Channel

end Channel

/-! ## Buffers that forget what is old -/

section Recent

variable {α τ : Type} [Preorder τ] {time : α → τ} {cutoff cutoff' : τ} {history buffer : List α}

/-- The buffer is the history without some first events, all of them older than the cutoff. -/
structure Recent (time : α → τ) (cutoff : τ) (history buffer : List α) : Prop where
  exists_gone : ∃ gone, history = gone ++ buffer ∧ ∀ e ∈ gone, time e < cutoff

namespace Recent

theorem start (time : α → τ) (cutoff : τ) : Recent time cutoff [] [] :=
  ⟨[], rfl, fun _ h ↦ absurd h List.not_mem_nil⟩

/-- New events come at the back. -/
theorem push (h : Recent time cutoff history buffer) (new : List α) :
    Recent time cutoff (history ++ new) (buffer ++ new) := by
  obtain ⟨gone, rfl, hold⟩ := h.exists_gone
  exact ⟨gone, List.append_assoc gone buffer new, hold⟩

/-- **Old events go** from the front, at a cutoff that is no later. -/
theorem prune [DecidableLT τ] (h : Recent time cutoff history buffer) (hle : cutoff' ≤ cutoff) :
    Recent time cutoff history (buffer.dropWhile fun e ↦ time e < cutoff') := by
  obtain ⟨gone, rfl, hold⟩ := h.exists_gone
  refine ⟨gone ++ buffer.takeWhile fun e ↦ time e < cutoff', ?_, fun e he ↦ ?_⟩
  · rw [List.append_assoc, List.takeWhile_append_dropWhile]
  · rcases List.mem_append.mp he with hgone | htaken
    · exact hold e hgone
    · have htest := List.mem_takeWhile_imp htaken
      exact lt_of_lt_of_le (of_decide_eq_true htest) hle

/-- **Nothing is missed** of what is no older than the cutoff. -/
theorem filter_eq [DecidableLE τ] (h : Recent time cutoff history buffer) :
    (history.filter fun e ↦ cutoff ≤ time e) = buffer.filter fun e ↦ cutoff ≤ time e := by
  obtain ⟨gone, rfl, hold⟩ := h.exists_gone
  have hnone : (gone.filter fun e ↦ cutoff ≤ time e) = [] :=
    List.filter_eq_nil_iff.mpr fun e he ↦ by simpa using not_le_of_gt (hold e he)
  rw [List.filter_append, hnone, List.nil_append]

/-- What is in the buffer has happened. -/
theorem mem_history (h : Recent time cutoff history buffer) {e : α} (he : e ∈ buffer) :
    e ∈ history := by
  obtain ⟨gone, rfl, -⟩ := h.exists_gone
  exact List.mem_append_right gone he

end Recent

end Recent

end Lists
