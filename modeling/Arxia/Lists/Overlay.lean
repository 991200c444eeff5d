import Mathlib.Data.List.Induction
import Mathlib.Logic.Function.Basic

/-!
# Pending edits over a map

A map from keys to values is changed by edits: each gives one key a value or takes its value away.
Edits that are kept back, at most one for each key, show the map as it will be: `view`. One more
edit kept back shows as one more edit carried out, so a map seen through the edits of a sequence is
the map after the sequence.

Carrying the edits out leaves, under each key, what the last edit to it wrote. When there is only
one for each key, that is the view, in whatever order they are carried out.
-/

namespace Lists

variable {κ ν : Type}

/-- The map as the pending edits show it. -/
def view (pending : κ → Option (Option ν)) (base : κ → Option ν) (k : κ) : Option ν :=
  (pending k).getD (base k)

variable {pending : κ → Option (Option ν)} {base : κ → Option ν} {k : κ}

theorem view_of_some {e : Option ν} (h : pending k = some e) : view pending base k = e := by
  rw [view, h, Option.getD_some]

variable [DecidableEq κ]

/-- The edits carried out, one after the other. -/
def carryOut (edits : List (κ × Option ν)) (base : κ → Option ν) : κ → Option ν :=
  edits.foldl (fun m e ↦ Function.update m e.1 e.2) base

/-- **One more pending edit** shows as one more edit carried out. -/
theorem view_update (pending : κ → Option (Option ν)) (base : κ → Option ν) (k : κ)
    (e : Option ν) :
    view (Function.update pending k (some e)) base = Function.update (view pending base) k e := by
  funext k'
  by_cases h : k' = k
  · subst h
    rw [view_of_some (Function.update_self k' (some e) pending), Function.update_self]
  · rw [Function.update_of_ne h, view, view, Function.update_of_ne h]

theorem carryOut_concat (edits : List (κ × Option ν)) (e : κ × Option ν) (base : κ → Option ν) :
    carryOut (edits ++ [e]) base = Function.update (carryOut edits base) e.1 e.2 := by
  rw [carryOut, List.foldl_append]
  rfl

/-- **The last edit to a key wins.** -/
theorem carryOut_eq_last (edits : List (κ × Option ν)) (base : κ → Option ν) (k : κ) :
    carryOut edits base k = ((edits.reverse.find? fun e ↦ e.1 = k).map Prod.snd).getD (base k) := by
  induction edits using List.reverseRecOn with
  | nil => rfl
  | append_singleton edits e ih =>
    rw [carryOut_concat, List.reverse_append, List.reverse_singleton, List.singleton_append,
      List.find?_cons]
    by_cases h : e.1 = k
    · subst h
      rw [Function.update_self, decide_eq_true rfl, Option.map_some, Option.getD_some]
    · rw [Function.update_of_ne (Ne.symm h), decide_eq_false h, ih]

/-- **In any order.** One edit for each key, carried out, leaves what they show. -/
theorem carryOut_eq_view {edits : List (κ × Option ν)}
    (hpending : ∀ k e, (k, e) ∈ edits ↔ pending k = some e) :
    carryOut edits base = view pending base := by
  funext k
  rw [carryOut_eq_last, view]
  congr 1
  cases hfind : edits.reverse.find? fun e ↦ e.1 = k with
  | none =>
    rw [Option.map_none, eq_comm, Option.eq_none_iff_forall_ne_some]
    intro e he
    have hne := List.find?_eq_none.mp hfind (k, e) (List.mem_reverse.mpr ((hpending k e).mpr he))
    exact hne (decide_eq_true rfl)
  | some e =>
    have hkey : e.1 = k := of_decide_eq_true (List.find?_eq_some_iff_append.mp hfind).1
    have hmem : e ∈ edits := List.mem_reverse.mp (List.mem_of_find?_eq_some hfind)
    rw [Option.map_some, ← hkey]
    exact ((hpending e.1 e.2).mp hmem).symm

end Lists
