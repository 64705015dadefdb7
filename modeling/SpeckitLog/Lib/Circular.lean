import SpeckitLog.Lib.SizeT
import Mathlib.Logic.Function.Basic
import Mathlib.Data.List.Range

/-!
# Bounded queues in circular arrays

A queue of at most `cap` entries, and the window of a circular array of `cap` slots
that holds it.  Positions count on without end; position `t` is in slot `t % cap`.

## Main definitions

* `BoundedFifo`, with `push` and `popAll` — a queue of at most `cap` entries.
* `window` — the entries from a position on.

## Main results

* `window_concat` — **writing the next position appends.**
* `window_congr` — a position may be reduced.
-/

open Function

variable {α : Type*} {cap : ℕ}

/-! ### The queue -/

/-- A queue of at most `cap` entries, the oldest first. -/
structure BoundedFifo (α : Type*) (cap : ℕ) where
  entries : List α
  bounded : entries.length ≤ cap

namespace BoundedFifo

/-- No entries. -/
def empty (α : Type*) (cap : ℕ) : BoundedFifo α cap := ⟨[], Nat.zero_le cap⟩

theorem length_concat_le {l : List α} (h : l.length < cap) (x : α) : (l ++ [x]).length ≤ cap := by
  rw [List.length_append, List.length_singleton]
  exact h

/-- `x` goes to the end if there is room. -/
def push (q : BoundedFifo α cap) (x : α) : Bool × BoundedFifo α cap :=
  if h : q.entries.length < cap then (true, ⟨q.entries ++ [x], length_concat_le h x⟩)
  else (false, q)

/-- All entries, and the queue without them. -/
def popAll (q : BoundedFifo α cap) : List α × BoundedFifo α cap := (q.entries, empty α cap)

theorem push_of_room {q : BoundedFifo α cap} (h : q.entries.length < cap) (x : α) :
    (q.push x).1 = true ∧ (q.push x).2.entries = q.entries ++ [x] := by
  rw [push, dif_pos h]
  exact ⟨rfl, rfl⟩

theorem push_of_full {q : BoundedFifo α cap} (h : cap ≤ q.entries.length) (x : α) :
    q.push x = (false, q) := dif_neg (Nat.not_lt.mpr h)

end BoundedFifo

/-! ### The array -/

/-- The `n` entries from position `t` on. -/
def window (cap : ℕ) (f : ℕ → α) (t n : ℕ) : List α :=
  (List.range n).map fun j => f ((t + j) % cap)

@[simp] theorem window_zero (f : ℕ → α) (t : ℕ) : window cap f t 0 = [] := rfl

theorem window_succ (f : ℕ → α) (t n : ℕ) :
    window cap f t (n + 1) = f (t % cap) :: window cap f (t + 1) n := by
  rw [window, List.range_succ_eq_map, List.map_cons, List.map_map, window]
  refine congrArg (f (t % cap) :: ·) (List.map_congr_left fun j _ => ?_)
  rw [Function.comp_apply, Nat.succ_eq_add_one, Nat.add_comm j 1, Nat.add_assoc]

/-- A position may be reduced. -/
theorem window_congr {t u : ℕ} (h : t % cap = u % cap) (f : ℕ → α) (n : ℕ) :
    window cap f t n = window cap f u n := by
  refine List.map_congr_left fun j _ => ?_
  rw [Nat.add_mod, h, ← Nat.add_mod]

/-- Other positions are not in the window. -/
theorem window_update {t n p : ℕ} (hn : t + n ≤ p) (hlt : p < t + cap) (f : ℕ → α) (x : α) :
    window cap (update f (p % cap) x) t n = window cap f t n := by
  refine List.map_congr_left fun j hj => ?_
  have hj := List.mem_range.mp hj
  refine update_of_ne (fun heq => ?_) _ _
  have := eq_of_mod_eq_of_window (by omega) (by omega) (Nat.le_of_add_right_le hn) hlt heq
  omega

/-- **Writing the next position appends**, as long as the window is not the whole array. -/
theorem window_concat {t n : ℕ} (hn : n < cap) (f : ℕ → α) (x : α) :
    window cap (update f ((t + n) % cap) x) t (n + 1) = window cap f t n ++ [x] := by
  have hold := window_update (p := t + n) le_rfl (Nat.add_lt_add_left hn t) f x
  rw [window, List.range_succ, List.map_append, ← window, hold, List.map_singleton, update_self]
