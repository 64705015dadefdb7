import SpeckitLog.Lib.Transition
import Mathlib.Data.Fintype.Basic

/-!
# A counter of permits

Threads announce a permit and then grant it, and somebody takes permits away.
The counter is meant to stay at most one.  It does when a permit is announced
only while none is there and none is announced; and when one is announced too
early, a schedule grants it on top of another.

## Main definitions

* `Permits.State`, `Permits.next` — the counter and the threads about to raise it.
* `Permits.Free` — no permit is there, and none is announced.
* `Permits.InTurn` — the guard: a permit is announced only when it is so.
* `Permits.AtZero` — whoever is about to raise the counter finds it at zero.

## Main results

* `Permits.atZero_of_inTurn`, `Permits.count_le_one` — the guard is enough.
* `Permits.not_atZero_of_early` — and nothing less is.
-/

namespace Permits

open Function Transition

variable {ι : Type*}

/-- The permits that are there, and the threads that have announced one. -/
structure State (ι : Type*) where
  count : ℕ
  pending : ι → Bool

/-- No permits, and nobody about to grant one. -/
def init (ι : Type*) : State ι := ⟨0, fun _ => false⟩

/-- What happens to the counter. -/
inductive Act (ι : Type*)
  | announce (i : ι)
  | grant (i : ι)
  /-- The counter is set to one, whatever it was. -/
  | saturate (i : ι)
  | take

/-- Nobody is about to grant a permit, and none is there. -/
def Free (s : State ι) : Prop := s.count = 0 ∧ ∀ i, s.pending i = false

instance [Fintype ι] (s : State ι) : Decidable (Free s) := inferInstanceAs (Decidable (_ ∧ _))

/-- A permit is announced only while there is none. -/
def InTurn (s : State ι) : Act ι → Prop
  | .announce _ => Free s
  | _ => True

/-- Whoever is about to grant a permit finds none. -/
def AtZero (s : State ι) : Prop := ∀ i, s.pending i = true → s.count = 0

variable [DecidableEq ι]

/-- One action, when it is possible. -/
def next (s : State ι) : Act ι → Option (State ι)
  | .announce i => if s.pending i then none else some { s with pending := update s.pending i true }
  | .grant i => if s.pending i then some ⟨s.count + 1, update s.pending i false⟩ else none
  | .saturate i => if s.pending i then some ⟨1, update s.pending i false⟩ else none
  | .take => if 0 < s.count then some { s with count := s.count - 1 } else none

variable {s s' : State ι} {i j : ι}

theorem next_announce (h : s.pending i = false) :
    next s (.announce i) = some { s with pending := update s.pending i true } :=
  if_neg (Bool.not_eq_true _ ▸ h)

theorem next_grant (h : s.pending i = true) :
    next s (.grant i) = some ⟨s.count + 1, update s.pending i false⟩ :=
  if_pos h

theorem next_saturate (h : s.pending i = true) :
    next s (.saturate i) = some ⟨1, update s.pending i false⟩ :=
  if_pos h

theorem next_take (h : 0 < s.count) : next s .take = some { s with count := s.count - 1 } :=
  if_pos h

/-- The invariant: one permit at most, there or announced. -/
structure AtMostOne (s : State ι) : Prop where
  count : s.count ≤ 1
  atZero : AtZero s
  alone : ∀ i j, s.pending i = true → s.pending j = true → i = j

omit [DecidableEq ι] in
theorem atMostOne_init : AtMostOne (init ι) where
  count := Nat.zero_le 1
  atZero _ h := absurd h Bool.false_ne_true
  alone _ _ h := absurd h Bool.false_ne_true

/-- After the only announcement. -/
theorem AtMostOne.announce (hfree : Free s) :
    AtMostOne { s with pending := update s.pending i true } := by
  have hself : ∀ j, update s.pending i true j = true → j = i := by
    intro j hj
    by_contra hji
    rw [update_of_ne hji, hfree.2 j] at hj
    exact Bool.false_ne_true hj
  refine ⟨?_, fun _ _ => hfree.1, fun j k hj hk => (hself j hj).trans (hself k hk).symm⟩
  show s.count ≤ 1
  rw [hfree.1]
  exact Nat.zero_le 1

/-- After a permit is granted: it was the only one announced. -/
theorem AtMostOne.granted (h : AtMostOne s) (hi : s.pending i = true) {n : ℕ} (hn : n ≤ 1) :
    AtMostOne ⟨n, update s.pending i false⟩ := by
  have hnone : ∀ j, update s.pending i false j ≠ true := by
    intro j hj
    by_cases hji : j = i
    · rw [hji, update_self] at hj
      exact Bool.false_ne_true hj
    · rw [update_of_ne hji] at hj
      exact hji (h.alone j i hj hi)
  exact ⟨hn, fun j hj => absurd hj (hnone j), fun j _ hj => absurd hj (hnone j)⟩

/-- **One action keeps the invariant.** -/
theorem AtMostOne.next {a : Act ι} (h : AtMostOne s) (hok : InTurn s a)
    (hnext : next s a = some s') : AtMostOne s' := by
  cases a with
  | announce i =>
    simp only [Permits.next, Option.ite_none_left_eq_some, Option.some.injEq] at hnext
    exact hnext.2 ▸ .announce hok
  | grant i =>
    simp only [Permits.next, Option.ite_none_right_eq_some, Option.some.injEq] at hnext
    obtain ⟨hi, rfl⟩ := hnext
    exact h.granted hi (by rw [h.atZero i hi])
  | saturate i =>
    simp only [Permits.next, Option.ite_none_right_eq_some, Option.some.injEq] at hnext
    obtain ⟨hi, rfl⟩ := hnext
    exact h.granted hi le_rfl
  | take =>
    simp only [Permits.next, Option.ite_none_right_eq_some, Option.some.injEq] at hnext
    obtain ⟨-, rfl⟩ := hnext
    refine ⟨(Nat.sub_le ..).trans h.count, fun i hi => ?_, h.alone⟩
    show s.count - 1 = 0
    rw [h.atZero i hi]

/-- In every run in turn there is one permit at most. -/
theorem atMostOne_of_inTurn (hs : Reachable next InTurn (init ι) s) : AtMostOne s :=
  hs.invariant atMostOne_init fun _ _ _ _ h hok hnext => h.next hok hnext

/-- **Permits in turn are granted at zero.** -/
theorem atZero_of_inTurn (hs : Reachable next InTurn (init ι) s) : AtZero s :=
  (atMostOne_of_inTurn hs).atZero

/-- The counter stays at most one. -/
theorem count_le_one (hs : Reachable next InTurn (init ι) s) : s.count ≤ 1 :=
  (atMostOne_of_inTurn hs).count

/-- **A permit announced too early is granted on top of another**: at once, or
after the one that was announced before it. -/
theorem not_atZero_of_early (hearly : ¬ Free s) (hnext : next s (.announce i) = some s') :
    ¬ AtZero s' ∨ ∃ j s'', next s' (.grant j) = some s'' ∧ ¬ AtZero s'' := by
  simp only [next, Option.ite_none_left_eq_some, Option.some.injEq] at hnext
  obtain ⟨hi, rfl⟩ := hnext
  by_cases hcount : s.count = 0
  · -- somebody else has announced a permit, and grants it first
    obtain ⟨j, hj⟩ : ∃ j, s.pending j = true := by
      by_contra! hnone
      exact hearly ⟨hcount, fun j => Bool.eq_false_iff.mpr (hnone j)⟩
    have hji : j ≠ i := by
      rintro rfl
      exact hi hj
    refine Or.inr ⟨j, _, next_grant ?_, fun h => ?_⟩
    · show update s.pending i true j = true
      rw [update_of_ne hji, hj]
    · refine absurd (h i ?_) (Nat.succ_ne_zero _)
      show update (update s.pending i true) j false i = true
      rw [update_of_ne hji.symm, update_self]
  · exact Or.inl fun h => hcount (h i (update_self ..))

end Permits
