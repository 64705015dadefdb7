import Mathlib.Logic.Function.Basic
import Mathlib.Data.Option.Basic
import Mathlib.Data.List.DropRight
import Mathlib.Tactic.Common

/-!
# Guarded runs of a transition system

A transition system is given by its step function `next : σ → α → Option σ`: the
state after action `a`, or `none` when `a` is not enabled.  A run is judged
against a *guard* `ok s a`, a condition on the action and on the state before
it; the plain runs are those of the trivial guard `Always`.

## Main definitions

* `Reachable next ok s₀ s` — `s` ends a run from `s₀` all of whose steps meet `ok`.
* `run next ok s as` — the state after the actions `as`, when all are enabled
  and meet the guard.
* `Rounds body n s s'` — the loop with this body goes round `n` times.
* `Recorded`, `recording next` — the system whose states remember the states that
  came before; `Recorded.since` is the part of them since a condition last failed.

## Main results

* `Reachable.invariant` — the induction rule.
* `Reachable.tighten` — a guard that an invariant implies may be assumed.
* `Reachable.bounded` — a bound on a quantity that never falls holds all along.
* `Reachable.project` — a system each of whose steps is a step of another, or
  invisible to it, has its runs.
* `Reachable.simulate` — the same, for a relation between the states.
* `Reachable.forget` — a run that remembers its states is a run.
* `exists_rounds`, `Rounds.invariant` — the variant and the invariant of a loop.
* `of_update`, `update_of_not`, with `eq_of_update_self`, `of_update_some` and
  `of_update_none` — what holds after a step of one party.
-/

namespace Transition

variable {σ τ α β : Type*}

/-- The guard every step meets. -/
def Always (_ : σ) (_ : α) : Prop := True

instance (s : σ) (a : α) : Decidable (Always s a) := isTrue trivial

/-- The states at the end of a run from `s₀` all of whose steps meet `ok`. -/
inductive Reachable (next : σ → α → Option σ) (ok : σ → α → Prop) (s₀ : σ) : σ → Prop
  | init : Reachable next ok s₀ s₀
  | step {s s' : σ} {a : α} (hs : Reachable next ok s₀ s) (hok : ok s a)
      (ha : next s a = some s') : Reachable next ok s₀ s'

/-- The state after a list of actions, if each of them is enabled and passes the
test `ok` in turn. -/
def run (next : σ → α → Option σ) (ok : σ → α → Bool) : σ → List α → Option σ
  | s, [] => some s
  | s, a :: as => if ok s a then (next s a).bind fun s' => run next ok s' as else none

variable {next : σ → α → Option σ} {ok ok' : σ → α → Prop} {s₀ s : σ}

/-- **The induction rule.**  What holds at the start and is kept by every
guarded step from a reachable state holds in every reachable state. -/
theorem Reachable.invariant {I : σ → Prop} (hs : Reachable next ok s₀ s) (h₀ : I s₀)
    (hstep : ∀ s a s', Reachable next ok s₀ s → I s → ok s a → next s a = some s' → I s') :
    I s := by
  induction hs with
  | init => exact h₀
  | step hs hok ha ih => exact hstep _ _ _ hs ih hok ha

/-- Runs that meet a guard meet every weaker one. -/
theorem Reachable.mono (hs : Reachable next ok s₀ s) (h : ∀ s a, ok s a → ok' s a) :
    Reachable next ok' s₀ s := by
  induction hs with
  | init => exact .init
  | step _ hok ha ih => exact .step ih (h _ _ hok) ha

/-- A guard that holds at every step from a reachable state may be assumed. -/
theorem Reachable.tighten (hs : Reachable next ok s₀ s)
    (h : ∀ s a s', Reachable next ok s₀ s → Reachable next ok' s₀ s → ok s a →
      next s a = some s' → ok' s a) :
    Reachable next ok' s₀ s := by
  induction hs with
  | init => exact .init
  | step hs hok ha ih => exact .step ih (h _ _ _ hs ih hok ha) ha

/-- **Bounds hold all along a run.**  If `m` never falls, a bound on it in the
last state is a bound after every step. -/
theorem Reachable.bounded {m : σ → ℕ} {n : ℕ} (hs : Reachable next ok s₀ s)
    (hm : ∀ s a s', next s a = some s' → m s ≤ m s') (hn : m s < n) :
    Reachable next (fun s a => ok s a ∧ ∀ s', next s a = some s' → m s' < n) s₀ s := by
  induction hs with
  | init => exact .init
  | step hs hok ha ih =>
    refine .step (ih (Nat.lt_of_le_of_lt (hm _ _ _ ha) hn)) ⟨hok, ?_⟩ ha
    intro s'' ha'
    rw [ha, Option.some.injEq] at ha'
    exact ha' ▸ hn

/-- **Projection.**  If every guarded step of one system is, seen through `f`,
either invisible or a guarded step of another, then `f` maps runs to runs. -/
theorem Reachable.project {next' : τ → β → Option τ} {ok' : τ → β → Prop} (f : σ → τ)
    (hs : Reachable next ok s₀ s)
    (h : ∀ s a s', Reachable next ok s₀ s → ok s a → next s a = some s' →
      f s' = f s ∨ ∃ b, ok' (f s) b ∧ next' (f s) b = some (f s')) :
    Reachable next' ok' (f s₀) (f s) := by
  induction hs with
  | init => exact .init
  | step hs hok ha ih =>
    rcases h _ _ _ hs hok ha with heq | ⟨b, hb, hstep⟩
    · rw [heq]; exact ih
    · exact .step ih hb hstep

/-- **Simulation.**  If every guarded step of one system keeps a relation with a state of
another, or with what a guarded step of the other makes of it, then each of its runs is
related to a run of the other. -/
theorem Reachable.simulate {next' : τ → β → Option τ} {ok' : τ → β → Prop} {R : σ → τ → Prop}
    {t₀ : τ} (hs : Reachable next ok s₀ s) (h₀ : R s₀ t₀)
    (h : ∀ s a s' t, ok s a → next s a = some s' → R s t →
      R s' t ∨ ∃ b t', ok' t b ∧ next' t b = some t' ∧ R s' t') :
    ∃ t, Reachable next' ok' t₀ t ∧ R s t := by
  induction hs with
  | init => exact ⟨t₀, .init, h₀⟩
  | step _ hok ha ih =>
    obtain ⟨t, ht, hR⟩ := ih
    rcases h _ _ _ t hok ha hR with hR' | ⟨b, t', hb, hstep, hR'⟩
    · exact ⟨t, ht, hR'⟩
    · exact ⟨t', .step ht hb hstep, hR'⟩

/-- Runs compose. -/
theorem Reachable.append {s' : σ} (hs : Reachable next ok s₀ s) (hs' : Reachable next ok s s') :
    Reachable next ok s₀ s' := by
  induction hs' with
  | init => exact hs
  | step _ hok ha ih => exact .step ih hok ha

/-- Executing actions that pass the test gives a guarded run. -/
theorem reachable_of_run {test : σ → α → Bool} {as : List α} {s : σ}
    (h : run next test s₀ as = some s) : Reachable next (fun s a => test s a = true) s₀ s := by
  induction as generalizing s₀ with
  | nil =>
    simp only [run, Option.some.injEq] at h
    exact h ▸ .init
  | cons a as ih =>
    simp only [run] at h
    split at h
    · next hok =>
      rw [Option.bind_eq_some_iff] at h
      obtain ⟨s₁, ha, h⟩ := h
      exact Reachable.append (.step .init hok ha) (ih h)
    · exact absurd h (by simp)

/-- Actions one after the other. -/
theorem run_append (test : σ → α → Bool) (as bs : List α) (s : σ) :
    run next test s (as ++ bs) = (run next test s as).bind fun s' => run next test s' bs := by
  induction as generalizing s with
  | nil => rfl
  | cons a as ih =>
    simp only [List.cons_append, run]
    split
    · rw [Option.bind_assoc]
      exact congrArg _ (funext fun s' => ih s')
    · rfl

/-- Executing actions that pass the test, and all of which are allowed, gives a run guarded
by both. -/
theorem reachable_of_tested {test : σ → α → Bool} {ok : α → Prop} {as : List α} {s : σ}
    (h : run next test s₀ as = some s) (hall : ∀ a ∈ as, ok a) :
    Reachable next (fun s a => test s a = true ∧ ok a) s₀ s := by
  induction as generalizing s₀ with
  | nil => exact Option.some.inj h ▸ .init
  | cons a as ih =>
    simp only [run] at h
    split at h
    · next htest =>
      obtain ⟨s₁, ha, h⟩ := Option.bind_eq_some_iff.mp h
      have hfirst : Reachable next (fun s a => test s a = true ∧ ok a) s₀ s₁ :=
        .step .init ⟨htest, hall a List.mem_cons_self⟩ ha
      exact hfirst.append (ih h fun b hb => hall b (List.mem_cons_of_mem a hb))
    · contradiction

/-- Executing actions all of which are allowed gives a guarded run. -/
theorem reachable_of_forall {ok : α → Prop} {as : List α} {s : σ}
    (h : run next (fun _ _ => true) s₀ as = some s) (hall : ∀ a ∈ as, ok a) :
    Reachable next (fun _ a => ok a) s₀ s :=
  (reachable_of_tested h hall).mono fun _ _ hok => hok.2

/-- A trace that can be executed and ends where the test `p` holds reaches a
state that passes `p`. -/
theorem exists_reachable_of_run (next : σ → α → Option σ) (s₀ : σ) (p : σ → Bool)
    (test : σ → α → Bool) (as : List α)
    (h : (run next test s₀ as).any p = true) :
    ∃ s, Reachable next (fun s a => test s a = true) s₀ s ∧ p s = true := by
  cases hr : run next test s₀ as with
  | none => simp [hr] at h
  | some s => exact ⟨s, reachable_of_run hr, by simpa [hr] using h⟩

/-- The same, for a guard and a test that can be decided. -/
theorem exists_reachable_of_decide (next : σ → α → Option σ) (s₀ : σ) (p : σ → Prop)
    [DecidablePred p] (ok : σ → α → Prop) [∀ s a, Decidable (ok s a)] (as : List α)
    (h : (run next (fun s a => decide (ok s a)) s₀ as).any (fun s => decide (p s)) = true) :
    ∃ s, Reachable next ok s₀ s ∧ p s := by
  obtain ⟨s, hs, hp⟩ := exists_reachable_of_run next s₀ _ _ as h
  exact ⟨s, hs.mono fun s a hok => of_decide_eq_true hok, of_decide_eq_true hp⟩

/-! ### Loops -/

/-- The loop goes round `n` times from `s` and ends in `s'`; where its condition fails,
the body has no result. -/
inductive Rounds (body : σ → Option σ) : ℕ → σ → σ → Prop
  | stop {s : σ} (h : body s = none) : Rounds body 0 s s
  | round {n : ℕ} {s s₁ s' : σ} (h : body s = some s₁) (hrest : Rounds body n s₁ s') :
      Rounds body (n + 1) s s'

section Rounds

variable {body : σ → Option σ} {s' s'' : σ} {m n : ℕ}

/-- **A variant counts the rounds**: it falls by one in each, and the loop ends where it
is zero. -/
theorem exists_rounds (variant : σ → ℕ) (hstop : ∀ s, variant s = 0 → body s = none)
    (hround : ∀ s n, variant s = n + 1 → ∃ s', body s = some s' ∧ variant s' = n) (s : σ) :
    ∃ s', Rounds body (variant s) s s' := by
  generalize hn : variant s = n
  induction n generalizing s with
  | zero => exact ⟨s, .stop (hstop s hn)⟩
  | succ n ih =>
    obtain ⟨s₁, hbody, hn₁⟩ := hround s n hn
    obtain ⟨s', hrest⟩ := ih s₁ hn₁
    exact ⟨s', .round hbody hrest⟩

/-- **The invariant of a loop** holds where it ends, and its condition fails there. -/
theorem Rounds.invariant {I : σ → Prop} (h : Rounds body n s s') (h₀ : I s)
    (hbody : ∀ s s', I s → body s = some s' → I s') : I s' ∧ body s' = none := by
  induction h with
  | stop hstop => exact ⟨h₀, hstop⟩
  | round h _ ih => exact ih (hbody _ _ h₀ h)

/-- A loop has one number of rounds and one end. -/
theorem Rounds.unique (h : Rounds body n s s') (h' : Rounds body m s s'') :
    n = m ∧ s' = s'' := by
  induction h generalizing m with
  | stop hstop =>
    cases h' with
    | stop _ => exact ⟨rfl, rfl⟩
    | round h _ => exact absurd (hstop.symm.trans h) (by simp)
  | round h _ ih =>
    cases h' with
    | stop hstop => exact absurd (hstop.symm.trans h) (by simp)
    | round h₁ hrest =>
      obtain rfl := Option.some.inj (h.symm.trans h₁)
      obtain ⟨rfl, rfl⟩ := ih hrest
      exact ⟨rfl, rfl⟩

end Rounds

/-! ### Runs that remember their states -/

/-- A state, and the states of the run before it. -/
structure Recorded (σ : Type*) where
  past : List σ
  now : σ

/-- The system that remembers its states. -/
def recording (next : σ → α → Option σ) (r : Recorded σ) (a : α) : Option (Recorded σ) :=
  (next r.now a).map fun s => ⟨r.past ++ [r.now], s⟩

/-- The present state, and the ones before it back to where `p` fails. -/
def Recorded.since (p : σ → Bool) (r : Recorded σ) : List σ := r.past.rtakeWhile p ++ [r.now]

theorem Recorded.now_mem_since (p : σ → Bool) (r : Recorded σ) : r.now ∈ r.since p :=
  List.mem_append_right _ (List.mem_singleton_self _)

theorem of_recording {r r' : Recorded σ} {a : α} (h : recording next r a = some r') :
    next r.now a = some r'.now ∧ r'.past = r.past ++ [r.now] := by
  obtain ⟨s, hs, rfl⟩ := Option.map_eq_some_iff.mp h
  exact ⟨hs, rfl⟩

/-- While the condition holds, the states since it failed are kept. -/
theorem Recorded.since_of_pos {p : σ → Bool} {r r' : Recorded σ} {a : α}
    (h : recording next r a = some r') (hp : p r.now = true) :
    r'.since p = r.since p ++ [r'.now] := by
  unfold Recorded.since
  rw [(of_recording h).2, List.rtakeWhile_concat_pos _ _ _ hp]

theorem Recorded.since_subset {p : σ → Bool} {r r' : Recorded σ} {a : α}
    (h : recording next r a = some r') (hp : p r.now = true) : r.since p ⊆ r'.since p := by
  rw [Recorded.since_of_pos h hp]
  exact List.subset_append_left _ _

/-- Where it fails, they begin anew. -/
theorem Recorded.since_of_neg {p : σ → Bool} {r r' : Recorded σ} {a : α}
    (h : recording next r a = some r') (hp : p r.now = false) : r'.since p = [r'.now] := by
  unfold Recorded.since
  rw [(of_recording h).2, List.rtakeWhile_concat_neg _ _ _ (by rw [hp]; exact Bool.false_ne_true)]
  rfl

/-- Remembering changes no run. -/
theorem Reachable.forget {r : Recorded σ}
    (hr : Reachable (recording next) (fun r a => ok r.now a) ⟨[], s₀⟩ r) :
    Reachable next ok s₀ r.now :=
  hr.project Recorded.now fun _ _ _ _ hok h => Or.inr ⟨_, hok, (of_recording h).1⟩

/-! ### After a step of one party -/

section Update

variable {ι ε : Type*} [DecidableEq ι] {i j : ι}

/-- What holds of a party after one of them has changed. -/
theorem of_update {g : ι → β} {x : β} {P : β → Prop} (h : P (Function.update g i x j)) :
    j = i ∧ P x ∨ j ≠ i ∧ P (g j) := by
  by_cases hji : j = i
  · rw [hji, Function.update_self] at h
    exact Or.inl ⟨hji, h⟩
  · rw [Function.update_of_ne hji] at h
    exact Or.inr ⟨hji, h⟩

/-- What holds of a party that is not the one that changes still holds. -/
theorem update_of_not {g : ι → β} {x : β} {P : β → Prop} (h : P (g j)) (hi : ¬ P (g i)) :
    P (Function.update g i x j) := by
  have hji : j ≠ i := by
    rintro rfl
    exact hi h
  rwa [Function.update_of_ne hji]

/-- The one that has changed. -/
theorem eq_of_update_self {g : ι → β} {x y : β} (h : Function.update g i x i = y) : x = y := by
  rwa [Function.update_self] at h

variable {f : ι → Option ε} {x y : ε}

/-- Who is there after one has been set. -/
theorem of_update_some (h : Function.update f i (some x) j = some y) :
    j = i ∧ x = y ∨ j ≠ i ∧ f j = some y := by
  refine (of_update (P := fun o => o = some y) h).imp_left fun ⟨hji, hxy⟩ => ⟨hji, ?_⟩
  exact Option.some.inj hxy

/-- Who is there after one has gone. -/
theorem of_update_none (h : Function.update f i none j = some y) : j ≠ i ∧ f j = some y := by
  refine (of_update (P := fun o => o = some y) h).resolve_left fun ⟨_, hnone⟩ => ?_
  contradiction

end Update

end Transition
