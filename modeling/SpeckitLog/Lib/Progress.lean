import SpeckitLog.Lib.Transition

/-!
# Runs that come to an end

Where every state that is not done has a step that lowers a variant, so many steps as
the variant says are enough.

## Main definitions

* `StepsTo next ok n s s'` — `n` guarded steps lead from `s` to `s'`.

## Main results

* `stepsTo_of_variant` — a variant bounds the steps to a state that is done.
* `exists_serve_of_rank` — in a run, a rank that the steps of one party lower bounds the
  steps of that party before a request is served, whatever the others do in between.
-/

namespace Transition

variable {σ α : Type*}

/-- `n` steps that meet `ok` lead from `s` to `s'`. -/
inductive StepsTo (next : σ → α → Option σ) (ok : σ → α → Prop) : ℕ → σ → σ → Prop
  | refl {s : σ} : StepsTo next ok 0 s s
  | step {n : ℕ} {s s₁ s' : σ} {a : α} (hok : ok s a) (ha : next s a = some s₁)
      (hrest : StepsTo next ok n s₁ s') : StepsTo next ok (n + 1) s s'

variable {next : σ → α → Option σ} {ok ok' : σ → α → Prop} {s s' : σ} {n : ℕ}

theorem StepsTo.reachable (h : StepsTo next ok n s s') : Reachable next ok s s' := by
  induction h with
  | refl => exact .init
  | step hok ha _ ih => exact (Reachable.step .init hok ha).append ih

/-- What every guarded step keeps holds where the steps lead. -/
theorem StepsTo.invariant {I : σ → Prop} (h : StepsTo next ok n s s') (h₀ : I s)
    (hstep : ∀ s a s', I s → ok s a → next s a = some s' → I s') : I s' :=
  h.reachable.invariant h₀ fun s a s' _ => hstep s a s'

/-- **A variant bounds the steps.**  While the invariant `I` holds and nothing is done,
some guarded step keeps `I` and lowers `V`; so at most `V s` steps lead from `s` to where
it is done. -/
theorem stepsTo_of_variant (next : σ → α → Option σ) (ok : σ → α → Prop) (done : σ → Prop)
    {I : σ → Prop} (V : σ → ℕ)
    (hstep : ∀ s, I s → ¬ done s → ∃ a s', ok s a ∧ next s a = some s' ∧ I s' ∧ V s' < V s)
    (h₀ : I s) : ∃ n ≤ V s, ∃ s', StepsTo next ok n s s' ∧ I s' ∧ done s' := by
  generalize hv : V s = v
  induction v using Nat.strong_induction_on generalizing s with
  | _ v ih =>
    by_cases hdone : done s
    · exact ⟨0, Nat.zero_le v, s, .refl, h₀, hdone⟩
    · obtain ⟨a, s₁, hok, ha, h₁, hlt⟩ := hstep s h₀ hdone
      rw [hv] at hlt
      obtain ⟨n, hn, s', hrest, h', hdone'⟩ := ih (V s₁) hlt h₁ rfl
      exact ⟨n + 1, by omega, s', .step hok ha hrest, h', hdone'⟩

/-- **A request is served in time.**  While the invariant `I` holds, the rank is positive, and
each step serves the request, or keeps `I` and does not raise the rank; a step of the party
that `ours` picks lowers it.  So a run with as many of its steps as the rank says serves the
request. -/
theorem exists_serve_of_rank {serves : σ → α → Prop} {I : σ → Prop} {ok : α → Prop} {as : List α}
    (V : σ → ℕ) (ours : α → Bool) (hpos : ∀ s, I s → 0 < V s)
    (hstep : ∀ s a s', I s → ok a → next s a = some s' →
      serves s a ∨ I s' ∧ V s' + [a].countP ours ≤ V s)
    (h₀ : I s) (hrun : run next (fun _ _ => true) s as = some s') (hall : ∀ a ∈ as, ok a)
    (hcount : V s ≤ as.countP ours) :
    ∃ before a after s₁, as = before ++ a :: after ∧
      run next (fun _ _ => true) s before = some s₁ ∧ serves s₁ a := by
  induction as generalizing s with
  | nil => exact absurd (hpos s h₀) (by simpa using hcount)
  | cons a as ih =>
    simp only [run, if_true] at hrun
    obtain ⟨s₁, ha, hrun⟩ := Option.bind_eq_some_iff.mp hrun
    rcases hstep s a s₁ h₀ (hall a List.mem_cons_self) ha with hserves | ⟨h₁, hle⟩
    · exact ⟨[], a, as, s, rfl, rfl, hserves⟩
    · have hsplit : (a :: as).countP ours = [a].countP ours + as.countP ours := by
        rw [← List.countP_append]
        rfl
      obtain ⟨before, b, after, s₂, rfl, hbefore, hserves⟩ :=
        ih h₁ hrun (fun b hb => hall b (List.mem_cons_of_mem a hb)) (by omega)
      refine ⟨a :: before, b, after, s₂, rfl, ?_, hserves⟩
      simp only [run, if_true]
      rw [ha]
      exact hbefore

end Transition
