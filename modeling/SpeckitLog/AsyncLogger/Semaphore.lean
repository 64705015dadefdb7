import SpeckitLog.AsyncLogger.Stepwise
import SpeckitLog.AsyncLogger.Wakeup
import SpeckitLog.Lib.Permits

/-!
# The precondition of the semaphore

`sem_` is a `std::counting_semaphore<1>`, and `release()` may be called only when
the counter is below the maximum it declares.  A `log` call releases it after
every push that the queue took, and `deinitialize` releases it once more; nothing
makes them wait for the writer, so the second of two quick calls finds the counter
at one.  The releases keep to the precondition as long as each of them is due only
after the writer has acquired the permit of the one before.

## Main definitions

* `Control.ReleasesAtZero` — who is about to call `release()` finds the counter at zero.
* `Control.permits` — the logger as a counter of permits.
* `Stepwise.InTurn` — the guard: a release becomes due only when none is due and
  the counter is zero.

## Main results

* `Stepwise.releasesAtZero`, `Stepwise.not_releasesAtZero_two_calls`.
* `Stepwise.release_eq_saturate` — then a library that saturates behaves as one
  that counts.
* `Stepwise.not_releasesAtZero_of_early` — a release that becomes due too early
  breaks the precondition in some continuation.
-/

namespace SpeckitLog
namespace AsyncLogger

open Function Transition

variable {ι ε : Type*}

/-- The next step releases the semaphore: the test. -/
def Pc.releases : Pc ι ε → Bool
  | .release | .releaseStop => true
  | _ => false

theorem Pc.releases_iff {p : Pc ι ε} : p.releases = true ↔ p.Releases := by
  cases p with
  | release | releaseStop => exact iff_of_true rfl trivial
  | _ => exact iff_of_false Bool.false_ne_true not_false

theorem Pc.eq_of_releases {p : Pc ι ε} (h : p.releases = true) :
    p = .release ∨ p = .releaseStop := by
  cases p with
  | release => exact Or.inl rfl
  | releaseStop => exact Or.inr rfl
  | _ => exact absurd h Bool.false_ne_true

/-- **The precondition of `release()`**: a thread that is about to call it finds the
counter below its maximum, at zero. -/
def Control.ReleasesAtZero (c : Control ι ε) : Prop := ∀ i, (c.pc i).Releases → c.sem = 0

/-- The semaphore and the threads about to release it. -/
def Control.permits (c : Control ι ε) : Permits.State (Thread ι) :=
  ⟨c.sem, fun i => (c.pc i).releases⟩

theorem Control.releasesAtZero_iff {c : Control ι ε} :
    c.ReleasesAtZero ↔ Permits.AtZero c.permits :=
  forall_congr' fun _ => imp_congr_left Pc.releases_iff.symm

variable [DecidableEq ι] {c c' : Control ι ε} {i : Thread ι} {p : Pc ι ε} {a : Act ε}

/-- One thread moves, and the semaphore becomes `n`. -/
theorem Control.permits_of_pc {n : ℕ} {b : Bool} (hpc : c'.pc = update c.pc i p)
    (hsem : c'.sem = n) (hp : p.releases = b) :
    c'.permits = ⟨n, update c.permits.pending i b⟩ := by
  unfold Control.permits
  rw [hpc, hsem, ← hp]
  exact congrArg _ (comp_update Pc.releases c.pc i p)

/-- The same for a thread that is about to release neither before nor after. -/
theorem Control.permits_of_quiet {n : ℕ} (hpc : c'.pc = update c.pc i p) (hsem : c'.sem = n)
    (hp : p.releases = (c.pc i).releases) : c'.permits = ⟨n, c.permits.pending⟩ := by
  rw [permits_of_pc hpc hsem hp]
  exact congrArg _ (update_eq_self i c.permits.pending)

/-- **A release grants a permit.** -/
theorem Control.permits_of_release (hr : (c.pc i).releases = true) (h : c.next i a = some c') :
    Permits.next c.permits (.grant i) = some c'.permits ∨
      Permits.next c.permits (.saturate i) = some c'.permits := by
  have hpending : c.permits.pending i = true := hr
  unfold Control.next at h
  rcases Pc.eq_of_releases hr with hpc | hpc
  all_goals
    rw [hpc] at h
    cases a with
    | step =>
      obtain rfl := Option.some.inj h
      rw [Permits.next_grant hpending]
      exact Or.inl (congrArg some (Eq.symm (permits_of_pc rfl rfl rfl)))
    | saturate =>
      obtain rfl := Option.some.inj h
      rw [Permits.next_saturate hpending]
      exact Or.inr (congrArg some (Eq.symm (permits_of_pc rfl rfl rfl)))
    | _ => contradiction

/-- **A stop request announces a permit.** -/
theorem Control.permits_of_requestStop (hpc : c.pc i = .requestStop) (h : c.next i a = some c') :
    Permits.next c.permits (.announce i) = some c'.permits := by
  have hr : (c.pc i).releases = false := by rw [hpc]; rfl
  unfold Control.next at h
  rw [hpc] at h
  cases a with
  | step =>
    obtain rfl := Option.some.inj h
    exact (Permits.next_announce hr).trans (congrArg some (Eq.symm (permits_of_pc rfl rfl rfl)))
  | _ => contradiction

/-- **The other steps that touch neither buffer** take a permit, or change nothing. -/
theorem Control.Step.permits (h : Control.Step c i a c') (hr : (c.pc i).releases = false)
    (hstop : c.pc i ≠ .requestStop) :
    c'.permits = c.permits ∨ Permits.next c.permits .take = some c'.permits := by
  have hquiet : ∀ p, p.releases = false → c'.sem = c.sem → c'.pc = update c.pc i p →
      c'.permits = c.permits := by
    intro p hp hsem hpc
    exact permits_of_quiet hpc hsem (hp.trans hr.symm)
  cases h with
  | setLogLevel => exact Or.inl rfl
  | @acquire hpc hpos =>
    refine Or.inr ((Permits.next_take hpos).trans ?_)
    exact congrArg some (Eq.symm (permits_of_quiet rfl rfl hr.symm))
  | requestStop hpc => exact absurd hpc hstop
  | release hpc | releaseStop hpc =>
    rw [hpc] at hr
    contradiction
  | @written k hpc => exact Or.inl (hquiet k.pc (by cases k <;> rfl) rfl rfl)
  | _ => exact Or.inl (hquiet _ rfl rfl rfl)

namespace Stepwise

variable {cap : ℕ} {dflt : LogCall ι ε} {s s' : State ι ε}

omit [DecidableEq ι] in
/-- In its next step the thread makes a release due: the `tryPush` of its `log` call
returns `true`, or `deinitialize` requests the stop. -/
def State.announces (s : State ι ε) (i : Thread ι) : Bool :=
  match s.control.pc i with
  | .queuePush _ => (match s.queue.pc i with
    | .pushed ok => ok
    | _ => false)
  | .requestStop => true
  | _ => false

/-- **A release becomes due only in turn**: the writer has acquired what was
released, and no other thread is about to release. -/
def InTurn (s : State ι ε) (a : Thread ι × Act ε) : Prop :=
  s.announces a.1 = true → Permits.Free s.control.permits

instance [Fintype ι] (s : State ι ε) (a : Thread ι × Act ε) : Decidable (InTurn s a) :=
  inferInstanceAs (Decidable (_ → _))

omit [DecidableEq ι] in
theorem announces_iff : s.announces i = true ↔
    s.control.pc i = .requestStop ∨
      ∃ x, s.control.pc i = .queuePush x ∧ s.queue.pc i = .pushed true := by
  unfold State.announces
  cases hpc : s.control.pc i with
  | queuePush x => cases hq : s.queue.pc i <;> simp
  | _ => simp

/-- **What becomes due is announced.** -/
theorem permits_of_announces (ha : s.announces i = true) (h : threadNext cap s i a = some s') :
    Permits.next s.control.permits (.announce i) = some s'.control.permits := by
  rcases announces_iff.mp ha with hpc | ⟨x, hpc, hq⟩
  · simp only [threadNext, hpc] at h
    obtain ⟨c, hc, rfl⟩ := Option.map_eq_some_iff.mp h
    exact Control.permits_of_requestStop hpc hc
  · have hr : (s.control.pc i).releases = false := by rw [hpc]; rfl
    simp only [threadNext, hpc, State.queuePush, hq] at h
    cases a with
    | step =>
      obtain ⟨q, -, rfl⟩ := Option.map_eq_some_iff.mp h
      refine (Permits.next_announce hr).trans (congrArg some (Eq.symm ?_))
      exact Control.permits_of_pc rfl rfl rfl
    | spurious =>
      obtain ⟨q, hnone, -⟩ := Option.map_eq_some_iff.mp h
      simp only [AsyncQueue.threadNext, hq] at hnone
      contradiction
    | _ => contradiction

/-- **Every other step** grants a permit, takes one, or changes nothing. -/
theorem permits_of_not_announces (ha : s.announces i = false)
    (h : threadNext cap s i a = some s') :
    s'.control.permits = s.control.permits ∨ ∃ b, Permits.InTurn s.control.permits b ∧
      Permits.next s.control.permits b = some s'.control.permits := by
  have hstop : s.control.pc i ≠ .requestStop := fun hpc =>
    Bool.false_ne_true (ha.symm.trans (announces_iff.mpr (Or.inl hpc)))
  cases hr : (s.control.pc i).releases with
  | true =>
    obtain ⟨c, hc, rfl⟩ : ∃ c, s.control.next i a = some c ∧ { s with control := c } = s' := by
      refine Option.map_eq_some_iff.mp ?_
      rcases Pc.eq_of_releases hr with hpc | hpc <;> simpa only [threadNext, hpc] using h
    rcases Control.permits_of_release hr hc with hgrant | hsaturate
    · exact Or.inr ⟨.grant i, trivial, hgrant⟩
    · exact Or.inr ⟨.saturate i, trivial, hsaturate⟩
  | false =>
    cases step_of_next h with
    | control hc => exact (hc.permits hr hstop).imp_right fun htake => ⟨.take, trivial, htake⟩
    | @queuePushed x ok hpc hq =>
      cases ok with
      | true => exact absurd (announces_iff.mpr (Or.inr ⟨x, hpc, hq⟩)) (by simp [ha])
      | false => exact Or.inl (Control.permits_of_quiet rfl rfl hr.symm)
    | @queuePopped k es hpc hq =>
      cases k <;> exact Or.inl (Control.permits_of_quiet rfl rfl hr.symm)
    | @ringPushed x ok hpc hq =>
      cases ok <;> exact Or.inl (Control.permits_of_quiet rfl rfl hr.symm)
    | ringPopped => exact Or.inl (Control.permits_of_quiet rfl rfl hr.symm)
    | _ => exact Or.inl rfl

/-- **A run in turn is one of the counter of permits.** -/
theorem permits_run (hs : Reachable (next cap) InTurn (init dflt) s) :
    Reachable Permits.next Permits.InTurn (Permits.init _) s.control.permits := by
  have hinit : (init dflt).control.permits = Permits.init (Thread ι) := by
    refine congrArg (Permits.State.mk 0) (funext fun i => ?_)
    cases i <;> rfl
  rw [← hinit]
  refine hs.project (fun s => s.control.permits) ?_
  rintro s ⟨i, a⟩ s' - hok hnext
  cases ha : s.announces i with
  | true => exact Or.inr ⟨.announce i, hok ha, permits_of_announces ha hnext⟩
  | false => exact permits_of_not_announces ha hnext

/-- **In a run in turn every release finds the counter at zero.** -/
theorem releasesAtZero (hs : Reachable (next cap) InTurn (init dflt) s) :
    s.control.ReleasesAtZero :=
  Control.releasesAtZero_iff.mpr (Permits.atZero_of_inTurn (permits_run hs))

/-- The writer has acquired the permit of the first call when the second one is due. -/
theorem releasesAtZero_in_turn :
    ∃ s : State (Fin 2) Char, (s.control.pc (.app 1)).Releases ∧ s.control.passed.length = 2 ∧
      s.control.ReleasesAtZero := by
  obtain ⟨s, hs, hrelease, hpassed⟩ := exists_reachable_of_decide (next 2) (init ⟨.writer, 0, '-'⟩)
    (fun s : State (Fin 2) Char => (s.control.pc (.app 1)).releases = true ∧
      s.control.passed.length = 2)
    InTurn
    (doing (.app 0) (.log .info 'a') 12 ++ steps .writer 2
      ++ doing (.app 1) (.log .info 'b') 11) (by decide +kernel)
  exact ⟨s, Pc.releases_iff.mp hrelease, hpassed, releasesAtZero hs⟩

/-- **Two quick calls.**  Both entries are in the queue before the writer acquires, and
the second `release()` finds the counter at one. -/
theorem not_releasesAtZero_two_calls :
    ∃ s : State (Fin 2) Char,
      Reachable (next 2) Always (init ⟨.writer, 0, '-'⟩) s ∧ ¬ s.control.ReleasesAtZero := by
  obtain ⟨s, hs, hrelease, hsem⟩ := exists_reachable_of_decide (next 2) (init ⟨.writer, 0, '-'⟩)
    (fun s : State (Fin 2) Char => (s.control.pc (.app 0)).releases = true ∧ s.control.sem = 1)
    Always
    (doing (.app 0) (.log .info 'a') 12 ++ doing (.app 0) (.log .info 'b') 11) (by decide +kernel)
  refine ⟨s, hs, fun h => ?_⟩
  rw [h _ (Pc.releases_iff.mp hrelease)] at hsem
  exact absurd hsem Nat.zero_ne_one

/-- In a run in turn the counter stays within its declared maximum. -/
theorem sem_le_one (hs : Reachable (next cap) InTurn (init dflt) s) : s.control.sem ≤ 1 :=
  Permits.count_le_one (permits_run hs)

/-- So there it makes no difference whether a release counts or saturates. -/
theorem release_eq_saturate (hs : Reachable (next cap) InTurn (init dflt) s)
    (hr : (s.control.pc i).Releases) : next cap s (i, .step) = next cap s (i, .saturate) := by
  have hzero := releasesAtZero hs i hr
  rcases Pc.eq_of_releases (Pc.releases_iff.mpr hr) with hpc | hpc
  all_goals
    simp only [next, threadNext, Control.next, hpc, hzero, Nat.zero_add]

/-- A thread that may grant a permit can take its step. -/
theorem next_of_grant {q : Permits.State (Thread ι)}
    (h : Permits.next s.control.permits (.grant i) = some q) :
    ∃ s', next cap s (i, .step) = some s' ∧ s'.control.permits = q := by
  simp only [Permits.next, Option.ite_none_right_eq_some, Option.some.injEq] at h
  obtain ⟨hr, rfl⟩ := h
  rcases Pc.eq_of_releases hr with hpc | hpc
  all_goals
    refine ⟨_, by simp only [next, threadNext, Control.next, hpc, Option.map_some]; rfl, ?_⟩
    exact Control.permits_of_pc rfl rfl rfl

/-- **A release that becomes due too early breaks the precondition**: at once, or after
the one that was due before it. -/
theorem not_releasesAtZero_of_early {t : Thread ι × Act ε} (hearly : ¬ InTurn s t)
    (hnext : next cap s t = some s') :
    ¬ s'.control.ReleasesAtZero ∨
      ∃ j s'', next cap s' (j, .step) = some s'' ∧ ¬ s''.control.ReleasesAtZero := by
  obtain ⟨ha, hfree⟩ := Classical.not_imp.mp hearly
  simp only [Control.releasesAtZero_iff]
  rcases Permits.not_atZero_of_early hfree (permits_of_announces ha hnext) with
    hbad | ⟨j, q, hgrant, hbad⟩
  · exact Or.inl hbad
  · obtain ⟨s'', hstep, rfl⟩ := next_of_grant hgrant
    exact Or.inr ⟨j, s'', hstep, hbad⟩

end Stepwise
end AsyncLogger
end SpeckitLog
