import SpeckitLog.AsyncQueue.Ownership
import SpeckitLog.Lib.Progress

/-!
# Calls that run alone

A push needs nobody: wherever the other threads have stopped, it returns after at most
ten steps of its own.  A `popAll` needs the producers that hold a ticket, and nobody
else.  So every run can be brought to rest by letting its calls run on.

## Main definitions

* `Pc.pushSteps`, `Pc.popSteps` — how many steps a call takes at most.
* `Alone` — the guard of the runs in which one thread moves.
* `InTurn` — threads run alone one after another, each until its call has returned.

## Main results

* `push_returns` — **a push alone returns.**
* `comes_to_rest` — **the running calls can all return, one after another.**
-/

namespace SpeckitLog
namespace AsyncQueue

open Function Transition Call

variable {ι α : Type*} [DecidableEq ι]

/-- Only thread `i` moves, and no compare-and-swap fails for no reason. -/
def Alone (i : ι) (_ : State ι α) (a : ι × Act α) : Prop := a = (i, .step)

/-- How many steps a push takes at most when it runs alone: a `tail_` that was read
before another push won a ticket costs a round. -/
def Pc.pushSteps (tail : ℕ) : Pc α → ℕ
  | .loadTail _ => 8
  | .loadHead _ t => if t = tail then 7 else 10
  | .cas _ t => if t = tail then 6 else 9
  | .awaitFree _ _ => 5
  | .emplace _ _ => 4
  | .publish _ => 3
  | .addSize => 2
  | .pushed _ => 1
  | _ => 0

/-- How many steps a `popAll` takes at most when it runs alone: five for each entry. -/
def Pc.popSteps (head tail : ℕ) : Pc α → ℕ
  | .popLoadHead => 5 + 5 * (tail - head)
  | .popLoadTail h => 4 + 5 * (tail - h)
  | .awaitEntry d => 3 + 5 * (d.available - d.i)
  | .testValue d => 7 + 5 * (d.available - (d.i + 1))
  | .moveOut d => 6 + 5 * (d.available - (d.i + 1))
  | .reset d => 5 + 5 * (d.available - (d.i + 1))
  | .freeSlot d => 4 + 5 * (d.available - (d.i + 1))
  | .storeHead _ => 3
  | .subSize _ => 2
  | .popped _ => 1
  | _ => 0

/-- The ticket that a call may yet win. -/
def Pc.owing : Pc α → ℕ
  | .loadTail _ | .loadHead _ _ | .cas _ _ => 1
  | _ => 0

theorem Pc.pushSteps_le (tail : ℕ) (p : Pc α) : p.pushSteps tail ≤ 10 := by
  unfold Pc.pushSteps
  split <;> first | (split <;> omega) | omega

section Steps

variable {cap : ℕ} {s s' : State ι α} {ph : ℕ → Phase} {drainer : Option ι} {i c : ι}

/-- What a step of a push that runs alone brings about. -/
structure Nearer (s : State ι α) (i : ι) (s' : State ι α) : Prop where
  steps : (s'.pc i).pushSteps s'.tail < (s.pc i).pushSteps s.tail
  running : s'.pc i = .idle ∨ (s'.pc i).stage ≠ .outside
  tickets : s'.tickets.length + (s'.pc i).owing ≤ s.tickets.length + (s.pc i).owing

omit [DecidableEq ι] in
theorem nearer_of_pc {p q : Pc α} (hpc : s.pc i = p) (hpc' : s'.pc i = q)
    (hsteps : q.pushSteps s'.tail < p.pushSteps s.tail) (hq : q = .idle ∨ q.stage ≠ .outside)
    (htickets : s'.tickets.length + q.owing ≤ s.tickets.length + p.owing) : Nearer s i s' :=
  ⟨by rw [hpc', hpc]; exact hsteps, by rw [hpc']; exact hq, by rw [hpc', hpc]; exact htickets⟩

/-- **A step of a push that runs alone** takes it nearer to its return. -/
theorem Inv.push_step (h : Inv cap s ph drainer) (hpush : (s.pc i).stage ≠ .outside) :
    ∃ s', next cap s (i, .step) = some s' ∧ Nearer s i s' := by
  have hrunning : ∀ {p : Pc α} {e : α}, p.stage = .undecided e → p = .idle ∨ p.stage ≠ .outside :=
    fun hp => Or.inr (by rw [hp]; simp)
  have hdecided : ∀ {p : Pc α} {b : Bool}, p.stage = .decided b → p = .idle ∨ p.stage ≠ .outside :=
    fun hp => Or.inr (by rw [hp]; simp)
  cases hpc : s.pc i with
  | loadTail e =>
    refine ⟨s.goto i (.loadHead e s.tail), by simp only [next, threadNext, hpc], ?_⟩
    exact nearer_of_pc hpc (update_self ..) (by simp [Pc.pushSteps, State.goto]) (hrunning rfl)
      le_rfl
  | loadHead e t =>
    by_cases hfull : cap ≤ wsub t s.head
    · refine ⟨s.goto i (.pushed false), by simp only [next, threadNext, hpc, if_pos hfull], ?_⟩
      refine nearer_of_pc hpc (update_self ..) ?_ (hdecided rfl) (Nat.le_succ _)
      simp only [Pc.pushSteps]
      split <;> decide
    · refine ⟨s.goto i (.cas e t), by simp only [next, threadNext, hpc, if_neg hfull], ?_⟩
      refine nearer_of_pc hpc (update_self ..) ?_ (hrunning rfl) le_rfl
      by_cases ht : t = s.tail <;> simp [Pc.pushSteps, State.goto, ht]
  | cas e t =>
    by_cases ht : s.tail = t
    · refine ⟨s.reserve i e t, by simp only [next, threadNext, hpc, if_pos ht], ?_⟩
      refine nearer_of_pc hpc (update_self ..) ?_ (hdecided rfl) ?_
      · simp [Pc.pushSteps, ht]
      · exact (List.length_append).le
    · refine ⟨s.goto i (.loadTail e), by simp only [next, threadNext, hpc, if_neg ht], ?_⟩
      refine nearer_of_pc hpc (update_self ..) ?_ (hrunning rfl) le_rfl
      simp [Pc.pushSteps, Ne.symm ht]
  | awaitFree e t =>
    -- the cell of a ticket that was won is free
    have hseq := h.seq_of_holds (i := i) (t := t) (by rw [hpc]; rfl)
    refine ⟨s.goto i (.emplace e t), by simp only [next, threadNext, hpc, hseq, if_true], ?_⟩
    exact nearer_of_pc hpc (update_self ..) (by simp [Pc.pushSteps]) (hdecided rfl) le_rfl
  | emplace e t =>
    refine ⟨s.emplace cap i e t, by simp only [next, threadNext, hpc], ?_⟩
    exact nearer_of_pc hpc (update_self ..) (by simp [Pc.pushSteps]) (hdecided rfl) le_rfl
  | publish t =>
    refine ⟨s.publish cap i t, by simp only [next, threadNext, hpc], ?_⟩
    exact nearer_of_pc hpc (update_self ..) (by simp [Pc.pushSteps]) (hdecided rfl) le_rfl
  | addSize =>
    refine ⟨s.addSize i, by simp only [next, threadNext, hpc], ?_⟩
    exact nearer_of_pc hpc (update_self ..) (by simp [Pc.pushSteps]) (hdecided rfl) le_rfl
  | pushed b =>
    refine ⟨s.returnPush i b, by simp only [next, threadNext, hpc], ?_⟩
    exact nearer_of_pc hpc (update_self ..) (by simp [Pc.pushSteps]) (Or.inl rfl) le_rfl
  | _ => exact absurd (by rw [hpc]; rfl) hpush

/-- **A step of a `popAll` that runs alone** takes it nearer to its return, when no
producer holds a ticket. -/
theorem Inv.pop_step (h : Inv cap s ph drainer) (hpop : (s.pc i).Popping)
    (hholds : ∀ j t, ¬ (s.pc j).Holds t) :
    ∃ s', next cap s (i, .step) = some s' ∧
      (s'.pc i).popSteps s'.head s'.tail < (s.pc i).popSteps s.head s.tail ∧
      (s'.pc i = .idle ∨ (s'.pc i).Popping) ∧ s'.tickets = s.tickets ∧
      ∀ j t, ¬ (s'.pc j).Holds t := by
  obtain ⟨s', hnext⟩ := h.enabled fun hidle => by
    rw [hidle] at hpop
    exact hpop
  refine ⟨s', hnext, ?_⟩
  have hstep : Step cap s i .step s' := step_of_next hnext
  have hend : ∀ {p : Pc α}, s'.pc = update s.pc i p →
      p.popSteps s'.head s'.tail < (s.pc i).popSteps s.head s.tail → p = .idle ∨ p.Popping →
      s'.tickets = s.tickets →
      (s'.pc i).popSteps s'.head s'.tail < (s.pc i).popSteps s.head s.tail ∧
        (s'.pc i = .idle ∨ (s'.pc i).Popping) ∧ s'.tickets = s.tickets ∧
        ∀ j t, ¬ (s'.pc j).Holds t := by
    intro p hpc hsteps hp htickets
    refine ⟨by rw [hpc, update_self]; exact hsteps, by rw [hpc, update_self]; exact hp, htickets,
      fun j t hj => ?_⟩
    rw [hpc] at hj
    rcases of_update hj with ⟨-, hj⟩ | ⟨-, hj⟩
    · rcases hp with rfl | hp
      · exact hj
      · cases p <;> first | exact hj | exact hp
    · exact hholds j t hj
  cases hstep with
  | @spinEntry d hpc hseq =>
    -- it would wait for a producer that holds the ticket
    obtain ⟨j, hj⟩ := h.holder_of_spin hpc hseq
    exact absurd hj (hholds j d.ticket)
  | popLoadHead hpc =>
    refine hend rfl ?_ (Or.inr trivial) rfl
    simp only [hpc, Pc.popSteps, State.goto]
    omega
  | nothing hpc _ =>
    refine hend rfl ?_ (Or.inr trivial) rfl
    simp only [hpc, Pc.popSteps]
    omega
  | startDrain hpc hlt =>
    refine hend rfl ?_ (Or.inr trivial) rfl
    simp only [hpc, Pc.popSteps]
    omega
  | @entryReady d hpc _ =>
    have hok := h.pcs i
    rw [hpc] at hok
    have hi := hok.2.1
    refine hend rfl ?_ (Or.inr trivial) rfl
    simp only [hpc, Pc.popSteps]
    omega
  | hasValue hpc _ | noValue hpc _ | moveOut hpc _ | reset hpc =>
    refine hend rfl ?_ (Or.inr trivial) rfl
    simp only [hpc, Pc.popSteps]
    omega
  | @freeSlot d hpc =>
    by_cases hmore : d.i + 1 < d.available
    · refine hend rfl ?_ (Or.inr (by rw [if_pos hmore]; trivial)) rfl
      simp only [hpc, if_pos hmore, Pc.popSteps]
      omega
    · refine hend rfl ?_ (Or.inr (by rw [if_neg hmore]; trivial)) rfl
      simp only [hpc, if_neg hmore, Pc.popSteps]
      omega
  | storeHead hpc | subSize hpc =>
    refine hend rfl ?_ (Or.inr trivial) rfl
    simp only [hpc, Pc.popSteps]
    decide
  | returnPop hpc =>
    refine hend rfl ?_ (Or.inl rfl) rfl
    simp only [hpc, Pc.popSteps]
    decide
  | spinFree hpc _ | full hpc _ | room hpc _ | reserve hpc _ | slotFree hpc _ =>
    rw [hpc] at hpop
    exact hpop.elim
  | _ hpc =>
    rw [hpc] at hpop
    exact hpop.elim

end Steps

/-! ### Whole calls -/

section Runs

variable {cap : ℕ} {s s' : State ι α} {i c : ι}

/-- Threads that run alone run in a run with one consumer. -/
theorem reachable_of_alone (hs : Reachable (next cap) (SingleConsumer c) (init ι α) s) {n : ℕ}
    (h : StepsTo (next cap) (Alone i) n s s') :
    Reachable (next cap) (SingleConsumer c) (init ι α) s' :=
  hs.append (h.reachable.mono fun _ a ha hpop => by
    rw [show a = (i, .step) from ha] at hpop
    contradiction)

/-- The other threads stay where they are. -/
theorem pc_of_alone {n : ℕ} (h : StepsTo (next cap) (Alone i) n s s') {j : ι} (hji : j ≠ i) :
    s'.pc j = s.pc j := by
  refine h.invariant (I := fun x => x.pc j = s.pc j) rfl ?_
  rintro x a x' hx rfl hnext
  exact (Step.pc_of_ne (step_of_next hnext) hji).trans hx

/-- **A push alone returns** after at most ten steps, wherever the others have stopped. -/
theorem push_returns (hs : Reachable (next cap) (SingleConsumer c) (init ι α) s)
    (hpush : (s.pc i).stage ≠ .outside) (hlt : s.tickets.length + 1 < sizeModulus) :
    ∃ n ≤ 10, ∃ s', StepsTo (next cap) (Alone i) n s s' ∧ s'.pc i = .idle ∧
      s'.tickets.length ≤ s.tickets.length + 1 := by
  have howing : (s.pc i).owing ≤ 1 := by
    unfold Pc.owing
    split <;> decide
  obtain ⟨n, hn, s', hrun, ⟨-, -, htickets⟩, hidle⟩ := stepsTo_of_variant (next cap) (Alone i)
    (fun x => x.pc i = .idle)
    (I := fun x => Reachable (next cap) (SingleConsumer c) (init ι α) x ∧
      (x.pc i = .idle ∨ (x.pc i).stage ≠ .outside) ∧
      x.tickets.length + (x.pc i).owing ≤ s.tickets.length + (s.pc i).owing)
    (fun x => (x.pc i).pushSteps x.tail)
    (by
      rintro x ⟨hx, hrunning, htickets⟩ hnot
      obtain ⟨ph, drainer, hinv⟩ := inv_of_singleConsumer hx (by omega)
      obtain ⟨x', hnext, hnearer⟩ := hinv.push_step (hrunning.resolve_left hnot)
      have hguard : SingleConsumer c x (i, .step) := fun hpop => nomatch hpop
      exact ⟨_, x', rfl, hnext,
        ⟨hx.step hguard hnext, hnearer.running, hnearer.tickets.trans htickets⟩, hnearer.steps⟩)
    ⟨hs, Or.inr hpush, le_rfl⟩
  exact ⟨n, hn.trans (Pc.pushSteps_le _ _), s', hrun, hidle, by omega⟩

/-- A `popAll` alone returns, when no producer holds a ticket. -/
theorem pop_returns (hs : Reachable (next cap) (SingleConsumer c) (init ι α) s)
    (hpop : (s.pc i).Popping) (hlt : s.tickets.length < sizeModulus)
    (hholds : ∀ j t, ¬ (s.pc j).Holds t) :
    ∃ n s', StepsTo (next cap) (Alone i) n s s' ∧ s'.pc i = .idle := by
  obtain ⟨n, -, s', hrun, -, hidle⟩ := stepsTo_of_variant (next cap) (Alone i)
    (fun x => x.pc i = .idle)
    (I := fun x => Reachable (next cap) (SingleConsumer c) (init ι α) x ∧
      (x.pc i = .idle ∨ (x.pc i).Popping) ∧ x.tickets = s.tickets ∧ ∀ j t, ¬ (x.pc j).Holds t)
    (fun x => (x.pc i).popSteps x.head x.tail)
    (by
      rintro x ⟨hx, hrunning, htickets, hnone⟩ hnot
      obtain ⟨ph, drainer, hinv⟩ := inv_of_singleConsumer hx (by rw [htickets]; exact hlt)
      obtain ⟨x', hnext, hsteps, hrunning', htickets', hnone'⟩ :=
        hinv.pop_step (hrunning.resolve_left hnot) hnone
      have hguard : SingleConsumer c x (i, .step) := fun hpop => nomatch hpop
      exact ⟨_, x', rfl, hnext,
        ⟨hx.step hguard hnext, hrunning', htickets'.trans htickets, hnone'⟩, hsteps⟩)
    ⟨hs, Or.inr hpop, rfl, hholds⟩
  exact ⟨n, s', hrun, hidle⟩

/-- The guard of the runs in which the running calls go on and none starts. -/
def NoCalls (_ : State ι α) (a : ι × Act α) : Prop := a.2 = .step

theorem noCalls_of_alone {n : ℕ} (h : StepsTo (next cap) (Alone i) n s s') :
    Reachable (next cap) NoCalls s s' :=
  h.reachable.mono fun _ a ha => by
    rw [show a = (i, .step) from ha]
    rfl

/-- **In turn**: the threads of the list run alone, one after another, each until its call
has returned. -/
inductive InTurn (cap : ℕ) : List ι → State ι α → State ι α → Prop
  | nil {s : State ι α} : InTurn cap [] s s
  | cons {i : ι} {threads : List ι} {n : ℕ} {s s₁ s' : State ι α}
      (hrun : StepsTo (next cap) (Alone i) n s s₁) (hidle : s₁.pc i = .idle)
      (hrest : InTurn cap threads s₁ s') : InTurn cap (i :: threads) s s'

theorem InTurn.noCalls {threads : List ι} (h : InTurn cap threads s s') :
    Reachable (next cap) NoCalls s s' := by
  induction h with
  | nil => exact .init
  | cons hrun _ _ ih => exact (noCalls_of_alone hrun).append ih

/-- One more thread runs at the end. -/
theorem InTurn.concat {threads : List ι} {n : ℕ} {s'' : State ι α} (h : InTurn cap threads s s')
    (hrun : StepsTo (next cap) (Alone i) n s' s'') (hidle : s''.pc i = .idle) :
    InTurn cap (threads ++ [i]) s s'' := by
  induction h with
  | nil => exact .cons hrun hidle .nil
  | cons hrun₁ hidle₁ _ ih => exact .cons hrun₁ hidle₁ (ih hrun)

/-- The pushes of a list of threads can return one after another. -/
theorem pushes_return (threads : List ι) :
    ∀ s, Reachable (next cap) (SingleConsumer c) (init ι α) s →
      s.tickets.length + threads.length < sizeModulus →
      ∃ order s', InTurn cap order s s' ∧
        Reachable (next cap) (SingleConsumer c) (init ι α) s' ∧
        s'.tickets.length ≤ s.tickets.length + threads.length ∧
        (∀ j ∈ threads, (s'.pc j).stage = .outside) ∧
        ∀ j, (s.pc j).stage = .outside → s'.pc j = s.pc j := by
  induction threads with
  | nil => exact fun s hs _ => ⟨[], s, .nil, hs, le_rfl, by simp, fun _ _ => rfl⟩
  | cons i threads ih =>
    intro s hs hlt
    rw [List.length_cons] at hlt ⊢
    by_cases hpush : (s.pc i).stage = .outside
    · -- thread `i` is in no push
      obtain ⟨order, s', hrun, hs', htickets, hall, hkeep⟩ := ih s hs (by omega)
      refine ⟨order, s', hrun, hs', by omega, fun j hj => ?_, hkeep⟩
      rcases List.mem_cons.mp hj with rfl | hj
      · rw [hkeep j hpush]
        exact hpush
      · exact hall j hj
    · obtain ⟨n, -, s₁, hrun₁, hidle, htickets₁⟩ := push_returns hs hpush (by omega)
      have hkeep₁ : ∀ j, (s.pc j).stage = .outside → s₁.pc j = s.pc j := by
        intro j hj
        refine pc_of_alone hrun₁ ?_
        rintro rfl
        exact hpush hj
      have hi : (s₁.pc i).stage = .outside := by
        rw [hidle]
        rfl
      obtain ⟨order, s', hrun, hs', htickets, hall, hkeep⟩ :=
        ih s₁ (reachable_of_alone hs hrun₁) (by omega)
      refine ⟨i :: order, s', .cons hrun₁ hidle hrun, hs', by omega, fun j hj => ?_,
        fun j hj => ?_⟩
      · rcases List.mem_cons.mp hj with rfl | hj
        · rw [hkeep j hi]
          exact hi
        · exact hall j hj
      · rw [hkeep j (by rw [hkeep₁ j hj]; exact hj), hkeep₁ j hj]

/-- **The queue comes to rest**: from every state the running calls can return one after
another, those of the producers first, when `threads` lists the threads that are in one. -/
theorem comes_to_rest (hs : Reachable (next cap) (SingleConsumer c) (init ι α) s)
    {threads : List ι} (hthreads : ∀ i, s.pc i ≠ .idle → i ∈ threads)
    (hlt : s.tickets.length + threads.length < sizeModulus) :
    ∃ order s', InTurn cap order s s' ∧ Reachable (next cap) NoCalls s s' ∧
      ∀ i, s'.pc i = .idle := by
  obtain ⟨order, s₁, hrun₁, hs₁, htickets₁, hall, hkeep⟩ := pushes_return threads s hs hlt
  have houtside : ∀ i, (s₁.pc i).stage = .outside := by
    intro i
    by_cases hi : s.pc i = .idle
    · rw [hkeep i (by rw [hi]; rfl), hi]
      rfl
    · exact hall i (hthreads i hi)
  have hone := oneConsumer_of_reachable hs₁
  have hidle : ∀ i, ¬ (s₁.pc i).Popping → s₁.pc i = .idle := by
    intro i hpop
    have hstage := houtside i
    cases hpc : s₁.pc i with
    | idle => rfl
    | _ => rw [hpc] at hpop hstage; first | exact absurd trivial hpop | contradiction
  have hholds : ∀ j t, ¬ (s₁.pc j).Holds t := by
    intro j t hj
    have hstage := houtside j
    cases hpc : s₁.pc j <;> rw [hpc] at hj hstage <;> first | exact hj | contradiction
  by_cases hpop : (s₁.pc c).Popping
  · -- the consumer comes last
    obtain ⟨n, s', hrun, hc⟩ := pop_returns hs₁ hpop (by omega) hholds
    have hturn := hrun₁.concat hrun hc
    refine ⟨order ++ [c], s', hturn, hturn.noCalls, fun i => ?_⟩
    by_cases hic : i = c
    · rw [hic, hc]
    · rw [pc_of_alone hrun hic]
      exact hidle i fun hpop => hic (hone.alone i hpop)
  · refine ⟨order, s₁, hrun₁, hrun₁.noCalls, fun i => hidle i fun hi => ?_⟩
    obtain rfl := hone.alone i hi
    exact hpop hi

/-- A producer has won a ticket that the consumer waits for. -/
theorem comes_to_rest_waiting : ∃ s : State (Fin 2) Char, (s.pc 0).Holds 0 ∧ (s.pc 1).Draining ∧
    ∃ order s', InTurn 1 order s s' ∧ Reachable (next 1) NoCalls s s' ∧
      ∀ i, s'.pc i = .idle := by
  obtain ⟨s, hs, hlen, hholds, hdrain⟩ := exists_reachable_of_decide (next 1)
    (init (Fin 2) Char)
    (fun s => s.tickets.length = 1 ∧ (s.pc 0).Holds 0 ∧ (s.pc 1).Draining)
    (SingleConsumer 1) (doing 0 (.push 'a') 3 ++ doing 1 .pop 4) (by decide +kernel)
  have hall : ∀ i : Fin 2, i ∈ [0, 1] := by decide
  have hlt : s.tickets.length + [(0 : Fin 2), 1].length < sizeModulus := by
    rw [hlen]
    decide +kernel
  exact ⟨s, hholds, hdrain, comes_to_rest hs (fun i _ => hall i) hlt⟩

end Runs

end AsyncQueue
end SpeckitLog
