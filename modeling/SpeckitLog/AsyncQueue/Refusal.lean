import SpeckitLog.AsyncQueue.Fifo

/-!
# When a push is refused

`tryPush` reads `tail_` and then `head_`, and returns `false` when their `size_t`
difference is at least the capacity.  As long as `head_` has not passed the `tail_`
that was read, the difference is a number of tickets, and the queue was full when
`tail_` was read.  When it has, the difference wraps, and a queue that was never full
refuses the entry.

## Main definitions

* `FullDuringCall` — the queue was full at some moment of the running call.
* `HeadNotPast` — a thread that reads `head_` finds it at or before the `tail_` it read.

## Main results

* `full_of_refused` — **a refused push met a full queue**, while `head_` is not past.
* `not_full_of_refused` — a push refused by a queue that was never full.
-/

namespace SpeckitLog
namespace AsyncQueue

open Function Transition

variable {ι α : Type*}

deriving instance DecidableEq for Drain

deriving instance DecidableEq for Pc

/-- The thread is inside a call. -/
def Pc.isRunning : Pc α → Bool
  | .idle => false
  | _ => true

/-- At some moment since thread `i` entered its call, `tail_` was `cap` tickets ahead
of `head_`. -/
def FullDuringCall (cap : ℕ) (r : Recorded (State ι α)) (i : ι) : Prop :=
  ∃ s ∈ r.since fun s => (s.pc i).isRunning, s.tail = s.head + cap

/-- A thread that reads `head_` finds it at or before the `tail_` that it has read. -/
def HeadNotPast (s : State ι α) (i : ι) : Prop := ∀ e t, s.pc i = .loadHead e t → s.head ≤ t

instance (cap : ℕ) (r : Recorded (State ι α)) (i : ι) :
    Decidable (FullDuringCall cap r i) := inferInstanceAs (Decidable (∃ s ∈ _, _))

instance (s : State ι α) (i : ι) : Decidable (HeadNotPast s i) :=
  match hpc : s.pc i with
  | .loadHead e t => decidable_of_iff (s.head ≤ t)
      ⟨fun hle e' t' h => by rw [hpc] at h; cases h; exact hle, fun h => h e t hpc⟩
  | .idle | .loadTail _ | .cas _ _ | .awaitFree _ _ | .emplace _ _ | .publish _
  | .addSize | .pushed _ | .popLoadHead | .popLoadTail _ | .awaitEntry _ | .testValue _
  | .moveOut _ | .reset _ | .freeSlot _ | .storeHead _ | .subSize _ | .popped _ =>
    isTrue fun e t h => by rw [hpc] at h; cases h

/-- What the reads of a call have shown: a `tail_` that is `cap` tickets ahead of the
present `head_` was so when it was read, and a refused call has read such a `tail_`. -/
structure Shown (cap : ℕ) (r : Recorded (State ι α)) (i : ι) : Prop where
  ahead : ∀ e t, r.now.pc i = .loadHead e t → r.now.head + cap ≤ t → FullDuringCall cap r i
  refused : r.now.pc i = .pushed false → FullDuringCall cap r i

section Step

variable [DecidableEq ι] {cap : ℕ} {r r' : Recorded (State ι α)} {i j : ι} {a : Act α}

omit [DecidableEq ι] in
theorem shown_init (i : ι) : Shown cap ⟨[], init ι α⟩ i where
  ahead e t h := by simp [init] at h
  refused h := by simp [init] at h

/-- Only the end of a drain moves `head_`, and never back. -/
theorem Step.head_le {s s' : State ι α} {ph : ℕ → Phase} {drainer : Option ι}
    (hstep : Step cap s i a s') (h : Inv cap s ph drainer) : s.head ≤ s'.head := by
  have hok := h.pcs i
  cases hstep with
  | @storeHead d hpc =>
    rw [hpc] at hok
    have hhead := hok.1.head_eq
    have hbound := hok.1.bound
    have hlt := h.tail_lt
    show s.head ≤ wrap (d.head + d.available)
    rw [wrap_of_lt (by omega)]
    omega
  | _ => exact le_rfl

/-- A moment of a call that goes on is a moment of it later. -/
theorem FullDuringCall.step (h : FullDuringCall cap r i)
    (hnext : recording (next cap) r (j, a) = some r') (hrun : (r.now.pc i).isRunning = true) :
    FullDuringCall cap r' i := by
  obtain ⟨s, hs, hfull⟩ := h
  exact ⟨s, Recorded.since_subset hnext hrun hs, hfull⟩

/-- **Every step keeps what the reads have shown.** -/
theorem Shown.step {ph : ℕ → Phase} {drainer : Option ι} (h : Shown cap r i)
    (hinv : Inv cap r.now ph drainer) (hnext : recording (next cap) r (j, a) = some r')
    (hpast : HeadNotPast r.now j) : Shown cap r' i := by
  have hstep : Step cap r.now j a r'.now := step_of_next (of_recording hnext).1
  have hhead := hstep.head_le hinv
  by_cases hij : i = j
  · subst hij
    have htail := hinv.tail_eq
    have htl := hinv.tail_le
    have hlt := hinv.tail_lt
    have hok := hinv.pcs i
    have hnow := r'.now_mem_since fun s => (s.pc i).isRunning
    -- most steps lead neither to the load of `head_` nor to a refusal
    have hother : ∀ {p : Pc α}, r'.now.pc i = p → (∀ e t, p ≠ .loadHead e t) → p ≠ .pushed false →
        Shown cap r' i := by
      intro p hp hload href
      exact ⟨fun e t h => absurd (hp.symm.trans h) (hload e t),
        fun h => absurd (hp.symm.trans h) href⟩
    generalize hs' : r'.now = s' at hstep hnow hother
    cases hstep with
    | @loadTail e hpc =>
      refine ⟨fun e' t hload hle => ⟨_, hnow, ?_⟩, fun href => ?_⟩
      · rw [hs'] at hload hle
        have hload : update r.now.pc i (.loadHead e r.now.tail) i = .loadHead e' t := hload
        have hle : r.now.head + cap ≤ t := hle
        rw [update_self, Pc.loadHead.injEq] at hload
        show r.now.tail = r.now.head + cap
        omega
      · rw [hs'] at href
        have href : update r.now.pc i (.loadHead e r.now.tail) i = .pushed false := href
        rw [update_self] at href
        contradiction
    | @full e t hpc hfull =>
      rw [hpc] at hok
      have hle := hpast e t hpc
      rw [wsub_of_le hle] at hfull
      have hshown := h.ahead e t hpc (by omega)
      refine ⟨fun e' t' hload _ => ?_, fun _ => hshown.step hnext (by rw [hpc]; rfl)⟩
      rw [hs'] at hload
      have hload : update r.now.pc i (.pushed false) i = .loadHead e' t' := hload
      rw [update_self] at hload
      contradiction
    | spinFree hpc _ | spinEntry hpc _ => exact hother hpc (by simp) (by simp)
    | freeSlot hpc =>
      exact hother (update_self ..) (by intro e t; split <;> simp) (by split <;> simp)
    | _ => exact hother (update_self ..) (by simp) (by simp)
  · have hpc := hstep.pc_of_ne hij
    refine ⟨fun e t hload hle => ?_, fun href => ?_⟩
    · rw [hpc] at hload
      exact (h.ahead e t hload (by omega)).step hnext (by rw [hload]; rfl)
    · rw [hpc] at href
      exact (h.refused href).step hnext (by rw [href]; rfl)

end Step

/-- **A refused push met a full queue**, for any number of producers, any capacity and
any interleaving in which no thread finds `head_` past the `tail_` that it has read. -/
theorem full_of_refused [DecidableEq ι] {cap : ℕ} {c : ι} {r : Recorded (State ι α)}
    (hr : Reachable (recording (next cap))
      (fun r a => SingleConsumer c r.now a ∧ HeadNotPast r.now a.1) ⟨[], init ι α⟩ r)
    (hlt : r.now.tickets.length < sizeModulus) {i : ι} (hi : r.now.pc i = .pushed false) :
    FullDuringCall cap r i := by
  have hshown : r.now.tickets.length < sizeModulus → Shown cap r i := by
    refine hr.invariant (I := fun r => r.now.tickets.length < sizeModulus → Shown cap r i)
      (fun _ => shown_init i) ?_
    rintro r ⟨j, a⟩ r' hr ih ⟨-, hpast⟩ hnext hlt'
    have hlt : r.now.tickets.length < sizeModulus :=
      Nat.lt_of_le_of_lt (tickets_le_of_next (of_recording hnext).1) hlt'
    have hrun : Reachable (recording (next cap)) (fun r a => SingleConsumer c r.now a)
        ⟨[], init ι α⟩ r := hr.mono fun _ _ h => h.1
    obtain ⟨ph, drainer, hinv⟩ := inv_of_singleConsumer hrun.forget hlt
    exact (ih hlt).step hinv hnext hpast
  exact (hshown hlt).refused hi

/-- A queue of one cell that has an entry refuses another. -/
theorem full_of_refused_one_cell : ∃ r : Recorded (State (Fin 2) Char),
    r.now.pc 0 = .pushed false ∧ FullDuringCall 1 r 0 := by
  obtain ⟨r, hr, hlen, hpc⟩ := exists_reachable_of_decide (recording (next 1))
    ⟨[], init (Fin 2) Char⟩ (fun r => r.now.tickets.length = 1 ∧ r.now.pc 0 = .pushed false)
    (fun r a => SingleConsumer 1 r.now a ∧ HeadNotPast r.now a.1)
    (doing 0 (.push 'a') 8 ++ doing 0 (.push 'b') 2) (by decide +kernel)
  exact ⟨r, hpc, full_of_refused hr (by rw [hlen]; decide +kernel) hpc⟩

/-- **A queue that was never full refuses an entry.**  Thread `0` has read `tail_` when
thread `1` pushes an entry and the consumer takes it: `head_` is past what thread `0`
has read, and the difference wraps. -/
theorem not_full_of_refused : ¬ ∀ r : Recorded (State (Fin 3) Char),
    Reachable (recording (next 2)) (fun r a => SingleConsumer 2 r.now a)
      ⟨[], init (Fin 3) Char⟩ r → r.now.tickets.length < sizeModulus →
      ∀ i, r.now.pc i = .pushed false → FullDuringCall 2 r i := by
  intro hall
  obtain ⟨r, hr, hlen, hpc, hfull⟩ := exists_reachable_of_decide (recording (next 2))
    ⟨[], init (Fin 3) Char⟩
    (fun r => r.now.tickets.length = 1 ∧ r.now.pc 0 = .pushed false ∧ ¬ FullDuringCall 2 r 0)
    (fun r a => SingleConsumer 2 r.now a)
    (doing 0 (.push 'a') 1 ++ doing 1 (.push 'b') 8 ++ doing 2 .pop 10 ++ [(0, .step)])
    (by decide +kernel)
  exact hfull (hall r hr (by rw [hlen]; decide +kernel) 0 hpc)

end AsyncQueue
end SpeckitLog
