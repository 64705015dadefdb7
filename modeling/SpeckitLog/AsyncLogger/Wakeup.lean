import SpeckitLog.AsyncLogger.Shutdown

/-!
# Wake-ups

A `log` call that puts its entry into the queue releases the semaphore, and the
writer drains the queue after every acquire; so as long as the entry of a call that
has returned is in the queue, a permit is there or the writer is on its way.  It
does not matter whether several releases collapse into one.

## Main definitions

* `Atomic.Watched` — the logger, and how far `deinitialize` has come.
* `Atomic.NoWakeUpLost` — who looks after the entries of the queue.
* `Atomic.Signalled` — the invariant: a permit, or a writer on its way.

## Main results

* `Atomic.noWakeUpLost` — **no wake-up is lost**, in any run.
-/

namespace SpeckitLog
namespace AsyncLogger

open Function Transition

variable {ι ε : Type*}

/-! ### Program points -/

/-- The flush is one of `writerThread`. -/
def After.OfWriter : After → Prop
  | .writer | .lastOfWriter => True
  | _ => False

/-- The program point is in `writerThread`. -/
def Pc.OfWriter : Pc ι ε → Prop
  | .testStop | .acquire | .testStopAgain | .ended => True
  | .queuePop k | .ringPop k _ | .write k _ _ => k.OfWriter
  | _ => False

/-- The writer has passed `acquire` and has not drained the queue since. -/
def Pc.Woken : Pc ι ε → Prop
  | .testStopAgain | .queuePop .writer | .queuePop .lastOfWriter => True
  | _ => False

/-- The next step releases the semaphore. -/
def Pc.Releases : Pc ι ε → Prop
  | .release | .releaseStop => True
  | _ => False

/-- The next step is the release of `deinitialize`. -/
def Pc.releasesStop : Pc ι ε → Bool
  | .releaseStop => true
  | _ => false

/-- The next step is the `popAll` of the queue in the last flush of `deinitialize`. -/
def Pc.drainsLast : Pc ι ε → Bool
  | .queuePop .deinit => true
  | _ => false

theorem Pc.eq_releaseStop {p : Pc ι ε} (h : p.releasesStop = true) : p = .releaseStop := by
  cases p with
  | releaseStop => rfl
  | _ => exact absurd h Bool.false_ne_true

theorem Pc.eq_queuePop {p : Pc ι ε} (h : p.drainsLast = true) : p = .queuePop .deinit := by
  cases p with
  | queuePop k =>
    cases k with
    | deinit => rfl
    | _ => exact absurd h Bool.false_ne_true
  | _ => exact absurd h Bool.false_ne_true

theorem After.pc_ofWriter {k : After} (h : (k.pc : Pc ι ε).OfWriter) : k.OfWriter := by
  cases k <;> exact h

variable [DecidableEq ι]

/-- Only the writer is ever in `writerThread`. -/
theorem Control.Step.ofWriter {c c' : Control ι ε} {i : Thread ι} {a : Act ε}
    (h : Control.Step c i a c') (hp : (c'.pc i).OfWriter) : (c.pc i).OfWriter := by
  have hself : ∀ {p : Pc ι ε}, (update c.pc i p i).OfWriter → p.OfWriter := fun hp => by
    rwa [update_self] at hp
  cases h with
  | setLogLevel => exact hp
  | @writeQueue k x qs rs hpc =>
    rw [hpc]
    exact hself (p := .write k qs rs) hp
  | @writeRing k x rs hpc =>
    rw [hpc]
    exact hself (p := .write k [] rs) hp
  | written hpc =>
    rw [hpc]
    exact After.pc_ofWriter (hself hp)
  | stopped hpc | running hpc | acquire hpc | lastFlush hpc | nextFlush hpc =>
    rw [hpc]
    trivial
  | _ => exact absurd (hself hp) not_false

/-- A release leaves a permit, whether it counts or saturates. -/
theorem Control.Step.sem_pos {c c' : Control ι ε} {i : Thread ι} {a : Act ε}
    (h : Control.Step c i a c') (hp : (c.pc i).Releases) : 0 < c'.sem := by
  cases h with
  | release _ hn | releaseStop _ hn => exact hn
  | callLog hpc _ | callFlush hpc _ | setLogLevel hpc _ | callDeinit hpc _ | emergency hpc _
  | filtered hpc _ | reaches hpc _ | uninitialized hpc _ | pass hpc _ | stopped hpc _
  | running hpc _ | acquire hpc _ | lastFlush hpc _ | nextFlush hpc _ | deinitAgain hpc _
  | deinitStart hpc _ | join hpc _ =>
    rw [hpc] at hp
    exact hp.elim
  | writeQueue hpc | writeRing hpc | written hpc | requestStop hpc | clearInitialized hpc =>
    rw [hpc] at hp
    exact hp.elim

namespace Atomic

/-! ### The logger under observation -/

/-- The logger; history: how far `deinitialize` has come. -/
structure Watched (ι ε : Type*) where
  logger : State ι ε
  /-- It has released the semaphore. -/
  released : Bool
  /-- Its last flush has drained the queue. -/
  drained : Bool

/-- After `initialize`. -/
def Watched.init (ι ε : Type*) : Watched ι ε := ⟨Atomic.init ι ε, false, false⟩

/-- One step of one thread. -/
def Watched.next (cap : ℕ) (s : Watched ι ε) (a : Thread ι × Act ε) : Option (Watched ι ε) :=
  (Atomic.next cap s.logger a).map fun l =>
    { logger := l
      released := s.released || (s.logger.control.pc a.1).releasesStop
      drained := s.drained || (s.logger.control.pc a.1).drainsLast }

/-- The `log` call of an entry of the queue has returned: its thread is not about to
release the semaphore in that call. -/
def State.Returned (s : State ι ε) (x : LogCall ι ε) : Prop :=
  ¬ (s.control.pc x.thread = .release ∧ s.control.calls x.thread = x.number + 1)

/-- The writer has ended, or will end because of the stop request. -/
def State.WriterStops (s : State ι ε) : Prop :=
  s.control.pc .writer = .ended ∨ s.control.stopRequested = true

/-- **No wake-up is lost.** -/
structure NoWakeUpLost (s : Watched ι ε) : Prop where
  /-- Who looks after an entry whose call has returned. -/
  served : ∀ x ∈ s.logger.queue, s.logger.Returned x →
    0 < s.logger.control.sem ∨ (s.logger.control.pc .writer).Woken ∨
      s.logger.WriterStops ∧ s.drained = false
  /-- The release of `deinitialize` reaches the writer. -/
  unblocked : s.released = true → s.logger.control.pc .writer = .acquire →
    0 < s.logger.control.sem

/-- The invariant behind it. -/
structure Signalled (s : Watched ι ε) : Prop where
  numbered : s.logger.control.Numbered
  /-- An entry in the hands of a thread is of its running call. -/
  own : ∀ i x, s.logger.control.pc i = .queuePush x →
    x.thread = i ∧ s.logger.control.calls i = x.number + 1
  writer : ∀ i, (s.logger.control.pc i).OfWriter → i = .writer
  signal : ∀ x ∈ s.logger.queue, s.logger.Returned x →
    0 < s.logger.control.sem ∨ (s.logger.control.pc .writer).Woken
  stop : ∀ i, s.logger.control.pc i = .releaseStop → s.logger.control.stopRequested = true
  stopped : s.released = true → s.logger.control.stopRequested = true
  unblocked : s.released = true → s.logger.control.pc .writer = .acquire →
    0 < s.logger.control.sem

variable {cap : ℕ} {s s' : State ι ε} {i : Thread ι}

/-- Only the writer is ever in `writerThread`. -/
theorem Step.ofWriter {a : Act ε} (hstep : Step cap s i a s')
    (h : ∀ j, (s.control.pc j).OfWriter → j = .writer) :
    ∀ j, (s'.control.pc j).OfWriter → j = .writer := by
  intro j hj
  by_cases hji : j = i
  · subst hji
    have hself : ∀ {p : Pc ι ε}, (update s.control.pc j p j).OfWriter → p.OfWriter := fun hp => by
      rwa [update_self] at hp
    refine h j ?_
    cases hstep with
    | control hc => exact hc.ofWriter hj
    | @queuePop k hpc =>
      rw [hpc]
      have hj := hself hj
      cases k <;> exact hj
    | @ringPop k qs hpc =>
      rw [hpc]
      exact hself (p := .write k qs s.ring) hj
    | _ => exact absurd (hself hj) not_false
  · rw [hstep.pc_of_ne hji] at hj
    exact h j hj

/-- An entry in the hands of a thread is of its running call. -/
theorem Step.own {a : Act ε} (hstep : Step cap s i a s') (hnum : s.control.Numbered)
    (h : ∀ j x, s.control.pc j = .queuePush x →
      x.thread = j ∧ s.control.calls j = x.number + 1) :
    ∀ j x, s'.control.pc j = .queuePush x →
      x.thread = j ∧ s'.control.calls j = x.number + 1 := by
  intro j x hj
  by_cases hji : j = i
  · subst hji
    cases hstep with
    | control hc =>
      cases hc with
      | setLogLevel => exact h j x hj
      | @pass y hpc _ =>
        obtain rfl := Pc.queuePush.inj (eq_of_update_self hj)
        obtain ⟨hthread, hnumber, -⟩ := hnum.checking j y (by rw [hpc]; rfl)
        exact ⟨hthread, hnumber.symm⟩
      | @reaches level y hpc _ => exact absurd (eq_of_update_self hj) nofun
      | @written k hpc => cases k <;> exact absurd (eq_of_update_self hj) nofun
      | _ => exact absurd (eq_of_update_self hj) nofun
    | @queuePop k hpc => cases k <;> exact absurd (eq_of_update_self hj) nofun
    | _ => exact absurd (eq_of_update_self hj) nofun
  · rw [hstep.pc_of_ne hji] at hj
    obtain ⟨hthread, hcalls⟩ := h j x hj
    refine ⟨hthread, ?_⟩
    cases hstep with
    | control hc => exact (hc.calls_of_ne hji).trans hcalls
    | _ => exact hcalls

/-- What a step does to the semaphore: only the writer takes a permit. -/
theorem Step.sem {a : Act ε} (hstep : Step cap s i a s') :
    s'.control.sem = s.control.sem ∨ 0 < s'.control.sem ∨
      s.control.pc i = .acquire ∧ s'.control.pc i = .testStopAgain := by
  cases hstep with
  | control hc =>
    cases hc with
    | release _ hn => exact Or.inr (Or.inl hn)
    | releaseStop _ hn => exact Or.inr (Or.inl hn)
    | acquire hpc _ => exact Or.inr (Or.inr ⟨hpc, update_self ..⟩)
    | _ => exact Or.inl rfl
  | _ => exact Or.inl rfl

/-- The writer drains the queue after `acquire`. -/
theorem Step.woken {a : Act ε} (hstep : Step cap s i a s') (h : (s.control.pc i).Woken) :
    (s'.control.pc i).Woken ∨ s'.queue = [] := by
  cases hstep with
  | control hc =>
    cases hc with
    | lastFlush _ _ | nextFlush _ _ =>
      refine Or.inl ?_
      show (update s.control.pc i _ i).Woken
      rw [update_self]
      trivial
    | callLog hpc _ | callFlush hpc _ | setLogLevel hpc _ | callDeinit hpc _
    | emergency hpc _ | filtered hpc _ | reaches hpc _ | uninitialized hpc _ | pass hpc _
    | release hpc _ | stopped hpc _ | running hpc _ | acquire hpc _ | deinitAgain hpc _
    | deinitStart hpc _ | releaseStop hpc _ | join hpc _ =>
      rw [hpc] at h
      exact h.elim
    | writeQueue hpc | writeRing hpc | written hpc | requestStop hpc | clearInitialized hpc =>
      rw [hpc] at h
      exact h.elim
  | queueTakes hpc _ | queueFull hpc _ | ringTakes hpc _ | ringFull hpc _ =>
    rw [hpc] at h
    exact h.elim
  | ringPop hpc =>
    rw [hpc] at h
    exact h.elim
  | queuePop => exact Or.inr rfl

/-- An entry of the queue was there before, or is one whose call is about to release. -/
theorem Step.queue_mem {a : Act ε} (hstep : Step cap s i a s') {x : LogCall ι ε}
    (hx : x ∈ s'.queue) : x ∈ s.queue ∨ s.control.pc i = .queuePush x ∧
      s'.control.pc i = .release ∧ s'.control.calls = s.control.calls := by
  cases hstep with
  | control _ => exact Or.inl hx
  | @queueTakes y hpc _ =>
    rcases List.mem_append.mp hx with hx | hx
    · exact Or.inl hx
    · obtain rfl := List.mem_singleton.mp hx
      exact Or.inr ⟨hpc, update_self .., rfl⟩
  | queueFull _ _ | ringTakes _ _ | ringFull _ _ => exact Or.inl hx
  | ringPop _ => exact Or.inl hx
  | queuePop _ => exact absurd hx List.not_mem_nil

/-- A release leaves a permit. -/
theorem Step.sem_pos {a : Act ε} (hstep : Step cap s i a s') (hp : (s.control.pc i).Releases) :
    0 < s'.control.sem := by
  cases hstep with
  | control hc => exact hc.sem_pos hp
  | queueTakes hpc _ | queueFull hpc _ | ringTakes hpc _ | ringFull hpc _ =>
    rw [hpc] at hp
    exact hp.elim
  | queuePop hpc | ringPop hpc =>
    rw [hpc] at hp
    exact hp.elim

/-- A call that returns has released the semaphore. -/
theorem Step.returned {a : Act ε} (hstep : Step cap s i a s') {x : LogCall ι ε}
    (hx : s'.Returned x) : s.Returned x ∨ 0 < s'.control.sem := by
  by_contra hnot
  obtain ⟨hbefore, hsem⟩ := not_or.mp hnot
  obtain ⟨hpc, hcalls⟩ := not_not.mp hbefore
  by_cases hxi : x.thread = i
  · -- the step is the release of that call
    rw [hxi] at hpc
    refine hsem (hstep.sem_pos ?_)
    rw [hpc]
    trivial
  · refine hx ⟨(hstep.pc_of_ne hxi).trans hpc, ?_⟩
    cases hstep with
    | control hc => exact (hc.calls_of_ne hxi).trans hcalls
    | _ => exact hcalls

/-- A stop request stays, and is there before the release of `deinitialize`. -/
theorem Step.stopRequested {a : Act ε} (hstep : Step cap s i a s')
    (h : ∀ j, s.control.pc j = .releaseStop → s.control.stopRequested = true) :
    (s.control.stopRequested = true → s'.control.stopRequested = true) ∧
      ∀ j, s'.control.pc j = .releaseStop → s'.control.stopRequested = true := by
  have hkeep : s.control.stopRequested = true → s'.control.stopRequested = true := by
    intro hstop
    cases hstep with
    | control hc => cases hc <;> first | exact hstop | rfl
    | _ => exact hstop
  refine ⟨hkeep, fun j hj => ?_⟩
  by_cases hji : j = i
  · subst hji
    cases hstep with
    | control hc =>
      cases hc with
      | setLogLevel => exact h j hj
      | requestStop => rfl
      | @written k hpc => cases k <;> exact absurd (eq_of_update_self hj) nofun
      | _ => exact absurd (eq_of_update_self hj) nofun
    | @queuePop k hpc => cases k <;> exact absurd (eq_of_update_self hj) nofun
    | _ => exact absurd (eq_of_update_self hj) nofun
  · rw [hstep.pc_of_ne hji] at hj
    exact hkeep (h j hj)

/-- The writer goes to `acquire` only before the stop request. -/
theorem Step.acquire {a : Act ε} (hstep : Step cap s i a s')
    (h : s'.control.pc i = .acquire) :
    s.control.pc i = .acquire ∧ s'.control.sem = s.control.sem ∨
      s.control.stopRequested = false := by
  cases hstep with
  | control hc =>
    cases hc with
    | setLogLevel => exact Or.inl ⟨h, rfl⟩
    | running _ hstop => exact Or.inr hstop
    | @written k hpc => cases k <;> exact absurd (eq_of_update_self h) nofun
    | _ => exact absurd (eq_of_update_self h) nofun
  | @queuePop k hpc => cases k <;> exact absurd (eq_of_update_self h) nofun
  | _ => exact absurd (eq_of_update_self h) nofun

/-! ### No wake-up is lost -/

omit [DecidableEq ι] in
theorem signalled_init : Signalled (Watched.init ι ε) where
  numbered := Control.numbered_init
  own i x hx := by cases i <;> cases hx
  writer i hi := by
    cases i with
    | writer => rfl
    | _ => exact hi.elim
  signal x hx := absurd hx List.not_mem_nil
  stop i hi := by cases i <;> cases hi
  stopped := nofun
  unblocked := nofun

/-- An entry whose call has returned is looked after. -/
theorem Signalled.signal_step {t : Watched ι ε} (h : Signalled t) {a : Act ε}
    (hstep : Step cap t.logger i a s') {x : LogCall ι ε} (hx : x ∈ s'.queue)
    (hreturned : s'.Returned x) : 0 < s'.control.sem ∨ (s'.control.pc .writer).Woken := by
  rcases hstep.queue_mem hx with hold | ⟨hpc, hrelease, hcalls⟩
  swap
  · -- the call that has just pushed the entry has not returned
    obtain ⟨hthread, hnumber⟩ := h.own i x hpc
    refine absurd ⟨?_, ?_⟩ hreturned
    · rw [hthread, hrelease]
    · rw [hcalls, hthread, hnumber]
  rcases hstep.returned hreturned with hbefore | hsem
  swap
  · exact Or.inl hsem
  -- the permit of before is still there, or the writer has taken it
  rcases h.signal x hold hbefore with hpos | hwoken
  · rcases hstep.sem with hsame | hsem | ⟨hacquire, hagain⟩
    · exact Or.inl (hsame ▸ hpos)
    · exact Or.inl hsem
    · obtain rfl := h.writer i (by rw [hacquire]; trivial)
      refine Or.inr ?_
      rw [hagain]
      trivial
  · by_cases hi : i = .writer
    · subst hi
      rcases hstep.woken hwoken with hwoken | hempty
      · exact Or.inr hwoken
      · rw [hempty] at hx
        exact absurd hx List.not_mem_nil
    · rw [hstep.pc_of_ne (Ne.symm hi)]
      exact Or.inr hwoken

/-- The writer is not left at `acquire`. -/
theorem Signalled.unblocked_step {t : Watched ι ε} (h : Signalled t) {a : Act ε}
    (hstep : Step cap t.logger i a s')
    (hr : t.released = true ∨ t.logger.control.pc i = .releaseStop)
    (hacquire : s'.control.pc .writer = .acquire) : 0 < s'.control.sem := by
  by_cases hpc : t.logger.control.pc i = .releaseStop
  · refine hstep.sem_pos ?_
    rw [hpc]
    trivial
  have hreleased : t.released = true := hr.resolve_right hpc
  by_cases hi : i = .writer
  · subst hi
    rcases hstep.acquire hacquire with ⟨hbefore, hsame⟩ | hrunning
    · rw [hsame]
      exact h.unblocked hreleased hbefore
    · rw [h.stopped hreleased] at hrunning
      contradiction
  · rw [hstep.pc_of_ne (Ne.symm hi)] at hacquire
    have hpos := h.unblocked hreleased hacquire
    rcases hstep.sem with hsame | hsem | ⟨hother, -⟩
    · rwa [hsame]
    · exact hsem
    · exact absurd (h.writer i (by rw [hother]; trivial)) hi

/-- **Every step keeps the invariant.** -/
theorem Signalled.step {t t' : Watched ι ε} {a : Thread ι × Act ε} (h : Signalled t)
    (hnext : Watched.next cap t a = some t') : Signalled t' := by
  obtain ⟨l, hl, rfl⟩ := Option.map_eq_some_iff.mp hnext
  have hstep := step_of_next hl
  obtain ⟨hkeep, hstop⟩ := hstep.stopRequested h.stop
  have hreleased : (t.released || (t.logger.control.pc a.1).releasesStop) = true →
      t.released = true ∨ t.logger.control.pc a.1 = .releaseStop := fun hr =>
    ((Bool.or_eq_true _ _).mp hr).imp_right Pc.eq_releaseStop
  exact
    { numbered := hstep.numbered h.numbered
      own := hstep.own h.numbered h.own
      writer := hstep.ofWriter h.writer
      signal := fun x hx hreturned => h.signal_step hstep hx hreturned
      stop := hstop
      stopped := fun hr => hkeep ((hreleased hr).elim h.stopped (h.stop a.1))
      unblocked := fun hr hacquire => h.unblocked_step hstep (hreleased hr) hacquire }

/-- **No wake-up is lost**, in any run of any number of threads. -/
theorem noWakeUpLost {s : Watched ι ε}
    (hs : Reachable (Watched.next cap) Always (Watched.init ι ε) s) : NoWakeUpLost s := by
  have h : Signalled s := hs.invariant signalled_init fun _ _ _ _ h _ hnext => h.step hnext
  refine ⟨fun x hx hreturned => ?_, h.unblocked⟩
  exact (h.signal x hx hreturned).imp_right Or.inl

/-- Two calls have returned and their releases have become one permit; both entries
wait for the writer. -/
theorem noWakeUpLost_two_entries :
    ∃ t : Watched (Fin 2) Char, t.logger.queue = [⟨.app 0, 0, 'a'⟩, ⟨.app 1, 0, 'b'⟩] ∧
      t.logger.control.sem = 1 ∧ NoWakeUpLost t := by
  obtain ⟨t, hs, hqueue, hsem⟩ := exists_reachable_of_decide (Watched.next 2)
    (Watched.init (Fin 2) Char)
    (fun t => t.logger.queue = [⟨.app 0, 0, 'a'⟩, ⟨.app 1, 0, 'b'⟩] ∧
      t.logger.control.sem = 1)
    Always
    (doing (.app 0) (.log .info 'a') 3
      ++ doing (.app 1) (.log .info 'b') 3
      ++ steps (.app 0) 1 ++ doing (.app 1) .saturate 0 ++ steps .writer 1) (by decide +kernel)
  exact ⟨t, hqueue, hsem, noWakeUpLost hs⟩

end Atomic
end AsyncLogger
end SpeckitLog
