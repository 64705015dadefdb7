import SpeckitLog.CrashHandler
import SpeckitLog.Lib.Progress

/-!
# How long a request waits

The handler of a signal only sets a flag.  On Windows the monitor comes round to it: from
wherever it is in its loop, it takes at most five steps until the callback runs, the sleep of
100 milliseconds among them.  The threads may do in between what they like, but for removing
the handlers, which stops the monitor.

## Main definitions

* `CrashHandler.runsCallback` — a step that runs the callback.
* `CrashHandler.MonitorPc.toCallback` — how far the monitor is from the callback.
* `CrashHandler.Polls`, `CrashHandler.Asked` — the monitor goes round; it is asked for a flush.

## Main results

* `CrashHandler.polls_of_reachable` — the monitor goes round while the handlers are installed.
* `CrashHandler.served_in_time` — **a request is served within five steps of the monitor.**
-/

namespace SpeckitLog
namespace CrashHandler

open Function Transition

variable {ι : Type*} [DecidableEq ι] {s s' : State ι} {e : Event ι}

/-- The event runs the callback. -/
def runsCallback (s : State ι) : Event ι → Bool
  | .monitor => decide (s.monitor = .callback)
  | .thread _ .emergencyFlush => s.callbackSet
  | _ => false

/-- The steps of the monitor until the callback has run. -/
def MonitorPc.toCallback : MonitorPc → ℕ
  | .callback => 1
  | .testCallback => 2
  | .exchange => 3
  | .testStop => 4
  | .sleep => 5
  | .absent | .ended => 6

theorem MonitorPc.toCallback_pos (p : MonitorPc) : 0 < p.toCallback := by
  cases p <;> decide

theorem MonitorPc.toCallback_le {p : MonitorPc} (h : p.gone = false) : p.toCallback ≤ 5 := by
  cases p with
  | absent | ended => contradiction
  | _ => decide

/-- The monitor of installed handlers goes round. -/
def Polls (s : State ι) : Prop :=
  s.installed = true → s.monitor.gone = false ∧ s.stopMonitor = false

theorem polls_deliver (h : Polls s) (i : ι) (signal : Signal) : Polls (s.deliver i signal) := by
  unfold State.deliver
  split <;> exact h

/-- **Every step keeps the monitor going.** -/
theorem Polls.step (h : Polls s) (hstep : Step .windows s e s') : Polls s' := by
  cases hstep with
  | arrive _ | raise _ => exact polls_deliver h _ _
  | initializeHandlers _ => exact fun _ => ⟨rfl, rfl⟩
  | cleanupHandlers => exact nofun
  | testStop _ =>
    intro hinstalled
    obtain ⟨-, hstop⟩ := h hinstalled
    refine ⟨?_, hstop⟩
    show MonitorPc.gone (if s.stopMonitor then _ else _) = false
    rw [hstop]
    rfl
  | exchange _ =>
    intro hinstalled
    refine ⟨?_, (h hinstalled).2⟩
    show MonitorPc.gone (if s.flushRequested then _ else _) = false
    split <;> rfl
  | testCallback _ =>
    intro hinstalled
    refine ⟨?_, (h hinstalled).2⟩
    show MonitorPc.gone (if s.callbackSet then _ else _) = false
    split <;> rfl
  | callback _ | sleep _ => exact fun hinstalled => ⟨rfl, (h hinstalled).2⟩
  | _ => exact h

/-- **The monitor goes round** while the handlers are installed, in every run. -/
theorem polls_of_reachable (h : Reachable (next .windows) Always (init ι .windows) s) :
    Polls s := by
  apply h.invariant
  · exact fun _ => ⟨rfl, rfl⟩
  · intro s e s' _ hpolls _ hnext
    exact hpolls.step (step_of_next hnext).2

/-- The monitor is asked for a flush, and is going to see it. -/
structure Asked (s : State ι) : Prop where
  installed : s.installed = true
  callbackSet : s.callbackSet = true
  polls : Polls s
  request : s.flushRequested = true ∨ s.monitor.flushing = true

/-- The threads leave the handlers where they are. -/
def Event.Keeps (e : Event ι) : Prop := ∀ i, e ≠ .thread i .cleanupHandlers

omit [DecidableEq ι] in
/-- A step that changes nothing that matters here. -/
theorem Asked.frame (h : Asked s) (hinstalled : s'.installed = s.installed)
    (hcallback : s'.callbackSet = s.callbackSet) (hmonitor : s'.monitor = s.monitor)
    (hstop : s'.stopMonitor = s.stopMonitor)
    (hrequest : s.flushRequested = true → s'.flushRequested = true) : Asked s' where
  installed := hinstalled.trans h.installed
  callbackSet := hcallback.trans h.callbackSet
  polls _ := by
    rw [hmonitor, hstop]
    exact h.polls h.installed
  request := by
    rw [hmonitor]
    exact h.request.imp_left hrequest

theorem Asked.deliver (h : Asked s) (i : ι) (signal : Signal) :
    Asked (s.deliver i signal) ∧ (s.deliver i signal).monitor = s.monitor := by
  unfold State.deliver
  split
  · exact ⟨h.frame rfl rfl rfl rfl id, rfl⟩
  · exact ⟨h.frame rfl rfl rfl rfl id, rfl⟩
  · exact ⟨h.frame rfl rfl rfl rfl id, rfl⟩

/-- The step is the monitor's. -/
def Event.ofMonitor : Event ι → Bool
  | .monitor => true
  | .thread _ _ => false

/-- **A step of the monitor brings the callback nearer, and no other step delays it.** -/
theorem Asked.step (h : Asked s) (hkeeps : e.Keeps) (hstep : Step .windows s e s') :
    runsCallback s e = true ∨ Asked s' ∧
      s'.monitor.toCallback + [e].countP Event.ofMonitor ≤ s.monitor.toCallback := by
  obtain ⟨hgone, hstop⟩ := h.polls h.installed
  have hpolls := h.polls.step hstep
  -- a step of a thread that leaves the monitor where it is
  have hthread : ∀ {i : ι} {a : Act}, Asked s' → s'.monitor = s.monitor →
      Asked s' ∧ s'.monitor.toCallback + [Event.thread i a].countP Event.ofMonitor ≤
        s.monitor.toCallback := by
    intro i a hasked hmonitor
    refine ⟨hasked, ?_⟩
    rw [hmonitor]
    exact Nat.le_refl _
  cases hstep with
  | @arrive i signal _ | @raise i signal _ =>
    obtain ⟨hasked, hmonitor⟩ := h.deliver i signal
    exact .inr (hthread hasked hmonitor)
  | nothing => exact .inr (hthread h rfl)
  | setFlushCallback => exact .inr (hthread (h.frame rfl h.callbackSet.symm rfl rfl id) rfl)
  | emergencyFlush hset => exact .inl hset
  | initializeHandlers hmonitor =>
    rw [hgone] at hmonitor
    contradiction
  | @cleanupHandlers i => exact absurd rfl (hkeeps i)
  | ignore _ | restore _ | defer _ => exact .inr (hthread (h.frame rfl rfl rfl rfl id) rfl)
  | request _ => exact .inr (hthread (h.frame rfl rfl rfl rfl fun _ => rfl) rfl)
  | testStop hpc =>
    refine .inr ⟨⟨h.installed, h.callbackSet, hpolls, ?_⟩, ?_⟩
    · refine h.request.imp_right fun hflushing => ?_
      rw [hpc] at hflushing
      contradiction
    · simp [hpc, hstop, MonitorPc.toCallback, Event.ofMonitor]
  | exchange hpc =>
    -- the request that is open is taken
    have hrequested : s.flushRequested = true := by
      rcases h.request with hrequested | hflushing
      · exact hrequested
      · rw [hpc] at hflushing
        contradiction
    refine .inr ⟨⟨h.installed, h.callbackSet, hpolls, .inr ?_⟩, ?_⟩
    · simp [hrequested, MonitorPc.flushing]
    · simp [hpc, hrequested, MonitorPc.toCallback, Event.ofMonitor]
  | testCallback hpc =>
    refine .inr ⟨⟨h.installed, h.callbackSet, hpolls, .inr ?_⟩, ?_⟩
    · simp [h.callbackSet, MonitorPc.flushing]
    · simp [hpc, h.callbackSet, MonitorPc.toCallback, Event.ofMonitor]
  | callback hpc => exact .inl (decide_eq_true hpc)
  | sleep hpc =>
    refine .inr ⟨⟨h.installed, h.callbackSet, hpolls, ?_⟩, ?_⟩
    · refine h.request.imp_right fun hflushing => ?_
      rw [hpc] at hflushing
      contradiction
    · simp [hpc, MonitorPc.toCallback, Event.ofMonitor]

/-- **A request is served within five steps of the monitor**: from every reachable state on
Windows in which the handlers are installed, the callback is set and a flush is asked for,
every run in which nobody removes the handlers, and the monitor takes five steps, runs the
callback. -/
theorem served_in_time {events : List (Event ι)}
    (hs : Reachable (next .windows) Always (init ι .windows) s) (hinstalled : s.installed = true)
    (hset : s.callbackSet = true) (hasked : s.flushRequested = true ∨ s.monitor.flushing = true)
    (hrun : run (next .windows) (fun _ _ => true) s events = some s')
    (hkeeps : ∀ e ∈ events, e.Keeps) (hfive : 5 ≤ events.countP Event.ofMonitor) :
    ∃ before e after s₁, events = before ++ e :: after ∧
      run (next .windows) (fun _ _ => true) s before = some s₁ ∧ runsCallback s₁ e = true := by
  have hpolls := polls_of_reachable hs
  apply exists_serve_of_rank (fun s : State ι => s.monitor.toCallback) Event.ofMonitor (I := Asked)
    (fun s _ => s.monitor.toCallback_pos) ?_ ⟨hinstalled, hset, hpolls, hasked⟩ hrun hkeeps
  · exact (MonitorPc.toCallback_le (hpolls hinstalled).1).trans hfive
  · intro s e s' hasked hkeeps hnext
    exact hasked.step hkeeps (step_of_next hnext).2

/-- A signal is handled while the monitor sleeps; the thread stays in its handler, and the
monitor comes round. -/
theorem served_in_time_asleep : ∃ (s s₁ : State (Fin 1)) (before : List (Event (Fin 1))),
    s.monitor = .sleep ∧ before.length < 5 ∧
      run (next .windows) (fun _ _ => true) s before = some s₁ ∧ s₁.monitor = .callback := by
  have hrun : ((run (next .windows) (fun _ _ => true) (init (Fin 1) .windows)
      ([.thread 0 .setFlushCallback, .monitor, .monitor] ++
        [.thread 0 (.arrive .segv), .thread 0 .step, .thread 0 .step])).any fun s =>
      decide (s.installed = true ∧ s.callbackSet = true ∧ s.flushRequested = true ∧
        s.monitor = .sleep) && (run (next .windows) (fun _ _ => true) s
          (List.replicate 5 .monitor)).isSome) = true := by decide +kernel
  obtain ⟨s, hs, hrest⟩ := (Option.any_eq_true ..).mp hrun
  obtain ⟨hstate, hsome⟩ := Bool.and_eq_true_iff.mp hrest
  obtain ⟨hinstalled, hset, hrequested, hsleep⟩ := of_decide_eq_true hstate
  obtain ⟨s', hs'⟩ := Option.isSome_iff_exists.mp hsome
  have hreach : Reachable (next .windows) Always (init (Fin 1) .windows) s :=
    (reachable_of_run hs).mono fun _ _ _ => trivial
  have hkeeps : ∀ e ∈ List.replicate 5 (Event.monitor : Event (Fin 1)), e.Keeps := by
    intro e he i
    rw [List.eq_of_mem_replicate he]
    exact nofun
  obtain ⟨before, e, after, s₁, heq, hbefore, hserves⟩ :=
    served_in_time hreach hinstalled hset (.inl hrequested) hs' hkeeps (by decide)
  have hmonitor : e = .monitor := by
    apply List.eq_of_mem_replicate (n := 5)
    rw [heq]
    simp
  have hlength := congrArg List.length heq
  simp only [List.length_replicate, List.length_append, List.length_cons] at hlength
  subst hmonitor
  exact ⟨s, s₁, before, hsleep, by omega, hbefore, of_decide_eq_true hserves⟩

end CrashHandler
end SpeckitLog
