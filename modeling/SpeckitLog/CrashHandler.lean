import SpeckitLog.FileManager
import SpeckitLog.Lib.Transition
import Mathlib.Data.Fintype.Basic

/-!
# The crash handler

A handled signal sets `flush_requested_` and is raised again with its default
action; on Windows a monitor thread polls the flag and runs the flush callback, and
on the other platform nobody does.  The handler does not wait for the monitor, so
the process may end before the callback has run, or has even started.

## Main definitions

* `CrashHandler.State`, `CrashHandler.next`, `CrashHandler.Step` — the threads, the
  monitor, the signals.
* `CrashHandler.FlushedBeforeEnd` — what a crash should leave behind.
* `CrashHandler.MonitorFirst` — the monitor comes round between the handler's store to the
  flag and the end of the process.
* `CrashHandler.Served` — the request has been taken back, and served.

## Main results

* `CrashHandler.Polled.step` — a monitor that has come round since the last store has
  served the request.
* `CrashHandler.flushedBeforeEnd` — nothing is lost in the schedules where the monitor is
  first.
* `CrashHandler.requested_of_macos` — without a monitor no request is ever served.
* `CrashHandler.not_flushedBeforeEnd_raise` — the handler wins the race.
-/

namespace SpeckitLog
namespace CrashHandler

open Function Transition

/-! ### The model -/

/-- `kHandledSignals`. -/
inductive Signal
  | segv
  | abrt
  deriving DecidableEq

/-- What a signal does when it is delivered. -/
inductive Disposition
  | default
  | ignore
  | handler
  deriving DecidableEq

/-- Where a thread is in `signalHandler`. -/
inductive HandlerPc
  | outside
  /-- `std::signal(signal, SIG_IGN)`. -/
  | ignore (signal : Signal)
  /-- `flush_requested_.store(true)`. -/
  | request (signal : Signal)
  /-- `std::signal(signal, SIG_DFL)`. -/
  | restore (signal : Signal)
  /-- `std::raise(signal)`. -/
  | raise (signal : Signal)
  /-- The raised signal is delivered when the handler returns. -/
  | pending (signal : Signal)
  deriving DecidableEq

/-- Where the monitor thread is. -/
inductive MonitorPc
  | absent
  | testStop
  /-- `flush_requested_.exchange(false)`. -/
  | exchange
  /-- `emergencyFlush`: is a callback set? -/
  | testCallback
  /-- The callback runs. -/
  | callback
  | sleep
  | ended
  deriving DecidableEq

/-- The monitor is in `emergencyFlush`. -/
def MonitorPc.flushing : MonitorPc → Bool
  | .testCallback | .callback => true
  | _ => false

/-- The thread has entered the handler and has not set the flag. -/
def HandlerPc.entering : HandlerPc → Bool
  | .ignore _ | .request _ => true
  | _ => false

/-- The signal that the thread has raised again, or is about to. -/
def HandlerPc.raised : HandlerPc → Option Signal
  | .raise signal | .pending signal => some signal
  | _ => none

theorem HandlerPc.not_entering_of_raised {p : HandlerPc} {signal : Signal}
    (h : p.raised = some signal) : p.entering = false := by
  cases p with
  | raise | pending => rfl
  | _ => contradiction

/-- The process, with threads `ι`. -/
structure State (ι : Type*) where
  disposition : Signal → Disposition
  /-- `initialized_`. -/
  installed : Bool
  callbackSet : Bool
  flushRequested : Bool
  stopMonitor : Bool
  handler : ι → HandlerPc
  monitor : MonitorPc
  terminated : Bool
  /-- History: a signal was handled in this thread while a callback was set, and no
  callback has completed since. -/
  owed : ι → Bool

variable {ι : Type*} [DecidableEq ι]

/-- `initializeHandlers` of the handler that installs. -/
def State.initializeHandlers (os : Os) (s : State ι) : State ι :=
  { s with
    installed := true
    disposition := fun _ => .handler
    stopMonitor := match os with | .windows => false | .macos => s.stopMonitor
    monitor := match os with | .windows => .testStop | .macos => s.monitor }

/-- `cleanupHandlers` of the handler that installed. -/
def State.cleanupHandlers (os : Os) (s : State ι) : State ι :=
  { s with
    installed := false
    disposition := fun _ => .default
    stopMonitor := match os with | .windows => true | .macos => s.stopMonitor }

/-- A signal is delivered to thread `i`; a handled one gets its default action back
at that moment, on both platforms. -/
def State.deliver (s : State ι) (i : ι) (signal : Signal) : State ι :=
  match s.disposition signal with
  | .default => { s with terminated := true }
  | .ignore => { s with handler := update s.handler i .outside }
  | .handler =>
    { s with
      disposition := update s.disposition signal .default
      handler := update s.handler i (.ignore signal)
      owed := if s.callbackSet then update s.owed i true else s.owed }

/-- A process whose first handler has been constructed. -/
def init (ι : Type*) [DecidableEq ι] (os : Os) : State ι :=
  State.initializeHandlers os
    { disposition := fun _ => .default
      installed := false
      callbackSet := false
      flushRequested := false
      stopMonitor := false
      handler := fun _ => .outside
      monitor := .absent
      terminated := false
      owed := fun _ => false }

/-- What a thread of the application does. -/
inductive Act
  /-- A signal reaches the thread. -/
  | arrive (signal : Signal)
  /-- The next step of the handler. -/
  | step
  /-- The raised signal is blocked until the handler returns. -/
  | defer
  | setFlushCallback
  /-- A call of `emergencyFlush` from outside the handler. -/
  | emergencyFlush
  | initializeHandlers
  | cleanupHandlers
  deriving DecidableEq

/-- One step of a thread, or of the monitor. -/
inductive Event (ι : Type*)
  | thread (i : ι) (a : Act)
  | monitor
  deriving DecidableEq

/-- The monitor is gone: `stopMonitor` has joined it. -/
def MonitorPc.gone : MonitorPc → Bool
  | .absent | .ended => true
  | _ => false

/-- A step of thread `i`. -/
def threadNext (os : Os) (s : State ι) (i : ι) : HandlerPc → Act → Option (State ι)
  | .outside, .arrive signal => some (s.deliver i signal)
  | .outside, .setFlushCallback => some { s with callbackSet := true }
  | .outside, .emergencyFlush =>
    some (if s.callbackSet then { s with owed := fun _ => false } else s)
  | .outside, .initializeHandlers =>
    if s.installed then some s
    else if s.monitor.gone then some (s.initializeHandlers os) else none
  | .outside, .cleanupHandlers => some (if s.installed then s.cleanupHandlers os else s)
  | .ignore signal, .step =>
    some { s with
      disposition := update s.disposition signal .ignore
      handler := update s.handler i (.request signal) }
  | .request signal, .step =>
    some { s with flushRequested := true, handler := update s.handler i (.restore signal) }
  | .restore signal, .step =>
    some { s with
      disposition := update s.disposition signal .default
      handler := update s.handler i (.raise signal) }
  | .raise signal, .step => some (s.deliver i signal)
  | .raise signal, .defer => some { s with handler := update s.handler i (.pending signal) }
  | .pending signal, .step => some (s.deliver i signal)
  | _, _ => none

/-- A step of the monitor. -/
def monitorNext (s : State ι) : Option (State ι) :=
  match s.monitor with
  | .testStop => some { s with monitor := if s.stopMonitor then .ended else .exchange }
  | .exchange =>
    some { s with
      flushRequested := false
      monitor := if s.flushRequested then .testCallback else .sleep }
  | .testCallback => some { s with monitor := if s.callbackSet then .callback else .sleep }
  | .callback => some { s with monitor := .sleep, owed := fun _ => false }
  | .sleep => some { s with monitor := .testStop }
  | .absent | .ended => none

/-- One step; a process that has ended takes none. -/
def next (os : Os) (s : State ι) (e : Event ι) : Option (State ι) :=
  if s.terminated then none
  else
    match e with
    | .thread i a => threadNext os s i (s.handler i) a
    | .monitor => monitorNext s

/-- The steps, one constructor for each kind. -/
inductive Step (os : Os) (s : State ι) : Event ι → State ι → Prop
  | arrive {i : ι} {signal : Signal} (hpc : s.handler i = .outside) :
      Step os s (.thread i (.arrive signal)) (s.deliver i signal)
  | raise {i : ι} {signal : Signal} (h : (s.handler i).raised = some signal) :
      Step os s (.thread i .step) (s.deliver i signal)
  /-- There is no callback to run, or the handlers are installed, or not, as asked for. -/
  | nothing {i : ι} {a : Act} : Step os s (.thread i a) s
  | setFlushCallback {i : ι} :
      Step os s (.thread i .setFlushCallback) { s with callbackSet := true }
  | emergencyFlush {i : ι} (h : s.callbackSet = true) :
      Step os s (.thread i .emergencyFlush) { s with owed := fun _ => false }
  | initializeHandlers {i : ι} (h : s.monitor.gone = true) :
      Step os s (.thread i .initializeHandlers) (s.initializeHandlers os)
  | cleanupHandlers {i : ι} : Step os s (.thread i .cleanupHandlers) (s.cleanupHandlers os)
  | ignore {i : ι} {signal : Signal} (hpc : s.handler i = .ignore signal) :
      Step os s (.thread i .step)
        { s with
          disposition := update s.disposition signal .ignore
          handler := update s.handler i (.request signal) }
  | request {i : ι} {signal : Signal} (hpc : s.handler i = .request signal) :
      Step os s (.thread i .step)
        { s with flushRequested := true, handler := update s.handler i (.restore signal) }
  | restore {i : ι} {signal : Signal} (hpc : s.handler i = .restore signal) :
      Step os s (.thread i .step)
        { s with
          disposition := update s.disposition signal .default
          handler := update s.handler i (.raise signal) }
  | defer {i : ι} {signal : Signal} (hpc : s.handler i = .raise signal) :
      Step os s (.thread i .defer) { s with handler := update s.handler i (.pending signal) }
  | testStop (hpc : s.monitor = .testStop) :
      Step os s .monitor { s with monitor := if s.stopMonitor then .ended else .exchange }
  | exchange (hpc : s.monitor = .exchange) :
      Step os s .monitor
        { s with
          flushRequested := false
          monitor := if s.flushRequested then .testCallback else .sleep }
  | testCallback (hpc : s.monitor = .testCallback) :
      Step os s .monitor { s with monitor := if s.callbackSet then .callback else .sleep }
  | callback (hpc : s.monitor = .callback) :
      Step os s .monitor { s with monitor := .sleep, owed := fun _ => false }
  | sleep (hpc : s.monitor = .sleep) : Step os s .monitor { s with monitor := .testStop }

theorem step_of_threadNext {os : Os} {s s' : State ι} {i : ι} {a : Act}
    (h : threadNext os s i (s.handler i) a = some s') : Step os s (.thread i a) s' := by
  unfold threadNext at h
  split at h
  case h_1 signal hpc => exact Option.some.inj h ▸ .arrive hpc
  case h_2 => exact Option.some.inj h ▸ .setFlushCallback
  case h_3 =>
    obtain rfl := Option.some.inj h
    split
    · next hset => exact .emergencyFlush hset
    · exact .nothing
  case h_4 =>
    split at h
    · exact Option.some.inj h ▸ .nothing
    · split at h
      · next hgone => exact Option.some.inj h ▸ .initializeHandlers hgone
      · contradiction
  case h_5 =>
    obtain rfl := Option.some.inj h
    split
    · exact .cleanupHandlers
    · exact .nothing
  case h_6 signal hpc => exact Option.some.inj h ▸ .ignore hpc
  case h_7 signal hpc => exact Option.some.inj h ▸ .request hpc
  case h_8 signal hpc => exact Option.some.inj h ▸ .restore hpc
  case h_9 signal hpc => exact Option.some.inj h ▸ .raise (by rw [hpc]; rfl)
  case h_10 signal hpc => exact Option.some.inj h ▸ .defer hpc
  case h_11 signal hpc => exact Option.some.inj h ▸ .raise (by rw [hpc]; rfl)
  case h_12 => contradiction

theorem step_of_monitorNext {os : Os} {s s' : State ι} (h : monitorNext s = some s') :
    Step os s .monitor s' := by
  unfold monitorNext at h
  split at h
  case h_1 hpc => exact Option.some.inj h ▸ .testStop hpc
  case h_2 hpc => exact Option.some.inj h ▸ .exchange hpc
  case h_3 hpc => exact Option.some.inj h ▸ .testCallback hpc
  case h_4 hpc => exact Option.some.inj h ▸ .callback hpc
  case h_5 hpc => exact Option.some.inj h ▸ .sleep hpc
  case h_6 | h_7 => contradiction

/-- **Every step is one of the listed kinds**, of a process that runs. -/
theorem step_of_next {os : Os} {s s' : State ι} {e : Event ι} (h : next os s e = some s') :
    s.terminated = false ∧ Step os s e s' := by
  unfold next at h
  split at h
  · contradiction
  next hrunning =>
  refine ⟨by simpa using hrunning, ?_⟩
  cases e with
  | thread i a => exact step_of_threadNext h
  | monitor => exact step_of_monitorNext h

/-! ### Crashes that lose nothing -/

/-- **Flushed before the end**: when the process has ended, the callback has run
since every signal that was handled while it was set, and no request is open. -/
def FlushedBeforeEnd (s : State ι) : Prop :=
  s.terminated = true →
    (∀ i, s.owed i = false) ∧ s.flushRequested = false ∧ s.monitor.flushing = false

/-- The event delivers a signal that takes its default action. -/
def State.TakesDefault (s : State ι) : Event ι → Prop
  | .thread i (.arrive signal) => s.handler i = .outside ∧ s.disposition signal = .default
  | .thread i .step => ∃ signal ∈ (s.handler i).raised, s.disposition signal = .default
  | _ => False

instance {ι : Type*} (s : State ι) : DecidablePred s.TakesDefault
  | .thread _ (.arrive _) => inferInstanceAs (Decidable (_ ∧ _))
  | .thread i .step =>
    inferInstanceAs (Decidable (∃ signal ∈ (s.handler i).raised, s.disposition signal = .default))
  | .thread _ .defer | .thread _ .setFlushCallback | .thread _ .emergencyFlush
  | .thread _ .initializeHandlers | .thread _ .cleanupHandlers | .monitor => .isFalse not_false

/-- The monitor has taken the flag back when a signal takes its default action, no thread
is about to set it again, and the monitor is not in `emergencyFlush`. -/
def Served (s : State ι) (e : Event ι) : Prop :=
  s.TakesDefault e →
    (∀ i, (s.handler i).entering = false) ∧ s.flushRequested = false ∧ s.monitor.flushing = false

/-- Who still has to serve a signal. -/
structure Owing (s : State ι) : Prop where
  callbackSet : ∀ i, s.owed i = true → s.callbackSet = true
  server : ∀ i, s.owed i = true →
    (s.handler i).entering = true ∨ s.flushRequested = true ∨ s.monitor.flushing = true

omit [DecidableEq ι] in
theorem Owing.of_none {s : State ι} (h : ∀ i, s.owed i = false) : Owing s where
  callbackSet i hi := absurd hi (by rw [h i]; exact Bool.false_ne_true)
  server i hi := absurd hi (by rw [h i]; exact Bool.false_ne_true)

theorem owing_init (os : Os) : Owing (init ι os) := Owing.of_none fun _ => rfl

variable {s s' : State ι} {i : ι} {os : Os}

omit [DecidableEq ι] in
/-- A step that changes nothing that matters here. -/
theorem Owing.frame (h : Owing s) (howed : s'.owed = s.owed)
    (hcallback : s.callbackSet = true → s'.callbackSet = true)
    (hserver : ∀ j, (s.handler j).entering = true ∨ s.flushRequested = true ∨
        s.monitor.flushing = true →
      (s'.handler j).entering = true ∨ s'.flushRequested = true ∨ s'.monitor.flushing = true) :
    Owing s' where
  callbackSet j hj := by
    rw [howed] at hj
    exact hcallback (h.callbackSet j hj)
  server j hj := by
    rw [howed] at hj
    exact hserver j (h.server j hj)

/-- A thread that is not entering the handler goes elsewhere. -/
theorem entering_update {p : HandlerPc} (hi : (s.handler i).entering = false) {j : ι}
    (hj : (s.handler j).entering = true) : (update s.handler i p j).entering = true := by
  have hji : j ≠ i := by
    rintro rfl
    rw [hi] at hj
    contradiction
  rwa [update_of_ne hji]

theorem Owing.deliver (h : Owing s) (hi : (s.handler i).entering = false) (signal : Signal) :
    Owing (s.deliver i signal) := by
  unfold State.deliver
  split
  · exact h.frame rfl id fun _ => id
  · exact h.frame rfl id fun j hj => hj.imp_left (entering_update hi)
  · constructor
    · intro j hj
      by_cases hset : s.callbackSet = true
      · exact hset
      · have hj : (if s.callbackSet then update s.owed i true else s.owed) j = true := hj
        rw [if_neg hset] at hj
        exact absurd (h.callbackSet j hj) hset
    · intro j hj
      by_cases hji : j = i
      · subst hji
        refine Or.inl ?_
        show (update s.handler j (.ignore signal) j).entering = true
        rw [update_self]
        rfl
      · have hbefore : s.owed j = true := by
          have hj : (if s.callbackSet then update s.owed i true else s.owed) j = true := hj
          split at hj
          · rwa [update_of_ne hji] at hj
          · exact hj
        exact (h.server j hbefore).imp_left (entering_update hi)

/-- **Every step keeps track of who still has to serve a signal.** -/
theorem Owing.step (h : Owing s) {e : Event ι} (hstep : Step os s e s') : Owing s' := by
  cases hstep with
  | @arrive i signal hpc => exact h.deliver (by rw [hpc]; rfl) signal
  | @raise i signal hraised => exact h.deliver (HandlerPc.not_entering_of_raised hraised) signal
  | nothing => exact h
  | setFlushCallback => exact h.frame rfl (fun _ => rfl) fun _ => id
  | emergencyFlush _ => exact Owing.of_none fun _ => rfl
  | initializeHandlers hgone =>
    -- a monitor that is gone is not in `emergencyFlush`
    refine h.frame rfl id fun j hj => hj.imp_right (Or.imp_right fun hflushing => ?_)
    cases hmonitor : s.monitor <;> rw [hmonitor] at hgone hflushing <;> contradiction
  | cleanupHandlers => exact h.frame rfl id fun _ => id
  | @ignore i signal hpc =>
    refine h.frame rfl id fun j hj => hj.imp_left fun hentering => ?_
    show (update s.handler i (.request signal) j).entering = true
    by_cases hji : j = i
    · rw [hji, update_self]
      rfl
    · rwa [update_of_ne hji]
  | request _ => exact h.frame rfl id fun _ _ => Or.inr (Or.inl rfl)
  | @restore i signal hpc =>
    have hi : (s.handler i).entering = false := by rw [hpc]; rfl
    exact h.frame rfl id fun j hj => hj.imp_left (entering_update hi)
  | @defer i signal hpc =>
    have hi : (s.handler i).entering = false := by rw [hpc]; rfl
    exact h.frame rfl id fun j hj => hj.imp_left (entering_update hi)
  | testStop hpc | sleep hpc =>
    refine h.frame rfl id fun j hj => hj.imp_right (Or.imp_right ?_)
    rw [hpc]
    exact nofun
  | exchange hpc =>
    refine h.frame rfl id fun j hj => hj.imp_right fun hserver => ?_
    rcases hserver with hrequested | hflushing
    · -- the monitor takes the request back and serves it
      refine Or.inr ?_
      show MonitorPc.flushing (if s.flushRequested then _ else _) = true
      rw [if_pos hrequested]
      rfl
    · rw [hpc] at hflushing
      contradiction
  | testCallback hpc =>
    by_cases hset : s.callbackSet = true
    · refine h.frame rfl id fun j hj => hj.imp_right (Or.imp_right fun _ => ?_)
      show MonitorPc.flushing (if s.callbackSet then _ else _) = true
      rw [if_pos hset]
      rfl
    · -- without a callback nobody is owed anything
      refine Owing.of_none fun j => ?_
      rw [← Bool.not_eq_true]
      exact fun hj => hset (h.callbackSet j hj)
  | callback _ => exact Owing.of_none fun _ => rfl

/-- A signal ends the process by its default action only. -/
theorem deliver_terminated (hs : s.terminated = false) {signal : Signal}
    (h : (s.deliver i signal).terminated = true) :
    s.disposition signal = .default ∧ s.deliver i signal = { s with terminated := true } := by
  unfold State.deliver at h ⊢
  split at h
  · next hdefault =>
    exact ⟨hdefault, rfl⟩
  · rw [show s.terminated = true from h] at hs
    contradiction
  · rw [show s.terminated = true from h] at hs
    contradiction

/-- **The only end of the process** is a signal that takes its default action. -/
theorem Step.terminated {e : Event ι} (hstep : Step os s e s') (hs : s.terminated = false)
    (hend : s'.terminated = true) : s.TakesDefault e ∧ s' = { s with terminated := true } := by
  cases hstep with
  | @arrive i signal hpc =>
    obtain ⟨hdefault, heq⟩ := deliver_terminated hs hend
    exact ⟨⟨hpc, hdefault⟩, heq⟩
  | @raise i signal hraised =>
    obtain ⟨hdefault, heq⟩ := deliver_terminated hs hend
    exact ⟨⟨signal, hraised, hdefault⟩, heq⟩
  | _ =>
    rw [show s.terminated = true from hend] at hs
    contradiction

/-- A crash loses nothing where the request has been served. -/
theorem flushedBeforeEnd_of_served (hs : Reachable (next os) Served (init ι os) s) :
    FlushedBeforeEnd s := by
  have hboth : Owing s ∧ FlushedBeforeEnd s := by
    refine hs.invariant (I := fun s => Owing s ∧ FlushedBeforeEnd s)
      ⟨owing_init os, fun h => ?_⟩ fun s e s' _ h hok hnext => ?_
    · have hstart : (init ι os).terminated = false := rfl
      rw [hstart] at h
      contradiction
    · obtain ⟨hrunning, hstep⟩ := step_of_next hnext
      refine ⟨h.1.step hstep, fun hend => ?_⟩
      obtain ⟨hdefault, rfl⟩ := hstep.terminated hrunning hend
      obtain ⟨hentering, hrequested, hflushing⟩ := hok hdefault
      refine ⟨fun i => ?_, hrequested, hflushing⟩
      rw [← Bool.not_eq_true]
      intro howed
      rcases h.1.server i howed with h | h | h
      · rw [hentering i] at h
        contradiction
      · rw [hrequested] at h
        contradiction
      · rw [hflushing] at h
        contradiction
  exact hboth.2

/-! ### Schedules in which the monitor is first -/

/-- No thread is between entering the handler and its store to the flag. -/
def NobodyEntering (s : State ι) : Prop := ∀ i, (s.handler i).entering = false

instance {ι : Type*} [Fintype ι] : DecidablePred (NobodyEntering (ι := ι)) := fun s =>
  inferInstanceAs (Decidable (∀ i, (s.handler i).entering = false))

/-- The request is not open, and the monitor is not serving one. -/
def Quiet (s : State ι) : Prop := s.flushRequested = false ∧ s.monitor.flushing = false

theorem quiet_init (os : Os) : Quiet (init ι os) := by
  cases os <;> exact ⟨rfl, rfl⟩

theorem deliver_frame (signal : Signal) : (s.deliver i signal).monitor = s.monitor ∧
    (s.deliver i signal).flushRequested = s.flushRequested := by
  unfold State.deliver
  split <;> exact ⟨rfl, rfl⟩

/-- Only a thread that is entering sets the flag; only the monitor leaves `exchange`, and
takes the flag back. -/
theorem Step.flag {e : Event ι} (hstep : Step os s e s') (hnobody : NobodyEntering s) :
    (s.flushRequested = false → s'.flushRequested = false) ∧
      (s.monitor = .exchange → s'.monitor = .exchange ∨ s'.flushRequested = false) := by
  cases hstep with
  | @arrive i signal _ | @raise i signal _ =>
    obtain ⟨hmonitor, hflag⟩ := deliver_frame (s := s) (i := i) signal
    rw [hmonitor, hflag]
    exact ⟨id, Or.inl⟩
  | @request i signal hpc =>
    have hi := hnobody i
    rw [hpc] at hi
    contradiction
  | initializeHandlers hgone =>
    refine ⟨id, fun hmonitor => ?_⟩
    rw [hmonitor] at hgone
    contradiction
  | exchange _ => exact ⟨fun _ => rfl, fun _ => Or.inr rfl⟩
  | testStop hpc | testCallback hpc | callback hpc | sleep hpc =>
    refine ⟨id, fun hmonitor => ?_⟩
    rw [hpc] at hmonitor
    contradiction
  | _ => exact ⟨id, Or.inl⟩

/-- While nobody is entering, a quiet state stays quiet. -/
theorem Quiet.step (h : Quiet s) {e : Event ι} (hstep : Step os s e s')
    (hnobody : NobodyEntering s) : Quiet s' := by
  obtain ⟨hflag, hflushing⟩ := h
  refine ⟨(hstep.flag hnobody).1 hflag, ?_⟩
  cases hstep with
  | @arrive i signal _ | @raise i signal _ =>
    rw [(deliver_frame (s := s) (i := i) signal).1]
    exact hflushing
  | initializeHandlers _ => cases os <;> first | rfl | exact hflushing
  | testStop _ =>
    show MonitorPc.flushing (if s.stopMonitor then _ else _) = false
    split <;> rfl
  | exchange _ =>
    -- there is no request to serve
    show MonitorPc.flushing (if s.flushRequested then _ else _) = false
    rw [hflag]
    rfl
  | testCallback hpc | callback hpc =>
    rw [hpc] at hflushing
    contradiction
  | sleep _ => rfl
  | _ => exact hflushing

theorem pair_sublist_concat {l : List MonitorPc} {a b x : MonitorPc}
    (h : [a, b].Sublist (l ++ [x])) : [a, b].Sublist l ∨ a ∈ l ∧ b = x := by
  obtain ⟨l₁, l₂, hsplit, h₁, h₂⟩ := List.sublist_append_iff.mp h
  rcases List.sublist_singleton.mp h₂ with rfl | rfl
  · rw [List.append_nil] at hsplit
    exact Or.inl (hsplit ▸ h₁)
  · have hfirst : [a] = l₁ := by simpa using congrArg List.dropLast hsplit
    have hlast : b = x := by simpa using congrArg List.getLast? hsplit
    exact Or.inr ⟨List.singleton_sublist.mp (hfirst ▸ h₁), hlast⟩

section MonitorFirst

variable [DecidablePred (NobodyEntering (ι := ι))]

/-- The places of the monitor since a thread was last entering the handler. -/
def rounds (r : Recorded (State ι)) : List MonitorPc :=
  (r.since fun s => decide (NobodyEntering s)).map State.monitor

/-- **The monitor is first**: when a signal takes its default action, every thread that
entered the handler has stored the flag; and if one ever did, the monitor has since that
store come to its `exchange`, and after that, done with `emergencyFlush`, to its sleep. -/
def MonitorFirst (r : Recorded (State ι)) (e : Event ι) : Prop :=
  r.now.TakesDefault e → NobodyEntering r.now ∧
    ((∃ s ∈ r.past, ¬ NobodyEntering s) → [.exchange, .sleep].Sublist (rounds r))

instance (r : Recorded (State ι)) : DecidablePred (MonitorFirst r) := fun _ =>
  inferInstanceAs (Decidable (_ → _))

/-- **What the monitor's rounds tell** of the present: nobody ever entered the handler, or
the monitor is still at the `exchange` it came to, or it has taken the flag, and then
served the request. -/
structure Polled (r : Recorded (State ι)) : Prop where
  never : (∀ s ∈ r.past, NobodyEntering s) → NobodyEntering r.now → Quiet r.now
  exchanged : NobodyEntering r.now → .exchange ∈ rounds r →
    r.now.monitor = .exchange ∨ r.now.flushRequested = false
  served : NobodyEntering r.now → [.exchange, .sleep].Sublist (rounds r) → Quiet r.now

theorem polled_init (os : Os) : Polled ⟨[], init ι os⟩ where
  never _ _ := quiet_init os
  exchanged _ _ := Or.inr rfl
  served _ _ := quiet_init os

theorem rounds_of_nobody {r r' : Recorded (State ι)} {e : Event ι}
    (hr : recording (next os) r e = some r') (hnobody : NobodyEntering r.now) :
    rounds r' = rounds r ++ [r'.now.monitor] := by
  unfold rounds
  rw [Recorded.since_of_pos hr (decide_eq_true hnobody), List.map_append]
  rfl

theorem rounds_of_entering {r r' : Recorded (State ι)} {e : Event ι}
    (hr : recording (next os) r e = some r') (hentering : ¬ NobodyEntering r.now) :
    rounds r' = [r'.now.monitor] := by
  unfold rounds
  rw [Recorded.since_of_neg hr (decide_eq_false hentering)]
  rfl

/-- **Every step keeps what the rounds tell.** -/
theorem Polled.step {r r' : Recorded (State ι)} (h : Polled r) {e : Event ι}
    (hr : recording (next os) r e = some r') : Polled r' := by
  obtain ⟨hnext, hpast⟩ := of_recording hr
  have hstep := (step_of_next hnext).2
  have hexchanged : NobodyEntering r'.now → .exchange ∈ rounds r' →
      r'.now.monitor = .exchange ∨ r'.now.flushRequested = false := by
    intro _ hmem
    by_cases hnobody : NobodyEntering r.now
    · rw [rounds_of_nobody hr hnobody, List.mem_append, List.mem_singleton] at hmem
      rcases hmem with hmem | hmem
      · rcases h.exchanged hnobody hmem with hmonitor | hflag
        · exact (hstep.flag hnobody).2 hmonitor
        · exact Or.inr ((hstep.flag hnobody).1 hflag)
      · exact Or.inl hmem.symm
    · rw [rounds_of_entering hr hnobody, List.mem_singleton] at hmem
      exact Or.inl hmem.symm
  refine ⟨fun hall hnow => ?_, hexchanged, fun hnow hsub => ?_⟩
  · rw [hpast] at hall
    have hnobody := hall r.now (List.mem_append_right _ (List.mem_singleton_self _))
    exact (h.never (fun s hs => hall s (List.mem_append_left _ hs)) hnobody).step hstep hnobody
  · by_cases hnobody : NobodyEntering r.now
    · rw [rounds_of_nobody hr hnobody] at hsub
      rcases pair_sublist_concat hsub with hsub | ⟨hmem, hsleep⟩
      · exact (h.served hnobody hsub).step hstep hnobody
      · -- the monitor comes to its sleep here, and has been at the exchange
        have hmem : .exchange ∈ rounds r' := by
          rw [rounds_of_nobody hr hnobody]
          exact List.mem_append_left _ hmem
        have hflag := (hexchanged hnow hmem).resolve_left (by rw [← hsleep]; decide)
        exact ⟨hflag, by rw [← hsleep]; rfl⟩
    · -- one place is no round
      rw [rounds_of_entering hr hnobody] at hsub
      have hle := hsub.length_le
      simp only [List.length_cons, List.length_nil] at hle
      omega

theorem polled_of_reachable {ok : Recorded (State ι) → Event ι → Prop} {r : Recorded (State ι)}
    (hr : Reachable (recording (next os)) ok ⟨[], init ι os⟩ r) : Polled r :=
  hr.invariant (polled_init os) fun _ _ _ _ h _ hnext => h.step hnext

omit [DecidableEq ι] in
/-- A monitor that is first has served the request. -/
theorem MonitorFirst.served {r : Recorded (State ι)} {e : Event ι} (h : MonitorFirst r e)
    (hpolled : Polled r) : Served r.now e := by
  intro hdefault
  obtain ⟨hnobody, hround⟩ := h hdefault
  refine ⟨hnobody, ?_⟩
  by_cases hever : ∃ s ∈ r.past, ¬ NobodyEntering s
  · exact hpolled.served hnobody (hround hever)
  · exact hpolled.never (fun s hs => not_not.mp fun hentering => hever ⟨s, hs, hentering⟩) hnobody

/-- **A crash loses nothing**, in every run whose schedule lets the monitor take the
request and finish `emergencyFlush` between the handler's store and the signal's default
action. -/
theorem flushedBeforeEnd {r : Recorded (State ι)}
    (hr : Reachable (recording (next os)) MonitorFirst ⟨[], init ι os⟩ r) :
    FlushedBeforeEnd r.now := by
  have hserved : Reachable (next os) Served (init ι os) r.now :=
    Reachable.forget (hr.tighten fun _ _ _ hr _ hok _ => hok.served (polled_of_reachable hr))
  exact flushedBeforeEnd_of_served hserved

end MonitorFirst

/-! ### The platform without a monitor -/

/-- On macOS no monitor is ever started, so a request stays open. -/
theorem Step.request_stays {e : Event ι} (hstep : Step .macos s e s')
    (hmonitor : s.monitor = .absent) :
    s'.monitor = .absent ∧ (s.flushRequested = true → s'.flushRequested = true) := by
  have hdeliver : ∀ i signal, (s.deliver i signal).monitor = .absent ∧
      (s.flushRequested = true → (s.deliver i signal).flushRequested = true) := by
    intro i signal
    unfold State.deliver
    split <;> exact ⟨hmonitor, id⟩
  cases hstep with
  | arrive _ => exact hdeliver _ _
  | raise _ => exact hdeliver _ _
  | request _ => exact ⟨hmonitor, fun _ => rfl⟩
  | testStop hpc | exchange hpc | testCallback hpc | callback hpc | sleep hpc =>
    rw [hmonitor] at hpc
    contradiction
  | _ => exact ⟨hmonitor, id⟩

/-- **Without a monitor a request is never served**: on macOS it is still open when the
process ends, in every run. -/
theorem requested_of_macos {s₁ : State ι} (hs₁ : Reachable (next .macos) Always (init ι .macos) s₁)
    (hrequested : s₁.flushRequested = true) (hs : Reachable (next .macos) Always s₁ s) :
    s.flushRequested = true := by
  have habsent : s₁.monitor = .absent :=
    hs₁.invariant (I := fun s => s.monitor = .absent) rfl
      fun _ _ _ _ h _ hnext => ((step_of_next hnext).2.request_stays h).1
  have hboth : s.monitor = .absent ∧ s.flushRequested = true :=
    hs.invariant (I := fun s => s.monitor = .absent ∧ s.flushRequested = true)
      ⟨habsent, hrequested⟩ fun _ _ _ _ h _ hnext =>
        ((step_of_next hnext).2.request_stays h.1).imp_right fun hstays => hstays h.2
  exact hboth.2

/-! ### Two races -/

/-- A callback is set, and a signal arrives and goes through its handler. -/
def crash : List (Event (Fin 1)) :=
  [.thread 0 .setFlushCallback, .thread 0 (.arrive .segv), .thread 0 .step, .thread 0 .step,
    .thread 0 .step]

/-- The monitor polls the flag, and serves the request. -/
def serve : List (Event (Fin 1)) := List.replicate 4 .monitor

/-- The handler raises the signal again. -/
def raiseAgain : List (Event (Fin 1)) := [.thread 0 .step]

/-- The monitor polls the flag and runs the callback before the signal is raised. -/
theorem flushedBeforeEnd_monitor_first :
    ∃ s : State (Fin 1), s.terminated = true ∧ FlushedBeforeEnd s := by
  obtain ⟨r, hr, hend⟩ := exists_reachable_of_decide (recording (next .windows))
    ⟨[], init (Fin 1) .windows⟩ (fun r => r.now.terminated = true) MonitorFirst
    (crash ++ serve ++ raiseAgain) (by decide +kernel)
  exact ⟨r.now, hend, flushedBeforeEnd hr⟩

/-- **The signal is faster**, on both platforms: the process has ended, and the callback
has not even started. -/
theorem not_flushedBeforeEnd_raise :
    (∃ s : State (Fin 1), Reachable (next .windows) Always (init (Fin 1) .windows) s ∧
      ¬ FlushedBeforeEnd s) ∧
    ∃ s : State (Fin 1), Reachable (next .macos) Always (init (Fin 1) .macos) s ∧
      ¬ FlushedBeforeEnd s := by
  have hraised : ∀ os : Os, ∃ s : State (Fin 1), Reachable (next os) Always (init (Fin 1) os) s ∧
      s.terminated = true ∧ s.owed 0 = true := by
    intro os
    exact exists_reachable_of_decide (next os) (init (Fin 1) os)
      (fun s => s.terminated = true ∧ s.owed 0 = true) Always
      (crash ++ raiseAgain) (by cases os <;> decide +kernel)
  have hlost : ∀ s : State (Fin 1), s.terminated = true → s.owed 0 = true →
      ¬ FlushedBeforeEnd s := by
    intro s hend howed h
    have := (h hend).1 0
    rw [howed] at this
    contradiction
  obtain ⟨s, hs, hend, howed⟩ := hraised .windows
  obtain ⟨s', hs', hend', howed'⟩ := hraised .macos
  exact ⟨⟨s, hs, hlost s hend howed⟩, s', hs', hlost s' hend' howed'⟩

end CrashHandler
end SpeckitLog
