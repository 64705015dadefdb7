import SpeckitLog.AsyncLogger.Emergency
import SpeckitLog.CrashHandler.Service

/-!
# A process that crashes

The crash handler and the logger put together.  Threads call the logger; signals reach
them; the handler sets a flag and raises the signal again; the monitor polls the flag and
runs the callback, which is the `emergencyFlush` of the logger.  Each call is one step, and
so is the callback; the handler and the monitor go step by step between them.

A run of the process, seen through its signals, is a run of the crash handler, and seen
through its logger a life of the logger.  What joins the two is an invariant: where nobody
waits for the callback, the disk has all that was logged before the last signal.

## Main definitions

* `Crash.State`, `Crash.next` — the process.
* `Crash.Saved` — what was logged before the last signal is on disk.

## Main results

* `Crash.signals_of_reachable`, `Crash.life_of_reachable` — the two views.
* `Crash.saved_of_reachable` — **nobody waits in vain.**
* `Crash.logged_survives` — **what was logged before the crash is in the files.**
-/

namespace SpeckitLog
namespace AsyncLogger
namespace Lifecycle
namespace Crash

open Function Transition FileManager Journal AsyncLogger.Sequential Streams CrashHandler

variable {ι : Type*} [DecidableEq ι] {δ : Type*} [DecidableEq δ] {host : Host δ} {τ : Type*}

/-! ### The model -/

/-- A process with one logger, until the logger is destroyed. -/
structure State (ι : Type*) (host : Host δ) (τ : Type*) where
  signals : CrashHandler.State ι
  life : Life host τ
  /-- History: how many entries had been accepted when a signal was last handled. -/
  covered : ℕ

/-- A step of the process. -/
inductive Act (ι τ : Type*)
  /-- Of a signal, of its handler, of the monitor, of a handler that is installed or
  removed; with what the operating system answers to the callback. -/
  | signals (e : Event ι) (io : Io) (answers : WriteAnswers)
  /-- Of a thread that calls the logger. -/
  | call (i : ι) (c : Call τ)

/-- The event starts the handler of a signal while a callback is set. -/
def handles (s : CrashHandler.State ι) : Event ι → Bool
  | .thread _ (.arrive signal) => s.callbackSet && decide (s.disposition signal = .handler)
  | .thread i .step =>
    s.callbackSet && (s.handler i).raised.any fun signal =>
      decide (s.disposition signal = .handler)
  | _ => false

/-- The callback: `[this]() { this->emergencyFlush(); }`. -/
def callback (platform : Platform τ) (processId : ℤ) (s : State ι host τ) (e : Event ι) (io : Io)
    (answers : WriteAnswers) : Option (Life host τ) :=
  if runsCallback s.signals e then
    Lifecycle.next platform processId s.life (.emergencyFlush io answers)
  else some s.life

/-- `initializeComponents` sets the callback once the file manager is initialized. -/
def setsCallback (life life' : Life host τ) : Bool :=
  life'.object.initialized && !life.object.initialized

/-- One step; only `initialize` sets a callback, and a thread in the handler calls nothing. -/
def next (platform : Platform τ) (processId : ℤ) (s : State ι host τ) :
    Act ι τ → Option (State ι host τ)
  | .signals (.thread _ .setFlushCallback) _ _ => none
  | .signals e io answers =>
    (CrashHandler.next host.os s.signals e).bind fun signals =>
      (callback platform processId s e io answers).map fun life =>
        { signals := signals
          life := life
          covered := if handles s.signals e then s.life.history.length else s.covered }
  | .call i c =>
    if s.signals.terminated = false ∧ s.signals.handler i = .outside then
      (Lifecycle.next platform processId s.life c).bind fun life =>
        (if setsCallback s.life life then
          CrashHandler.next host.os s.signals (.thread i .setFlushCallback)
        else some s.signals).map fun signals => { s with signals := signals, life := life }
    else none

/-- A process whose first crash handler has been constructed, before `initialize`. -/
def init (ι : Type*) [DecidableEq ι] (minLevel : LogLevel) (w : World host) :
    State ι host τ :=
  ⟨CrashHandler.init ι host.os, Lifecycle.init minLevel w, 0⟩

/-- No write fails, those of the callback are flushed, and a signal takes its default action
only when the monitor has served what was asked of it. -/
def Fair (s : State ι host τ) : Act ι τ → Prop
  | .signals e io answers =>
    Served s.signals e ∧ (runsCallback s.signals e = true → io.Succeeds ∧ answers.fflush = true)
  | .call _ c => c.Succeeds

/-- The ways a step can go. -/
inductive Step (platform : Platform τ) (processId : ℤ) (s s' : State ι host τ) :
    Act ι τ → Prop
  | callback {e : Event ι} {io : Io} {answers : WriteAnswers}
      (hruns : runsCallback s.signals e = true)
      (hsignals : CrashHandler.next host.os s.signals e = some s'.signals)
      (hlife : Lifecycle.next platform processId s.life (.emergencyFlush io answers) =
        some s'.life)
      (hcovered : s'.covered = if handles s.signals e then s.life.history.length else s.covered) :
      Step platform processId s s' (.signals e io answers)
  | signals {e : Event ι} {io : Io} {answers : WriteAnswers}
      (hruns : runsCallback s.signals e = false)
      (hsignals : CrashHandler.next host.os s.signals e = some s'.signals)
      (hlife : s'.life = s.life)
      (hcovered : s'.covered = if handles s.signals e then s.life.history.length else s.covered) :
      Step platform processId s s' (.signals e io answers)
  | call {i : ι} {c : Call τ}
      (hsignals : s'.signals = s.signals ∨
        CrashHandler.next host.os s.signals (.thread i .setFlushCallback) = some s'.signals)
      (hlife : Lifecycle.next platform processId s.life c = some s'.life)
      (hcovered : s'.covered = s.covered) :
      Step platform processId s s' (.call i c)

variable {platform : Platform τ} {processId : ℤ} {s s' : State ι host τ} {a : Act ι τ}

/-- **Every step goes one of the listed ways.** -/
theorem step_of_next (h : next platform processId s a = some s') :
    Step platform processId s s' a := by
  cases a with
  | signals e io answers =>
    have hsteps : (CrashHandler.next host.os s.signals e).bind (fun signals =>
        (callback platform processId s e io answers).map fun life =>
          ({ signals := signals
             life := life
             covered := if handles s.signals e then s.life.history.length else s.covered } :
            State ι host τ)) = some s' := by
      unfold next at h
      split at h
      · contradiction
      · next heq =>
        cases heq
        exact h
      · next heq => cases heq
    obtain ⟨signals, hsignals, hsteps⟩ := Option.bind_eq_some_iff.mp hsteps
    obtain ⟨life, hlife, rfl⟩ := Option.map_eq_some_iff.mp hsteps
    unfold callback at hlife
    split at hlife
    · next hruns => exact .callback hruns hsignals hlife rfl
    · next hruns =>
      exact .signals (Bool.not_eq_true _ ▸ hruns) hsignals (Option.some.inj hlife).symm rfl
  | call i c =>
    unfold next at h
    dsimp only at h
    split at h
    · obtain ⟨life, hlife, h⟩ := Option.bind_eq_some_iff.mp h
      obtain ⟨signals, hsignals, rfl⟩ := Option.map_eq_some_iff.mp h
      split at hsignals
      · exact .call (.inr hsignals) hlife rfl
      · exact .call (.inl (Option.some.inj hsignals).symm) hlife rfl
    · contradiction

/-! ### The two views -/

variable {minLevel : LogLevel} {w : World host}

/-- Seen through its signals, a run of the process is a run of the crash handler. -/
theorem signals_of_reachable
    (h : Reachable (next platform processId) Fair (init ι minLevel w) s) :
    Reachable (CrashHandler.next host.os) Served (CrashHandler.init ι host.os) s.signals := by
  apply h.project State.signals
  intro s a s' _ hfair hnext
  cases step_of_next hnext with
  | callback _ hsignals _ _ | signals _ hsignals _ _ => exact .inr ⟨_, hfair.1, hsignals⟩
  | call hsignals _ _ =>
    rcases hsignals with hsame | hset
    · exact .inl hsame
    · exact .inr ⟨.thread _ .setFlushCallback, fun hdefault => hdefault.elim, hset⟩

/-- Seen through its logger, it is a life of the logger in which no write fails. -/
theorem life_of_reachable
    (h : Reachable (next platform processId) Fair (init ι minLevel w) s) :
    Reachable (Lifecycle.next platform processId) NoWriteFails (Lifecycle.init minLevel w)
      s.life := by
  apply h.project State.life
  intro s a s' _ hfair hnext
  cases step_of_next hnext with
  | @callback e io answers hruns _ hlife _ =>
    exact .inr ⟨.emergencyFlush io answers, (hfair.2 hruns).1, hlife⟩
  | signals _ _ hlife _ => exact .inl hlife
  | call _ hlife _ => exact .inr ⟨_, hfair, hlife⟩

/-! ### Who waits for the callback -/

section Signals

variable {os : Os} {t t' : CrashHandler.State ι} {e : Event ι} {i : ι}

/-- Only the callback ends a wait. -/
theorem owed_stays (hnext : CrashHandler.next os t e = some t') (hruns : runsCallback t e = false)
    (howed : t.owed i = true) : t'.owed i = true := by
  have hdeliver : ∀ j signal, (t.deliver j signal).owed i = true := by
    intro j signal
    unfold State.deliver
    split
    · exact howed
    · exact howed
    · show (if t.callbackSet then update t.owed j true else t.owed) i = true
      split
      · by_cases hij : i = j
        · rw [hij, update_self]
        · rwa [update_of_ne hij]
      · exact howed
  cases (CrashHandler.step_of_next hnext).2 with
  | arrive _ | raise _ => exact hdeliver _ _
  | emergencyFlush hset =>
    rw [show runsCallback t _ = t.callbackSet from rfl, hset] at hruns
    contradiction
  | callback hpc =>
    simp only [runsCallback, hpc, decide_true] at hruns
    contradiction
  | _ => exact howed

theorem not_owed_before (hnext : CrashHandler.next os t e = some t')
    (hruns : runsCallback t e = false) (hnone : ∀ i, t'.owed i = false) (i : ι) :
    t.owed i = false := by
  rw [← Bool.not_eq_true]
  intro howed
  have hstays := owed_stays hnext hruns howed
  rw [hnone i] at hstays
  contradiction

/-- A handled signal makes its thread wait. -/
theorem owed_of_handles (hnext : CrashHandler.next os t e = some t')
    (hhandles : handles t e = true) : ∃ i, t'.owed i = true := by
  have hdeliver : ∀ j signal, t.callbackSet = true → t.disposition signal = .handler →
      (t.deliver j signal).owed j = true := by
    intro j signal hset hhandler
    unfold State.deliver
    rw [hhandler]
    show (if t.callbackSet then update t.owed j true else t.owed) j = true
    rw [if_pos hset, update_self]
  unfold CrashHandler.next at hnext
  split at hnext
  · contradiction
  cases e with
  | monitor => contradiction
  | thread j a =>
    cases a with
    | arrive signal =>
      obtain ⟨hset, hhandler⟩ := Bool.and_eq_true_iff.mp hhandles
      dsimp only at hnext
      cases hpc : t.handler j with
      | outside =>
        rw [hpc] at hnext
        obtain rfl := Option.some.inj hnext
        exact ⟨j, hdeliver j signal hset (of_decide_eq_true hhandler)⟩
      | _ =>
        rw [hpc] at hnext
        contradiction
    | step =>
      obtain ⟨hset, hany⟩ := Bool.and_eq_true_iff.mp hhandles
      obtain ⟨signal, hraised, hhandler⟩ := (Option.any_eq_true ..).mp hany
      dsimp only at hnext
      cases hpc : t.handler j with
      | raise _ | pending _ =>
        rw [hpc] at hnext hraised
        obtain rfl := Option.some.inj hraised
        obtain rfl := Option.some.inj hnext
        exact ⟨j, hdeliver j _ hset (of_decide_eq_true hhandler)⟩
      | _ =>
        rw [hpc] at hraised
        contradiction
    | _ => contradiction

/-- **Nobody waits when the process ends**, if the monitor is faster than the signal. -/
theorem not_owed_of_terminated
    (h : Reachable (CrashHandler.next os) Served (CrashHandler.init ι os) t)
    (hend : t.terminated = true) (i : ι) : t.owed i = false :=
  (CrashHandler.flushedBeforeEnd_of_served h hend).1 i

end Signals

/-! ### What the disk has -/

/-- **Saved**: the disk has the records of what was logged before the last handled signal. -/
def Saved (platform : Platform τ) (w : World host) (s : State ι host τ) : Prop :=
  ∀ place, onDiskAt w place ++ records platform (part place (s.life.history.take s.covered)) <+:
    onDiskAt s.life.object.world place

/-- What was logged by some moment is the first part of what is logged later. -/
theorem prefix_records_take (platform : Platform τ) (history : List (host.Place × Entry τ)) (n : ℕ)
    (place : host.Place) : records platform (part place (history.take n)) <+:
      records platform (part place history) := by
  refine ⟨records platform (part place (history.drop n)), ?_⟩
  rw [← records_append, ← part_append, List.take_append_drop]

omit [DecidableEq ι] in
theorem covered_le_of_call {c : Call τ} (hle : s.covered ≤ s.life.history.length)
    (hnext : Lifecycle.next platform processId s.life c = some s'.life)
    (hcovered : s'.covered = s.covered) : s'.covered ≤ s'.life.history.length := by
  obtain ⟨o', -, hlife⟩ := Option.map_eq_some_iff.mp hnext
  rw [← hlife, hcovered, List.length_append]
  exact hle.trans (Nat.le_add_right _ _)

omit [DecidableEq ι] in
/-- A call of the logger takes nothing from what is saved. -/
theorem Saved.call {c : Call τ} (h : Saved platform w s) (hle : s.covered ≤ s.life.history.length)
    (hnext : Lifecycle.next platform processId s.life c = some s'.life)
    (hcovered : s'.covered = s.covered) : Saved platform w s' := by
  obtain ⟨o', hcall, hlife⟩ := Option.map_eq_some_iff.mp hnext
  intro place
  rw [← hlife, hcovered]
  dsimp only
  rw [List.take_append_of_le_length hle]
  exact (h place).trans (Object.grows_call hcall place)

/-- **Nobody waits in vain**: in every reachable state in which no thread waits for the
callback, the disk has what was logged before the last handled signal. -/
theorem saved_of_reachable
    (h : Reachable (next platform processId) Fair (init ι minLevel w) s)
    (hnone : ∀ i, s.signals.owed i = false) : Saved platform w s := by
  have hboth : ((∀ i, s.signals.owed i = false) → Saved platform w s) ∧
      s.covered ≤ s.life.history.length := by
    apply h.invariant (I := fun s => ((∀ i, s.signals.owed i = false) → Saved platform w s) ∧
      s.covered ≤ s.life.history.length)
    · refine ⟨fun _ place => ?_, Nat.le_refl 0⟩
      exact (List.append_nil (onDiskAt w place)).symm ▸ List.prefix_rfl
    · rintro s a s' hs ⟨hsaved, hle⟩ hfair hnext
      cases step_of_next hnext with
      | @callback e io answers hruns hsignals hlife hcovered =>
        -- the callback puts everything on disk, whoever waited for it
        obtain ⟨hio, hflush⟩ := hfair.2 hruns
        have hdisk := onDiskAt_emergencyFlush (life_of_reachable hs) hio hflush hlife
        have hhistory : s'.life.history = s.life.history := by
          obtain ⟨o', -, hlife⟩ := Option.map_eq_some_iff.mp hlife
          rw [← hlife]
          exact List.append_nil _
        refine ⟨fun _ place => ?_, ?_⟩
        · rw [hdisk place, hhistory]
          exact (List.prefix_append_right_inj _).mpr (prefix_records_take platform _ _ place)
        · rw [hcovered, hhistory]
          split
          · exact Nat.le_refl _
          · exact hle
      | @signals e io answers hruns hsignals hlife hcovered =>
        rw [hlife]
        by_cases hhandles : handles s.signals e = true
        · -- the thread whose signal is handled waits
          rw [if_pos hhandles] at hcovered
          obtain ⟨i, howed⟩ := owed_of_handles hsignals hhandles
          refine ⟨fun hnone => ?_, Nat.le_of_eq hcovered⟩
          rw [hnone i] at howed
          contradiction
        · rw [if_neg hhandles] at hcovered
          refine ⟨fun hnone => ?_, hcovered ▸ hle⟩
          unfold Saved
          rw [hlife, hcovered]
          exact hsaved (not_owed_before hsignals hruns hnone)
      | call hsignals hlife hcovered =>
        have hbefore : (∀ i, s'.signals.owed i = false) → ∀ i, s.signals.owed i = false := by
          rcases hsignals with hsame | hset
          · rw [hsame]
            exact id
          · exact not_owed_before hset rfl
        refine ⟨fun hnone => ?_, covered_le_of_call hle hlife hcovered⟩
        exact (hsaved (hbefore hnone)).call hle hlife hcovered
  exact hboth.1 hnone

/-- **What was logged before the crash is in the files.**  If no write fails, and no signal
takes its default action before the monitor has served what was asked of it, then when a
signal has ended the process every file begins with what it held at first and the records of
the entries that were accepted for it before the last handled signal. -/
theorem logged_survives
    (h : Reachable (next platform processId) Fair (init ι minLevel w) s)
    (hend : s.signals.terminated = true) (place : host.Place) :
    onDiskAt w place ++ records platform (part place (s.life.history.take s.covered)) <+:
      onDiskAt s.life.object.lost place := by
  have hnone := not_owed_of_terminated (signals_of_reachable h) hend
  rw [Object.onDiskAt_lost]
  exact saved_of_reachable h hnone place

/-- The operating system says yes to every write of the step. -/
def Act.Yes : Act ι τ → Prop
  | .signals _ io answers => io.Succeeds ∧ answers.fflush = true
  | .call _ c => c.Succeeds

/-- The test of a run for what the signals in it may do. -/
def servedTest (s : State (Fin 1) host τ) : Act (Fin 1) τ → Bool
  | .signals e _ _ => !decide (s.signals.TakesDefault e) ||
      decide ((∀ i, (s.signals.handler i).entering = false) ∧ s.signals.flushRequested = false ∧
        s.signals.monitor.flushing = false)
  | .call _ _ => true

/-- A logger logs, and a signal reaches its thread; the monitor runs the callback before the
signal is raised again. -/
def crashAfterLog : List (Act (Fin 1) ℕ) :=
  [.call (Fin.last 0) (.initializeWith "C:\\".toList "C:\\app".toList 4 ⟨true, true, true⟩),
    .call (Fin.last 0) (.log (.pushing fun _ => 0) entryUp)] ++
    (crash.tail ++ serve ++ raiseAgain).map fun e =>
      .signals e (.pushing fun _ => 0) ⟨0, 0, true, true⟩

theorem logged_survives_crash :
    ∃ s : State (Fin 1) Host.windows ℕ, s.signals.terminated = true ∧ record midnight entryUp <+:
      onDiskAt s.life.object.lost (Host.windows.locate "C:\\app.log".toList) := by
  have hrun : ((run (next midnight 7) servedTest (init (Fin 1) .debug (.empty Host.windows))
      crashAfterLog).any fun s => s.signals.terminated && decide (s.life.history.take s.covered =
        [(Host.windows.locate "C:\\app.log".toList, entryUp)])) = true := by decide +kernel
  obtain ⟨s, hs, hrest⟩ := (Option.any_eq_true ..).mp hrun
  obtain ⟨hend, hcovered⟩ := Bool.and_eq_true_iff.mp hrest
  have hio := Io.pushing_succeeds fun _ => 0
  have hyes : ∀ a ∈ crashAfterLog, a.Yes := by
    intro a ha
    rcases List.mem_append.mp ha with ha | ha
    · simp only [List.mem_cons, List.not_mem_nil, or_false] at ha
      rcases ha with rfl | rfl
      · trivial
      · exact hio
    · obtain ⟨e, -, rfl⟩ := List.mem_map.mp ha
      exact ⟨hio, rfl⟩
  have hreach : Reachable (next midnight 7) Fair (init (Fin 1) .debug (.empty Host.windows)) s := by
    refine (reachable_of_tested hs hyes).mono fun s a ha => ?_
    cases a with
    | call i c => exact ha.2
    | signals e io answers =>
      refine ⟨fun hdefault => ?_, fun _ => ha.2⟩
      have htest := ha.1
      rw [servedTest, decide_eq_true hdefault] at htest
      exact of_decide_eq_true htest
  have hsurvives := logged_survives hreach hend (Host.windows.locate "C:\\app.log".toList)
  have hpart : part (Host.windows.locate "C:\\app.log".toList)
      [(Host.windows.locate "C:\\app.log".toList, entryUp)] = [entryUp] := by decide
  rw [of_decide_eq_true hcovered, hpart] at hsurvives
  exact ⟨s, hend, (List.prefix_append _ _).trans hsurvives⟩

end Crash
end Lifecycle
end AsyncLogger
end SpeckitLog
