import SpeckitLog.Lib.Call
import SpeckitLog.LogLevel
import Mathlib.Data.Fintype.Sum
import Mathlib.Tactic.DeriveFintype

/-!
# The threads of the asynchronous logger

What `AsyncLogger` does around its queue and its ring buffer: the checks of
`log`, the semaphore, the loop of `writerThread`, `deinitialize`, and the writes
of a flush.  The operations on the two buffers are left open here: a thread at
one of the program points `queuePush`, `ringPush`, `queuePop` and `ringPop`
waits for their results, and the models that give them a meaning say how it goes
on.

An entry carries the thread that logged it and the number of the `log` call
among that thread's calls, so that no two entries are equal.

## Main definitions

* `Pc` — the program points.
* `Control` — the shared fields other than the buffers, the program points, the
  file, and the history.
* `Control.next`, `Control.Step` — the steps that touch neither buffer.
-/

namespace SpeckitLog
namespace AsyncLogger

open Function

/-- The threads that run code of the logger: those of the application, the
background writer, and the monitor of the crash handler. -/
inductive Thread (ι : Type*)
  | app (i : ι)
  | writer
  | monitor
  deriving DecidableEq, Fintype

variable {ι ε : Type*}

/-- What one `log` call logged. -/
abbrev LogCall (ι ε : Type*) := Call (Thread ι) ε

/-- Where the code goes on after the two `popAll` and the writes of a flush. -/
inductive After
  /-- `log` or the public `flush` returns. -/
  | caller
  /-- Back to the head of the loop of `writerThread`. -/
  | writer
  /-- `writerThread` breaks out of its loop. -/
  | lastOfWriter
  /-- `deinitialize` goes on. -/
  | deinit
  /-- `emergencyFlush` has written what it found in the queue. -/
  | emergencyQueue
  /-- `emergencyFlush` has written what it found in the ring. -/
  | emergencyRing

/-- The program points: what a thread does next. -/
inductive Pc (ι ε : Type*)
  | idle
  /-- `log`: test the level. -/
  | checkLevel (level : LogLevel) (entry : LogCall ι ε)
  /-- `log`: test `initialized_`. -/
  | checkInit (entry : LogCall ι ε)
  /-- `async_queue_->tryPush`. -/
  | queuePush (entry : LogCall ι ε)
  /-- `sem_.release()`. -/
  | release
  /-- `ring_buffer_->tryPush`. -/
  | ringPush (entry : LogCall ι ε)
  /-- `async_queue_->popAll`. -/
  | queuePop (k : After)
  /-- `ring_buffer_->popAll`. -/
  | ringPop (k : After) (queueEntries : List (LogCall ι ε))
  /-- `writeEntries` of both vectors: the next `FileManager::Write`, or the end. -/
  | write (k : After) (queueEntries ringEntries : List (LogCall ι ε))
  /-- `writerThread`: the condition of the loop. -/
  | testStop
  /-- `sem_.acquire()`. -/
  | acquire
  /-- The second test of the stop request. -/
  | testStopAgain
  /-- `writerThread` has returned. -/
  | ended
  /-- `deinitialize`: test `initialized_`. -/
  | deinit
  /-- `writer_thread_.request_stop()`. -/
  | requestStop
  /-- `sem_.release()` of `deinitialize`. -/
  | releaseStop
  /-- `writer_thread_.join()`. -/
  | join
  /-- Clear `initialized_`. -/
  | clearInitialized

/-- The program point after a flush. -/
def After.pc : After → Pc ι ε
  | .caller => .idle
  | .writer => .testStop
  | .lastOfWriter => .ended
  | .deinit => .clearInitialized
  | .emergencyQueue => .ringPop .emergencyRing []
  | .emergencyRing => .idle

/-- The entries in the local vectors of a running flush, not yet written. -/
def Pc.vectors : Pc ι ε → List (LogCall ι ε)
  | .ringPop _ qs => qs
  | .write _ qs rs => qs ++ rs
  | _ => []

/-- The entry of a `log` call that passed both checks and is not yet placed. -/
def Pc.hand : Pc ι ε → List (LogCall ι ε)
  | .queuePush x | .ringPush x => [x]
  | _ => []

/-- The entry of a `log` call that has not passed its checks. -/
def Pc.checking : Pc ι ε → Option (LogCall ι ε)
  | .checkLevel _ x | .checkInit x => some x
  | _ => none

/-- The entry of the `log` call the thread is in, as long as it has not been placed. -/
def Pc.Owns (p : Pc ι ε) (x : LogCall ι ε) : Prop := p.checking = some x ∨ x ∈ p.hand

/-- The thread is inside an operation on one of the buffers. -/
def Pc.OnBuffer : Pc ι ε → Prop
  | .queuePush _ | .ringPush _ | .queuePop _ | .ringPop _ _ => True
  | _ => False

/-- The thread is in `deinitialize`. -/
def Pc.InDeinit : Pc ι ε → Prop
  | .deinit | .requestStop | .releaseStop | .join | .queuePop .deinit
  | .ringPop .deinit _ | .write .deinit _ _ | .clearInitialized => True
  | _ => False

/-- The thread is between its push to the ring and the drain of the ring. -/
def Pc.Spilled : Pc ι ε → Prop
  | .queuePop .caller | .ringPop .caller _ => True
  | _ => False

theorem Pc.Spilled.onBuffer {p : Pc ι ε} (h : p.Spilled) : p.OnBuffer := by
  cases p <;> first | exact h.elim | trivial

/-- The writer thread has returned. -/
def Pc.hasEnded : Pc ι ε → Bool
  | .ended => true
  | _ => false

/-- The thread is in no call. -/
def Pc.isIdle : Pc ι ε → Bool
  | .idle => true
  | _ => false

theorem Pc.eq_idle {p : Pc ι ε} (h : p.isIdle = true) : p = .idle := by
  cases p with
  | idle => rfl
  | _ => exact absurd h Bool.false_ne_true

theorem Pc.eq_ended {p : Pc ι ε} (h : p.hasEnded = true) : p = .ended := by
  cases p with
  | ended => rfl
  | _ => exact absurd h Bool.false_ne_true

/-- The logger without its buffers, and the history. -/
structure Control (ι ε : Type*) where
  pc : Thread ι → Pc ι ε
  /-- The number of `log` calls of each thread so far. -/
  calls : Thread ι → ℕ
  sem : ℕ
  stopRequested : Bool
  initialized : Bool
  minLevel : LogLevel
  /-- What was handed to `FileManager::Write`. -/
  file : List (LogCall ι ε)
  /-- History: the entries of the `log` calls that passed both checks. -/
  passed : List (LogCall ι ε)
  /-- History: the entries neither buffer took. -/
  dropped : List (LogCall ι ε)

/-- After `initialize`: the writer thread is at the head of its loop. -/
def Control.init (ι ε : Type*) : Control ι ε where
  pc
    | .writer => .testStop
    | _ => .idle
  calls _ := 0
  sem := 0
  stopRequested := false
  initialized := true
  minLevel := .debug
  file := []
  passed := []
  dropped := []

/-- What a thread does: start a call, or take the next step of the running one. -/
inductive Act (ε : Type*)
  | log (level : LogLevel) (e : ε)
  | flush
  | setLogLevel (level : LogLevel)
  | deinit
  /-- The monitor serves a crash request. -/
  | emergency
  | step
  /-- A weak compare-and-swap fails for no reason. -/
  | spurious
  /-- A release of the semaphore saturates at one. -/
  | saturate
  deriving DecidableEq

/-- Thread `i` takes `n` steps. -/
def steps (i : Thread ι) (n : ℕ) : List (Thread ι × Act ε) := List.replicate n (i, .step)

/-- Thread `i` does `a` and takes `n` steps. -/
def doing (i : Thread ι) (a : Act ε) (n : ℕ) : List (Thread ι × Act ε) := (i, a) :: steps i n

variable [DecidableEq ι]

/-- Only the program point of thread `i` changes. -/
def Control.goto (c : Control ι ε) (i : Thread ι) (p : Pc ι ε) : Control ι ε :=
  { c with pc := update c.pc i p }

/-- Thread `i` calls `log`. -/
def Control.callLog (c : Control ι ε) (i : Thread ι) (level : LogLevel) (e : ε) : Control ι ε :=
  { c with
    pc := update c.pc i (.checkLevel level ⟨i, c.calls i, e⟩),
    calls := update c.calls i (c.calls i + 1) }

/-- A `log` call passes its second check. -/
def Control.pass (c : Control ι ε) (i : Thread ι) (x : LogCall ι ε) : Control ι ε :=
  { c with pc := update c.pc i (.queuePush x), passed := c.passed ++ [x] }

/-- The ring buffer refused the entry as well. -/
def Control.drop (c : Control ι ε) (i : Thread ι) (x : LogCall ι ε) : Control ι ε :=
  { c with pc := update c.pc i .idle, dropped := c.dropped ++ [x] }

/-- The entry `x` is written. -/
def Control.write (c : Control ι ε) (i : Thread ι) (x : LogCall ι ε) (p : Pc ι ε) :
    Control ι ε :=
  { c with pc := update c.pc i p, file := c.file ++ [x] }

/-- The semaphore becomes `n`. -/
def Control.setSem (c : Control ι ε) (i : Thread ι) (n : ℕ) (p : Pc ι ε) : Control ι ε :=
  { c with pc := update c.pc i p, sem := n }

/-- `log` goes on after the queue took the entry, or did not. -/
def Control.queuePushed (c : Control ι ε) (i : Thread ι) (x : LogCall ι ε) (ok : Bool) :
    Control ι ε :=
  c.goto i (if ok then .release else .ringPush x)

/-- `log` goes on after the ring took the entry, or did not. -/
def Control.ringPushed (c : Control ι ε) (i : Thread ι) (x : LogCall ι ε) (ok : Bool) :
    Control ι ε :=
  if ok then c.goto i (.queuePop .caller) else c.drop i x

/-- A flush goes on after its first `popAll`; `emergencyFlush` writes before the second. -/
def Control.queuePopped (c : Control ι ε) (i : Thread ι) (k : After)
    (queueEntries : List (LogCall ι ε)) : Control ι ε :=
  c.goto i (match k with
    | .emergencyQueue => .write .emergencyQueue queueEntries []
    | k => .ringPop k queueEntries)

/-- A flush goes on after its second `popAll`. -/
def Control.ringPopped (c : Control ι ε) (i : Thread ι) (k : After)
    (queueEntries ringEntries : List (LogCall ι ε)) : Control ι ε :=
  c.goto i (.write k queueEntries ringEntries)

/-- An idle thread starts a call. -/
def Control.start (c : Control ι ε) (i : Thread ι) (a : Act ε) : Option (Control ι ε) :=
  match i, a with
  | .app _, .log level e => some (c.callLog i level e)
  | .app _, .flush => some (c.goto i (.queuePop .caller))
  | .app _, .setLogLevel level => some { c with minLevel := level }
  | .app _, .deinit => some (c.goto i .deinit)
  | .monitor, .emergency => some (c.goto i (.queuePop .emergencyQueue))
  | _, _ => none

/-- The steps that touch neither buffer. -/
def Control.next (c : Control ι ε) (i : Thread ι) (a : Act ε) : Option (Control ι ε) :=
  match c.pc i, a with
  | .idle, a => c.start i a
  | .checkLevel level x, .step =>
    some (c.goto i (if shouldLog level c.minLevel then .checkInit x else .idle))
  | .checkInit x, .step => some (if c.initialized then c.pass i x else c.goto i .idle)
  | .release, .step => some (c.setSem i (c.sem + 1) .idle)
  | .release, .saturate => some (c.setSem i 1 .idle)
  | .write k (x :: qs) rs, .step => some (c.write i x (.write k qs rs))
  | .write k [] (x :: rs), .step => some (c.write i x (.write k [] rs))
  | .write k [] [], .step => some (c.goto i k.pc)
  | .testStop, .step => some (c.goto i (if c.stopRequested then .ended else .acquire))
  | .acquire, .step => if 0 < c.sem then some (c.setSem i (c.sem - 1) .testStopAgain) else none
  | .testStopAgain, .step =>
    some (c.goto i (.queuePop (if c.stopRequested then .lastOfWriter else .writer)))
  | .deinit, .step => some (c.goto i (if c.initialized then .requestStop else .idle))
  | .requestStop, .step => some { c.goto i .releaseStop with stopRequested := true }
  | .releaseStop, .step => some (c.setSem i (c.sem + 1) .join)
  | .releaseStop, .saturate => some (c.setSem i 1 .join)
  | .join, .step =>
    if (c.pc .writer).hasEnded then some (c.goto i (.queuePop .deinit)) else none
  | .clearInitialized, .step => some { c.goto i .idle with initialized := false }
  | _, _ => none

/-- The steps that touch neither buffer, one constructor for each kind. -/
inductive Control.Step (c : Control ι ε) (i : Thread ι) : Act ε → Control ι ε → Prop
  | callLog {n : ι} {level : LogLevel} {e : ε} (hpc : c.pc i = .idle) (hi : i = .app n) :
      Step c i (.log level e) (c.callLog i level e)
  | callFlush {n : ι} (hpc : c.pc i = .idle) (hi : i = .app n) :
      Step c i .flush (c.goto i (.queuePop .caller))
  | setLogLevel {n : ι} {level : LogLevel} (hpc : c.pc i = .idle) (hi : i = .app n) :
      Step c i (.setLogLevel level) { c with minLevel := level }
  | callDeinit {n : ι} (hpc : c.pc i = .idle) (hi : i = .app n) :
      Step c i .deinit (c.goto i .deinit)
  | emergency (hpc : c.pc i = .idle) (hi : i = .monitor) :
      Step c i .emergency (c.goto i (.queuePop .emergencyQueue))
  | filtered {level : LogLevel} {x : LogCall ι ε} (hpc : c.pc i = .checkLevel level x)
      (h : shouldLog level c.minLevel = false) : Step c i .step (c.goto i .idle)
  | reaches {level : LogLevel} {x : LogCall ι ε} (hpc : c.pc i = .checkLevel level x)
      (h : shouldLog level c.minLevel = true) : Step c i .step (c.goto i (.checkInit x))
  | uninitialized {x : LogCall ι ε} (hpc : c.pc i = .checkInit x) (h : c.initialized = false) :
      Step c i .step (c.goto i .idle)
  | pass {x : LogCall ι ε} (hpc : c.pc i = .checkInit x) (h : c.initialized = true) :
      Step c i .step (c.pass i x)
  | release {a : Act ε} {n : ℕ} (hpc : c.pc i = .release) (hn : 0 < n) :
      Step c i a (c.setSem i n .idle)
  | writeQueue {k : After} {x : LogCall ι ε} {qs rs : List (LogCall ι ε)}
      (hpc : c.pc i = .write k (x :: qs) rs) : Step c i .step (c.write i x (.write k qs rs))
  | writeRing {k : After} {x : LogCall ι ε} {rs : List (LogCall ι ε)}
      (hpc : c.pc i = .write k [] (x :: rs)) : Step c i .step (c.write i x (.write k [] rs))
  | written {k : After} (hpc : c.pc i = .write k [] []) : Step c i .step (c.goto i k.pc)
  | stopped (hpc : c.pc i = .testStop) (h : c.stopRequested = true) :
      Step c i .step (c.goto i .ended)
  | running (hpc : c.pc i = .testStop) (h : c.stopRequested = false) :
      Step c i .step (c.goto i .acquire)
  | acquire (hpc : c.pc i = .acquire) (h : 0 < c.sem) :
      Step c i .step (c.setSem i (c.sem - 1) .testStopAgain)
  | lastFlush (hpc : c.pc i = .testStopAgain) (h : c.stopRequested = true) :
      Step c i .step (c.goto i (.queuePop .lastOfWriter))
  | nextFlush (hpc : c.pc i = .testStopAgain) (h : c.stopRequested = false) :
      Step c i .step (c.goto i (.queuePop .writer))
  | deinitAgain (hpc : c.pc i = .deinit) (h : c.initialized = false) :
      Step c i .step (c.goto i .idle)
  | deinitStart (hpc : c.pc i = .deinit) (h : c.initialized = true) :
      Step c i .step (c.goto i .requestStop)
  | requestStop (hpc : c.pc i = .requestStop) :
      Step c i .step { c.goto i .releaseStop with stopRequested := true }
  | releaseStop {a : Act ε} {n : ℕ} (hpc : c.pc i = .releaseStop) (hn : 0 < n) :
      Step c i a (c.setSem i n .join)
  | join (hpc : c.pc i = .join) (h : c.pc .writer = .ended) :
      Step c i .step (c.goto i (.queuePop .deinit))
  | clearInitialized (hpc : c.pc i = .clearInitialized) :
      Step c i .step { c.goto i .idle with initialized := false }

/-- A call starts as one of the listed kinds. -/
theorem Control.step_of_start {c c' : Control ι ε} {i : Thread ι} {a : Act ε}
    (hpc : c.pc i = .idle) (h : c.start i a = some c') : Control.Step c i a c' := by
  unfold Control.start at h
  split at h
  case h_1 n level e => exact Option.some.inj h ▸ .callLog hpc rfl
  case h_2 n => exact Option.some.inj h ▸ .callFlush hpc rfl
  case h_3 n level => exact Option.some.inj h ▸ .setLogLevel hpc rfl
  case h_4 n => exact Option.some.inj h ▸ .callDeinit hpc rfl
  case h_5 => exact Option.some.inj h ▸ .emergency hpc rfl
  case h_6 => contradiction

/-- **Every step is one of the listed kinds.** -/
theorem Control.step_of_next {c c' : Control ι ε} {i : Thread ι} {a : Act ε}
    (h : c.next i a = some c') : Control.Step c i a c' := by
  unfold Control.next at h
  split at h
  case h_1 hpc => exact step_of_start hpc h
  case h_2 level x hpc =>
    obtain rfl := Option.some.inj h
    split
    · next hl => exact .reaches hpc hl
    · next hl => exact .filtered hpc (by simpa using hl)
  case h_3 x hpc =>
    obtain rfl := Option.some.inj h
    split
    · next hi => exact .pass hpc hi
    · next hi => exact .uninitialized hpc (by simpa using hi)
  case h_4 hpc => exact Option.some.inj h ▸ .release hpc (Nat.succ_pos _)
  case h_5 hpc => exact Option.some.inj h ▸ .release hpc Nat.one_pos
  case h_6 k x qs rs hpc => exact Option.some.inj h ▸ .writeQueue hpc
  case h_7 k x rs hpc => exact Option.some.inj h ▸ .writeRing hpc
  case h_8 k hpc => exact Option.some.inj h ▸ .written hpc
  case h_9 hpc =>
    obtain rfl := Option.some.inj h
    split
    · next hs => exact .stopped hpc hs
    · next hs => exact .running hpc (by simpa using hs)
  case h_10 hpc =>
    split at h
    · next hs => exact Option.some.inj h ▸ .acquire hpc hs
    · contradiction
  case h_11 hpc =>
    obtain rfl := Option.some.inj h
    cases hs : c.stopRequested with
    | true => exact .lastFlush hpc hs
    | false => exact .nextFlush hpc hs
  case h_12 hpc =>
    obtain rfl := Option.some.inj h
    split
    · next hi => exact .deinitStart hpc hi
    · next hi => exact .deinitAgain hpc (by simpa using hi)
  case h_13 hpc => exact Option.some.inj h ▸ .requestStop hpc
  case h_14 hpc => exact Option.some.inj h ▸ .releaseStop hpc (Nat.succ_pos _)
  case h_15 hpc => exact Option.some.inj h ▸ .releaseStop hpc Nat.one_pos
  case h_16 hpc =>
    split at h
    · next hj => exact Option.some.inj h ▸ .join hpc (Pc.eq_ended hj)
    · contradiction
  case h_17 hpc => exact Option.some.inj h ▸ .clearInitialized hpc
  case h_18 => contradiction

/-! ### What a step changes -/

/-- A step of one thread leaves the program points of the others. -/
theorem Control.Step.pc_of_ne {c c' : Control ι ε} {i j : Thread ι} {a : Act ε}
    (h : Control.Step c i a c') (hji : j ≠ i) : c'.pc j = c.pc j := by
  cases h with
  | setLogLevel => rfl
  | _ => exact update_of_ne hji _ _

theorem Control.Step.not_onBuffer {c c' : Control ι ε} {i : Thread ι} {a : Act ε}
    (h : Control.Step c i a c') : ¬ (c.pc i).OnBuffer := by
  cases h with
  | callLog hpc _ | callFlush hpc _ | setLogLevel hpc _ | callDeinit hpc _
  | emergency hpc _ | filtered hpc _ | reaches hpc _ | uninitialized hpc _ | pass hpc _
  | release hpc _ | stopped hpc _ | running hpc _ | acquire hpc _ | lastFlush hpc _
  | nextFlush hpc _ | deinitAgain hpc _ | deinitStart hpc _ | releaseStop hpc _ | join hpc _ =>
    rw [hpc]; exact not_false
  | writeQueue hpc | writeRing hpc | written hpc | requestStop hpc | clearInitialized hpc =>
    rw [hpc]; exact not_false

theorem Control.Step.calls_of_ne {c c' : Control ι ε} {i j : Thread ι} {a : Act ε}
    (h : Control.Step c i a c') (hji : j ≠ i) : c'.calls j = c.calls j := by
  cases h with
  | callLog => exact update_of_ne hji _ _
  | _ => rfl

/-- A step that touches neither buffer writes what leaves the vectors. -/
theorem Control.Step.writes {c c' : Control ι ε} {i : Thread ι} {a : Act ε}
    (h : Control.Step c i a c') :
    ∃ w, c'.file = c.file ++ w ∧ (c.pc i).vectors = w ++ (c'.pc i).vectors := by
  have hself : ∀ {p : Pc ι ε}, (c.pc i).vectors = p.vectors →
      (c.pc i).vectors = [] ++ (update c.pc i p i).vectors := by
    intro p hp
    rw [update_self, hp, List.nil_append]
  cases h with
  | setLogLevel => exact ⟨[], (List.append_nil _).symm, rfl⟩
  | @writeQueue k x qs rs hpc =>
    refine ⟨[x], rfl, ?_⟩
    show _ = [x] ++ (update c.pc i _ i).vectors
    rw [hpc, update_self]
    rfl
  | @writeRing k x rs hpc =>
    refine ⟨[x], rfl, ?_⟩
    show _ = [x] ++ (update c.pc i _ i).vectors
    rw [hpc, update_self]
    rfl
  | @written k hpc =>
    exact ⟨[], (List.append_nil _).symm, hself (by rw [hpc]; cases k <;> rfl)⟩
  | callLog hpc _ | callFlush hpc _ | callDeinit hpc _ | emergency hpc _ | filtered hpc _
  | reaches hpc _ | uninitialized hpc _ | pass hpc _ | release hpc _ | stopped hpc _
  | running hpc _ | acquire hpc _ | lastFlush hpc _ | nextFlush hpc _ | deinitAgain hpc _
  | deinitStart hpc _ | releaseStop hpc _ | join hpc _ =>
    exact ⟨[], (List.append_nil _).symm, hself (by rw [hpc]; rfl)⟩
  | requestStop hpc | clearInitialized hpc =>
    exact ⟨[], (List.append_nil _).symm, hself (by rw [hpc]; rfl)⟩

/-- A step that touches neither buffer drops nothing, and passes the entry it
leaves in the hands of the thread. -/
theorem Control.Step.passes {c c' : Control ι ε} {i : Thread ι} {a : Act ε}
    (h : Control.Step c i a c') :
    c'.dropped = c.dropped ∧ (c.pc i).hand = [] ∧ c'.passed = c.passed ++ (c'.pc i).hand := by
  have hself : ∀ {p : Pc ι ε}, p.hand = [] → c.passed = c.passed ++ (update c.pc i p i).hand := by
    intro p hp
    rw [update_self, hp, List.append_nil]
  cases h with
  | setLogLevel hpc _ =>
    have hand : (c.pc i).hand = [] := by rw [hpc]; rfl
    refine ⟨rfl, hand, ?_⟩
    show c.passed = c.passed ++ (c.pc i).hand
    rw [hand, List.append_nil]
  | pass hpc _ =>
    refine ⟨rfl, by rw [hpc]; rfl, ?_⟩
    show _ = c.passed ++ (update c.pc i _ i).hand
    rw [update_self]
    rfl
  | @written k hpc => exact ⟨rfl, by rw [hpc]; rfl, hself (by cases k <;> rfl)⟩
  | callLog hpc _ | callFlush hpc _ | callDeinit hpc _ | emergency hpc _ | filtered hpc _
  | reaches hpc _ | uninitialized hpc _ | release hpc _ | stopped hpc _ | running hpc _
  | acquire hpc _ | lastFlush hpc _ | nextFlush hpc _ | deinitAgain hpc _ | deinitStart hpc _
  | releaseStop hpc _ | join hpc _ => exact ⟨rfl, by rw [hpc]; rfl, hself rfl⟩
  | writeQueue hpc | writeRing hpc | requestStop hpc | clearInitialized hpc =>
    exact ⟨rfl, by rw [hpc]; rfl, hself rfl⟩

/-! ### The numbers of the calls -/

/-- The entry is the latest of thread `i`, and newer than what that thread passed. -/
def Control.Fresh (c : Control ι ε) (i : Thread ι) (x : LogCall ι ε) : Prop :=
  x.thread = i ∧ x.number + 1 = c.calls i ∧ ∀ y ∈ c.passed, y.thread = i → y.number < x.number

/-- **The entries that passed are in call order**, so no two of them are equal. -/
structure Control.Numbered (c : Control ι ε) : Prop where
  ordered : Call.InCallOrder c.passed
  below : ∀ y ∈ c.passed, y.number < c.calls y.thread
  checking : ∀ i x, (c.pc i).checking = some x → c.Fresh i x

omit [DecidableEq ι] in
theorem Control.numbered_init : (Control.init ι ε).Numbered where
  ordered := Call.inCallOrder_nil
  below y hy := by simp [Control.init] at hy
  checking i x hx := by cases i <;> simp [Control.init, Pc.checking] at hx

/-- A step to a program point behind the checks. -/
theorem Control.Numbered.of_pc {c c' : Control ι ε} {i : Thread ι} {p : Pc ι ε}
    (h : c.Numbered) (hpassed : c'.passed = c.passed) (hcalls : c'.calls = c.calls)
    (hpc : c'.pc = update c.pc i p) (hp : ∀ x, p.checking = some x → c.Fresh i x) :
    c'.Numbered where
  ordered := by rw [hpassed]; exact h.ordered
  below := by rw [hpassed, hcalls]; exact h.below
  checking j x hx := by
    have hfresh : c.Fresh j x := by
      rw [hpc] at hx
      by_cases hji : j = i
      · rw [hji, update_self] at hx
        exact hji ▸ hp x hx
      · rw [update_of_ne hji] at hx
        exact h.checking j x hx
    exact ⟨hfresh.1, by rw [hcalls]; exact hfresh.2.1, by rw [hpassed]; exact hfresh.2.2⟩

theorem Control.Step.numbered {c c' : Control ι ε} {i : Thread ι} {a : Act ε}
    (hstep : Control.Step c i a c') (h : c.Numbered) : c'.Numbered := by
  cases hstep with
  | setLogLevel => exact ⟨h.ordered, h.below, h.checking⟩
  | @callLog n level e hpc _ =>
    refine ⟨h.ordered, fun y hy => ?_, fun j x hx => ?_⟩
    · have := h.below y hy
      show y.number < update c.calls i _ y.thread
      by_cases hyi : y.thread = i
      · rw [hyi] at this ⊢
        rw [update_self]
        omega
      · rwa [update_of_ne hyi]
    · have hx : (update c.pc i (.checkLevel level ⟨i, c.calls i, e⟩) j).checking = some x := hx
      by_cases hji : j = i
      · subst hji
        rw [update_self] at hx
        obtain rfl := Option.some.inj hx
        refine ⟨rfl, ?_, fun y hy hyj => ?_⟩
        · show c.calls j + 1 = update c.calls j _ j
          rw [update_self]
        · have := h.below y hy
          rw [hyj] at this
          exact this
      · rw [update_of_ne hji] at hx
        obtain ⟨hthread, hnumber, hnew⟩ := h.checking j x hx
        refine ⟨hthread, ?_, hnew⟩
        show x.number + 1 = update c.calls i _ j
        rw [update_of_ne hji]
        exact hnumber
  | @reaches level x hpc _ =>
    exact h.of_pc rfl rfl rfl fun y hy => h.checking i y (by rw [hpc]; exact hy)
  | @pass x hpc _ =>
    -- the entry is newer than all that its thread has passed, and is no longer checked
    obtain ⟨hthread, hnumber, hnew⟩ := h.checking i x (by rw [hpc]; rfl)
    refine ⟨h.ordered.concat fun y hy hyx => hnew y hy (hyx.trans hthread), ?_, ?_⟩
    · intro y hy
      rcases List.mem_append.mp hy with hy | hy
      · exact h.below y hy
      · rw [List.mem_singleton.mp hy, hthread]
        show x.number < c.calls i
        omega
    · intro j y hy
      have hy : (update c.pc i (.queuePush x) j).checking = some y := hy
      by_cases hji : j = i
      · rw [hji, update_self] at hy
        exact absurd hy (by simp [Pc.checking])
      · rw [update_of_ne hji] at hy
        obtain ⟨hyj, hyn, hynew⟩ := h.checking j y hy
        refine ⟨hyj, hyn, fun z hz hzj => ?_⟩
        rcases List.mem_append.mp hz with hz | hz
        · exact hynew z hz hzj
        · rw [List.mem_singleton.mp hz, hthread] at hzj
          exact absurd hzj.symm hji
  | @written k hpc =>
    exact h.of_pc rfl rfl rfl fun y hy => by
      cases k <;> exact absurd hy (by simp [After.pc, Pc.checking])
  | _ => exact h.of_pc rfl rfl rfl fun y hy => absurd hy (by simp [Pc.checking])

end AsyncLogger
end SpeckitLog
