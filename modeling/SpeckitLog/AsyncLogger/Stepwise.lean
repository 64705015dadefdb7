import SpeckitLog.AsyncLogger
import SpeckitLog.AsyncQueue
import SpeckitLog.RingBuffer

/-!
# The logger over its buffers, one atomic operation at a time

The threads of the logger run on the queue and the ring buffer of the
fine-grained models: a thread at `queuePush` or `queuePop` takes the steps of
`AsyncQueue::tryPush` or `popAll`, one at a time, and goes on when the call
returns; likewise for the ring.

## Main definitions

* `Stepwise.State`, `Stepwise.next` — the logger and one step of one thread.
* `Stepwise.Step` — the kinds of steps.

## Main results

* `Stepwise.queue_run`, `Stepwise.ring_run` — a run of the logger is, seen from
  either buffer, a run of that buffer.
-/

namespace SpeckitLog
namespace AsyncLogger
namespace Stepwise

open Function Transition

variable {ι ε : Type*}

/-- The logger with its queue and its ring buffer. -/
structure State (ι ε : Type*) where
  control : Control ι ε
  queue : AsyncQueue.State (Thread ι) (LogCall ι ε)
  ring : RingBuffer.State (Thread ι) (LogCall ι ε)

/-- After `initialize`; `dflt` stands for a default-constructed entry. -/
def init (dflt : LogCall ι ε) : State ι ε where
  control := Control.init ι ε
  queue := AsyncQueue.init _ _
  ring := RingBuffer.init _ dflt

/-- The entries in the local vectors of the calls thread `i` is in. -/
def State.vectors (s : State ι ε) (i : Thread ι) : List (LogCall ι ε) :=
  (s.control.pc i).vectors ++ ((s.queue.pc i).result ++ (s.ring.pc i).entries)

variable [DecidableEq ι]

/-- Thread `i` takes a step of the queue, and the logger goes on as in `c`. -/
def State.onQueue (s : State ι ε) (cap : ℕ) (i : Thread ι) (b : AsyncQueue.Act (LogCall ι ε))
    (c : Control ι ε) : Option (State ι ε) :=
  (AsyncQueue.threadNext cap s.queue i b).map fun q => { s with control := c, queue := q }

/-- Thread `i` takes a step of the ring buffer, and the logger goes on as in `c`. -/
def State.onRing (s : State ι ε) (cap : ℕ) (i : Thread ι) (b : RingBuffer.Act (LogCall ι ε))
    (c : Control ι ε) : Option (State ι ε) :=
  (RingBuffer.threadNext cap s.ring i b).map fun r => { s with control := c, ring := r }

/-- Thread `i` is in `async_queue_->tryPush(x)`. -/
def State.queuePush (s : State ι ε) (cap : ℕ) (i : Thread ι) (x : LogCall ι ε) (a : Act ε) :
    Option (State ι ε) :=
  match s.queue.pc i, a with
  | .idle, .step => s.onQueue cap i (.push x) s.control
  | .pushed ok, .step => s.onQueue cap i .step (s.control.queuePushed i x ok)
  | .popped _, _ => none
  | _, .step => s.onQueue cap i .step s.control
  | _, .spurious => s.onQueue cap i .spurious s.control
  | _, _ => none

/-- Thread `i` is in `async_queue_->popAll()`. -/
def State.queuePop (s : State ι ε) (cap : ℕ) (i : Thread ι) (k : After) (a : Act ε) :
    Option (State ι ε) :=
  match s.queue.pc i, a with
  | .idle, .step => s.onQueue cap i .pop s.control
  | .popped es, .step => s.onQueue cap i .step (s.control.queuePopped i k es)
  | .pushed _, _ => none
  | _, .step => s.onQueue cap i .step s.control
  | _, _ => none

/-- Thread `i` is in `ring_buffer_->tryPush(x)`. -/
def State.ringPush (s : State ι ε) (cap : ℕ) (i : Thread ι) (x : LogCall ι ε) (a : Act ε) :
    Option (State ι ε) :=
  match s.ring.pc i, a with
  | .idle, .step => s.onRing cap i (.push x) s.control
  | .pushed ok, .step => s.onRing cap i .step (s.control.ringPushed i x ok)
  | .popped _, _ => none
  | _, .step => s.onRing cap i .step s.control
  | _, _ => none

/-- Thread `i` is in `ring_buffer_->popAll()`. -/
def State.ringPop (s : State ι ε) (cap : ℕ) (i : Thread ι) (k : After)
    (qs : List (LogCall ι ε)) (a : Act ε) : Option (State ι ε) :=
  match s.ring.pc i, a with
  | .idle, .step => s.onRing cap i .pop s.control
  | .popped es, .step => s.onRing cap i .step (s.control.ringPopped i k qs es)
  | .pushed _, _ => none
  | _, .step => s.onRing cap i .step s.control
  | _, _ => none

/-- One step of thread `i` of a logger whose buffers have `cap` slots each. -/
def threadNext (cap : ℕ) (s : State ι ε) (i : Thread ι) (a : Act ε) : Option (State ι ε) :=
  match s.control.pc i with
  | .queuePush x => s.queuePush cap i x a
  | .queuePop k => s.queuePop cap i k a
  | .ringPush x => s.ringPush cap i x a
  | .ringPop k qs => s.ringPop cap i k qs a
  | _ => (s.control.next i a).map fun c => { s with control := c }

/-- One step of one thread. -/
def next (cap : ℕ) (s : State ι ε) (a : Thread ι × Act ε) : Option (State ι ε) :=
  threadNext cap s a.1 a.2

/-- The kinds of steps: those that touch neither buffer; and, for each of the two
operations on each buffer, its call, the steps inside it, and its return. -/
inductive Step (cap : ℕ) (s : State ι ε) (i : Thread ι) : State ι ε → Prop
  | control {a : Act ε} {c : Control ι ε} (h : Control.Step s.control i a c) :
      Step cap s i { s with control := c }
  | queueCallPush {x : LogCall ι ε} (hpc : s.control.pc i = .queuePush x)
      (hq : s.queue.pc i = .idle) : Step cap s i { s with queue := s.queue.callPush i x }
  | queueCallPop {k : After} (hpc : s.control.pc i = .queuePop k) (hq : s.queue.pc i = .idle) :
      Step cap s i { s with queue := s.queue.goto i .popLoadHead }
  | queueInner {b : AsyncQueue.Act (LogCall ι ε)}
      {q : AsyncQueue.State (Thread ι) (LogCall ι ε)} (hin : (s.queue.pc i).Inner)
      (h : AsyncQueue.Step cap s.queue i b q) : Step cap s i { s with queue := q }
  | queuePushed {x : LogCall ι ε} {ok : Bool} (hpc : s.control.pc i = .queuePush x)
      (hq : s.queue.pc i = .pushed ok) :
      Step cap s i { s with
        control := s.control.queuePushed i x ok, queue := s.queue.returnPush i ok }
  | queuePopped {k : After} {es : List (LogCall ι ε)} (hpc : s.control.pc i = .queuePop k)
      (hq : s.queue.pc i = .popped es) :
      Step cap s i { s with
        control := s.control.queuePopped i k es, queue := s.queue.returnPop i es }
  | ringCallPush {x : LogCall ι ε} (hpc : s.control.pc i = .ringPush x)
      (hr : s.ring.pc i = .idle) : Step cap s i { s with ring := s.ring.callPush i x }
  | ringCallPop {k : After} {qs : List (LogCall ι ε)} (hpc : s.control.pc i = .ringPop k qs)
      (hr : s.ring.pc i = .idle) : Step cap s i { s with ring := s.ring.goto i .exchange }
  | ringInner {b : RingBuffer.Act (LogCall ι ε)}
      {r : RingBuffer.State (Thread ι) (LogCall ι ε)} (hin : (s.ring.pc i).Inner)
      (h : RingBuffer.Step cap s.ring i b r) : Step cap s i { s with ring := r }
  | ringPushed {x : LogCall ι ε} {ok : Bool} (hpc : s.control.pc i = .ringPush x)
      (hr : s.ring.pc i = .pushed ok) :
      Step cap s i { s with
        control := s.control.ringPushed i x ok, ring := s.ring.returnPush i ok }
  | ringPopped {k : After} {qs es : List (LogCall ι ε)} (hpc : s.control.pc i = .ringPop k qs)
      (hr : s.ring.pc i = .popped es) :
      Step cap s i { s with
        control := s.control.ringPopped i k qs es, ring := s.ring.returnPop i es }

/-- A step inside a call of the queue. -/
theorem step_of_onQueue {cap : ℕ} {s s' : State ι ε} {i : Thread ι}
    {b : AsyncQueue.Act (LogCall ι ε)} (hin : (s.queue.pc i).Inner)
    (h : s.onQueue cap i b s.control = some s') : Step cap s i s' := by
  obtain ⟨q, hq, rfl⟩ := Option.map_eq_some_iff.mp h
  exact .queueInner hin (AsyncQueue.step_of_next hq)

/-- A step inside a call of the ring buffer. -/
theorem step_of_onRing {cap : ℕ} {s s' : State ι ε} {i : Thread ι}
    {b : RingBuffer.Act (LogCall ι ε)} (hin : (s.ring.pc i).Inner)
    (h : s.onRing cap i b s.control = some s') : Step cap s i s' := by
  obtain ⟨r, hr, rfl⟩ := Option.map_eq_some_iff.mp h
  exact .ringInner hin (RingBuffer.step_of_next hr)

theorem step_of_queuePush {cap : ℕ} {s s' : State ι ε} {i : Thread ι} {x : LogCall ι ε}
    {a : Act ε} (hpc : s.control.pc i = .queuePush x) (h : s.queuePush cap i x a = some s') :
    Step cap s i s' := by
  unfold State.queuePush at h
  split at h
  case h_1 hq =>
    simp only [State.onQueue, AsyncQueue.threadNext, hq, Option.map_some, Option.some.injEq] at h
    exact h ▸ .queueCallPush hpc hq
  case h_2 ok hq =>
    simp only [State.onQueue, AsyncQueue.threadNext, hq, Option.map_some, Option.some.injEq] at h
    exact h ▸ .queuePushed hpc hq
  case h_3 => contradiction
  case h_4 hidle hpushed hpopped =>
    exact step_of_onQueue (AsyncQueue.Pc.inner_of_ne hidle hpushed hpopped) h
  case h_5 =>
    refine step_of_onQueue ?_ h
    cases hq : s.queue.pc i <;>
      first | trivial | simp [State.onQueue, AsyncQueue.threadNext, hq] at h
  case h_6 => contradiction

theorem step_of_queuePop {cap : ℕ} {s s' : State ι ε} {i : Thread ι} {k : After} {a : Act ε}
    (hpc : s.control.pc i = .queuePop k) (h : s.queuePop cap i k a = some s') :
    Step cap s i s' := by
  unfold State.queuePop at h
  split at h
  case h_1 hq =>
    simp only [State.onQueue, AsyncQueue.threadNext, hq, Option.map_some, Option.some.injEq] at h
    exact h ▸ .queueCallPop hpc hq
  case h_2 es hq =>
    simp only [State.onQueue, AsyncQueue.threadNext, hq, Option.map_some, Option.some.injEq] at h
    exact h ▸ .queuePopped hpc hq
  case h_3 => contradiction
  case h_4 hidle hpopped hpushed =>
    exact step_of_onQueue (AsyncQueue.Pc.inner_of_ne hidle hpushed hpopped) h
  case h_5 => contradiction

theorem step_of_ringPush {cap : ℕ} {s s' : State ι ε} {i : Thread ι} {x : LogCall ι ε}
    {a : Act ε} (hpc : s.control.pc i = .ringPush x) (h : s.ringPush cap i x a = some s') :
    Step cap s i s' := by
  unfold State.ringPush at h
  split at h
  case h_1 hr =>
    simp only [State.onRing, RingBuffer.threadNext, hr, Option.map_some, Option.some.injEq] at h
    exact h ▸ .ringCallPush hpc hr
  case h_2 ok hr =>
    simp only [State.onRing, RingBuffer.threadNext, hr, Option.map_some, Option.some.injEq] at h
    exact h ▸ .ringPushed hpc hr
  case h_3 => contradiction
  case h_4 hidle hpushed hpopped =>
    exact step_of_onRing (RingBuffer.Pc.inner_of_ne hidle hpushed hpopped) h
  case h_5 => contradiction

theorem step_of_ringPop {cap : ℕ} {s s' : State ι ε} {i : Thread ι} {k : After}
    {qs : List (LogCall ι ε)} {a : Act ε} (hpc : s.control.pc i = .ringPop k qs)
    (h : s.ringPop cap i k qs a = some s') : Step cap s i s' := by
  unfold State.ringPop at h
  split at h
  case h_1 hr =>
    simp only [State.onRing, RingBuffer.threadNext, hr, Option.map_some, Option.some.injEq] at h
    exact h ▸ .ringCallPop hpc hr
  case h_2 es hr =>
    simp only [State.onRing, RingBuffer.threadNext, hr, Option.map_some, Option.some.injEq] at h
    exact h ▸ .ringPopped hpc hr
  case h_3 => contradiction
  case h_4 hidle hpopped hpushed =>
    exact step_of_onRing (RingBuffer.Pc.inner_of_ne hidle hpushed hpopped) h
  case h_5 => contradiction

/-- **Every step is one of the listed kinds.** -/
theorem step_of_next {cap : ℕ} {s s' : State ι ε} {i : Thread ι} {a : Act ε}
    (h : threadNext cap s i a = some s') : Step cap s i s' := by
  unfold threadNext at h
  split at h
  case h_1 x hpc => exact step_of_queuePush hpc h
  case h_2 k hpc => exact step_of_queuePop hpc h
  case h_3 x hpc => exact step_of_ringPush hpc h
  case h_4 k qs hpc => exact step_of_ringPop hpc h
  case h_5 =>
    obtain ⟨c, hc, rfl⟩ := Option.map_eq_some_iff.mp h
    exact .control (Control.step_of_next hc)

/-! ### The runs of the buffers -/

theorem onQueue_eq_some {cap : ℕ} {s s' : State ι ε} {i : Thread ι}
    {b : AsyncQueue.Act (LogCall ι ε)} {c : Control ι ε} (h : s.onQueue cap i b c = some s') :
    AsyncQueue.next cap s.queue (i, b) = some s'.queue ∧ s'.ring = s.ring := by
  obtain ⟨q, hq, rfl⟩ := Option.map_eq_some_iff.mp h
  exact ⟨hq, rfl⟩

theorem onRing_eq_some {cap : ℕ} {s s' : State ι ε} {i : Thread ι}
    {b : RingBuffer.Act (LogCall ι ε)} {c : Control ι ε} (h : s.onRing cap i b c = some s') :
    RingBuffer.next cap s.ring (i, b) = some s'.ring ∧ s'.queue = s.queue := by
  obtain ⟨r, hr, rfl⟩ := Option.map_eq_some_iff.mp h
  exact ⟨hr, rfl⟩

/-- A step of the logger is a step of the same thread on one buffer, or on none. -/
theorem buffers_of_next {cap : ℕ} {s s' : State ι ε} {i : Thread ι} {a : Act ε}
    (h : threadNext cap s i a = some s') :
    (s'.queue = s.queue ∧ s'.ring = s.ring) ∨
    (∃ b, AsyncQueue.next cap s.queue (i, b) = some s'.queue) ∧ s'.ring = s.ring ∨
    (∃ b, RingBuffer.next cap s.ring (i, b) = some s'.ring) ∧ s'.queue = s.queue := by
  have hqueue : ∀ {b c}, s.onQueue cap i b c = some s' →
      (s'.queue = s.queue ∧ s'.ring = s.ring) ∨
      (∃ b, AsyncQueue.next cap s.queue (i, b) = some s'.queue) ∧ s'.ring = s.ring ∨
      (∃ b, RingBuffer.next cap s.ring (i, b) = some s'.ring) ∧ s'.queue = s.queue :=
    fun hon => Or.inr (Or.inl ⟨⟨_, (onQueue_eq_some hon).1⟩, (onQueue_eq_some hon).2⟩)
  have hring : ∀ {b c}, s.onRing cap i b c = some s' →
      (s'.queue = s.queue ∧ s'.ring = s.ring) ∨
      (∃ b, AsyncQueue.next cap s.queue (i, b) = some s'.queue) ∧ s'.ring = s.ring ∨
      (∃ b, RingBuffer.next cap s.ring (i, b) = some s'.ring) ∧ s'.queue = s.queue :=
    fun hon => Or.inr (Or.inr ⟨⟨_, (onRing_eq_some hon).1⟩, (onRing_eq_some hon).2⟩)
  unfold threadNext at h
  split at h
  · unfold State.queuePush at h
    split at h <;> first | exact hqueue h | contradiction
  · unfold State.queuePop at h
    split at h <;> first | exact hqueue h | contradiction
  · unfold State.ringPush at h
    split at h <;> first | exact hring h | contradiction
  · unfold State.ringPop at h
    split at h <;> first | exact hring h | contradiction
  · obtain ⟨c, hc, rfl⟩ := Option.map_eq_some_iff.mp h
    exact Or.inl ⟨rfl, rfl⟩

/-- **A run of the logger is a run of its queue.** -/
theorem queue_run {cap : ℕ} {s₀ s : State ι ε} {ok : State ι ε → Thread ι × Act ε → Prop}
    (ok' : AsyncQueue.State (Thread ι) (LogCall ι ε) → Thread ι → Prop)
    (hs : Reachable (next cap) ok s₀ s) (hok : ∀ s a, ok s a → ok' s.queue a.1) :
    Reachable (AsyncQueue.next cap) (fun q a => ok' q a.1) s₀.queue s.queue := by
  refine hs.project State.queue ?_
  rintro s ⟨i, a⟩ s' - hoks hnext
  rcases buffers_of_next hnext with ⟨heq, -⟩ | ⟨⟨b, hb⟩, -⟩ | ⟨-, heq⟩
  · exact Or.inl heq
  · exact Or.inr ⟨(i, b), hok _ _ hoks, hb⟩
  · exact Or.inl heq

/-- **A run of the logger is a run of its ring buffer.** -/
theorem ring_run {cap : ℕ} {s₀ s : State ι ε} {ok : State ι ε → Thread ι × Act ε → Prop}
    (ok' : RingBuffer.State (Thread ι) (LogCall ι ε) → Thread ι → Prop)
    (hs : Reachable (next cap) ok s₀ s) (hok : ∀ s a, ok s a → ok' s.ring a.1) :
    Reachable (RingBuffer.next cap) (fun r a => ok' r a.1) s₀.ring s.ring := by
  refine hs.project State.ring ?_
  rintro s ⟨i, a⟩ s' - hoks hnext
  rcases buffers_of_next hnext with ⟨-, heq⟩ | ⟨-, heq⟩ | ⟨⟨b, hb⟩, -⟩
  · exact Or.inl heq
  · exact Or.inl heq
  · exact Or.inr ⟨(i, b), hok _ _ hoks, hb⟩

end Stepwise
end AsyncLogger
end SpeckitLog
