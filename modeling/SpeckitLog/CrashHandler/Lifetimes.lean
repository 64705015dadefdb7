import SpeckitLog.CrashHandler

/-!
# The lifetimes of loggers and crash handlers

Every logger owns a `CrashHandler`, but whether the signals are handled and which
callback a crash runs are static: one flag and one callback for all the loggers of
the process.  Any handler that is destroyed clears the flag, and nothing ever clears
the callback, so both are right only as long as there is one logger and it stays.

## Main definitions

* `Lifetimes.State`, `Lifetimes.next`, `Lifetimes.Step` — loggers that come and go.
* `Lifetimes.Covered` — the signals are handled while a handler is alive.
* `Lifetimes.ReachesLive` — an emergency flush reaches the live loggers, and no other.

## Main results

* `Lifetimes.covered`, `Lifetimes.reachesLive` — where loggers do not overlap.
* `Lifetimes.not_covered_overlap`, `Lifetimes.not_reachesLive_overlap` — where they do.
-/

namespace SpeckitLog
namespace Lifetimes

open Function Transition CrashHandler

/-! ### The objects -/

/-- A `CrashHandler`: whether its `monitor_thread_` is joinable. -/
structure Handler where
  monitor : Bool
  deriving DecidableEq

/-- An `AsyncLogger`, with the entries that wait in its buffers. -/
structure Logger (ε : Type*) where
  queueSize : ℕ
  queue : List ε
  ring : List ε
  /-- `crash_handler_`. -/
  handler : Option Handler
  initialized : Bool
  deriving DecidableEq

variable {ι ε : Type*}

/-- The constructor. -/
def Logger.new (ε : Type*) : Logger ε := ⟨0, [], [], none, false⟩

/-- `flush`: both buffers are drained. -/
def Logger.flush (l : Logger ε) : Logger ε := { l with queue := [], ring := [] }

/-- `log`, behind its check of the level. -/
def Logger.log (l : Logger ε) (e : ε) : Logger ε :=
  if !l.initialized then l
  else if l.queue.length < l.queueSize then { l with queue := l.queue ++ [e] }
  else if l.ring.length < l.queueSize then { l with ring := l.ring ++ [e] }.flush
  else l

/-- `deinitialize`. -/
def Logger.deinit (l : Logger ε) : Logger ε :=
  if l.initialized then { l.flush with initialized := false } else l

theorem Logger.handler_deinit (l : Logger ε) : l.deinit.handler = l.handler := by
  unfold Logger.deinit
  split <;> rfl

theorem Logger.not_initialized_deinit (l : Logger ε) : l.deinit.initialized = false := by
  unfold Logger.deinit
  split
  · rfl
  · next hinit => simpa using hinit

/-- `log` touches the buffers only. -/
theorem Logger.log_frame (l : Logger ε) (e : ε) :
    (l.log e).handler = l.handler ∧ (l.log e).initialized = l.initialized := by
  unfold Logger.log
  split
  · exact ⟨rfl, rfl⟩
  · split
    · exact ⟨rfl, rfl⟩
    · split <;> exact ⟨rfl, rfl⟩

/-- The loggers `ι` of a process, and what is static. -/
structure State (ι ε : Type*) where
  disposition : Signal → Disposition
  /-- `CrashHandler::initialized_`. -/
  installed : Bool
  /-- `flush_callback_`: the logger that it captures. -/
  callback : Option ι
  loggers : ι → Option (Logger ε)
  /-- A joinable `std::thread` was destroyed. -/
  terminated : Bool

/-- Before the first logger. -/
def init (ι ε : Type*) : State ι ε where
  disposition _ := .default
  installed := false
  callback := none
  loggers _ := none
  terminated := false

/-- `CrashHandler()`. -/
def State.construct (os : Os) (s : State ι ε) : Handler × State ι ε :=
  if s.installed then (⟨false⟩, s)
  else (⟨decide (os = .windows)⟩, { s with installed := true, disposition := fun _ => .handler })

/-- `~CrashHandler()`: the flag alone says whether the handlers are reset, whoever has
installed them. -/
def State.destruct (s : State ι ε) (h : Handler) : State ι ε :=
  if s.installed then { s with installed := false, disposition := fun _ => .default }
  else if h.monitor then { s with terminated := true }
  else s

/-- `~CrashHandler()` of the handler that a `unique_ptr` holds. -/
def State.reset (s : State ι ε) : Option Handler → State ι ε
  | none => s
  | some h => s.destruct h

variable [DecidableEq ι]

/-- Logger `i` goes on as `l`. -/
def State.put (s : State ι ε) (i : ι) (l : Logger ε) : State ι ε :=
  { s with loggers := update s.loggers i (some l) }

/-- `initialize`; the new handler is constructed before the old one is destroyed. -/
def State.initializeAs (os : Os) (s : State ι ε) (i : ι) (l : Logger ε) (queueSize : ℕ)
    (fileOpened : Bool) : Bool × Logger ε × State ι ε :=
  if l.initialized then (true, l, s)
  else
    let (h, s) := s.construct os
    -- `unique_ptr` destroys the old handler when it has taken the new one
    let s := s.reset l.handler
    let l : Logger ε := ⟨queueSize, [], [], some h, fileOpened⟩
    (fileOpened, l, if fileOpened then { s with callback := some i } else s)

/-- `create`; a logger that could not be initialized is destroyed again. -/
def State.create (os : Os) (s : State ι ε) (i : ι) (queueSize : ℕ) (fileOpened : Bool) :
    State ι ε :=
  let (ok, l, s) := s.initializeAs os i (.new ε) queueSize fileOpened
  if ok then s.put i l else s.reset l.handler

/-- `~AsyncLogger()`. -/
def State.destroy (s : State ι ε) (i : ι) (l : Logger ε) : State ι ε :=
  { s.reset l.deinit.handler with loggers := update s.loggers i none }

/-- What is done to a logger. -/
inductive Act (ε : Type*)
  | create (queueSize : ℕ) (fileOpened : Bool)
  | destroy
  | deinit
  | initializeAs (queueSize : ℕ) (fileOpened : Bool)
  | log (e : ε)
  /-- By the application or by the writer thread. -/
  | flush

/-- One operation on logger `i`. -/
def next (os : Os) (s : State ι ε) : ι × Act ε → Option (State ι ε)
  | (i, a) =>
    if s.terminated then none
    else
      match s.loggers i, a with
      | none, .create queueSize fileOpened => some (s.create os i queueSize fileOpened)
      | some l, .destroy => some (s.destroy i l)
      | some l, .deinit => some (s.put i l.deinit)
      | some l, .initializeAs queueSize fileOpened =>
        let (_, l, s) := s.initializeAs os i l queueSize fileOpened
        some (s.put i l)
      | some l, .log e => some (s.put i (l.log e))
      | some l, .flush => some (s.put i l.flush)
      | _, _ => none

/-- The operations on logger `i`, one constructor for each kind. -/
inductive Step (os : Os) (s : State ι ε) (i : ι) : Act ε → State ι ε → Prop
  | create {queueSize : ℕ} {fileOpened : Bool} (h : s.loggers i = none) :
      Step os s i (.create queueSize fileOpened) (s.create os i queueSize fileOpened)
  | destroy {l : Logger ε} (h : s.loggers i = some l) : Step os s i .destroy (s.destroy i l)
  | deinit {l : Logger ε} (h : s.loggers i = some l) : Step os s i .deinit (s.put i l.deinit)
  /-- The logger is initialized. -/
  | again {l : Logger ε} {queueSize : ℕ} {fileOpened : Bool} (h : s.loggers i = some l)
      (hinit : l.initialized = true) : Step os s i (.initializeAs queueSize fileOpened) (s.put i l)
  | initializeAs {l : Logger ε} {queueSize : ℕ} {fileOpened : Bool} (h : s.loggers i = some l)
      (hinit : l.initialized = false) :
      Step os s i (.initializeAs queueSize fileOpened)
        ((s.initializeAs os i l queueSize fileOpened).2.2.put i
          (s.initializeAs os i l queueSize fileOpened).2.1)
  | log {l : Logger ε} {e : ε} (h : s.loggers i = some l) :
      Step os s i (.log e) (s.put i (l.log e))
  | flush {l : Logger ε} (h : s.loggers i = some l) : Step os s i .flush (s.put i l.flush)

/-- **Every operation is one of the listed kinds.** -/
theorem step_of_next {os : Os} {s s' : State ι ε} {i : ι} {a : Act ε}
    (hnext : next os s (i, a) = some s') : Step os s i a s' := by
  unfold next at hnext
  dsimp only at hnext
  split at hnext
  · contradiction
  split at hnext
  case h_1 hl => exact Option.some.inj hnext ▸ .create hl
  case h_2 l hl => exact Option.some.inj hnext ▸ .destroy hl
  case h_3 l hl => exact Option.some.inj hnext ▸ .deinit hl
  case h_4 l queueSize fileOpened hl =>
    cases hinit : l.initialized with
    | true =>
      have hagain : s.initializeAs os i l queueSize fileOpened = (true, l, s) := by
        unfold State.initializeAs
        rw [if_pos hinit]
      rw [hagain] at hnext
      exact Option.some.inj hnext ▸ .again hl hinit
    | false => exact Option.some.inj hnext ▸ .initializeAs hl hinit
  case h_5 l e hl => exact Option.some.inj hnext ▸ .log hl
  case h_6 l hl => exact Option.some.inj hnext ▸ .flush hl
  case h_7 => contradiction

/-- The static `emergencyFlush`; `none` when the callback captures a logger that is no
longer there. -/
def State.emergencyFlush (s : State ι ε) : Option (State ι ε) :=
  match s.callback with
  | none => some s
  | some i => (s.loggers i).map fun l => s.put i l.flush

/-! ### The signals are handled while a handler is alive -/

/-- Some `CrashHandler` object is alive. -/
def State.HandlerAlive (s : State ι ε) : Prop := ∃ i l, s.loggers i = some l ∧ l.handler ≠ none

/-- **Crash coverage**: the signals are handled exactly while a handler is alive. -/
structure Covered (s : State ι ε) : Prop where
  handled : s.HandlerAlive → ∀ signal, s.disposition signal = .handler
  restored : ¬ s.HandlerAlive → ∀ signal, s.disposition signal = .default

/-- A logger is destroyed, or fails to be created, only when there is no other, and none
is initialized a second time. -/
def Alone (s : State ι ε) : ι × Act ε → Prop
  | (_, .create _ fileOpened) => fileOpened = true ∨ ∀ j, s.loggers j = none
  | (i, .destroy) => ∀ j, j ≠ i → s.loggers j = none
  | (i, .initializeAs _ _) => ∀ l, s.loggers i = some l → l.initialized = true
  | _ => True

/-- What is static fits the objects. -/
structure Static (s : State ι ε) : Prop where
  flag : s.installed = true ↔ s.HandlerAlive
  disposition : ∀ signal, s.disposition signal = if s.installed then .handler else .default
  owner : ∀ i l, s.loggers i = some l → l.handler ≠ none

variable {os : Os} {s s' : State ι ε} {i : ι} {l l' : Logger ε}

omit [DecidableEq ι] in
theorem static_init : Static (init ι ε) where
  flag := ⟨nofun, fun ⟨_, _, h, _⟩ => nomatch h⟩
  disposition _ := rfl
  owner _ _ h := nomatch h

omit [DecidableEq ι] in
theorem covered_of_static (h : Static s) : Covered s where
  handled halive signal := by rw [h.disposition, if_pos (h.flag.mpr halive)]
  restored hnone signal := by rw [h.disposition, if_neg fun hflag => hnone (h.flag.mp hflag)]

/-- A logger keeps its handler. -/
theorem Static.put (h : Static s) (hl : s.loggers i = some l) (hhandler : l'.handler = l.handler) :
    Static (s.put i l') := by
  have howner : ∀ j k, update s.loggers i (some l') j = some k → k.handler ≠ none := by
    intro j k hk
    rcases of_update_some hk with ⟨-, rfl⟩ | ⟨-, hk⟩
    · rw [hhandler]
      exact h.owner i l hl
    · exact h.owner j k hk
  refine ⟨⟨fun _ => ?_, fun _ => ?_⟩, h.disposition, howner⟩
  · exact ⟨i, l', update_self .., by rw [hhandler]; exact h.owner i l hl⟩
  · exact h.flag.mpr ⟨i, l, hl, h.owner i l hl⟩

omit [DecidableEq ι] in
/-- After a construction the signals are handled. -/
theorem Static.construct (h : Static s) (os : Os) :
    (s.construct os).2 = { s with installed := true, disposition := fun _ => .handler } := by
  unfold State.construct
  split
  · next hflag =>
    have hdisposition : s.disposition = fun _ => .handler := by
      funext signal
      rw [h.disposition, if_pos hflag]
    show s = _
    rw [← hdisposition, ← hflag]
  · rfl

/-- The creation of a logger, which fails only when there is no other. -/
theorem Static.create (h : Static s) {queueSize : ℕ} {fileOpened : Bool}
    (hok : fileOpened = true ∨ ∀ j, s.loggers j = none) :
    Static (s.create os i queueSize fileOpened) := by
  have hconstruct := h.construct os
  rcases hpair : s.construct os with ⟨handler, s₁⟩
  rw [hpair] at hconstruct
  obtain rfl : s₁ = _ := hconstruct
  -- a logger that could not open its file takes its handler, and the coverage, with it
  cases fileOpened with
  | true =>
    have heq : s.create os i queueSize true =
        State.put { s with
          installed := true
          disposition := fun _ => .handler
          callback := some i } i ⟨queueSize, [], [], some handler, true⟩ := by
      simp only [State.create, State.initializeAs, Logger.new, hpair, State.reset,
        Bool.false_eq_true, if_false, if_true]
    rw [heq]
    refine ⟨⟨fun _ => ⟨i, _, update_self .., Option.some_ne_none _⟩, fun _ => rfl⟩,
      fun _ => rfl, fun j k hk => ?_⟩
    rcases of_update_some hk with ⟨-, rfl⟩ | ⟨-, hk⟩
    · exact Option.some_ne_none _
    · exact h.owner j k hk
  | false =>
    have hnone := hok.resolve_left Bool.false_ne_true
    have heq : s.create os i queueSize false =
        { s with installed := false, disposition := fun _ => .default } := by
      simp only [State.create, State.initializeAs, Logger.new, hpair, State.reset, State.destruct,
        Bool.false_eq_true, if_false, if_true]
    rw [heq]
    refine ⟨⟨nofun, ?_⟩, fun _ => rfl, h.owner⟩
    rintro ⟨j, k, hk, -⟩
    have hk : s.loggers j = some k := hk
    rw [hnone j] at hk
    contradiction

/-- The destruction of the only logger. -/
theorem Static.destroy (h : Static s) (hl : s.loggers i = some l)
    (hok : ∀ j, j ≠ i → s.loggers j = none) : Static (s.destroy i l) := by
  obtain ⟨handler, hsome⟩ := Option.ne_none_iff_exists'.mp (h.owner i l hl)
  have hflag : s.installed = true := h.flag.mpr ⟨i, l, hl, h.owner i l hl⟩
  have heq : s.destroy i l =
      { s with
        installed := false
        disposition := fun _ => .default
        loggers := update s.loggers i none } := by
    simp only [State.destroy, l.handler_deinit, hsome, State.reset, State.destruct, hflag, if_true]
  have hnone : ∀ j k, update s.loggers i none j ≠ some k := by
    intro j k hk
    obtain ⟨hji, hk⟩ := of_update_none hk
    rw [hok j hji] at hk
    contradiction
  rw [heq]
  exact ⟨⟨nofun, fun ⟨j, k, hk, _⟩ => absurd hk (hnone j k)⟩, fun _ => rfl,
    fun j k hk => absurd hk (hnone j k)⟩

/-- **Every step keeps the invariant**, where loggers do not overlap. -/
theorem Static.step (h : Static s) {a : Act ε} (hok : Alone s (i, a))
    (hstep : Step os s i a s') : Static s' := by
  cases hstep with
  | create _ => exact h.create hok
  | destroy hl => exact h.destroy hl hok
  | deinit hl => exact h.put hl (Logger.handler_deinit _)
  | again hl _ => exact h.put hl rfl
  | initializeAs hl hinit =>
    rw [hok _ hl] at hinit
    contradiction
  | log hl => exact h.put hl (Logger.log_frame _ _).1
  | flush hl => exact h.put hl rfl

/-- **Crash coverage**, in every run in which no logger goes, or is initialized again,
while another handler is alive. -/
theorem covered (hs : Reachable (next os) Alone (init ι ε) s) : Covered s :=
  covered_of_static (hs.invariant static_init fun _ _ _ _ h hok hnext =>
    h.step hok (step_of_next hnext))

/-! ### An emergency flush reaches the live loggers -/

/-- **Emergency flush**: the callback captures a logger that is alive, and an emergency
flush drains every logger that is alive and initialized. -/
structure ReachesLive (s : State ι ε) : Prop where
  captured : ∀ i, s.callback = some i → s.loggers i ≠ none
  drained : ∃ s', s.emergencyFlush = some s' ∧
    ∀ i l, s'.loggers i = some l → l.initialized = true → l.queue = [] ∧ l.ring = []

/-- A logger is initialized only when no other one is, and the one that the callback
captures is not destroyed. -/
def Only (s : State ι ε) : ι × Act ε → Prop
  | (i, .create _ true) | (i, .initializeAs _ true) =>
    ∀ j l, j ≠ i → s.loggers j = some l → l.initialized = false
  | (i, .destroy) => s.callback ≠ some i
  | _ => True

/-- The callback captures the only logger that is initialized. -/
structure Captured (s : State ι ε) : Prop where
  alive : ∀ i, s.callback = some i → s.loggers i ≠ none
  only : ∀ i l, s.loggers i = some l → l.initialized = true → s.callback = some i

omit [DecidableEq ι] in
theorem captured_init : Captured (init ι ε) := ⟨nofun, nofun⟩

theorem reachesLive_of_captured (h : Captured s) : ReachesLive s := by
  refine ⟨h.alive, ?_⟩
  cases hcallback : s.callback with
  | none =>
    refine ⟨s, by rw [State.emergencyFlush, hcallback], fun i l hl hinit => ?_⟩
    have := h.only i l hl hinit
    rw [hcallback] at this
    contradiction
  | some j =>
    obtain ⟨k, hk⟩ := Option.ne_none_iff_exists'.mp (h.alive j hcallback)
    refine ⟨s.put j k.flush, by rw [State.emergencyFlush, hcallback]; simp only [hk]; rfl, ?_⟩
    intro i l hl hinit
    rcases of_update_some hl with ⟨-, rfl⟩ | ⟨hij, hl⟩
    · exact ⟨rfl, rfl⟩
    · have := (h.only i l hl hinit).symm.trans hcallback
      exact absurd (Option.some.inj this) hij

omit [DecidableEq ι] in
/-- The loggers and the callback are those of before. -/
theorem Captured.of_frame (h : Captured s) (hloggers : s'.loggers = s.loggers)
    (hcallback : s'.callback = s.callback) : Captured s' where
  alive i hi := by
    rw [hloggers]
    exact h.alive i (hcallback ▸ hi)
  only i l hl hinit := by
    rw [hloggers] at hl
    rw [hcallback]
    exact h.only i l hl hinit

/-- A logger that goes on, and is initialized only if it was or if it is captured now. -/
theorem Captured.keep (h : Captured s) (hloggers : s'.loggers = update s.loggers i (some l))
    (hcallback : s'.callback = s.callback)
    (hinit : l.initialized = true → s.callback = some i) : Captured s' where
  alive j hj := by
    rw [hloggers]
    by_cases hji : j = i
    · rw [hji, update_self]
      exact Option.some_ne_none l
    · rw [update_of_ne hji]
      exact h.alive j (hcallback ▸ hj)
  only j k hk hkinit := by
    rw [hloggers] at hk
    rw [hcallback]
    rcases of_update_some hk with ⟨rfl, rfl⟩ | ⟨-, hk⟩
    · exact hinit hkinit
    · exact h.only j k hk hkinit

/-- A logger takes the callback when no other one is initialized. -/
theorem Captured.capture (hloggers : s'.loggers = update s.loggers i (some l))
    (hcallback : s'.callback = some i)
    (hothers : ∀ j k, j ≠ i → s.loggers j = some k → k.initialized = false) : Captured s' where
  alive j hj := by
    rw [hcallback, Option.some.injEq] at hj
    rw [hloggers, ← hj, update_self]
    exact Option.some_ne_none l
  only j k hk hkinit := by
    rw [hloggers] at hk
    rcases of_update_some hk with ⟨rfl, -⟩ | ⟨hji, hk⟩
    · exact hcallback
    · rw [hothers j k hji hk] at hkinit
      contradiction

omit [DecidableEq ι] in
theorem reset_frame (s : State ι ε) (h : Option Handler) :
    (s.reset h).loggers = s.loggers ∧ (s.reset h).callback = s.callback := by
  cases h with
  | none => exact ⟨rfl, rfl⟩
  | some h =>
    show (s.destruct h).loggers = s.loggers ∧ (s.destruct h).callback = s.callback
    unfold State.destruct
    split
    · exact ⟨rfl, rfl⟩
    · split <;> exact ⟨rfl, rfl⟩

omit [DecidableEq ι] in
theorem construct_frame (os : Os) (s : State ι ε) :
    (s.construct os).2.loggers = s.loggers ∧ (s.construct os).2.callback = s.callback := by
  unfold State.construct
  split <;> exact ⟨rfl, rfl⟩

omit [DecidableEq ι] in
/-- What `initialize` does to a logger that is not initialized. -/
theorem initializeAs_frame (os : Os) (s : State ι ε) (i : ι) (hinit : l.initialized = false)
    (queueSize : ℕ) (fileOpened : Bool) :
    ∃ h s₁, s₁.loggers = s.loggers ∧ s₁.callback = s.callback ∧
      s.initializeAs os i l queueSize fileOpened =
        (fileOpened, ⟨queueSize, [], [], some h, fileOpened⟩,
          if fileOpened then { s₁ with callback := some i } else s₁) := by
  obtain ⟨hloggers, hcallback⟩ := construct_frame os s
  rcases hpair : s.construct os with ⟨h, s₁⟩
  rw [hpair] at hloggers hcallback
  refine ⟨h, s₁.reset l.handler, (reset_frame s₁ _).1.trans hloggers,
    (reset_frame s₁ _).2.trans hcallback, ?_⟩
  simp only [State.initializeAs, hinit, hpair, Bool.false_eq_true, if_false]

/-- The creation of a logger; one that could not be initialized leaves nothing behind. -/
theorem Captured.create (h : Captured s) {queueSize : ℕ} {fileOpened : Bool}
    (hok : Only s (i, .create queueSize fileOpened)) :
    Captured (s.create os i queueSize fileOpened) := by
  obtain ⟨handler, s₁, hloggers, hcallback, heq⟩ :=
    initializeAs_frame os s i (l := .new ε) rfl queueSize fileOpened
  unfold State.create
  rw [heq]
  cases fileOpened with
  | true => exact Captured.capture (s := s) (by rw [← hloggers]; rfl) rfl hok
  | false =>
    obtain ⟨hloggers', hcallback'⟩ := reset_frame s₁ (some handler)
    refine h.of_frame ?_ ?_
    · exact hloggers'.trans hloggers
    · exact hcallback'.trans hcallback

/-- The destruction of a logger that is not captured. -/
theorem Captured.destroy (h : Captured s) (hok : s.callback ≠ some i) :
    Captured (s.destroy i l) := by
  obtain ⟨-, hcallback⟩ := reset_frame s l.deinit.handler
  refine ⟨fun j hj => ?_, fun j k hk hkinit => ?_⟩
  · have hbefore : s.callback = some j := hcallback ▸ hj
    have hji : j ≠ i := by
      rintro rfl
      exact hok hbefore
    show update s.loggers i none j ≠ none
    rw [update_of_ne hji]
    exact h.alive j hbefore
  · show (s.reset l.deinit.handler).callback = some j
    rw [hcallback]
    exact h.only j k (of_update_none hk).2 hkinit

/-- **Every step keeps the callback alive**, where no logger is initialized while another
one is, and the captured one stays. -/
theorem Captured.step (h : Captured s) {a : Act ε} (hok : Only s (i, a))
    (hstep : Step os s i a s') : Captured s' := by
  cases hstep with
  | create _ => exact h.create hok
  | destroy _ => exact h.destroy hok
  | @deinit l hl =>
    refine h.keep (i := i) rfl rfl fun hinit => ?_
    rw [l.not_initialized_deinit] at hinit
    contradiction
  | again hl hinit => exact h.keep (i := i) rfl rfl fun _ => h.only i _ hl hinit
  | @initializeAs l queueSize fileOpened hl hinit =>
    obtain ⟨handler, s₁, hloggers, hcallback, heq⟩ :=
      initializeAs_frame os s i hinit queueSize fileOpened
    rw [heq]
    cases fileOpened with
    | true => exact Captured.capture (s := s) (by rw [← hloggers]; rfl) rfl hok
    | false =>
      -- the logger stays uninitialized
      exact h.keep (i := i) (by rw [← hloggers]; rfl) hcallback
        fun hinit => absurd hinit Bool.false_ne_true
  | @log l e hl =>
    refine h.keep (i := i) rfl rfl fun hinit => h.only i l hl ?_
    rwa [(l.log_frame e).2] at hinit
  | @flush l hl => exact h.keep (i := i) rfl rfl (h.only i l hl)

/-- **An emergency flush reaches the live loggers and no other**, in every run in which
loggers are not initialized at the same time and the captured one stays. -/
theorem reachesLive (hs : Reachable (next os) Only (init ι ε) s) : ReachesLive s :=
  reachesLive_of_captured (hs.invariant captured_init fun _ _ _ _ h hok hnext =>
    h.step hok (step_of_next hnext))

/-! ### Two loggers -/

/-- One logger after another, and one that fails while there is none: the coverage is
there while the last one logs. -/
theorem covered_in_turn :
    ∃ s : State (Fin 2) Char, (s.disposition .segv = .handler ∧ s.disposition .abrt = .handler) ∧
      Covered s := by
  obtain ⟨s, hs, hp⟩ := exists_reachable_of_run (next .windows) (init (Fin 2) Char)
    (fun s => decide (s.disposition .segv = .handler ∧ s.disposition .abrt = .handler))
    (fun s a => match a with
      | (_, .create _ fileOpened) => fileOpened || decide (∀ j, s.loggers j = none)
      | (i, .destroy) => decide (∀ j, j ≠ i → s.loggers j = none)
      | (_, .initializeAs _ _) => false
      | _ => true)
    [(0, .create 4 true), (0, .deinit), (0, .destroy), (1, .create 4 false),
      (1, .create 4 true), (1, .log 'a')] (by decide +kernel)
  have hrun : Reachable (next .windows) Alone (init (Fin 2) Char) s := by
    refine hs.mono fun s a ha => ?_
    match a with
    | (_, .create _ fileOpened) =>
      rcases (Bool.or_eq_true _ _).mp ha with ha | ha
      · exact Or.inl ha
      · exact Or.inr (of_decide_eq_true ha)
    | (_, .destroy) => exact of_decide_eq_true (p := ∀ j, _ → _) ha
    | (_, .deinit) | (_, .log _) | (_, .flush) => trivial
  exact ⟨s, of_decide_eq_true hp, covered hrun⟩

/-- **Coverage is lost**: the second logger has installed nothing, and takes the handlers
of the first with it. -/
theorem not_covered_overlap :
    ∃ s : State (Fin 2) Char, Reachable (next .windows) Always (init (Fin 2) Char) s ∧
      s.terminated = false ∧ ¬ Covered s := by
  obtain ⟨s, hs, hrunning, hdefault, halive⟩ := exists_reachable_of_decide (next .windows)
    (init (Fin 2) Char)
    (fun s => s.terminated = false ∧ s.disposition .segv = .default ∧
      (s.loggers 0).any (fun l => l.handler.isSome) = true)
    Always [(0, .create 4 true), (1, .create 4 true), (1, .destroy)] (by decide +kernel)
  refine ⟨s, hs, hrunning, fun h => ?_⟩
  obtain ⟨l, hl, hsome⟩ := (Option.any_eq_true _ _).mp halive
  have := h.handled ⟨0, l, hl, by rintro heq; rw [heq] at hsome; contradiction⟩ .segv
  rw [hdefault] at this
  contradiction

/-- The first logger is drained by an emergency flush; a second one could not be created. -/
theorem reachesLive_one_logger :
    ∃ s : State (Fin 2) Char, (s.loggers 0).map Logger.queue = some ['a'] ∧ ReachesLive s := by
  obtain ⟨s, hs, hp⟩ := exists_reachable_of_run (next .windows) (init (Fin 2) Char)
    (fun s => decide ((s.loggers 0).map Logger.queue = some ['a']))
    (fun s a => match a with
      | (i, .create _ true) => decide (∀ j, j ≠ i → s.loggers j = none)
      | (_, .initializeAs _ _) => false
      | (i, .destroy) => decide (s.callback ≠ some i)
      | _ => true)
    [(0, .create 4 true), (1, .create 4 false), (0, .log 'a')] (by decide +kernel)
  have hrun : Reachable (next .windows) Only (init (Fin 2) Char) s := by
    refine hs.mono fun s a ha => ?_
    match a with
    | (i, .create _ true) =>
      intro j l hji hl
      have hnone : ∀ j, j ≠ i → s.loggers j = none := of_decide_eq_true ha
      rw [hnone j hji] at hl
      contradiction
    | (_, .create _ false) => trivial
    | (i, .destroy) => exact of_decide_eq_true (p := s.callback ≠ some i) ha
    | (_, .deinit) | (_, .log _) | (_, .flush) => trivial
  exact ⟨s, of_decide_eq_true hp, reachesLive hrun⟩

/-- **The callback misses loggers, and outlives them**: with two loggers the entry of the
first stays in its queue, and with none the callback captures the last one still. -/
theorem not_reachesLive_overlap :
    (∃ s : State (Fin 2) Char, Reachable (next .windows) Always (init (Fin 2) Char) s ∧
      s.terminated = false ∧ ¬ ReachesLive s) ∧
    ∃ s : State (Fin 2) Char, Reachable (next .windows) Always (init (Fin 2) Char) s ∧
      s.terminated = false ∧ (∀ i, s.loggers i = none) ∧ ¬ ReachesLive s := by
  constructor
  · obtain ⟨s, hs, hrunning, hcallback, hfirst⟩ := exists_reachable_of_decide (next .windows)
      (init (Fin 2) Char)
      (fun s => s.terminated = false ∧ s.callback = some 1 ∧
        s.loggers 0 = some ⟨4, ['a'], [], some ⟨true⟩, true⟩)
      Always [(0, .create 4 true), (0, .log 'a'), (1, .create 4 true)] (by decide +kernel)
    refine ⟨s, hs, hrunning, fun h => ?_⟩
    obtain ⟨s', hflush, hdrained⟩ := h.drained
    rw [State.emergencyFlush, hcallback] at hflush
    obtain ⟨l, -, rfl⟩ := Option.map_eq_some_iff.mp hflush
    have hne : (0 : Fin 2) ≠ 1 := by decide
    have hkept : (s.put 1 l.flush).loggers 0 = s.loggers 0 :=
      update_of_ne hne (some l.flush) s.loggers
    have := (hdrained 0 _ (hkept.trans hfirst) rfl).1
    contradiction
  · obtain ⟨s, hs, hrunning, hnone, hcallback⟩ := exists_reachable_of_decide (next .windows)
      (init (Fin 2) Char)
      (fun s => s.terminated = false ∧ (∀ i, s.loggers i = none) ∧ s.callback = some 0)
      Always [(0, .create 4 true), (0, .destroy)] (by decide +kernel)
    exact ⟨s, hs, hrunning, hnone, fun h => h.captured 0 hcallback (hnone 0)⟩

end Lifetimes
end SpeckitLog
