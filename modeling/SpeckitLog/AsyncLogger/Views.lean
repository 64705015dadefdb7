import SpeckitLog.AsyncLogger.Atomic
import SpeckitLog.LogEntry

/-!
# Entries that view strings of the caller

The tag and the message of an entry are views, and `formatLogEntry` reads them
only when the entry is written.  Here the strings of the application are part of
the state: a thread outside the logger may assign new contents to any of them,
and each write formats its entry from the contents of that moment.

## Main definitions

* `Views.State`, `Views.next` — the logger, the strings, and what
  `FileManager::Write` received.
* `Views.Undisturbed` — no assignment changes the text of an unwritten entry.

## Main results

* `Views.textKept` — then every record has the text of its `log` call.
* `Views.not_textKept_reuse` — a string reused before the flush.
-/

namespace SpeckitLog
namespace AsyncLogger

open Function Transition

/-! ### Entries on their way -/

section InFlight

variable {ι ε : Type*}

/-- The entries a thread has at a program point. -/
def Pc.carried (p : Pc ι ε) : List (LogCall ι ε) := p.checking.toList ++ p.hand ++ p.vectors

/-- The entry is in a `log` call, a buffer or the vectors of a flush. -/
def Atomic.State.InFlight (s : Atomic.State ι ε) (x : LogCall ι ε) : Prop :=
  (∃ i, x ∈ (s.control.pc i).carried) ∨ x ∈ s.queue ∨ x ∈ s.ring

theorem Pc.mem_carried_of_vectors {p : Pc ι ε} {x : LogCall ι ε} (h : x ∈ p.vectors) :
    x ∈ p.carried := List.mem_append_right _ h

variable [DecidableEq ι]

/-- The program points behind a step carry what was carried before, or the entry
of the call that starts. -/
theorem Control.Step.carried {c c' : Control ι ε} {i : Thread ι} {a : Act ε}
    (h : Control.Step c i a c') {x : LogCall ι ε} (hx : x ∈ (c'.pc i).carried) :
    x ∈ (c.pc i).carried ∨ ∃ level e, a = .log level e ∧ x = ⟨i, c.calls i, e⟩ := by
  have hself : ∀ {p q : Pc ι ε}, c.pc i = p → q.carried ⊆ p.carried →
      x ∈ (update c.pc i q i).carried → x ∈ (c.pc i).carried := by
    intro p q hpc hsub hx
    rw [update_self] at hx
    rw [hpc]
    exact hsub hx
  cases h with
  | setLogLevel => exact Or.inl hx
  | @callLog n level e hpc hi =>
    have hx : x ∈ (update c.pc i (.checkLevel level ⟨i, c.calls i, e⟩) i).carried := hx
    rw [update_self] at hx
    exact Or.inr ⟨level, e, rfl, by simpa [Pc.carried, Pc.checking, Pc.hand, Pc.vectors] using hx⟩
  | @written k hpc =>
    refine Or.inl (hself hpc ?_ hx)
    cases k <;> exact List.nil_subset _
  | callFlush hpc _ | callDeinit hpc _ | emergency hpc _ | filtered hpc _
  | reaches hpc _ | uninitialized hpc _ | pass hpc _ | release hpc _ | writeQueue hpc
  | writeRing hpc | stopped hpc _ | running hpc _ | acquire hpc _ | lastFlush hpc _
  | nextFlush hpc _ | deinitAgain hpc _ | deinitStart hpc _ | requestStop hpc | releaseStop hpc _
  | join hpc _ | clearInitialized hpc =>
    refine Or.inl (hself hpc ?_ hx)
    simp [Pc.carried, Pc.checking, Pc.hand, Pc.vectors]

/-- **No entry comes from nowhere**: what is on its way after a step was so
before, or its `log` call has just started. -/
theorem Atomic.Step.inFlight {cap : ℕ} {s s' : Atomic.State ι ε} {i : Thread ι} {a : Act ε}
    (h : Atomic.Step cap s i a s') {x : LogCall ι ε} (hx : s'.InFlight x) :
    s.InFlight x ∨ ∃ level e, a = .log level e ∧ x = ⟨i, s.control.calls i, e⟩ := by
  have hself : ∀ {p q : Pc ι ε}, s.control.pc i = p → s'.control.pc i = q →
      (x ∈ q.carried → x ∈ p.carried ∨ x ∈ s.queue ∨ x ∈ s.ring) →
      x ∈ (s'.control.pc i).carried → s.InFlight x := by
    intro p q hp hq hsub hx
    rw [hq] at hx
    rcases hsub hx with hx | hx
    · exact Or.inl ⟨i, by rwa [hp]⟩
    · exact Or.inr hx
  have hhand : ∀ {p : Pc ι ε} {y : LogCall ι ε}, s.control.pc i = p → p.hand = [y] →
      x ∈ s.queue ++ [y] ∨ x ∈ s.ring ++ [y] → s.InFlight x := by
    intro p y hp hy hx
    simp only [List.mem_append, List.mem_singleton] at hx
    rcases hx with (hx | rfl) | (hx | rfl)
    · exact Or.inr (Or.inl hx)
    · exact Or.inl ⟨i, by rw [hp]; simp [Pc.carried, hy]⟩
    · exact Or.inr (Or.inr hx)
    · exact Or.inl ⟨i, by rw [hp]; simp [Pc.carried, hy]⟩
  -- a thread carries the entry, or it waits in a buffer
  rcases hx with ⟨j, hj⟩ | hx
  · by_cases hji : j = i
    swap
    · rw [h.pc_of_ne hji] at hj
      exact Or.inl (Or.inl ⟨j, hj⟩)
    rw [hji] at hj
    cases h with
    | control hc => exact (hc.carried hj).imp_left fun hold => Or.inl ⟨i, hold⟩
    | queueTakes hpc _ | ringTakes hpc _ | ringFull hpc _ =>
      refine Or.inl (hself hpc (update_self ..) (fun hx => ?_) hj)
      exact absurd hx (by simp [Pc.carried, Pc.checking, Pc.hand, Pc.vectors])
    | queueFull hpc _ => exact Or.inl (hself hpc (update_self ..) (fun hx => Or.inl hx) hj)
    | @queuePop k hpc =>
      refine Or.inl (hself hpc (update_self ..) (fun hx => Or.inr (Or.inl ?_)) hj)
      cases k <;> simpa [Pc.carried, Pc.checking, Pc.hand, Pc.vectors] using hx
    | @ringPop k qs hpc =>
      refine Or.inl (hself hpc (update_self ..) (fun hx => ?_) hj)
      have hx : x ∈ qs ∨ x ∈ s.ring := by
        simpa [Pc.carried, Pc.checking, Pc.hand, Pc.vectors] using hx
      exact hx.imp Pc.mem_carried_of_vectors Or.inr
  · cases h with
    | control hc => exact Or.inl (Or.inr hx)
    | queueTakes hpc _ =>
      rcases hx with hx | hx
      · exact Or.inl (hhand hpc rfl (Or.inl hx))
      · exact Or.inl (Or.inr (Or.inr hx))
    | ringTakes hpc _ =>
      rcases hx with hx | hx
      · exact Or.inl (Or.inr (Or.inl hx))
      · exact Or.inl (hhand hpc rfl (Or.inr hx))
    | queueFull hpc _ | ringFull hpc _ => exact Or.inl (Or.inr hx)
    | queuePop hpc => exact Or.inl (Or.inr (hx.imp_left fun hx => absurd hx List.not_mem_nil))
    | ringPop hpc => exact Or.inl (Or.inr (hx.imp_right fun hx => absurd hx List.not_mem_nil))

/-- What a step writes was on its way. -/
theorem Atomic.Step.writes {cap : ℕ} {s s' : Atomic.State ι ε} {i : Thread ι} {a : Act ε}
    (h : Atomic.Step cap s i a s') :
    ∃ w, s'.control.file = s.control.file ++ w ∧ ∀ x ∈ w, s.InFlight x := by
  cases h with
  | control hc =>
    obtain ⟨w, hfile, hvec⟩ := hc.writes
    refine ⟨w, hfile, fun x hx => Or.inl ⟨i, Pc.mem_carried_of_vectors ?_⟩⟩
    rw [hvec]
    exact List.mem_append_left _ hx
  | _ => exact ⟨[], (List.append_nil _).symm, fun x hx => absurd hx List.not_mem_nil⟩

end InFlight

/-! ### The strings of the application -/

/-- The same action with another argument for `log`. -/
def Act.map {ε ε' : Type*} (f : LogLevel → ε → ε') : Act ε → Act ε'
  | .log level e => .log level (f level e)
  | .flush => .flush
  | .setLogLevel level => .setLogLevel level
  | .deinit => .deinit
  | .emergency => .emergency
  | .step => .step
  | .spurious => .spurious
  | .saturate => .saturate

namespace Views

/-- What does not change while the logger runs. -/
structure Env (ι τ : Type*) where
  platform : Platform τ
  /-- The cached `process_id_`. -/
  processId : ℤ
  /-- `getThreadId()`. -/
  threadId : Thread ι → τ

/-- What `log` is given besides the level, and what `getTimestamp()` returns. -/
structure LogArgs (β : Type*) where
  timestampMs : ℤ
  tag : β
  message : β
  deriving DecidableEq

/-- The entry of a `log` call; history: the contents of its two strings at the call. -/
structure Logged (τ β : Type*) where
  entry : LogEntry τ β
  tagText : Text
  messageText : Text
  deriving DecidableEq

/-- An application may assign new contents to one of its strings. -/
inductive Act (β : Type*)
  | assign (b : β) (text : Text)
  | logger (a : AsyncLogger.Act (LogArgs β))

variable {ι τ β : Type*}

/-- The logger among the strings of its callers. -/
structure State (ι τ β : Type*) where
  logger : Atomic.State ι (Logged τ β)
  strings : β → Text
  /-- What `FileManager::Write` received. -/
  records : List (Option Text)

/-- A string object keeps a NUL behind its contents. -/
def State.memory (s : State ι τ β) (b : β) : Text := s.strings b ++ [Text.nul]

/-- `LogEntry entry(level, getTimestamp(), process_id_, getThreadId(), tag, message)`. -/
def Env.logged (env : Env ι τ) (i : Thread ι) (strings : β → Text) (level : LogLevel)
    (args : LogArgs β) : Logged τ β where
  entry :=
    { level := level
      timestampMs := args.timestampMs
      processId := env.processId
      threadId := env.threadId i
      tag := .ofString args.tag (strings args.tag)
      message := .ofString args.message (strings args.message) }
  tagText := strings args.tag
  messageText := strings args.message

/-- The record that the entry of a `log` call should give. -/
def Env.recordAtCall (env : Env ι τ) (x : LogCall ι (Logged τ β)) : Text :=
  recordOf env.platform x.entry.entry x.entry.tagText x.entry.messageText

/-- `writeEntries` formats an entry in the step that writes it. -/
def State.written (env : Env ι τ) (s : State ι τ β) (l : Atomic.State ι (Logged τ β)) :
    List (Option Text) :=
  (l.control.file.drop s.logger.control.file.length).map fun x =>
    formatLogEntry env.platform s.memory x.entry.entry

/-- Before any call. -/
def init (ι τ : Type*) (strings : β → Text) : State ι τ β where
  logger := Atomic.init ι (Logged τ β)
  strings := strings
  records := []

/-- Every record has the texts that the strings had at the `log` call. -/
def TextKept (env : Env ι τ) (s : State ι τ β) : Prop :=
  s.records = s.logger.control.file.map fun x => some (env.recordAtCall x)

/-- The view of an entry shows the text the string had at the call. -/
def Shows (strings : β → Text) (v : StringView β) (text : Text) : Prop :=
  v.offset = 0 ∧ Text.untilNul (strings v.buffer) = text

/-- Both views of the entry do. -/
def Current (strings : β → Text) (x : LogCall ι (Logged τ β)) : Prop :=
  Shows strings x.entry.entry.tag x.entry.tagText ∧
    Shows strings x.entry.entry.message x.entry.messageText

theorem data_of_shows {s : State ι τ β} {v : StringView β} {text : Text}
    (h : Shows s.strings v text) : v.data s.memory = some text := by
  rw [StringView.data, h.1, List.drop_zero, State.memory, Text.cString_terminated, h.2]

theorem formatLogEntry_of_current {env : Env ι τ} {s : State ι τ β}
    {x : LogCall ι (Logged τ β)} (h : Current s.strings x) :
    formatLogEntry env.platform s.memory x.entry.entry = some (env.recordAtCall x) := by
  rw [formatLogEntry, data_of_shows h.1, data_of_shows h.2]
  rfl

variable [DecidableEq ι] [DecidableEq β]

/-- One step of one thread. -/
def next (env : Env ι τ) (cap : ℕ) (s : State ι τ β) : Thread ι × Act β → Option (State ι τ β)
  | (i, .assign b text) =>
    if (s.logger.control.pc i).isIdle then some { s with strings := update s.strings b text }
    else none
  | (i, .logger a) =>
    (Atomic.threadNext cap s.logger i (a.map (env.logged i s.strings))).map fun l =>
      { s with logger := l, records := s.records ++ s.written env l }

/-- The entry reads its texts from string `b`. -/
def Reads (x : LogCall ι (Logged τ β)) (b : β) : Prop :=
  x.entry.entry.tag.buffer = b ∨ x.entry.entry.message.buffer = b

/-- **The strings are left alone**: an assignment keeps the text, up to its first
NUL, of a string that an unwritten entry reads, and what is logged has no NUL. -/
structure Undisturbed (s : State ι τ β) (a : Thread ι × Act β) : Prop where
  assigned : ∀ b text, a.2 = .assign b text → ∀ x, s.logger.InFlight x → Reads x b →
    Text.untilNul text = Text.untilNul (s.strings b)
  logged : ∀ level args, a.2 = .logger (.log level args) →
    Text.nul ∉ s.strings args.tag ∧ Text.nul ∉ s.strings args.message

variable {env : Env ι τ} {cap : ℕ} {s s' : State ι τ β} {i : Thread ι}

omit [DecidableEq ι] in
/-- An assignment that keeps the texts of the entries on their way keeps them current. -/
theorem current_assign {b : β} {text : Text} {x : LogCall ι (Logged τ β)}
    (h : Current s.strings x)
    (hkeep : Reads x b → Text.untilNul text = Text.untilNul (s.strings b)) :
    Current (update s.strings b text) x := by
  have hshows : ∀ {v : StringView β} {t : Text}, Shows s.strings v t →
      (v.buffer = b → Text.untilNul text = Text.untilNul (s.strings b)) →
      Shows (update s.strings b text) v t := by
    intro v t hv hb
    refine ⟨hv.1, ?_⟩
    by_cases hvb : v.buffer = b
    · rw [hvb, update_self, hb hvb, ← hvb, hv.2]
    · rw [update_of_ne hvb, hv.2]
  exact ⟨hshows h.1 fun hb => hkeep (Or.inl hb), hshows h.2 fun hb => hkeep (Or.inr hb)⟩

omit [DecidableEq ι] [DecidableEq β] in
/-- A new entry is current when its texts have no NUL. -/
theorem current_logged {strings : β → Text} {level : LogLevel} {args : LogArgs β} {n : ℕ}
    (h : Text.nul ∉ strings args.tag ∧ Text.nul ∉ strings args.message) :
    Current strings (⟨i, n, env.logged i strings level args⟩ : LogCall ι (Logged τ β)) :=
  ⟨⟨rfl, Text.untilNul_of_notMem h.1⟩, ⟨rfl, Text.untilNul_of_notMem h.2⟩⟩

omit [DecidableEq β] in
/-- The logger writes current entries. -/
theorem textKept_logger {l : Atomic.State ι (Logged τ β)} {a : AsyncLogger.Act (Logged τ β)}
    (hstep : Atomic.Step cap s.logger i a l) (h : TextKept env s)
    (hcur : ∀ x, s.logger.InFlight x → Current s.strings x) :
    TextKept env { s with logger := l, records := s.records ++ s.written env l } := by
  obtain ⟨w, hfile, hw⟩ := hstep.writes
  have hwritten : s.written env l = w.map fun x => some (env.recordAtCall x) := by
    rw [State.written, hfile, List.drop_left]
    exact List.map_congr_left fun x hx => formatLogEntry_of_current (hcur x (hw x hx))
  show s.records ++ s.written env l = l.control.file.map _
  rw [hwritten, hfile, List.map_append, h]

/-- **Records carry the texts of their `log` calls** in every run in which the
strings of unwritten entries are left alone. -/
theorem textKept {strings : β → Text}
    (hs : Reachable (next env cap) Undisturbed (init ι τ strings) s) : TextKept env s := by
  have hboth : TextKept env s ∧ ∀ x, s.logger.InFlight x → Current s.strings x := by
    refine hs.invariant
      (I := fun s => TextKept env s ∧ ∀ x, s.logger.InFlight x → Current s.strings x)
      ⟨rfl, fun x hx => ?_⟩ ?_
    · rcases hx with ⟨i, hi⟩ | hx | hx
      · cases i <;> exact absurd hi List.not_mem_nil
      · exact absurd hx List.not_mem_nil
      · exact absurd hx List.not_mem_nil
    rintro s ⟨i, a⟩ s' - ⟨h, hcur⟩ hok hnext
    cases a with
    | assign b text =>
      simp only [next] at hnext
      split at hnext
      · obtain rfl := Option.some.inj hnext
        exact ⟨h, fun x hx => current_assign (hcur x hx) (hok.assigned b text rfl x hx)⟩
      · contradiction
    | logger a =>
      obtain ⟨l, hl, rfl⟩ := Option.map_eq_some_iff.mp hnext
      have hstep := Atomic.step_of_next hl
      refine ⟨textKept_logger hstep h hcur, fun x hx => ?_⟩
      rcases hstep.inFlight hx with hold | ⟨level, e, ha, rfl⟩
      · exact hcur x hold
      · cases a with
        | log level' args =>
          obtain ⟨rfl, rfl⟩ : level' = level ∧ env.logged i s.strings level' args = e := by
            simpa [Act.map] using ha
          exact current_logged (hok.logged level' args rfl)
        | _ => exact absurd ha (by simp [Act.map])
  exact hboth.1

/-! ### One thread with three strings -/

instance (x : LogCall ι (Logged τ β)) (b : β) : Decidable (Reads x b) :=
  inferInstanceAs (Decidable (_ ∨ _))

/-- A process in a zone where the epoch is midnight. -/
def epoch : Env (Fin 1) ℕ where
  platform :=
    { localtime := fun _ => ⟨70, 0, 1, 0, 0, 0⟩
      threadIdStr := fun t => Text.decimal t }
  processId := 7
  threadId
    | .app _ => 1
    | .writer => 2
    | .monitor => 3

/-- A tag, a message, and a string that is not logged. -/
def threeStrings : Fin 3 → Text
  | 0 => "Net".toList
  | 1 => "up".toList
  | 2 => []

/-- One call of `log`; then string `b` changes, and all is flushed. -/
def logAssignFlush (t : Thread ι) (args : LogArgs β) (b : β) (text : Text) :
    List (Thread ι × Act β) :=
  (doing t (.log .info args) 4).map (Prod.map id Act.logger) ++
    (t, Act.assign b text) :: (doing t .flush 4).map (Prod.map id Act.logger)

/-- The record of that call. -/
def recordUp : Text := "[INFO] 1970-01-01 00:00:00.000 [7, 1] [Net]: up\n".toList

/-- The third string changes between the call and the flush. -/
theorem textKept_other_string :
    ∃ s : State (Fin 1) ℕ (Fin 3), s.records = [some recordUp] ∧ TextKept epoch s := by
  obtain ⟨s, hs, hp⟩ := exists_reachable_of_run (next epoch 2)
    (init (Fin 1) ℕ threeStrings)
    (fun s => decide (s.records = [some recordUp]))
    (fun s a => match a.2 with
      | .assign b _ => decide (∀ i, ∀ x ∈ (s.logger.control.pc i).carried, ¬ Reads x b) &&
          decide (∀ x ∈ s.logger.queue ++ s.logger.ring, ¬ Reads x b)
      | .logger (.log _ args) =>
        decide (Text.nul ∉ s.strings args.tag ∧ Text.nul ∉ s.strings args.message)
      | _ => true)
    (logAssignFlush (.app 0) ⟨0, 0, 1⟩ 2 "down".toList) (by decide +kernel)
  have hrun : Reachable (next epoch 2) Undisturbed (init (Fin 1) ℕ threeStrings) s := by
    refine hs.mono fun s a ha => ⟨?_, ?_⟩
    · intro b text hab x hx hreads
      rw [hab, Bool.and_eq_true] at ha
      rcases hx with ⟨i, hi⟩ | hx | hx
      · exact absurd hreads (of_decide_eq_true ha.1 i x hi)
      · exact absurd hreads (of_decide_eq_true ha.2 x (List.mem_append_left _ hx))
      · exact absurd hreads (of_decide_eq_true ha.2 x (List.mem_append_right _ hx))
    · intro level args hab
      rw [hab] at ha
      exact of_decide_eq_true ha
  exact ⟨s, of_decide_eq_true hp, textKept hrun⟩

/-- **A string reused before the flush.**  The caller assigns the next message to
the string of the last one, and the record carries the new text. -/
theorem not_textKept_reuse :
    ∃ s : State (Fin 1) ℕ (Fin 3),
      Reachable (next epoch 2) Always (init (Fin 1) ℕ threeStrings) s ∧ ¬ TextKept epoch s := by
  obtain ⟨s, hs, hother⟩ := exists_reachable_of_decide (next epoch 2)
    (init (Fin 1) ℕ threeStrings)
    (fun s => s.records ≠ s.logger.control.file.map fun x => some (epoch.recordAtCall x))
    Always
    (logAssignFlush (.app 0) ⟨0, 0, 1⟩ 1 "down".toList) (by decide +kernel)
  exact ⟨s, hs, fun hkept => hother hkept⟩

end Views
end AsyncLogger
end SpeckitLog
