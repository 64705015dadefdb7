import SpeckitLog.AsyncLogger.Wakeup

/-!
# Late entries

`deinitialize` drains the buffers and clears `initialized_` afterwards.  A `log` call
that has read `initialized_` before may push its entry in between, or later still,
and nobody drains the queue again.

## Main definitions

* `Atomic.NothingStranded` — what should hold when all calls have returned.
* `Atomic.NoLatePush` — no call finds room in the queue behind the last drain.

## Main results

* `Atomic.nothingStranded` — without late pushes nothing is stranded.
* `Atomic.not_nothingStranded_overlap` — a `log` call that overlaps `deinitialize`.
-/

namespace SpeckitLog
namespace AsyncLogger

open Function Transition

variable {ι ε : Type*}

/-- `deinitialize` has joined the writer. -/
def Pc.Joined : Pc ι ε → Prop
  | .queuePop .deinit | .ringPop .deinit _ | .write .deinit _ _
  | .clearInitialized => True
  | _ => False

/-- `deinitialize` has drained the queue. -/
def Pc.Drained : Pc ι ε → Prop
  | .ringPop .deinit _ | .write .deinit _ _ | .clearInitialized => True
  | _ => False

theorem Pc.joined_iff {p : Pc ι ε} : p.Joined ↔ p.Drained ∨ p = .queuePop .deinit := by
  cases p with
  | queuePop k | ringPop k _ | write k _ _ => cases k <;> simp [Pc.Joined, Pc.Drained]
  | _ => simp [Pc.Joined, Pc.Drained]

namespace Atomic

/-- **Nothing is stranded**: when `deinitialize` and all other calls have returned,
the buffers are empty, and the entry of every call that passed the checks is written
or was refused by both buffers. -/
def NothingStranded (s : State ι ε) : Prop :=
  s.control.initialized = false → (∀ i, i ≠ .writer → s.control.pc i = .idle) →
    s.queue = [] ∧ s.ring = [] ∧
      ∀ x ∈ s.control.passed, x ∈ s.control.file ∨ x ∈ s.control.dropped

variable [DecidableEq ι] {cap : ℕ} {s s' : State ι ε} {i : Thread ι}

/-- No `log` call finds room in the queue after `deinitialize` has drained it. -/
def NoLatePush (cap : ℕ) (s : Watched ι ε) (a : Thread ι × Act ε) : Prop :=
  s.drained = true → ∀ x, s.logger.control.pc a.1 = .queuePush x → cap ≤ s.logger.queue.length

/-- How far `deinitialize` is, and what it leaves behind. -/
structure Emptied (s : Watched ι ε) : Prop where
  queue : s.drained = true → s.logger.queue = []
  joined : ∀ i, (s.logger.control.pc i).Joined → s.logger.control.pc .writer = .ended
  drained : ∀ i, (s.logger.control.pc i).Drained → s.drained = true
  cleared : s.logger.control.initialized = false →
    s.drained = true ∧ s.logger.control.pc .writer = .ended

omit [DecidableEq ι] in
theorem emptied_init : Emptied (Watched.init ι ε) where
  queue := nofun
  joined i hi := by cases i <;> exact hi.elim
  drained i hi := by cases i <;> exact hi.elim
  cleared := nofun

/-- Behind the drain of the queue. -/
theorem Step.drained {a : Act ε} (hstep : Step cap s i a s') (h : (s'.control.pc i).Drained) :
    (s.control.pc i).Drained ∨ s.control.pc i = .queuePop .deinit := by
  have hself : ∀ {p : Pc ι ε}, (update s.control.pc i p i).Drained → p.Drained := fun hp => by
    rwa [update_self] at hp
  cases hstep with
  | control hc =>
    cases hc with
    | setLogLevel => exact Or.inl h
    | @writeQueue k x qs rs hpc =>
      rw [hpc]
      have h := hself (p := .write k qs rs) h
      cases k <;> first | exact Or.inl trivial | exact h.elim
    | @writeRing k x rs hpc =>
      rw [hpc]
      have h := hself (p := .write k [] rs) h
      cases k <;> first | exact Or.inl trivial | exact h.elim
    | @written k hpc =>
      rw [hpc]
      have h := hself h
      cases k <;> first | exact Or.inl trivial | exact h.elim
    | _ => exact absurd (hself h) not_false
  | @queuePop k hpc =>
    have h := hself h
    cases k <;> first | exact Or.inr hpc | exact h.elim
  | @ringPop k qs hpc =>
    rw [hpc]
    have h := hself (p := .write k qs s.ring) h
    cases k <;> first | exact Or.inl trivial | exact h.elim
  | _ => exact absurd (hself h) not_false

/-- `deinitialize` goes on when the writer has ended. -/
theorem Step.joined {a : Act ε} (hstep : Step cap s i a s') (h : (s'.control.pc i).Joined) :
    (s.control.pc i).Joined ∨ s.control.pc .writer = .ended := by
  rcases Pc.joined_iff.mp h with hdrained | hlast
  · exact Or.inl (Pc.joined_iff.mpr (hstep.drained hdrained))
  -- only the join leads to the last flush
  cases hstep with
  | control hc =>
    cases hc with
    | setLogLevel => exact Or.inl h
    | join _ hended => exact Or.inr hended
    | @written k _ => cases k <;> exact absurd (eq_of_update_self hlast) nofun
    | _ => exact absurd (eq_of_update_self hlast) nofun
  | @queuePop k _ => cases k <;> exact absurd (eq_of_update_self hlast) nofun
  | _ => exact absurd (eq_of_update_self hlast) nofun

/-- `initialized_` is cleared at the end of `deinitialize`. -/
theorem Step.initialized {a : Act ε} (hstep : Step cap s i a s')
    (h : s'.control.initialized = false) :
    s.control.initialized = false ∨ s.control.pc i = .clearInitialized := by
  cases hstep with
  | control hc =>
    cases hc with
    | clearInitialized hpc => exact Or.inr hpc
    | _ => exact Or.inl h
  | _ => exact Or.inl h

/-- The queue grows only by a push that finds room. -/
theorem Step.queue_eq_nil {a : Act ε} (hstep : Step cap s i a s') (h : s.queue = [])
    (hfull : ∀ x, s.control.pc i = .queuePush x → cap ≤ s.queue.length) : s'.queue = [] := by
  cases hstep with
  | control _ => exact h
  | @queueTakes x hpc hroom => exact absurd (hfull x hpc) (by omega)
  | queueFull _ _ | ringTakes _ _ | ringFull _ _ => exact h
  | queuePop _ => rfl
  | ringPop _ => exact h

/-- `popAll` leaves the queue empty. -/
theorem Step.queue_of_queuePop {a : Act ε} {k : After} (hstep : Step cap s i a s')
    (hpc : s.control.pc i = .queuePop k) : s'.queue = [] := by
  cases hstep with
  | queuePop _ => rfl
  | control hc =>
    refine absurd ?_ hc.not_onBuffer
    rw [hpc]
    trivial
  | queueTakes hpc' _ | queueFull hpc' _ | ringTakes hpc' _ | ringFull hpc' _ =>
    rw [hpc] at hpc'
    cases hpc'
  | ringPop hpc' =>
    rw [hpc] at hpc'
    cases hpc'

/-- **Every step keeps the invariant**, unless a push comes late. -/
theorem Emptied.step {t t' : Watched ι ε} {a : Thread ι × Act ε} (h : Emptied t)
    (hok : NoLatePush cap t a) (hnext : Watched.next cap t a = some t') : Emptied t' := by
  obtain ⟨i, a⟩ := a
  obtain ⟨l, hl, rfl⟩ := Option.map_eq_some_iff.mp hnext
  have hstep := step_of_next hl
  have hended : t.logger.control.pc .writer = .ended → l.control.pc .writer = .ended := by
    intro hend
    by_cases ha : i = .writer
    · rw [← ha] at hend
      exact absurd hend hstep.not_ended
    · rw [hstep.pc_of_ne (Ne.symm ha), hend]
  have hkeep : t.drained = true →
      (t.drained || (t.logger.control.pc i).drainsLast) = true := fun hd => by
    rw [hd, Bool.true_or]
  refine ⟨fun hd => ?_, fun j hj => ?_, fun j hj => ?_, fun hinit => ?_⟩
  · rcases (Bool.or_eq_true _ _).mp hd with hd | hd
    -- the only step that could fill the queue again is a late push
    · exact hstep.queue_eq_nil (h.queue hd) (hok hd)
    · exact hstep.queue_of_queuePop (Pc.eq_queuePop hd)
  · by_cases hji : j = i
    · subst hji
      exact hended ((hstep.joined hj).elim (h.joined j) id)
    · rw [hstep.pc_of_ne hji] at hj
      exact hended (h.joined j hj)
  · by_cases hji : j = i
    · subst hji
      rcases hstep.drained hj with hbefore | hpc
      · exact hkeep (h.drained j hbefore)
      · show (t.drained || (t.logger.control.pc j).drainsLast) = true
        rw [hpc]
        exact Bool.or_true _
    · rw [hstep.pc_of_ne hji] at hj
      exact hkeep (h.drained j hj)
  · rcases hstep.initialized hinit with hinit | hpc
    · exact ⟨hkeep (h.cleared hinit).1, hended (h.cleared hinit).2⟩
    · have hdrained : (t.logger.control.pc i).Drained := by
        rw [hpc]
        trivial
      have hjoined : (t.logger.control.pc i).Joined := by
        rw [hpc]
        trivial
      exact ⟨hkeep (h.drained i hdrained), hended (h.joined i hjoined)⟩

/-- The runs of the watched logger are runs of the logger. -/
theorem reachable_logger {ok : Watched ι ε → Thread ι × Act ε → Prop} {t : Watched ι ε}
    (hs : Reachable (Watched.next cap) ok (Watched.init ι ε) t) :
    Reachable (next cap) Always (init ι ε) t.logger := by
  refine hs.project Watched.logger fun t a t' _ _ hnext => Or.inr ⟨a, trivial, ?_⟩
  obtain ⟨l, hl, rfl⟩ := Option.map_eq_some_iff.mp hnext
  exact hl

/-- What is in the ring is drained by the call that put it there. -/
theorem ring_eq_nil {ok : State ι ε → Thread ι × Act ε → Prop}
    (hs : Reachable (next cap) ok (init ι ε) s)
    (hidle : ∀ i, i ≠ .writer → s.control.pc i = .idle) : s.ring = [] := by
  have hspill : Spill s := by
    refine hs.invariant spill_init ?_
    rintro s ⟨i, a⟩ s' - h - hnext
    exact (step_of_next hnext).spill h
  refine List.eq_nil_iff_forall_not_mem.mpr fun x hx => ?_
  obtain ⟨n, hn⟩ := hspill.app x hx
  have hspilled := hspill.spilled x hx
  rw [hidle x.thread (by rw [hn]; nofun)] at hspilled
  exact hspilled

/-- **Nothing is stranded**, in every run in which no `log` call finds room in the
queue behind the last drain of `deinitialize`. -/
theorem nothingStranded [Fintype ι] {t : Watched ι ε}
    (hs : Reachable (Watched.next cap) (NoLatePush cap) (Watched.init ι ε) t) :
    NothingStranded t.logger := by
  intro hinit hidle
  have hemptied : Emptied t :=
    hs.invariant emptied_init fun _ _ _ _ h hok hnext => h.step hok hnext
  obtain ⟨hdrained, hended⟩ := hemptied.cleared hinit
  have hrun := reachable_logger hs
  have hqueue := hemptied.queue hdrained
  have hring := ring_eq_nil hrun hidle
  refine ⟨hqueue, hring, fun x hx => ?_⟩
  -- no thread holds an entry: the writer has ended, and the others are idle
  have hnone : ∀ i, (t.logger.control.pc i).hand = [] ∧ (t.logger.control.pc i).vectors = [] := by
    intro i
    by_cases hi : i = .writer
    · rw [hi, hended]
      exact ⟨rfl, rfl⟩
    · rw [hidle i hi]
      exact ⟨rfl, rfl⟩
  exact (exactlyOnce_of_reachable hrun).settled hnone hqueue hring hx

/-! ### Two overlaps -/

/-- One thread logs while another shuts the logger down, and its entry comes in time. -/
theorem nothingStranded_in_time :
    ∃ t : Watched (Fin 2) Char, t.logger.control.initialized = false ∧
      t.logger.control.file = [⟨.app 0, 0, 'a'⟩] ∧ NothingStranded t.logger := by
  obtain ⟨t, hs, hp⟩ := exists_reachable_of_run (Watched.next 2)
    (Watched.init (Fin 2) Char)
    (fun t => decide (t.logger.control.initialized = false ∧
      t.logger.control.file = [⟨.app 0, 0, 'a'⟩]))
    (fun t _ => !t.drained || decide (∀ i, (t.logger.control.pc i).hand = []))
    (doing (.app 1) .deinit 0 ++ doing (.app 0) (.log .info 'a') 2
      ++ steps (.app 1) 3 ++ steps .writer 1
      ++ steps (.app 0) 2 ++ steps (.app 1) 6) (by decide +kernel)
  obtain ⟨hinit, hfile⟩ := of_decide_eq_true hp
  have hrun : Reachable (Watched.next 2) (NoLatePush 2) (Watched.init (Fin 2) Char) t := by
    refine hs.mono fun t a ha hdrained x hpc => ?_
    rw [hdrained] at ha
    have := of_decide_eq_true ha a.1
    rw [hpc] at this
    contradiction
  exact ⟨t, hinit, hfile, nothingStranded hrun⟩

/-- **An entry is stranded.**  The thread has read `initialized_` when `deinitialize`
starts, and pushes its entry when it has returned. -/
theorem not_nothingStranded_overlap :
    ∃ t : Watched (Fin 2) Char,
      Reachable (Watched.next 2) Always (Watched.init (Fin 2) Char) t ∧
        ¬ NothingStranded t.logger := by
  obtain ⟨t, hs, hinit, hidle, hqueue⟩ := exists_reachable_of_decide (Watched.next 2)
    (Watched.init (Fin 2) Char)
    (fun t => t.logger.control.initialized = false ∧
      (∀ i, i ≠ .writer → (t.logger.control.pc i).isIdle = true) ∧
      t.logger.queue = [⟨.app 0, 0, 'a'⟩])
    Always
    (doing (.app 0) (.log .info 'a') 2
      ++ doing (.app 1) .deinit 3 ++ steps .writer 1
      ++ steps (.app 1) 5 ++ steps (.app 0) 2) (by decide +kernel)
  refine ⟨t, hs, fun h => ?_⟩
  have hempty := (h hinit fun i hi => Pc.eq_idle (hidle i hi)).1
  rw [hqueue] at hempty
  contradiction

end Atomic
end AsyncLogger
end SpeckitLog
