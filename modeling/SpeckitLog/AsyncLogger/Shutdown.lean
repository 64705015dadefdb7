import SpeckitLog.AsyncLogger.Atomic
import Mathlib.Data.Fintype.Card

/-!
# Drops and shutdown

A `log` call that puts its entry into the ring drains the ring before it returns,
so the ring never holds two entries of one thread; with no more logging threads
than slots, nothing is dropped.  And when `deinitialize` is called with no other
call in progress, it leaves both buffers empty, the writer ended, and everything
written.

## Main results

* `Atomic.conservation` — conservation, no drops, and complete shutdown.
-/

namespace SpeckitLog
namespace AsyncLogger
namespace Atomic

open Function Transition

variable {ι ε : Type*}

/-! ### The entries in the ring -/

/-- The ring holds at most one entry of each thread, which is still in its `log`
call. -/
structure Spill (s : State ι ε) : Prop where
  nodup : (s.ring.map Call.thread).Nodup
  app : ∀ x ∈ s.ring, ∃ n, x.thread = .app n
  spilled : ∀ x ∈ s.ring, (s.control.pc x.thread).Spilled
  owner : ∀ i x, (s.control.pc i).Owns x → x.thread = i ∧ ∃ n, i = .app n

theorem spill_init : Spill (init ι ε) where
  nodup := List.nodup_nil
  app x hx := by simp [init] at hx
  spilled x hx := by simp [init] at hx
  owner i x hx := by cases i <;> simp [init, Control.init, Pc.Owns, Pc.checking, Pc.hand] at hx

variable [DecidableEq ι] {cap : ℕ} {s s' : State ι ε} {i : Thread ι}

theorem owns_update {pc : Thread ι → Pc ι ε} {p : Pc ι ε} {x : LogCall ι ε}
    (h : (update pc i p i).Owns x) : p.Owns x := by rwa [update_self] at h

/-- The entries a thread is checking or holds are its own, in a `log` call. -/
theorem Spill.own (h : Spill s) {a : Act ε} {c : Control ι ε}
    (hstep : Control.Step s.control i a c) :
    ∀ x, (c.pc i).Owns x → x.thread = i ∧ ∃ n, i = .app n := by
  intro x hx
  cases hstep with
  | setLogLevel => exact h.owner i x hx
  | @callLog n level e hpc hi =>
    obtain rfl : (⟨i, s.control.calls i, e⟩ : LogCall ι ε) = x := by
      simpa [Pc.Owns, Pc.checking, Pc.hand] using owns_update hx
    exact ⟨rfl, n, hi⟩
  | @reaches level y hpc _ =>
    have hx : (Pc.checkInit y).Owns x := owns_update hx
    refine h.owner i x ?_
    rw [hpc]
    exact hx
  | @pass y hpc _ =>
    refine h.owner i x (Or.inl ?_)
    rw [hpc]
    simpa [Pc.Owns, Pc.checking, Pc.hand, eq_comm] using owns_update hx
  | @written k hpc =>
    have hx := owns_update hx
    cases k <;> simp [After.pc, Pc.Owns, Pc.checking, Pc.hand] at hx
  | _ =>
    have hx := owns_update hx
    simp [Pc.Owns, Pc.checking, Pc.hand] at hx

/-- Who owns an entry after a step of thread `i`. -/
theorem Spill.owner_update (h : Spill s) {pc : Thread ι → Pc ι ε}
    (hpc : ∀ j, j ≠ i → pc j = s.control.pc j)
    (hown : ∀ x, (pc i).Owns x → x.thread = i ∧ ∃ n, i = .app n) (j : Thread ι)
    {x : LogCall ι ε} (hx : (pc j).Owns x) : x.thread = j ∧ ∃ n, j = .app n := by
  by_cases hji : j = i
  · rw [hji] at hx ⊢
    exact hown x hx
  · rw [hpc j hji] at hx
    exact h.owner j x hx

/-- A step of thread `i` that leaves the ring as it is. -/
theorem Spill.of_pc (h : Spill s) (hring : s'.ring = s.ring)
    (hpc : ∀ j, j ≠ i → s'.control.pc j = s.control.pc j)
    (hspilled : (s.control.pc i).Spilled → (s'.control.pc i).Spilled)
    (hown : ∀ x, (s'.control.pc i).Owns x → x.thread = i ∧ ∃ n, i = .app n) : Spill s' where
  nodup := by rw [hring]; exact h.nodup
  app := by rw [hring]; exact h.app
  spilled x hx := by
    rw [hring] at hx
    by_cases hxi : x.thread = i
    · rw [hxi]; exact hspilled (hxi ▸ h.spilled x hx)
    · rw [hpc _ hxi]; exact h.spilled x hx
  owner j _ hx := h.owner_update hpc hown j hx

theorem Step.spill {a : Act ε} (hstep : Step cap s i a s') (h : Spill s) : Spill s' := by
  have hne := fun j => hstep.pc_of_ne (j := j)
  cases hstep with
  | control hc =>
    exact h.of_pc rfl hne (fun hs => absurd hs.onBuffer hc.not_onBuffer) (h.own hc)
  | queueTakes hpc _ | ringFull hpc _ =>
    refine h.of_pc rfl hne (fun hs => by rw [hpc] at hs; exact hs.elim) fun y hy => ?_
    exact absurd (owns_update hy) (by simp [Pc.Owns, Pc.checking, Pc.hand])
  | @queueFull x hpc _ =>
    refine h.of_pc rfl hne (fun hs => by rw [hpc] at hs; exact hs.elim) fun y hy => ?_
    have hy : (Pc.ringPush x).Owns y := owns_update hy
    exact h.owner i y (by rw [hpc]; exact hy)
  | @ringTakes x hpc _ =>
    -- the thread owns its entry, and has no other in the ring
    obtain ⟨hxi, n, hn⟩ := h.owner i x (Or.inr (by rw [hpc]; exact List.mem_singleton_self x))
    have hfresh : ∀ y ∈ s.ring, y.thread ≠ i := by
      intro y hy hyi
      have := h.spilled y hy
      rw [hyi, hpc] at this
      exact this
    refine ⟨?_, ?_, ?_, ?_⟩
    · rw [List.map_append]
      refine List.Nodup.append h.nodup (List.nodup_singleton _) ?_
      intro t ht ht'
      obtain ⟨y, hy, rfl⟩ := List.mem_map.mp ht
      rw [List.map_singleton, List.mem_singleton, hxi] at ht'
      exact hfresh y hy ht'
    · intro y hy
      rcases List.mem_append.mp hy with hy | hy
      · exact h.app y hy
      · rw [List.mem_singleton.mp hy, hxi]
        exact ⟨n, hn⟩
    · intro y hy
      rcases List.mem_append.mp hy with hy | hy
      · rw [hne _ (hfresh y hy)]
        exact h.spilled y hy
      · rw [List.mem_singleton.mp hy, hxi]
        show (update s.control.pc i (.queuePop .caller) i).Spilled
        rw [update_self]
        trivial
    · refine fun j y hy => h.owner_update hne (fun z hz => ?_) j hy
      exact absurd (owns_update hz) (by simp [Pc.Owns, Pc.checking, Pc.hand])
  | @queuePop k hpc =>
    refine h.of_pc rfl hne ?_ ?_
    · intro hs
      rw [hpc] at hs
      show (update s.control.pc i _ i).Spilled
      rw [update_self]
      cases k <;> first | exact hs.elim | trivial
    · intro y hy
      have hy := owns_update hy
      cases k <;> simp [Pc.Owns, Pc.checking, Pc.hand] at hy
  | @ringPop k qs hpc =>
    refine ⟨List.nodup_nil, fun x hx => absurd hx List.not_mem_nil,
      fun x hx => absurd hx List.not_mem_nil,
      fun j y hy => h.owner_update hne (fun z hz => ?_) j hy⟩
    exact absurd (owns_update hz) (by simp [Pc.Owns, Pc.checking, Pc.hand])

/-- While a thread holds an entry for the ring, the ring has room for it, when
there are no more logging threads than slots. -/
theorem Spill.room [Fintype ι] (h : Spill s) (hcard : Fintype.card ι ≤ cap) {x : LogCall ι ε}
    (hpc : s.control.pc i = .ringPush x) : s.ring.length < cap := by
  obtain ⟨-, n, rfl⟩ := h.owner i x (Or.inr (by rw [hpc]; exact List.mem_singleton_self x))
  have hsub : (s.ring.map Call.thread).toFinset
      ⊆ (Finset.univ.erase n).map ⟨Thread.app, fun _ _ h => Thread.app.inj h⟩ := by
    intro t ht
    obtain ⟨y, hy, rfl⟩ := List.mem_map.mp (List.mem_toFinset.mp ht)
    obtain ⟨m, hm⟩ := h.app y hy
    refine Finset.mem_map.mpr ⟨m, Finset.mem_erase.mpr ⟨?_, Finset.mem_univ m⟩, hm.symm⟩
    rintro rfl
    have := h.spilled y hy
    rw [hm, hpc] at this
    exact this
  have hle := Finset.card_le_card hsub
  rw [List.toFinset_card_of_nodup h.nodup, List.length_map, Finset.card_map,
    Finset.card_erase_of_mem (Finset.mem_univ n), Finset.card_univ] at hle
  have hpos : 0 < Fintype.card ι := Fintype.card_pos_iff.mpr ⟨n⟩
  omega

/-- **Nothing is dropped** when there are no more logging threads than slots. -/
theorem dropped_eq_nil [Fintype ι] {ok : State ι ε → Thread ι × Act ε → Prop}
    (hcard : Fintype.card ι ≤ cap) (hs : Reachable (next cap) ok (init ι ε) s) :
    s.control.dropped = [] := by
  have hboth : Spill s ∧ s.control.dropped = [] := by
    refine hs.invariant (I := fun s => Spill s ∧ s.control.dropped = []) ⟨spill_init, rfl⟩ ?_
    rintro s ⟨i, a⟩ s' - ⟨h, hnone⟩ - hnext
    have hstep : Step cap s i a s' := step_of_next hnext
    refine ⟨hstep.spill h, ?_⟩
    cases hstep with
    | control hc => exact hc.passes.1.trans hnone
    | ringFull hpc hfull => exact absurd (h.room hcard hpc) (by omega)
    | _ => exact hnone
  exact hboth.2

/-! ### Shutdown -/

/-- **All calls have returned before `deinitialize` is called**: it is called when
every thread of the application is idle, no call starts before it returns, and
there is no crash. -/
structure QuietShutdown (s : State ι ε) (a : Thread ι × Act ε) : Prop where
  noCrash : a.2 ≠ .emergency
  allReturned : a.2 = .deinit → ∀ n, s.control.pc (.app n) = .idle
  noNewCall : (∃ n, (s.control.pc (.app n)).InDeinit) →
    a.2 ≠ .flush ∧ ∀ level e, a.2 ≠ .log level e

/-- What `deinitialize` has achieved at each of its program points. -/
def Closing (s : State ι ε) : Pc ι ε → Prop
  | .deinit | .requestStop | .releaseStop | .join => True
  | .queuePop .deinit => s.control.pc .writer = .ended
  | .ringPop .deinit _ => s.control.pc .writer = .ended ∧ s.queue = []
  | .write .deinit _ _ | .clearInitialized =>
    s.control.pc .writer = .ended ∧ s.queue = [] ∧ s.ring = []
  | _ => False

/-- The program points a thread can be at once `initialized_` is cleared. -/
def Harmless : Pc ι ε → Prop
  | .idle | .checkLevel _ _ | .checkInit _ | .queuePop .caller | .ringPop .caller []
  | .write .caller [] [] | .deinit => True
  | _ => False

omit [DecidableEq ι] in
/-- A thread at one of them holds no entry. -/
theorem Harmless.nothing {p : Pc ι ε} (h : Harmless p) : p.hand = [] ∧ p.vectors = [] := by
  match p, h with
  | .idle, _ | .checkLevel _ _, _ | .checkInit _, _ | .deinit, _ => exact ⟨rfl, rfl⟩
  | .queuePop .caller, _ | .ringPop .caller [], _ | .write .caller [] [], _ => exact ⟨rfl, rfl⟩

/-- The three phases of the life of a logger that is shut down in quiet. -/
inductive Phase (s : State ι ε) : Prop
  | running (hinit : s.control.initialized = true) (hout : ∀ j, ¬ (s.control.pc j).InDeinit)
  | closing (n : ι) (hinit : s.control.initialized = true)
      (hidle : ∀ m, m ≠ n → s.control.pc (.app m) = .idle)
      (hwriter : ¬ (s.control.pc .writer).InDeinit) (hn : Closing s (s.control.pc (.app n)))
  | closed (hinit : s.control.initialized = false) (hended : s.control.pc .writer = .ended)
      (hqueue : s.queue = []) (hring : s.ring = [])
      (happ : ∀ n, Harmless (s.control.pc (.app n)))

omit [DecidableEq ι] in
theorem phase_init : Phase (init ι ε) :=
  .running rfl fun j => by cases j <;> exact not_false

omit [DecidableEq ι] in
theorem Closing.inDeinit {p : Pc ι ε} (h : Closing s p) : p.InDeinit := by
  match p, h with
  | .deinit, _ | .requestStop, _ | .releaseStop, _ | .join, _ => trivial
  | .queuePop .deinit, _ | .ringPop .deinit _, _ => trivial
  | .write .deinit _ _, _ | .clearInitialized, _ => trivial

/-- A step of a thread outside `deinitialize` calls it, or stays outside. -/
theorem Step.not_inDeinit {a : Act ε} (hstep : Step cap s i a s')
    (hout : ¬ (s.control.pc i).InDeinit) :
    (a = .deinit ∧ (∃ n, i = .app n) ∧
      s' = { s with control := s.control.goto i .deinit }) ∨
    (¬ (s'.control.pc i).InDeinit ∧ s'.control.initialized = s.control.initialized) := by
  have hself : ∀ {p : Pc ι ε}, ¬ p.InDeinit → ¬ (update s.control.pc i p i).InDeinit := by
    intro p hp
    rwa [update_self]
  cases hstep with
  | control h =>
    cases h with
    | setLogLevel => exact Or.inr ⟨hout, rfl⟩
    | callDeinit hpc hi => exact Or.inl ⟨rfl, ⟨_, hi⟩, rfl⟩
    | @writeQueue k x qs rs hpc | @writeRing k x rs hpc | @written k hpc =>
      rw [hpc] at hout
      refine Or.inr ⟨hself ?_, rfl⟩
      cases k <;> first | exact not_false | exact absurd trivial hout
    | deinitAgain hpc _ | deinitStart hpc _ | releaseStop hpc _ | join hpc _ =>
      rw [hpc] at hout; exact absurd trivial hout
    | requestStop hpc | clearInitialized hpc => rw [hpc] at hout; exact absurd trivial hout
    | _ => exact Or.inr ⟨hself not_false, rfl⟩
  | @queuePop k hpc =>
    rw [hpc] at hout
    refine Or.inr ⟨hself ?_, rfl⟩
    cases k <;> first | exact not_false | exact absurd trivial hout
  | @ringPop k qs hpc =>
    rw [hpc] at hout
    refine Or.inr ⟨hself ?_, rfl⟩
    cases k <;> first | exact not_false | exact absurd trivial hout
  | _ => exact Or.inr ⟨hself not_false, rfl⟩

/-- The writer thread takes no step once it has ended. -/
theorem Step.not_ended {a : Act ε} (hstep : Step cap s i a s') : s.control.pc i ≠ .ended := by
  intro hend
  cases hstep with
  | control h =>
    cases h with
    | callLog hpc _ | callFlush hpc _ | setLogLevel hpc _ | callDeinit hpc _
    | emergency hpc _ | filtered hpc _ | reaches hpc _ | uninitialized hpc _ | pass hpc _
    | release hpc _ | stopped hpc _ | running hpc _ | acquire hpc _ | lastFlush hpc _
    | nextFlush hpc _ | deinitAgain hpc _ | deinitStart hpc _ | releaseStop hpc _ | join hpc _ =>
      rw [hend] at hpc; cases hpc
    | writeQueue hpc | writeRing hpc | written hpc | requestStop hpc | clearInitialized hpc =>
      rw [hend] at hpc; cases hpc
  | queueTakes hpc _ | queueFull hpc _ | ringTakes hpc _ | ringFull hpc _ | queuePop hpc
  | ringPop hpc => rw [hend] at hpc; cases hpc

/-- A step of an idle thread starts a call, or sets the level. -/
theorem Step.starts {a : Act ε} (hstep : Step cap s i a s') (hpc : s.control.pc i = .idle) :
    (a = .emergency ∧ i = .monitor) ∨ (∃ n, i = .app n) ∧
      ((a = .flush ∨ a = .deinit ∨ ∃ level e, a = .log level e) ∨
        ∃ level, s' = { s with control := { s.control with minLevel := level } }) := by
  cases hstep with
  | control h =>
    cases h with
    | setLogLevel _ hi => exact Or.inr ⟨⟨_, hi⟩, Or.inr ⟨_, rfl⟩⟩
    | callLog _ hi => exact Or.inr ⟨⟨_, hi⟩, Or.inl (Or.inr (Or.inr ⟨_, _, rfl⟩))⟩
    | callFlush _ hi => exact Or.inr ⟨⟨_, hi⟩, Or.inl (Or.inl rfl)⟩
    | callDeinit _ hi => exact Or.inr ⟨⟨_, hi⟩, Or.inl (Or.inr (Or.inl rfl))⟩
    | emergency _ hi => exact Or.inl ⟨rfl, hi⟩
    | filtered hpc' _ | reaches hpc' _ | uninitialized hpc' _ | pass hpc' _
    | release hpc' _ | stopped hpc' _ | running hpc' _ | acquire hpc' _ | lastFlush hpc' _
    | nextFlush hpc' _ | deinitAgain hpc' _ | deinitStart hpc' _ | releaseStop hpc' _
    | join hpc' _ => rw [hpc] at hpc'; cases hpc'
    | writeQueue hpc' | writeRing hpc' | written hpc' | requestStop hpc'
    | clearInitialized hpc' => rw [hpc] at hpc'; cases hpc'
  | queueTakes hpc' _ | queueFull hpc' _ | ringTakes hpc' _ | ringFull hpc' _ | queuePop hpc'
  | ringPop hpc' => rw [hpc] at hpc'; cases hpc'

/-- An idle thread of the application can do nothing but set the level, when no
call may start. -/
theorem Step.of_idle {a : Act ε} (hstep : Step cap s i a s') (hpc : s.control.pc i = .idle)
    (hflush : a ≠ .flush) (hlog : ∀ level e, a ≠ .log level e) (hcrash : a ≠ .emergency)
    (hdeinit : a ≠ .deinit) :
    (∃ level, s' = { s with control := { s.control with minLevel := level } }) := by
  rcases hstep.starts hpc with ⟨ha, -⟩ | ⟨-, (ha | ha | ⟨level, e, ha⟩) | hlevel⟩
  · exact absurd ha hcrash
  · exact absurd ha hflush
  · exact absurd ha hdeinit
  · exact absurd ha (hlog level e)
  · exact hlevel

/-- The steps of `deinitialize` itself. -/
theorem Step.closing {n : ι} {a : Act ε} (hstep : Step cap s (.app n) a s')
    (hinit : s.control.initialized = true)
    (hidle : ∀ m, m ≠ n → s.control.pc (.app m) = .idle)
    (hwriter : ¬ (s.control.pc .writer).InDeinit) (hn : Closing s (s.control.pc (.app n))) :
    Phase s' := by
  have hm : ∀ m, m ≠ n → s'.control.pc (.app m) = .idle := fun m hmn => by
    rw [hstep.pc_of_ne (fun h => hmn (Thread.app.inj h)), hidle m hmn]
  have hw : s'.control.pc .writer = s.control.pc .writer := hstep.pc_of_ne (by simp)
  have hgoto : ∀ {p : Pc ι ε}, s'.control.initialized = s.control.initialized →
      s'.control.pc (.app n) = p → Closing s' p → Phase s' := by
    intro p hsame hp hc
    exact .closing n (hsame.trans hinit) hm (by rwa [hw]) (by rwa [hp])
  cases hstep with
  | control h =>
    cases h with
    | deinitStart hpc _ | requestStop hpc | releaseStop hpc _ =>
      exact hgoto rfl (update_self ..) trivial
    | deinitAgain _ hno => rw [hno] at hinit; cases hinit
    | join hpc hended => exact hgoto rfl (update_self ..) (hw.trans hended)
    | @writeQueue k x qs rs hpc | @writeRing k x rs hpc | @written k hpc =>
      rw [hpc] at hn
      cases k <;> first | exact hn.elim | exact hgoto rfl (update_self ..) ⟨hw.trans hn.1, hn.2⟩
    | clearInitialized hpc =>
      rw [hpc] at hn
      refine .closed rfl (hw.trans hn.1) hn.2.1 hn.2.2 fun m => ?_
      by_cases hmn : m = n
      · rw [hmn]
        show Harmless (update s.control.pc _ _ _)
        rw [update_self]; trivial
      · rw [hm m hmn]; trivial
    | callLog hpc _ | callFlush hpc _ | setLogLevel hpc _ | callDeinit hpc _
    | emergency hpc _ | filtered hpc _ | reaches hpc _ | uninitialized hpc _ | pass hpc _
    | release hpc _ | stopped hpc _ | running hpc _ | acquire hpc _ | lastFlush hpc _
    | nextFlush hpc _ => rw [hpc] at hn; exact hn.elim
  -- of all the drains only those of `deinitialize` itself are possible here
  | @queuePop k hpc =>
    rw [hpc] at hn
    cases k <;> first | exact hn.elim | exact hgoto rfl (update_self ..) ⟨hw.trans hn, rfl⟩
  | @ringPop k qs hpc =>
    rw [hpc] at hn
    cases k <;> first
      | exact hn.elim
      | exact hgoto rfl (update_self ..) ⟨hw.trans hn.1, hn.2, rfl⟩
  | queueTakes hpc _ | queueFull hpc _ | ringTakes hpc _ | ringFull hpc _ =>
    rw [hpc] at hn; exact hn.elim

/-- The steps of a thread of the application after `deinitialize`. -/
theorem Step.harmless {n : ι} {a : Act ε} (hstep : Step cap s (.app n) a s')
    (hinit : s.control.initialized = false) (hqueue : s.queue = []) (hring : s.ring = [])
    (hn : Harmless (s.control.pc (.app n))) :
    Harmless (s'.control.pc (.app n)) ∧ s'.control.initialized = false ∧ s'.queue = [] ∧
      s'.ring = [] := by
  have hself : ∀ {p : Pc ι ε}, Harmless p → Harmless (update s.control.pc (.app n) p (.app n)) := by
    intro p hp
    rwa [update_self]
  cases hstep with
  | control h =>
    cases h with
    | setLogLevel => exact ⟨hn, hinit, hqueue, hring⟩
    | callLog hpc _ | callFlush hpc _ | callDeinit hpc _ | filtered hpc _ | reaches hpc _
    | uninitialized hpc _ | deinitAgain hpc _ => exact ⟨hself trivial, hinit, hqueue, hring⟩
    | pass _ hyes | deinitStart _ hyes => rw [hinit] at hyes; cases hyes
    | @writeQueue k x qs rs hpc | @writeRing k x rs hpc =>
      rw [hpc] at hn
      cases k <;> exact hn.elim
    | @written k hpc =>
      rw [hpc] at hn
      cases k <;> first | exact hn.elim | exact ⟨hself trivial, hinit, hqueue, hring⟩
    | emergency hpc hi => cases hi
    | release hpc _ | stopped hpc _ | running hpc _ | acquire hpc _ | lastFlush hpc _
    | nextFlush hpc _ | releaseStop hpc _ | join hpc _ => rw [hpc] at hn; exact hn.elim
    | requestStop hpc | clearInitialized hpc => rw [hpc] at hn; exact hn.elim
  | @queuePop k hpc =>
    rw [hpc] at hn
    cases k <;> first | exact hn.elim | skip
    refine ⟨hself ?_, hinit, rfl, hring⟩
    rw [hqueue]; trivial
  | @ringPop k qs hpc =>
    rw [hpc] at hn
    cases k <;> first | exact hn.elim | skip
    cases qs <;> first | exact hn.elim | skip
    refine ⟨hself ?_, hinit, hqueue, rfl⟩
    rw [hring]; trivial
  | queueTakes hpc _ | queueFull hpc _ | ringTakes hpc _ | ringFull hpc _ =>
    rw [hpc] at hn; exact hn.elim

/-- The monitor starts nothing without a crash. -/
theorem Step.not_monitor {a : Act ε} (hstep : Step cap s .monitor a s')
    (hpc : s.control.pc .monitor = .idle) : a = .emergency := by
  rcases hstep.starts hpc with ⟨ha, -⟩ | ⟨⟨n, hn⟩, -⟩
  · exact ha
  · contradiction

omit [DecidableEq ι] in
/-- What `deinitialize` has achieved stays when the writer and the buffers stay, or
when the writer has not ended. -/
theorem Closing.of_same {p : Pc ι ε} (h : Closing s p)
    (hsame : s.control.pc .writer = .ended → s'.control.pc .writer = .ended ∧
      s'.queue = s.queue ∧ s'.ring = s.ring) : Closing s' p := by
  match p, h with
  | .deinit, _ | .requestStop, _ | .releaseStop, _ | .join, _ => trivial
  | .queuePop .deinit, hw => exact (hsame hw).1
  | .ringPop .deinit _, ⟨hw, hq⟩ =>
    obtain ⟨hw', hq', -⟩ := hsame hw
    exact ⟨hw', hq'.trans hq⟩
  | .write .deinit _ _, ⟨hw, hq, hr⟩ | .clearInitialized, ⟨hw, hq, hr⟩ =>
    obtain ⟨hw', hq', hr'⟩ := hsame hw
    exact ⟨hw', hq'.trans hq, hr'.trans hr⟩

/-- **A quiet shutdown goes through its phases in order.** -/
theorem Step.phase {a : Act ε} (hstep : Step cap s i a s') (hquiet : QuietShutdown s (i, a))
    (hmonitor : s.control.pc .monitor = .idle) (h : Phase s) : Phase s' := by
  cases h with
  | running hinit hout =>
    rcases hstep.not_inDeinit (hout i) with ⟨rfl, ⟨n, rfl⟩, rfl⟩ | ⟨hi, hsame⟩
    · refine .closing n hinit (fun m hmn => ?_) (hout .writer) ?_
      · show update s.control.pc _ _ _ = _
        rw [update_of_ne (fun h => hmn (Thread.app.inj h))]
        exact hquiet.allReturned rfl m
      · show Closing _ (update s.control.pc _ _ _)
        rw [update_self]
        trivial
    · refine .running (hsame.trans hinit) fun j => ?_
      by_cases hji : j = i
      · rw [hji]; exact hi
      · rw [hstep.pc_of_ne hji]; exact hout j
  | closing n hinit hidle hwriter hn =>
    -- a second shutdown would have to wait for the first to return
    have hdeinit : a ≠ .deinit := by
      intro ha
      have hidle := hquiet.allReturned ha n
      rw [hidle] at hn
      exact hn
    cases i with
    | app m =>
      by_cases hmn : m = n
      · subst hmn
        exact hstep.closing hinit hidle hwriter hn
      · obtain ⟨hflush, hlog⟩ := hquiet.noNewCall ⟨n, hn.inDeinit⟩
        obtain ⟨level, rfl⟩ := hstep.of_idle (hidle m hmn) hflush hlog hquiet.noCrash hdeinit
        exact .closing n hinit hidle hwriter (hn.of_same fun hw => ⟨hw, rfl, rfl⟩)
    | writer =>
      rcases hstep.not_inDeinit hwriter with ⟨ha, -⟩ | ⟨hw, hsame⟩
      · exact absurd ha hdeinit
      · refine .closing n (hsame.trans hinit) (fun m hmn => ?_) hw ?_
        · rw [hstep.pc_of_ne (by simp), hidle m hmn]
        · rw [hstep.pc_of_ne (by simp)]
          exact hn.of_same fun hended => absurd hended hstep.not_ended
    | monitor => exact absurd (hstep.not_monitor hmonitor) hquiet.noCrash
  | closed hinit hended hqueue hring happ =>
    cases i with
    | app n =>
      obtain ⟨hn, hinit', hqueue', hring'⟩ := hstep.harmless hinit hqueue hring (happ n)
      refine .closed hinit' ?_ hqueue' hring' fun m => ?_
      · rw [hstep.pc_of_ne (by simp), hended]
      · by_cases hmn : m = n
        · rw [hmn]; exact hn
        · rw [hstep.pc_of_ne (fun h => hmn (Thread.app.inj h))]; exact happ m
    | writer => exact absurd hended hstep.not_ended
    | monitor => exact absurd (hstep.not_monitor hmonitor) hquiet.noCrash

/-- What holds when `deinitialize` has returned: the writer has ended, the buffers
are empty, and every accepted entry is in the file once. -/
structure ShutDown (s : State ι ε) : Prop where
  ended : s.control.pc .writer = .ended
  queue : s.queue = []
  ring : s.ring = []
  once : s.control.file.Nodup
  written : ∀ x ∈ s.control.passed, x ∉ s.control.dropped → x ∈ s.control.file

theorem phase_of_reachable (hs : Reachable (next cap) QuietShutdown (init ι ε) s) :
    s.control.pc .monitor = .idle ∧ Phase s := by
  refine hs.invariant (I := fun s => s.control.pc .monitor = .idle ∧ Phase s)
    ⟨rfl, phase_init⟩ ?_
  rintro s ⟨i, a⟩ s' - ⟨hmonitor, h⟩ hquiet hnext
  have hstep : Step cap s i a s' := step_of_next hnext
  refine ⟨?_, hstep.phase hquiet hmonitor h⟩
  by_cases hi : i = .monitor
  · subst hi
    exact absurd (hstep.not_monitor hmonitor) hquiet.noCrash
  · rw [hstep.pc_of_ne (Ne.symm hi), hmonitor]

theorem shutDown_of_reachable [Fintype ι]
    (hs : Reachable (next cap) QuietShutdown (init ι ε) s)
    (hinit : s.control.initialized = false) : ShutDown s := by
  obtain ⟨hmonitor, hphase⟩ := phase_of_reachable hs
  have honce := exactlyOnce_of_reachable hs
  cases hphase with
  | running hyes _ => rw [hinit] at hyes; cases hyes
  | closing _ hyes _ _ _ => rw [hinit] at hyes; cases hyes
  | closed _ hended hqueue hring happ =>
    refine ⟨hended, hqueue, hring, honce.nodup .file, fun x hx hdropped => ?_⟩
    have hnone : ∀ i, (s.control.pc i).hand = [] ∧ (s.control.pc i).vectors = [] := by
      intro i
      cases i with
      | app n => exact (happ n).nothing
      | writer => rw [hended]; exact ⟨rfl, rfl⟩
      | monitor => rw [hmonitor]; exact ⟨rfl, rfl⟩
    exact (honce.settled hnone hqueue hring hx).resolve_right hdropped

/-- **Conservation and complete shutdown** of the logger over atomic buffers: every
entry that passes the checks is at one place, once; nothing is dropped when there
are no more application threads than slots; and when all calls have returned
before `deinitialize` is called, it leaves the logger shut down. -/
theorem conservation [Fintype ι] (hs : Reachable (next cap) Always (init ι ε) s) :
    ExactlyOnce s ∧ (Fintype.card ι ≤ cap → s.control.dropped = []) ∧
      (Reachable (next cap) QuietShutdown (init ι ε) s → s.control.initialized = false →
        ShutDown s) :=
  ⟨exactlyOnce_of_reachable hs, fun hcard => dropped_eq_nil hcard hs, shutDown_of_reachable⟩

omit [DecidableEq ι] in
/-- A call starts when every thread of the application is idle. -/
theorem quietShutdown_of_idle {a : Thread ι × Act ε} (hcrash : a.2 ≠ .emergency)
    (hidle : a.2 ≠ .step → ∀ n, s.control.pc (.app n) = .idle) : QuietShutdown s a where
  noCrash := hcrash
  allReturned ha := hidle (by rw [ha]; simp)
  noNewCall := by
    rintro ⟨n, hn⟩
    have hstep : a.2 = .step := by
      by_contra hne
      rw [hidle hne n] at hn
      exact hn
    exact ⟨by rw [hstep]; simp, fun level e => by rw [hstep]; simp⟩

/-- A thread logs into a queue of one cell twice, through the ring the second
time, and shuts the logger down. -/
theorem conservation_one_cell :
    ∃ s : State (Fin 1) Char, ExactlyOnce s ∧ s.control.dropped = [] ∧ ShutDown s ∧
      s.control.file = [⟨.app 0, 0, 'a'⟩, ⟨.app 0, 1, 'b'⟩] := by
  obtain ⟨s, hs, hp⟩ := exists_reachable_of_run (next 1) (init (Fin 1) Char)
    (fun s => decide (s.control.initialized = false ∧
      s.control.file = [⟨.app 0, 0, 'a'⟩, ⟨.app 0, 1, 'b'⟩]))
    (fun s a => decide (a.2 ≠ .emergency ∧
      (a.2 ≠ .step → ∀ n, (s.control.pc (.app n)).isIdle = true)))
    (doing (.app 0) (.log .info 'a') 4
      ++ doing (.app 0) (.log .info 'b') 9
      ++ doing (.app 0) .deinit 3
      ++ steps .writer 1 ++ steps (.app 0) 5) (by decide +kernel)
  obtain ⟨hinit, hfile⟩ := of_decide_eq_true hp
  obtain ⟨honce, hdropped, hshut⟩ := conservation (hs.mono fun _ _ _ => trivial)
  refine ⟨s, honce, hdropped (by simp), hshut (hs.mono fun s a ha => ?_) hinit, hfile⟩
  obtain ⟨hcrash, hidle⟩ := of_decide_eq_true ha
  exact quietShutdown_of_idle hcrash fun hne n => Pc.eq_idle (hidle hne n)

end Atomic
end AsyncLogger
end SpeckitLog
