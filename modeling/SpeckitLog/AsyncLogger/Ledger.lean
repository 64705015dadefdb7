import SpeckitLog.AsyncLogger.Stepwise
import SpeckitLog.AsyncQueue.Fifo
import SpeckitLog.RingBuffer.Invariant
import SpeckitLog.Lib.ThreadSum

/-!
# Where the entries are

Two facts hold along every run of the logger, however its drains overlap.  What
was moved out of the two buffers is what was written and what the running
flushes have in their vectors; and no entry is handed to the queue twice, nor to
the ring twice, nor to the ring after the queue took it.

## Main results

* `Stepwise.balance_of_reachable` — the first fact.
* `Stepwise.tagged_of_reachable` — the second.
-/

namespace SpeckitLog
namespace AsyncLogger
namespace Stepwise

open Function Transition

variable {ι ε : Type*}

/-! ### What left the buffers -/

section Balance

variable [DecidableEq ι] {cap : ℕ} {s s' : State ι ε} {i : Thread ι}

/-- A step of one thread leaves the vectors of the others. -/
theorem Step.vectors_of_ne (h : Step cap s i s') {j : Thread ι} (hji : j ≠ i) :
    s'.vectors j = s.vectors j := by
  have hgoto : ∀ (c : Control ι ε) p, (c.goto i p).pc j = c.pc j := fun c p => update_of_ne hji _ _
  cases h with
  | control h =>
    simp only [State.vectors, h.pc_of_ne hji]
  | queueInner _ h => simp only [State.vectors, h.pc_of_ne hji]
  | ringInner _ h => simp only [State.vectors, h.pc_of_ne hji]
  | queueCallPush | queueCallPop => 
    simp only [State.vectors, AsyncQueue.State.callPush, AsyncQueue.State.goto, update_of_ne hji]
  | queuePushed | queuePopped =>
    simp only [State.vectors, Control.queuePushed, Control.queuePopped, hgoto,
      AsyncQueue.State.returnPush, AsyncQueue.State.returnPop, update_of_ne hji]
  | ringCallPush | ringCallPop =>
    simp only [State.vectors, RingBuffer.State.callPush, RingBuffer.State.goto, update_of_ne hji]
  | @ringPushed x ok =>
    cases ok <;> simp [State.vectors, Control.ringPushed, Control.drop, hgoto,
      RingBuffer.State.returnPush, update_of_ne hji]
  | ringPopped =>
    simp only [State.vectors, Control.ringPopped, hgoto, RingBuffer.State.returnPop,
      update_of_ne hji]

/-- What the step of thread `i` moves out of the buffers enters its vectors, and
what leaves its vectors is written. -/
theorem Step.moves (h : Step cap s i s') : ∃ m w : List (LogCall ι ε),
    (s'.queue.moved ++ s'.ring.moved).Perm (s.queue.moved ++ s.ring.moved ++ m) ∧
      s'.control.file = s.control.file ++ w ∧ (w ++ s'.vectors i).Perm (s.vectors i ++ m) := by
  have hnil : (s.queue.moved ++ s.ring.moved).Perm (s.queue.moved ++ s.ring.moved ++ []) := by
    rw [List.append_nil]
  cases h with
  | @control a c h =>
    obtain ⟨w, hfile, hvec⟩ := h.writes
    refine ⟨[], w, hnil, hfile, ?_⟩
    simp only [State.vectors, hvec, List.append_nil, List.append_assoc]
    exact List.Perm.refl _
  -- inside the buffers, what a drain moves out joins what it has collected so far
  | queueInner hin h =>
    rcases h.moved_result with ⟨r, hr⟩ | ⟨es, hmoved, hres⟩
    · rw [hr] at hin
      exact hin.elim
    · refine ⟨es, [], ?_, (List.append_nil _).symm, ?_⟩
      · rw [hmoved, List.append_assoc, List.append_assoc]
        exact List.Perm.append_left _ List.perm_append_comm
      · simp only [State.vectors, hres, List.nil_append, List.append_assoc]
        exact List.Perm.append_left _ (List.Perm.append_left _ List.perm_append_comm)
  | ringInner hin h =>
    rcases h.moved_entries with ⟨r, hr⟩ | ⟨es, hmoved, hres⟩
    · rw [hr] at hin
      exact hin.elim
    · refine ⟨es, [], ?_, (List.append_nil _).symm, ?_⟩
      · rw [hmoved, List.append_assoc]
      · simp only [State.vectors, hres, List.nil_append, List.append_assoc]
        exact List.Perm.refl _
  | queueCallPush hpc hq | queueCallPop hpc hq =>
    refine ⟨[], [], hnil, (List.append_nil _).symm, ?_⟩
    simp [State.vectors, AsyncQueue.State.callPush, AsyncQueue.State.goto, hq,
      AsyncQueue.Pc.result]
  | @queuePushed x ok hpc hq =>
    refine ⟨[], [], hnil, (List.append_nil _).symm, ?_⟩
    cases ok <;> simp [State.vectors, Control.queuePushed, Control.goto,
      AsyncQueue.State.returnPush, hpc, hq, AsyncQueue.Pc.result, Pc.vectors]
  | @queuePopped k es hpc hq =>
    refine ⟨[], [], hnil, (List.append_nil _).symm, ?_⟩
    cases k <;> simp [State.vectors, Control.queuePopped, Control.goto,
      AsyncQueue.State.returnPop, hpc, hq, AsyncQueue.Pc.result, Pc.vectors]
  | ringCallPush hpc hr | ringCallPop hpc hr =>
    refine ⟨[], [], hnil, (List.append_nil _).symm, ?_⟩
    simp [State.vectors, RingBuffer.State.callPush, RingBuffer.State.goto, hr,
      RingBuffer.Pc.entries]
  | @ringPushed x ok hpc hr =>
    refine ⟨[], [], hnil, ?_, ?_⟩
    · cases ok <;> simp [Control.ringPushed, Control.goto, Control.drop]
    · cases ok <;> simp [State.vectors, Control.ringPushed, Control.goto, Control.drop,
        RingBuffer.State.returnPush, hpc, hr, RingBuffer.Pc.entries, Pc.vectors]
  | @ringPopped k qs es hpc hr =>
    refine ⟨[], [], hnil, (List.append_nil _).symm, ?_⟩
    simp only [State.vectors, Control.ringPopped, Control.goto, RingBuffer.State.returnPop, hpc,
      hr, RingBuffer.Pc.entries, Pc.vectors, update_self, List.nil_append, List.append_nil]
    rw [List.append_assoc]
    exact List.Perm.append_left _ List.perm_append_comm

variable [Fintype ι]

/-- What was moved out of the buffers is what was written and what is in vectors. -/
def State.Balanced (s : State ι ε) : Prop :=
  ((s.queue.moved ++ s.ring.moved : List (LogCall ι ε)) : Multiset (LogCall ι ε))
    = s.control.file + ∑ j, (s.vectors j : Multiset (LogCall ι ε))

omit [DecidableEq ι] in
theorem balanced_init (dflt : LogCall ι ε) : (init dflt).Balanced := by
  have hvec : ∀ j, (init dflt).vectors j = [] := by
    intro j
    cases j <;> rfl
  unfold State.Balanced
  simp only [hvec, Multiset.coe_nil, Finset.sum_const_zero, add_zero]
  rfl

theorem Step.balanced (hstep : Step cap s i s') (h : s.Balanced) : s'.Balanced := by
  obtain ⟨m, w, hmoved, hfile, hvec⟩ := hstep.moves
  unfold State.Balanced at h ⊢
  have hsum := sum_add_of_frame (fun j => (s.vectors j : Multiset (LogCall ι ε)))
    (fun j => (s'.vectors j : Multiset (LogCall ι ε))) i
    fun j hji => by rw [hstep.vectors_of_ne hji]
  have hvec := Multiset.coe_eq_coe.mpr hvec
  rw [Multiset.coe_eq_coe.mpr hmoved, hfile]
  simp only [← Multiset.coe_add] at h hvec ⊢
  -- both sides agree once the old vectors of the thread that moved are added
  refine add_right_cancel (b := (s.vectors i : Multiset (LogCall ι ε))) ?_
  rw [add_assoc (s.control.file + w : Multiset (LogCall ι ε)), hsum, h]
  rw [add_assoc _ (m : Multiset (LogCall ι ε)), add_comm (m : Multiset (LogCall ι ε)), ← hvec]
  exact add_add_add_comm _ _ _ _

/-- **What left the buffers was written, or is in the vectors of one call.** -/
theorem balance_of_reachable {ok : State ι ε → Thread ι × Act ε → Prop} {dflt : LogCall ι ε}
    (hs : Reachable (next cap) ok (init dflt) s) : s.Balanced := by
  refine hs.invariant (balanced_init dflt) ?_
  rintro s ⟨i, a⟩ s' - h - hnext
  exact (step_of_next hnext).balanced h

end Balance

/-! ### Who handed what to which buffer -/

section Tagged

variable {s s' : State ι ε} {i : Thread ι}

/-- The numbers of the calls increase. -/
def Increasing (l : List (LogCall ι ε)) : Prop := l.Pairwise fun x y => x.number < y.number

/-- The entry is the latest of thread `i`, newer than what it handed to the queue. -/
def State.Newest (s : State ι ε) (i : Thread ι) (x : LogCall ι ε) : Prop :=
  x.thread = i ∧ x.number + 1 = s.control.calls i ∧ ∀ y ∈ s.queue.args i, y.number < x.number

/-- The last entry the thread handed to the queue, refused or still in question. -/
def State.Last (s : State ι ε) (i : Thread ι) (x : LogCall ι ε) : Prop :=
  (s.queue.args i).getLast? = some x

/-- What holds while thread `i` is at a program point. -/
def AtPoint (s : State ι ε) (i : Thread ι) : Pc ι ε → Prop
  | .checkLevel _ x | .checkInit x =>
    (s.queue.pc i = .idle ∧ s.ring.pc i = .idle) ∧ s.Newest i x
  | .queuePush x => s.ring.pc i = .idle ∧ ¬ (s.queue.pc i).Popping ∧
    (s.queue.pc i = .idle → s.Newest i x) ∧ (s.queue.pc i ≠ .idle → s.Last i x)
  | .queuePop _ => s.ring.pc i = .idle
  | .ringPush x => s.queue.pc i = .idle ∧ ¬ (s.ring.pc i).Popping ∧ s.Last i x ∧
    (i, s.queue.number i, false) ∈ s.queue.returns ∧
    (s.ring.pc i = .idle → ∀ y ∈ s.ring.args i, y.number < x.number)
  | .ringPop _ _ => s.queue.pc i = .idle
  | _ => s.queue.pc i = .idle ∧ s.ring.pc i = .idle

/-- **What thread `i` handed to the buffers.**  Each entry to the queue at most
once and in the order of its calls; and to the ring, at most once and in that
order, entries that the queue refused. -/
structure Tagged (s : State ι ε) (i : Thread ι) : Prop where
  own : ∀ x ∈ s.queue.args i, x.thread = i ∧ x.number < s.control.calls i
  queueIncreasing : Increasing (s.queue.args i)
  ringIncreasing : Increasing (s.ring.args i)
  refused : ∀ x ∈ s.ring.args i,
    ∃ n, (s.queue.args i)[n]? = some x ∧ (i, n, false) ∈ s.queue.returns
  point : AtPoint s i (s.control.pc i)

theorem tagged_init (dflt : LogCall ι ε) (i : Thread ι) : Tagged (init dflt) i where
  own x hx := by simp [init, AsyncQueue.init] at hx
  queueIncreasing := List.Pairwise.nil
  ringIncreasing := List.Pairwise.nil
  refused x hx := by simp [init, RingBuffer.init] at hx
  point := by cases i <;> exact ⟨rfl, rfl⟩

/-- A step of another thread does not matter, whatever it returns. -/
theorem Tagged.of_frame (h : Tagged s i) (hpc : s'.control.pc i = s.control.pc i)
    (hcalls : s'.control.calls i = s.control.calls i)
    (hqargs : s'.queue.args i = s.queue.args i) (hqpc : s'.queue.pc i = s.queue.pc i)
    (hrargs : s'.ring.args i = s.ring.args i) (hrpc : s'.ring.pc i = s.ring.pc i)
    (hret : ∀ r ∈ s.queue.returns, r ∈ s'.queue.returns) : Tagged s' i where
  own := by rw [hqargs, hcalls]; exact h.own
  queueIncreasing := by rw [hqargs]; exact h.queueIncreasing
  ringIncreasing := by rw [hrargs]; exact h.ringIncreasing
  refused x hx := by
    rw [hrargs] at hx
    obtain ⟨n, hn, hr⟩ := h.refused x hx
    exact ⟨n, by rw [hqargs]; exact hn, hret _ hr⟩
  point := by
    have hpoint := h.point
    have hnewest : ∀ x, s.Newest i x → s'.Newest i x := by
      rintro x ⟨hthread, hnumber, hnew⟩
      exact ⟨hthread, by rw [hcalls]; exact hnumber, by rw [hqargs]; exact hnew⟩
    have hlast : ∀ x, s.Last i x → s'.Last i x := by
      intro x hx
      unfold State.Last
      rw [hqargs]
      exact hx
    have hnum : s'.queue.number i = s.queue.number i := by
      unfold AsyncQueue.State.number
      rw [hqargs]
    rw [hpc]
    cases hp : s.control.pc i with
    | checkLevel level x | checkInit x =>
      rw [hp] at hpoint
      obtain ⟨hidle, hx⟩ := hpoint
      exact ⟨by rw [hqpc, hrpc]; exact hidle, hnewest x hx⟩
    | queuePush x =>
      rw [hp] at hpoint
      obtain ⟨hr, hpop, hx, hl⟩ := hpoint
      refine ⟨by rw [hrpc]; exact hr, by rw [hqpc]; exact hpop, ?_, ?_⟩
      · rw [hqpc]; exact fun hq => hnewest x (hx hq)
      · rw [hqpc]; exact fun hq => hlast x (hl hq)
    | ringPush x =>
      rw [hp] at hpoint
      obtain ⟨hq, hpop, hl, hr, hx⟩ := hpoint
      refine ⟨by rw [hqpc]; exact hq, by rw [hrpc]; exact hpop, hlast x hl, ?_, ?_⟩
      · rw [hnum]; exact hret _ hr
      · rw [hrpc, hrargs]; exact hx
    | queuePop k =>
      rw [hp] at hpoint
      show s'.ring.pc i = .idle
      rw [hrpc]; exact hpoint
    | ringPop k qs =>
      rw [hp] at hpoint
      show s'.queue.pc i = .idle
      rw [hqpc]; exact hpoint
    | _ =>
      rw [hp] at hpoint
      exact ⟨by rw [hqpc]; exact hpoint.1, by rw [hrpc]; exact hpoint.2⟩

theorem Increasing.concat {l : List (LogCall ι ε)} (h : Increasing l) {x : LogCall ι ε}
    (hx : ∀ y ∈ l, y.number < x.number) : Increasing (l ++ [x]) := by
  refine List.pairwise_append.mpr ⟨h, List.pairwise_singleton _ _, ?_⟩
  intro y hy z hz
  rw [List.mem_singleton.mp hz]
  exact hx y hy

/-- An entry is found at one position only. -/
theorem Increasing.getElem?_inj {l : List (LogCall ι ε)} (h : Increasing l) {m n : ℕ}
    {x : LogCall ι ε} (hm : l[m]? = some x) (hn : l[n]? = some x) : m = n := by
  obtain ⟨hm', rfl⟩ := List.getElem?_eq_some_iff.mp hm
  obtain ⟨hn', heq⟩ := List.getElem?_eq_some_iff.mp hn
  have hp := List.pairwise_iff_getElem.mp h
  rcases Nat.lt_trichotomy m n with hlt | rfl | hgt
  · have := hp m n hm' hn' hlt
    rw [heq] at this
    omega
  · rfl
  · have := hp n m hn' hm' hgt
    rw [heq] at this
    omega

/-- Refused entries are older than one that is refused later. -/
theorem Tagged.refused_lt (h : Tagged s i) (hhist : s.queue.History)
    (hin : s.queue.pc i ≠ .idle) (hpop : ¬ (s.queue.pc i).Popping) {x y : LogCall ι ε}
    (hlast : s.Last i x) (hy : y ∈ s.ring.args i) : y.number < x.number := by
  obtain ⟨n, hn, hret⟩ := h.refused y hy
  have hrun : (s.queue.pc i).stage ≠ .outside := by
    cases hpc : s.queue.pc i <;> rw [hpc] at hin hpop <;>
      first | exact absurd rfl hin | exact absurd trivial hpop | simp [AsyncQueue.Pc.stage]
  have hlt := (hhist.past i n false hret).2 hrun
  rw [State.Last, List.getLast?_eq_getElem?] at hlast
  obtain ⟨hn', rfl⟩ := List.getElem?_eq_some_iff.mp hn
  obtain ⟨hl', rfl⟩ := List.getElem?_eq_some_iff.mp hlast
  exact List.pairwise_iff_getElem.mp h.queueIncreasing n _ hn' hl' hlt

variable [DecidableEq ι] {cap : ℕ}

/-- A step inside the control of thread `i`. -/
theorem Tagged.control {a : Act ε} {c : Control ι ε} (h : Tagged s i)
    (hstep : Control.Step s.control i a c) : Tagged { s with control := c } i := by
  have hpoint := h.point
  have hcalls : ∀ {c : Control ι ε}, c.calls = s.control.calls →
      AtPoint { s with control := c } i (c.pc i) → Tagged { s with control := c } i :=
    fun hc hp => ⟨by rw [hc]; exact h.own, h.queueIncreasing, h.ringIncreasing, h.refused, hp⟩
  have hgoto : ∀ {c : Control ι ε} {p : Pc ι ε}, c.calls = s.control.calls →
      c.pc = update s.control.pc i p → AtPoint { s with control := c } i p →
      Tagged { s with control := c } i := by
    intro c p hc hp hat
    refine hcalls hc ?_
    rw [hp, update_self]
    exact hat
  cases hstep with
  | setLogLevel hpc _ => exact hcalls rfl (by rw [hpc] at hpoint ⊢; exact hpoint)
  | @callLog n level e hpc _ =>
    rw [hpc] at hpoint
    refine ⟨?_, h.queueIncreasing, h.ringIncreasing, h.refused, ?_⟩
    · intro x hx
      obtain ⟨hthread, hlt⟩ := h.own x hx
      refine ⟨hthread, ?_⟩
      show x.number < update s.control.calls i _ i
      rw [update_self]
      omega
    · show AtPoint _ i (update s.control.pc i _ i)
      rw [update_self]
      refine ⟨hpoint, rfl, ?_, fun y hy => (h.own y hy).2⟩
      show s.control.calls i + 1 = update s.control.calls i _ i
      rw [update_self]
  | callFlush hpc _ => rw [hpc] at hpoint; exact hgoto rfl rfl hpoint.2
  | emergency hpc _ => rw [hpc] at hpoint; exact hgoto rfl rfl hpoint.2
  | filtered hpc _ | uninitialized hpc _ =>
    rw [hpc] at hpoint; exact hgoto rfl rfl hpoint.1
  | reaches hpc _ => rw [hpc] at hpoint; exact hgoto rfl rfl hpoint
  | pass hpc _ =>
    rw [hpc] at hpoint
    obtain ⟨⟨hq, hr⟩, hx⟩ := hpoint
    refine hgoto rfl rfl ⟨hr, ?_, fun _ => hx, fun hne => absurd hq hne⟩
    rw [show (s.queue.pc i) = .idle from hq]
    exact not_false
  | @written k hpc =>
    rw [hpc] at hpoint
    refine hgoto rfl rfl ?_
    cases k with
    | emergencyQueue => exact hpoint.1
    | _ => exact hpoint
  | lastFlush hpc _ | nextFlush hpc _ | join hpc _ =>
    rw [hpc] at hpoint; exact hgoto rfl rfl hpoint.2
  | callDeinit hpc _ | release hpc _ | stopped hpc _ | running hpc _ | acquire hpc _
  | deinitAgain hpc _ | deinitStart hpc _ | releaseStop hpc _ =>
    rw [hpc] at hpoint; exact hgoto rfl rfl hpoint
  | writeQueue hpc | writeRing hpc | requestStop hpc | clearInitialized hpc =>
    rw [hpc] at hpoint; exact hgoto rfl rfl hpoint

/-- A step of thread `i` is no matter to what the others handed over. -/
theorem Step.tagged_of_ne (hstep : Step cap s i s') {j : Thread ι} (hji : j ≠ i)
    (h : Tagged s j) : Tagged s' j := by
  have hnil : ∀ r ∈ s.queue.returns, r ∈ s.queue.returns := fun _ hr => hr
  cases hstep with
  | @control a c hstep =>
    exact h.of_frame (hstep.pc_of_ne hji) (hstep.calls_of_ne hji) rfl rfl rfl rfl hnil
  | queueInner hin hq =>
    obtain ⟨hargs, hret, -⟩ := hq.inner hin
    exact h.of_frame rfl rfl (by rw [hargs]) (hq.pc_of_ne hji) rfl rfl (by rw [hret]; exact hnil)
  | ringInner hin hr =>
    obtain ⟨hargs, -⟩ := hr.inner hin
    exact h.of_frame rfl rfl rfl rfl (by rw [hargs]) (hr.pc_of_ne hji) hnil
  | queueCallPush =>
    exact h.of_frame rfl rfl (update_of_ne hji _ _) (update_of_ne hji _ _) rfl rfl hnil
  | queueCallPop => exact h.of_frame rfl rfl rfl (update_of_ne hji _ _) rfl rfl hnil
  | queuePushed =>
    exact h.of_frame (update_of_ne hji _ _) rfl rfl (update_of_ne hji _ _) rfl rfl
      fun r hr => List.mem_append_left _ hr
  | queuePopped =>
    exact h.of_frame (update_of_ne hji _ _) rfl rfl (update_of_ne hji _ _) rfl rfl hnil
  | ringCallPush =>
    exact h.of_frame rfl rfl rfl rfl (update_of_ne hji _ _) (update_of_ne hji _ _) hnil
  | ringCallPop => exact h.of_frame rfl rfl rfl rfl rfl (update_of_ne hji _ _) hnil
  | @ringPushed x ok =>
    have hc : (s.control.ringPushed i x ok).pc j = s.control.pc j := by
      cases ok <;> exact update_of_ne hji _ _
    exact h.of_frame hc (by cases ok <;> rfl) rfl rfl rfl (update_of_ne hji _ _) hnil
  | ringPopped =>
    exact h.of_frame (update_of_ne hji _ _) rfl rfl rfl rfl (update_of_ne hji _ _) hnil

/-- Thread `i` hands its latest entry to the queue. -/
theorem Tagged.queueCallPush (h : Tagged s i) {x : LogCall ι ε}
    (hpc : s.control.pc i = .queuePush x) (hq : s.queue.pc i = .idle) :
    Tagged { s with queue := s.queue.callPush i x } i := by
  have hpoint := h.point
  rw [hpc] at hpoint
  obtain ⟨hr, -, hx, -⟩ := hpoint
  obtain ⟨hthread, hnumber, hnew⟩ := hx hq
  have hargs : (s.queue.callPush i x).args i = s.queue.args i ++ [x] := update_self ..
  refine ⟨?_, ?_, h.ringIncreasing, ?_, ?_⟩
  · intro y hy
    rw [hargs] at hy
    rcases List.mem_append.mp hy with hy | hy
    · exact h.own y hy
    · rw [List.mem_singleton.mp hy]
      exact ⟨hthread, by show x.number < s.control.calls i; omega⟩
  · show Increasing ((s.queue.callPush i x).args i)
    rw [hargs]
    exact h.queueIncreasing.concat hnew
  · intro y hy
    obtain ⟨n, hn, hret⟩ := h.refused y hy
    exact ⟨n, by rw [hargs]; exact Call.getElem?_concat_of_some hn, hret⟩
  · show AtPoint _ i (s.control.pc i)
    rw [hpc]
    have hqpc : (s.queue.callPush i x).pc i = .loadTail x := update_self ..
    refine ⟨hr, by rw [hqpc]; exact not_false, fun hidle => ?_, fun _ => ?_⟩
    · rw [hqpc] at hidle
      exact absurd hidle (by simp)
    · show ((s.queue.callPush i x).args i).getLast? = some x
      rw [hargs, List.getLast?_concat]

/-- A step of thread `i` inside its call of the queue hands nothing over. -/
theorem Tagged.queueInner (h : Tagged s i) {b : AsyncQueue.Act (LogCall ι ε)}
    {q : AsyncQueue.State (Thread ι) (LogCall ι ε)} (hin : (s.queue.pc i).Inner)
    (hq : AsyncQueue.Step cap s.queue i b q) : Tagged { s with queue := q } i := by
  have hpoint := h.point
  obtain ⟨hargs, hret, hne, hpop⟩ := hq.inner hin
  have hidle : s.queue.pc i ≠ .idle := by
    intro hidle
    rw [hidle] at hin
    exact hin
  refine ⟨by rw [hargs]; exact h.own, by rw [hargs]; exact h.queueIncreasing,
    h.ringIncreasing, by rw [hargs, hret]; exact h.refused, ?_⟩
  show AtPoint _ i (s.control.pc i)
  -- the queue is at work, so the thread is at one of its two calls
  cases hp : s.control.pc i with
  | queuePush x =>
    rw [hp] at hpoint
    obtain ⟨hr, hnp, -, hl⟩ := hpoint
    refine ⟨hr, fun hp' => hnp (hpop.mp hp'), fun hi => absurd hi hne, fun _ => ?_⟩
    show (q.args i).getLast? = some x
    rw [hargs]
    exact hl hidle
  | queuePop k => rw [hp] at hpoint; exact hpoint
  | checkLevel _ _ | checkInit _ => rw [hp] at hpoint; exact absurd hpoint.1.1 hidle
  | ringPush _ => rw [hp] at hpoint; exact absurd hpoint.1 hidle
  | ringPop _ _ => rw [hp] at hpoint; exact absurd hpoint hidle
  | _ => rw [hp] at hpoint; exact absurd hpoint.1 hidle

/-- The queue answers: a refused entry is newer than all the ring was handed. -/
theorem Tagged.queuePushed (h : Tagged s i) (hhist : s.queue.History) {x : LogCall ι ε}
    {ok : Bool} (hpc : s.control.pc i = .queuePush x) (hq : s.queue.pc i = .pushed ok) :
    Tagged { s with
      control := s.control.queuePushed i x ok, queue := s.queue.returnPush i ok } i := by
  have hpoint := h.point
  rw [hpc] at hpoint
  obtain ⟨hr, hnp, -, hl⟩ := hpoint
  have hne : s.queue.pc i ≠ .idle := by rw [hq]; simp
  have hlast := hl hne
  refine ⟨h.own, h.queueIncreasing, h.ringIncreasing, ?_, ?_⟩
  · intro y hy
    obtain ⟨n, hn, hret⟩ := h.refused y hy
    exact ⟨n, hn, List.mem_append_left _ hret⟩
  · have hqpc : (s.queue.returnPush i ok).pc i = .idle := update_self ..
    show AtPoint _ i (update s.control.pc i _ i)
    rw [update_self]
    cases ok with
    | true => exact ⟨hqpc, hr⟩
    | false =>
      refine ⟨hqpc, ?_, hlast, ?_, fun _ y hy => h.refused_lt hhist hne hnp hlast hy⟩
      · show ¬ (s.ring.pc i).Popping
        rw [hr]
        exact not_false
      · exact List.mem_append_right _ (List.mem_singleton_self _)

/-- Thread `i` hands the entry that the queue has just refused to the ring. -/
theorem Tagged.ringCallPush (h : Tagged s i) {x : LogCall ι ε}
    (hpc : s.control.pc i = .ringPush x) (hr : s.ring.pc i = .idle) :
    Tagged { s with ring := s.ring.callPush i x } i := by
  have hpoint := h.point
  rw [hpc] at hpoint
  obtain ⟨hq, -, hlast, hret, hnew⟩ := hpoint
  have hargs : (s.ring.callPush i x).args i = s.ring.args i ++ [x] := update_self ..
  refine ⟨h.own, h.queueIncreasing, ?_, ?_, ?_⟩
  · show Increasing ((s.ring.callPush i x).args i)
    rw [hargs]
    exact h.ringIncreasing.concat (hnew hr)
  · intro y hy
    rw [hargs] at hy
    rcases List.mem_append.mp hy with hy | hy
    · exact h.refused y hy
    · rw [List.mem_singleton.mp hy]
      refine ⟨s.queue.number i, ?_, hret⟩
      rw [State.Last, List.getLast?_eq_getElem?] at hlast
      exact hlast
  · have hrpc : (s.ring.callPush i x).pc i = .loadSize x := update_self ..
    show AtPoint _ i (s.control.pc i)
    rw [hpc]
    refine ⟨hq, by rw [hrpc]; exact not_false, hlast, hret, fun hidle => ?_⟩
    rw [hrpc] at hidle
    exact absurd hidle (by simp)

/-- A step of thread `i` inside its call of the ring hands nothing over. -/
theorem Tagged.ringInner (h : Tagged s i) {b : RingBuffer.Act (LogCall ι ε)}
    {r : RingBuffer.State (Thread ι) (LogCall ι ε)} (hin : (s.ring.pc i).Inner)
    (hr : RingBuffer.Step cap s.ring i b r) : Tagged { s with ring := r } i := by
  have hpoint := h.point
  obtain ⟨hargs, -, hne, hpop⟩ := hr.inner hin
  have hidle : s.ring.pc i ≠ .idle := by
    intro hidle
    rw [hidle] at hin
    exact hin
  refine ⟨h.own, h.queueIncreasing, by rw [hargs]; exact h.ringIncreasing,
    by rw [hargs]; exact h.refused, ?_⟩
  show AtPoint _ i (s.control.pc i)
  cases hp : s.control.pc i with
  | ringPush x =>
    rw [hp] at hpoint
    obtain ⟨hq, hnp, hlast, hret, -⟩ := hpoint
    exact ⟨hq, fun hp' => hnp (hpop.mp hp'), hlast, hret, fun hi => absurd hi hne⟩
  | ringPop k qs => rw [hp] at hpoint; exact hpoint
  | checkLevel _ _ | checkInit _ => rw [hp] at hpoint; exact absurd hpoint.1.2 hidle
  | queuePush _ => rw [hp] at hpoint; exact absurd hpoint.1 hidle
  | queuePop _ => rw [hp] at hpoint; exact absurd hpoint hidle
  | _ => rw [hp] at hpoint; exact absurd hpoint.2 hidle

/-- A step of thread `i`, at any of its program points. -/
theorem Step.tagged_self (hstep : Step cap s i s') (hhist : s.queue.History)
    (h : Tagged s i) : Tagged s' i := by
  have hpoint := h.point
  cases hstep with
  | control hstep => exact h.control hstep
  | queueCallPush hpc hq => exact h.queueCallPush hpc hq
  | queueInner hin hq => exact h.queueInner hin hq
  | queuePushed hpc hq => exact h.queuePushed hhist hpc hq
  | ringCallPush hpc hr => exact h.ringCallPush hpc hr
  | ringInner hin hr => exact h.ringInner hin hr
  | queueCallPop hpc _ | ringCallPop hpc _ =>
    rw [hpc] at hpoint
    refine ⟨h.own, h.queueIncreasing, h.ringIncreasing, h.refused, ?_⟩
    show AtPoint _ i (s.control.pc i)
    rw [hpc]
    exact hpoint
  | @queuePopped k es hpc hq =>
    rw [hpc] at hpoint
    refine ⟨h.own, h.queueIncreasing, h.ringIncreasing, h.refused, ?_⟩
    have hqpc : (s.queue.returnPop i es).pc i = .idle := update_self ..
    show AtPoint _ i (update s.control.pc i _ i)
    rw [update_self]
    cases k with
    | emergencyQueue => exact ⟨hqpc, hpoint⟩
    | _ => exact hqpc
  | @ringPushed x ok hpc hr =>
    rw [hpc] at hpoint
    obtain ⟨hq, -, -, -, -⟩ := hpoint
    have hrpc : (s.ring.returnPush i ok).pc i = .idle := update_self ..
    have hcalls : (s.control.ringPushed i x ok).calls = s.control.calls := by cases ok <;> rfl
    refine ⟨by rw [hcalls]; exact h.own, h.queueIncreasing, h.ringIncreasing, h.refused, ?_⟩
    cases ok with
    | true =>
      show AtPoint _ i (update s.control.pc i _ i)
      rw [update_self]
      exact hrpc
    | false =>
      show AtPoint _ i (update s.control.pc i _ i)
      rw [update_self]
      exact ⟨hq, hrpc⟩
  | @ringPopped k qs es hpc hr =>
    rw [hpc] at hpoint
    refine ⟨h.own, h.queueIncreasing, h.ringIncreasing, h.refused, ?_⟩
    have hrpc : (s.ring.returnPop i es).pc i = .idle := update_self ..
    show AtPoint _ i (update s.control.pc i _ i)
    rw [update_self]
    exact ⟨hpoint, hrpc⟩

/-- **No entry is handed over twice to the same buffer**, nor to the ring after
the queue took it, in any run. -/
theorem tagged_of_reachable {ok : State ι ε → Thread ι × Act ε → Prop} {dflt : LogCall ι ε}
    (hs : Reachable (next cap) ok (init dflt) s) : ∀ j, Tagged s j := by
  refine hs.invariant (I := fun s => ∀ j, Tagged s j) (tagged_init dflt) ?_
  rintro s ⟨i, a⟩ s' hs h - hnext j
  have hstep : Step cap s i s' := step_of_next hnext
  have hhist : s.queue.History :=
    AsyncQueue.history_of_reachable (queue_run (fun _ _ => True) hs fun _ _ _ => trivial)
  by_cases hji : j = i
  · rw [hji]; exact hstep.tagged_self hhist (h i)
  · exact hstep.tagged_of_ne hji (h j)

end Tagged

end Stepwise
end AsyncLogger
end SpeckitLog
