import SpeckitLog.AsyncLogger
import SpeckitLog.Lib.ThreadSum
import SpeckitLog.Lib.Transition
import Mathlib.Tactic.Abel

/-!
# The logger over atomic buffers

The same threads as in the stepwise model, on buffers whose operations take one
step: the queue and the ring are lists of at most `cap` entries, `tryPush`
appends when there is room, and `popAll` takes the whole list.

## Main definitions

* `Atomic.State`, `Atomic.next`, `Atomic.Step` — the logger and its steps.
* `Atomic.Place` — where an entry that passed the checks of `log` can be.

## Main results

* `Atomic.conserved_of_reachable` — no run loses or duplicates an entry.
-/

namespace SpeckitLog
namespace AsyncLogger
namespace Atomic

open Function Transition

variable {ι ε : Type*}

/-- The logger with its queue and its ring buffer. -/
structure State (ι ε : Type*) where
  control : Control ι ε
  queue : List (LogCall ι ε)
  ring : List (LogCall ι ε)

/-- After `initialize`. -/
def init (ι ε : Type*) : State ι ε where
  control := Control.init ι ε
  queue := []
  ring := []

variable [DecidableEq ι]

/-- `async_queue_->tryPush(x)`. -/
def State.queuePush (s : State ι ε) (cap : ℕ) (i : Thread ι) (x : LogCall ι ε) : State ι ε :=
  if s.queue.length < cap then
    { s with control := s.control.queuePushed i x true, queue := s.queue ++ [x] }
  else { s with control := s.control.queuePushed i x false }

/-- `ring_buffer_->tryPush(x)`. -/
def State.ringPush (s : State ι ε) (cap : ℕ) (i : Thread ι) (x : LogCall ι ε) : State ι ε :=
  if s.ring.length < cap then
    { s with control := s.control.ringPushed i x true, ring := s.ring ++ [x] }
  else { s with control := s.control.ringPushed i x false }

/-- `async_queue_->popAll()`. -/
def State.queuePop (s : State ι ε) (i : Thread ι) (k : After) : State ι ε :=
  { s with control := s.control.queuePopped i k s.queue, queue := [] }

/-- `ring_buffer_->popAll()`. -/
def State.ringPop (s : State ι ε) (i : Thread ι) (k : After) (qs : List (LogCall ι ε)) :
    State ι ε :=
  { s with control := s.control.ringPopped i k qs s.ring, ring := [] }

/-- One step of thread `i` of a logger of queue size `cap`. -/
def threadNext (cap : ℕ) (s : State ι ε) (i : Thread ι) (a : Act ε) : Option (State ι ε) :=
  match s.control.pc i, a with
  | .queuePush x, .step => some (s.queuePush cap i x)
  | .ringPush x, .step => some (s.ringPush cap i x)
  | .queuePop k, .step => some (s.queuePop i k)
  | .ringPop k qs, .step => some (s.ringPop i k qs)
  | _, a => (s.control.next i a).map fun c => { s with control := c }

/-- One step of one thread. -/
def next (cap : ℕ) (s : State ι ε) (a : Thread ι × Act ε) : Option (State ι ε) :=
  threadNext cap s a.1 a.2

/-- The kinds of steps. -/
inductive Step (cap : ℕ) (s : State ι ε) (i : Thread ι) : Act ε → State ι ε → Prop
  | control {a : Act ε} {c : Control ι ε} (h : Control.Step s.control i a c) :
      Step cap s i a { s with control := c }
  | queueTakes {x : LogCall ι ε} (hpc : s.control.pc i = .queuePush x)
      (h : s.queue.length < cap) :
      Step cap s i .step { s with control := s.control.goto i .release, queue := s.queue ++ [x] }
  | queueFull {x : LogCall ι ε} (hpc : s.control.pc i = .queuePush x) (h : cap ≤ s.queue.length) :
      Step cap s i .step { s with control := s.control.goto i (.ringPush x) }
  | ringTakes {x : LogCall ι ε} (hpc : s.control.pc i = .ringPush x) (h : s.ring.length < cap) :
      Step cap s i .step
        { s with control := s.control.goto i (.queuePop .caller), ring := s.ring ++ [x] }
  | ringFull {x : LogCall ι ε} (hpc : s.control.pc i = .ringPush x) (h : cap ≤ s.ring.length) :
      Step cap s i .step { s with control := s.control.drop i x }
  | queuePop {k : After} (hpc : s.control.pc i = .queuePop k) :
      Step cap s i .step (s.queuePop i k)
  | ringPop {k : After} {qs : List (LogCall ι ε)} (hpc : s.control.pc i = .ringPop k qs) :
      Step cap s i .step (s.ringPop i k qs)

/-- **Every step is one of the listed kinds.** -/
theorem step_of_next {cap : ℕ} {s s' : State ι ε} {i : Thread ι} {a : Act ε}
    (h : threadNext cap s i a = some s') : Step cap s i a s' := by
  unfold threadNext at h
  split at h
  case h_1 x hpc =>
    obtain rfl := Option.some.inj h
    unfold State.queuePush
    split
    · next hroom => exact .queueTakes hpc hroom
    · next hfull => exact .queueFull hpc (by omega)
  case h_2 x hpc =>
    obtain rfl := Option.some.inj h
    unfold State.ringPush
    split
    · next hroom => exact .ringTakes hpc hroom
    · next hfull => exact .ringFull hpc (by omega)
  case h_3 k hpc => exact Option.some.inj h ▸ .queuePop hpc
  case h_4 k qs hpc => exact Option.some.inj h ▸ .ringPop hpc
  case h_5 =>
    obtain ⟨c, hc, rfl⟩ := Option.map_eq_some_iff.mp h
    exact .control (Control.step_of_next hc)

/-! ### Where the entries are -/

/-- Where an entry that passed the checks of `log` can be. -/
inductive Place (ι : Type*)
  /-- With its `log` call, which has not placed it. -/
  | hand (i : Thread ι)
  /-- Refused by both buffers. -/
  | dropped
  | queue
  | ring
  /-- In the vectors of the flush that thread `i` is in. -/
  | vectors (i : Thread ι)
  | file
  deriving DecidableEq, Fintype

omit [DecidableEq ι] in
/-- The entries at a place. -/
def State.contents (s : State ι ε) : Place ι → List (LogCall ι ε)
  | .hand i => (s.control.pc i).hand
  | .dropped => s.control.dropped
  | .queue => s.queue
  | .ring => s.ring
  | .vectors i => (s.control.pc i).vectors
  | .file => s.control.file

/-- A step of one thread leaves the program points of the others. -/
theorem Step.pc_of_ne {cap : ℕ} {s s' : State ι ε} {i j : Thread ι} {a : Act ε}
    (h : Step cap s i a s') (hji : j ≠ i) : s'.control.pc j = s.control.pc j := by
  cases h with
  | control h => exact h.pc_of_ne hji
  | _ => exact update_of_ne hji _ _

/-- The places that a step of thread `i` can change. -/
def Place.near (i : Thread ι) : Finset (Place ι) :=
  {.hand i, .dropped, .queue, .ring, .vectors i, .file}

/-- The entries at these places. -/
def State.near (s : State ι ε) (i : Thread ι) : Multiset (LogCall ι ε) :=
  ∑ p ∈ Place.near i, (s.contents p : Multiset (LogCall ι ε))

theorem State.near_eq {s : State ι ε} {i : Thread ι} {p : Pc ι ε} (hpc : s.control.pc i = p) :
    s.near i = p.hand + (s.control.dropped + (s.queue + (s.ring +
      (p.vectors + s.control.file)))) := by
  simp [State.near, Place.near, State.contents, Finset.sum_insert, hpc]

/-- **A step moves entries between places**, and a `log` call that passes adds its own. -/
theorem Step.near {cap : ℕ} {s s' : State ι ε} {i : Thread ι} {a : Act ε}
    (h : Step cap s i a s') : s'.near i + s.control.passed = s.near i + s'.control.passed := by
  cases h with
  | @control a c h =>
    obtain ⟨w, hfile, hvec⟩ := h.writes
    obtain ⟨hdropped, hand, hpassed⟩ := h.passes
    rw [State.near_eq rfl, State.near_eq (s := s) rfl]
    simp only [hfile, hvec, hdropped, hand, hpassed, ← Multiset.coe_add, Multiset.coe_nil]
    abel
  | @queueTakes x hpc _ =>
    rw [State.near_eq hpc, State.near_eq (p := .release) (update_self ..)]
    simp only [Pc.hand, Pc.vectors, Control.goto, ← Multiset.coe_add, Multiset.coe_nil]
    abel
  | @queueFull x hpc _ =>
    rw [State.near_eq hpc, State.near_eq (p := .ringPush x) (update_self ..)]
    rfl
  | @ringTakes x hpc _ =>
    rw [State.near_eq hpc, State.near_eq (p := .queuePop .caller) (update_self ..)]
    simp only [Pc.hand, Pc.vectors, Control.goto, ← Multiset.coe_add, Multiset.coe_nil]
    abel
  | @ringFull x hpc _ =>
    rw [State.near_eq hpc, State.near_eq (p := .idle) (update_self ..)]
    simp only [Pc.hand, Pc.vectors, Control.drop, ← Multiset.coe_add, Multiset.coe_nil]
    abel
  | @queuePop k hpc =>
    rw [State.near_eq hpc, State.near_eq (s := s.queuePop i k) (update_self ..)]
    cases k <;> simp only [Pc.hand, Pc.vectors, State.queuePop, Control.queuePopped, Control.goto,
      List.append_nil, Multiset.coe_nil] <;> abel
  | @ringPop k qs hpc =>
    rw [State.near_eq hpc,
      State.near_eq (s := s.ringPop i k qs) (p := .write k qs s.ring) (update_self ..)]
    simp only [Pc.hand, Pc.vectors, State.ringPop, Control.ringPopped, Control.goto,
      ← Multiset.coe_add, Multiset.coe_nil]
    abel

/-- **Conservation.**  The places together hold the entries that passed. -/
def State.Conserved [Fintype ι] (s : State ι ε) : Prop :=
  ∑ p : Place ι, (s.contents p : Multiset (LogCall ι ε)) = s.control.passed

variable [Fintype ι] {cap : ℕ} {s s' : State ι ε}

omit [DecidableEq ι] in
theorem conserved_init : (init ι ε).Conserved := by
  refine Finset.sum_eq_zero fun p _ => ?_
  cases p with
  | hand i | vectors i => cases i <;> rfl
  | _ => rfl

theorem Step.conserved {i : Thread ι} {a : Act ε} (hstep : Step cap s i a s')
    (h : s.Conserved) : s'.Conserved := by
  have hframe : ∀ p, p ∉ Place.near i →
      (s'.contents p : Multiset (LogCall ι ε)) = s.contents p := by
    intro p hp
    cases p with
    | hand j | vectors j =>
      have hji : j ≠ i := by
        rintro rfl
        exact hp (by simp [Place.near])
      simp only [State.contents, hstep.pc_of_ne hji]
    | _ => exact absurd (by simp [Place.near]) hp
  have hsum := sum_add_of_frame_on (Place.near i) hframe
  have hnear := hstep.near
  unfold State.Conserved at h ⊢
  rw [h] at hsum
  -- the step changes the near places as much as the list of entries that passed
  refine add_right_cancel (b := s.near i) ?_
  rw [← State.near, ← State.near] at hsum
  rw [hsum, add_comm, hnear, add_comm]

/-- **No run loses an entry, or duplicates one.** -/
theorem conserved_of_reachable {ok : State ι ε → Thread ι × Act ε → Prop}
    (hs : Reachable (next cap) ok (init ι ε) s) : s.Conserved := by
  refine hs.invariant conserved_init ?_
  rintro s ⟨i, a⟩ s' - h - hnext
  exact (step_of_next hnext).conserved h

omit [DecidableEq ι] in
/-- What is at a place passed the checks. -/
theorem State.Conserved.mem_passed (h : s.Conserved) {p : Place ι} {x : LogCall ι ε}
    (hx : x ∈ s.contents p) : x ∈ s.control.passed := by
  rw [← Multiset.mem_coe, ← h]
  exact Multiset.mem_sum.mpr ⟨p, Finset.mem_univ p, hx⟩

omit [Fintype ι] in
theorem Step.numbered {i : Thread ι} {a : Act ε} (hstep : Step cap s i a s')
    (h : s.control.Numbered) : s'.control.Numbered := by
  cases hstep with
  | control hstep => exact hstep.numbered h
  | @queuePop k hpc =>
    exact h.of_pc rfl rfl rfl fun y hy => by cases k <;> exact absurd hy (by simp [Pc.checking])
  | _ => exact h.of_pc rfl rfl rfl fun y hy => absurd hy (by simp [Pc.checking])

omit [Fintype ι] in
/-- The entries that passed are in call order, in every run. -/
theorem numbered_of_reachable {ok : State ι ε → Thread ι × Act ε → Prop}
    (hs : Reachable (next cap) ok (init ι ε) s) : s.control.Numbered := by
  refine hs.invariant (I := fun s => s.control.Numbered) Control.numbered_init ?_
  rintro s ⟨i, a⟩ s' - h - hnext
  exact (step_of_next hnext).numbered h

/-- Every entry that passed the checks is at exactly one place, once. -/
structure ExactlyOnce (s : State ι ε) : Prop where
  nodup : ∀ p, (s.contents p).Nodup
  placed : ∀ x ∈ s.control.passed, ∃! p, x ∈ s.contents p

theorem exactlyOnce_of_reachable {ok : State ι ε → Thread ι × Act ε → Prop}
    (hs : Reachable (next cap) ok (init ι ε) s) : ExactlyOnce s := by
  have hcons := conserved_of_reachable hs
  have hnd : (∑ p : Place ι, (s.contents p : Multiset (LogCall ι ε))).Nodup := by
    rw [hcons, Multiset.coe_nodup]
    exact (numbered_of_reachable hs).ordered.nodup
  constructor
  · intro p
    have hle := Finset.single_le_sum (f := fun p => (s.contents p : Multiset (LogCall ι ε)))
      (fun _ _ => Multiset.zero_le _) (Finset.mem_univ p)
    exact Multiset.coe_nodup.mp (Multiset.nodup_of_le hle hnd)
  · intro x hx
    refine existsUnique_of_exists_of_unique ?_ fun p p' hp hp' =>
      eq_of_mem_of_nodup_sum hnd (Multiset.mem_coe.mpr hp) (Multiset.mem_coe.mpr hp')
    have hmem : x ∈ ∑ p : Place ι, (s.contents p : Multiset (LogCall ι ε)) := by
      rw [hcons]
      exact hx
    obtain ⟨p, -, hp⟩ := Multiset.mem_sum.mp hmem
    exact ⟨p, hp⟩

omit [DecidableEq ι] [Fintype ι] in
/-- When no thread and no buffer holds an entry, all that passed is written or dropped. -/
theorem ExactlyOnce.settled (h : ExactlyOnce s)
    (hnone : ∀ i, (s.control.pc i).hand = [] ∧ (s.control.pc i).vectors = [])
    (hqueue : s.queue = []) (hring : s.ring = []) {x : LogCall ι ε}
    (hx : x ∈ s.control.passed) : x ∈ s.control.file ∨ x ∈ s.control.dropped := by
  obtain ⟨p, hp, -⟩ := h.placed x hx
  have hempty : ∀ {l : List (LogCall ι ε)}, l = [] → x ∉ l := fun hl => by
    rw [hl]
    exact List.not_mem_nil
  cases p with
  | file => exact Or.inl hp
  | dropped => exact Or.inr hp
  | hand i => exact absurd hp (hempty (hnone i).1)
  | vectors i => exact absurd hp (hempty (hnone i).2)
  | queue => exact absurd hp (hempty hqueue)
  | ring => exact absurd hp (hempty hring)

end Atomic
end AsyncLogger
end SpeckitLog
