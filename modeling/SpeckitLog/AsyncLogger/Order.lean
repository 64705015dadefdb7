import SpeckitLog.AsyncLogger.Shutdown

/-!
# The order of a thread's entries

A flush takes the queue and the ring in two steps and writes later still, so two
flushes that overlap can write the entries of one thread in the wrong order.
They do not when each takes its entries *in turn*: no other flush holds an
earlier entry of the same thread unwritten, and an entry is not taken from the
ring while the queue holds one of its thread.

## Main results

* `Atomic.orderKept` — with that discipline each thread's order is kept.
* `Atomic.not_orderKept_overlap` — a run without it in which it is not.
-/

namespace SpeckitLog
namespace AsyncLogger
namespace Atomic

open Function Transition Call

variable {ι ε : Type*}

/-- **Entries are taken in turn** in the step of thread `i`. -/
structure InTurn (s : State ι ε) (i : Thread ι) : Prop where
  queue : ∀ k, s.control.pc i = .queuePop k → ∀ x ∈ s.queue, ∀ j, j ≠ i →
    ∀ y ∈ (s.control.pc j).vectors, x.thread ≠ y.thread
  ring : ∀ k qs, s.control.pc i = .ringPop k qs → ∀ x ∈ s.ring,
    (∀ y ∈ s.queue, x.thread ≠ y.thread) ∧
      ∀ j, j ≠ i → ∀ y ∈ (s.control.pc j).vectors, x.thread ≠ y.thread

/-- The order of each thread's `log` calls is the order of their records. -/
def OrderKept (s : State ι ε) : Prop :=
  ∀ (m n : ℕ) (x y : LogCall ι ε), s.control.file[m]? = some x →
    s.control.file[n]? = some y → x.thread = y.thread → x.number < y.number → m < n

/-- What the file, the vectors of a flush, the queue, the ring and the hands of a
thread hold is, in this order, in call order; and no two flushes hold entries of
the same thread. -/
structure Ordered (s : State ι ε) : Prop where
  chain : ∀ i j, InCallOrder (s.control.file ++ ((s.control.pc j).vectors ++
    (s.queue ++ (s.ring ++ (s.control.pc i).hand))))
  apart : ∀ j k, j ≠ k → ∀ x ∈ (s.control.pc j).vectors, ∀ y ∈ (s.control.pc k).vectors,
    x.thread ≠ y.thread

theorem ordered_init : Ordered (init ι ε) where
  chain i j := by
    have hhand : ((init ι ε).control.pc i).hand = [] := by cases i <;> rfl
    have hvec : ((init ι ε).control.pc j).vectors = [] := by cases j <;> rfl
    rw [hhand, hvec]
    exact inCallOrder_nil
  apart j k _ x hx := by
    have hvec : ((init ι ε).control.pc j).vectors = [] := by cases j <;> rfl
    rw [hvec] at hx
    exact absurd hx List.not_mem_nil

section Chain

variable {f v q r n t w : List (LogCall ι ε)}

/-- What is written moves from the vectors to the end of the file. -/
theorem chain_write (hw : InCallOrder (f ++ (w ++ t))) (hv : InCallOrder (f ++ (v ++ t)))
    (h : ∀ x ∈ w, ∀ y ∈ v, x.thread ≠ y.thread) : InCallOrder ((f ++ w) ++ (v ++ t)) := by
  simp only [inCallOrder_append, before_append_left, before_append_right] at hw hv ⊢
  obtain ⟨hf, ⟨hw, ht, hwt⟩, hfw, hft⟩ := hw
  obtain ⟨-, ⟨hv, -, hvt⟩, hfv, -⟩ := hv
  exact ⟨⟨hf, hw, hfw⟩, ⟨hv, ht, hvt⟩, ⟨hfv, before_of_ne h⟩, hft, hwt⟩

/-- The ring may be taken before the queue when they hold entries of different threads. -/
theorem chain_swap (h : InCallOrder (f ++ (v ++ (q ++ (r ++ t)))))
    (hqr : ∀ x ∈ r, ∀ y ∈ q, x.thread ≠ y.thread) :
    InCallOrder (f ++ ((v ++ r) ++ (q ++ t))) := by
  simp only [inCallOrder_append, before_append_left, before_append_right] at h ⊢
  obtain ⟨hf, ⟨hv, ⟨hq, ⟨hr, ht, hrt⟩, -, hqt⟩, hvq, hvr, hvt⟩, hfv, hfq, hfr, hft⟩ := h
  exact ⟨hf, ⟨⟨hv, hr, hvr⟩, ⟨hq, ht, hqt⟩, ⟨hvq, before_of_ne hqr⟩, hvt, hrt⟩,
    ⟨hfv, hfr⟩, hfq, hft⟩

/-- The newest entry goes to the end of the queue, past a ring without its thread. -/
theorem chain_push (h : InCallOrder (f ++ (v ++ (q ++ (r ++ n)))))
    (h' : InCallOrder (f ++ (v ++ (q ++ (r ++ t)))))
    (hr : ∀ x ∈ n, ∀ y ∈ r, x.thread ≠ y.thread) (ht : ∀ x ∈ n, ∀ y ∈ t, x.thread ≠ y.thread) :
    InCallOrder (f ++ (v ++ ((q ++ n) ++ (r ++ t)))) := by
  simp only [inCallOrder_append, before_append_left, before_append_right] at h h' ⊢
  obtain ⟨-, ⟨-, ⟨-, ⟨-, hn, hrn⟩, -, hqn⟩, -, -, hvn⟩, -, -, -, hfn⟩ := h
  obtain ⟨hf, ⟨hv, ⟨hq, ⟨hr', ht', hrt⟩, hqr, hqt⟩, hvq, hvr, hvt⟩, hfv, hfq, hfr, hft⟩ := h'
  exact ⟨hf, ⟨hv, ⟨⟨hq, hn, hqn⟩, ⟨hr', ht', hrt⟩, ⟨hqr, before_of_ne hr⟩, hqt, before_of_ne ht⟩,
    ⟨hvq, hvn⟩, hvr, hvt⟩, hfv, ⟨hfq, hfn⟩, hfr, hft⟩

/-- The newest entry goes to the end of the ring. -/
theorem chain_spill (h : InCallOrder (f ++ (v ++ (q ++ (r ++ n)))))
    (h' : InCallOrder (f ++ (v ++ (q ++ (r ++ t)))))
    (ht : ∀ x ∈ n, ∀ y ∈ t, x.thread ≠ y.thread) :
    InCallOrder (f ++ (v ++ (q ++ ((r ++ n) ++ t)))) := by
  simp only [inCallOrder_append, before_append_left, before_append_right] at h h' ⊢
  obtain ⟨-, ⟨-, ⟨-, ⟨-, hn, hrn⟩, -, hqn⟩, -, -, hvn⟩, -, -, -, hfn⟩ := h
  obtain ⟨hf, ⟨hv, ⟨hq, ⟨hr, ht', hrt⟩, hqr, hqt⟩, hvq, hvr, hvt⟩, hfv, hfq, hfr, hft⟩ := h'
  exact ⟨hf, ⟨hv, ⟨hq, ⟨⟨hr, hn, hrn⟩, ht', hrt, before_of_ne ht⟩, ⟨hqr, hqn⟩, hqt⟩,
    hvq, ⟨hvr, hvn⟩, hvt⟩, hfv, hfq, ⟨hfr, hfn⟩, hft⟩

/-- Fewer entries are in order, too. -/
theorem chain_drop (h : InCallOrder (f ++ (v ++ (q ++ (r ++ t))))) {q' r' t' : List (LogCall ι ε)}
    (hq : q'.Sublist q) (hr : r'.Sublist r) (ht : t'.Sublist t) :
    InCallOrder (f ++ (v ++ (q' ++ (r' ++ t')))) :=
  List.Pairwise.sublist
    ((List.Sublist.refl f).append ((List.Sublist.refl v).append (hq.append (hr.append ht)))) h

/-- An entry newer than all others goes to the end. -/
theorem chain_new (h : InCallOrder (f ++ (v ++ (q ++ (r ++ []))))) (hn : InCallOrder n)
    (hnew : Before (f ++ (v ++ (q ++ r))) n) : InCallOrder (f ++ (v ++ (q ++ (r ++ n)))) := by
  have hassoc : f ++ (v ++ (q ++ (r ++ n))) = (f ++ (v ++ (q ++ r))) ++ n := by
    simp only [List.append_assoc]
  rw [List.append_nil] at h
  rw [hassoc, inCallOrder_append]
  exact ⟨h, hn, hnew⟩

end Chain

/-! ### Each kind of step keeps the order -/

section Steps

variable [DecidableEq ι] {cap : ℕ} {s s' : State ι ε} {i : Thread ι}

/-- A step that touches neither buffer. -/
theorem Ordered.control (h : Ordered s) {a : Act ε} {c : Control ι ε}
    (hstep : Control.Step s.control i a c) (hmem : ∀ p, ∀ x ∈ s.contents p, x ∈ s.control.passed)
    (hord : InCallOrder c.passed) : Ordered { s with control := c } := by
  obtain ⟨w, hfile, hvec⟩ := hstep.writes
  obtain ⟨-, hnil, hpassed⟩ := hstep.passes
  rw [hpassed, inCallOrder_append] at hord
  obtain ⟨-, hhand, hbefore⟩ := hord
  have hsub : ∀ j, (c.pc j).vectors.Sublist (s.control.pc j).vectors := by
    intro j
    by_cases hji : j = i
    · rw [hji, hvec]; exact List.sublist_append_right _ _
    · rw [hstep.pc_of_ne hji]
  -- the old hands first: what is written moves to the file
  have hold : ∀ a b, InCallOrder (c.file ++ ((c.pc b).vectors ++
      (s.queue ++ (s.ring ++ (s.control.pc a).hand)))) := by
    intro a b
    have hi := h.chain a i
    rw [hvec, List.append_assoc] at hi
    by_cases hbi : b = i
    · rw [hbi, hfile, List.append_assoc]
      exact hi
    · rw [hfile, hstep.pc_of_ne hbi]
      refine chain_write ?_ (h.chain a b) fun x hx y hy => ?_
      · refine List.Pairwise.sublist ?_ hi
        exact (List.Sublist.refl _).append
          ((List.Sublist.refl _).append (List.sublist_append_right _ _))
      · refine h.apart i b (fun hib => hbi hib.symm) x ?_ y hy
        rw [hvec]
        exact List.mem_append_left _ hx
  have hnew : ∀ b, Before (c.file ++ ((c.pc b).vectors ++ (s.queue ++ s.ring))) (c.pc i).hand := by
    intro b x hx
    refine hbefore x ?_
    rw [hfile] at hx
    simp only [List.mem_append] at hx
    rcases hx with (hx | hx) | hx | hx | hx
    · exact hmem .file x hx
    · refine hmem (.vectors i) x ?_
      show x ∈ (s.control.pc i).vectors
      rw [hvec]
      exact List.mem_append_left _ hx
    · exact hmem (.vectors b) x ((hsub b).subset hx)
    · exact hmem .queue x hx
    · exact hmem .ring x hx
  refine ⟨fun a b => ?_, fun j k hjk x hx y hy => ?_⟩
  · by_cases hai : a = i
    · rw [hai]
      have hi := hold i b
      rw [hnil] at hi
      exact chain_new hi hhand (hnew b)
    · show InCallOrder (_ ++ (_ ++ (_ ++ (_ ++ (c.pc a).hand))))
      rw [hstep.pc_of_ne hai]
      exact hold a b
  · exact h.apart j k hjk x ((hsub j).subset hx) y ((hsub k).subset hy)

/-- Thread `i` moves to `p`, with the vectors it had. -/
theorem vectors_goto {p : Pc ι ε} (hp : p.vectors = (s.control.pc i).vectors) (j : Thread ι) :
    (update s.control.pc i p j).vectors = (s.control.pc j).vectors := by
  by_cases hji : j = i
  · rw [hji, update_self, hp]
  · rw [update_of_ne hji]

/-- The queue takes the entry of thread `i`. -/
theorem Ordered.queueTakes (h : Ordered s) (hspill : Spill s) {x : LogCall ι ε}
    (hpc : s.control.pc i = .queuePush x) :
    Ordered { s with control := s.control.goto i .release, queue := s.queue ++ [x] } := by
  have hhand : (s.control.pc i).hand = [x] := by rw [hpc]; rfl
  have hxi : x.thread = i := (hspill.owner i x (Or.inr (by rw [hhand]; simp))).1
  have hvec := vectors_goto (s := s) (i := i) (p := .release) (by rw [hpc]; rfl)
  have hring : ∀ y ∈ [x], ∀ z ∈ s.ring, y.thread ≠ z.thread := by
    intro y hy z hz hyz
    have hsp := hspill.spilled z hz
    rw [← hyz, List.mem_singleton.mp hy, hxi, hpc] at hsp
    exact hsp
  refine ⟨fun a b => ?_, fun j k hjk => ?_⟩
  · have hi := h.chain i b
    rw [hhand] at hi
    show InCallOrder (s.control.file ++ ((update s.control.pc i .release b).vectors ++
      ((s.queue ++ [x]) ++ (s.ring ++ (update s.control.pc i .release a).hand))))
    rw [hvec]
    by_cases hai : a = i
    · rw [hai, update_self]
      exact chain_push hi (chain_drop hi (List.Sublist.refl _) (List.Sublist.refl _)
        (List.nil_sublist _)) hring fun _ _ y hy => absurd hy List.not_mem_nil
    · rw [update_of_ne hai]
      refine chain_push hi (h.chain a b) hring fun y hy z hz => ?_
      rw [List.mem_singleton.mp hy, hxi, (hspill.owner a z (Or.inr hz)).1]
      exact Ne.symm hai
  · show ∀ x ∈ (update s.control.pc i .release j).vectors,
      ∀ y ∈ (update s.control.pc i .release k).vectors, _
    rw [hvec, hvec]
    exact h.apart j k hjk

/-- The ring takes the entry of thread `i`. -/
theorem Ordered.ringTakes (h : Ordered s) (hspill : Spill s) {x : LogCall ι ε}
    (hpc : s.control.pc i = .ringPush x) :
    Ordered { s with
      control := s.control.goto i (.queuePop .caller), ring := s.ring ++ [x] } := by
  have hhand : (s.control.pc i).hand = [x] := by rw [hpc]; rfl
  have hxi : x.thread = i := (hspill.owner i x (Or.inr (by rw [hhand]; simp))).1
  have hvec := vectors_goto (s := s) (i := i) (p := .queuePop .caller) (by rw [hpc]; rfl)
  refine ⟨fun a b => ?_, fun j k hjk => ?_⟩
  · have hi := h.chain i b
    rw [hhand] at hi
    show InCallOrder (s.control.file ++ ((update s.control.pc i (.queuePop .caller) b).vectors ++
      (s.queue ++ ((s.ring ++ [x]) ++ (update s.control.pc i (.queuePop .caller) a).hand))))
    rw [hvec]
    by_cases hai : a = i
    · rw [hai, update_self]
      exact chain_spill hi (chain_drop hi (List.Sublist.refl _) (List.Sublist.refl _)
        (List.nil_sublist _)) fun _ _ y hy => absurd hy List.not_mem_nil
    · rw [update_of_ne hai]
      refine chain_spill hi (h.chain a b) fun y hy z hz => ?_
      rw [List.mem_singleton.mp hy, hxi, (hspill.owner a z (Or.inr hz)).1]
      exact Ne.symm hai
  · show ∀ x ∈ (update s.control.pc i (.queuePop .caller) j).vectors,
      ∀ y ∈ (update s.control.pc i (.queuePop .caller) k).vectors, _
    rw [hvec, hvec]
    exact h.apart j k hjk

/-- A buffer refuses the entry of thread `i`. -/
theorem Ordered.refused (h : Ordered s) {c : Control ι ε} {p : Pc ι ε}
    (hfile : c.file = s.control.file) (hpc : c.pc = update s.control.pc i p)
    (hvec : p.vectors = (s.control.pc i).vectors)
    (hhand : p.hand.Sublist (s.control.pc i).hand) : Ordered { s with control := c } := by
  have hvec := vectors_goto hvec
  have hhand : ∀ a, (c.pc a).hand.Sublist (s.control.pc a).hand := by
    intro a
    rw [hpc]
    by_cases hai : a = i
    · rw [hai, update_self]; exact hhand
    · rw [update_of_ne hai]
  refine ⟨fun a b => ?_, fun j k hjk => ?_⟩
  · show InCallOrder (c.file ++ ((c.pc b).vectors ++ (s.queue ++ (s.ring ++ (c.pc a).hand))))
    rw [hfile, hpc, hvec, ← hpc]
    exact chain_drop (h.chain a b) (List.Sublist.refl _) (List.Sublist.refl _) (hhand a)
  · show ∀ x ∈ (c.pc j).vectors, ∀ y ∈ (c.pc k).vectors, _
    rw [hpc, hvec, hvec]
    exact h.apart j k hjk

/-- A flush takes more entries into its vectors: nobody else holds any of the same
threads. -/
theorem apart_of_takes (h : Ordered s) {l : List (LogCall ι ε)}
    (hpc : ∀ j, j ≠ i → s'.control.pc j = s.control.pc j)
    (hvec : ∀ x ∈ (s'.control.pc i).vectors, x ∈ (s.control.pc i).vectors ∨ x ∈ l)
    (hl : ∀ x ∈ l, ∀ j, j ≠ i → ∀ y ∈ (s.control.pc j).vectors, x.thread ≠ y.thread)
    (j k : Thread ι) (hjk : j ≠ k) :
    ∀ x ∈ (s'.control.pc j).vectors, ∀ y ∈ (s'.control.pc k).vectors, x.thread ≠ y.thread := by
  have hi : ∀ k, k ≠ i → ∀ x ∈ (s'.control.pc i).vectors, ∀ y ∈ (s.control.pc k).vectors,
      x.thread ≠ y.thread := by
    intro k hk x hx y hy
    rcases hvec x hx with hx | hx
    · exact h.apart i k (Ne.symm hk) x hx y hy
    · exact hl x hx k hk y hy
  intro x hx y hy
  by_cases hji : j = i
  · rw [hji] at hx hjk
    rw [hpc k (Ne.symm hjk)] at hy
    exact hi k (Ne.symm hjk) x hx y hy
  · rw [hpc j hji] at hx
    by_cases hki : k = i
    · rw [hki] at hy
      exact (hi j hji y hy x hx).symm
    · rw [hpc k hki] at hy
      exact h.apart j k hjk x hx y hy

/-- A flush takes the queue. -/
theorem Ordered.queuePop (h : Ordered s) (hturn : InTurn s i) {k : After}
    (hpc : s.control.pc i = .queuePop k) : Ordered (s.queuePop i k) := by
  have hself : ((s.queuePop i k).control.pc i).vectors = s.queue ∧
      ((s.queuePop i k).control.pc i).hand = [] := by
    show (update s.control.pc i _ i).vectors = _ ∧ (update s.control.pc i _ i).hand = _
    rw [update_self]
    cases k <;> exact ⟨by simp [Pc.vectors], rfl⟩
  have hne : ∀ j, j ≠ i → (s.queuePop i k).control.pc j = s.control.pc j :=
    fun j hji => update_of_ne hji _ _
  have hhand : ∀ a, ((s.queuePop i k).control.pc a).hand.Sublist (s.control.pc a).hand := by
    intro a
    by_cases hai : a = i
    · rw [hai, hself.2]; exact List.nil_sublist _
    · rw [hne a hai]
  refine ⟨fun a b => ?_, apart_of_takes h hne (l := s.queue) ?_ (hturn.queue k hpc)⟩
  · show InCallOrder (s.control.file ++ (((s.queuePop i k).control.pc b).vectors ++
      ([] ++ (s.ring ++ ((s.queuePop i k).control.pc a).hand))))
    by_cases hbi : b = i
    · have hi := h.chain a i
      rw [hpc] at hi
      have hi : InCallOrder (s.control.file ++ (s.queue ++
        ([] ++ (s.ring ++ (s.control.pc a).hand)))) := hi
      rw [hbi, hself.1]
      exact chain_drop hi (List.Sublist.refl _) (List.Sublist.refl _) (hhand a)
    · rw [hne b hbi]
      exact chain_drop (h.chain a b) (List.nil_sublist _) (List.Sublist.refl _) (hhand a)
  · intro x hx
    rw [hself.1] at hx
    exact Or.inr hx

/-- A flush takes the ring. -/
theorem Ordered.ringPop (h : Ordered s) (hturn : InTurn s i) {k : After}
    {qs : List (LogCall ι ε)} (hpc : s.control.pc i = .ringPop k qs) :
    Ordered (s.ringPop i k qs) := by
  have hself : (s.ringPop i k qs).control.pc i = .write k qs s.ring := update_self ..
  have hne : ∀ j, j ≠ i → (s.ringPop i k qs).control.pc j = s.control.pc j :=
    fun j hji => update_of_ne hji _ _
  have hhand : ∀ a, ((s.ringPop i k qs).control.pc a).hand.Sublist (s.control.pc a).hand := by
    intro a
    by_cases hai : a = i
    · rw [hai, hself]; exact List.nil_sublist _
    · rw [hne a hai]
  have htakes := fun x hx => (hturn.ring k qs hpc x hx).2
  refine ⟨fun a b => ?_, apart_of_takes h hne (l := s.ring) ?_ htakes⟩
  · show InCallOrder (s.control.file ++ (((s.ringPop i k qs).control.pc b).vectors ++
      (s.queue ++ ([] ++ ((s.ringPop i k qs).control.pc a).hand))))
    by_cases hbi : b = i
    · have hi := h.chain a i
      rw [hpc] at hi
      have hi := chain_swap hi fun x hx => (hturn.ring k qs hpc x hx).1
      have hi : InCallOrder (s.control.file ++ ((qs ++ s.ring) ++
        (s.queue ++ ([] ++ (s.control.pc a).hand)))) := hi
      rw [hbi, hself]
      exact chain_drop hi (List.Sublist.refl _) (List.Sublist.refl _) (hhand a)
    · rw [hne b hbi]
      exact chain_drop (h.chain a b) (List.Sublist.refl _) (List.nil_sublist _) (hhand a)
  · intro x hx
    rw [hself] at hx
    rw [hpc]
    exact List.mem_append.mp hx

/-- **Every step in turn keeps the order.** -/
theorem Step.ordered [Fintype ι] {a : Act ε} (hstep : Step cap s i a s') (hspill : Spill s)
    (hnum : s.control.Numbered) (hcons : s.Conserved) (hturn : InTurn s i) (h : Ordered s) :
    Ordered s' := by
  cases hstep with
  | control hc => exact h.control hc (fun p x hx => hcons.mem_passed hx) (hc.numbered hnum).ordered
  | queueTakes hpc _ => exact h.queueTakes hspill hpc
  | queueFull hpc _ =>
    exact h.refused rfl rfl (by rw [hpc]; rfl) (by rw [hpc]; exact List.Sublist.refl _)
  | ringTakes hpc _ => exact h.ringTakes hspill hpc
  | ringFull hpc _ => exact h.refused rfl rfl (by rw [hpc]; rfl) (List.nil_sublist _)
  | queuePop hpc => exact h.queuePop hturn hpc
  | ringPop hpc => exact h.ringPop hturn hpc

end Steps

/-- The positions of one thread's records are in the order of its calls. -/
theorem orderKept_of_inCallOrder {s : State ι ε} (h : InCallOrder s.control.file) :
    OrderKept s := by
  intro m n x y hm hn hthread hnumber
  obtain ⟨hm', rfl⟩ := List.getElem?_eq_some_iff.mp hm
  obtain ⟨hn', rfl⟩ := List.getElem?_eq_some_iff.mp hn
  by_contra hle
  rcases Nat.lt_or_eq_of_le (Nat.not_lt.mp hle) with hlt | rfl
  · have := List.pairwise_iff_getElem.mp h n m hn' hm' hlt hthread.symm
    omega
  · omega

/-- **Each thread's log order is kept** in every run in which entries are taken in
turn. -/
theorem orderKept [Fintype ι] [DecidableEq ι] {cap : ℕ} {s : State ι ε}
    (hs : Reachable (next cap) (fun s a => InTurn s a.1) (init ι ε) s) : OrderKept s := by
  have hboth : Spill s ∧ Ordered s := by
    refine hs.invariant (I := fun s => Spill s ∧ Ordered s) ⟨spill_init, ordered_init⟩ ?_
    rintro s ⟨i, a⟩ s' hs ⟨hspill, h⟩ hturn hnext
    have hstep : Step cap s i a s' := step_of_next hnext
    exact ⟨hstep.spill hspill,
      hstep.ordered hspill (numbered_of_reachable hs) (conserved_of_reachable hs) hturn h⟩
  cases hboth.2 with
  | mk chain _ => exact orderKept_of_inCallOrder (inCallOrder_append.mp (chain .writer .writer)).1

/-- Two entries, the second through the ring, and the flush that writes both. -/
theorem orderKept_one_flush :
    ∃ s : State (Fin 1) Char, s.control.file = [⟨.app 0, 0, 'a'⟩, ⟨.app 0, 1, 'b'⟩] ∧
      OrderKept s := by
  obtain ⟨s, hs, hp⟩ := exists_reachable_of_run (next 1) (init (Fin 1) Char)
    (fun s => decide (s.control.file = [⟨.app 0, 0, 'a'⟩, ⟨.app 0, 1, 'b'⟩]))
    (fun s a => decide (∀ j, j ≠ a.1 → (s.control.pc j).vectors = []) &&
      match s.control.pc a.1 with
      | .ringPop _ _ => decide (s.queue = [])
      | _ => true)
    (doing (.app 0) (.log .info 'a') 4
      ++ doing (.app 0) (.log .info 'b') 4
      ++ steps (.app 0) 5) (by decide +kernel)
  refine ⟨s, of_decide_eq_true hp, orderKept (hs.mono fun s a ha => ?_)⟩
  rw [Bool.and_eq_true] at ha
  have hquiet := of_decide_eq_true ha.1
  have hnone : ∀ (x : LogCall (Fin 1) Char) j, j ≠ a.1 → ∀ y ∈ (s.control.pc j).vectors,
      x.thread ≠ y.thread := by
    intro x j hj y hy
    rw [hquiet j hj] at hy
    exact absurd hy List.not_mem_nil
  refine ⟨fun _ _ x _ => hnone x, fun _ _ hpc x _ => ⟨fun y hy => ?_, hnone x⟩⟩
  have hempty := ha.2
  rw [hpc] at hempty
  rw [of_decide_eq_true hempty] at hy
  exact absurd hy List.not_mem_nil

/-- **Two records in the wrong order.**  The writer has taken the first entry when
the thread logs the second and flushes it. -/
theorem not_orderKept_overlap :
    ∃ s : State (Fin 1) Char, Reachable (next 2) Always (init (Fin 1) Char) s ∧
      ¬ OrderKept s := by
  obtain ⟨s, hs, hfile⟩ := exists_reachable_of_decide (next 2) (init (Fin 1) Char)
    (fun s => s.control.file = [⟨.app 0, 1, 'b'⟩, ⟨.app 0, 0, 'a'⟩])
    Always
    (doing (.app 0) (.log .info 'a') 4
      ++ steps .writer 4
      ++ doing (.app 0) (.log .info 'b') 4
      ++ doing (.app 0) .flush 4
      ++ steps .writer 2) (by decide +kernel)
  refine ⟨s, hs, fun h => ?_⟩
  have := h 1 0 ⟨.app 0, 0, 'a'⟩ ⟨.app 0, 1, 'b'⟩ (by rw [hfile]; rfl) (by rw [hfile]; rfl)
    rfl (by decide)
  omega

end Atomic
end AsyncLogger
end SpeckitLog
