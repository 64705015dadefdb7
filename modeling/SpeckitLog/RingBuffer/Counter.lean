import SpeckitLog.RingBuffer.Invariant

/-!
# The size counter of the ring buffer

`tryPush` raises `size_` before it knows whether there is room, and lowers it again
when there was none.  `popAll` exchanges `size_` for zero.  When an exchange comes
between the raise and the lowering, it takes one entry too many, and the lowering then
takes `size_` below zero.  Without that, the counter is right.

## Main definitions

* `Counts` — the counters as a machine of its own, with the moves `Counts.Move`.
* `CountClear` — an exchange finds no overshot raise that is not undone.
* `SizeSound` — what the counter should be.

## Main results

* `Step.counts` — **a step of a thread is a move of the counters.**
* `sizeSound` — **the counter in runs whose exchanges find no overshoot.**
* `not_sizeSound_overshot` — a run in which one does.
-/

namespace SpeckitLog
namespace RingBuffer

open Function Transition Call

/-! ### The counters as a machine -/

/-- `size_`, the sum of the counts taken, the indices drawn, and the raises that have
yet to draw an index or to be undone. -/
structure Counts where
  size : ℕ
  taken : ℕ
  drawn : ℕ
  reserving : ℕ
  overshooting : ℕ

namespace Counts

/-- What can happen to the counters. -/
inductive Move
  | stay
  /-- `size_` is raised. -/
  | raise
  /-- A raise past the capacity is undone. -/
  | undo
  /-- An index is drawn. -/
  | draw
  /-- `size_` is exchanged for zero. -/
  | take

variable {c : Counts} {m : Move} {cap : ℕ}

/-- The counters after a move. -/
def apply (cap : ℕ) (c : Counts) : Move → Counts
  | .stay => c
  | .raise => { c with
      size := wrap (c.size + 1)
      reserving := c.reserving + if cap ≤ c.size then 0 else 1
      overshooting := c.overshooting + if cap ≤ c.size then 1 else 0 }
  | .undo => { c with size := wsub c.size 1, overshooting := c.overshooting - 1 }
  | .draw => { c with drawn := c.drawn + 1, reserving := c.reserving - 1 }
  | .take => { c with size := 0, taken := c.taken + c.size }

theorem apply_raise_of_full (h : cap ≤ c.size) : c.apply cap .raise =
    { c with size := wrap (c.size + 1), overshooting := c.overshooting + 1 } := by
  simp only [apply, if_pos h, Nat.add_zero]

theorem apply_raise_of_room (h : c.size < cap) : c.apply cap .raise =
    { c with size := wrap (c.size + 1), reserving := c.reserving + 1 } := by
  simp only [apply, if_neg (Nat.not_le.mpr h), Nat.add_zero]

/-- There is a raise to undo, or to draw an index for. -/
def Enabled (c : Counts) : Move → Prop
  | .undo => 0 < c.overshooting
  | .draw => 0 < c.reserving
  | _ => True

/-- The raise does not wrap, and a count is taken when no overshot raise is counted. -/
def Clear (c : Counts) : Move → Prop
  | .raise => c.size + 1 < sizeModulus
  | .take => c.overshooting = 0
  | _ => True

/-- `size_` is the number of raises that were not undone and not taken, of which at
most `cap` have, or will have, an index. -/
structure Sound (cap : ℕ) (c : Counts) : Prop where
  size_lt : c.size < sizeModulus
  size_eq : c.size + c.taken = c.drawn + c.reserving + c.overshooting
  taken_le : c.taken ≤ c.drawn + c.reserving
  room : c.drawn + c.reserving ≤ c.taken + cap

/-- **Every clear move keeps the counters sound.** -/
theorem Sound.apply (h : c.Sound cap) (hm : c.Enabled m) (hclear : c.Clear m) :
    (c.apply cap m).Sound cap := by
  obtain ⟨hlt, heq, htaken, hroom⟩ := h
  cases m with
  | stay => exact ⟨hlt, heq, htaken, hroom⟩
  | raise =>
    have hwrap : wrap (c.size + 1) = c.size + 1 := wrap_of_lt hclear
    constructor <;> simp only [Counts.apply]
    · exact wrap_lt _
    · rw [hwrap]; split <;> omega
    · omega
    · split <;> omega
  | undo =>
    have hpos : 0 < c.overshooting := hm
    have hsub : wsub c.size 1 = c.size - 1 := wsub_of_le (by omega)
    constructor <;> simp only [Counts.apply] <;> omega
  | draw =>
    have hpos : 0 < c.reserving := hm
    constructor <;> simp only [Counts.apply] <;> omega
  | take =>
    have hnone : c.overshooting = 0 := hclear
    constructor <;> simp only [Counts.apply] <;> omega

/-- What an exchange takes, and what an undo finds. -/
theorem Sound.size_le (h : c.Sound cap) (hnone : c.overshooting = 0) : c.size ≤ cap := by
  have heq := h.size_eq
  have hroom := h.room
  omega

theorem Sound.overshooting_le (h : c.Sound cap) : c.overshooting ≤ c.size := by
  have heq := h.size_eq
  have htaken := h.taken_le
  omega

end Counts

/-! ### The threads move the counters -/

variable {ι α : Type*}

deriving instance DecidableEq for Drain

deriving instance DecidableEq for Pc

/-- **The counter is clear** in the step of thread `i`: an exchange comes when no
`tryPush` has overshot the capacity and not lowered `size_` again, and a raise finds
`size_` below its maximum. -/
structure CountClear (s : State ι α) (i : ι) : Prop where
  exchange : s.pc i = .exchange → ∀ j, ¬ 0 < (s.pc j).overshooting
  raise : ∀ e, s.pc i = .addSize e → s.size + 1 < sizeModulus

/-- The count that a running `popAll` took from its exchange. -/
def Pc.oldSize : Pc α → Option ℕ
  | .loadTail n => some n
  | .read d | .storeTail d => some d.oldSize
  | _ => none

section Counts

variable [Fintype ι]

/-- The counters of a buffer. -/
def State.counts (s : State ι α) : Counts where
  size := s.size
  taken := s.taken
  drawn := s.tickets.length
  reserving := ∑ j, (s.pc j).reserving
  overshooting := ∑ j, (s.pc j).overshooting

theorem sound_init (cap : ℕ) (dflt : α) : (init ι dflt).counts.Sound cap := by
  constructor <;>
    simp [State.counts, init, Pc.reserving, Pc.overshooting, sizeModulus_eq]

variable [DecidableEq ι] {cap : ℕ} {s s' : State ι α} {i : ι} {a : Act α} {p : Pc α}

/-- A step that leaves the counters. -/
theorem counts_eq (hsize : s'.size = s.size) (htaken : s'.taken = s.taken)
    (htick : s'.tickets = s.tickets) (hpc : s'.pc = update s.pc i p)
    (hr : p.reserving = (s.pc i).reserving) (ho : p.overshooting = (s.pc i).overshooting) :
    s'.counts = s.counts := by
  unfold State.counts
  rw [hsize, htaken, htick, hpc, sum_update_of_eq s.pc Pc.reserving i hr,
    sum_update_of_eq s.pc Pc.overshooting i ho]

/-- **A step of a thread is a move of the counters**, and a clear one if the step is. -/
theorem Step.counts (hstep : Step cap s i a s') :
    ∃ m, s'.counts = s.counts.apply cap m ∧ s.counts.Enabled m ∧
      (CountClear s i → s.counts.Clear m) := by
  have hstay : s'.counts = s.counts → ∃ m, s'.counts = s.counts.apply cap m ∧
      s.counts.Enabled m ∧ (CountClear s i → s.counts.Clear m) := fun heq =>
    ⟨.stay, heq, trivial, fun _ => trivial⟩
  cases hstep with
  | @addSize e hpc =>
    refine ⟨.raise, ?_, trivial, fun hclear => hclear.raise e hpc⟩
    have hr := reserving_update hpc (if cap ≤ s.size then .subSize else .addHead e)
    have ho := overshooting_update hpc (if cap ≤ s.size then .subSize else .addHead e)
    by_cases hfull : cap ≤ s.size
    · rw [Counts.apply_raise_of_full hfull]
      simp only [if_pos hfull] at hr ho
      simp only [State.counts, State.addSize, if_pos hfull, Counts.mk.injEq, true_and]
      exact ⟨hr, ho⟩
    · rw [Counts.apply_raise_of_room (Nat.not_le.mp hfull)]
      simp only [if_neg hfull] at hr ho
      simp only [State.counts, State.addSize, if_neg hfull, Counts.mk.injEq, true_and]
      exact ⟨hr, ho⟩
  | subSize hpc =>
    have hr := reserving_update hpc (.pushed false)
    have ho := overshooting_update hpc (.pushed false)
    change _ + 0 = _ + 0 at hr
    change _ + 1 = _ + 0 at ho
    refine ⟨.undo, ?_, ?_, fun _ => trivial⟩
    · simp only [State.counts, State.subSize, Counts.apply, Counts.mk.injEq, true_and]
      omega
    · show 0 < ∑ j, (s.pc j).overshooting
      omega
  | @addHead e hpc =>
    have hr := reserving_update hpc (.store e s.head)
    have ho := overshooting_update hpc (.store e s.head)
    change _ + 1 = _ + 0 at hr
    change _ + 0 = _ + 0 at ho
    refine ⟨.draw, ?_, ?_, fun _ => trivial⟩
    · simp only [State.counts, State.addHead, Counts.apply, Counts.mk.injEq, true_and,
        List.length_append, List.length_singleton]
      omega
    · show 0 < ∑ j, (s.pc j).reserving
      omega
  | exchange hpc =>
    refine ⟨.take, ?_, trivial, fun hclear => ?_⟩
    · simp only [State.counts, State.exchange, Counts.apply, Counts.mk.injEq, true_and]
      exact ⟨sum_update_of_eq s.pc Pc.reserving i (by rw [hpc]; split <;> rfl),
        sum_update_of_eq s.pc Pc.overshooting i (by rw [hpc]; split <;> rfl)⟩
    · exact Finset.sum_eq_zero fun j _ => Nat.eq_zero_of_not_pos (hclear.exchange hpc j)
  | read hpc =>
    exact hstay (counts_eq rfl rfl rfl rfl (by rw [hpc]; dsimp only; split <;> rfl)
      (by rw [hpc]; dsimp only; split <;> rfl))
  | full hpc _ | room hpc _ =>
    exact hstay (counts_eq rfl rfl rfl rfl (by rw [hpc]; rfl) (by rw [hpc]; rfl))
  | _ hpc => exact hstay (counts_eq rfl rfl rfl rfl (by rw [hpc]; rfl) (by rw [hpc]; rfl))

/-- **A count that is taken is at most the capacity.** -/
theorem Step.oldSize_le (hstep : Step cap s i a s') (hclear : CountClear s i)
    (hsound : s.counts.Sound cap) (h : ∀ j n, (s.pc j).oldSize = some n → n ≤ cap) (j : ι)
    (n : ℕ) (hn : (s'.pc j).oldSize = some n) : n ≤ cap := by
  by_cases hji : j = i
  · subst hji
    have hself : ∀ {p : Pc α}, s'.pc j = p → p.oldSize = none → n ≤ cap := fun hp hnone => by
      rw [hp, hnone] at hn
      contradiction
    have hkept : (s'.pc j).oldSize = (s.pc j).oldSize → n ≤ cap := fun heq =>
      h j n (heq.symm.trans hn)
    cases hstep with
    | exchange hpc =>
      have hnone : s.counts.overshooting = 0 :=
        Finset.sum_eq_zero fun k _ => Nat.eq_zero_of_not_pos (hclear.exchange hpc k)
      have hle : s.size ≤ cap := hsound.size_le hnone
      have hn : (update s.pc j _ j).oldSize = some n := hn
      rw [update_self] at hn
      split at hn
      · contradiction
      · exact Option.some.inj hn ▸ hle
    | loadTail hpc =>
      refine hkept ?_
      show (update s.pc j _ j).oldSize = _
      rw [update_self, hpc]
      rfl
    | read hpc =>
      refine hkept ?_
      show (update s.pc j _ j).oldSize = _
      rw [update_self, hpc]
      dsimp only
      split <;> rfl
    | addSize hpc => exact hself (update_self ..) (by split <;> rfl)
    | _ => exact hself (update_self ..) rfl
  · rw [hstep.pc_of_ne hji] at hn
    exact h j n hn

end Counts

/-! ### What was stored and what was popped -/

/-- The thread drew an index and has not written its slot. -/
def Pc.storing : Pc α → ℕ
  | .store _ _ => 1
  | _ => 0

/-- The entries that a running `popAll` took from `size_` and has not returned. -/
def Pc.held : Pc α → ℕ
  | .loadTail n => n
  | .read d => d.oldSize - d.i + d.entries.length
  | .storeTail d => d.entries.length
  | .popped r => r.length
  | _ => 0

/-- A drain has something to read. -/
def Pc.Reading : Pc α → Prop
  | .loadTail n => 0 < n
  | .read d => d.i < d.oldSize
  | _ => True

/-- **Every index drawn is stored or will be, every count taken is returned or will be.** -/
structure Accounted [Fintype ι] (s : State ι α) : Prop where
  drawn : s.tickets.length = s.stored.length + ∑ j, (s.pc j).storing
  taken : s.taken = s.returned.length + ∑ j, (s.pc j).held
  reading : ∀ j, (s.pc j).Reading

section Accounted

variable [Fintype ι] {cap : ℕ} {s s' : State ι α} {i : ι} {a : Act α} {p : Pc α}

theorem accounted_init (dflt : α) : Accounted (init ι dflt) where
  drawn := by simp [init, Pc.storing]
  taken := by simp [init, Pc.held]
  reading _ := trivial

variable [DecidableEq ι]

/-- A step accounts for what it changes. -/
theorem Accounted.step (h : Accounted s) (hpc : s'.pc = update s.pc i p)
    (hdrawn : s'.tickets.length + s.stored.length + (s.pc i).storing
      = s.tickets.length + s'.stored.length + p.storing)
    (htaken : s'.taken + s.returned.length + (s.pc i).held
      = s.taken + s'.returned.length + p.held) (hp : p.Reading) : Accounted s' := by
  obtain ⟨hd, ht, hr⟩ := h
  have hst := sum_update_add s.pc Pc.storing i p
  have hh := sum_update_add s.pc Pc.held i p
  refine ⟨by rw [hpc]; omega, by rw [hpc]; omega, fun j => ?_⟩
  rw [hpc]
  by_cases hji : j = i
  · rw [hji, update_self]; exact hp
  · rw [update_of_ne hji]; exact hr j

/-- **Every step accounts for what it changes.** -/
theorem Step.accounted (hstep : Step cap s i a s') (h : Accounted s) : Accounted s' := by
  have hread := h.reading i
  cases hstep with
  | addSize hpc =>
    exact h.step rfl (by rw [hpc]; split <;> rfl) (by rw [hpc]; split <;> rfl)
      (by split <;> trivial)
  | addHead hpc =>
    refine h.step rfl ?_ (by rw [hpc]; rfl) trivial
    simp only [hpc, State.addHead, Pc.storing, List.length_append, List.length_singleton]
    omega
  | store hpc =>
    refine h.step rfl ?_ (by rw [hpc]; rfl) trivial
    simp only [hpc, State.store, Pc.storing, List.length_append, List.length_singleton]
    omega
  | exchange hpc =>
    refine h.step rfl (by rw [hpc]; split <;> rfl) ?_ ?_
    · rw [hpc]
      show s.taken + s.size + s.returned.length + 0 = s.taken + s.returned.length + _
      split
      · next hz => rw [hz]; rfl
      · show _ = s.taken + s.returned.length + s.size
        omega
    · split
      · trivial
      · next hz => exact Nat.pos_of_ne_zero hz
  | loadTail hpc =>
    rw [hpc] at hread
    exact h.step rfl (by rw [hpc]; rfl) (by rw [hpc]; rfl) hread
  | @read d hpc =>
    rw [hpc] at hread
    have hread : d.i < d.oldSize := hread
    refine h.step rfl (by rw [hpc]; dsimp only; split <;> rfl) ?_ ?_
    · rw [hpc]
      show s.taken + s.returned.length + (d.oldSize - d.i + d.entries.length)
        = s.taken + s.returned.length + _
      dsimp only
      split
      · simp only [Pc.held, List.length_append, List.length_singleton]
        omega
      · simp only [Pc.held, List.length_append, List.length_singleton]
        omega
    · dsimp only
      split
      · next hmore => exact hmore
      · trivial
  | storeTail hpc => exact h.step rfl (by rw [hpc]; rfl) (by rw [hpc]; rfl) trivial
  | returnPop hpc =>
    refine h.step rfl (by rw [hpc]; rfl) ?_ trivial
    simp only [hpc, State.returnPop, Pc.held, List.length_append]
    omega
  | full hpc _ | room hpc _ => exact h.step rfl (by rw [hpc]; rfl) (by rw [hpc]; rfl) trivial
  | _ hpc => exact h.step rfl (by rw [hpc]; rfl) (by rw [hpc]; rfl) trivial

end Accounted

/-! ### The counter -/

/-- **What the counter should be**: a count that `popAll` took is at most the capacity,
a lowering finds something to lower, and when no call is running `size_` is the number
of entries stored and not popped, and at most the capacity. -/
structure SizeSound (cap : ℕ) (s : State ι α) : Prop where
  taken_le : ∀ i n, (s.pc i).oldSize = some n → n ≤ cap
  pos : ∀ i, s.pc i = .subSize → 0 < s.size
  quiet : (∀ i, s.pc i = .idle) → s.returned.length + s.size = s.stored.length ∧ s.size ≤ cap

section Sound

variable [Fintype ι] [DecidableEq ι] {cap : ℕ} {dflt : α} {s : State ι α}

theorem accounted_of_reachable {ok : State ι α → ι × Act α → Prop}
    (hs : Reachable (next cap) ok (init ι dflt) s) : Accounted s := by
  refine hs.invariant (accounted_init dflt) ?_
  rintro s ⟨i, a⟩ s' - h - hnext
  exact (step_of_next hnext).accounted h

/-- **The counter is right** in every run of any number of threads, pushing and popping,
whose exchanges find no overshot raise that is not undone. -/
theorem sizeSound (hs : Reachable (next cap) (fun s a => CountClear s a.1) (init ι dflt) s) :
    SizeSound cap s := by
  have hboth : s.counts.Sound cap ∧ ∀ i n, (s.pc i).oldSize = some n → n ≤ cap := by
    refine hs.invariant
      (I := fun s => s.counts.Sound cap ∧ ∀ i n, (s.pc i).oldSize = some n → n ≤ cap)
      ⟨sound_init cap dflt, fun i n h => by simp [init, Pc.oldSize] at h⟩ ?_
    rintro s ⟨i, a⟩ s' - ⟨hsound, htaken⟩ hclear hnext
    have hstep : Step cap s i a s' := step_of_next hnext
    obtain ⟨m, hm, henabled, hmove⟩ := hstep.counts
    refine ⟨?_, hstep.oldSize_le hclear hsound htaken⟩
    rw [hm]
    exact hsound.apply henabled (hmove hclear)
  obtain ⟨hsound, htaken⟩ := hboth
  refine ⟨htaken, fun i hpc => ?_, fun hidle => ?_⟩
  · have hone : (s.pc i).overshooting ≤ ∑ j, (s.pc j).overshooting :=
      Finset.single_le_sum (f := fun j => (s.pc j).overshooting) (fun _ _ => Nat.zero_le _)
        (Finset.mem_univ i)
    rw [hpc] at hone
    exact Nat.lt_of_lt_of_le hone hsound.overshooting_le
  · have hzero : ∀ w : Pc α → ℕ, w .idle = 0 → ∑ j, w (s.pc j) = 0 := fun w hw =>
      Finset.sum_eq_zero fun j _ => by rw [hidle, hw]
    have hover : s.counts.overshooting = 0 := hzero Pc.overshooting rfl
    have hres : s.counts.reserving = 0 := hzero Pc.reserving rfl
    have hacc := accounted_of_reachable hs
    have hdrawn := hacc.drawn
    have htaken := hacc.taken
    rw [hzero Pc.storing rfl] at hdrawn
    rw [hzero Pc.held rfl] at htaken
    have heq : s.size + s.taken = s.tickets.length + s.counts.reserving + s.counts.overshooting :=
      hsound.size_eq
    exact ⟨by omega, hsound.size_le hover⟩

end Sound

instance [Fintype ι] (s : State ι α) (i : ι) : Decidable (CountClear s i) :=
  match hpc : s.pc i with
  | .exchange => decidable_of_iff (∀ j, ¬ 0 < (s.pc j).overshooting)
      ⟨fun h => ⟨fun _ => h, fun e he => by rw [hpc] at he; contradiction⟩,
        fun h => h.exchange hpc⟩
  | .addSize e => decidable_of_iff (s.size + 1 < sizeModulus)
      ⟨fun h => ⟨fun hx => by rw [hpc] at hx; contradiction, fun _ _ => h⟩,
        fun h => h.raise e hpc⟩
  | .idle | .loadSize _ | .subSize | .addHead _ | .store _ _ | .pushed _ | .loadTail _ | .read _
  | .storeTail _ | .popped _ =>
    isTrue ⟨fun hx => by rw [hpc] at hx; contradiction, fun e he => by rw [hpc] at he; contradiction⟩

/-- A push that overshoots, is undone and refused, between another push and a drain. -/
theorem sizeSound_refused : ∃ s : State (Fin 3) Char, s.returns = [(0, 0, true), (1, 0, false)] ∧
    s.returned = ['a'] ∧ SizeSound 1 s := by
  obtain ⟨s, hs, hreturns, hreturned⟩ := exists_reachable_of_decide (next 1) (init (Fin 3) '-')
    (fun s => s.returns = [(0, 0, true), (1, 0, false)] ∧ s.returned = ['a'])
    (fun s a => CountClear s a.1)
    (doing 0 (.push 'a') 1 ++ doing 1 (.push 'b') 1 ++ List.replicate 4 (0, .step)
      ++ List.replicate 3 (1, .step) ++ doing 2 .pop 5) (by decide +kernel)
  exact ⟨s, hreturns, hreturned, sizeSound hs⟩

/-- **An exchange that takes an overshot raise.**  Threads `0` and `1` have both found
room and raised `size_` when thread `2` takes the count `2` of a buffer of one slot;
thread `1` then lowers `size_` below zero, and it stays `2 ^ 64 - 1`. -/
theorem not_sizeSound_overshot : ¬ ∀ s : State (Fin 3) Char,
    Reachable (next 1) Always (init (Fin 3) '-') s → SizeSound 1 s := by
  intro hall
  obtain ⟨s, hs, hidle, hsize⟩ := exists_reachable_of_decide (next 1) (init (Fin 3) '-')
    (fun s => (∀ i, s.pc i = .idle) ∧ s.size = sizeModulus - 1) Always
    (doing 0 (.push 'a') 1 ++ doing 1 (.push 'b') 1 ++ List.replicate 4 (0, .step)
      ++ [(1, .step)] ++ doing 2 .pop 6 ++ List.replicate 2 (1, .step)) (by decide +kernel)
  have hle := ((hall s hs).quiet hidle).2
  rw [hsize] at hle
  exact absurd hle (by decide +kernel)

end RingBuffer
end SpeckitLog
