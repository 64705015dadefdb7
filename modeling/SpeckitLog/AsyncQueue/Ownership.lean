import SpeckitLog.AsyncQueue.Fifo

/-!
# Who owns a cell, and who waits for whom

A thread may touch the `storage` of a cell between passing the test of the cell's
`seq` and storing the new `seq`.  With one consumer these windows never overlap, and
`seq` tells what the cell is used for.  A producer finds its cell free at the first
look, so only the consumer ever waits, and always for a producer that can go on.

## Main definitions

* `Pc.window` — the cell whose `storage` a thread may touch.
* `State.FreeFor`, `State.Stored` — what a ticket's cell is used for.
* `CellOwnership` — what holds of the cells with one consumer.
* `FailedSpin` — the next step of the thread is a test of `seq` that fails.

## Main results

* `cellOwnership` — **the cells with one consumer.**
* `not_seq_succ_of_stored` — a stored entry is not published yet.
* `neverStuck` — **producers do not wait, and some thread can always go on.**
-/

namespace SpeckitLog
namespace AsyncQueue

open Function Transition Call

variable {ι α : Type*}

/-! ### Windows -/

/-- The cell whose `storage` the thread may touch: it has passed the test of the
cell's `seq`, and has not stored the new one. -/
def Pc.window (cap : ℕ) : Pc α → Option ℕ
  | .emplace _ t | .publish t => some (t % cap)
  | .testValue d | .moveOut d | .reset d | .freeSlot d => some (d.cell cap)
  | _ => none

/-- A window belongs to a ticket: to the producer that won it, or to the thread
that drains it. -/
theorem Inv.window {cap : ℕ} {s : State ι α} {ph : ℕ → Phase} {drainer : Option ι}
    (h : Inv cap s ph drainer) {i : ι} {k : ℕ} (hk : (s.pc i).window cap = some k) :
    ∃ t, s.head ≤ t ∧ t < s.head + cap ∧ t % cap = k ∧
      (((ph t).Unpublished ∧ ∃ n e, s.tickets[t]? = some ⟨i, n, e⟩) ∨
        (¬ (ph t).Unpublished ∧ drainer = some i)) := by
  have hok := h.pcs i
  have htl := h.tail_le
  have hwon : ∀ {t c}, s.tickets[t]? = some c → t < s.head + cap := fun hc =>
    Nat.lt_of_lt_of_le (List.getElem?_eq_some_iff.mp hc).1 htl
  have hdr := (h.drainer_iff i).mp
  cases hpc : s.pc i with
  | emplace e t =>
    rw [hpc] at hok hk
    obtain ⟨ht, hph, n, hn⟩ := hok
    exact ⟨t, ht, hwon hn, Option.some.inj hk, Or.inl ⟨by rw [hph]; trivial, n, e, hn⟩⟩
  | publish t =>
    rw [hpc] at hok hk
    obtain ⟨ht, hph, n, e, hn⟩ := hok
    exact ⟨t, ht, hwon hn, Option.some.inj hk, Or.inl ⟨by rw [hph]; trivial, n, e, hn⟩⟩
  | testValue d | moveOut d | reset d | freeSlot d =>
    rw [hpc] at hok hk hdr
    obtain ⟨hd, hi, hph, -⟩ := hok
    obtain ⟨hcell, hle, hltN, -⟩ := h.drain_cell hd hi
    exact ⟨d.ticket, hle, Nat.lt_of_lt_of_le hltN htl, hcell.symm.trans (Option.some.inj hk),
      Or.inr ⟨by rw [hph]; exact not_false, hdr trivial⟩⟩
  | _ =>
    rw [hpc] at hk
    exact absurd hk (by simp [Pc.window])

/-- **Windows are exclusive.** -/
theorem Inv.window_exclusive {cap : ℕ} {s : State ι α} {ph : ℕ → Phase} {drainer : Option ι}
    (h : Inv cap s ph drainer) {i j : ι} {k : ℕ} (hi : (s.pc i).window cap = some k)
    (hj : (s.pc j).window cap = some k) : i = j := by
  obtain ⟨t, ht, ht', htk, hti⟩ := h.window hi
  obtain ⟨u, hu, hu', huk, huj⟩ := h.window hj
  -- the two windows belong to one ticket
  obtain rfl : t = u := eq_of_mod_eq_of_window ht ht' hu hu' (htk.trans huk.symm)
  rcases hti with ⟨hun, n, e, hn⟩ | ⟨hpub, hdi⟩ <;> rcases huj with ⟨hun', m, e', hm⟩ | ⟨hpub', hdj⟩
  · rw [hn, Option.some.injEq] at hm
    exact congrArg Call.thread hm
  · exact absurd hun hpub'
  · exact absurd hun' hpub
  · exact Option.some.inj (hdi.symm.trans hdj)

/-- The `storage` of a cell changes in a step of the thread whose window it is. -/
theorem Step.window_of_storage [DecidableEq ι] {cap : ℕ} {s s' : State ι α} {i : ι} {a : Act α}
    (h : Step cap s i a s') {k : ℕ} (hk : (s'.buffer k).storage ≠ (s.buffer k).storage) :
    (s.pc i).window cap = some k := by
  have hcell : ∀ {m : ℕ} {cell : Cell α},
      (update s.buffer m cell k).storage ≠ (s.buffer k).storage →
        k = m ∧ cell.storage ≠ (s.buffer m).storage := by
    intro m cell hne
    by_cases hkm : k = m
    · rw [hkm, update_self] at hne
      exact ⟨hkm, hne⟩
    · rw [update_of_ne hkm] at hne
      exact absurd rfl hne
  cases h with
  | emplace hpc => rw [hpc, (hcell hk).1]; rfl
  | reset hpc => rw [hpc, (hcell hk).1]; rfl
  -- these two store `seq` only
  | publish hpc | freeSlot hpc => exact absurd rfl (hcell hk).2
  | _ => exact absurd rfl hk

/-! ### What `seq` tells -/

/-- The thread won ticket `t` and has not stored its entry. -/
def Pc.Filling (t : ℕ) : Pc α → Prop
  | .awaitFree _ u | .emplace _ u => u = t
  | _ => False

instance (t : ℕ) (p : Pc α) : Decidable (p.Filling t) :=
  match p with
  | .awaitFree _ u | .emplace _ u => inferInstanceAs (Decidable (u = t))
  | .idle | .loadTail _ | .loadHead _ _ | .cas _ _ | .publish _ | .addSize | .pushed _
  | .popLoadHead | .popLoadTail _ | .awaitEntry _ | .testValue _ | .moveOut _ | .reset _
  | .freeSlot _ | .storeHead _ | .subSize _ | .popped _ => inferInstanceAs (Decidable False)

/-- Ticket `t` is the next to use its cell, and the cell is free. -/
structure State.FreeFor (s : State ι α) (cap : ℕ) (c : ι) (t : ℕ) : Prop where
  freed : (s.pc c).freed s.head ≤ t
  next : t < (s.pc c).freed s.head + cap
  free : s.tickets.length ≤ t ∨ ∃ i, (s.pc i).Filling t

/-- Ticket `t` was won, and its entry has not been taken. -/
structure State.Live (s : State ι α) (t : ℕ) : Prop where
  won : t < s.tickets.length
  untaken : s.moved.length ≤ t

/-- The entry of ticket `t` is stored in its cell and not yet taken. -/
structure State.Stored (s : State ι α) (t : ℕ) : Prop extends s.Live t where
  stored : ∀ i, ¬ (s.pc i).Filling t

/-- The tickets below `freed` are recycled, and from the number of entries taken on
they are untouched. -/
theorem Inv.freed {cap : ℕ} {s : State ι α} {ph : ℕ → Phase} {drainer : Option ι}
    (h : Inv cap s ph drainer) {c : ι} (hone : OneConsumer s c) :
    s.head ≤ (s.pc c).freed s.head ∧ (s.pc c).freed s.head ≤ s.moved.length ∧
      s.moved.length ≤ s.tickets.length ∧
      (∀ t, s.head ≤ t → t < (s.pc c).freed s.head → ph t = .recycled) ∧
      ∀ t, s.moved.length ≤ t → t < s.head + cap → (ph t).Pending := by
  by_cases hdr : (s.pc c).Draining
  · obtain ⟨k, hle, hfk, hk, hm, hrec, hpend⟩ := (h.pcs c).draining hdr
    have hlen : s.moved.length = k := by rw [hm, length_entries hk]
    rw [hlen]
    exact ⟨hle, hfk, hk, hrec, hpend⟩
  · -- nobody drains: the tickets below `head_` are gone, the others untouched
    have hnone : drainer = none := h.drainer_eq_none fun j hj => by
      obtain rfl := hone.alone j hj.popping
      exact hdr hj
    obtain ⟨hpend, hm⟩ := h.quiet hnone
    have hf : (s.pc c).freed s.head = s.head := by
      cases hpc : s.pc c <;> first | rfl | (rw [hpc] at hdr; exact absurd trivial hdr)
    have hlen : s.moved.length = s.head := by rw [hm, length_entries h.head_le]
    rw [hf, hlen]
    exact ⟨le_rfl, le_rfl, h.head_le, fun t ht ht' => by omega, hpend⟩

section Inv

variable {cap : ℕ} {s : State ι α} {ph : ℕ → Phase} {drainer : Option ι}

/-- What the tickets of producers that have yet to store or publish look like. -/
theorem Inv.filling (h : Inv cap s ph drainer) {i : ι} {t : ℕ} (hi : (s.pc i).Filling t) :
    s.head ≤ t ∧ t < s.tickets.length ∧ ph t = .reserved := by
  have hok := h.pcs i
  cases hpc : s.pc i with
  | awaitFree e u | emplace e u =>
    rw [hpc] at hok hi
    obtain rfl : u = t := hi
    obtain ⟨hle, hph, n, hn⟩ := hok
    exact ⟨hle, (List.getElem?_eq_some_iff.mp hn).1, hph⟩
  | _ =>
    rw [hpc] at hi
    exact hi.elim

theorem Inv.publishing (h : Inv cap s ph drainer) {i : ι} {t : ℕ} (hi : s.pc i = .publish t) :
    s.head ≤ t ∧ t < s.tickets.length ∧ ph t = .filled := by
  have hok := h.pcs i
  rw [hi] at hok
  obtain ⟨hle, hph, n, e, hn⟩ := hok
  exact ⟨hle, (List.getElem?_eq_some_iff.mp hn).1, hph⟩

/-- The cell that ticket `t` is the next to use. -/
theorem Inv.cell_of_freeFor (h : Inv cap s ph drainer) {c : ι} (hone : OneConsumer s c) {t : ℕ}
    (hfree : s.FreeFor cap c t) : s.buffer (t % cap) = ⟨wrap t, none⟩ := by
  obtain ⟨hhead, hmoved, hwon, hrec, -⟩ := h.freed hone
  obtain ⟨hf, hn, hcase⟩ := hfree
  have htl := h.tail_le
  by_cases hw : t < s.head + cap
  · -- a ticket of this lap: not handed out, or won and not filled
    have hphase : ph t = .free ∨ ph t = .reserved := by
      rcases hcase with hlen | ⟨i, hi⟩
      · exact Or.inl ((h.free_iff t (hhead.trans hf) hw).mpr hlen)
      · exact Or.inr (h.filling hi).2.2
    rw [h.cells t (hhead.trans hf) hw]
    rcases hphase with hp | hp <;> rw [hp] <;> rfl
  · -- a ticket of the next lap: its cell was recycled for it
    have hold : s.buffer ((t - cap) % cap) = cellOf cap s.tickets (t - cap) .recycled := by
      rw [h.cells (t - cap) (by omega) (by omega), hrec _ (by omega) (by omega)]
    have hmod : t % cap = (t - cap) % cap := by
      rw [← Nat.add_mod_right (t - cap), Nat.sub_add_cancel (by omega)]
    rw [hmod, hold, cellOf, Nat.sub_add_cancel (by omega)]

/-- The cell of a ticket whose entry is stored. -/
theorem Inv.cell_of_stored (h : Inv cap s ph drainer) {c : ι} (hone : OneConsumer s c) {t : ℕ}
    {a : Call ι α} (ha : s.tickets[t]? = some a) (hst : s.Stored t) :
    (∃ i, s.pc i = .publish t ∧ s.buffer (t % cap) = ⟨t, some a.entry⟩) ∨
      (∀ i, s.pc i ≠ .publish t) ∧ s.buffer (t % cap) = ⟨wrap (t + 1), some a.entry⟩ := by
  obtain ⟨hhead, hmoved, -, -, hpend⟩ := h.freed hone
  have hlt := hst.won
  have htl := h.tail_le
  have hle : s.head ≤ t := hhead.trans (hmoved.trans hst.untaken)
  have hcell := h.cells t hle (by omega)
  have hpend := hpend t hst.untaken (by omega)
  have hholder := h.holder t a ha hle
  cases hph : ph t with
  | free =>
    have := (h.free_iff t hle (by omega)).mp hph
    omega
  | reserved =>
    -- its producer would be filling the cell
    have hold := hholder (by rw [hph]; trivial)
    have hnot := hst.stored a.thread
    cases hpc : s.pc a.thread with
    | publish u =>
      rw [hpc] at hold
      obtain rfl : u = t := hold
      rw [(h.publishing hpc).2.2] at hph
      contradiction
    | _ =>
      rw [hpc] at hold hnot
      first | exact hold.elim | exact absurd hold hnot
  | filled =>
    have hold := hholder (by rw [hph]; trivial)
    have hnot := hst.stored a.thread
    have htM := h.tail_lt
    refine Or.inl ⟨a.thread, ?_, ?_⟩
    · cases hpc : s.pc a.thread with
      | publish u =>
        rw [hpc] at hold
        rw [show u = t from hold]
      | _ =>
        rw [hpc] at hold hnot
        first | exact hold.elim | exact absurd hold hnot
    · rw [hcell, hph, cellOf, ha, wrap_of_lt (by omega)]
      rfl
  | published =>
    refine Or.inr ⟨fun i hi => ?_, ?_⟩
    · rw [(h.publishing hi).2.2] at hph
      contradiction
    · rw [hcell, hph, cellOf, ha]
      rfl
  | moved | emptied | recycled =>
    rw [hph] at hpend
    exact hpend.elim

end Inv

/-! ### The cells with one consumer -/

/-- **What holds of the cells.**  `head_` and `tail_` are at most `cap` apart; the
windows of two threads are never on one cell, and only the thread whose window it is
changes a `storage`; `seq` is the ticket that the cell is free for, stays that until
the entry of the ticket is published, and is one more from then on until the entry is
taken; and a cell has one live ticket at most. -/
structure CellOwnership (cap : ℕ) (c : ι) (s : State ι α) [DecidableEq ι] : Prop where
  head_le_tail : s.head ≤ s.tail
  tail_le : s.tail ≤ s.head + cap
  exclusive : ∀ i j k, (s.pc i).window cap = some k → (s.pc j).window cap = some k → i = j
  undisturbed : ∀ i a s' k, next cap s (i, a) = some s' →
    (s'.buffer k).storage ≠ (s.buffer k).storage → ∀ j, (s.pc j).window cap = some k → j = i
  free : ∀ t, s.FreeFor cap c t → (s.buffer (t % cap)).seq = wrap t
  unpublished : ∀ t, s.Stored t → (∃ i, s.pc i = .publish t) → (s.buffer (t % cap)).seq = t
  published : ∀ t, s.Stored t → (∀ i, s.pc i ≠ .publish t) → (s.buffer (t % cap)).seq = t + 1
  storage : ∀ t a, s.tickets[t]? = some a → s.Stored t →
    (s.buffer (t % cap)).storage = some a.entry
  single : ∀ t u, s.Live t → s.Live u → t % cap = u % cap → t = u

/-- **The cells with one consumer**: any number of producers, any capacity, any
interleaving, as long as the counters stay below `2 ^ 64`. -/
theorem cellOwnership [DecidableEq ι] {cap : ℕ} {c : ι} {s : State ι α}
    (hs : Reachable (next cap) (SingleConsumer c) (init ι α) s)
    (hlt : s.tickets.length < sizeModulus) : CellOwnership cap c s := by
  have hone := oneConsumer_of_reachable hs
  obtain ⟨ph, drainer, h⟩ := inv_of_singleConsumer hs hlt
  obtain ⟨hhead, hmoved, -, -, -⟩ := h.freed hone
  have htail := h.tail_eq
  have htl := h.tail_le
  have hhl := h.head_le
  have hcall : ∀ {t}, s.Stored t → ∃ a, s.tickets[t]? = some a := fun hst =>
    ⟨_, List.getElem?_eq_getElem hst.won⟩
  have hlive : ∀ {t}, s.Live t → s.head ≤ t ∧ t < s.head + cap := fun ht => by
    have := ht.won
    have := ht.untaken
    omega
  refine ⟨by omega, by omega, fun i j k => h.window_exclusive, ?_, ?_, ?_, ?_, ?_, ?_⟩
  · intro i a s' k hnext hk j hj
    exact h.window_exclusive hj ((step_of_next hnext).window_of_storage hk)
  · intro t hfree
    rw [h.cell_of_freeFor hone hfree]
  · rintro t hst ⟨i, hi⟩
    obtain ⟨a, ha⟩ := hcall hst
    rcases h.cell_of_stored hone ha hst with ⟨-, -, hcell⟩ | ⟨hnone, -⟩
    · rw [hcell]
    · exact absurd hi (hnone i)
  · intro t hst hnone
    obtain ⟨a, ha⟩ := hcall hst
    have hwon := hst.won
    rcases h.cell_of_stored hone ha hst with ⟨i, hi, -⟩ | ⟨-, hcell⟩
    · exact absurd hi (hnone i)
    · rw [hcell, wrap_of_lt (by omega)]
  · intro t a ha hst
    rcases h.cell_of_stored hone ha hst with ⟨i, -, hcell⟩ | ⟨-, hcell⟩ <;> rw [hcell]
  · intro t u ht hu hmod
    exact eq_of_mod_eq_of_window (hlive ht).1 (hlive ht).2 (hlive hu).1 (hlive hu).2 hmod

/-- A queue of one cell: the entry of ticket `0` has been taken, and that of ticket `1`
is in the same cell, not published. -/
theorem cellOwnership_one_cell : ∃ s : State (Fin 2) Char, s.pc 0 = .publish 1 ∧
    CellOwnership 1 1 s := by
  obtain ⟨s, hs, hlen, hholds, hfilled⟩ := exists_reachable_of_decide (next 1)
    (init (Fin 2) Char)
    (fun s => s.tickets.length = 2 ∧ (s.pc 0).Holds 1 ∧ ¬ (s.pc 0).Filling 1)
    (SingleConsumer 1)
    (doing 0 (.push 'a') 8 ++ doing 1 .pop 10 ++ doing 0 (.push 'b') 5) (by decide +kernel)
  refine ⟨s, ?_, cellOwnership hs ?_⟩
  · cases hpc : s.pc 0 <;> rw [hpc] at hholds hfilled <;>
      first | exact hholds.elim | exact absurd hholds hfilled | exact congrArg Pc.publish hholds
  · rw [hlen]
    decide +kernel

/-- **An entry that is stored is not published yet**: thread `0` has moved its entry
into the cell of ticket `0`, and `seq` is still `0`. -/
theorem not_seq_succ_of_stored : ¬ ∀ s : State (Fin 2) Char,
    Reachable (next 1) (SingleConsumer 1) (init (Fin 2) Char) s →
      s.tickets.length < sizeModulus → ∀ t, s.Stored t → (s.buffer (t % 1)).seq = t + 1 := by
  intro hall
  obtain ⟨s, hs, hlen, hmoved, hfilled, hseq⟩ := exists_reachable_of_decide (next 1)
    (init (Fin 2) Char)
    (fun s => s.tickets.length = 1 ∧ s.moved = [] ∧ (∀ i, ¬ (s.pc i).Filling 0) ∧
      (s.buffer 0).seq = 0)
    (SingleConsumer 1) (doing 0 (.push 'a') 5) (by decide +kernel)
  have hlt : s.tickets.length < sizeModulus := by rw [hlen]; decide +kernel
  have hone := hall s hs hlt 0 ⟨⟨by omega, by rw [hmoved]; exact le_rfl⟩, hfilled⟩
  rw [Nat.zero_mod, hseq] at hone
  exact absurd hone (by decide)

/-! ### Nobody waits for long -/

/-- The next step of thread `i` is a test of `seq` that fails. -/
def FailedSpin (cap : ℕ) (s : State ι α) (i : ι) : Prop :=
  (∃ e t, s.pc i = .awaitFree e t ∧ (s.buffer (t % cap)).seq ≠ t) ∨
    ∃ d, s.pc i = .awaitEntry d ∧ (s.buffer (d.cell cap)).seq ≠ wrap (d.ticket + 1)

section Progress

variable {cap : ℕ} {s : State ι α} {ph : ℕ → Phase} {drainer : Option ι}

/-- **The cell of a ticket that was won is free**, until the ticket is published. -/
theorem Inv.seq_of_holds (h : Inv cap s ph drainer) {i : ι} {t : ℕ} (hi : (s.pc i).Holds t) :
    (s.buffer (t % cap)).seq = t := by
  have htl := h.tail_le
  have hlt := h.tail_lt
  have hseq : s.head ≤ t ∧ t < s.tickets.length ∧ (ph t = .reserved ∨ ph t = .filled) := by
    cases hpc : s.pc i with
    | awaitFree e u | emplace e u =>
      rw [hpc] at hi
      obtain ⟨hle, hwon, hph⟩ := h.filling (i := i) (t := t) (by rw [hpc]; exact hi)
      exact ⟨hle, hwon, Or.inl hph⟩
    | publish u =>
      rw [hpc] at hi
      obtain rfl : u = t := hi
      obtain ⟨hle, hwon, hph⟩ := h.publishing hpc
      exact ⟨hle, hwon, Or.inr hph⟩
    | _ =>
      rw [hpc] at hi
      exact hi.elim
  obtain ⟨hle, hwon, hph⟩ := hseq
  have hwrap : wrap t = t := wrap_of_lt (by omega)
  rw [h.cells t hle (by omega)]
  rcases hph with hph | hph <;> rw [hph] <;> exact hwrap

/-- A drain that has to wait waits for a producer. -/
theorem Inv.holder_of_spin (h : Inv cap s ph drainer) {i : ι} {d : Drain α}
    (hpc : s.pc i = .awaitEntry d)
    (hseq : (s.buffer (d.cell cap)).seq ≠ wrap (d.ticket + 1)) :
    ∃ j, (s.pc j).Holds d.ticket := by
  have hok := h.pcs i
  rw [hpc] at hok
  have hwon := (h.drain_cell hok.1 hok.2.1).2.2.1
  have hlt := h.tail_lt
  refine (h.awaitEntry hpc).2.resolve_left fun heq => hseq ?_
  rw [heq, wrap_of_lt (by omega)]

/-- A thread in a call has a next step; it never moves an entry out of an empty cell. -/
theorem Inv.enabled [DecidableEq ι] (h : Inv cap s ph drainer) {i : ι} (hi : s.pc i ≠ .idle) :
    ∃ s', next cap s (i, .step) = some s' := by
  have hok := h.pcs i
  cases hpc : s.pc i with
  | idle => exact absurd hpc hi
  | moveOut d =>
    rw [hpc] at hok
    obtain ⟨hd, hlt, hph, -⟩ := hok
    obtain ⟨-, -, hwon, hcell⟩ := h.drain_cell hd hlt
    rw [hph, cellOf, List.getElem?_eq_getElem hwon] at hcell
    have hval : (s.buffer (d.cell cap)).storage = some s.tickets[d.ticket].entry := by
      rw [hcell]
      rfl
    refine ⟨s.moveOut i d s.tickets[d.ticket].entry, ?_⟩
    rw [next, threadNext.eq_def, hpc]
    exact congrArg (Option.map _) hval
  | _ => exact ⟨_, by simp only [next, threadNext, hpc]; rfl⟩

/-- A producer that holds a ticket has a step that is no failed test. -/
theorem Inv.not_failedSpin_of_holds (h : Inv cap s ph drainer) {j : ι} {t : ℕ}
    (hj : (s.pc j).Holds t) : s.pc j ≠ .idle ∧ ¬ FailedSpin cap s j := by
  refine ⟨?_, ?_⟩
  · intro hidle
    rw [hidle] at hj
    exact hj
  · rintro (⟨e, u, hpc, hseq⟩ | ⟨d, hpc, -⟩)
    · exact hseq (h.seq_of_holds (i := j) (by rw [hpc]; rfl))
    · rw [hpc] at hj
      exact hj

end Progress

/-- **Nobody is stuck.**  The cell of a ticket that was won and not published is free
for it, so that the first test of `tryPush` succeeds; a drain that waits, waits for a
producer that holds the ticket; and while a call is running, some thread in a call has
a step that is no failed test. -/
structure NeverStuck (cap : ℕ) (s : State ι α) [DecidableEq ι] : Prop where
  won : ∀ i t, (s.pc i).Holds t → (s.buffer (t % cap)).seq = t
  firstTest : ∀ i e t, s.pc i = .awaitFree e t →
    next cap s (i, .step) = some (s.goto i (.emplace e t))
  waiting : ∀ i d, s.pc i = .awaitEntry d →
    (s.buffer (d.cell cap)).seq ≠ wrap (d.ticket + 1) → ∃ j, (s.pc j).Holds d.ticket
  progress : (∃ i, s.pc i ≠ .idle) →
    ∃ i s', s.pc i ≠ .idle ∧ next cap s (i, .step) = some s' ∧ ¬ FailedSpin cap s i

/-- **`tryPush` never waits, and the queue never deadlocks with one consumer.** -/
theorem neverStuck [DecidableEq ι] {cap : ℕ} {c : ι} {s : State ι α}
    (hs : Reachable (next cap) (SingleConsumer c) (init ι α) s)
    (hlt : s.tickets.length < sizeModulus) : NeverStuck cap s := by
  obtain ⟨ph, drainer, h⟩ := inv_of_singleConsumer hs hlt
  refine ⟨fun i t => h.seq_of_holds, ?_, fun i d => h.holder_of_spin, ?_⟩
  · intro i e t hpc
    have hseq := h.seq_of_holds (i := i) (t := t) (by rw [hpc]; rfl)
    simp only [next, threadNext, hpc, hseq, if_true]
  · rintro ⟨i, hi⟩
    by_cases hspin : FailedSpin cap s i
    · -- it waits for a producer, or is one that does not wait after all
      obtain ⟨j, t, hj⟩ : ∃ j t, (s.pc j).Holds t := by
        rcases hspin with ⟨e, t, hpc, -⟩ | ⟨d, hpc, hseq⟩
        · exact ⟨i, t, by rw [hpc]; rfl⟩
        · obtain ⟨j, hj⟩ := h.holder_of_spin hpc hseq
          exact ⟨j, d.ticket, hj⟩
      obtain ⟨hidle, hnot⟩ := h.not_failedSpin_of_holds hj
      obtain ⟨s', hs'⟩ := h.enabled hidle
      exact ⟨j, s', hidle, hs', hnot⟩
    · obtain ⟨s', hs'⟩ := h.enabled hi
      exact ⟨i, s', hi, hs', hspin⟩

/-- Thread `0` holds ticket `0`, for which the consumer waits. -/
theorem neverStuck_waiting : ∃ s : State (Fin 2) Char, (s.pc 0).Holds 0 ∧ (s.pc 1).Draining ∧
    NeverStuck 1 s := by
  obtain ⟨s, hs, hlen, hholds, hdrain⟩ := exists_reachable_of_decide (next 1)
    (init (Fin 2) Char)
    (fun s => s.tickets.length = 1 ∧ (s.pc 0).Holds 0 ∧ (s.pc 1).Draining)
    (SingleConsumer 1) (doing 0 (.push 'a') 3 ++ doing 1 .pop 4) (by decide +kernel)
  refine ⟨s, hholds, hdrain, neverStuck hs ?_⟩
  rw [hlen]
  decide +kernel

end AsyncQueue
end SpeckitLog
