import SpeckitLog.RingBuffer.Invariant

/-!
# What the ring buffer conserves

With one thread calling `popAll`, and the two methods out of each other's way,
the ring buffer returns each stored entry once and keeps the others.  Without
that discipline it does not: a `popAll` that takes the count between the raise
of `size_` and the write of the slot returns what the slot held before, and the
entry is never seen.

## Main results

* `conserves` — **the ring buffer conserves the entries** in every run of one
  popping thread in which the methods keep out of each other's way.
* `not_conserves_stale_slot` — the run in which it does not.
* `popAll_alone` — what a `popAll` that runs alone returns.
-/

namespace SpeckitLog
namespace RingBuffer

open Function Transition Call

variable {ι α : Type*}

/-! ### One popping thread -/

/-- The guard of a buffer whose `popAll` only thread `c` calls. -/
def SinglePopper (c : ι) (_ : State ι α) (a : ι × Act α) : Prop := a.2 = .pop → a.1 = c

/-- What holds in every run with one popping thread. -/
structure OnePopper (s : State ι α) (c : ι) : Prop where
  alone : ∀ j, (s.pc j).Popping → j = c
  drained : s.moved = s.returned ++ (s.pc c).entries

theorem onePopper_init (c : ι) (dflt : α) : OnePopper (init ι dflt) c where
  alone _ h := h.elim
  drained := rfl

section OnePopper

variable {s s' : State ι α} {i c : ι} {p : Pc α}

/-- With one popping thread, drains stay apart. -/
theorem OnePopper.drainsApart (h : OnePopper s c) : DrainsApart s i := by
  intro hpc _ j hj
  obtain rfl : i = c := h.alone i (by rw [hpc]; trivial)
  obtain rfl := h.alone j hj.popping
  rw [hpc] at hj
  exact hj

variable [DecidableEq ι]

/-- A step that moves no entry. -/
theorem OnePopper.of_pc (h : OnePopper s c) (hmoved : s'.moved = s.moved)
    (hret : s'.returned = s.returned) (hpc : s'.pc = update s.pc i p) (hpop : p.Popping → i = c)
    (hent : p.entries = (s.pc i).entries) : OnePopper s' c where
  alone j hj := by
    rw [hpc] at hj
    rcases of_update hj with ⟨rfl, hp⟩ | ⟨-, hj⟩
    · exact hpop hp
    · exact h.alone j hj
  drained := by
    rw [hmoved, hret, hpc, h.drained]
    by_cases hci : c = i
    · rw [hci, update_self, hent]
    · rw [update_of_ne hci]

/-- A step of the popping thread. -/
theorem OnePopper.of_popper (h : OnePopper s c) (hpc : s'.pc = update s.pc c p)
    (hdrained : s'.moved = s'.returned ++ p.entries) : OnePopper s' c where
  alone j hj := by
    rw [hpc] at hj
    rcases of_update hj with ⟨hjc, -⟩ | ⟨-, hj⟩
    · exact hjc
    · exact h.alone j hj
  drained := by rw [hdrained, hpc, update_self]

theorem Step.onePopper {cap : ℕ} {a : Act α} (hstep : Step cap s i a s')
    (hone : a = .pop → i = c) (h : OnePopper s c) : OnePopper s' c := by
  have hin : ∀ {q : Pc α}, s.pc i = q → q.Popping → i = c := by
    rintro _ rfl hq
    exact h.alone i hq
  cases hstep with
  | callPop hpc => exact h.of_pc rfl rfl rfl (fun _ => hone rfl) (by rw [hpc]; rfl)
  | exchange hpc =>
    exact h.of_pc rfl rfl rfl (fun _ => hin hpc trivial) (by rw [hpc]; split <;> rfl)
  | loadTail hpc | storeTail hpc =>
    exact h.of_pc rfl rfl rfl (fun _ => hin hpc trivial) (by rw [hpc]; rfl)
  | @read d hpc =>
    obtain rfl := hin hpc trivial
    refine h.of_popper rfl ?_
    have hd := h.drained
    rw [hpc] at hd
    show s.moved ++ [s.buffer (d.index cap)] = s.returned ++ _
    rw [hd, List.append_assoc]
    split <;> rfl
  | returnPop hpc =>
    obtain rfl := hin hpc trivial
    refine h.of_popper rfl ?_
    have hd := h.drained
    rw [hpc] at hd
    show s.moved = s.returned ++ _ ++ []
    rw [hd, List.append_nil]
    rfl
  | addSize hpc =>
    refine h.of_pc rfl rfl rfl (fun hp => ?_) (by rw [hpc]; split <;> rfl)
    split at hp <;> exact hp.elim
  | full hpc _ | room hpc _ => exact h.of_pc rfl rfl rfl (fun hp => hp.elim) (by rw [hpc]; rfl)
  | _ hpc => exact h.of_pc rfl rfl rfl (fun hp => hp.elim) (by rw [hpc]; rfl)

end OnePopper

/-! ### Conservation -/

/-- The `tryPush` call returned `true`, and this is its argument. -/
def State.Succeeded (s : State ι α) (c : Call ι α) : Prop :=
  (c.thread, c.number, true) ∈ s.returns ∧ (s.args c.thread)[c.number]? = some c.entry

/-- **Nothing is lost and nothing invented.**  What `popAll` returned are entries
of different calls that stored them; and when all calls have returned, what it
returned and what a further `popAll` returns are together the entries of the
successful calls, each once. -/
structure Conserves (cap : ℕ) (s : State ι α) : Prop where
  stored : ∃ calls : List (Call ι α), calls.Nodup ∧ (∀ c ∈ calls, c ∈ s.stored) ∧
    s.returned = calls.map Call.entry
  rest : (∀ i, s.pc i = .idle) → ∃ calls later : List (Call ι α), (calls ++ later).Nodup ∧
    (∀ c, c ∈ calls ++ later ↔ s.Succeeded c) ∧ s.returned = calls.map Call.entry ∧
    s.popAllResult cap = later.map Call.entry

/-- The tickets are the successful calls, once all calls have returned. -/
theorem State.History.mem_tickets_iff {s : State ι α} (h : s.History)
    (hidle : ∀ i, s.pc i = .idle) (c : Call ι α) : c ∈ s.tickets ↔ s.Succeeded c := by
  constructor
  · intro hc
    refine ⟨?_, h.unaltered c hc⟩
    rcases h.settled c hc with hret | ⟨hrun, -⟩
    · exact hret
    · rw [hidle] at hrun
      exact absurd hrun (by simp [Pc.stage])
  · rintro ⟨hret, harg⟩
    obtain ⟨a, ha, hthread, hnumber⟩ := h.accepted _ _ hret
    have hentry := h.unaltered a ha
    rw [hthread, hnumber, harg, Option.some.injEq] at hentry
    exact Call.eq_of_fields hthread hnumber hentry.symm ▸ ha

section Inv

variable [Fintype ι] {cap : ℕ} {s : State ι α} {drainer : Option ι}

/-- Every entry read so far is that of a ticket taken from `size_`, in order, and
the slots of the other taken tickets hold theirs. -/
theorem Inv.moved_prefix (h : Inv cap s drainer) :
    ∃ k ≤ s.taken, s.moved = entries s.tickets k ∧
      SlotsHold cap s.buffer s.tickets k s.taken := by
  cases drainer with
  | none => exact ⟨s.taken, le_rfl, (h.quiet rfl).2, fun t c ht ht' => by omega⟩
  | some i =>
    have hdr := (h.drainer_iff i).mpr rfl
    have hok := h.drain i
    cases hpc : s.pc i with
    | loadTail n =>
      rw [hpc] at hok
      exact ⟨s.taken - n, by omega, hok.1.moved, hok.1.slots⟩
    | read d =>
      rw [hpc] at hok
      have := hok.1.le_taken
      have := hok.2.1
      exact ⟨s.taken - d.oldSize + d.i, by omega, hok.1.moved, hok.1.slots⟩
    | storeTail d =>
      rw [hpc] at hok
      exact ⟨s.taken, le_rfl, hok.1.moved, hok.1.slots⟩
    | _ =>
      rw [hpc] at hdr
      exact hdr.elim

/-- The entry of a call that returned is in its slot until a drain reads it. -/
theorem Inv.in_slot (h : Inv cap s drainer) (hhist : s.History) {k t : ℕ} {c : Call ι α}
    (hslots : SlotsHold cap s.buffer s.tickets k s.taken) (hc : s.tickets[t]? = some c)
    (ht : k ≤ t) (hret : (c.thread, c.number, true) ∈ s.returns) :
    s.buffer (t % cap) = c.entry := by
  rcases Nat.lt_or_ge t s.taken with hlt | hge
  · exact hslots t c ht hlt hc
  · refine h.slots t c hge hc ((h.stored t c hc).resolve_right fun hst => ?_)
    -- a call that has yet to write its slot has not returned
    have hown := (h.storing _ _ _ hst).1
    rw [hc, Option.some.injEq] at hown
    have hnumber : c.number = s.number c.thread := congrArg Call.number hown
    have hlt := (hhist.past _ _ _ hret).2 (by rw [hst]; simp [Pc.stage])
    have : s.number c.thread = (s.args c.thread).length - 1 := rfl
    omega

/-- A ticket that was counted and taken has been stored. -/
theorem Inv.stored_of_taken (h : Inv cap s drainer) {t : ℕ} {c : Call ι α}
    (hc : s.tickets[t]? = some c) (ht : t < s.taken) : c ∈ s.stored := by
  refine (h.stored t c hc).resolve_right fun hst => ?_
  have := (h.storing _ _ _ hst).2.1
  omega

/-- What a `popAll` finds when no call is running: the tickets not yet taken. -/
theorem Inv.popAllResult_of_idle (hcap : 2 * cap ≤ sizeModulus) (h : Inv cap s drainer)
    (hidle : ∀ i, s.pc i = .idle) :
    s.moved = entries s.tickets s.taken ∧
      s.popAllResult cap = (s.tickets.drop s.taken).map Call.entry := by
  have hnone : drainer = none := by
    cases drainer with
    | none => rfl
    | some i =>
      have := (h.drainer_iff i).mpr rfl
      rw [hidle] at this
      exact this.elim
  obtain ⟨htail, hmoved⟩ := h.quiet hnone
  have hres : ∑ j, (s.pc j).reserving = 0 := Finset.sum_eq_zero fun j _ => by rw [hidle]; rfl
  have hover : ∑ j, (s.pc j).overshooting = 0 := Finset.sum_eq_zero fun j _ => by
    rw [hidle]; rfl
  have hsize := h.size_eq
  have hroom := h.room
  have htaken := h.taken_le
  refine ⟨hmoved, List.ext_getElem ?_ ?_⟩
  · simp only [State.popAllResult, List.length_map, List.length_range, List.length_drop]
    omega
  · intro j hj hj'
    simp only [State.popAllResult, List.length_map, List.length_range] at hj
    simp only [State.popAllResult, List.getElem_map, List.getElem_range, List.getElem_drop]
    have hlt : s.taken + j < s.tickets.length := by omega
    have hget : s.tickets[s.taken + j]? = some s.tickets[s.taken + j] :=
      List.getElem?_eq_getElem hlt
    rw [htail, wrap_tail_mod hcap (by omega) (by omega)]
    refine h.slots _ _ (by omega) hget ((h.stored _ _ hget).resolve_right ?_)
    rw [hidle]
    simp

end Inv

/-- A thread is out of the way when all others are outside their windows. -/
theorem outOfTheWay_of_quiet {cap : ℕ} {s : State ι α} {i : ι}
    (hquiet : ∀ j, j ≠ i → ¬ (s.pc j).Raised ∧ ¬ (s.pc j).Draining)
    (hsize : s.size + 1 < sizeModulus) (htickets : s.tickets.length + 1 < sizeModulus) :
    OutOfTheWay cap s i where
  exchange hpc _ j := by
    by_cases hji : j = i
    · rw [hji, hpc]; exact not_false
    · exact (hquiet j hji).1
  store e h hpc := by
    rintro ⟨j, hj⟩
    have hdr : (s.pc j).Draining := by
      rcases hj with ⟨n, m, hj, -⟩ | ⟨d, m, hj, -⟩ <;> rw [hj] <;> trivial
    have hji : j ≠ i := by
      rintro rfl
      rw [hpc] at hdr
      exact hdr
    exact (hquiet j hji).2 hdr
  counters := ⟨fun _ _ => hsize, fun _ _ => htickets⟩

theorem drainsApart_of_quiet {s : State ι α} {i : ι}
    (hquiet : ∀ j, j ≠ i → ¬ (s.pc j).Raised ∧ ¬ (s.pc j).Draining) : DrainsApart s i := by
  intro hpc _ j
  by_cases hji : j = i
  · rw [hji, hpc]; exact not_false
  · exact (hquiet j hji).2

/-- **The ring buffer conserves the entries**, for any number of pushing threads
and one popping thread, in every run whose `popAll` takes a count only when it
counts written slots, whose `tryPush` writes no slot a drain has still to read,
and whose counters do not wrap.  The array of `cap` entries has to fit the
address space, and an entry takes more than one byte. -/
theorem conserves [Fintype ι] [DecidableEq ι] {cap : ℕ} {c : ι} {dflt : α} {s : State ι α}
    (hcap : 2 * cap ≤ sizeModulus)
    (hs : Reachable (next cap) (fun s a => SinglePopper c s a ∧ OutOfTheWay cap s a.1)
      (init ι dflt) s) : Conserves cap s := by
  have hone : ∀ {ok : State ι α → ι × Act α → Prop} {s : State ι α},
      Reachable (next cap) (fun s a => SinglePopper c s a ∧ ok s a) (init ι dflt) s →
      OnePopper s c := by
    intro ok s hs
    refine hs.invariant (I := fun s => OnePopper s c) (onePopper_init c dflt) ?_
    rintro s ⟨i, a⟩ s' - h hok hnext
    exact (step_of_next hnext).onePopper hok.1 h
  have hhist := history_of_reachable hs
  -- one popping thread keeps drains apart, so the index invariant holds
  obtain ⟨drainer, hinv⟩ := inv_of_reachable hcap
    (hs.tighten fun s a s' hs _ hok _ => ⟨(hone hs).drainsApart, hok.2⟩)
  have hdrained := (hone hs).drained
  constructor
  · obtain ⟨k, hk, hmoved, -⟩ := hinv.moved_prefix
    have hpre : s.returned <+: (s.tickets.take k).map Call.entry := by
      rw [← entries, ← hmoved, hdrained]
      exact List.prefix_append _ _
    refine ⟨s.tickets.take (min s.returned.length k), ?_, ?_, ?_⟩
    · exact hhist.ordered.nodup.sublist (List.take_sublist _ _)
    · intro a ha
      obtain ⟨t, ht⟩ := List.mem_iff_getElem?.mp ha
      rw [List.getElem?_take] at ht
      split at ht
      · exact hinv.stored_of_taken ht (by omega)
      · exact absurd ht (by simp)
    · rw [← List.take_take, List.map_take]
      exact List.prefix_iff_eq_take.mp hpre
  · intro hidle
    obtain ⟨hmoved, hresult⟩ := hinv.popAllResult_of_idle hcap hidle
    refine ⟨s.tickets.take s.taken, s.tickets.drop s.taken, ?_, ?_, ?_, hresult⟩
    · rw [List.take_append_drop]; exact hhist.ordered.nodup
    · rw [List.take_append_drop]; exact hhist.mem_tickets_iff hidle
    · rw [hidle] at hdrained
      have hdrained : s.moved = s.returned ++ [] := hdrained
      rw [← entries, ← hmoved, hdrained, List.append_nil]

/-- Two pushes and a `popAll` overlap, and out of each other's way: what was pushed is
returned, in the order of the indices drawn. -/
theorem conserves_push_pop :
    ∃ s : State (Fin 3) Char, s.returned = ['b', 'a'] ∧ Conserves 2 s := by
  obtain ⟨s, hs, hp⟩ := exists_reachable_of_run (next 2) (init (Fin 3) '-')
    (fun s => s.returned = ['b', 'a'])
    (fun s a => decide ((a.2 ≠ .pop ∨ a.1 = 1) ∧
      (∀ j, j ≠ a.1 → ¬ (s.pc j).Raised ∧ ¬ (s.pc j).Draining) ∧
      s.size + 1 < sizeModulus ∧ s.tickets.length + 1 < sizeModulus))
    (doing 0 (.push 'a') 1 ++ doing 2 (.push 'b') 4 ++ doing 1 .pop 0
      ++ List.replicate 3 (0, .step) ++ List.replicate 5 (1, .step)
      ++ [(0, .step), (2, .step), (1, .step)])
    (by decide +kernel)
  simp only [decide_eq_true_eq] at hp
  have hrun : Reachable (next 2) (fun s a => SinglePopper 1 s a ∧ OutOfTheWay 2 s a.1)
      (init (Fin 3) '-') s := by
    refine hs.mono fun s a ha => ?_
    obtain ⟨hpop, hquiet, hsize, htickets⟩ := of_decide_eq_true ha
    exact ⟨fun h => hpop.resolve_left fun hn => hn h,
      outOfTheWay_of_quiet hquiet hsize htickets⟩
  exact ⟨s, hp, conserves (by decide +kernel) hrun⟩

/-- **A stale slot.**  Thread `0` has raised `size_` when thread `1` takes the
count and reads the slot: the default value of the slot is returned, the entry
written later is counted by nobody, and the buffer is empty for `popAll` though
the push returned `true`. -/
theorem not_conserves_stale_slot :
    ∃ s, Reachable (next 1) (SinglePopper 1) (init (Fin 2) '-') s ∧ ¬ Conserves 1 s := by
  obtain ⟨s, hs, hp⟩ := exists_reachable_of_decide (next 1) (init (Fin 2) '-')
    (fun s => s.returned = ['-'] ∧ s.stored = [⟨0, 0, 'a'⟩] ∧
      s.returns = [(0, 0, true)] ∧ s.popAllResult 1 = [])
    (fun _ a => a.2 ≠ .pop ∨ a.1 = 1)
    (doing 0 (.push 'a') 2 ++ doing 1 .pop 5 ++ doing 0 .step 2)
    (by decide +kernel)
  refine ⟨s, hs.mono fun s a ha => ?_, fun hc => ?_⟩
  · exact fun hpop => ha.resolve_left fun h => h hpop
  · obtain ⟨calls, -, hstored, hret⟩ := hc.stored
    have hall : ∀ e ∈ s.returned, e = 'a' := by
      intro e he
      rw [hret] at he
      obtain ⟨c, hc, rfl⟩ := List.mem_map.mp he
      have := hstored c hc
      rw [hp.2.1, List.mem_singleton] at this
      rw [this]
    exact absurd (hall '-' (by rw [hp.1]; exact List.mem_singleton_self _)) (by decide)

/-! ### A `popAll` that runs alone -/

section Alone

variable [DecidableEq ι] {cap : ℕ} {s : State ι α} {i : ι}

/-- The slots a running drain has still to read, read one after the other. -/
theorem read_alone (cap : ℕ) {d : Drain α} (hpc : s.pc i = .read d) (hlt : d.i < d.oldSize) :
    ∃ s' d', Reachable (next cap) (fun _ a => a.1 = i) s s' ∧ s'.pc i = .storeTail d' ∧
      d'.entries = d.entries ++ (List.range' d.i (d.oldSize - d.i)).map
        (fun j => s.buffer (wrap (d.currentTail + j) % cap)) ∧
      s'.size = s.size ∧ s'.returned = s.returned := by
  obtain ⟨n, hn⟩ : ∃ n, d.oldSize - d.i = n + 1 := ⟨d.oldSize - d.i - 1, by omega⟩
  induction n generalizing s d with
  | zero =>
    have hstep : next cap s (i, .step) = some (s.read cap i d) := by
      simp [next, threadNext, hpc]
    refine ⟨s.read cap i d, { d with
      i := d.i + 1, entries := d.entries ++ [s.buffer (d.index cap)] },
      .step .init rfl hstep, ?_, ?_, rfl, rfl⟩
    · show update s.pc i _ i = _
      rw [update_self, if_neg (by simp; omega)]
    · rw [hn]
      rfl
  | succ n ih =>
    have hstep : next cap s (i, .step) = some (s.read cap i d) := by
      simp [next, threadNext, hpc]
    obtain ⟨s', d', hs, hpc', hent, hsize, hret⟩ := ih (s := s.read cap i d)
      (d := { d with i := d.i + 1, entries := d.entries ++ [s.buffer (d.index cap)] })
      (by show update s.pc i _ i = _; rw [update_self, if_pos (by simp; omega)])
      (by simp; omega) (by simp; omega)
    refine ⟨s', d', .append (.step .init rfl hstep) hs, hpc', ?_, hsize, hret⟩
    rw [hent, hn]
    have hrest : d.oldSize - (d.i + 1) = n + 1 := by omega
    simp only [hrest, List.append_assoc]
    rw [List.range'_succ (n := n + 1), List.map_cons]
    rfl

/-- **A `popAll` that runs alone** returns the `size_` slots from `tail_` on and
leaves the buffer empty. -/
theorem popAll_alone (hidle : s.pc i = .idle) :
    ∃ s', Reachable (next cap) (fun _ a => a.1 = i) s s' ∧ s'.pc i = .idle ∧ s'.size = 0 ∧
      s'.returned = s.returned ++ s.popAllResult cap := by
  have hcall : next cap s (i, .pop) = some (s.goto i .exchange) := by
    simp [next, threadNext, hidle]
  have hexch : next cap (s.goto i .exchange) (i, .step)
      = some ((s.goto i .exchange).exchange i) := by
    simp [next, threadNext, State.goto]
  set s₁ := (s.goto i .exchange).exchange i with hs₁
  have hstart : Reachable (next cap) (fun _ a => a.1 = i) s s₁ :=
    .step (.step .init rfl hcall) rfl hexch
  by_cases hz : s.size = 0
  · have hpc : s₁.pc i = .popped [] := by simp [hs₁, State.exchange, State.goto, hz]
    have hret : next cap s₁ (i, .step) = some (s₁.returnPop i []) := by
      simp [next, threadNext, hpc]
    refine ⟨_, .step hstart rfl hret, update_self .., rfl, ?_⟩
    show s.returned ++ [] = _
    rw [State.popAllResult, hz]
    rfl
  · have hpc : s₁.pc i = .loadTail s.size := by simp [hs₁, State.exchange, State.goto, hz]
    have hload : next cap s₁ (i, .step) = some (s₁.goto i (.read ⟨s.tail, s.size, 0, []⟩)) := by
      simp only [next, threadNext, hpc]
      rfl
    obtain ⟨s₂, d, hread, hpc₂, hent, hsize, hreturned⟩ :=
      read_alone cap (s := s₁.goto i (.read ⟨s.tail, s.size, 0, []⟩))
        (d := ⟨s.tail, s.size, 0, []⟩) (update_self ..) (Nat.pos_of_ne_zero hz)
    have hstore : next cap s₂ (i, .step) = some (s₂.storeTail cap i d) := by
      simp [next, threadNext, hpc₂]
    have hret : next cap (s₂.storeTail cap i d) (i, .step)
        = some ((s₂.storeTail cap i d).returnPop i d.entries) := by
      simp [next, threadNext, State.storeTail]
    refine ⟨_, .step (.step (.append (.step hstart rfl hload) hread) rfl hstore) rfl hret,
      update_self .., hsize, ?_⟩
    show s₂.returned ++ d.entries = _
    rw [hreturned, hent, State.popAllResult, List.range_eq_range']
    rfl

end Alone

end RingBuffer
end SpeckitLog
