import SpeckitLog.AsyncQueue.Invariant

/-!
# The queue is an exactly-once FIFO for one consumer

With one thread calling `popAll`, drains cannot overlap, so the ticket invariant
holds along every run.  What comes out is then, in order, what the tickets
`0, 1, …` put in, and each accepted call owns one ticket.

## Main results

* `exactlyOnceFifo` — **the queue with one consumer.**
-/

namespace SpeckitLog
namespace AsyncQueue

open Function Transition Call

variable {ι α : Type*}

/-! ### What the invariant says about the entries -/

/-- The cells of the tickets below this one have been handed on to the producers of
the next lap. -/
def Pc.freed (head : ℕ) : Pc α → ℕ
  | .awaitEntry d | .testValue d | .moveOut d | .reset d | .freeSlot d | .storeHead d => d.ticket
  | _ => head

/-- A drain that has not moved the entry of its ticket. -/
theorem Progress.unmoved {cap head : ℕ} {tickets : List (Call ι α)} {ph : ℕ → Phase}
    {d : Drain α} (hd : Progress cap head tickets ph d) (hi : d.i ≤ d.available)
    (hph : d.ticket < head + cap → (ph d.ticket).Pending) :
    head ≤ d.ticket ∧ d.ticket ≤ tickets.length ∧
      ∀ t, d.ticket ≤ t → t < head + cap → (ph t).Pending := by
  have hhead := hd.head_eq
  have hbound := hd.bound
  have hticket : d.ticket = d.head + d.i := rfl
  refine ⟨by omega, by omega, fun t ht ht' => ?_⟩
  rcases Nat.lt_or_eq_of_le ht with hlt | rfl
  · exact hd.pending t hlt ht'
  · exact hph ht'

/-- How far a drain is: the tickets it has recycled, the entries it has moved out,
and the tickets it has not touched. -/
theorem PcOk.draining {cap head : ℕ} {tickets : List (Call ι α)} {moved : List α}
    {ph : ℕ → Phase} {i : ι} {p : Pc α} (h : PcOk cap head tickets moved ph i p)
    (hp : p.Draining) :
    ∃ k, head ≤ p.freed head ∧ p.freed head ≤ k ∧ k ≤ tickets.length ∧
      moved = entries tickets k ∧ (∀ t, head ≤ t → t < p.freed head → ph t = .recycled) ∧
      ∀ t, k ≤ t → t < head + cap → (ph t).Pending := by
  cases p with
  | awaitEntry d | testValue d | moveOut d =>
    obtain ⟨hd, hi, hph, hm⟩ := h
    obtain ⟨hle, hN, hpend⟩ := hd.unmoved (Nat.le_of_lt hi) fun _ => by
      first | exact hph | (rw [hph]; trivial)
    exact ⟨d.ticket, hle, le_rfl, hN, hm, hd.recycled, hpend⟩
  | reset d | freeSlot d =>
    obtain ⟨hd, hi, hph, hm⟩ := h
    have hhead := hd.head_eq
    have hbound := hd.bound
    have hticket : d.ticket = d.head + d.i := rfl
    show ∃ k, head ≤ d.ticket ∧ _
    exact ⟨d.ticket + 1, by omega, Nat.le_succ d.ticket, by omega, hm, hd.recycled,
      fun t ht ht' => hd.pending t ht ht'⟩
  | storeHead d =>
    obtain ⟨hd, hi, hph, hm⟩ := h
    obtain ⟨hle, hN, hpend⟩ := hd.unmoved (Nat.le_of_eq hi) hph
    exact ⟨d.ticket, hle, le_rfl, hN, hm, hd.recycled, hpend⟩
  | _ => exact hp.elim

/-- The entries moved out are those of the first tickets, and the later tickets
have their entry in their cell or still with their producer. -/
theorem Inv.moved_eq {cap : ℕ} {s : State ι α} {ph : ℕ → Phase} {drainer : Option ι}
    (h : Inv cap s ph drainer) :
    ∃ k, s.head ≤ k ∧ k ≤ s.tickets.length ∧ s.moved = entries s.tickets k ∧
      ∀ t, k ≤ t → t < s.head + cap → (ph t).Pending := by
  cases drainer with
  | none =>
    obtain ⟨hpend, hm⟩ := h.quiet rfl
    exact ⟨s.head, le_rfl, h.head_le, hm, hpend⟩
  | some i =>
    obtain ⟨k, hfreed, hfk, hk, hm, -, hpend⟩ := (h.pcs i).draining ((h.drainer_iff i).mpr rfl)
    exact ⟨k, hfreed.trans hfk, hk, hm, hpend⟩

/-- A ticket no drain has touched has its entry in its cell, or its producer has
not published it. -/
theorem Inv.waiting {cap : ℕ} {s : State ι α} {ph : ℕ → Phase} {drainer : Option ι}
    (h : Inv cap s ph drainer) {t : ℕ} {c : Call ι α} (hc : s.tickets[t]? = some c)
    (ht : s.head ≤ t) (hpend : (ph t).Pending) :
    (s.buffer (t % cap)).storage = some c.entry ∨ (s.pc c.thread).Holds t := by
  have htN : t < s.tickets.length := (List.getElem?_eq_some_iff.mp hc).1
  have htw : t < s.head + cap := Nat.lt_of_lt_of_le htN h.tail_le
  cases hph : ph t with
  | free | reserved => exact Or.inr (h.holder t c hc ht (by rw [hph]; trivial))
  | filled => exact Or.inr (h.holder t c hc ht (by rw [hph]; trivial))
  | published =>
    left
    rw [h.cells t ht htw, hph, cellOf, hc]
    rfl
  | _ => rw [hph] at hpend; exact hpend.elim

/-! ### The history of the calls -/

/-- The history of the `tryPush` calls is right. -/
def State.History (s : State ι α) : Prop :=
  CallHistory s.args s.tickets s.returns fun j => (s.pc j).stage

theorem history_init : (init ι α).History := CallHistory.init

section History

variable [DecidableEq ι] {s s' : State ι α} {i : ι} {p : Pc α}

theorem stage_update (pc : ι → Pc α) (i : ι) (p : Pc α) (j : ι) (hji : j ≠ i) :
    (update pc i p j).stage = (pc j).stage := by rw [update_of_ne hji]

theorem stage_self (pc : ι → Pc α) (i : ι) (p : Pc α) : (update pc i p i).stage = p.stage := by
  rw [update_self]

/-- A step that leaves the stage of the call as it is. -/
theorem State.History.of_pc (h : s.History) (hargs : s'.args = s.args)
    (htick : s'.tickets = s.tickets) (hret : s'.returns = s.returns)
    (hpc : s'.pc = update s.pc i p) (hstage : p.stage = (s.pc i).stage) : s'.History := by
  unfold State.History
  rw [hargs, htick, hret, hpc]
  refine CallHistory.move (i := i) h (stage_update s.pc i p) ?_ ?_ ?_
  · rw [update_self, hstage]; exact h.running i
  · rw [update_self, hstage]; exact id
  · rw [update_self, hstage]; exact id

/-- **Every step keeps the history right.** -/
theorem Step.history {cap : ℕ} {a : Act α} (hstep : Step cap s i a s') (h : s.History) :
    s'.History := by
  cases hstep with
  | callPush hpc => exact h.start _ (by rw [hpc]; rfl) (stage_update s.pc i _) (stage_self s.pc i _)
  | reserve hpc _ =>
    exact h.win (by rw [hpc]; rfl) (stage_update s.pc i _) (stage_self s.pc i _)
  | full hpc _ =>
    exact h.refuse (by rw [hpc]; rfl) (stage_update s.pc i _) (stage_self s.pc i _)
  | returnPush hpc =>
    exact h.finish (by rw [hpc]; rfl) (stage_update s.pc i _) (stage_self s.pc i _)
  | spinFree | spinEntry => exact h
  | freeSlot hpc => exact h.of_pc rfl rfl rfl rfl (by rw [hpc]; split <;> rfl)
  | nothing hpc _ | startDrain hpc _ => exact h.of_pc rfl rfl rfl rfl (by rw [hpc]; rfl)
  | _ hpc => exact h.of_pc rfl rfl rfl rfl (by rw [hpc]; rfl)

/-- Every run keeps the history right. -/
theorem history_of_reachable {cap : ℕ} {ok : State ι α → ι × Act α → Prop}
    (hs : Reachable (next cap) ok (init ι α) s) : s.History := by
  refine hs.invariant history_init ?_
  rintro s ⟨i, a⟩ s' - h - hnext
  exact (step_of_next hnext).history h

/-! ### Whose ticket a producer holds -/

/-- A held ticket is that of the call its holder is in. -/
def State.HeldByOwner (s : State ι α) : Prop :=
  ∀ j t, (s.pc j).Holds t → ∃ e, s.tickets[t]? = some ⟨j, s.number j, e⟩

omit [DecidableEq ι] in
theorem heldByOwner_init : (init ι α).HeldByOwner := fun _ _ h => h.elim

/-- A step that wins no ticket. -/
theorem State.HeldByOwner.of_pc (h : s.HeldByOwner) (htick : s'.tickets = s.tickets)
    (hpc : s'.pc = update s.pc i p) (hnum : ∀ j, j ≠ i → s'.number j = s.number j)
    (hhold : ∀ t, p.Holds t → (s.pc i).Holds t ∧ s'.number i = s.number i) :
    s'.HeldByOwner := by
  intro j t hj
  rw [htick]
  rw [hpc] at hj
  by_cases hji : j = i
  · subst hji
    rw [update_self] at hj
    obtain ⟨hold, hn⟩ := hhold t hj
    rw [hn]
    exact h j t hold
  · rw [update_of_ne hji] at hj
    rw [hnum j hji]
    exact h j t hj

theorem Step.heldByOwner {cap : ℕ} {a : Act α} (hstep : Step cap s i a s')
    (htail : s.tail = s.tickets.length) (h : s.HeldByOwner) : s'.HeldByOwner := by
  cases hstep with
  | spinFree | spinEntry => exact h
  | callPush hpc =>
    refine h.of_pc rfl rfl (fun j hji => ?_) (fun t ht => ht.elim)
    show (update s.args i _ j).length - 1 = _
    rw [update_of_ne hji]
    rfl
  | @reserve e t hpc ht =>
    intro j u hj
    have hj : (update s.pc i (.awaitFree e t) j).Holds u := hj
    by_cases hji : j = i
    · subst hji
      rw [update_self] at hj
      obtain rfl : t = u := hj
      refine ⟨e, ?_⟩
      show (s.tickets ++ [_])[t]? = _
      rw [← ht, htail, List.getElem?_concat_length]
      rfl
    · rw [update_of_ne hji] at hj
      obtain ⟨e', he'⟩ := h j u hj
      exact ⟨e', getElem?_concat_of_some he'⟩
  | slotFree hpc _ | emplace hpc =>
    exact h.of_pc rfl rfl (fun _ _ => rfl) (fun t ht => ⟨by rw [hpc]; exact ht, rfl⟩)
  | freeSlot hpc =>
    refine h.of_pc rfl rfl (fun _ _ => rfl) (fun t ht => ?_)
    split at ht <;> exact ht.elim
  | _ => exact h.of_pc rfl rfl (fun _ _ => rfl) (fun t ht => ht.elim)

end History

/-- The entry of a call that returned is in its cell until a drain moves it out. -/
theorem Inv.in_cell {cap : ℕ} {s : State ι α} {ph : ℕ → Phase} {drainer : Option ι}
    (h : Inv cap s ph drainer) (hhist : s.History) (hheld : s.HeldByOwner) {t : ℕ}
    {c : Call ι α} (hc : s.tickets[t]? = some c) (ht : s.head ≤ t) (hpend : (ph t).Pending)
    (hret : (c.thread, c.number, true) ∈ s.returns) :
    (s.buffer (t % cap)).storage = some c.entry := by
  refine (h.waiting hc ht hpend).resolve_right fun hold => ?_
  obtain ⟨e, he⟩ := hheld _ _ hold
  have hnumber : c.number = s.number c.thread := by
    rw [hc, Option.some.injEq] at he
    exact congrArg Call.number he
  have hrun : (s.pc c.thread).stage ≠ .outside := by
    intro hout
    cases hpc : s.pc c.thread <;> rw [hpc] at hold hout <;>
      first | exact hold | exact absurd hout (by simp [Pc.stage])
  have hlt := (hhist.past _ _ _ hret).2 hrun
  have : s.number c.thread = (s.args c.thread).length - 1 := rfl
  omega

/-- Drains that stay apart keep held tickets with their owners. -/
theorem heldByOwner_of_reachable [DecidableEq ι] {cap : ℕ} {s : State ι α}
    (hs : Reachable (next cap) (Apart cap) (init ι α) s) : s.HeldByOwner := by
  refine hs.invariant heldByOwner_init ?_
  rintro s ⟨i, a⟩ s' hs h - hnext
  obtain ⟨ph, drainer, hinv⟩ := inv_of_reachable hs
  exact (step_of_next hnext).heldByOwner hinv.tail_eq h

/-- A drain waits for an entry that is published, or will be. -/
theorem Inv.awaitEntry {cap : ℕ} {s : State ι α} {ph : ℕ → Phase} {drainer : Option ι}
    (h : Inv cap s ph drainer) {i : ι} {d : Drain α} (hpc : s.pc i = .awaitEntry d) :
    (s.buffer (d.cell cap)).seq ≤ d.ticket + 1 ∧
      ((s.buffer (d.cell cap)).seq = d.ticket + 1 ∨ ∃ j, (s.pc j).Holds d.ticket) := by
  have hok := h.pcs i
  rw [hpc] at hok
  obtain ⟨hd, hi, hpend, -⟩ := hok
  obtain ⟨-, hhead, htN, hcell⟩ := h.drain_cell hd hi
  have hlt := h.tail_lt
  obtain ⟨c, hc⟩ : ∃ c, s.tickets[d.ticket]? = some c := ⟨_, List.getElem?_eq_getElem htN⟩
  rw [hcell]
  have hwait : (ph d.ticket).Unpublished → ∃ j, (s.pc j).Holds d.ticket := fun hun =>
    ⟨_, h.holder _ c hc (by omega) hun⟩
  cases hph : ph d.ticket with
  | free | reserved | filled =>
    have hseq : wrap d.ticket = d.ticket := wrap_of_lt (by omega)
    exact ⟨by simp only [cellOf]; omega, Or.inr (hwait (by rw [hph]; trivial))⟩
  | published =>
    have hseq : wrap (d.ticket + 1) = d.ticket + 1 := wrap_of_lt (by omega)
    exact ⟨by simp only [cellOf]; omega, Or.inl hseq⟩
  | moved | emptied | recycled =>
    rw [hph] at hpend
    exact hpend.elim

/-! ### One consumer -/

/-- The guard of a queue used by one consumer: only thread `c` calls `popAll`. -/
def SingleConsumer (c : ι) (_ : State ι α) (a : ι × Act α) : Prop := a.2 = .pop → a.1 = c

instance [DecidableEq ι] [DecidableEq α] (c : ι) (s : State ι α) (a : ι × Act α) :
    Decidable (SingleConsumer c s a) := inferInstanceAs (Decidable (_ → _))

/-- What holds in every run with one consumer: no other thread is inside
`popAll`, the `head_` the consumer read is still current, and the entries moved
out are those of the calls that returned and of the running one. -/
structure OneConsumer (s : State ι α) (c : ι) : Prop where
  alone : ∀ j, (s.pc j).Popping → j = c
  current : ∀ h, s.pc c = .popLoadTail h → h = s.head
  drained : s.moved = s.completed ++ (s.pc c).result

theorem oneConsumer_init (c : ι) : OneConsumer (init ι α) c where
  alone _ h := h.elim
  current h hpc := by simp [init] at hpc
  drained := rfl

section OneConsumer

variable {s s' : State ι α} {i c : ι} {p : Pc α}

/-- With one consumer, drains stay apart. -/
theorem OneConsumer.drainsApart (h : OneConsumer s c) : DrainsApart s i := by
  intro k hpc _
  obtain rfl : i = c := h.alone i (by rw [hpc]; trivial)
  refine ⟨h.current k hpc, fun j hj => ?_⟩
  obtain rfl := h.alone j hj.popping
  rw [hpc] at hj
  exact hj

variable [DecidableEq ι]

theorem OneConsumer.of_pc (h : OneConsumer s c) (hhead : s'.head = s.head)
    (hmoved : s'.moved = s.moved) (hcomp : s'.completed = s.completed)
    (hpc : s'.pc = update s.pc i p) (hpop : p.Popping → i = c)
    (hcur : ∀ k, p = .popLoadTail k → k = s.head) (hres : p.result = (s.pc i).result) :
    OneConsumer s' c where
  alone j hj := by
    rw [hpc] at hj
    rcases of_update hj with ⟨rfl, hp⟩ | ⟨-, hj⟩
    · exact hpop hp
    · exact h.alone j hj
  current k hk := by
    rw [hhead]
    rw [hpc] at hk
    by_cases hci : c = i
    · rw [hci, update_self] at hk; exact hcur k hk
    · rw [update_of_ne hci] at hk; exact h.current k hk
  drained := by
    rw [hmoved, hcomp, hpc, h.drained]
    by_cases hci : c = i
    · rw [hci, update_self, hres]
    · rw [update_of_ne hci]

/-- The consumer, being the thread that moves, changes what it changes alone. -/
theorem OneConsumer.of_consumer (h : OneConsumer s c) (hpc : s'.pc = update s.pc c p)
    (hcur : ∀ k, p ≠ .popLoadTail k) (hdrained : s'.moved = s'.completed ++ p.result) :
    OneConsumer s' c where
  alone j hj := by
    rw [hpc] at hj
    rcases of_update hj with ⟨hjc, -⟩ | ⟨-, hj⟩
    · exact hjc
    · exact h.alone j hj
  current k hk := by
    rw [hpc, update_self] at hk
    exact absurd hk (hcur k)
  drained := by rw [hdrained, hpc, update_self]

theorem Step.oneConsumer {cap : ℕ} {a : Act α} (hstep : Step cap s i a s')
    (hone : a = .pop → i = c) (h : OneConsumer s c) : OneConsumer s' c := by
  have hin : ∀ {q : Pc α}, s.pc i = q → q.Popping → i = c := by
    rintro _ rfl hq
    exact h.alone i hq
  cases hstep with
  | spinFree | spinEntry => exact h
  | callPop hpc =>
    exact h.of_pc rfl rfl rfl rfl (fun _ => hone rfl) (by simp) (by rw [hpc]; rfl)
  | popLoadHead hpc =>
    exact h.of_pc rfl rfl rfl rfl (fun _ => hin hpc trivial) (by simp) (by rw [hpc]; rfl)
  | nothing hpc _ | startDrain hpc _ | entryReady hpc _ | hasValue hpc _ | noValue hpc _
  | reset hpc | subSize hpc =>
    exact h.of_pc rfl rfl rfl rfl (fun _ => hin hpc trivial) (by simp) (by rw [hpc]; rfl)
  | @moveOut d e hpc _ =>
    obtain rfl := hin hpc trivial
    refine h.of_consumer rfl (by simp) ?_
    have hd := h.drained
    rw [hpc] at hd
    show s.moved ++ [e] = s.completed ++ (d.result ++ [e])
    rw [hd, List.append_assoc]
    rfl
  | @freeSlot d hpc =>
    refine h.of_pc rfl rfl rfl rfl (fun _ => hin hpc trivial) ?_ ?_
    · intro k; split <;> simp
    · rw [hpc]; split <;> rfl
  | storeHead hpc =>
    obtain rfl := hin hpc trivial
    refine h.of_consumer rfl (by simp) ?_
    have hd := h.drained
    rw [hpc] at hd
    exact hd
  | returnPop hpc =>
    obtain rfl := hin hpc trivial
    refine h.of_consumer rfl (by simp) ?_
    have hd := h.drained
    rw [hpc] at hd
    show s.moved = s.completed ++ _ ++ []
    rw [hd, List.append_nil]
    rfl
  | _ hpc =>
    exact h.of_pc rfl rfl rfl rfl (fun hp => hp.elim) (by simp) (by rw [hpc]; rfl)

end OneConsumer

/-- The tickets are handed out one by one, and never taken back. -/
theorem tickets_le_of_next [DecidableEq ι] {cap : ℕ} {s s' : State ι α} {a : ι × Act α}
    (h : next cap s a = some s') : s.tickets.length ≤ s'.tickets.length := by
  obtain ⟨i, a⟩ := a
  have h : threadNext cap s i a = some s' := h
  cases step_of_next h with
  | reserve => simp [State.reserve]
  | _ => exact le_rfl

/-! ### Runs with one consumer -/

section SingleConsumer

variable [DecidableEq ι] {cap : ℕ} {c : ι} {s : State ι α}

/-- Only the consumer is ever inside `popAll`. -/
theorem oneConsumer_of_reachable (hs : Reachable (next cap) (SingleConsumer c) (init ι α) s) :
    OneConsumer s c :=
  hs.invariant (oneConsumer_init c) fun _ _ _ _ h hok hnext =>
    (step_of_next hnext).oneConsumer hok h

/-- One consumer keeps drains apart. -/
theorem apart_of_singleConsumer (hs : Reachable (next cap) (SingleConsumer c) (init ι α) s)
    (hlt : s.tickets.length < sizeModulus) :
    Reachable (next cap) (Apart cap) (init ι α) s := by
  refine (hs.bounded (fun s a s' h => tickets_le_of_next h) hlt).tighten ?_
  rintro s a s' hs' - ⟨-, hbound⟩ -
  exact ⟨(oneConsumer_of_reachable (hs'.mono fun _ _ h => h.1)).drainsApart, hbound⟩

/-- **The ticket invariant holds along every run with one consumer.** -/
theorem inv_of_singleConsumer (hs : Reachable (next cap) (SingleConsumer c) (init ι α) s)
    (hlt : s.tickets.length < sizeModulus) : ∃ ph drainer, Inv cap s ph drainer :=
  inv_of_reachable (apart_of_singleConsumer hs hlt)

/-- **The induction rule with one consumer**: the ticket invariant may be assumed in
the state before each step. -/
theorem invariant_of_singleConsumer {ok : State ι α → ι × Act α → Prop} {I : State ι α → Prop}
    (hs : Reachable (next cap) (fun s a => SingleConsumer c s a ∧ ok s a) (init ι α) s)
    (hlt : s.tickets.length < sizeModulus) (h₀ : I (init ι α))
    (hstep : ∀ s s' i a ph drainer, Inv cap s ph drainer → I s → ok s (i, a) →
      Step cap s i a s' → I s') : I s := by
  have hbounded : s.tickets.length < sizeModulus → I s := by
    refine hs.invariant (I := fun s => s.tickets.length < sizeModulus → I s) (fun _ => h₀) ?_
    rintro s ⟨i, a⟩ s' hs ih ⟨-, hok⟩ hnext hlt'
    have hlt : s.tickets.length < sizeModulus :=
      Nat.lt_of_le_of_lt (tickets_le_of_next hnext) hlt'
    obtain ⟨ph, drainer, hinv⟩ := inv_of_singleConsumer (hs.mono fun _ _ h => h.1) hlt
    exact hstep s s' i a ph drainer hinv (ih hlt) hok (step_of_next hnext)
  exact hbounded hlt

end SingleConsumer

/-! ### The queue with one consumer -/

/-- Call `n` of thread `i` won ticket `t`. -/
def State.Owns (s : State ι α) (i : ι) (n t : ℕ) : Prop :=
  ∃ e : α, s.tickets[t]? = some ⟨i, n, e⟩

/-- **Exactly-once FIFO.**  The results of the `popAll` calls, the running one
included, are the entries of the first tickets in ticket order, and the entries
of the other tickets are in their cells or with their producers; a `tryPush`
that returned `true` owns one ticket, one that returned `false` none; a ticket's
entry is the argument of its call; and the tickets of each producer are in the
order of its calls. -/
structure ExactlyOnceFifo (cap : ℕ) (c : ι) (s : State ι α) : Prop where
  tail_eq : s.tail = s.tickets.length
  fifo : ∃ k ≤ s.tickets.length,
    s.completed ++ (s.pc c).result = (s.tickets.take k).map Call.entry ∧
    ∀ t a, k ≤ t → s.tickets[t]? = some a →
      (s.buffer (t % cap)).storage = some a.entry ∨ (s.pc a.thread).Holds t
  accepted : ∀ i n, (i, n, true) ∈ s.returns → ∃! t, s.Owns i n t
  refused : ∀ i n, (i, n, false) ∈ s.returns → ∀ t, ¬ s.Owns i n t
  unaltered : ∀ a ∈ s.tickets, (s.args a.thread)[a.number]? = some a.entry
  ordered : Call.InCallOrder s.tickets

/-- **The queue with one consumer is an exactly-once FIFO**: any number of
producers, any capacity, any interleaving, as long as the counters stay below
`2 ^ 64`. -/
theorem exactlyOnceFifo [DecidableEq ι] {cap : ℕ} {c : ι} {s : State ι α}
    (hs : Reachable (next cap) (SingleConsumer c) (init ι α) s)
    (hlt : s.tickets.length < sizeModulus) : ExactlyOnceFifo cap c s := by
  have hone := oneConsumer_of_reachable hs
  have hhist := history_of_reachable hs
  obtain ⟨ph, drainer, hinv⟩ := inv_of_singleConsumer hs hlt
  obtain ⟨k, hhead, hk, hmoved, hpend⟩ := hinv.moved_eq
  refine ⟨hinv.tail_eq, ⟨k, hk, ?_, ?_⟩, ?_, ?_, hhist.unaltered, hhist.ordered⟩
  · rw [← hone.drained, hmoved]
    rfl
  · intro t a ht ha
    have htN : t < s.tickets.length := (List.getElem?_eq_some_iff.mp ha).1
    exact hinv.waiting ha (by omega) (hpend t ht (Nat.lt_of_lt_of_le htN hinv.tail_le))
  · intro i n hret
    obtain ⟨a, ha, rfl, rfl⟩ := hhist.accepted i n hret
    obtain ⟨t, ht⟩ := List.mem_iff_getElem?.mp ha
    refine ⟨t, ⟨a.entry, ht⟩, ?_⟩
    rintro u ⟨e, hu⟩
    exact hhist.ordered.getElem?_inj hu ht rfl rfl
  · rintro i n hret t ⟨e, ht⟩
    exact hhist.refused i n hret _ (List.mem_of_getElem? ht) rfl rfl

/-- Two producers (threads `0` and `1`) and a consumer (thread `2`) on a queue of
one cell: the second push waits for the first entry to be drained. -/
theorem exactlyOnceFifo_two_producers :
    ∃ s : State ℕ Char, s.completed = ['a', 'b'] ∧ s.returns = [(0, 0, true), (1, 0, false),
      (1, 1, true)] ∧ ExactlyOnceFifo 1 2 s := by
  obtain ⟨s, hs, hcompleted, hreturns, hlen⟩ := exists_reachable_of_decide (next 1) (init ℕ Char)
    (fun s => s.completed = ['a', 'b'] ∧
      s.returns = [(0, 0, true), (1, 0, false), (1, 1, true)] ∧ s.tickets.length = 2)
    (SingleConsumer 2)
    (doing 0 (.push 'a') 8
      ++ doing 1 (.push 'b') 3
      ++ doing 2 .pop 10
      ++ doing 1 (.push 'b') 8
      ++ doing 2 .pop 10) (by decide +kernel)
  refine ⟨s, hcompleted, hreturns, exactlyOnceFifo hs ?_⟩
  rw [hlen]
  decide +kernel

end AsyncQueue
end SpeckitLog
