import SpeckitLog.AsyncQueue.Refusal
import SpeckitLog.Lib.Batches

/-!
# The queue in whole operations

With one consumer, the queue is one that is emptied in batches: a push takes effect
when its compare-and-swap succeeds, and `popAll` when it loads `tail_`, though it then
waits for entries, moves them one by one, and frees their slots only by its store to
`head_`.  So a `popAll` returns what the queue held at one moment of its run.

## Main definitions

* `State.batchQueue` — the queue of batches that a state stands for.

## Main results

* `refines` — **every run is a run of a queue of batches.**
* `popAll_atomic` — **`popAll` returns what the queue held at one moment.**
-/

namespace SpeckitLog
namespace AsyncQueue

open Function Transition Call

variable {ι α : Type*}

/-! ### The queue that a state stands for -/

/-- The drain that runs. -/
def Pc.drain : Pc α → Option (Drain α)
  | .awaitEntry d | .testValue d | .moveOut d | .reset d | .freeSlot d | .storeHead d => some d
  | _ => none

/-- The entries of the tickets that a drain goes through. -/
def Drain.batch (d : Drain α) (tickets : List (Call ι α)) : List α :=
  (entries tickets (d.head + d.available)).drop d.head

/-- The consumer of the queue of batches. -/
def Pc.consumer (tickets : List (Call ι α)) : Pc α → Consumer α
  | .popLoadHead | .popLoadTail _ => .called
  | .awaitEntry d | .testValue d | .moveOut d | .reset d | .freeSlot d | .storeHead d =>
    .took (d.batch tickets) d.available
  | .subSize d => .took d.result 0
  | .popped r => .took r 0
  | _ => .idle

/-- The tickets below this one have been taken. -/
def Pc.takenTo (head : ℕ) (p : Pc α) : ℕ :=
  match p.drain with
  | some d => d.head + d.available
  | none => head

/-- **The queue of batches** that a state stands for, with consumer `c`. -/
def State.batchQueue (s : State ι α) (c : ι) : BatchQueue ι α where
  waiting := s.tickets.drop ((s.pc c).takenTo s.head)
  consumer := (s.pc c).consumer s.tickets
  stage := Pc.stage ∘ s.pc
  args := s.args
  accepted := s.tickets
  returns := s.returns
  handed := s.completed

/-- Outside `popAll` the consumer is idle. -/
theorem Pc.consumer_of_not_popping {p : Pc α} (h : ¬ p.Popping) (tickets : List (Call ι α))
    (head : ℕ) : p.consumer tickets = .idle ∧ p.takenTo head = head := by
  cases p <;> first | exact ⟨rfl, rfl⟩ | exact absurd trivial h

/-- A drain that runs has read the current `head_` and a `tail_`. -/
theorem PcOk.progress {cap head : ℕ} {tickets : List (Call ι α)} {moved : List α}
    {ph : ℕ → Phase} {i : ι} {p : Pc α} (h : PcOk cap head tickets moved ph i p) {d : Drain α}
    (hd : p.drain = some d) : Progress cap head tickets ph d := by
  cases p with
  | awaitEntry | testValue | moveOut | reset | freeSlot | storeHead =>
    exact Option.some.inj hd ▸ h.1
  | _ => contradiction

section State

variable {cap : ℕ} {s s' : State ι α} {ph : ℕ → Phase} {drainer : Option ι} {i c : ι} {p : Pc α}

/-- Only tickets that were handed out are taken. -/
theorem Inv.takenTo_le (h : Inv cap s ph drainer) (c : ι) :
    s.head ≤ (s.pc c).takenTo s.head ∧ (s.pc c).takenTo s.head ≤ s.tickets.length := by
  unfold Pc.takenTo
  split
  · next d hd =>
    have hprogress := (h.pcs c).progress hd
    exact ⟨hprogress.head_eq ▸ Nat.le_add_right _ _, hprogress.bound⟩
  · exact ⟨le_rfl, h.head_le⟩

/-- The entries that wait and the slots of the batch are the tickets from `head_` on. -/
theorem Inv.occupied (h : Inv cap s ph drainer) (c : ι) :
    (s.batchQueue c).waiting.length + (s.batchQueue c).consumer.held =
      s.tickets.length - s.head := by
  have hdrain : ∀ d, (s.pc c).drain = some d →
      (s.tickets.drop (d.head + d.available)).length + d.available =
        s.tickets.length - s.head := by
    intro d hd
    have hprogress := (h.pcs c).progress hd
    have hbound := hprogress.bound
    rw [List.length_drop, hprogress.head_eq] at *
    omega
  show (s.tickets.drop ((s.pc c).takenTo s.head)).length + ((s.pc c).consumer s.tickets).held = _
  cases hpc : s.pc c with
  | awaitEntry d | testValue d | moveOut d | reset d | freeSlot d | storeHead d =>
    exact hdrain d (by rw [hpc]; rfl)
  | _ => exact List.length_drop

/-- A new ticket changes nothing of a batch. -/
theorem Inv.consumer_concat (h : Inv cap s ph drainer) (c : ι) (x : Call ι α) :
    (s.pc c).consumer (s.tickets ++ [x]) = (s.pc c).consumer s.tickets := by
  have hdrain : ∀ d, (s.pc c).drain = some d → d.batch (s.tickets ++ [x]) = d.batch s.tickets :=
    fun d hd => congrArg (List.drop d.head) (entries_concat ((h.pcs c).progress hd).bound)
  cases hpc : s.pc c with
  | awaitEntry d | testValue d | moveOut d | reset d | freeSlot d | storeHead d =>
    exact congrArg (Consumer.took · d.available) (hdrain d (by rw [hpc]; rfl))
  | _ => rfl

/-- Outside a drain the entries below `head_` have been moved out. -/
theorem OneConsumer.completed_eq (hone : OneConsumer s c) (h : Inv cap s ph drainer)
    (hpc : ¬ (s.pc c).Draining) : s.completed ++ (s.pc c).result = entries s.tickets s.head := by
  have hnone : drainer = none := h.drainer_eq_none fun j hj => by
    obtain rfl := hone.alone j hj.popping
    exact hpc hj
  rw [← hone.drained]
  exact (h.quiet hnone).2

/-- What the consumer takes is what waits. -/
theorem Inv.batch_eq (h : Inv cap s ph drainer) :
    (Drain.mk s.head (s.tail - s.head) 0 []).batch s.tickets =
      (s.tickets.drop s.head).map Call.entry := by
  have hhead := h.head_le
  show (entries s.tickets (s.head + (s.tail - s.head))).drop s.head = _
  rw [h.tail_eq, Nat.add_sub_cancel' hhead, entries, List.take_length, List.map_drop]

variable [DecidableEq ι]

theorem takenTo_update {head : ℕ} (hpc : s'.pc = update s.pc i p)
    (h : i = c → p.takenTo head = (s.pc i).takenTo head) :
    (s'.pc c).takenTo head = (s.pc c).takenTo head := by
  rw [hpc]
  by_cases hci : c = i
  · rw [hci, update_self, h hci.symm]
  · rw [update_of_ne hci]

theorem consumer_update {tickets : List (Call ι α)} (hpc : s'.pc = update s.pc i p)
    (h : i = c → p.consumer tickets = (s.pc i).consumer tickets) :
    (s'.pc c).consumer tickets = (s.pc c).consumer tickets := by
  rw [hpc]
  by_cases hci : c = i
  · rw [hci, update_self, h hci.symm]
  · rw [update_of_ne hci]

theorem stage_comp_update (hpc : s'.pc = update s.pc i p) :
    Pc.stage ∘ s'.pc = update (Pc.stage ∘ s.pc) i p.stage := by
  rw [hpc, comp_update]

/-- **A step inside an operation** changes nothing of the queue. -/
theorem batchQueue_of_pc (hpc : s'.pc = update s.pc i p) (htickets : s'.tickets = s.tickets)
    (hhead : s'.head = s.head) (hargs : s'.args = s.args) (hreturns : s'.returns = s.returns)
    (hcompleted : s'.completed = s.completed) (hstage : p.stage = (s.pc i).stage)
    (htaken : i = c → p.takenTo s.head = (s.pc i).takenTo s.head)
    (hconsumer : i = c → p.consumer s.tickets = (s.pc i).consumer s.tickets) :
    s'.batchQueue c = s.batchQueue c := by
  have hsame : Pc.stage ∘ s'.pc = Pc.stage ∘ s.pc := by
    rw [stage_comp_update hpc, hstage]
    exact update_eq_self i (Pc.stage ∘ s.pc)
  unfold State.batchQueue
  rw [htickets, hhead, takenTo_update hpc htaken, consumer_update hpc hconsumer, hsame, hargs,
    hreturns, hcompleted]

/-- The same outside `popAll`. -/
theorem batchQueue_of_push (hpc : s'.pc = update s.pc i p) (htickets : s'.tickets = s.tickets)
    (hhead : s'.head = s.head) (hargs : s'.args = s.args) (hreturns : s'.returns = s.returns)
    (hcompleted : s'.completed = s.completed) (hstage : p.stage = (s.pc i).stage)
    (hold : ¬ (s.pc i).Popping) (hnew : ¬ p.Popping) : s'.batchQueue c = s.batchQueue c := by
  have hsame := Pc.consumer_of_not_popping hold s.tickets s.head
  have hnext := Pc.consumer_of_not_popping hnew s.tickets s.head
  exact batchQueue_of_pc hpc htickets hhead hargs hreturns hcompleted hstage
    (fun _ => hnext.2.trans hsame.2.symm) fun _ => hnext.1.trans hsame.1.symm

/-- A step of a push that others can see. -/
theorem batchQueue_eq_of_push (s' : State ι α) (hpc : s'.pc = update s.pc i p)
    (hhead : s'.head = s.head) (hcompleted : s'.completed = s.completed)
    (hold : ¬ (s.pc i).Popping) (hnew : ¬ p.Popping)
    (hconsumer : (s.pc c).consumer s'.tickets = (s.pc c).consumer s.tickets) :
    s'.batchQueue c = { s.batchQueue c with
      waiting := s'.tickets.drop ((s.pc c).takenTo s.head)
      stage := update (s.batchQueue c).stage i p.stage
      args := s'.args
      accepted := s'.tickets
      returns := s'.returns } := by
  have htaken : (s'.pc c).takenTo s.head = (s.pc c).takenTo s.head :=
    takenTo_update hpc fun _ => (Pc.consumer_of_not_popping hnew s.tickets s.head).2.trans
      (Pc.consumer_of_not_popping hold s.tickets s.head).2.symm
  have hsame : (s'.pc c).consumer s'.tickets = (s.pc c).consumer s'.tickets :=
    consumer_update hpc fun _ => (Pc.consumer_of_not_popping hnew s'.tickets s.head).1.trans
      (Pc.consumer_of_not_popping hold s'.tickets s.head).1.symm
  unfold State.batchQueue
  rw [hhead, htaken, hsame, hconsumer, stage_comp_update hpc, hcompleted]

/-- A step of the consumer that others can see. -/
theorem batchQueue_eq_of_pop (s' : State ι α) (hpc : s'.pc = update s.pc c p)
    (htickets : s'.tickets = s.tickets) (hargs : s'.args = s.args)
    (hreturns : s'.returns = s.returns) (hstage : p.stage = (s.pc c).stage) :
    s'.batchQueue c = { s.batchQueue c with
      waiting := s.tickets.drop (p.takenTo s'.head)
      consumer := p.consumer s.tickets
      handed := s'.completed } := by
  have hsame : Pc.stage ∘ s'.pc = Pc.stage ∘ s.pc := by
    rw [stage_comp_update hpc, hstage]
    exact update_eq_self c (Pc.stage ∘ s.pc)
  have hself : s'.pc c = p := by rw [hpc, update_self]
  unfold State.batchQueue
  rw [htickets, hargs, hreturns, hsame, hself]

/-- While the consumer drains, the entries below `head_` have been returned. -/
def State.Settled (s : State ι α) (c : ι) : Prop :=
  (s.pc c).Draining → s.completed = entries s.tickets s.head

theorem State.Settled.of_pc (h : s.Settled c) (hpc : s'.pc = update s.pc i p)
    (htickets : s'.tickets = s.tickets) (hhead : s'.head = s.head)
    (hcompleted : s'.completed = s.completed)
    (hdrain : i = c → p.Draining → (s.pc i).Draining) : s'.Settled c := by
  intro hnow
  rw [hcompleted, htickets, hhead]
  rw [hpc] at hnow
  rcases of_update hnow with ⟨rfl, hp⟩ | ⟨-, hp⟩
  · exact h (hdrain rfl hp)
  · exact h hp

theorem Step.settled {a : Act α} (hstep : Step cap s i a s') (h : Inv cap s ph drainer)
    (hone : OneConsumer s c) (hsettled : s.Settled c) : s'.Settled c := by
  cases hstep with
  | spinFree | spinEntry => exact hsettled
  | reserve hpc _ =>
    intro hnow
    have hc : ¬ (i = c) := by
      rintro rfl
      rw [show (s.reserve i _ _).pc i = _ from update_self ..] at hnow
      exact hnow
    have hold : (s.pc c).Draining := by
      rwa [show (s.reserve i _ _).pc c = s.pc c from update_of_ne (Ne.symm hc) _ _] at hnow
    exact (hsettled hold).trans (entries_concat h.head_le).symm
  | @startDrain k hpc hlt =>
    -- the drain starts with everything below `head_` returned
    intro _
    obtain rfl := hone.alone i (by rw [hpc]; trivial)
    have hcompleted := hone.completed_eq h (by rw [hpc]; exact not_false)
    rw [hpc] at hcompleted
    exact (List.append_nil _).symm.trans hcompleted
  | @storeHead d hpc =>
    intro hnow
    obtain rfl := hone.alone i (by rw [hpc]; trivial)
    rw [show (s.storeHead i d).pc i = _ from update_self ..] at hnow
    exact hnow.elim
  | @returnPop r hpc =>
    intro hnow
    obtain rfl := hone.alone i (by rw [hpc]; trivial)
    rw [show (s.returnPop i r).pc i = _ from update_self ..] at hnow
    exact hnow.elim
  | callPop hpc | popLoadHead hpc | nothing hpc _ | subSize hpc =>
    exact hsettled.of_pc rfl rfl rfl rfl fun _ hp => hp.elim
  | entryReady hpc _ | hasValue hpc _ | noValue hpc _ | moveOut hpc _ | reset hpc
  | freeSlot hpc =>
    exact hsettled.of_pc rfl rfl rfl rfl fun _ _ => by rw [hpc]; trivial
  | _ hpc => exact hsettled.of_pc rfl rfl rfl rfl fun _ hp => hp.elim

/-! ### Every step is an operation, or inside one -/

/-- **Every step is an operation of the queue of batches, or inside one.** -/
theorem Step.batchQueue {a : Act α} (hstep : Step cap s i a s') (h : Inv cap s ph drainer)
    (hone : OneConsumer s c) (hsettled : s.Settled c) (hok : a = .pop → i = c) :
    s'.batchQueue c = s.batchQueue c ∨
      ∃ b, BatchQueue.next cap (s.batchQueue c) b = some (s'.batchQueue c) := by
  have hstage : (s.batchQueue c).stage i = (s.pc i).stage := rfl
  have hwaiting : (s.batchQueue c).waiting = s.tickets.drop ((s.pc c).takenTo s.head) := rfl
  have hconsumer : (s.batchQueue c).consumer = (s.pc c).consumer s.tickets := rfl
  have hpush : ∀ {p : Pc α}, s.pc i = p → ¬ p.Popping → ¬ (s.pc i).Popping := by
    rintro p rfl hp
    exact hp
  cases hstep with
  | spinFree | spinEntry => exact Or.inl rfl
  -- a push is called, decided, and returns
  | @callPush e hpc =>
    rw [hpc] at hstage
    have hnew := batchQueue_eq_of_push (s.callPush i e) (c := c) rfl rfl rfl
      (hpush hpc not_false) not_false rfl
    exact Or.inr ⟨.call i e, by rw [BatchQueue.next_of_step (.call hstage), hnew]; rfl⟩
  | @reserve e t hpc ht =>
    rw [hpc] at hstage
    have hcas := h.pcs i
    rw [hpc] at hcas
    have htail := h.tail_eq
    have hroom : (s.batchQueue c).waiting.length + (s.batchQueue c).consumer.held < cap := by
      have := hcas.2 (by omega)
      have := h.head_le
      rw [h.occupied c]
      omega
    have hnew := batchQueue_eq_of_push (s.reserve i e t) (c := c) rfl rfl rfl
      (hpush hpc not_false) not_false (h.consumer_concat c _)
    have hlast : (s.reserve i e t).tickets.drop ((s.pc c).takenTo s.head) =
        (s.batchQueue c).waiting ++ [⟨i, s.number i, e⟩] :=
      List.drop_append_of_le_length (h.takenTo_le c).2
    rw [hlast] at hnew
    exact Or.inr ⟨.accept i, by rw [BatchQueue.next_of_step (.accept hstage hroom), hnew]; rfl⟩
  | @full e t hpc hfull =>
    rw [hpc] at hstage
    have hnew := batchQueue_eq_of_push (s.goto i (.pushed false)) (c := c) rfl rfl rfl
      (hpush hpc not_false) not_false rfl
    exact Or.inr ⟨.refuse i, by rw [BatchQueue.next_of_step (.refuse hstage), hnew]; rfl⟩
  | @returnPush b hpc =>
    rw [hpc] at hstage
    have hnew := batchQueue_eq_of_push (s.returnPush i b) (c := c) rfl rfl rfl
      (hpush hpc not_false) not_false rfl
    exact Or.inr ⟨.finish i, by rw [BatchQueue.next_of_step (.finish hstage), hnew]; rfl⟩
  | loadTail hpc | room hpc _ | retry hpc | slotFree hpc _ | emplace hpc | publish hpc
  | addSize hpc =>
    exact Or.inl (batchQueue_of_push rfl rfl rfl rfl rfl rfl (by rw [hpc]; rfl)
      (hpush hpc not_false) not_false)
  -- the consumer calls, takes, releases, and returns
  | callPop hpc =>
    obtain rfl := hok rfl
    rw [hpc] at hconsumer
    have hnew := batchQueue_eq_of_pop (s.goto i .popLoadHead) rfl rfl rfl rfl
      (by rw [hpc]; rfl)
    refine Or.inr ⟨.pop, ?_⟩
    rw [BatchQueue.next_of_step (.pop hconsumer), hnew, hwaiting, hpc]
    rfl
  | @nothing k hpc hle =>
    obtain rfl := hone.alone i (by rw [hpc]; trivial)
    obtain rfl := hone.current k hpc
    rw [hpc] at hconsumer hwaiting
    have hnil : s.tickets.drop s.head = [] := List.drop_eq_nil_of_le (h.tail_eq ▸ hle)
    have hnew := batchQueue_eq_of_pop (s.goto i (.popped [])) rfl rfl rfl rfl
      (by rw [hpc]; rfl)
    have htaken : (s.batchQueue i).waiting = [] := hwaiting.trans hnil
    refine Or.inr ⟨.take, ?_⟩
    rw [BatchQueue.next_of_step (.take hconsumer), hnew, htaken]
    show some { s.batchQueue i with waiting := [], consumer := .took [] 0 } =
      some { s.batchQueue i with waiting := s.tickets.drop s.head, consumer := .took [] 0 }
    rw [hnil]
  | @startDrain k hpc hlt =>
    obtain rfl := hone.alone i (by rw [hpc]; trivial)
    obtain rfl := hone.current k hpc
    rw [hpc] at hconsumer hwaiting
    have htail := h.tail_eq
    have hnew := batchQueue_eq_of_pop
      (s.goto i (.awaitEntry ⟨s.head, s.tail - s.head, 0, []⟩)) rfl rfl rfl rfl
      (by rw [hpc]; rfl)
    have hnil : s.tickets.drop (s.head + (s.tail - s.head)) = [] :=
      List.drop_eq_nil_of_le (by omega)
    have hcount : (s.batchQueue i).waiting.length = s.tail - s.head := by
      rw [hwaiting, htail]
      exact List.length_drop
    have hbatch : (Drain.mk s.head (s.tail - s.head) 0 []).batch s.tickets =
        (s.batchQueue i).waiting.map Call.entry := by
      rw [hwaiting]
      exact h.batch_eq
    refine Or.inr ⟨.take, ?_⟩
    rw [BatchQueue.next_of_step (.take hconsumer), hnew, ← hbatch, hcount]
    show _ = some { s.batchQueue i with
      waiting := s.tickets.drop (s.head + (s.tail - s.head))
      consumer := .took ((Drain.mk s.head (s.tail - s.head) 0 []).batch s.tickets)
        (s.tail - s.head) }
    rw [hnil]
  | @storeHead d hpc =>
    obtain rfl := hone.alone i (by rw [hpc]; trivial)
    have hok' := h.pcs i
    have hdrained := hone.drained
    have hcompleted := hsettled (by rw [hpc]; trivial)
    rw [hpc] at hconsumer hwaiting hok' hdrained
    obtain ⟨hprogress, hi, -, hmoved⟩ := hok'
    have hhead := hprogress.head_eq
    have hbound := hprogress.bound
    have hlt := h.tail_lt
    -- all entries of the batch have been moved to the result
    have hbatch : d.result = d.batch s.tickets := by
      have hall : entries s.tickets s.head ++ d.result =
          entries s.tickets (d.head + d.available) := by
        rw [← hcompleted, ← hi]
        exact hdrained.symm.trans hmoved
      rw [Drain.batch, ← hall, hhead, List.drop_left' (length_entries h.head_le)]
    have hnew := batchQueue_eq_of_pop (s.storeHead i d) rfl rfl rfl rfl (by rw [hpc]; rfl)
    have hstore : (s.storeHead i d).head = d.head + d.available := wrap_of_lt (by omega)
    refine Or.inr ⟨.release, ?_⟩
    rw [BatchQueue.next_of_step (.release hconsumer), hnew, hstore, ← hbatch, hwaiting]
    rfl
  | @returnPop r hpc =>
    obtain rfl := hone.alone i (by rw [hpc]; trivial)
    rw [hpc] at hconsumer hwaiting
    have hnew := batchQueue_eq_of_pop (s.returnPop i r) rfl rfl rfl rfl (by rw [hpc]; rfl)
    refine Or.inr ⟨.hand, ?_⟩
    rw [BatchQueue.next_of_step (.hand hconsumer), hnew, hwaiting]
    rfl
  | popLoadHead hpc | entryReady hpc _ | hasValue hpc _ | noValue hpc _ | reset hpc
  | moveOut hpc _ | subSize hpc =>
    exact Or.inl (batchQueue_of_pc rfl rfl rfl rfl rfl rfl (by rw [hpc]; rfl)
      (fun _ => by rw [hpc]; rfl) fun _ => by rw [hpc]; rfl)
  | freeSlot hpc =>
    refine Or.inl (batchQueue_of_pc rfl rfl rfl rfl rfl rfl ?_ (fun _ => ?_) fun _ => ?_) <;>
      rw [hpc] <;> split <;> rfl

end State

/-! ### Every run -/

section Runs

variable [DecidableEq ι] {cap : ℕ} {c : ι} {s : State ι α}

theorem settled_of_reachable (hs : Reachable (next cap) (SingleConsumer c) (init ι α) s)
    (hlt : s.tickets.length < sizeModulus) : s.Settled c := by
  have hguard : Reachable (next cap)
      (fun s a => SingleConsumer c s a ∧ OneConsumer s c) (init ι α) s :=
    hs.tighten fun s a s' hs' _ hok _ => ⟨hok, oneConsumer_of_reachable hs'⟩
  exact invariant_of_singleConsumer hguard hlt (fun h => h.elim)
    fun s s' i a ph drainer hinv hsettled hone hstep => hstep.settled hinv hone hsettled

/-- A step of a run with one consumer. -/
theorem batchQueue_of_next {s' : State ι α} {a : ι × Act α}
    (hs : Reachable (next cap) (SingleConsumer c) (init ι α) s) (hok : SingleConsumer c s a)
    (hnext : next cap s a = some s') (hlt : s'.tickets.length < sizeModulus) :
    s'.batchQueue c = s.batchQueue c ∨
      ∃ b, BatchQueue.next cap (s.batchQueue c) b = some (s'.batchQueue c) := by
  have hlt' : s.tickets.length < sizeModulus :=
    Nat.lt_of_le_of_lt (tickets_le_of_next hnext) hlt
  obtain ⟨ph, drainer, hinv⟩ := inv_of_singleConsumer hs hlt'
  exact (step_of_next hnext).batchQueue hinv (oneConsumer_of_reachable hs)
    (settled_of_reachable hs hlt') hok

/-- Every run is a run of a queue of batches. -/
theorem reachable_batchQueue (hs : Reachable (next cap) (SingleConsumer c) (init ι α) s)
    (hlt : s.tickets.length < sizeModulus) :
    Reachable (BatchQueue.next cap) Always (BatchQueue.init ι α) (s.batchQueue c) := by
  have hbounded := hs.bounded (fun s a s' h => tickets_le_of_next h) hlt
  refine hbounded.project (fun s => s.batchQueue c) ?_
  rintro s a s' hs ⟨hok, hbound⟩ hnext
  have hrun := hs.mono fun _ _ h => h.1
  refine (batchQueue_of_next hrun hok hnext (hbound s' hnext)).imp_right fun ⟨b, hb⟩ => ?_
  exact ⟨b, trivial, hb⟩

/-- **The queue refines a queue of batches**, with the same calls, the same results and
the same entries handed over: each step of a thread is one operation of it, or does not
concern it.  So its slots suffice and nothing accepted is lost: any number of producers,
any capacity, any interleaving, as long as the counters stay below `2 ^ 64`. -/
theorem refines (hs : Reachable (next cap) (SingleConsumer c) (init ι α) s)
    (hlt : s.tickets.length < sizeModulus) :
    Reachable (BatchQueue.next cap) Always (BatchQueue.init ι α) (s.batchQueue c) ∧
      (s.batchQueue c).Sound cap ∧
      ∀ a s', SingleConsumer c s a → next cap s a = some s' → s'.tickets.length < sizeModulus →
        s'.batchQueue c = s.batchQueue c ∨
          ∃ b, BatchQueue.next cap (s.batchQueue c) b = some (s'.batchQueue c) := by
  have hrun := reachable_batchQueue hs hlt
  exact ⟨hrun, BatchQueue.sound_of_reachable hrun, fun a s' => batchQueue_of_next hs⟩

/-- A drain that is on its way: one entry is in the batch, and another waits; whatever the
consumer does next is an operation, or does not concern the queue. -/
theorem refines_draining : ∃ s : State (Fin 2) Char,
    (s.batchQueue 1).consumer.batch = ['a'] ∧ (s.batchQueue 1).waiting.map Call.entry = ['b'] ∧
      Reachable (BatchQueue.next 2) Always (BatchQueue.init (Fin 2) Char) (s.batchQueue 1) ∧
      (s.batchQueue 1).Sound 2 ∧
      ∀ a s', SingleConsumer 1 s a → next 2 s a = some s' → s'.tickets.length < sizeModulus →
        s'.batchQueue 1 = s.batchQueue 1 ∨
          ∃ b, BatchQueue.next 2 (s.batchQueue 1) b = some (s'.batchQueue 1) := by
  obtain ⟨s, hs, hlen, hbatch, hwaiting⟩ := exists_reachable_of_decide (next 2)
    (init (Fin 2) Char) (fun s => s.tickets.length = 2 ∧ (s.batchQueue 1).consumer.batch = ['a'] ∧
      (s.batchQueue 1).waiting.map Call.entry = ['b']) (SingleConsumer 1)
    (doing 0 (.push 'a') 8 ++ doing 1 .pop 2 ++ doing 0 (.push 'b') 8) (by decide +kernel)
  exact ⟨s, hbatch, hwaiting, refines hs (by rw [hlen]; decide +kernel)⟩

/-! ### A call of `popAll` -/

/-- The guard of a call of `popAll`: the consumer has not left it. -/
def InPopAll (c : ι) (s : State ι α) (a : ι × Act α) : Prop :=
  SingleConsumer c s a ∧ (s.pc c).Popping

instance (p : Pc α) : Decidable p.Popping :=
  match p with
  | .popLoadHead | .popLoadTail _ | .awaitEntry _ | .testValue _ | .moveOut _ | .reset _
  | .freeSlot _ | .storeHead _ | .subSize _ | .popped _ => isTrue trivial
  | .idle | .loadTail _ | .loadHead _ _ | .cas _ _ | .awaitFree _ _ | .emplace _ _ | .publish _
  | .addSize | .pushed _ => isFalse not_false

instance [DecidableEq α] (s : State ι α) (a : ι × Act α) : Decidable (InPopAll c s a) :=
  inferInstanceAs (Decidable (_ ∧ _))

/-- While `popAll` runs nothing is returned. -/
theorem Step.completed {s' : State ι α} {i : ι} {a : Act α} (hstep : Step cap s i a s')
    (hone : OneConsumer s c) (hpop : (s'.pc c).Popping) : s'.completed = s.completed := by
  cases hstep with
  | @returnPop r hpc =>
    obtain rfl := hone.alone i (by rw [hpc]; trivial)
    rw [show (s.returnPop i r).pc i = .idle from update_self ..] at hpop
    exact hpop.elim
  | _ => rfl

theorem Step.tickets_grow {s' : State ι α} {i : ι} {a : Act α} (hstep : Step cap s i a s') :
    s.tickets <+: s'.tickets := by
  cases hstep with
  | reserve => exact List.prefix_append _ _
  | _ => exact List.prefix_rfl

/-- **The moment of a `popAll`**, once it has taken its batch: what had been accepted by
then and not been returned is the batch. -/
def TakenAt (cap : ℕ) (c : ι) (s₀ s₁ s : State ι α) (batch : List α) : Prop :=
  ∃ m, Reachable (next cap) (InPopAll c) s₁ m ∧ Reachable (next cap) (InPopAll c) m s ∧
    s₀.tickets <+: m.tickets ∧ m.completed = s₀.completed ∧
    m.tickets.map Call.entry = s₀.completed ++ batch

/-- **`popAll` is atomic**: at one moment between its call and its return the entries that
had been accepted and not been returned were just its result.  So it returns everything
that was accepted before it was called. -/
theorem popAll_atomic {s' : State ι α} {es : List α}
    (hs : Reachable (next cap) (SingleConsumer c) (init ι α) s) (hidle : s.pc c = .idle)
    (hcall : Reachable (next cap) (InPopAll c) (s.goto c .popLoadHead) s')
    (hlt : s'.tickets.length < sizeModulus) (hret : s'.pc c = .popped es) :
    TakenAt cap c s (s.goto c .popLoadHead) s' es := by
  have hstart : Reachable (next cap) (SingleConsumer c) (init ι α) (s.goto c .popLoadHead) := by
    refine hs.step (a := (c, .pop)) (fun _ => rfl) ?_
    simp only [next, threadNext, hidle]
  have hall : ∀ {x}, Reachable (next cap) (InPopAll c) (s.goto c .popLoadHead) x →
      Reachable (next cap) (SingleConsumer c) (init ι α) x :=
    fun hx => hstart.append (hx.mono fun _ _ h => h.1)
  -- what has been taken so far was taken at one moment
  have hinv : (s'.pc c).Popping → s'.completed = s.completed ∧ s.tickets <+: s'.tickets ∧
      ∀ batch held, (s'.pc c).consumer s'.tickets = .took batch held →
        TakenAt cap c s (s.goto c .popLoadHead) s' batch := by
    have hbounded := hcall.bounded (fun s a s' h => tickets_le_of_next h) hlt
    clear hret hlt hcall
    induction hbounded with
    | init =>
      intro _
      refine ⟨rfl, List.prefix_rfl, fun batch held h => ?_⟩
      rw [show (s.goto c .popLoadHead).pc c = .popLoadHead from update_self ..] at h
      contradiction
    | @step x y a hx hok hnext ih =>
      intro hpop
      obtain ⟨hguard, hbound⟩ := hok
      have hrun : Reachable (next cap) (InPopAll c) (s.goto c .popLoadHead) x :=
        hx.mono fun _ _ h => h.1
      obtain ⟨hcompleted, htickets, htook⟩ := ih hguard.2
      have hone := oneConsumer_of_reachable (hall hrun)
      have hsame := (step_of_next hnext).completed hone hpop
      have hmore := htickets.trans (step_of_next hnext).tickets_grow
      refine ⟨hsame.trans hcompleted, hmore, fun batch held h => ?_⟩
      have hlater : ∀ {b}, TakenAt cap c s (s.goto c .popLoadHead) x b →
          TakenAt cap c s (s.goto c .popLoadHead) y b := fun ⟨m, hm, hmx, hrest⟩ =>
        ⟨m, hm, hmx.step hguard hnext, hrest⟩
      have hlt := hbound y hnext
      have hsound := BatchQueue.sound_of_reachable
        (reachable_batchQueue (hall (hrun.step hguard hnext)) hlt)
      rcases batchQueue_of_next (hall hrun) hguard.1 hnext hlt with heq | ⟨b, hb⟩
      · refine hlater (htook batch held ?_)
        rw [← h]
        exact (congrArg BatchQueue.consumer heq).symm
      · rcases BatchQueue.took_of_next hb h with ⟨held', hold⟩ | hnone
        · exact hlater (htook batch held' hold)
        · -- the batch has just been taken: this is the moment
          refine ⟨y, hrun.step hguard hnext, .init, hmore, hsame.trans hcompleted, ?_⟩
          have hkept := hsound.kept
          rw [hnone, show (y.batchQueue c).consumer = .took batch held from h] at hkept
          rw [← hcompleted, ← hsame]
          exact hkept.symm.trans (List.append_nil _)
  obtain ⟨-, -, htook⟩ := hinv (by rw [hret]; trivial)
  exact htook es 0 (by rw [hret]; rfl)

/-- An entry that is pushed while `popAll` runs, before it loads `tail_`, is returned. -/
theorem popAll_atomic_pushed : ∃ s' : State (Fin 2) Char, s'.pc 1 = .popped ['a'] ∧
    TakenAt 2 1 (init (Fin 2) Char) ((init (Fin 2) Char).goto 1 .popLoadHead) s' ['a'] := by
  obtain ⟨s', hs', hlen, hret⟩ := exists_reachable_of_decide (next 2)
    ((init (Fin 2) Char).goto 1 .popLoadHead)
    (fun s' => s'.tickets.length = 1 ∧ s'.pc 1 = .popped ['a']) (InPopAll 1)
    ([(1, .step)] ++ doing 0 (.push 'a') 8 ++ List.replicate 8 (1, .step)) (by decide +kernel)
  exact ⟨s', hret, popAll_atomic .init rfl hs' (by rw [hlen]; decide +kernel) hret⟩

end Runs

end AsyncQueue
end SpeckitLog
