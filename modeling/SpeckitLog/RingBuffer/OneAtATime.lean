import SpeckitLog.RingBuffer.Sequential

/-!
# Runs in which no two calls overlap

The ring buffer that takes one atomic operation at a time does what the whole methods
do, as long as a thread takes a step only when the others are outside their calls.

## Main definitions

* `OneAtATime` — the guard of these runs.
* `Pc.finish` — what the rest of a running call gives when nothing comes between.
* `Logged`, `Logged.next` — the object with a log of the calls that have returned.
* `Follows` — the log is a sequence of calls, and one more may be running.

## Main results

* `Step.finish` — **a step inside a call does not change what the call gives.**
* `Logged.exists_of_reachable` — every run can be logged.
* `Follows.step` — **a run in which the calls do not overlap is a sequence of calls.**
* `fifo_of_oneAtATime` — **and each is answered as a bounded queue answers it.**
-/

namespace SpeckitLog
namespace RingBuffer

open Function Transition

variable {ι α : Type*} {cap : ℕ}

/-- The other threads are outside their calls. -/
def OneAtATime (s : State ι α) (a : ι × Act α) : Prop := ∀ j, j ≠ a.1 → s.pc j = .idle

/-- The members of the object. -/
def State.members (s : State ι α) : Members α := ⟨s.buffer, s.head, s.tail, s.size⟩

theorem State.members_size (s : State ι α) : s.members.size = s.size := rfl

/-! ### The rest of a call -/

/-- `tryPush` from the write of the slot on. -/
def Members.write (m : Members α) (cap currentHead : ℕ) (entry : α) :
    Option (Answer α × Members α) :=
  (remainder currentHead cap).map fun index =>
    (.pushed true, { m with buffer := update m.buffer index entry })

/-- `popAll` from the store of `tail_` on. -/
def Members.setTail (m : Members α) (cap : ℕ) (d : Drain α) : Option (Answer α × Members α) :=
  (remainder (wrap (d.currentTail + d.oldSize)) cap).map fun newTail =>
    (.popped d.entries, { m with tail := newTail })

/-- `popAll` from the read of a slot on. -/
def Members.drain (m : Members α) (cap : ℕ) (d : Drain α) : Option (Answer α × Members α) :=
  (remainder (wrap (d.currentTail + d.i)) cap).bind fun index =>
    (m.collect cap d.currentTail (d.i + 1) (d.oldSize - (d.i + 1))
      (d.entries ++ [m.buffer index])).bind fun entries =>
        m.setTail cap { d with entries := entries }

/-- What the rest of the call of a thread gives when nothing comes between. -/
def Pc.finish (cap : ℕ) (m : Members α) : Pc α → Option (Answer α × Members α)
  | .idle => none
  | .loadSize e => (Op.tryPush e).call cap m
  | .addSize e =>
    let m' := { m with size := wrap (m.size + 1) }
    if cap ≤ m.size then some (.pushed false, { m' with size := wsub m'.size 1 })
    else { m' with head := wrap (m.head + 1) }.write cap m.head e
  | .subSize => some (.pushed false, { m with size := wsub m.size 1 })
  | .addHead e => { m with head := wrap (m.head + 1) }.write cap m.head e
  | .store e currentHead => m.write cap currentHead e
  | .pushed ok => some (.pushed ok, m)
  | .exchange => Op.popAll.call cap m
  | .loadTail n => m.drain cap ⟨m.tail, n, 0, []⟩
  | .read d => m.drain cap d
  | .storeTail d => m.setTail cap d
  | .popped r => some (.popped r, m)

/-- With slots, every remainder is there. -/
theorem Members.write_of_pos (hcap : 0 < cap) (m : Members α) (currentHead : ℕ) (e : α) :
    m.write cap currentHead e =
      some (.pushed true, { m with buffer := update m.buffer (currentHead % cap) e }) := by
  rw [write, remainder_of_pos hcap, Option.map_some]

theorem Members.drain_of_pos (hcap : 0 < cap) (m : Members α) (d : Drain α) :
    m.drain cap d = (m.collect cap d.currentTail (d.i + 1) (d.oldSize - (d.i + 1))
      (d.entries ++ [m.buffer (d.index cap)])).bind fun entries =>
        m.setTail cap { d with entries := entries } := by
  rw [drain, remainder_of_pos hcap]
  rfl

theorem Members.setTail_of_pos (hcap : 0 < cap) (m : Members α) (d : Drain α) :
    m.setTail cap d =
      some (.popped d.entries, { m with tail := wrap (d.currentTail + d.oldSize) % cap }) := by
  rw [setTail, remainder_of_pos hcap, Option.map_some]

/-- One read is one round of the loop. -/
theorem Members.drain_read (hcap : 0 < cap) (m : Members α) {d : Drain α}
    (h : d.i + 1 < d.oldSize) : m.drain cap d = m.drain cap
      { d with i := d.i + 1, entries := d.entries ++ [m.buffer (d.index cap)] } := by
  have hround : d.oldSize - (d.i + 1) = d.oldSize - (d.i + 1 + 1) + 1 := by omega
  rw [drain_of_pos hcap, drain_of_pos hcap, hround, collect_succ hcap]
  rfl

/-- After the last read the loop ends. -/
theorem Members.drain_last (hcap : 0 < cap) (m : Members α) {d : Drain α}
    (h : ¬ d.i + 1 < d.oldSize) : m.drain cap d = m.setTail cap
      { d with i := d.i + 1, entries := d.entries ++ [m.buffer (d.index cap)] } := by
  have hround : d.oldSize - (d.i + 1) = 0 := by omega
  rw [drain_of_pos hcap, hround, collect, Option.bind_some]
  rfl

/-- A `popAll` that finds entries takes `size_` to zero and drains. -/
theorem Members.popAll_eq_drain (hcap : 0 < cap) (m : Members α) (h : m.size ≠ 0) :
    Op.popAll.call cap m = { m with size := 0 }.drain cap ⟨m.tail, m.size, 0, []⟩ := by
  have hround : m.size = m.size - (0 + 1) + 1 := by omega
  obtain ⟨es, hes⟩ := collect_isSome hcap { m with size := 0 } m.tail m.size 0 []
  have hrest : { m with size := 0 }.collect cap m.tail (0 + 1) (m.size - (0 + 1))
      ([] ++ [m.buffer (wrap (m.tail + 0) % cap)]) = some es := by
    rw [← hes, hround, collect_succ hcap]
    rfl
  have hdrain : { m with size := 0 }.drain cap ⟨m.tail, m.size, 0, []⟩ =
      { m with size := 0 }.setTail cap ⟨m.tail, m.size, 0, es⟩ := by
    have hbind := drain_of_pos hcap { m with size := 0 } ⟨m.tail, m.size, 0, []⟩
    simp only [Drain.index, hrest, Option.bind_some] at hbind
    exact hbind
  rw [hdrain, setTail_of_pos hcap, Op.call, popAll_of_collect hcap h hes]
  rfl

/-- Where there is room, `tryPush` goes on past its first test. -/
theorem Pc.finish_addSize {m : Members α} (h : m.size < cap) (e : α) :
    (Pc.addSize e).finish cap m = (Op.tryPush e).call cap m := by
  rw [finish, if_neg (Nat.not_le.mpr h), Members.write_of_pos (Nat.zero_lt_of_lt h), Op.call,
    Members.tryPush_of_room h]
  rfl

variable [DecidableEq ι] {s s' : State ι α} {i : ι}

/-- **A step inside a call does not change what the call gives.** -/
theorem Step.finish {a : Act α} (h : Step cap s i a s') (hrun : s'.pc i ≠ .idle)
    {r : Answer α × Members α} (hr : (s.pc i).finish cap s.members = some r) :
    (s'.pc i).finish cap s'.members = some r := by
  have hself : ∀ {p : Pc α} {m : Members α}, s'.pc = update s.pc i p → s'.members = m →
      p.finish cap m = some r → (s'.pc i).finish cap s'.members = some r := by
    intro p m hpc hm hp
    rw [hpc, update_self, hm, hp]
  cases h with
  | callPush hpc | callPop hpc =>
    rw [hpc] at hr
    exact absurd hr.symm (Option.some_ne_none r)
  | returnPush hpc | returnPop hpc => exact absurd (update_self ..) hrun
  | full hpc hfull =>
    rw [hpc, Pc.finish, Op.call, Members.tryPush_of_full hfull] at hr
    exact hself rfl rfl hr
  | @room e hpc hroom =>
    rw [hpc] at hr
    exact hself rfl rfl ((Pc.finish_addSize hroom e).trans hr)
  | @addSize e hpc =>
    rw [hpc] at hr
    refine hself rfl rfl ?_
    by_cases hfull : cap ≤ s.size
    · rw [if_pos hfull]
      exact (if_pos hfull).symm.trans hr
    · rw [if_neg hfull]
      exact (if_neg hfull).symm.trans hr
  | subSize hpc | addHead hpc | loadTail hpc =>
    rw [hpc] at hr
    exact hself rfl rfl hr
  | @store e currentHead hpc =>
    rw [hpc] at hr
    rcases Nat.eq_zero_or_pos cap with rfl | hcap
    · exact absurd hr.symm (Option.some_ne_none r)
    · exact hself rfl rfl ((Members.write_of_pos hcap _ _ _).symm.trans hr)
  | exchange hpc =>
    rw [hpc] at hr
    refine hself rfl rfl ?_
    by_cases hsize : s.size = 0
    · rw [if_pos hsize]
      rw [Pc.finish, Op.call, Members.popAll, State.members_size, if_pos hsize] at hr
      exact hr
    · rw [if_neg hsize]
      rcases Nat.eq_zero_or_pos cap with rfl | hcap
      · rw [Pc.finish, Op.call, Members.popAll, State.members_size, if_neg hsize] at hr
        exact absurd hr.symm (Option.some_ne_none r)
      · exact (Members.popAll_eq_drain hcap s.members hsize).symm.trans hr
  | @read d hpc =>
    rw [hpc] at hr
    rcases Nat.eq_zero_or_pos cap with rfl | hcap
    · exact absurd hr.symm (Option.some_ne_none r)
    · refine hself rfl rfl ?_
      dsimp only
      by_cases hmore : d.i + 1 < d.oldSize
      · rw [if_pos hmore]
        exact (Members.drain_read hcap s.members hmore).symm.trans hr
      · rw [if_neg hmore]
        exact (Members.drain_last hcap s.members hmore).symm.trans hr
  | @storeTail d hpc =>
    rw [hpc] at hr
    rcases Nat.eq_zero_or_pos cap with rfl | hcap
    · exact absurd hr.symm (Option.some_ne_none r)
    · exact hself rfl rfl ((Members.setTail_of_pos hcap _ _).symm.trans hr)

/-- A thread that is in a call takes the next step of it. -/
theorem Step.eq_step {a : Act α} (h : Step cap s i a s') (hrun : s.pc i ≠ .idle) :
    a = .step := by
  cases h with
  | callPush hpc | callPop hpc => exact absurd hpc hrun
  | _ => rfl

/-! ### The calls of a run -/

/-- A call that has returned. -/
structure Completed (ι α : Type*) where
  thread : ι
  op : Op α
  answer : Answer α
  deriving DecidableEq

/-- The object, the call that each thread made last, and the calls that have returned, in
the order of their returns. -/
structure Logged (ι α : Type*) where
  now : State ι α
  calling : ι → Option (Op α)
  log : List (Completed ι α)

/-- No call has been made. -/
def Logged.init (ι : Type*) (dflt : α) : Logged ι α := ⟨RingBuffer.init ι dflt, fun _ => none, []⟩

/-- What the method gives that the thread is about to leave. -/
def Pc.answer : Pc α → Option (Answer α)
  | .pushed ok => some (.pushed ok)
  | .popped es => some (.popped es)
  | _ => none

/-- The method that is called. -/
def Act.op : Act α → Option (Op α)
  | .push e => some (.tryPush e)
  | .pop => some .popAll
  | .step => none

/-- The call that a step of thread `i` ends. -/
def Logged.returning (l : Logged ι α) (i : ι) : List (Completed ι α) :=
  match l.calling i, (l.now.pc i).answer with
  | some op, some answer => [⟨i, op, answer⟩]
  | _, _ => []

/-- A step of the object, with its entry in the log. -/
def Logged.next (cap : ℕ) (l : Logged ι α) (a : ι × Act α) : Option (Logged ι α) :=
  (RingBuffer.next cap l.now a).map fun s =>
    { now := s
      calling := if a.2.op.isSome then update l.calling a.1 a.2.op else l.calling
      log := l.log ++ l.returning a.1 }

theorem Logged.of_next {l l' : Logged ι α} {a : ι × Act α} (h : l.next cap a = some l') :
    Step cap l.now a.1 a.2 l'.now ∧ l'.log = l.log ++ l.returning a.1 ∧
      l'.calling = if a.2.op.isSome then update l.calling a.1 a.2.op else l.calling := by
  obtain ⟨s, hs, rfl⟩ := Option.map_eq_some_iff.mp h
  exact ⟨step_of_next hs, rfl, rfl⟩

/-- Every run can be logged. -/
theorem Logged.exists_of_reachable {ok : State ι α → ι × Act α → Prop} {s₀ s : State ι α}
    (hs : Reachable (RingBuffer.next cap) ok s₀ s) :
    ∃ l, Reachable (Logged.next cap) (fun l a => ok l.now a) ⟨s₀, fun _ => none, []⟩ l ∧
      l.now = s := by
  induction hs with
  | init => exact ⟨_, .init, rfl⟩
  | step _ hok ha ih =>
    obtain ⟨l, hl, rfl⟩ := ih
    exact ⟨_, hl.step hok (Option.map_eq_some_iff.mpr ⟨_, ha, rfl⟩), rfl⟩

omit [DecidableEq ι] in
/-- A thread that is inside its call, or outside, ends none. -/
theorem Logged.returning_of_none {l : Logged ι α} (h : (l.now.pc i).answer = none) :
    l.returning i = [] := by
  unfold returning
  rw [h]
  split
  · contradiction
  · rfl

theorem Pc.answer_of_inner {p : Pc α} (h : p.Inner) : p.answer = none := by
  cases p with
  | pushed | popped => exact h.elim
  | _ => rfl

omit [DecidableEq ι] in
theorem perform_concat (cap : ℕ) (m : Members α) (ops : List (Op α)) (op : Op α) :
    perform cap m (ops ++ [op]) = (perform cap m ops).bind fun r =>
      (op.call cap r.2).map fun a => (r.1 ++ [a.1], a.2) := by
  induction ops generalizing m with
  | nil => cases h : op.call cap m <;> simp [perform, h]
  | cons o ops ih =>
    rw [List.cons_append, perform, perform]
    cases h : o.call cap m with
    | none => rfl
    | some a =>
      rw [Option.bind_some, Option.bind_some, ih]
      cases perform cap a.2 ops with
      | none => rfl
      | some r => cases h : op.call cap r.2 <;> simp [h]

/-- The call that is running, if there is one, gives what it gives in the members `m`
that the last call left. -/
def State.Running (s : State ι α) (cap : ℕ) (m : Members α) : Option (ι × Op α) → Prop
  | none => (∀ i, s.pc i = .idle) ∧ s.members = m
  | some (i, op) => (∀ j, j ≠ i → s.pc j = .idle) ∧ s.pc i ≠ .idle ∧
      (s.pc i).finish cap s.members = op.call cap m

/-- **A run so far.**  The calls of the log were made one after the other, with the
answers of the log, and left the members `m`; `running` is the call that has not returned. -/
structure Follows (cap : ℕ) (dflt : α) (l : Logged ι α) (m : Members α)
    (running : Option (ι × Op α)) : Prop where
  done : perform cap (construct dflt) (l.log.map Completed.op) =
    some (l.log.map Completed.answer, m)
  calling : ∀ i op, running = some (i, op) → l.calling i = some op
  now : l.now.Running cap m running

section Follows

variable {dflt : α} {l l' : Logged ι α} {m : Members α} {running : Option (ι × Op α)}
  {a : Act α} {op : Op α}

omit [DecidableEq ι] in
theorem follows_init (cap : ℕ) (dflt : α) :
    Follows cap dflt (Logged.init ι dflt) (construct dflt) none :=
  ⟨rfl, fun _ _ h => (Option.some_ne_none _ h.symm).elim, fun _ => rfl, rfl⟩

/-- A thread calls a method. -/
theorem Follows.start (h : Follows cap dflt l m none) {p : Pc α}
    (hlog : l'.log = l.log ++ l.returning i) (hcalling : l'.calling i = some op)
    (hpc : l'.now.pc = update l.now.pc i p) (hp : p ≠ .idle)
    (hfinish : p.finish cap l.now.members = op.call cap l.now.members)
    (hmembers : l'.now.members = l.now.members) : Follows cap dflt l' m (some (i, op)) where
  done := by
    rw [hlog, Logged.returning_of_none (by rw [h.now.1 i]; rfl), List.append_nil]
    exact h.done
  calling j op' hj := by
    obtain ⟨rfl, rfl⟩ := Prod.mk.inj (Option.some.inj hj)
    exact hcalling
  now := by
    rw [State.Running, hpc, update_self, hmembers, hfinish, h.now.2]
    exact ⟨fun j hj => (update_of_ne hj p l.now.pc).trans (h.now.1 j), hp, rfl⟩

omit [DecidableEq ι] in
/-- The running call comes to an end. -/
theorem Follows.exists_call (h : Follows cap dflt l m (some (i, op))) :
    ∃ r, op.call cap m = some r := by
  obtain ⟨as', m', hall⟩ := exists_perform cap dflt (l.log.map Completed.op ++ [op])
  rw [perform_concat, h.done, Option.bind_some] at hall
  obtain ⟨r, hr, -⟩ := Option.map_eq_some_iff.mp hall
  exact ⟨r, hr⟩

/-- The running call takes a step. -/
theorem Follows.move (h : Follows cap dflt l m (some (i, op)))
    (hstep : Step cap l.now i a l'.now) (hlog : l'.log = l.log ++ l.returning i)
    (hcalling : l'.calling = l.calling) (hin : (l.now.pc i).Inner) :
    Follows cap dflt l' m (some (i, op)) := by
  obtain ⟨-, -, hpc, -⟩ := hstep.inner hin
  obtain ⟨r, hr⟩ := h.exists_call
  obtain ⟨hidle, -, hfinish⟩ := h.now
  refine ⟨?_, fun j op' hj => ?_, ?_, hpc, ?_⟩
  · rw [hlog, Logged.returning_of_none (Pc.answer_of_inner hin), List.append_nil]
    exact h.done
  · rw [hcalling]
    exact h.calling j op' hj
  · exact fun j hj => (hstep.pc_of_ne hj).trans (hidle j hj)
  · rw [hr, hstep.finish hpc (hfinish.trans hr)]

/-- The running call returns. -/
theorem Follows.finish (h : Follows cap dflt l m (some (i, op))) (ans : Answer α)
    (hans : (l.now.pc i).answer = some ans)
    (hfinish : (l.now.pc i).finish cap l.now.members = some (ans, l.now.members))
    (hlog : l'.log = l.log ++ l.returning i) (hpc : l'.now.pc = update l.now.pc i .idle)
    (hmembers : l'.now.members = l.now.members) : Follows cap dflt l' l.now.members none := by
  obtain ⟨hidle, -, hrest⟩ := h.now
  have hreturning : l.returning i = [⟨i, op, ans⟩] := by
    unfold Logged.returning
    rw [h.calling i op rfl, hans]
  refine ⟨?_, fun _ _ hnone => (Option.some_ne_none _ hnone.symm).elim, fun j => ?_, hmembers⟩
  · rw [hlog, hreturning, List.map_append, List.map_append, List.map_singleton,
      List.map_singleton, perform_concat, h.done, Option.bind_some, ← hrest, hfinish]
    rfl
  · rw [hpc]
    by_cases hji : j = i
    · rw [hji, update_self]
    · rw [update_of_ne hji, hidle j hji]

/-- **A step takes the run on.** -/
theorem Follows.step (h : Follows cap dflt l m running) (hnext : l.next cap (i, a) = some l')
    (halone : OneAtATime l.now (i, a)) : ∃ m' running', Follows cap dflt l' m' running' := by
  obtain ⟨hstep, hlog, hcalling⟩ := Logged.of_next hnext
  have hcalled : ∀ op, a.op = some op → l'.calling i = some op := by
    intro op hop
    rw [hcalling]
    show (if a.op.isSome then update l.calling i a.op else l.calling) i = some op
    rw [hop, Option.isSome_some, if_pos rfl, update_self]
  cases running with
  | none =>
    have hidle := h.now.1 i
    generalize hs' : l'.now = s' at hstep
    cases hstep with
    | @callPush e hpc =>
      exact ⟨m, some (i, .tryPush e), h.start hlog (hcalled _ rfl) (by rw [hs']; rfl) (by simp)
        rfl (by rw [hs']; rfl)⟩
    | callPop hpc =>
      exact ⟨m, some (i, .popAll), h.start hlog (hcalled _ rfl) (by rw [hs']; rfl) (by simp)
        rfl (by rw [hs']; rfl)⟩
    | full hpc _ | room hpc _ => exact absurd (hpc.symm.trans hidle) (by simp)
    | _ hpc => exact absurd (hpc.symm.trans hidle) (by simp)
  | some o =>
    obtain ⟨k, op⟩ := o
    -- the thread that takes a step is the one in the call
    obtain rfl : i = k := by
      by_contra hik
      exact h.now.2.1 (halone k (Ne.symm hik))
    obtain rfl := hstep.eq_step h.now.2.1
    by_cases hin : (l.now.pc i).Inner
    · exact ⟨m, some (i, op), h.move hstep hlog hcalling hin⟩
    · generalize hs' : l'.now = s' at hstep
      cases hstep with
      | @returnPush ok hpc =>
        exact ⟨_, _, h.finish (.pushed ok) (by rw [hpc]; rfl) (by rw [hpc]; rfl) hlog
          (by rw [hs']; rfl) (by rw [hs']; rfl)⟩
      | @returnPop es hpc =>
        exact ⟨_, _, h.finish (.popped es) (by rw [hpc]; rfl) (by rw [hpc]; rfl) hlog
          (by rw [hs']; rfl) (by rw [hs']; rfl)⟩
      | full hpc _ | room hpc _ => exact absurd (by rw [hpc]; trivial) hin
      | _ hpc => exact absurd (by rw [hpc]; trivial) hin

/-- **A run in which the calls do not overlap is a sequence of calls**: the calls of the
log, with the answers of the log. -/
theorem follows_of_oneAtATime
    (hl : Reachable (Logged.next cap) (fun l a => OneAtATime l.now a) (Logged.init ι dflt) l) :
    ∃ m running, Follows cap dflt l m running :=
  hl.invariant (I := fun l => ∃ m running, Follows cap dflt l m running)
    ⟨construct dflt, none, follows_init cap dflt⟩
    fun _ _ _ _ ⟨_, _, h⟩ hok hnext => h.step hnext hok

end Follows

/-! ### The same on a queue -/

section Fifo

omit [DecidableEq ι]

variable {m m' : Members α} {q : BoundedFifo α cap} {popped : ℕ} {ans : Answer α}
  {as : List (Answer α)}

/-- A call accepts what the queue accepts, also where `head_` is about to wrap. -/
theorem Represents.accepted_eq (h : Represents cap m q popped) (op : Op α)
    (hcall : op.call cap m = some (ans, m')) : (op.onFifo q).1.accepted = ans.accepted := by
  cases op with
  | tryPush e =>
    rcases Nat.lt_or_ge m.size cap with hroom | hfull
    · have hok : (q.push e).1 = true := (BoundedFifo.push_of_room (h.size_eq ▸ hroom) e).1
      rw [Op.call, Members.tryPush_of_room hroom, Option.map_some] at hcall
      obtain ⟨rfl, -⟩ := Prod.mk.inj (Option.some.inj hcall)
      exact hok
    · have hno : q.push e = (false, q) := BoundedFifo.push_of_full (h.size_eq ▸ hfull) e
      rw [Op.call, Members.tryPush_of_full hfull, Option.map_some] at hcall
      obtain ⟨rfl, -⟩ := Prod.mk.inj (Option.some.inj hcall)
      exact congrArg Prod.fst hno
  | popAll =>
    obtain ⟨r, -, hr⟩ := Option.map_eq_some_iff.mp hcall
    obtain ⟨rfl, -⟩ := Prod.mk.inj hr
    rfl
  | isEmpty | size | capacity =>
    obtain ⟨rfl, -⟩ := Prod.mk.inj (Option.some.inj hcall)
    rfl

/-- Calls that have accepted fewer than `2 ^ 64` entries answered as the queue does. -/
theorem Represents.of_perform {ops : List (Op α)} (h : Represents cap m q popped)
    (hperform : RingBuffer.perform cap m ops = some (as, m'))
    (hlt : m.head + as.countP Answer.accepted < sizeModulus) :
    (performFifo q ops).1 = as ∧ ∃ popped', Represents cap m' (performFifo q ops).2 popped' := by
  induction ops generalizing m q popped as with
  | nil =>
    obtain ⟨rfl, rfl⟩ := Prod.mk.inj (Option.some.inj hperform)
    exact ⟨rfl, popped, h⟩
  | cons op ops ih =>
    obtain ⟨⟨ans, m₁⟩, hcall, hrest⟩ := Option.bind_eq_some_iff.mp hperform
    obtain ⟨⟨as', m₂⟩, hops, heq⟩ := Option.map_eq_some_iff.mp hrest
    obtain ⟨rfl, rfl⟩ := Prod.mk.inj heq
    have haccepted := h.accepted_eq op hcall
    rw [List.countP_cons] at hlt
    obtain ⟨m₁', popped₁, hcall', h₁, hhead⟩ := h.call op fun hacc => by
      rw [if_pos (haccepted.symm.trans hacc)] at hlt
      omega
    obtain ⟨hans, rfl⟩ := Prod.mk.inj (Option.some.inj (hcall'.symm.trans hcall))
    obtain ⟨has, popped', hrep⟩ := ih h₁ hops (by rw [hhead, haccepted]; dsimp only at *; omega)
    refine ⟨?_, popped', hrep⟩
    rw [performFifo, hans, has]

end Fifo

/-- **Calls that do not overlap make a bounded queue**, step by step: the calls that have
returned were answered, in their order, as a queue of `capacity_` entries answers them one
after the other; and when no call is running the buffer holds what the queue holds; as long
as fewer than `2 ^ 64` pushes succeeded. -/
theorem fifo_of_oneAtATime {dflt : α} {l : Logged ι α}
    (hl : Reachable (Logged.next cap) (fun l a => OneAtATime l.now a) (Logged.init ι dflt) l)
    (hlt : l.log.countP (fun c => c.answer.accepted) < sizeModulus) :
    l.log.map Completed.answer =
        (performFifo (.empty α cap) (l.log.map Completed.op)).1 ∧
      ((∀ i, l.now.pc i = .idle) →
        l.now.size = (performFifo (.empty α cap) (l.log.map Completed.op)).2.entries.length ∧
        window cap l.now.buffer l.now.tail l.now.size =
          (performFifo (.empty α cap) (l.log.map Completed.op)).2.entries) := by
  obtain ⟨m, running, h⟩ := follows_of_oneAtATime hl
  obtain ⟨hanswers, popped, hrep⟩ := (represents_construct cap dflt).of_perform h.done (by
    rw [construct, Nat.zero_add, List.countP_map]
    exact hlt)
  refine ⟨hanswers.symm, fun hidle => ?_⟩
  cases running with
  | none =>
    obtain rfl : l.now.members = m := h.now.2
    refine ⟨hrep.size_eq, ?_⟩
    rw [← hrep.window_eq]
    exact window_congr hrep.tail_mod l.now.buffer l.now.size
  | some o => exact absurd (hidle o.1) h.now.2.1

/-- The thread is outside its calls. -/
def Pc.isIdle : Pc α → Bool
  | .idle => true
  | _ => false

theorem Pc.eq_idle_of_isIdle {p : Pc α} (h : p.isIdle = true) : p = .idle := by
  cases p with
  | idle => rfl
  | _ => contradiction

/-- Two threads push in turn, and one is refused; both pop, and the second finds nothing;
then the slots are used again. -/
theorem fifo_of_oneAtATime_two : ∃ l : Logged (Fin 2) Char,
    l.log = [⟨0, .tryPush 'a', .pushed true⟩, ⟨1, .tryPush 'b', .pushed true⟩,
      ⟨0, .tryPush 'c', .pushed false⟩, ⟨1, .popAll, .popped ['a', 'b']⟩,
      ⟨0, .popAll, .popped []⟩, ⟨1, .tryPush 'd', .pushed true⟩] ∧
    l.log.map Completed.answer =
      (performFifo (.empty Char 2) (l.log.map Completed.op)).1 ∧
    window 2 l.now.buffer l.now.tail l.now.size =
      (performFifo (.empty Char 2) (l.log.map Completed.op)).2.entries := by
  obtain ⟨l, hl, hp⟩ := exists_reachable_of_run (Logged.next 2) (Logged.init (Fin 2) '-')
    (fun l => l.log = [⟨0, .tryPush 'a', .pushed true⟩, ⟨1, .tryPush 'b', .pushed true⟩,
        ⟨0, .tryPush 'c', .pushed false⟩, ⟨1, .popAll, .popped ['a', 'b']⟩,
        ⟨0, .popAll, .popped []⟩, ⟨1, .tryPush 'd', .pushed true⟩] ∧
      ∀ i, (l.now.pc i).isIdle = true)
    (fun l a => decide (∀ j, j ≠ a.1 → (l.now.pc j).isIdle = true))
    (doing 0 (.push 'a') 5 ++ doing 1 (.push 'b') 5 ++ doing 0 (.push 'c') 2
      ++ doing 1 .pop 6 ++ doing 0 .pop 2 ++ doing 1 (.push 'd') 5) (by decide +kernel)
  simp only [decide_eq_true_eq] at hp
  obtain ⟨hlog, hidle⟩ := hp
  have halone : Reachable (Logged.next 2) (fun l a => OneAtATime l.now a)
      (Logged.init (Fin 2) '-') l :=
    hl.mono fun l a ha j hj => Pc.eq_idle_of_isIdle (of_decide_eq_true ha j hj)
  obtain ⟨hanswers, hheld⟩ := fifo_of_oneAtATime halone (by rw [hlog]; decide +kernel)
  exact ⟨l, hlog, hanswers, (hheld fun i => Pc.eq_idle_of_isIdle (hidle i)).2⟩

end RingBuffer
end SpeckitLog
