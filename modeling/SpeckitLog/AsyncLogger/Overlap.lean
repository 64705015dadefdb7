import SpeckitLog.AsyncLogger.Ledger
import SpeckitLog.RingBuffer.Conservation

/-!
# Overlapping drains

`popAll` of the queue is written for one consumer, and the logger calls it from
the writer thread, from the overflow path of `log`, from the public `flush` and
from the crash monitor.  As long as these drains do not overlap, and pushes and
drains of the ring keep out of each other's way, every accepted entry is written
once and no drain gets stuck.  When they overlap, an entry can be written twice,
and a drain can wait for a sequence number that is gone.

## Main results

* `Stepwise.writtenOnce`, `Stepwise.not_writtenOnce_overlap`.
* `Stepwise.unstuck`, `Stepwise.not_unstuck_overlap`.
-/

namespace SpeckitLog
namespace AsyncLogger
namespace Stepwise

open Function Transition Call

variable {ι ε : Type*}

/-! ### The discipline -/

/-- **Drains stay apart** in the step of a thread: a `popAll` of the queue that
finds entries has read the current `head_` and is the only one in its loop; a
`popAll` of the ring that takes a count is the only one reading slots, counts
written slots only, and no `tryPush` writes a slot it has still to read. -/
def Apart (cap : ℕ) (s : State ι ε) (a : Thread ι × Act ε) : Prop :=
  AsyncQueue.DrainsApart s.queue a.1 ∧ RingBuffer.DrainsApart s.ring a.1 ∧
    RingBuffer.OutOfTheWay cap s.ring a.1

/-! ### No drain gets stuck -/

/-- Whenever a thread waits for the entry of ticket `t`, the sequence number of
the cell has not gone past `t + 1`, and it is `t + 1` or a `tryPush` that holds
ticket `t` has not published it. -/
def Unstuck (cap : ℕ) (s : State ι ε) : Prop :=
  ∀ i d, s.queue.pc i = .awaitEntry d →
    (s.queue.buffer (d.cell cap)).seq ≤ d.ticket + 1 ∧
      ((s.queue.buffer (d.cell cap)).seq = d.ticket + 1 ∨ ∃ j, (s.queue.pc j).Holds d.ticket)

section

variable [DecidableEq ι] {cap : ℕ} {dflt : LogCall ι ε} {s : State ι ε}

/-- The run of the queue in a run of the logger whose drains stay apart. -/
theorem queue_apart {ok : State ι ε → Thread ι × Act ε → Prop}
    (hs : Reachable (next cap) ok (init dflt) s)
    (hok : ∀ s a, ok s a → AsyncQueue.DrainsApart s.queue a.1)
    (hlt : s.queue.tickets.length < sizeModulus) :
    Reachable (AsyncQueue.next cap) (AsyncQueue.Apart cap) (AsyncQueue.init _ _) s.queue :=
  (queue_run _ hs hok).bounded (fun _ _ _ h => AsyncQueue.tickets_le_of_next h) hlt

/-- **No drain gets stuck** in a run whose drains of the queue do not overlap. -/
theorem unstuck (hs : Reachable (next cap) (fun s a => AsyncQueue.DrainsApart s.queue a.1)
    (init dflt) s) (hlt : s.queue.tickets.length < sizeModulus) : Unstuck cap s := by
  obtain ⟨ph, drainer, hinv⟩ := AsyncQueue.inv_of_reachable (queue_apart hs (fun _ _ h => h) hlt)
  intro i d hpc
  exact hinv.awaitEntry hpc

end

/-- A flush that waits for the entry of a `log` call in progress. -/
theorem unstuck_waiting :
    ∃ s : State (Fin 2) Char, (s.queue.pc (.app 1)).Draining ∧
      (s.queue.pc (.app 0)).Holds 0 ∧ Unstuck 2 s := by
  obtain ⟨s, hs, hp⟩ := exists_reachable_of_decide (next 2)
    (init ⟨.writer, 0, '-'⟩)
    (fun s : State (Fin 2) Char => (s.queue.pc (.app 1)).Draining ∧
      (s.queue.pc (.app 0)).Holds 0 ∧ s.queue.tickets.length < sizeModulus)
    (fun s a => AsyncQueue.DrainsApart s.queue a.1)
    (doing (.app 0) (.log .info 'a') 6
      ++ doing (.app 1) .flush 3) (by decide +kernel)
  exact ⟨s, hp.1, hp.2.1, unstuck hs hp.2.2⟩

/-- **A drain that waits for ever.**  Thread `0` has read `head_` and `tail_` and
is about to wait for ticket `0` when the flush of thread `1` drains it and marks
the cell free for ticket `2`. -/
theorem not_unstuck_overlap :
    ∃ s : State (Fin 2) Char,
      Reachable (next 2) Always (init ⟨.writer, 0, '-'⟩) s ∧ ¬ Unstuck 2 s := by
  obtain ⟨s, hs, hp⟩ := exists_reachable_of_run (next 2)
    (init ⟨.writer, 0, '-'⟩)
    (fun s : State (Fin 2) Char => (match s.queue.pc (.app 0) with
      | .awaitEntry d => decide (d.ticket = 0 ∧ d.cell 2 = 0)
      | _ => false) && decide ((s.queue.buffer 0).seq = 2))
    (fun _ _ => true)
    (doing (.app 0) (.log .info 'a') 12
      ++ doing (.app 0) .flush 3
      ++ doing (.app 1) .flush 8) (by decide +kernel)
  refine ⟨s, hs.mono fun _ _ _ => trivial, fun hun => ?_⟩
  rw [Bool.and_eq_true, decide_eq_true_eq] at hp
  obtain ⟨hwait, hseq⟩ := hp
  split at hwait
  · next d hpc =>
    obtain ⟨hticket, hcell⟩ := of_decide_eq_true hwait
    have hle := (hun _ d hpc).1
    rw [hcell, hticket, hseq] at hle
    omega
  · exact absurd hwait (by simp)

/-! ### Every accepted entry in one place -/

/-- Where an accepted entry can be. -/
inductive Place (ι : Type*)
  | queue
  | ring
  | vectors (i : Thread ι)
  | file

/-- A `tryPush` of the queue or of the ring with this argument returned `true`. -/
def State.Accepted (s : State ι ε) (x : LogCall ι ε) : Prop :=
  ∃ i n, ((i, n, true) ∈ s.queue.returns ∧ (s.queue.args i)[n]? = some x) ∨
    ((i, n, true) ∈ s.ring.returns ∧ (s.ring.args i)[n]? = some x)

/-- The entry is at that place: in the cell of its ticket, not yet moved out; in
the slot of its ticket, not yet read; in the local vectors of a call of that
thread; or written. -/
def State.At (s : State ι ε) (cap : ℕ) (x : LogCall ι ε) : Place ι → Prop
  | .queue => ∃ t c, s.queue.moved.length ≤ t ∧ s.queue.tickets[t]? = some c ∧ c.entry = x ∧
    (s.queue.buffer (t % cap)).storage = some x
  | .ring => ∃ t c, s.ring.moved.length ≤ t ∧ s.ring.tickets[t]? = some c ∧ c.entry = x ∧
    s.ring.buffer (t % cap) = x
  | .vectors i => x ∈ s.vectors i
  | .file => x ∈ s.control.file

/-- **Every accepted entry is written once.**  Nothing stands twice in the file
and the vectors of the running flushes, and every accepted entry is in exactly
one place. -/
structure WrittenOnce [Fintype ι] (cap : ℕ) (s : State ι ε) : Prop where
  once : (s.control.file + ∑ i, (s.vectors i : Multiset (LogCall ι ε))
    : Multiset (LogCall ι ε)).Nodup
  placed : ∀ x, s.Accepted x → ∃! p : Place ι, s.At cap x p

section Distinct

variable {s : State ι ε}

/-- The argument of a ticket of the queue is an entry of its thread. -/
theorem queue_ticket (h : ∀ j, Tagged s j) (hq : s.queue.History)
    {c : Call (Thread ι) (LogCall ι ε)} (hc : c ∈ s.queue.tickets) :
    c.entry.thread = c.thread ∧ (s.queue.args c.entry.thread)[c.number]? = some c.entry := by
  have harg := hq.unaltered c hc
  have hthread := ((h c.thread).own _ (List.mem_of_getElem? harg)).1
  exact ⟨hthread, by rw [hthread]; exact harg⟩

/-- The argument of a ticket of the ring is an entry of its thread that the queue refused. -/
theorem ring_ticket (h : ∀ j, Tagged s j) (hr : s.ring.History)
    {c : Call (Thread ι) (LogCall ι ε)} (hc : c ∈ s.ring.tickets) :
    c.entry.thread = c.thread ∧ (s.ring.args c.entry.thread)[c.number]? = some c.entry ∧
      ∃ n, (s.queue.args c.entry.thread)[n]? = some c.entry ∧
        (c.entry.thread, n, false) ∈ s.queue.returns := by
  have harg := hr.unaltered c hc
  obtain ⟨n, hn, hret⟩ := (h c.thread).refused _ (List.mem_of_getElem? harg)
  have hthread := ((h c.thread).own _ (List.mem_of_getElem? hn)).1
  exact ⟨hthread, by rw [hthread]; exact harg, n, by rw [hthread]; exact hn,
    by rw [hthread]; exact hret⟩

/-- No entry won two tickets of the queue. -/
theorem queue_entries_nodup (h : ∀ j, Tagged s j) (hq : s.queue.History) :
    (s.queue.tickets.map Call.entry).Nodup := by
  refine List.Nodup.map_on ?_ hq.ordered.nodup
  intro c hc d hd hcd
  obtain ⟨hct, hcn⟩ := queue_ticket h hq hc
  obtain ⟨hdt, hdn⟩ := queue_ticket h hq hd
  rw [← hcd] at hdt hdn
  have hnumber := (h _).queueIncreasing.getElem?_inj hcn hdn
  exact eq_of_fields (hct.symm.trans hdt) hnumber hcd

/-- No entry won two tickets of the ring. -/
theorem ring_entries_nodup (h : ∀ j, Tagged s j) (hr : s.ring.History) :
    (s.ring.tickets.map Call.entry).Nodup := by
  refine List.Nodup.map_on ?_ hr.ordered.nodup
  intro c hc d hd hcd
  obtain ⟨hct, hcn, -⟩ := ring_ticket h hr hc
  obtain ⟨hdt, hdn, -⟩ := ring_ticket h hr hd
  rw [← hcd] at hdt hdn
  have hnumber := (h _).ringIncreasing.getElem?_inj hcn hdn
  exact eq_of_fields (hct.symm.trans hdt) hnumber hcd

/-- No entry won a ticket of both. -/
theorem entries_disjoint (h : ∀ j, Tagged s j) (hq : s.queue.History) (hr : s.ring.History) :
    (s.queue.tickets.map Call.entry).Disjoint (s.ring.tickets.map Call.entry) := by
  intro x hxq hxr
  obtain ⟨c, hc, rfl⟩ := List.mem_map.mp hxq
  obtain ⟨d, hd, hdc⟩ := List.mem_map.mp hxr
  obtain ⟨hct, hcn⟩ := queue_ticket h hq hc
  obtain ⟨-, -, n, hn, hret⟩ := ring_ticket h hr hd
  rw [hdc] at hn hret
  have hnumber := (h _).queueIncreasing.getElem?_inj hcn hn
  exact hq.refused _ _ hret c hc hct.symm hnumber

end Distinct

section WrittenOnce

variable [Fintype ι] [DecidableEq ι] {cap : ℕ} {dflt : LogCall ι ε} {s : State ι ε}

omit [DecidableEq ι] in
/-- What left the buffers is in the file or in the vectors of a call. -/
theorem State.Balanced.left_iff (h : s.Balanced) {x : LogCall ι ε} :
    x ∈ s.queue.moved ∨ x ∈ s.ring.moved ↔ x ∈ s.control.file ∨ ∃ i, x ∈ s.vectors i := by
  have hmem : x ∈ s.queue.moved ++ s.ring.moved
      ↔ x ∈ (s.control.file + ∑ i, (s.vectors i : Multiset (LogCall ι ε))
        : Multiset (LogCall ι ε)) := by
    rw [← h, Multiset.mem_coe]
  simpa [Multiset.mem_sum] using hmem

omit [DecidableEq ι] in
/-- Whatever is in the file or in vectors is there once. -/
theorem State.Balanced.apart (h : s.Balanced) (hnd : (s.queue.moved ++ s.ring.moved).Nodup) :
    (s.control.file + ∑ i, (s.vectors i : Multiset (LogCall ι ε))
      : Multiset (LogCall ι ε)).Nodup := by
  rw [← h, Multiset.coe_nodup]
  exact hnd

/-- In one place only: the file and the vectors hold what left the buffers, once. -/
theorem place_unique {x : LogCall ι ε} (hbal : s.Balanced)
    (hnd : (s.control.file + ∑ i, (s.vectors i : Multiset (LogCall ι ε))
      : Multiset (LogCall ι ε)).Nodup)
    (hq : s.At cap x .queue → x ∉ s.queue.moved ∧ x ∉ s.ring.moved)
    (hr : s.At cap x .ring → x ∉ s.queue.moved ∧ x ∉ s.ring.moved)
    (hqr : ¬ (s.At cap x .queue ∧ s.At cap x .ring)) {p p' : Place ι} (hp : s.At cap x p)
    (hp' : s.At cap x p') : p = p' := by
  have hleft : ∀ p : Place ι, p ≠ .queue → p ≠ .ring → s.At cap x p →
      x ∈ s.queue.moved ∨ x ∈ s.ring.moved := by
    intro p hpq hpr hat
    refine hbal.left_iff.mpr ?_
    cases p with
    | queue => exact absurd rfl hpq
    | ring => exact absurd rfl hpr
    | vectors i => exact Or.inr ⟨i, hat⟩
    | file => exact Or.inl hat
  obtain ⟨-, hsum, hdisj⟩ := Multiset.nodup_add.mp hnd
  have hfile : ∀ i, x ∈ s.control.file → x ∉ s.vectors i := by
    intro i hf hv
    refine Multiset.disjoint_left.mp hdisj hf (Multiset.mem_sum.mpr ⟨i, Finset.mem_univ i, ?_⟩)
    exact hv
  -- what is in neither buffer has left them, and nothing returns to a buffer
  have hout : ∀ {p : Place ι}, p ≠ .queue → p ≠ .ring → s.At cap x p →
      ¬ s.At cap x .queue ∧ ¬ s.At cap x .ring := by
    intro p hpq hpr hat
    have hl := hleft p hpq hpr hat
    exact ⟨fun h => hl.elim (hq h).1 (hq h).2, fun h => hl.elim (hr h).1 (hr h).2⟩
  cases p with
  | queue =>
    cases p' with
    | queue => rfl
    | ring => exact absurd ⟨hp, hp'⟩ hqr
    | vectors i => exact absurd hp (hout (p := .vectors i) (by simp) (by simp) hp').1
    | file => exact absurd hp (hout (p := .file) (by simp) (by simp) hp').1
  | ring =>
    cases p' with
    | queue => exact absurd ⟨hp', hp⟩ hqr
    | ring => rfl
    | vectors i => exact absurd hp (hout (p := .vectors i) (by simp) (by simp) hp').2
    | file => exact absurd hp (hout (p := .file) (by simp) (by simp) hp').2
  | vectors i =>
    cases p' with
    | queue => exact absurd hp' (hout (p := .vectors i) (by simp) (by simp) hp).1
    | ring => exact absurd hp' (hout (p := .vectors i) (by simp) (by simp) hp).2
    | vectors j => rw [eq_of_mem_of_nodup_sum hsum (Multiset.mem_coe.mpr hp) hp']
    | file => exact absurd hp (hfile i hp')
  | file =>
    cases p' with
    | queue => exact absurd hp' (hout (p := .file) (by simp) (by simp) hp).1
    | ring => exact absurd hp' (hout (p := .file) (by simp) (by simp) hp).2
    | vectors i => exact absurd hp' (hfile i hp)
    | file => rfl

/-- **Every accepted entry is written once**, for any number of application
threads, the writer thread and the crash monitor, in every run whose drains stay
apart and whose counters stay below `2 ^ 64`. -/
theorem writtenOnce (hcap : 2 * cap ≤ sizeModulus)
    (hs : Reachable (next cap) (Apart cap) (init dflt) s)
    (hlt : s.queue.tickets.length < sizeModulus) : WrittenOnce cap s := by
  have hqs := queue_apart hs (fun _ _ h => h.1) hlt
  have hrs := ring_run (fun r i => RingBuffer.DrainsApart r i ∧ RingBuffer.OutOfTheWay cap r i) hs
    fun _ _ h => h.2
  obtain ⟨ph, qdrainer, hqinv⟩ := AsyncQueue.inv_of_reachable hqs
  obtain ⟨rdrainer, hrinv⟩ := RingBuffer.inv_of_reachable hcap hrs
  have hqhist := AsyncQueue.history_of_reachable hqs
  have hrhist := RingBuffer.history_of_reachable hrs
  have hheld := AsyncQueue.heldByOwner_of_reachable hqs
  have htag := tagged_of_reachable hs
  have hbal := balance_of_reachable hs
  -- what left each buffer are the entries of its first tickets
  obtain ⟨k, hhead, hk, hqmoved, hpend⟩ := hqinv.moved_eq
  obtain ⟨m, hm, hrmoved, hslots⟩ := hrinv.moved_prefix
  have hqnd := queue_entries_nodup htag hqhist
  have hrnd := ring_entries_nodup htag hrhist
  have hdisj := entries_disjoint htag hqhist hrhist
  have hqsub := entries_sublist s.queue.tickets k
  have hrsub := entries_sublist s.ring.tickets m
  have hqlen : s.queue.moved.length = k := by rw [hqmoved, length_entries hk]
  have hrlen : s.ring.moved.length = m := by
    rw [hrmoved, length_entries (hm.trans hrinv.taken_le)]
  have hnd : (s.queue.moved ++ s.ring.moved).Nodup := by
    rw [hqmoved, hrmoved]
    refine List.Nodup.append (hqnd.sublist hqsub) (hrnd.sublist hrsub) ?_
    exact fun x hxq hxr => hdisj (hqsub.subset hxq) (hrsub.subset hxr)
  refine ⟨hbal.apart hnd, fun x hacc => existsUnique_of_exists_of_unique ?_ ?_⟩
  · obtain ⟨i, n, ⟨hret, harg⟩ | ⟨hret, harg⟩⟩ := hacc
    · obtain ⟨c, hc, rfl, rfl⟩ := hqhist.accepted i n hret
      obtain rfl : c.entry = x := Option.some.inj ((hqhist.unaltered c hc).symm.trans harg)
      obtain ⟨t, ht⟩ := List.mem_iff_getElem?.mp hc
      rcases Nat.lt_or_ge t k with hlt | hge
      · have hleft : c.entry ∈ s.queue.moved := by rw [hqmoved]; exact mem_entries ht hlt
        rcases hbal.left_iff.mp (Or.inl hleft) with hf | ⟨j, hj⟩
        · exact ⟨.file, hf⟩
        · exact ⟨.vectors j, hj⟩
      · have htN : t < s.queue.tickets.length := (List.getElem?_eq_some_iff.mp ht).1
        have hcell := hqinv.in_cell hqhist hheld ht (hhead.trans hge)
          (hpend t hge (Nat.lt_of_lt_of_le htN hqinv.tail_le)) hret
        exact ⟨.queue, t, c, by omega, ht, rfl, hcell⟩
    · obtain ⟨c, hc, rfl, rfl⟩ := hrhist.accepted i n hret
      obtain rfl : c.entry = x := Option.some.inj ((hrhist.unaltered c hc).symm.trans harg)
      obtain ⟨t, ht⟩ := List.mem_iff_getElem?.mp hc
      rcases Nat.lt_or_ge t m with hlt | hge
      · have hleft : c.entry ∈ s.ring.moved := by rw [hrmoved]; exact mem_entries ht hlt
        rcases hbal.left_iff.mp (Or.inr hleft) with hf | ⟨j, hj⟩
        · exact ⟨.file, hf⟩
        · exact ⟨.vectors j, hj⟩
      · exact ⟨.ring, t, c, by omega, ht, rfl, hrinv.in_slot hrhist hslots ht hge hret⟩
  · intro p p' hp hp'
    refine place_unique hbal (hbal.apart hnd) ?_ ?_ ?_ hp hp'
    · rintro ⟨t, c, hlen, hc, rfl, -⟩
      have hin : c.entry ∈ s.queue.tickets.map Call.entry :=
        List.mem_map_of_mem (List.mem_of_getElem? hc)
      rw [hqmoved, hrmoved]
      exact ⟨not_mem_entries hqnd hc (by omega), fun hr => hdisj hin (hrsub.subset hr)⟩
    · rintro ⟨t, c, hlen, hc, rfl, -⟩
      have hin : c.entry ∈ s.ring.tickets.map Call.entry :=
        List.mem_map_of_mem (List.mem_of_getElem? hc)
      rw [hqmoved, hrmoved]
      exact ⟨fun hq => hdisj (hqsub.subset hq) hin, not_mem_entries hrnd hc (by omega)⟩
    · rintro ⟨⟨t, c, -, hc, hcx, -⟩, ⟨u, d, -, hd, hdx, -⟩⟩
      refine hdisj (a := x) ?_ ?_
      · exact hcx ▸ List.mem_map_of_mem (List.mem_of_getElem? hc)
      · exact hdx ▸ List.mem_map_of_mem (List.mem_of_getElem? hd)

end WrittenOnce

/-- A queue of one cell: the second `log` call goes through the ring and flushes. -/
theorem writtenOnce_overflow :
    ∃ s : State (Fin 2) Char, s.control.file = [⟨.app 0, 0, 'a'⟩, ⟨.app 0, 1, 'b'⟩] ∧
      WrittenOnce 1 s := by
  obtain ⟨s, hs, hp⟩ := exists_reachable_of_run (next 1)
    (init ⟨.writer, 0, '-'⟩)
    (fun s : State (Fin 2) Char => decide
      (s.control.file = [⟨.app 0, 0, 'a'⟩, ⟨.app 0, 1, 'b'⟩] ∧
        s.queue.tickets.length < sizeModulus))
    (fun s a => decide (AsyncQueue.DrainsApart s.queue a.1 ∧
      (∀ j, j ≠ a.1 → ¬ (s.ring.pc j).Raised ∧ ¬ (s.ring.pc j).Draining) ∧
      s.ring.size + 1 < sizeModulus ∧ s.ring.tickets.length + 1 < sizeModulus))
    (doing (.app 0) (.log .info 'a') 12
      ++ doing (.app 0) (.log .info 'b') 32) (by decide +kernel)
  obtain ⟨hfile, hlt⟩ := of_decide_eq_true hp
  refine ⟨s, hfile, writtenOnce (by decide +kernel) (hs.mono fun s a ha => ?_) hlt⟩
  obtain ⟨hq, hquiet, hsize, htickets⟩ := of_decide_eq_true ha
  exact ⟨hq, RingBuffer.drainsApart_of_quiet hquiet,
    RingBuffer.outOfTheWay_of_quiet hquiet hsize htickets⟩

/-- **An entry written twice.**  The flushes of two threads both find the entry
in its cell, both move it out before either resets the cell, and both write it. -/
theorem not_writtenOnce_overlap :
    ∃ s : State (Fin 2) Char,
      Reachable (next 2) Always (init ⟨.writer, 0, '-'⟩) s ∧ ¬ WrittenOnce 2 s := by
  obtain ⟨s, hs, hfile⟩ := exists_reachable_of_decide (next 2)
    (init ⟨.writer, 0, '-'⟩)
    (fun s : State (Fin 2) Char =>
      s.control.file = [⟨.app 0, 0, 'a'⟩, ⟨.app 0, 0, 'a'⟩])
    Always
    (doing (.app 0) (.log .info 'a') 12
      ++ doing (.app 0) .flush 5
      ++ doing (.app 1) .flush 5
      ++ steps (.app 0) 1 ++ steps (.app 1) 1 ++ steps (.app 0) 10
      ++ steps (.app 1) 10) (by decide +kernel)
  refine ⟨s, hs, fun h => ?_⟩
  have hnd : s.control.file.Nodup := Multiset.coe_nodup.mp (Multiset.nodup_add.mp h.once).1
  rw [hfile] at hnd
  exact absurd hnd (by simp)

end Stepwise
end AsyncLogger
end SpeckitLog
