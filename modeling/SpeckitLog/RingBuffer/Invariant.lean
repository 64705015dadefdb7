import SpeckitLog.RingBuffer
import SpeckitLog.Lib.ThreadSum
import Mathlib.Algebra.Order.BigOperators.Group.Finset

/-!
# The index invariant of the ring buffer

The indices drawn from `head_` number the entries; `popAll` takes them in that
order, `size_` at a time.  Between the raise of `size_` and the write of the slot
an entry is counted and not there, and between the exchange of `size_` and the
last read a slot is read and not counted, so the two methods are only safe when
they keep out of each other's way:

* drains stay apart: a `popAll` takes a count when no other is draining;
* it does so when no `tryPush` has raised `size_` without having written its
  slot or lowered `size_` again;
* a `tryPush` writes no slot that a running `popAll` has still to read.

## Main results

* `Step.inv` — one step with that discipline keeps the invariant.
* `inv_of_reachable` — it holds along every run with that discipline.
-/

namespace SpeckitLog
namespace RingBuffer

open Function Transition Call

variable {ι α : Type*}

/-! ### The discipline -/

/-- A running `popAll` has still to read slot `k`. -/
def State.Unread (s : State ι α) (cap k : ℕ) : Prop :=
  ∃ j, (∃ n m, s.pc j = .loadTail n ∧ m < n ∧ k = wrap (s.tail + m) % cap) ∨
    (∃ d m, s.pc j = .read d ∧ d.i ≤ m ∧ m < d.oldSize ∧ k = wrap (d.currentTail + m) % cap)

/-- A `popAll` that takes a count is the only one draining. -/
def DrainsApart (s : State ι α) (i : ι) : Prop :=
  s.pc i = .exchange → s.size ≠ 0 → ∀ j, ¬ (s.pc j).Draining

/-- **The two methods keep out of each other's way** in the step of thread `i`:
a count is taken when it counts written slots only, a slot is written when no
drain has still to read it, and the counters do not wrap. -/
structure OutOfTheWay (cap : ℕ) (s : State ι α) (i : ι) : Prop where
  exchange : s.pc i = .exchange → s.size ≠ 0 → ∀ j, ¬ (s.pc j).Raised
  store : ∀ e h, s.pc i = .store e h → ¬ s.Unread cap (h % cap)
  counters : (∀ e, s.pc i = .addSize e → s.size + 1 < sizeModulus) ∧
    (∀ e, s.pc i = .addHead e → s.tickets.length + 1 < sizeModulus)

/-! ### The invariant -/

/-- The thread has raised `size_` and will draw an index. -/
def Pc.reserving : Pc α → ℕ
  | .addHead _ => 1
  | _ => 0

/-- The thread has raised `size_` past the capacity and will lower it again. -/
def Pc.overshooting : Pc α → ℕ
  | .subSize => 1
  | _ => 0

/-- The slots of the indices from `lo` up to `hi` hold their entries. -/
def SlotsHold (cap : ℕ) (buffer : ℕ → α) (tickets : List (Call ι α)) (lo hi : ℕ) : Prop :=
  ∀ t c, lo ≤ t → t < hi → tickets[t]? = some c → buffer (t % cap) = c.entry

/-- What holds while a thread is draining: `n` entries were taken, of which the
next to read has index `lo`. -/
structure Draws (cap : ℕ) (s : State ι α) (n lo : ℕ) : Prop where
  pos : 0 < n
  le_cap : n ≤ cap
  le_taken : n ≤ s.taken
  moved : s.moved = entries s.tickets lo
  slots : SlotsHold cap s.buffer s.tickets lo s.taken

/-- What holds at each program point of a drain. -/
def DrainOk (cap : ℕ) (s : State ι α) : Pc α → Prop
  | .loadTail n => Draws cap s n (s.taken - n) ∧ s.tail = (s.taken - n) % cap
  | .read d => Draws cap s d.oldSize (s.taken - d.oldSize + d.i) ∧ d.i < d.oldSize ∧
      d.currentTail = (s.taken - d.oldSize) % cap
  | .storeTail d => Draws cap s d.oldSize s.taken ∧ d.currentTail = (s.taken - d.oldSize) % cap
  | _ => True

/-- **The index invariant**, for the thread that is draining, if any. -/
structure Inv [Fintype ι] (cap : ℕ) (s : State ι α) (drainer : Option ι) : Prop where
  head_eq : s.head = s.tickets.length
  head_lt : s.tickets.length < sizeModulus
  size_lt : s.size < sizeModulus
  taken_le : s.taken ≤ s.tickets.length
  size_eq : s.size = s.tickets.length - s.taken + ∑ j, (s.pc j).reserving
    + ∑ j, (s.pc j).overshooting
  room : s.tickets.length + ∑ j, (s.pc j).reserving ≤ s.taken + cap
  slots : ∀ t c, s.taken ≤ t → s.tickets[t]? = some c → c ∈ s.stored →
    s.buffer (t % cap) = c.entry
  storing : ∀ i e h, s.pc i = .store e h →
    s.tickets[h]? = some ⟨i, s.number i, e⟩ ∧ s.taken ≤ h ∧
      (⟨i, s.number i, e⟩ : Call ι α) ∉ s.stored
  stored : ∀ t c, s.tickets[t]? = some c → c ∈ s.stored ∨ s.pc c.thread = .store c.entry t
  stored_sub : ∀ c ∈ s.stored, c ∈ s.tickets
  drain : ∀ i, DrainOk cap s (s.pc i)
  drainer_iff : ∀ i, (s.pc i).Draining ↔ drainer = some i
  quiet : drainer = none → s.tail = s.taken % cap ∧ s.moved = entries s.tickets s.taken

theorem inv_init [Fintype ι] (cap : ℕ) (dflt : α) : Inv cap (init ι dflt) none where
  head_eq := rfl
  head_lt := by simp [init, sizeModulus_eq]
  size_lt := by simp [init, sizeModulus_eq]
  taken_le := le_rfl
  size_eq := by simp [init, Pc.reserving, Pc.overshooting]
  room := by simp [init, Pc.reserving]
  slots t c _ h := by simp [init] at h
  storing i e h hpc := by simp [init] at hpc
  stored t c h := by simp [init] at h
  stored_sub c h := by simp [init] at h
  drain _ := trivial
  drainer_iff i := by simp [init, Pc.Draining]
  quiet _ := ⟨(Nat.zero_mod cap).symm, rfl⟩

/-! ### The history of the calls -/

/-- The history of the `tryPush` calls is right. -/
def State.History (s : State ι α) : Prop :=
  CallHistory s.args s.tickets s.returns fun j => (s.pc j).stage

theorem history_init (dflt : α) : (init ι dflt).History := CallHistory.init

section History

variable [DecidableEq ι] {s s' : State ι α} {i : ι} {p : Pc α}

theorem stage_update (pc : ι → Pc α) (i : ι) (p : Pc α) (j : ι) (hji : j ≠ i) :
    (update pc i p j).stage = (pc j).stage := by rw [update_of_ne hji]

theorem stage_self (pc : ι → Pc α) (i : ι) (p : Pc α) : (update pc i p i).stage = p.stage := by
  rw [update_self]

/-- A step that leaves the stage of the call as it is. -/
theorem State.History.of_pc (h : s.History) (hargs : s'.args = s.args)
    (htick : s'.tickets = s.tickets) (hret : s'.returns = s.returns)
    (hpc : s'.pc = update s.pc i p) (hstage : p.stage = (s.pc i).stage) : s'.History := by
  unfold State.History
  rw [hargs, htick, hret, hpc]
  refine CallHistory.move (i := i) h (stage_update s.pc i p) ?_ ?_ ?_
  · rw [update_self, hstage]; exact h.running i
  · rw [update_self, hstage]; exact id
  · rw [update_self, hstage]; exact id

/-- **Every step keeps the history right.** -/
theorem Step.history {cap : ℕ} {a : Act α} (hstep : Step cap s i a s') (h : s.History) :
    s'.History := by
  cases hstep with
  | callPush hpc => exact h.start _ (by rw [hpc]; rfl) (stage_update s.pc i _) (stage_self s.pc i _)
  | full hpc _ =>
    exact h.refuse (by rw [hpc]; rfl) (stage_update s.pc i _) (stage_self s.pc i _)
  | @addSize e hpc =>
    by_cases hfull : cap ≤ s.size
    · refine h.refuse (e := e) (by rw [hpc]; rfl) (stage_update s.pc i _) ?_
      show (update s.pc i _ i).stage = _
      rw [stage_self, if_pos hfull]
      rfl
    · exact h.of_pc rfl rfl rfl rfl (by rw [hpc, if_neg hfull]; rfl)
  | addHead hpc =>
    exact h.win (by rw [hpc]; rfl) (stage_update s.pc i _) (stage_self s.pc i _)
  | returnPush hpc =>
    exact h.finish (by rw [hpc]; rfl) (stage_update s.pc i _) (stage_self s.pc i _)
  | exchange hpc | read hpc => exact h.of_pc rfl rfl rfl rfl (by rw [hpc]; split <;> rfl)
  | room hpc _ => exact h.of_pc rfl rfl rfl rfl (by rw [hpc]; rfl)
  | _ hpc => exact h.of_pc rfl rfl rfl rfl (by rw [hpc]; rfl)

end History

/-! ### How the knowledge of a drain survives -/

/-- The drain has still to read the indices from `lo` on. -/
def Pc.UnreadFrom (taken lo : ℕ) : Pc α → Prop
  | .loadTail n => lo = taken - n
  | .read d => lo = taken - d.oldSize + d.i
  | .storeTail _ => lo = taken
  | _ => False

theorem DrainOk.of_same {cap : ℕ} {s s' : State ι α} {p : Pc α} (h : DrainOk cap s p)
    (htaken : s'.taken = s.taken) (hmoved : s'.moved = s.moved) (htail : s'.tail = s.tail)
    (hent : ∀ k, k ≤ s.taken → entries s'.tickets k = entries s.tickets k)
    (hslots : ∀ lo, p.UnreadFrom s.taken lo → SlotsHold cap s.buffer s.tickets lo s.taken →
      SlotsHold cap s'.buffer s'.tickets lo s.taken) : DrainOk cap s' p := by
  have hdraws : ∀ n lo, Draws cap s n lo → lo ≤ s.taken → p.UnreadFrom s.taken lo →
      Draws cap s' n lo := by
    intro n lo hd hlo hun
    refine ⟨hd.pos, hd.le_cap, by rw [htaken]; exact hd.le_taken, ?_, ?_⟩
    · rw [hmoved, hent lo hlo, hd.moved]
    · rw [htaken]; exact hslots lo hun hd.slots
  cases p with
  | loadTail n =>
    obtain ⟨hd, ht⟩ := h
    have := hd.le_taken
    refine ⟨?_, by rw [htail, htaken, ht]⟩
    rw [htaken]
    exact hdraws n _ hd (by omega) rfl
  | read d =>
    obtain ⟨hd, hi, ht⟩ := h
    have := hd.le_taken
    refine ⟨?_, hi, by rw [htaken, ht]⟩
    rw [htaken]
    exact hdraws _ _ hd (by omega) rfl
  | storeTail d =>
    obtain ⟨hd, ht⟩ := h
    refine ⟨?_, by rw [htaken, ht]⟩
    rw [htaken]
    exact hdraws _ _ hd le_rfl rfl
  | _ => trivial

/-- The slot a drain reads at offset `m` from its first index. -/
theorem wrap_tail_mod {cap x m : ℕ} (hcap : 2 * cap ≤ sizeModulus) (hpos : 0 < cap)
    (hm : m ≤ cap) : wrap (x % cap + m) % cap = (x + m) % cap := by
  have hlt : x % cap < cap := Nat.mod_lt x hpos
  rw [wrap_of_lt (by omega), Nat.mod_add_mod]

/-- A drain has still to read the slots of all its unread indices. -/
theorem DrainOk.unread {cap : ℕ} {s : State ι α} {j : ι} (hcap : 2 * cap ≤ sizeModulus)
    (h : DrainOk cap s (s.pc j)) {lo t : ℕ} (hlo : (s.pc j).UnreadFrom s.taken lo) (ht : lo ≤ t)
    (ht' : t < s.taken) : s.Unread cap (t % cap) := by
  refine ⟨j, ?_⟩
  cases hpc : s.pc j with
  | loadTail n =>
    rw [hpc] at h hlo
    obtain ⟨hd, htail⟩ := h
    obtain rfl : lo = s.taken - n := hlo
    have hpos := hd.pos
    have hle := hd.le_cap
    have hlt := hd.le_taken
    refine Or.inl ⟨n, t - (s.taken - n), rfl, by omega, ?_⟩
    rw [htail, wrap_tail_mod hcap (by omega) (by omega), Nat.add_sub_cancel' ht]
  | read d =>
    rw [hpc] at h hlo
    obtain ⟨hd, -, htail⟩ := h
    obtain rfl : lo = s.taken - d.oldSize + d.i := hlo
    have hpos := hd.pos
    have hle := hd.le_cap
    have hlt := hd.le_taken
    refine Or.inr ⟨d, t - (s.taken - d.oldSize), rfl, by omega, by omega, ?_⟩
    rw [htail, wrap_tail_mod hcap (by omega) (by omega), Nat.add_sub_cancel' (by omega)]
  | storeTail d =>
    rw [hpc] at hlo
    obtain rfl : lo = s.taken := hlo
    omega
  | _ =>
    rw [hpc] at hlo
    exact hlo.elim

/-! ### The effect of each kind of step on the invariant -/

section Inv

variable {cap : ℕ} {s s' : State ι α} {drainer : Option ι} {i : ι} {p : Pc α}

/-- A thread that is not draining knows nothing. -/
theorem DrainOk.of_not_draining {q : Pc α} (hq : ¬ q.Draining) : DrainOk cap s q := by
  cases q <;> first | trivial | exact absurd trivial hq

/-- While one thread drains, no other does. -/
theorem Inv.not_draining [Fintype ι] (h : Inv cap s (some i)) {j : ι} (hji : j ≠ i) :
    ¬ (s.pc j).Draining := by
  intro hd
  have := (h.drainer_iff j).mp hd
  exact hji (Option.some.inj this).symm

theorem Inv.drainer_eq [Fintype ι] (h : Inv cap s drainer) (hi : (s.pc i).Draining) :
    drainer = some i :=
  (h.drainer_iff i).mp hi

variable [Fintype ι] [DecidableEq ι]

/-- The reservations after a move of thread `i`. -/
theorem reserving_update {q : Pc α} (hpc : s.pc i = q) (p : Pc α) :
    ∑ j, (update s.pc i p j).reserving + q.reserving
      = ∑ j, (s.pc j).reserving + p.reserving := by
  have h := sum_update_add s.pc Pc.reserving i p
  rwa [hpc] at h

/-- The overshoots after a move of thread `i`. -/
theorem overshooting_update {q : Pc α} (hpc : s.pc i = q) (p : Pc α) :
    ∑ j, (update s.pc i p j).overshooting + q.overshooting
      = ∑ j, (s.pc j).overshooting + p.overshooting := by
  have h := sum_update_add s.pc Pc.overshooting i p
  rwa [hpc] at h

omit [Fintype ι] in
/-- A thread that moves to a point that stores nothing leaves the stores of the others. -/
theorem store_of_update {pc : ι → Pc α} (hp : ∀ e k, p ≠ .store e k) {j : ι} {e : α} {k : ℕ}
    (hj : update pc i p j = .store e k) : j ≠ i ∧ pc j = .store e k := by
  have hji : j ≠ i := by
    rintro rfl
    rw [update_self] at hj
    exact hp e k hj
  exact ⟨hji, by rwa [update_of_ne hji] at hj⟩

/-- What is left to store, after a step of a thread that had nothing to store. -/
theorem Inv.stored_update (h : Inv cap s drainer) (hi : ∀ e k, s.pc i ≠ .store e k) (p : Pc α)
    {t : ℕ} {c : Call ι α} (hc : s.tickets[t]? = some c) :
    c ∈ s.stored ∨ update s.pc i p c.thread = .store c.entry t := by
  refine (h.stored t c hc).imp_right fun hst => ?_
  exact update_of_not (P := fun q => q = Pc.store c.entry t) hst (hi c.entry t)

/-- What the drains know, after a step of a thread to a point outside a drain. -/
theorem Inv.drain_update (h : Inv cap s drainer) (hp : ¬ p.Draining)
    (hsame : ∀ j, DrainOk cap s (s.pc j) → DrainOk cap s' (s.pc j)) (j : ι) :
    DrainOk cap s' (update s.pc i p j) := by
  by_cases hji : j = i
  · rw [hji, update_self]; exact DrainOk.of_not_draining hp
  · rw [update_of_ne hji]; exact hsame j (h.drain j)

/-- Who drains, after a step that neither enters nor leaves a drain. -/
theorem Inv.drainer_update (h : Inv cap s drainer) (hp : p.Draining ↔ (s.pc i).Draining) (j : ι) :
    (update s.pc i p j).Draining ↔ drainer = some j := by
  rw [← h.drainer_iff j]
  by_cases hji : j = i
  · rw [hji, update_self]; exact hp
  · rw [update_of_ne hji]

/-- A step outside the windows of both methods. -/
theorem Inv.of_pc (h : Inv cap s drainer) (hbuf : s'.buffer = s.buffer)
    (hhead : s'.head = s.head) (htail : s'.tail = s.tail) (hsize : s'.size = s.size)
    (htick : s'.tickets = s.tickets) (hstored : s'.stored = s.stored)
    (htaken : s'.taken = s.taken) (hmoved : s'.moved = s.moved)
    (hnum : ∀ j, j ≠ i → s'.number j = s.number j) (hpc : s'.pc = update s.pc i p)
    (hp : ¬ p.Raised ∧ ¬ p.Draining) (hi : ¬ (s.pc i).Raised ∧ ¬ (s.pc i).Draining) :
    Inv cap s' drainer := by
  have hres : ∀ {q : Pc α}, ¬ q.Raised → q.reserving = 0 ∧ q.overshooting = 0 := by
    intro q hq
    cases q <;> first | exact ⟨rfl, rfl⟩ | exact absurd trivial hq
  have hns : ∀ {q : Pc α} {e h}, ¬ q.Raised → q ≠ .store e h := by
    rintro _ e h hq rfl
    exact hq trivial
  have hsame : ∀ j, DrainOk cap s (s.pc j) → DrainOk cap s' (s.pc j) := fun j hj =>
    hj.of_same htaken hmoved htail (fun k _ => by rw [htick])
      (fun lo _ hs => by rw [hbuf, htick]; exact hs)
  constructor
  · rw [hhead, htick, h.head_eq]
  · rw [htick]; exact h.head_lt
  · rw [hsize]; exact h.size_lt
  · rw [htaken, htick]; exact h.taken_le
  · rw [hsize, htick, htaken, hpc,
      sum_update_of_eq _ Pc.reserving _ ((hres hp.1).1.trans (hres hi.1).1.symm),
      sum_update_of_eq _ Pc.overshooting _ ((hres hp.1).2.trans (hres hi.1).2.symm)]
    exact h.size_eq
  · rw [htick, htaken, hpc,
      sum_update_of_eq _ Pc.reserving _ ((hres hp.1).1.trans (hres hi.1).1.symm)]
    exact h.room
  · rw [htick, htaken, hstored, hbuf]; exact h.slots
  · rw [htick, htaken, hstored, hpc]
    intro j e k hj
    obtain ⟨hji, hj⟩ := store_of_update (fun _ _ => hns hp.1) hj
    rw [hnum j hji]
    exact h.storing j e k hj
  · rw [htick, hstored, hpc]
    exact fun t c hc => h.stored_update (fun _ _ => hns hi.1) p hc
  · rw [htick, hstored]; exact h.stored_sub
  · rw [hpc]; exact h.drain_update hp.2 hsame
  · rw [hpc]; exact h.drainer_update (iff_of_false hp.2 hi.2)
  · rw [htail, htaken, hmoved, htick]; exact h.quiet

/-- `size_` is raised. -/
theorem Inv.addSize (h : Inv cap s drainer) {e : α} (hpc : s.pc i = .addSize e)
    (hlt : s.size + 1 < sizeModulus) : Inv cap (s.addSize cap i e) drainer := by
  have hwrap : wrap (s.size + 1) = s.size + 1 := wrap_of_lt hlt
  set p : Pc α := if cap ≤ s.size then .subSize else .addHead e with hp
  have hsr := reserving_update hpc p
  have hso := overshooting_update hpc p
  have hsize := h.size_eq
  have hroom := h.room
  have htaken := h.taken_le
  have hcases : (p = .subSize ∧ cap ≤ s.size) ∨ (p = .addHead e ∧ s.size < cap) := by
    by_cases hfull : cap ≤ s.size
    · exact Or.inl ⟨by rw [hp, if_pos hfull], hfull⟩
    · exact Or.inr ⟨by rw [hp, if_neg hfull], by omega⟩
  have hnd : ¬ p.Draining := by rcases hcases with ⟨hp, -⟩ | ⟨hp, -⟩ <;> rw [hp] <;> exact id
  have hns : ∀ e' k, p ≠ .store e' k := by
    intro e' k
    rcases hcases with ⟨hp, -⟩ | ⟨hp, -⟩ <;> rw [hp] <;> simp
  have hweights : ∑ j, (update s.pc i p j).reserving + ∑ j, (update s.pc i p j).overshooting
      = ∑ j, (s.pc j).reserving + ∑ j, (s.pc j).overshooting + 1 ∧
      s.tickets.length + ∑ j, (update s.pc i p j).reserving ≤ s.taken + cap := by
    rcases hcases with ⟨hp, hfull⟩ | ⟨hp, hfull⟩
    · rw [hp] at hsr hso ⊢
      change _ + 0 = _ + 0 at hsr
      change _ + 0 = _ + 1 at hso
      omega
    · rw [hp] at hsr hso ⊢
      change _ + 0 = _ + 1 at hsr
      change _ + 0 = _ + 0 at hso
      omega
  refine ⟨h.head_eq, h.head_lt, ?_, htaken, ?_, hweights.2, h.slots, ?_, ?_, h.stored_sub, ?_,
    ?_, h.quiet⟩
  · exact wrap_lt _
  · show wrap (s.size + 1) = s.tickets.length - s.taken + _ + _
    rw [hwrap]
    have := hweights.1
    show s.size + 1 = s.tickets.length - s.taken + ∑ j, (update s.pc i p j).reserving
      + ∑ j, (update s.pc i p j).overshooting
    omega
  · exact fun j e' k hj => h.storing j e' k (store_of_update hns hj).2
  · exact fun t c hc => h.stored_update (by simp [hpc]) p hc
  · exact h.drain_update hnd fun j hj =>
      hj.of_same rfl rfl rfl (fun _ _ => rfl) (fun _ _ hs => hs)
  · exact h.drainer_update (iff_of_false hnd (by rw [hpc]; exact not_false))

/-- An overshooting `tryPush` lowers `size_` again. -/
theorem Inv.subSize (h : Inv cap s drainer) (hpc : s.pc i = .subSize) :
    Inv cap (s.subSize i) drainer := by
  have hsr := reserving_update hpc (.pushed false)
  have hso := overshooting_update hpc (.pushed false)
  change _ + 0 = _ + 0 at hsr
  change _ + 1 = _ + 0 at hso
  have hsize := h.size_eq
  have hroom := h.room
  have hsub : wsub s.size 1 = s.size - 1 := wsub_of_le (by omega)
  refine ⟨h.head_eq, h.head_lt, wsub_lt h.size_lt, h.taken_le, ?_, ?_, h.slots, ?_, ?_,
    h.stored_sub, ?_, ?_, h.quiet⟩
  · show wsub s.size 1 = s.tickets.length - s.taken + ∑ j, (update s.pc i _ j).reserving
      + ∑ j, (update s.pc i _ j).overshooting
    rw [hsub]
    omega
  · show s.tickets.length + ∑ j, (update s.pc i _ j).reserving ≤ s.taken + cap
    omega
  · exact fun j e' k hj => h.storing j e' k (store_of_update (by simp) hj).2
  · exact fun t c hc => h.stored_update (by simp [hpc]) _ hc
  · exact h.drain_update not_false fun j hj =>
      hj.of_same rfl rfl rfl (fun _ _ => rfl) (fun _ _ hs => hs)
  · exact h.drainer_update (iff_of_false not_false (by rw [hpc]; exact not_false))

/-- A `tryPush` draws its index. -/
theorem Inv.addHead (h : Inv cap s drainer) (hhist : s.History) {e : α}
    (hpc : s.pc i = .addHead e) (hlt : s.tickets.length + 1 < sizeModulus) :
    Inv cap (s.addHead i e) drainer := by
  have hsr := reserving_update hpc (.store e s.head)
  have hso := overshooting_update hpc (.store e s.head)
  change _ + 1 = _ + 0 at hsr
  change _ + 0 = _ + 0 at hso
  have hsize := h.size_eq
  have hroom := h.room
  have htaken := h.taken_le
  have hhead := h.head_eq
  have hlen : (s.tickets ++ [(⟨i, s.number i, e⟩ : Call ι α)]).length = s.tickets.length + 1 := by
    simp
  have hnew : (⟨i, s.number i, e⟩ : Call ι α) ∉ s.stored := by
    intro hmem
    have hrun := hhist.running i
    rw [hpc] at hrun
    exact Nat.lt_irrefl _ (hrun.2 _ (h.stored_sub _ hmem) rfl)
  constructor
  · show wrap (s.head + 1) = _
    rw [wrap_of_lt (by omega)]
    simp [State.addHead, hhead]
  · show (s.tickets ++ [_]).length < _
    rw [hlen]; exact hlt
  · exact h.size_lt
  · show s.taken ≤ (s.tickets ++ [_]).length
    omega
  · show s.size = (s.tickets ++ [_]).length - s.taken + ∑ j, (update s.pc i _ j).reserving
      + ∑ j, (update s.pc i _ j).overshooting
    omega
  · show (s.tickets ++ [_]).length + ∑ j, (update s.pc i _ j).reserving ≤ s.taken + cap
    omega
  · intro t c ht hc hst
    rcases some_of_getElem?_concat hc with hc | ⟨-, rfl⟩
    · exact h.slots t c ht hc hst
    · exact absurd hst hnew
  · intro j e' k hj
    have hj : update s.pc i (.store e s.head) j = .store e' k := hj
    by_cases hji : j = i
    · rw [hji, update_self] at hj
      obtain ⟨rfl, rfl⟩ : e = e' ∧ s.head = k := by simpa using hj
      refine ⟨?_, by show s.taken ≤ s.head; omega, by rw [hji]; exact hnew⟩
      show (s.tickets ++ [_])[s.head]? = _
      rw [hhead, List.getElem?_concat_length, hji]
      rfl
    · rw [update_of_ne hji] at hj
      obtain ⟨hk, hrest⟩ := h.storing j e' k hj
      exact ⟨getElem?_concat_of_some hk, hrest⟩
  · intro t c hc
    rcases some_of_getElem?_concat hc with hc | ⟨rfl, rfl⟩
    · exact h.stored_update (by simp [hpc]) _ hc
    · right
      show update s.pc i _ i = _
      rw [update_self, hhead]
  · intro c hc
    exact List.mem_append_left _ (h.stored_sub c hc)
  · -- the new index is past what any drain has taken
    refine h.drain_update not_false fun j hj =>
      hj.of_same rfl rfl rfl (fun k hk => entries_concat (hk.trans htaken)) ?_
    intro lo _ hs t c ht ht' hc
    rcases some_of_getElem?_concat hc with hc | ⟨rfl, -⟩
    · exact hs t c ht ht' hc
    · omega
  · exact h.drainer_update (iff_of_false not_false (by rw [hpc]; exact not_false))
  · intro hnone
    obtain ⟨htail, hm⟩ := h.quiet hnone
    exact ⟨htail, hm.trans (entries_concat htaken).symm⟩

/-- A `tryPush` writes its slot, which no drain has still to read. -/
theorem Inv.store (hcap : 2 * cap ≤ sizeModulus) (h : Inv cap s drainer) {e : α} {k : ℕ}
    (hpc : s.pc i = .store e k) (hfree : ¬ s.Unread cap (k % cap)) :
    Inv cap (s.store cap i e k) drainer := by
  have hsr := sum_update_of_eq s.pc Pc.reserving i (b := .pushed true) (by rw [hpc]; rfl)
  have hso := sum_update_of_eq s.pc Pc.overshooting i (b := .pushed true) (by rw [hpc]; rfl)
  obtain ⟨hk, hle, hnew⟩ := h.storing i e k hpc
  have hroom := h.room
  have hkN := (List.getElem?_eq_some_iff.mp hk).1
  refine ⟨h.head_eq, h.head_lt, h.size_lt, h.taken_le, ?_, ?_, ?_, ?_, ?_, ?_, ?_, ?_, h.quiet⟩
  · show s.size = s.tickets.length - s.taken + ∑ j, (update s.pc i _ j).reserving
      + ∑ j, (update s.pc i _ j).overshooting
    rw [hsr, hso]; exact h.size_eq
  · show s.tickets.length + ∑ j, (update s.pc i _ j).reserving ≤ s.taken + cap
    rw [hsr]; exact hroom
  · intro t c ht hc hst
    have ht : s.taken ≤ t := ht
    show update s.buffer (k % cap) e (t % cap) = c.entry
    have htN : t < s.tickets.length := (List.getElem?_eq_some_iff.mp hc).1
    by_cases htk : t = k
    · rw [htk, update_self]
      have : c = ⟨i, s.number i, e⟩ := Option.some.inj (by rw [← hk, ← htk]; exact hc.symm)
      rw [this]
    · have hmod : t % cap ≠ k % cap := fun he =>
        htk (eq_of_mod_eq_of_window ht (by omega) hle (by omega) he)
      rw [update_of_ne hmod]
      refine h.slots t c ht hc ?_
      rcases List.mem_append.mp hst with hst | hst
      · exact hst
      · -- the call that stores now is the one of index `k`
        rcases h.stored t c hc with hst' | hst'
        · exact hst'
        · rw [List.mem_singleton.mp hst] at hst'
          have : s.pc i = .store e t := hst'
          rw [hpc] at this
          exact absurd (by simpa using this.symm) htk
  · intro j e' m hj
    obtain ⟨hji, hj⟩ := store_of_update (by simp) hj
    obtain ⟨hm, hlem, hnot⟩ := h.storing j e' m hj
    refine ⟨hm, hlem, fun hmem => ?_⟩
    rcases List.mem_append.mp hmem with hmem | hmem
    · exact hnot hmem
    · exact hji (by simpa using congrArg Call.thread (List.mem_singleton.mp hmem))
  · intro t c hc
    rcases h.stored t c hc with hst | hst
    · exact Or.inl (List.mem_append_left _ hst)
    · by_cases hci : c.thread = i
      · left
        rw [hci, hpc] at hst
        obtain ⟨rfl, rfl⟩ : e = c.entry ∧ k = t := by simpa using hst
        have : c = ⟨i, s.number i, c.entry⟩ := Option.some.inj (by rw [← hk]; exact hc.symm)
        exact List.mem_append_right _ (List.mem_singleton.mpr this)
      · right
        show update s.pc i _ c.thread = _
        rwa [update_of_ne hci]
  · intro c hc
    rcases List.mem_append.mp hc with hc | hc
    · exact h.stored_sub c hc
    · rw [List.mem_singleton.mp hc]
      exact List.mem_of_getElem? hk
  · refine h.drain_update not_false fun j hj => hj.of_same rfl rfl rfl (fun _ _ => rfl) ?_
    intro lo hlo hs t c ht ht' hc
    show update s.buffer (k % cap) e (t % cap) = c.entry
    have hmod : t % cap ≠ k % cap := fun he => hfree (he ▸ hj.unread hcap hlo ht ht')
    rw [update_of_ne hmod]
    exact hs t c ht ht' hc
  · exact h.drainer_update (iff_of_false not_false (by rw [hpc]; exact not_false))

/-- A step of the draining thread that touches neither the counters nor the slots. -/
theorem Inv.of_drain (h : Inv cap s (some i)) (s' : State ι α) (p : Pc α) (drainer' : Option ι)
    (hi : (s.pc i).Draining)
    (hbuf : s'.buffer = s.buffer) (hhead : s'.head = s.head) (hsize : s'.size = s.size)
    (hargs : s'.args = s.args) (htick : s'.tickets = s.tickets) (hstored : s'.stored = s.stored)
    (htaken : s'.taken = s.taken) (hpc : s'.pc = update s.pc i p) (hp : ¬ p.Raised)
    (hok : DrainOk cap s' p) (hdr : p.Draining ↔ drainer' = some i)
    (hother : ∀ j, j ≠ i → drainer' ≠ some j)
    (hquiet : drainer' = none → s'.tail = s.taken % cap ∧ s'.moved = entries s.tickets s.taken) :
    Inv cap s' drainer' := by
  have hres : ∀ {q : Pc α}, ¬ q.Raised → q.reserving = 0 ∧ q.overshooting = 0 := by
    intro q hq
    cases q <;> first | exact ⟨rfl, rfl⟩ | exact absurd trivial hq
  have hni : ¬ (s.pc i).Raised := by
    intro hr
    cases hq : s.pc i <;> rw [hq] at hi hr <;> first | exact hi | exact hr
  have hns : ∀ {q : Pc α} {e k}, ¬ q.Raised → q ≠ .store e k := by
    rintro _ e k hq rfl
    exact hq trivial
  have hr := sum_update_of_eq s.pc Pc.reserving i ((hres hp).1.trans (hres hni).1.symm)
  have ho := sum_update_of_eq s.pc Pc.overshooting i ((hres hp).2.trans (hres hni).2.symm)
  constructor
  · rw [hhead, htick, h.head_eq]
  · rw [htick]; exact h.head_lt
  · rw [hsize]; exact h.size_lt
  · rw [htaken, htick]; exact h.taken_le
  · rw [hsize, htick, htaken, hpc, hr, ho]; exact h.size_eq
  · rw [htick, htaken, hpc, hr]; exact h.room
  · rw [htick, htaken, hstored, hbuf]; exact h.slots
  · rw [htick, htaken, hstored, hpc]
    intro j e k hj
    unfold State.number
    rw [hargs]
    exact h.storing j e k (store_of_update (fun _ _ => hns hp) hj).2
  · rw [htick, hstored, hpc]
    exact fun t c hc => h.stored_update (fun _ _ => hns hni) p hc
  · rw [htick, hstored]; exact h.stored_sub
  · intro j
    rw [hpc]
    by_cases hji : j = i
    · rw [hji, update_self]; exact hok
    · rw [update_of_ne hji]
      exact DrainOk.of_not_draining (h.not_draining hji)
  · intro j
    rw [hpc]
    by_cases hji : j = i
    · rw [hji, update_self]; exact hdr
    · rw [update_of_ne hji]
      exact iff_of_false (h.not_draining hji) (hother j hji)
  · rw [htaken, htick]; exact hquiet

/-- `popAll` takes the count: nobody is between the raise of `size_` and the
write of a slot, so the count is the number of written, untaken slots. -/
theorem Inv.exchange (h : Inv cap s drainer) (hpc : s.pc i = .exchange)
    (hraised : s.size ≠ 0 → ∀ j, ¬ (s.pc j).Raised)
    (hapart : s.size ≠ 0 → ∀ j, ¬ (s.pc j).Draining) :
    ∃ drainer', Inv cap (s.exchange i) drainer' := by
  by_cases hz : s.size = 0
  · refine ⟨drainer, h.of_pc (i := i) (p := .popped []) rfl rfl rfl hz.symm rfl rfl ?_ rfl
      (fun _ _ => rfl) ?_ ⟨not_false, not_false⟩ (by rw [hpc]; exact ⟨not_false, not_false⟩)⟩
    · show s.taken + s.size = s.taken
      omega
    · show update s.pc i _ = _
      rw [if_pos hz]
  -- nobody has raised `size_`, so it counts what is stored and not taken
  have hraised := hraised hz
  have hapart := hapart hz
  have hres : ∑ j, (s.pc j).reserving = 0 := Finset.sum_eq_zero fun j _ => by
    have := hraised j
    cases hq : s.pc j <;> rw [hq] at this <;> first | rfl | exact absurd trivial this
  have hover : ∑ j, (s.pc j).overshooting = 0 := Finset.sum_eq_zero fun j _ => by
    have := hraised j
    cases hq : s.pc j <;> rw [hq] at this <;> first | rfl | exact absurd trivial this
  have hns : ∀ j e k, s.pc j ≠ .store e k := fun j e k hj => hraised j (by rw [hj]; trivial)
  have hstored : ∀ t c, s.tickets[t]? = some c → c ∈ s.stored := fun t c hc =>
    (h.stored t c hc).resolve_right (hns _ _ _)
  have hnone : drainer = none := by
    cases drainer with
    | none => rfl
    | some j => exact absurd ((h.drainer_iff j).mpr rfl) (hapart j)
  obtain ⟨htail, hmoved⟩ := h.quiet hnone
  have hsize := h.size_eq
  have hroom := h.room
  have hle := h.taken_le
  have htotal : s.taken + s.size = s.tickets.length := by omega
  have hr := reserving_update hpc (.loadTail s.size)
  have ho := overshooting_update hpc (.loadTail s.size)
  change _ + 0 = _ + 0 at hr ho
  have hpc' : (s.exchange i).pc = update s.pc i (.loadTail s.size) := by
    show update s.pc i _ = _
    rw [if_neg hz]
  refine ⟨some i, h.head_eq, h.head_lt, ?_, ?_, ?_, ?_, ?_, ?_, ?_, h.stored_sub, ?_, ?_,
    fun hno => by simp at hno⟩
  · show 0 < sizeModulus
    rw [sizeModulus_eq]; omega
  · exact htotal.le
  · rw [hpc']
    show 0 = s.tickets.length - (s.taken + s.size) + _ + _
    omega
  · rw [hpc']
    show s.tickets.length + _ ≤ s.taken + s.size + cap
    omega
  · intro t c ht hc
    have hlt := (List.getElem?_eq_some_iff.mp hc).1
    have ht : s.taken + s.size ≤ t := ht
    have hlt : t < s.tickets.length := hlt
    omega
  · intro j e k hj
    rw [hpc'] at hj
    exact absurd (store_of_update (by simp) hj).2 (hns j e k)
  · intro t c hc
    exact Or.inl (hstored t c hc)
  · intro j
    rw [hpc']
    by_cases hji : j = i
    · rw [hji, update_self]
      have hlo : s.taken + s.size - s.size = s.taken := by omega
      refine ⟨⟨by omega, by omega, ?_, ?_, ?_⟩, ?_⟩
      · show s.size ≤ s.taken + s.size
        omega
      · show s.moved = entries s.tickets (s.taken + s.size - s.size)
        rw [hlo]; exact hmoved
      · intro t c ht _ hc
        have ht : s.taken + s.size - s.size ≤ t := ht
        exact h.slots t c (by omega) hc (hstored t c hc)
      · show s.tail = (s.taken + s.size - s.size) % cap
        rw [hlo]; exact htail
    · rw [update_of_ne hji]
      exact DrainOk.of_not_draining (hapart j)
  · intro j
    rw [hpc']
    by_cases hji : j = i
    · rw [hji, update_self]; exact iff_of_true trivial rfl
    · rw [update_of_ne hji]
      exact iff_of_false (hapart j) fun he => hji (Option.some.inj he).symm

/-- `popAll` reads `tail_`. -/
theorem Inv.loadTail (h : Inv cap s drainer) {n : ℕ} (hpc : s.pc i = .loadTail n) :
    Inv cap (s.goto i (.read ⟨s.tail, n, 0, []⟩)) drainer := by
  have hi : (s.pc i).Draining := by rw [hpc]; trivial
  obtain rfl := h.drainer_eq hi
  have hd := h.drain i
  rw [hpc] at hd
  obtain ⟨hdraws, htail⟩ := hd
  refine h.of_drain (s.goto i (.read ⟨s.tail, n, 0, []⟩)) (.read ⟨s.tail, n, 0, []⟩) (some i) hi
    rfl rfl rfl rfl rfl rfl rfl rfl not_false ⟨?_, hdraws.pos, htail⟩ (iff_of_true trivial rfl)
    (fun j hji he => hji (Option.some.inj he).symm) (by simp)
  exact ⟨hdraws.pos, hdraws.le_cap, hdraws.le_taken, hdraws.moved, hdraws.slots⟩

/-- `popAll` reads a slot, which holds the entry of its index. -/
theorem Inv.read (hcap : 2 * cap ≤ sizeModulus) (h : Inv cap s drainer) {d : Drain α}
    (hpc : s.pc i = .read d) : Inv cap (s.read cap i d) drainer := by
  have hi : (s.pc i).Draining := by rw [hpc]; trivial
  obtain rfl := h.drainer_eq hi
  have hd := h.drain i
  rw [hpc] at hd
  obtain ⟨hdraws, hlt, htail⟩ := hd
  have hpos := hdraws.pos
  have hle := hdraws.le_cap
  have hlet := hdraws.le_taken
  have htaken := h.taken_le
  set lo := s.taken - d.oldSize + d.i with hlo
  obtain ⟨c, hc⟩ : ∃ c, s.tickets[lo]? = some c :=
    ⟨_, List.getElem?_eq_getElem (by omega)⟩
  have hindex : d.index cap = lo % cap := by
    unfold Drain.index
    rw [htail, wrap_tail_mod hcap (by omega) (by omega)]
  have hval : s.buffer (d.index cap) = c.entry := by
    rw [hindex]
    exact hdraws.slots lo c le_rfl (by omega) hc
  have hmoved : s.moved ++ [s.buffer (d.index cap)] = entries s.tickets (lo + 1) := by
    rw [hval, hdraws.moved, entries_succ hc]
  have hslots : ∀ lo', lo ≤ lo' → SlotsHold cap s.buffer s.tickets lo' s.taken :=
    fun lo' hle t c ht => hdraws.slots t c (hle.trans ht)
  by_cases hmore : d.i + 1 < d.oldSize
  · refine h.of_drain (s.read cap i d) (.read { d with
        i := d.i + 1, entries := d.entries ++ [s.buffer (d.index cap)] }) (some i)
      hi rfl rfl rfl rfl rfl rfl rfl ?_ not_false ⟨?_, hmore, htail⟩
      (iff_of_true trivial rfl) (fun j hji he => hji (Option.some.inj he).symm) (by simp)
    · show update s.pc i _ = _
      rw [if_pos hmore]
    · exact ⟨hpos, hle, hlet, hmoved, hslots _ (Nat.le_succ lo)⟩
  · have hlast : lo + 1 = s.taken := by omega
    refine h.of_drain (s.read cap i d) (.storeTail { d with
        i := d.i + 1, entries := d.entries ++ [s.buffer (d.index cap)] }) (some i)
      hi rfl rfl rfl rfl rfl rfl rfl ?_ not_false ⟨?_, htail⟩
      (iff_of_true trivial rfl) (fun j hji he => hji (Option.some.inj he).symm) (by simp)
    · show update s.pc i _ = _
      rw [if_neg hmore]
    · rw [hlast] at hmoved
      exact ⟨hpos, hle, hlet, hmoved, hslots s.taken (by omega)⟩

/-- `popAll` stores `tail_`. -/
theorem Inv.storeTail (hcap : 2 * cap ≤ sizeModulus) (h : Inv cap s drainer) {d : Drain α}
    (hpc : s.pc i = .storeTail d) : Inv cap (s.storeTail cap i d) none := by
  have hi : (s.pc i).Draining := by rw [hpc]; trivial
  obtain rfl := h.drainer_eq hi
  have hd := h.drain i
  rw [hpc] at hd
  obtain ⟨hdraws, htail⟩ := hd
  have hpos := hdraws.pos
  have hle := hdraws.le_cap
  have hlet := hdraws.le_taken
  refine h.of_drain (s.storeTail cap i d) (.popped d.entries) none hi
    rfl rfl rfl rfl rfl rfl rfl rfl not_false trivial (iff_of_false not_false (by simp))
    (fun j _ => by simp) fun _ => ⟨?_, hdraws.moved⟩
  show wrap (d.currentTail + d.oldSize) % cap = s.taken % cap
  rw [htail, wrap_tail_mod hcap (by omega) hle, Nat.sub_add_cancel hlet]

/-- **One step with the discipline keeps the invariant.** -/
theorem Step.inv {a : Act α} (hstep : Step cap s i a s') (hcap : 2 * cap ≤ sizeModulus)
    (h : Inv cap s drainer) (hhist : s.History) (hapart : DrainsApart s i)
    (hway : OutOfTheWay cap s i) :
    ∃ drainer', Inv cap s' drainer' := by
  have hout : ∀ {q : Pc α}, s.pc i = q → ¬ q.Raised ∧ ¬ q.Draining →
      ¬ (s.pc i).Raised ∧ ¬ (s.pc i).Draining := fun hq hn => by rw [hq]; exact hn
  have hidle : ¬ (Pc.idle : Pc α).Raised ∧ ¬ (Pc.idle : Pc α).Draining := ⟨not_false, not_false⟩
  cases hstep with
  | callPush hpc =>
    refine ⟨_, h.of_pc rfl rfl rfl rfl rfl rfl rfl rfl (fun j hji => ?_) rfl
      ⟨not_false, not_false⟩ (hout hpc hidle)⟩
    show (update s.args i _ j).length - 1 = _
    rw [update_of_ne hji]
    rfl
  | addSize hpc => exact ⟨_, h.addSize hpc (hway.counters.1 _ hpc)⟩
  | subSize hpc => exact ⟨_, h.subSize hpc⟩
  | addHead hpc => exact ⟨_, h.addHead hhist hpc (hway.counters.2 _ hpc)⟩
  | store hpc => exact ⟨_, h.store hcap hpc (hway.store _ _ hpc)⟩
  | exchange hpc => exact h.exchange hpc (hway.exchange hpc) (hapart hpc)
  | loadTail hpc => exact ⟨_, h.loadTail hpc⟩
  | read hpc => exact ⟨_, h.read hcap hpc⟩
  | storeTail hpc => exact ⟨_, h.storeTail hcap hpc⟩
  | callPop hpc | full hpc _ | room hpc _ | returnPush hpc | returnPop hpc =>
    exact ⟨_, h.of_pc rfl rfl rfl rfl rfl rfl rfl rfl (fun _ _ => rfl) rfl
      ⟨not_false, not_false⟩ (hout hpc ⟨not_false, not_false⟩)⟩

end Inv

/-- Every run keeps the history right. -/
theorem history_of_reachable [DecidableEq ι] {cap : ℕ} {dflt : α}
    {ok : State ι α → ι × Act α → Prop} {s : State ι α}
    (hs : Reachable (next cap) ok (init ι dflt) s) : s.History := by
  refine hs.invariant (history_init dflt) ?_
  rintro s ⟨i, a⟩ s' - h - hnext
  exact (step_of_next hnext).history h

/-- **The invariant holds along every run with the discipline.** -/
theorem inv_of_reachable [Fintype ι] [DecidableEq ι] {cap : ℕ} {dflt : α} {s : State ι α}
    (hcap : 2 * cap ≤ sizeModulus)
    (hs : Reachable (next cap) (fun s a => DrainsApart s a.1 ∧ OutOfTheWay cap s a.1)
      (init ι dflt) s) :
    ∃ drainer, Inv cap s drainer := by
  have hboth : s.History ∧ ∃ drainer, Inv cap s drainer := by
    refine hs.invariant (I := fun s => s.History ∧ ∃ drainer, Inv cap s drainer)
      ⟨history_init dflt, none, inv_init cap dflt⟩ ?_
    rintro s ⟨i, a⟩ s' - ⟨hhist, drainer, h⟩ ⟨hapart, hway⟩ hnext
    have hstep : Step cap s i a s' := step_of_next hnext
    exact ⟨hstep.history hhist, hstep.inv hcap h hhist hapart hway⟩
  exact hboth.2

end RingBuffer
end SpeckitLog
