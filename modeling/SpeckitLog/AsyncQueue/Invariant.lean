import SpeckitLog.AsyncQueue
import Mathlib.Data.Fintype.Basic

/-!
# The ticket invariant of the queue

At any moment the tickets from `head_` up to `head_ + cap` use each cell once,
and each of these tickets is in one of seven phases, from *free* through
*published* to *recycled*.  The phase of a ticket determines its cell, and the
program points of the threads determine the phases; `Inv` says both.  It is kept
by every step as long as no two drains overlap: a thread that reads `available`
entries must have read the current `head_`, with no other thread draining.

## Main results

* `Step.inv` — one step keeps the invariant.
* `inv_of_reachable` — it holds along every run whose drains stay apart and
  whose tickets stay below `2 ^ 64`.
-/

namespace SpeckitLog
namespace AsyncQueue

open Function Transition Call

variable {ι α : Type*}

/-! ### Phases of a ticket -/

/-- How far a ticket has come. -/
inductive Phase
  /-- Not handed out. -/
  | free
  /-- Won by a producer whose entry is not in the cell. -/
  | reserved
  /-- The entry is in the cell, not published. -/
  | filled
  | published
  /-- A drain has moved the entry out and not reset the cell. -/
  | moved
  /-- The cell is reset and not marked free. -/
  | emptied
  /-- The cell is marked free for ticket `t + cap`. -/
  | recycled
  deriving DecidableEq

/-- No drain has touched the ticket. -/
def Phase.Pending : Phase → Prop
  | .free | .reserved | .filled | .published => True
  | _ => False

/-- A producer has yet to act on the ticket. -/
def Phase.Unpublished : Phase → Prop
  | .free | .reserved | .filled => True
  | _ => False

theorem Phase.Unpublished.pending {p : Phase} (h : p.Unpublished) : p.Pending := by
  cases p <;> trivial

/-- The cell of ticket `t` in phase `p`. -/
def cellOf (cap : ℕ) (tickets : List (Call ι α)) (t : ℕ) : Phase → Cell α
  | .free | .reserved => ⟨wrap t, none⟩
  | .filled => ⟨wrap t, tickets[t]?.map Call.entry⟩
  | .published | .moved => ⟨wrap (t + 1), tickets[t]?.map Call.entry⟩
  | .emptied => ⟨wrap (t + 1), none⟩
  | .recycled => ⟨wrap (t + cap), none⟩

theorem cellOf_concat {cap : ℕ} {tickets : List (Call ι α)} {c : Call ι α} {t : ℕ} {p : Phase}
    (h : t < tickets.length ∨ p = .free) :
    cellOf cap (tickets ++ [c]) t p = cellOf cap tickets t p := by
  rcases h with ht | rfl
  · cases p <;> simp [cellOf, List.getElem?_append_left ht]
  · rfl

/-! ### What each program point knows -/

/-- A drain that has recycled the tickets before its own, and touched none after. -/
structure Progress (cap head : ℕ) (tickets : List (Call ι α)) (ph : ℕ → Phase) (d : Drain α) :
    Prop where
  head_eq : d.head = head
  bound : d.head + d.available ≤ tickets.length
  recycled : ∀ t, head ≤ t → t < d.ticket → ph t = .recycled
  pending : ∀ t, d.ticket < t → t < head + cap → (ph t).Pending

/-- What holds while thread `i` is at a program point. -/
def PcOk (cap head : ℕ) (tickets : List (Call ι α)) (moved : List α) (ph : ℕ → Phase) (i : ι) :
    Pc α → Prop
  | .loadHead _ t => t ≤ tickets.length
  | .cas _ t => t ≤ tickets.length ∧ (t = tickets.length → t < head + cap)
  | .awaitFree e t | .emplace e t =>
    head ≤ t ∧ ph t = .reserved ∧ ∃ n, tickets[t]? = some ⟨i, n, e⟩
  | .publish t => head ≤ t ∧ ph t = .filled ∧ ∃ n e, tickets[t]? = some ⟨i, n, e⟩
  | .popLoadTail h => h ≤ head
  | .awaitEntry d =>
    Progress cap head tickets ph d ∧ d.i < d.available ∧ (ph d.ticket).Pending ∧
      moved = entries tickets d.ticket
  | .testValue d | .moveOut d =>
    Progress cap head tickets ph d ∧ d.i < d.available ∧ ph d.ticket = .published ∧
      moved = entries tickets d.ticket
  | .reset d =>
    Progress cap head tickets ph d ∧ d.i < d.available ∧ ph d.ticket = .moved ∧
      moved = entries tickets (d.ticket + 1)
  | .freeSlot d =>
    Progress cap head tickets ph d ∧ d.i < d.available ∧ ph d.ticket = .emptied ∧
      moved = entries tickets (d.ticket + 1)
  | .storeHead d =>
    Progress cap head tickets ph d ∧ d.i = d.available ∧
      (d.ticket < head + cap → (ph d.ticket).Pending) ∧ moved = entries tickets d.ticket
  | _ => True

/-! ### The invariant -/

/-- **The ticket invariant**, for given phases of the tickets and the thread
that is draining, if any. -/
structure Inv (cap : ℕ) (s : State ι α) (ph : ℕ → Phase) (drainer : Option ι) : Prop where
  tail_eq : s.tail = s.tickets.length
  tail_lt : s.tickets.length < sizeModulus
  head_le : s.head ≤ s.tickets.length
  tail_le : s.tickets.length ≤ s.head + cap
  cells : ∀ t, s.head ≤ t → t < s.head + cap →
    s.buffer (t % cap) = cellOf cap s.tickets t (ph t)
  free_iff : ∀ t, s.head ≤ t → t < s.head + cap → (ph t = .free ↔ s.tickets.length ≤ t)
  pcs : ∀ i, PcOk cap s.head s.tickets s.moved ph i (s.pc i)
  drainer_iff : ∀ i, (s.pc i).Draining ↔ drainer = some i
  quiet : drainer = none →
    (∀ t, s.head ≤ t → t < s.head + cap → (ph t).Pending) ∧ s.moved = entries s.tickets s.head
  holder : ∀ t c, s.tickets[t]? = some c → s.head ≤ t → (ph t).Unpublished →
    (s.pc c.thread).Holds t

theorem inv_init (cap : ℕ) : Inv cap (init ι α) (fun _ => .free) none where
  tail_eq := rfl
  tail_lt := by simp [init, sizeModulus_eq]
  head_le := le_rfl
  tail_le := Nat.zero_le _
  cells t _ ht := by
    have : t % cap = t := Nat.mod_eq_of_lt (by simpa [init] using ht)
    simp [init, cellOf, this]
  free_iff t _ _ := by simp [init]
  pcs _ := trivial
  drainer_iff i := by simp [init, Pc.Draining]
  quiet _ := ⟨fun _ _ _ => trivial, rfl⟩
  holder t c h := by simp [init] at h

/-! ### How the knowledge of one thread survives the steps of another -/

section PcOk

variable {cap head : ℕ} {tickets : List (Call ι α)} {moved : List α} {ph : ℕ → Phase} {i : ι}
  {p : Pc α} {t : ℕ} {q : Phase}

theorem Progress.update_push {d : Drain α} (h : Progress cap head tickets ph d)
    (ht : (ph t).Unpublished) (hq : q.Pending) :
    Progress cap head tickets (update ph t q) d where
  head_eq := h.head_eq
  bound := h.bound
  recycled u hu hu' := by
    have hne : u ≠ t := by
      rintro rfl
      rw [h.recycled u hu hu'] at ht
      exact ht
    rw [update_of_ne hne, h.recycled u hu hu']
  pending u hu hu' := by
    by_cases hut : u = t
    · rw [hut, update_self]; exact hq
    · rw [update_of_ne hut]; exact h.pending u hu hu'

/-- The drain itself changes the phase of its ticket. -/
theorem Progress.update_ticket {d d' : Drain α} (h : Progress cap head tickets ph d)
    (hhead : d'.head = d.head) (havail : d'.available = d.available) (hi : d'.i = d.i) :
    Progress cap head tickets (update ph d.ticket q) d' := by
  have ht : d'.ticket = d.ticket := by rw [Drain.ticket, Drain.ticket, hhead, hi]
  refine ⟨hhead.trans h.head_eq, by rw [hhead, havail]; exact h.bound, ?_, ?_⟩
  · intro u hu hu'
    rw [ht] at hu'
    rw [update_of_ne (Nat.ne_of_lt hu')]
    exact h.recycled u hu hu'
  · intro u hu hu'
    rw [ht] at hu
    rw [update_of_ne (Nat.ne_of_gt hu)]
    exact h.pending u hu hu'

/-- A drain recycles its ticket and goes to the next one. -/
theorem Progress.recycle {d : Drain α} (h : Progress cap head tickets ph d) :
    Progress cap head tickets (update ph d.ticket .recycled) { d with i := d.i + 1 } := by
  refine ⟨h.head_eq, h.bound, fun u hu hu' => ?_, fun u hu hu' => ?_⟩
  · have hu' : u < d.ticket + 1 := hu'
    by_cases hut : u = d.ticket
    · rw [hut, update_self]
    · rw [update_of_ne hut]
      exact h.recycled u hu (by omega)
  · have hu : d.ticket + 1 < u := hu
    rw [update_of_ne (by omega)]
    exact h.pending u (by omega) hu'

/-- A producer moves its own ticket on. -/
theorem PcOk.update_push (h : PcOk cap head tickets moved ph i p)
    (hown : ∀ n e, tickets[t]? ≠ some ⟨i, n, e⟩) (ht : (ph t).Unpublished) (hq : q.Pending) :
    PcOk cap head tickets moved (update ph t q) i p := by
  have hpend : ∀ u, (ph u).Pending → (update ph t q u).Pending := by
    intro u hu
    by_cases hut : u = t
    · rw [hut, update_self]; exact hq
    · rwa [update_of_ne hut]
  have hdone : ∀ u r, ph u = r → ¬ r.Unpublished → update ph t q u = r := by
    rintro u _ rfl hr
    have hut : u ≠ t := by rintro rfl; exact hr ht
    rw [update_of_ne hut]
  cases p with
  | awaitFree e u | emplace e u =>
    obtain ⟨hu, hph, n, hn⟩ := h
    have hut : u ≠ t := by rintro rfl; exact hown n e hn
    exact ⟨hu, by rwa [update_of_ne hut], n, hn⟩
  | publish u =>
    obtain ⟨hu, hph, n, e, hn⟩ := h
    have hut : u ≠ t := by rintro rfl; exact hown n e hn
    exact ⟨hu, by rwa [update_of_ne hut], n, e, hn⟩
  | awaitEntry d =>
    obtain ⟨hd, hi, hph, hm⟩ := h
    exact ⟨hd.update_push ht hq, hi, hpend _ hph, hm⟩
  | testValue d | moveOut d | reset d | freeSlot d =>
    obtain ⟨hd, hi, hph, hm⟩ := h
    exact ⟨hd.update_push ht hq, hi, hdone _ _ hph not_false, hm⟩
  | storeHead d =>
    obtain ⟨hd, hi, hph, hm⟩ := h
    exact ⟨hd.update_push ht hq, hi, fun hlt => hpend _ (hph hlt), hm⟩
  | _ => exact h

/-- A drain moves a ticket on that no producer has to act on any more. -/
theorem PcOk.update_drain {moved' : List α} (h : PcOk cap head tickets moved ph i p)
    (hp : ¬ p.Draining) (ht : ¬ (ph t).Unpublished) :
    PcOk cap head tickets moved' (update ph t q) i p := by
  have hkeep : ∀ u r, ph u = r → r.Unpublished → update ph t q u = r := by
    rintro u _ rfl hr
    have hut : u ≠ t := by rintro rfl; exact ht hr
    rw [update_of_ne hut]
  cases p with
  | awaitFree e u | emplace e u =>
    obtain ⟨hu, hph, hn⟩ := h
    exact ⟨hu, hkeep _ _ hph trivial, hn⟩
  | publish u =>
    obtain ⟨hu, hph, hn⟩ := h
    exact ⟨hu, hkeep _ _ hph trivial, hn⟩
  | awaitEntry d | testValue d | moveOut d | reset d | freeSlot d | storeHead d =>
    exact absurd trivial hp
  | _ => exact h

theorem Progress.concat {c : Call ι α} {d : Drain α} (h : Progress cap head tickets ph d) :
    Progress cap head (tickets ++ [c]) ph d :=
  ⟨h.head_eq, by have := h.bound; rw [List.length_append]; omega, h.recycled, h.pending⟩

/-- Another producer wins the next ticket. -/
theorem PcOk.concat {c : Call ι α} (h : PcOk cap head tickets moved ph i p) :
    PcOk cap head (tickets ++ [c]) moved ph i p := by
  have hlen : (tickets ++ [c]).length = tickets.length + 1 := by simp
  cases p with
  | loadHead e u => exact Nat.le_trans h (by omega)
  | cas e u =>
    obtain ⟨hle, hlt⟩ := h
    exact ⟨by omega, fun hu => by omega⟩
  | awaitFree e u | emplace e u =>
    obtain ⟨hu, hph, n, hn⟩ := h
    exact ⟨hu, hph, n, getElem?_concat_of_some hn⟩
  | publish u =>
    obtain ⟨hu, hph, n, e, hn⟩ := h
    exact ⟨hu, hph, n, e, getElem?_concat_of_some hn⟩
  | awaitEntry d | testValue d | moveOut d | reset d | freeSlot d | storeHead d =>
    obtain ⟨hd, hi, hph, hm⟩ := h
    have hb := hd.bound
    refine ⟨hd.concat, hi, hph, ?_⟩
    rw [hm, entries_concat (by unfold Drain.ticket; omega)]
  | _ => exact h

/-- A drain ends: `head_` moves past recycled tickets only. -/
theorem PcOk.advance {head' : ℕ} {ph' : ℕ → Phase} (h : PcOk cap head tickets moved ph i p)
    (hp : ¬ p.Draining) (hhead : head ≤ head')
    (hrec : ∀ u, head ≤ u → u < head' → ph u = .recycled)
    (hph' : ∀ u, u < tickets.length → ph' u = ph u) :
    PcOk cap head' tickets moved ph' i p := by
  have hpast : ∀ u, head ≤ u → (ph u).Unpublished → head' ≤ u := by
    intro u hu hph
    by_contra hlt
    rw [hrec u hu (by omega)] at hph
    exact hph
  cases p with
  | cas e u => exact ⟨h.1, fun hu => Nat.lt_of_lt_of_le (h.2 hu) (by omega)⟩
  | awaitFree e u | emplace e u =>
    obtain ⟨hu, hph, n, hn⟩ := h
    refine ⟨hpast u hu (by rw [hph]; trivial), ?_, n, hn⟩
    rw [hph' u (List.getElem?_eq_some_iff.mp hn).1, hph]
  | publish u =>
    obtain ⟨hu, hph, n, e, hn⟩ := h
    refine ⟨hpast u hu (by rw [hph]; trivial), ?_, n, e, hn⟩
    rw [hph' u (List.getElem?_eq_some_iff.mp hn).1, hph]
  | popLoadTail u => exact Nat.le_trans h hhead
  | awaitEntry d | testValue d | moveOut d | reset d | freeSlot d | storeHead d =>
    exact absurd trivial hp
  | _ => exact h

end PcOk

/-! ### The effect of each kind of step on the invariant -/

section Inv

variable {cap : ℕ} {s s' : State ι α} {ph : ℕ → Phase} {drainer : Option ι} {i : ι} {p : Pc α}
  {t : ℕ} {q : Phase}

/-- The cells after a step that moves one ticket to phase `q`. -/
theorem Inv.cells_update (h : Inv cap s ph drainer) (ht : s.head ≤ t) (ht' : t < s.head + cap)
    {u : ℕ} (hu : s.head ≤ u) (hu' : u < s.head + cap) :
    update s.buffer (t % cap) (cellOf cap s.tickets t q) (u % cap)
      = cellOf cap s.tickets u (update ph t q u) := by
  by_cases hut : u = t
  · rw [hut, update_self, update_self]
  · have hmod : u % cap ≠ t % cap := fun he => hut (eq_of_mod_eq_of_window hu hu' ht ht' he)
    rw [update_of_ne hmod, update_of_ne hut, h.cells u hu hu']

/-- The cell of a ticket a drain is at. -/
theorem Inv.drain_cell (h : Inv cap s ph drainer) {d : Drain α}
    (hd : Progress cap s.head s.tickets ph d) (hi : d.i < d.available) :
    d.cell cap = d.ticket % cap ∧ s.head ≤ d.ticket ∧ d.ticket < s.tickets.length ∧
      s.buffer (d.cell cap) = cellOf cap s.tickets d.ticket (ph d.ticket) := by
  have hbound := hd.bound
  have hhead := hd.head_eq
  have htl := h.tail_le
  have hlt := h.tail_lt
  have ht : d.ticket = d.head + d.i := rfl
  have hcell : d.cell cap = d.ticket % cap := by rw [Drain.cell, wrap_of_lt (by omega)]
  refine ⟨hcell, by omega, by omega, ?_⟩
  rw [hcell, h.cells d.ticket (by omega) (by omega)]

/-- The sequence number that a drain waits for says that the ticket is published. -/
theorem Inv.published_of_ready (h : Inv cap s ph drainer) {d : Drain α}
    (hd : Progress cap s.head s.tickets ph d) (hi : d.i < d.available)
    (hpend : (ph d.ticket).Pending) (hseq : (s.buffer (d.cell cap)).seq = wrap (d.ticket + 1)) :
    ph d.ticket = .published := by
  obtain ⟨-, hle, hltN, hcell⟩ := h.drain_cell hd hi
  have hfree := h.free_iff d.ticket hle (Nat.lt_of_lt_of_le hltN h.tail_le)
  rw [hcell] at hseq
  cases hp : ph d.ticket with
  | published => rfl
  | free => exact absurd (hfree.mp hp) (by omega)
  | reserved | filled =>
    rw [hp] at hseq
    exact absurd hseq.symm (wrap_succ_ne d.ticket)
  | _ => rw [hp] at hpend; exact hpend.elim

variable [DecidableEq ι]

/-- Who drains, after a step that neither enters nor leaves a drain. -/
theorem Inv.drainer_update (h : Inv cap s ph drainer) (hp : p.Draining ↔ (s.pc i).Draining)
    (j : ι) : (update s.pc i p j).Draining ↔ drainer = some j := by
  rw [← h.drainer_iff j]
  by_cases hji : j = i
  · rw [hji, update_self]; exact hp
  · rw [update_of_ne hji]

/-- A step that touches neither the cells nor the tickets, and neither enters
nor leaves a drain. -/
theorem Inv.of_pc (h : Inv cap s ph drainer) (hbuf : s'.buffer = s.buffer)
    (htail : s'.tail = s.tail) (hhead : s'.head = s.head) (htick : s'.tickets = s.tickets)
    (hmoved : s'.moved = s.moved) (hpc : s'.pc = update s.pc i p)
    (hok : PcOk cap s.head s.tickets s.moved ph i p)
    (hdr : p.Draining ↔ (s.pc i).Draining) (hhold : ∀ t, (s.pc i).Holds t → p.Holds t) :
    Inv cap s' ph drainer where
  tail_eq := by rw [htail, htick, h.tail_eq]
  tail_lt := by rw [htick]; exact h.tail_lt
  head_le := by rw [hhead, htick]; exact h.head_le
  tail_le := by rw [hhead, htick]; exact h.tail_le
  cells := by rw [hhead, hbuf, htick]; exact h.cells
  free_iff := by rw [hhead, htick]; exact h.free_iff
  pcs j := by
    rw [hhead, htick, hmoved, hpc]
    by_cases hji : j = i
    · rw [hji, update_self]; exact hok
    · rw [update_of_ne hji]; exact h.pcs j
  drainer_iff := by rw [hpc]; exact h.drainer_update hdr
  quiet := by rw [hhead, htick, hmoved]; exact h.quiet
  holder u c := by
    rw [hhead, htick, hpc]
    intro hu hle hph
    have hold := h.holder u c hu hle hph
    by_cases hci : c.thread = i
    · rw [hci] at hold ⊢
      rw [update_self]; exact hhold u hold
    · rwa [update_of_ne hci]

theorem Inv.goto (h : Inv cap s ph drainer) (hok : PcOk cap s.head s.tickets s.moved ph i p)
    (hdr : p.Draining ↔ (s.pc i).Draining) (hhold : ∀ t, (s.pc i).Holds t → p.Holds t) :
    Inv cap (s.goto i p) ph drainer :=
  h.of_pc rfl rfl rfl rfl rfl rfl hok hdr hhold

omit [DecidableEq ι] in
/-- A ticket that was won is not free in its new phase. -/
theorem Inv.free_iff_update (h : Inv cap s ph drainer) (htN : t < s.tickets.length)
    (hq : q ≠ .free) {u : ℕ} (hu : s.head ≤ u) (hu' : u < s.head + cap) :
    update ph t q u = .free ↔ s.tickets.length ≤ u := by
  by_cases hut : u = t
  · rw [hut, update_self]
    exact iff_of_false hq (by omega)
  · rw [update_of_ne hut, h.free_iff u hu hu']

theorem pending_update (hq : q.Pending) {u : ℕ} (hu : (ph u).Pending) :
    (update ph t q u).Pending := by
  by_cases hut : u = t
  · rw [hut, update_self]
    exact hq
  · rw [update_of_ne hut]
    exact hu

/-- A producer wins the next ticket. -/
theorem Inv.reserve (h : Inv cap s ph drainer) {e : α} (hpc : s.pc i = .cas e t)
    (ht : s.tail = t) (hlt : s.tickets.length + 1 < sizeModulus) :
    Inv cap (s.reserve i e t) (update ph t .reserved) drainer := by
  have hN : t = s.tickets.length := by rw [← ht, h.tail_eq]
  have hroom : t < s.head + cap := by
    have hok := h.pcs i
    rw [hpc] at hok
    exact hok.2 hN
  have hhead : s.head ≤ t := by rw [hN]; exact h.head_le
  have hfree : ph t = .free := (h.free_iff t hhead hroom).mpr hN.ge
  have hnew : (s.tickets ++ [⟨i, s.number i, e⟩])[t]? = some ⟨i, s.number i, e⟩ := by
    rw [hN, List.getElem?_concat_length]
  constructor
  · simp only [State.reserve, List.length_append, List.length_singleton]
    rw [wrap_of_lt (by omega), hN]
  · simpa [State.reserve] using hlt
  · show s.head ≤ (s.tickets ++ [_]).length
    rw [List.length_append]
    exact Nat.le_add_right_of_le h.head_le
  · show (s.tickets ++ [_]).length ≤ s.head + cap
    rw [List.length_append, List.length_singleton, ← hN]
    exact hroom
  · intro u hu hu'
    show s.buffer (u % cap) = cellOf cap (s.tickets ++ [_]) u (update ph t .reserved u)
    by_cases hut : u = t
    · rw [hut, update_self, h.cells t hhead hroom, hfree]
      rfl
    · have hcase : u < s.tickets.length ∨ ph u = .free := by
        rcases Nat.lt_or_ge u s.tickets.length with hlt | hge
        · exact Or.inl hlt
        · exact Or.inr ((h.free_iff u hu hu').mpr hge)
      rw [update_of_ne hut, cellOf_concat hcase, h.cells u hu hu']
  · intro u hu hu'
    show update ph t .reserved u = .free ↔ (s.tickets ++ [_]).length ≤ u
    rw [List.length_append, List.length_singleton]
    by_cases hut : u = t
    · rw [hut, update_self, hN]
      simp
    · rw [update_of_ne hut, h.free_iff u hu hu']
      omega
  · intro j
    show PcOk cap s.head (s.tickets ++ [_]) s.moved (update ph t .reserved) j
      (update s.pc i _ j)
    by_cases hji : j = i
    · rw [hji, update_self]
      exact ⟨hhead, update_self .., s.number i, hnew⟩
    · rw [update_of_ne hji]
      refine (h.pcs j).concat.update_push (fun n e' heq => ?_) (by rw [hfree]; trivial) trivial
      rw [hnew] at heq
      exact hji (by cases heq; rfl)
  · exact h.drainer_update (iff_of_false not_false (by rw [hpc]; exact not_false))
  · intro hnone
    obtain ⟨hpend, hmoved⟩ := h.quiet hnone
    refine ⟨fun u hu hu' => ?_, ?_⟩
    · exact pending_update (q := .reserved) trivial (hpend u hu hu')
    · show s.moved = entries (s.tickets ++ [_]) s.head
      rw [hmoved, entries_concat h.head_le]
  · intro u c hu hle hph
    show (update s.pc i _ c.thread).Holds u
    rcases some_of_getElem?_concat hu with hu | ⟨hut, rfl⟩
    · have hut : u ≠ t := by
        have := (List.getElem?_eq_some_iff.mp hu).1
        omega
      rw [update_of_ne hut] at hph
      have hold := h.holder u c hu hle hph
      exact update_of_not (P := fun r : Pc α => r.Holds u) hold (by rw [hpc]; exact not_false)
    · rw [update_self]
      exact hN.trans hut.symm

/-- The owner of a ticket moves it on, keeping the ticket until it is published. -/
theorem Inv.push_phase (h : Inv cap s ph drainer) {n : ℕ} {e : α}
    (hown : s.tickets[t]? = some ⟨i, n, e⟩) (ht : s.head ≤ t) (hph : (ph t).Unpublished)
    (hq : q.Pending) (hqf : q ≠ .free)
    (hbuf : s'.buffer = update s.buffer (t % cap) (cellOf cap s.tickets t q))
    (htail : s'.tail = s.tail) (hhead : s'.head = s.head) (htick : s'.tickets = s.tickets)
    (hmoved : s'.moved = s.moved) (hpc : s'.pc = update s.pc i p)
    (hok : PcOk cap s.head s.tickets s.moved (update ph t q) i p)
    (hnp : ¬ p.Draining) (hns : ¬ (s.pc i).Draining)
    (hold : ∀ u, (s.pc i).Holds u → u = t) (hhold : q.Unpublished → p.Holds t) :
    Inv cap s' (update ph t q) drainer := by
  have htN : t < s.tickets.length := (List.getElem?_eq_some_iff.mp hown).1
  have htw : t < s.head + cap := Nat.lt_of_lt_of_le htN h.tail_le
  constructor
  · rw [htail, htick, h.tail_eq]
  · rw [htick]; exact h.tail_lt
  · rw [hhead, htick]; exact h.head_le
  · rw [hhead, htick]; exact h.tail_le
  · rw [hhead, hbuf, htick]
    exact fun u hu hu' => h.cells_update ht htw hu hu'
  · rw [hhead, htick]
    exact fun u hu hu' => h.free_iff_update htN hqf hu hu'
  · intro j
    rw [hhead, htick, hmoved, hpc]
    by_cases hji : j = i
    · rw [hji, update_self]; exact hok
    · -- the ticket belongs to no other thread
      rw [update_of_ne hji]
      refine (h.pcs j).update_push (fun m e' heq => ?_) hph hq
      rw [hown] at heq
      exact hji (by cases heq; rfl)
  · rw [hpc]; exact h.drainer_update (iff_of_false hnp hns)
  · rw [hhead, htick, hmoved]
    intro hnone
    obtain ⟨hpend, hm⟩ := h.quiet hnone
    exact ⟨fun u hu hu' => pending_update hq (hpend u hu hu'), hm⟩
  · intro u c
    rw [hhead, htick, hpc]
    intro hu hle hphu
    by_cases hut : u = t
    · rw [hut, update_self] at hphu
      have : c = ⟨i, n, e⟩ := Option.some.inj (by rw [← hu, hut]; exact hown)
      rw [this, update_self, hut]
      exact hhold hphu
    · rw [update_of_ne hut] at hphu
      have hu' := h.holder u c hu hle hphu
      exact update_of_not (P := fun r : Pc α => r.Holds u) hu' fun hi => hut (hold u hi)

/-- The owner of a ticket fills its cell. -/
theorem Inv.emplace (h : Inv cap s ph drainer) {e : α} (hpc : s.pc i = .emplace e t) :
    Inv cap (s.emplace cap i e t) (update ph t .filled) drainer := by
  have hok := h.pcs i
  rw [hpc] at hok
  obtain ⟨ht, hph, n, hn⟩ := hok
  have htw : t < s.head + cap :=
    Nat.lt_of_lt_of_le (List.getElem?_eq_some_iff.mp hn).1 h.tail_le
  refine h.push_phase (q := .filled) hn ht (by rw [hph]; trivial) trivial (by simp)
    ?_ rfl rfl rfl rfl rfl ⟨ht, update_self .., n, e, hn⟩ not_false
    (by rw [hpc]; exact not_false) (by simp [hpc, Pc.Holds]) (fun _ => rfl)
  show update s.buffer (t % cap) _ = _
  rw [h.cells t ht htw, hph]
  simp [cellOf, hn]

/-- The owner of a ticket publishes its cell, and lets go of the ticket. -/
theorem Inv.publish (h : Inv cap s ph drainer) (hpc : s.pc i = .publish t) :
    Inv cap (s.publish cap i t) (update ph t .published) drainer := by
  have hok := h.pcs i
  rw [hpc] at hok
  obtain ⟨ht, hph, n, e, hn⟩ := hok
  have htw : t < s.head + cap :=
    Nat.lt_of_lt_of_le (List.getElem?_eq_some_iff.mp hn).1 h.tail_le
  refine h.push_phase (q := .published) hn ht (by rw [hph]; trivial) trivial (by simp)
    ?_ rfl rfl rfl rfl rfl trivial not_false (by rw [hpc]; exact not_false)
    (by simp [hpc, Pc.Holds]) (fun hf => hf.elim)
  show update s.buffer (t % cap) _ = _
  rw [h.cells t ht htw, hph]
  simp [cellOf]

/-- The draining thread moves its ticket on and goes on draining. -/
theorem Inv.drain_phase (h : Inv cap s ph (some i)) (ht : s.head ≤ t)
    (htN : t < s.tickets.length) (hph : ¬ (ph t).Unpublished) (hq : ¬ q.Unpublished)
    (hbuf : s'.buffer = update s.buffer (t % cap) (cellOf cap s.tickets t q))
    (htail : s'.tail = s.tail) (hhead : s'.head = s.head) (htick : s'.tickets = s.tickets)
    (hpc : s'.pc = update s.pc i p)
    (hok : PcOk cap s.head s.tickets s'.moved (update ph t q) i p) (hp : p.Draining) :
    Inv cap s' (update ph t q) (some i) := by
  have htw : t < s.head + cap := Nat.lt_of_lt_of_le htN h.tail_le
  have hdi : (s.pc i).Draining := (h.drainer_iff i).mpr rfl
  constructor
  · rw [htail, htick, h.tail_eq]
  · rw [htick]; exact h.tail_lt
  · rw [hhead, htick]; exact h.head_le
  · rw [hhead, htick]; exact h.tail_le
  · rw [hhead, hbuf, htick]
    exact fun u hu hu' => h.cells_update ht htw hu hu'
  · rw [hhead, htick]
    exact fun u hu hu' =>
      h.free_iff_update htN (fun hqf => hq (by rw [hqf]; trivial)) hu hu'
  · intro j
    rw [hhead, htick, hpc]
    by_cases hji : j = i
    · rw [hji, update_self]; exact hok
    · -- no other thread drains, and no producer has a published ticket in its hands
      rw [update_of_ne hji]
      refine (h.pcs j).update_drain (fun hdj => hji ?_) hph
      exact (Option.some.inj ((h.drainer_iff j).mp hdj)).symm
  · rw [hpc]; exact h.drainer_update (iff_of_true hp hdi)
  · exact fun hnone => absurd hnone (by simp)
  · intro u c
    rw [hhead, htick, hpc]
    intro hu hle hphu
    have hut : u ≠ t := by
      rintro rfl
      rw [update_self] at hphu
      exact hq hphu
    rw [update_of_ne hut] at hphu
    have hu' := h.holder u c hu hle hphu
    refine update_of_not (P := fun r : Pc α => r.Holds u) hu' ?_
    revert hdi
    cases s.pc i <;> simp [Pc.Draining, Pc.Holds]

/-- A drain moves the entry of its ticket out of the cell. -/
theorem Inv.moveOut (h : Inv cap s ph (some i)) {d : Drain α} {e : α} (hpc : s.pc i = .moveOut d)
    (hval : (s.buffer (d.cell cap)).storage = some e) :
    Inv cap (s.moveOut i d e) (update ph d.ticket .moved) (some i) := by
  have hok := h.pcs i
  rw [hpc] at hok
  obtain ⟨hd, hi, hpub, hm⟩ := hok
  obtain ⟨hmod, hle, hltN, hcell⟩ := h.drain_cell hd hi
  have hentry : s.tickets[d.ticket]?.map Call.entry = some e := by
    rw [← hval, hcell, hpub]; rfl
  obtain ⟨c, hc, rfl⟩ := Option.map_eq_some_iff.mp hentry
  refine h.drain_phase (q := .moved) hle hltN (by rw [hpub]; exact not_false)
    not_false ?_ rfl rfl rfl rfl ⟨hd.update_ticket rfl rfl rfl, hi, update_self .., ?_⟩ trivial
  · rw [← hmod]
    refine (update_eq_self_iff.mpr ?_).symm
    show _ = s.buffer (d.cell cap)
    rw [hcell, hpub]
    rfl
  · show s.moved ++ [c.entry] = _
    rw [hm]
    exact (entries_succ hc).symm

/-- A drain empties the cell of its ticket. -/
theorem Inv.reset (h : Inv cap s ph (some i)) {d : Drain α} (hpc : s.pc i = .reset d) :
    Inv cap (s.reset cap i d) (update ph d.ticket .emptied) (some i) := by
  have hok := h.pcs i
  rw [hpc] at hok
  obtain ⟨hd, hi, hmv, hm⟩ := hok
  obtain ⟨hmod, hle, hltN, hcell⟩ := h.drain_cell hd hi
  refine h.drain_phase (q := .emptied) hle hltN (by rw [hmv]; exact not_false)
    not_false ?_ rfl rfl rfl rfl ⟨hd.update_ticket rfl rfl rfl, hi, update_self .., hm⟩ trivial
  show update s.buffer (d.cell cap) _ = _
  rw [hcell, hmv, hmod]
  rfl

/-- A drain hands the cell of its ticket to the producers of the next lap. -/
theorem Inv.freeSlot (h : Inv cap s ph (some i)) {d : Drain α} (hpc : s.pc i = .freeSlot d) :
    Inv cap (s.freeSlot cap i d) (update ph d.ticket .recycled) (some i) := by
  have hok := h.pcs i
  rw [hpc] at hok
  obtain ⟨hd, hi, hem, hm⟩ := hok
  obtain ⟨hmod, hle, hltN, hcell⟩ := h.drain_cell hd hi
  have hbuf : (s.freeSlot cap i d).buffer
      = update s.buffer (d.ticket % cap) (cellOf cap s.tickets d.ticket .recycled) := by
    show update s.buffer (d.cell cap) _ = _
    rw [hcell, hem, hmod]
    rfl
  have hnext : d.ticket + 1 < s.head + cap →
      (update ph d.ticket .recycled (d.ticket + 1)).Pending := by
    intro hw
    rw [update_of_ne (by omega)]
    exact hd.pending _ (by omega) hw
  by_cases hlast : d.i + 1 < d.available
  · have hbound := hd.bound
    have htl := h.tail_le
    refine h.drain_phase (q := .recycled) (p := .awaitEntry { d with i := d.i + 1 })
      hle hltN (by rw [hem]; exact not_false) not_false hbuf rfl rfl rfl ?_
      ⟨hd.recycle, hlast, hnext ?_, hm⟩ trivial
    · show update s.pc i _ = _
      rw [if_pos hlast]
    · have ht : d.ticket = d.head + d.i := rfl
      have hhead := hd.head_eq
      omega
  · refine h.drain_phase (q := .recycled) (p := .storeHead { d with i := d.i + 1 })
      hle hltN (by rw [hem]; exact not_false) not_false hbuf rfl rfl rfl ?_
      ⟨hd.recycle, ?_, hnext, hm⟩ trivial
    · show update s.pc i _ = _
      rw [if_neg hlast]
    · show d.i + 1 = d.available
      omega

/-- A thread that read the current `head_` starts a drain while no other runs. -/
theorem Inv.startDrain (h : Inv cap s ph none) (hlt : s.head < s.tickets.length)
    (hns : ∀ u, ¬ (s.pc i).Holds u) :
    Inv cap (s.goto i (.awaitEntry ⟨s.head, s.tail - s.head, 0, []⟩)) ph (some i) := by
  obtain ⟨hpend, hmoved⟩ := h.quiet rfl
  have htail := h.tail_eq
  have htl := h.tail_le
  refine ⟨h.tail_eq, h.tail_lt, h.head_le, h.tail_le, h.cells, h.free_iff, ?_, ?_,
    fun hnone => absurd hnone (by simp), ?_⟩
  · intro j
    show PcOk cap s.head s.tickets s.moved ph j (update s.pc i _ j)
    by_cases hji : j = i
    · rw [hji, update_self]
      refine ⟨⟨rfl, ?_, ?_, fun u hu => hpend u (Nat.le_of_lt hu)⟩, ?_, ?_, hmoved⟩
      · show s.head + (s.tail - s.head) ≤ s.tickets.length
        omega
      · intro u hu hu'
        exact absurd hu' (Nat.not_lt.mpr hu)
      · show 0 < s.tail - s.head
        omega
      · exact hpend s.head le_rfl (by omega)
    · rw [update_of_ne hji]; exact h.pcs j
  · intro j
    show (update s.pc i _ j).Draining ↔ some i = some j
    by_cases hji : j = i
    · rw [hji, update_self]
      exact iff_of_true trivial rfl
    · rw [update_of_ne hji, h.drainer_iff j]
      exact iff_of_false (by simp) (fun he => hji (Option.some.inj he).symm)
  · intro u c hu hle hph
    have hold := h.holder u c hu hle hph
    exact update_of_not (P := fun r : Pc α => r.Holds u) hold (hns u)

/-- A drain stores the new `head_`: the recycled tickets leave the window, and as
many free ones enter it. -/
theorem Inv.storeHead (h : Inv cap s ph (some i)) {d : Drain α} (hpc : s.pc i = .storeHead d) :
    Inv cap (s.storeHead i d) (fun u => if u < s.head + cap then ph u else .free) none := by
  have hok := h.pcs i
  rw [hpc] at hok
  obtain ⟨hd, hi, hpend, hmoved⟩ := hok
  have htick : d.ticket = d.head + d.available := by rw [Drain.ticket, hi]
  have hbound := hd.bound
  have hhead := hd.head_eq
  have htl := h.tail_le
  have hlt := h.tail_lt
  have hnew : (s.storeHead i d).head = d.ticket := by
    show wrap (d.head + d.available) = d.ticket
    rw [wrap_of_lt (by omega), htick]
  have hph : ∀ u, u < s.tickets.length →
      (if u < s.head + cap then ph u else Phase.free) = ph u :=
    fun u hu => if_pos (by omega)
  constructor
  · exact h.tail_eq
  · exact h.tail_lt
  · rw [hnew]; show d.ticket ≤ s.tickets.length; omega
  · rw [hnew]; show s.tickets.length ≤ d.ticket + cap; omega
  · rw [hnew]
    intro u hu hu'
    show s.buffer (u % cap) = cellOf cap s.tickets u _
    by_cases huw : u < s.head + cap
    · rw [if_pos huw, h.cells u (by omega) huw]
    · -- the ticket enters the window: its cell was recycled for it
      have hold : s.buffer ((u - cap) % cap) = cellOf cap s.tickets (u - cap) .recycled := by
        rw [h.cells (u - cap) (by omega) (by omega), hd.recycled _ (by omega) (by omega)]
      have hmod : u % cap = (u - cap) % cap := by
        rw [← Nat.add_mod_right (u - cap), Nat.sub_add_cancel (by omega)]
      rw [if_neg huw, hmod, hold, cellOf, cellOf, Nat.sub_add_cancel (by omega)]
  · rw [hnew]
    intro u hu hu'
    show (if u < s.head + cap then ph u else Phase.free) = .free ↔ s.tickets.length ≤ u
    by_cases huw : u < s.head + cap
    · rw [if_pos huw, h.free_iff u (by omega) huw]
    · rw [if_neg huw]
      exact iff_of_true rfl (by omega)
  · intro j
    rw [hnew]
    show PcOk cap d.ticket s.tickets s.moved _ j (update s.pc i _ j)
    by_cases hji : j = i
    · rw [hji, update_self]; trivial
    · rw [update_of_ne hji]
      refine (h.pcs j).advance (fun hdj => hji ?_) (by omega) hd.recycled hph
      exact (Option.some.inj ((h.drainer_iff j).mp hdj)).symm
  · intro j
    show (update s.pc i _ j).Draining ↔ _
    by_cases hji : j = i
    · rw [hji, update_self]
      exact iff_of_false not_false (by simp)
    · rw [update_of_ne hji, h.drainer_iff j]
      exact iff_of_false (fun he => hji (Option.some.inj he).symm) (by simp)
  · intro _
    rw [hnew]
    refine ⟨fun u hu hu' => ?_, hmoved⟩
    show (if u < s.head + cap then ph u else Phase.free).Pending
    split
    · next huw =>
      rcases Nat.lt_or_ge d.ticket u with hlt' | hge
      · exact hd.pending u hlt' huw
      · have : u = d.ticket := by omega
        rw [this]; exact hpend (by omega)
    · trivial
  · intro u c hu hle hphu
    rw [hnew] at hle
    have huN : u < s.tickets.length := (List.getElem?_eq_some_iff.mp hu).1
    rw [hph u huN] at hphu
    have hold := h.holder u c hu (by omega) hphu
    exact update_of_not (P := fun r : Pc α => r.Holds u) hold (by rw [hpc]; exact not_false)

end Inv

/-! ### Every step keeps the invariant -/

/-- **Drains stay apart.**  A thread that is about to find entries to drain has
read the current `head_`, and no thread is draining. -/
def DrainsApart (s : State ι α) (i : ι) : Prop :=
  ∀ h, s.pc i = .popLoadTail h → h < s.tail → h = s.head ∧ ∀ j, ¬ (s.pc j).Draining

/-- Whether drains stay apart can be computed. -/
instance [Fintype ι] (s : State ι α) (i : ι) : Decidable (DrainsApart s i) :=
  match hpc : s.pc i with
  | .popLoadTail h =>
    decidable_of_iff (h < s.tail → h = s.head ∧ ∀ j, ¬ (s.pc j).Draining)
      ⟨fun hd k hk => by rw [hpc] at hk; cases hk; exact hd, fun hd => hd h hpc⟩
  | .idle | .loadTail _ | .loadHead _ _ | .cas _ _ | .awaitFree _ _ | .emplace _ _ | .publish _
  | .addSize | .pushed _ | .popLoadHead | .awaitEntry _ | .testValue _ | .moveOut _ | .reset _
  | .freeSlot _ | .storeHead _ | .subSize _ | .popped _ =>
    isTrue fun k hk => by rw [hpc] at hk; cases hk

theorem Inv.drainer_eq_none {cap : ℕ} {s : State ι α} {ph : ℕ → Phase} {drainer : Option ι}
    (h : Inv cap s ph drainer) (hall : ∀ j, ¬ (s.pc j).Draining) : drainer = none := by
  cases drainer with
  | none => rfl
  | some j => exact absurd ((h.drainer_iff j).mpr rfl) (hall j)

variable [DecidableEq ι]

/-- **One step keeps the invariant**, when it keeps drains apart and the tickets
stay below `2 ^ 64`. -/
theorem Step.inv {cap : ℕ} {s s' : State ι α} {i : ι} {a : Act α} (hstep : Step cap s i a s')
    {ph : ℕ → Phase} {drainer : Option ι} (h : Inv cap s ph drainer) (hapart : DrainsApart s i)
    (hlt : s'.tickets.length < sizeModulus) : ∃ ph' drainer', Inv cap s' ph' drainer' := by
  have hok := h.pcs i
  cases hstep with
  | callPush hpc =>
    exact ⟨ph, drainer, h.of_pc rfl rfl rfl rfl rfl rfl trivial (by simp [hpc, Pc.Draining])
      (by simp [hpc, Pc.Holds])⟩
  | callPop hpc =>
    exact ⟨ph, drainer, h.goto trivial (by simp [hpc, Pc.Draining]) (by simp [hpc, Pc.Holds])⟩
  | loadTail hpc =>
    exact ⟨ph, drainer, h.goto h.tail_eq.le (by simp [hpc, Pc.Draining])
      (by simp [hpc, Pc.Holds])⟩
  | full hpc _ =>
    exact ⟨ph, drainer, h.goto trivial (by simp [hpc, Pc.Draining]) (by simp [hpc, Pc.Holds])⟩
  | @room e t hpc hroom =>
    rw [hpc] at hok
    refine ⟨ph, drainer, h.goto ⟨hok, fun ht => ?_⟩ (by simp [hpc, Pc.Draining])
      (by simp [hpc, Pc.Holds])⟩
    have hhead := h.head_le
    have htl := h.tail_lt
    rw [wsub_of_le (by omega)] at hroom
    omega
  | reserve hpc ht =>
    refine ⟨_, drainer, h.reserve hpc ht ?_⟩
    simpa [State.reserve] using hlt
  | retry hpc =>
    exact ⟨ph, drainer, h.goto trivial (by simp [hpc, Pc.Draining]) (by simp [hpc, Pc.Holds])⟩
  | spinFree _ _ => exact ⟨ph, drainer, h⟩
  | slotFree hpc _ =>
    rw [hpc] at hok
    exact ⟨ph, drainer, h.goto hok (by simp [hpc, Pc.Draining]) (by simp [hpc, Pc.Holds])⟩
  | emplace hpc => exact ⟨_, drainer, h.emplace hpc⟩
  | publish hpc => exact ⟨_, drainer, h.publish hpc⟩
  | addSize hpc =>
    exact ⟨ph, drainer, h.of_pc rfl rfl rfl rfl rfl rfl trivial (by simp [hpc, Pc.Draining])
      (by simp [hpc, Pc.Holds])⟩
  | returnPush hpc =>
    exact ⟨ph, drainer, h.of_pc rfl rfl rfl rfl rfl rfl trivial (by simp [hpc, Pc.Draining])
      (by simp [hpc, Pc.Holds])⟩
  | popLoadHead hpc =>
    exact ⟨ph, drainer, h.goto (le_refl s.head) (by simp [hpc, Pc.Draining])
      (by simp [hpc, Pc.Holds])⟩
  | nothing hpc _ =>
    exact ⟨ph, drainer, h.goto trivial (by simp [hpc, Pc.Draining]) (by simp [hpc, Pc.Holds])⟩
  | startDrain hpc hle =>
    obtain ⟨rfl, hall⟩ := hapart _ hpc hle
    obtain rfl := h.drainer_eq_none hall
    exact ⟨ph, some i, h.startDrain (by rw [← h.tail_eq]; exact hle) (by simp [hpc, Pc.Holds])⟩
  | spinEntry _ _ => exact ⟨ph, drainer, h⟩
  | entryReady hpc hseq =>
    rw [hpc] at hok
    obtain ⟨hd, hi, hpend, hm⟩ := hok
    have hpub := h.published_of_ready hd hi hpend hseq
    exact ⟨ph, drainer, h.goto ⟨hd, hi, hpub, hm⟩ (by simp [hpc, Pc.Draining])
      (by simp [hpc, Pc.Holds])⟩
  | hasValue hpc _ =>
    rw [hpc] at hok
    exact ⟨ph, drainer, h.goto hok (by simp [hpc, Pc.Draining]) (by simp [hpc, Pc.Holds])⟩
  | noValue hpc hnone =>
    -- the test never fails: a published cell holds its entry
    rw [hpc] at hok
    obtain ⟨hd, hi, hpub, hm⟩ := hok
    obtain ⟨-, -, hltN, hcell⟩ := h.drain_cell hd hi
    rw [hcell, hpub] at hnone
    simp [cellOf, List.getElem?_eq_getElem hltN] at hnone
  | moveOut hpc hval =>
    obtain rfl := (h.drainer_iff i).mp (by rw [hpc]; trivial)
    exact ⟨_, some i, h.moveOut hpc hval⟩
  | reset hpc =>
    obtain rfl := (h.drainer_iff i).mp (by rw [hpc]; trivial)
    exact ⟨_, some i, h.reset hpc⟩
  | freeSlot hpc =>
    obtain rfl := (h.drainer_iff i).mp (by rw [hpc]; trivial)
    exact ⟨_, some i, h.freeSlot hpc⟩
  | storeHead hpc =>
    obtain rfl := (h.drainer_iff i).mp (by rw [hpc]; trivial)
    exact ⟨_, none, h.storeHead hpc⟩
  | subSize hpc =>
    exact ⟨ph, drainer, h.of_pc rfl rfl rfl rfl rfl rfl trivial (by simp [hpc, Pc.Draining])
      (by simp [hpc, Pc.Holds])⟩
  | returnPop hpc =>
    exact ⟨ph, drainer, h.of_pc rfl rfl rfl rfl rfl rfl trivial (by simp [hpc, Pc.Draining])
      (by simp [hpc, Pc.Holds])⟩

/-- The guard of the runs the invariant holds along. -/
def Apart (cap : ℕ) (s : State ι α) (a : ι × Act α) : Prop :=
  DrainsApart s a.1 ∧ ∀ s', next cap s a = some s' → s'.tickets.length < sizeModulus

/-- **The invariant holds along every run that keeps drains apart.** -/
theorem inv_of_reachable {cap : ℕ} {s : State ι α}
    (hs : Reachable (next cap) (Apart cap) (init ι α) s) :
    ∃ ph drainer, Inv cap s ph drainer := by
  refine hs.invariant (I := fun s => ∃ ph drainer, Inv cap s ph drainer) ⟨_, _, inv_init cap⟩ ?_
  rintro s a s' - ⟨ph, drainer, h⟩ ⟨hapart, hlt⟩ hnext
  exact (step_of_next hnext).inv h hapart (hlt s' hnext)

end AsyncQueue
end SpeckitLog
