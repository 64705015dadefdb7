import SpeckitLog.AsyncQueue.Fifo
import SpeckitLog.Lib.ThreadSum

/-!
# What `size()` tells

`size_` is raised after an entry is published and lowered after `head_` is stored, so
it runs behind the two ticket counters: by the producers that have yet to add, and by
the entries that the consumer has yet to subtract.  Up to multiples of `2 ^ 64` it is
always what the tickets say with these corrections.

It goes wrong in two orders of the updates: a drain subtracts an entry that its producer
has yet to add, or a producer adds an entry that went into a cell a drain has freed
before that drain subtracts.  In the other orders the tickets below the unsubtracted ones
are counted, those a lap ahead of them are not, and what `size_` counts lies between.

## Main definitions

* `Counts` — the counters and the two corrections, as a machine of its own with the
  moves `Counts.Move`.
* `InOrder` — the step adds no entry in a cell freed and not yet subtracted, and subtracts
  no entry that is not yet added.
* `Window` — which tickets are counted, and which are not.
* `SizeMeaningful` — `size()` is in range, and exact when no call is running.

## Main results

* `Step.counts` — **a step of a thread is a move of the counters.**
* `Step.window` — **a step in order keeps the window.**
* `sizeMeaningful` — **`size()` in runs whose updates are in order.**
* `not_sizeMeaningful_wrapped`, `not_sizeMeaningful_overfull` — runs in which they are not.
-/

namespace SpeckitLog
namespace AsyncQueue

open Function Transition Call

/-! ### The counters as a machine -/

/-- `size_`, the tickets won, `head_`, and the corrections: the tickets that are not
yet counted, and the freed tickets that are not yet subtracted. -/
structure Counts where
  size : ℕ
  won : ℕ
  head : ℕ
  uncounted : ℕ
  unsubtracted : ℕ

namespace Counts

/-- What can happen to the counters. -/
inductive Move
  | stay
  /-- A ticket is won. -/
  | win
  /-- A ticket is counted. -/
  | count
  /-- `head_` moves past `n` tickets. -/
  | free (n : ℕ)
  /-- `n` tickets are subtracted. -/
  | subtract (n : ℕ)

variable {c : Counts} {m : Move} {cap : ℕ}

/-- The counters after a move. -/
def apply (c : Counts) : Move → Counts
  | .stay => c
  | .win => { c with won := c.won + 1, uncounted := c.uncounted + 1 }
  | .count => { c with size := wrap (c.size + 1), uncounted := c.uncounted - 1 }
  | .free n => { c with head := c.head + n, unsubtracted := c.unsubtracted + n }
  | .subtract n => { c with size := wsub c.size n, unsubtracted := c.unsubtracted - n }

/-- There is something to count or to subtract. -/
def Enabled (c : Counts) : Move → Prop
  | .count => 0 < c.uncounted
  | .subtract n => n ≤ c.unsubtracted
  | _ => True

/-- `size_` is the number of counted tickets that are not subtracted, up to multiples
of `2 ^ 64`. -/
structure Balanced (c : Counts) : Prop where
  size_lt : c.size < sizeModulus
  freed : c.unsubtracted ≤ c.head
  size_eq : c.size + c.uncounted + c.head ≡ c.won + c.unsubtracted [MOD sizeModulus]

/-- The number of counted tickets that are not subtracted is in range. -/
structure InRange (cap : ℕ) (c : Counts) : Prop where
  nonneg : c.uncounted + c.head ≤ c.won + c.unsubtracted
  le_capacity : c.won + c.unsubtracted ≤ cap + c.head + c.uncounted

theorem wrap_modEq (n : ℕ) : wrap n ≡ n [MOD sizeModulus] := by
  unfold wrap
  exact Nat.mod_modEq n sizeModulus

theorem wsub_add_modEq {a b : ℕ} (h : b ≤ a + sizeModulus) :
    wsub a b + b ≡ a [MOD sizeModulus] := by
  unfold wsub
  split
  · next hle => rw [Nat.sub_add_cancel hle]
  · rw [Nat.sub_add_cancel h]
    exact Nat.add_modEq_right

/-- **Every move keeps the balance.** -/
theorem Balanced.apply (h : c.Balanced) (hm : c.Enabled m) (hlt : c.head < sizeModulus) :
    (c.apply m).Balanced := by
  obtain ⟨hsize, hfreed, heq⟩ := h
  cases m with
  | stay => exact ⟨hsize, hfreed, heq⟩
  | win =>
    refine ⟨hsize, hfreed, ?_⟩
    show c.size + (c.uncounted + 1) + c.head ≡ c.won + 1 + c.unsubtracted [MOD sizeModulus]
    have := heq.add_right 1
    convert this using 1 <;> omega
  | count =>
    refine ⟨wrap_lt _, hfreed, ?_⟩
    have hpos : 0 < c.uncounted := hm
    show wrap (c.size + 1) + (c.uncounted - 1) + c.head ≡ c.won + c.unsubtracted
      [MOD sizeModulus]
    refine (((wrap_modEq (c.size + 1)).add_right (c.uncounted - 1)).add_right c.head).trans ?_
    convert heq using 1
    omega
  | free n =>
    refine ⟨hsize, Nat.add_le_add_right hfreed n, ?_⟩
    show c.size + c.uncounted + (c.head + n) ≡ c.won + (c.unsubtracted + n) [MOD sizeModulus]
    have := heq.add_right n
    convert this using 1 <;> omega
  | subtract n =>
    have hle : n ≤ c.unsubtracted := hm
    refine ⟨wsub_lt hsize, (Nat.sub_le _ n).trans hfreed, Nat.ModEq.add_right_cancel' n ?_⟩
    show wsub c.size n + c.uncounted + c.head + n ≡ c.won + (c.unsubtracted - n) + n
      [MOD sizeModulus]
    have hleft : wsub c.size n + c.uncounted + c.head + n
        = wsub c.size n + n + (c.uncounted + c.head) := by omega
    have hright : c.won + (c.unsubtracted - n) + n = c.won + c.unsubtracted := by omega
    have hsub := wsub_add_modEq (a := c.size) (b := n) (by omega)
    rw [hleft, hright]
    rw [Nat.add_assoc] at heq
    exact (hsub.add_right (c.uncounted + c.head)).trans heq

/-- A counter that is balanced and in range is at most the capacity. -/
theorem Balanced.size_le (h : c.Balanced) (hr : c.InRange cap) : c.size ≤ cap := by
  obtain ⟨hsize, -, heq⟩ := h
  obtain ⟨hlo, hhi⟩ := hr
  by_cases hcap : cap < sizeModulus
  · -- both sides are below the modulus once the corrections are taken off
    have hsplit : c.won + c.unsubtracted
        = (c.won + c.unsubtracted - (c.uncounted + c.head)) + (c.uncounted + c.head) := by omega
    rw [Nat.add_assoc, hsplit] at heq
    have := Nat.ModEq.eq_of_lt_of_lt (Nat.ModEq.add_right_cancel' _ heq) hsize (by omega)
    omega
  · omega

/-- Without corrections the counter is exact. -/
theorem Balanced.head_add_size (h : c.Balanced) (hu : c.uncounted = 0) (hs : c.unsubtracted = 0)
    (hle : c.head ≤ c.won) (hlt : c.won < sizeModulus) : c.head + c.size = c.won := by
  obtain ⟨hsize, -, heq⟩ := h
  rw [hu, hs, Nat.add_zero, Nat.add_zero, ← Nat.sub_add_cancel hle] at heq
  have := Nat.ModEq.eq_of_lt_of_lt (Nat.ModEq.add_right_cancel' _ heq) hsize (by omega)
  omega

end Counts

/-! ### The threads move the counters -/

variable {ι α : Type*}

/-- The thread won a ticket and has not counted it. -/
def Pc.uncounted : Pc α → ℕ
  | .awaitFree _ _ | .emplace _ _ | .publish _ | .addSize => 1
  | _ => 0

/-- The tickets that the thread has freed and not subtracted. -/
def Pc.unsubtracted : Pc α → ℕ
  | .subSize d => d.available
  | _ => 0

section Counts

variable [Fintype ι]

/-- The counters of a queue. -/
def State.counts (s : State ι α) : Counts where
  size := s.size
  won := s.tickets.length
  head := s.head
  uncounted := ∑ j, (s.pc j).uncounted
  unsubtracted := ∑ j, (s.pc j).unsubtracted

theorem balanced_init : (init ι α).counts.Balanced where
  size_lt := by simp [State.counts, init, sizeModulus_eq]
  freed := by simp [State.counts, init, Pc.unsubtracted]
  size_eq := by
    simp only [State.counts, init, Pc.uncounted, Pc.unsubtracted, Finset.sum_const_zero]
    rfl

variable [DecidableEq ι] {cap : ℕ} {s s' : State ι α} {i : ι} {p : Pc α}

omit [Fintype ι] [DecidableEq ι] in
/-- The `head_` that a drain stores is past its tickets. -/
theorem Inv.wrap_head {ph : ℕ → Phase} {drainer : Option ι} (h : Inv cap s ph drainer)
    {d : Drain α} (hd : Progress cap s.head s.tickets ph d) :
    wrap (d.head + d.available) = s.head + d.available := by
  have hbound := hd.bound
  have hlt := h.tail_lt
  rw [wrap_of_lt (by omega), hd.head_eq]

/-- A step that leaves the counters. -/
theorem counts_eq (hsize : s'.size = s.size) (htick : s'.tickets = s.tickets)
    (hhead : s'.head = s.head) (hpc : s'.pc = update s.pc i p)
    (hu : p.uncounted = (s.pc i).uncounted) (hs : p.unsubtracted = (s.pc i).unsubtracted) :
    s'.counts = s.counts := by
  unfold State.counts
  rw [hsize, htick, hhead, hpc, sum_update_of_eq s.pc Pc.uncounted i hu,
    sum_update_of_eq s.pc Pc.unsubtracted i hs]

/-- **A step of a thread is a move of the counters.** -/
theorem Step.counts {a : Act α} (hstep : Step cap s i a s') {ph : ℕ → Phase}
    {drainer : Option ι} (h : Inv cap s ph drainer) :
    ∃ m, s'.counts = s.counts.apply m ∧ s.counts.Enabled m := by
  have hok := h.pcs i
  have hu := fun p => sum_update_add s.pc Pc.uncounted i p
  have hs := fun p => sum_update_add s.pc Pc.unsubtracted i p
  have hstay : s'.counts = s.counts → ∃ m, s'.counts = s.counts.apply m ∧ s.counts.Enabled m :=
    fun heq => ⟨.stay, heq, trivial⟩
  cases hstep with
  | @reserve e t hpc ht =>
    refine ⟨.win, ?_, trivial⟩
    have hu := hu (.awaitFree e t)
    have hs := hs (.awaitFree e t)
    rw [hpc] at hu hs
    simp only [State.counts, State.reserve, Counts.apply, List.length_append,
      List.length_singleton, Counts.mk.injEq, true_and]
    exact ⟨hu, hs⟩
  | addSize hpc =>
    have hu := hu (.pushed true)
    have hs := hs (.pushed true)
    rw [hpc] at hu hs
    change _ + 1 = _ + 0 at hu
    change _ + 0 = _ + 0 at hs
    refine ⟨.count, ?_, ?_⟩
    · simp only [State.counts, State.addSize, Counts.apply, Counts.mk.injEq, true_and]
      omega
    · show 0 < ∑ j, (s.pc j).uncounted
      omega
  | @storeHead d hpc =>
    have hu := hu (.subSize d)
    have hs := hs (.subSize d)
    rw [hpc] at hu hs hok
    refine ⟨.free d.available, ?_, trivial⟩
    simp only [State.counts, State.storeHead, Counts.apply, Counts.mk.injEq, true_and]
    exact ⟨h.wrap_head hok.1, hu, hs⟩
  | @subSize d hpc =>
    have hu := hu (.popped d.result)
    have hs := hs (.popped d.result)
    rw [hpc] at hu hs
    change _ + 0 = _ + 0 at hu
    change _ + d.available = _ + 0 at hs
    refine ⟨.subtract d.available, ?_, ?_⟩
    · simp only [State.counts, State.subSize, Counts.apply, Counts.mk.injEq, true_and]
      omega
    · show d.available ≤ ∑ j, (s.pc j).unsubtracted
      omega
  | spinFree | spinEntry => exact hstay rfl
  | freeSlot hpc =>
    exact hstay (counts_eq rfl rfl rfl rfl (by rw [hpc]; split <;> rfl)
      (by rw [hpc]; split <;> rfl))
  | full hpc _ | room hpc _ | slotFree hpc _ | nothing hpc _ | startDrain hpc _
  | entryReady hpc _ | hasValue hpc _ | noValue hpc _ | moveOut hpc _ =>
    exact hstay (counts_eq rfl rfl rfl rfl (by rw [hpc]; rfl) (by rw [hpc]; rfl))
  | _ hpc => exact hstay (counts_eq rfl rfl rfl rfl (by rw [hpc]; rfl) (by rw [hpc]; rfl))

end Counts

/-! ### Which tickets are counted -/

/-- The call that won the ticket has yet to count it. -/
def State.Uncounted (s : State ι α) (a : Call ι α) : Prop :=
  (s.pc a.thread).uncounted = 1 ∧ a.number = s.number a.thread

instance (s : State ι α) (a : Call ι α) : Decidable (s.Uncounted a) :=
  inferInstanceAs (Decidable (_ ∧ _))

/-- The drain whose tickets the thread has freed and not subtracted. -/
def Pc.toSubtract : Pc α → Option (Drain α)
  | .subSize d => some d
  | _ => none

/-- **The updates of `size_` are in order** in the step of thread `i`.  When it adds, its
entry lies in no cell that a drain has freed and has yet to subtract: these are the cells
of the tickets a lap past the first one of the drain.  When it subtracts, the producers
of all the entries its drain has taken have added them. -/
structure InOrder (cap : ℕ) (s : State ι α) (i : ι) : Prop where
  add : s.pc i = .addSize → ∀ j, ∀ d ∈ (s.pc j).toSubtract,
    ∀ a ∈ s.tickets.drop (d.head + cap), ¬ (a.thread = i ∧ a.number = s.number i)
  sub : ∀ d, s.pc i = .subSize d →
    ∀ a ∈ (s.tickets.drop d.head).take d.available, ¬ s.Uncounted a

/-- Whether the updates are in order can be computed. -/
instance [Fintype ι] [DecidableEq ι] (cap : ℕ) (s : State ι α) (i : ι) :
    Decidable (InOrder cap s i) :=
  match hpc : s.pc i with
  | .addSize => decidable_of_iff (∀ j, ∀ d ∈ (s.pc j).toSubtract,
      ∀ a ∈ s.tickets.drop (d.head + cap), ¬ (a.thread = i ∧ a.number = s.number i))
      ⟨fun h => ⟨fun _ => h, fun d hd => by rw [hpc] at hd; contradiction⟩, fun h => h.add hpc⟩
  | .subSize d => decidable_of_iff
      (∀ a ∈ (s.tickets.drop d.head).take d.available, ¬ s.Uncounted a)
      ⟨fun h => ⟨fun ha => by rw [hpc] at ha; contradiction,
        fun d' hd => by rw [hpc] at hd; cases hd; exact h⟩, fun h => h.sub d hpc⟩
  | .idle | .loadTail _ | .loadHead _ _ | .cas _ _ | .awaitFree _ _ | .emplace _ _ | .publish _
  | .pushed _ | .popLoadHead | .popLoadTail _ | .awaitEntry _ | .testValue _ | .moveOut _
  | .reset _ | .freeSlot _ | .storeHead _ | .popped _ =>
    isTrue ⟨fun ha => by rw [hpc] at ha; contradiction,
      fun d hd => by rw [hpc] at hd; contradiction⟩

theorem Pc.unsubtracted_of_none {p : Pc α} (h : p.toSubtract = none) : p.unsubtracted = 0 := by
  cases p with
  | subSize d => cases h
  | _ => rfl

theorem Pc.stage_of_uncounted {p : Pc α} (h : p.uncounted = 1) : p.stage = .decided true := by
  cases p with
  | awaitFree | emplace | publish | addSize => rfl
  | _ => cases h

theorem Pc.uncounted_eq (p : Pc α) : p.uncounted = if p.uncounted = 1 then 1 else 0 := by
  cases p <;> rfl

section Window

variable [Fintype ι]

/-- The first ticket that is not subtracted. -/
def State.base (s : State ι α) : ℕ := s.head - s.counts.unsubtracted

/-- **The window of the counted tickets.**  The tickets below the base are counted, and
those a lap past it are not. -/
structure Window (cap : ℕ) (s : State ι α) : Prop where
  freed : ∀ j d, s.pc j = .subSize d → d.head + d.available = s.head
  counted : ∀ a ∈ s.tickets.take s.base, ¬ s.Uncounted a
  uncounted : ∀ a ∈ s.tickets.drop (s.base + cap), s.Uncounted a

theorem window_init (cap : ℕ) : Window cap (init ι α) where
  freed _ _ h := by contradiction
  counted a ha := absurd (List.mem_of_mem_take ha) List.not_mem_nil
  uncounted a ha := absurd (List.mem_of_mem_drop ha) List.not_mem_nil

variable {cap : ℕ} {s s' : State ι α} {i c : ι} {p : Pc α}

omit [Fintype ι] in
/-- No thread but the consumer has tickets to subtract. -/
theorem OneConsumer.toSubtract_of_ne (hone : OneConsumer s c) (hi : (s.pc i).Popping) {j : ι}
    (hji : j ≠ i) : (s.pc j).toSubtract = none := by
  cases hj : s.pc j with
  | subSize d =>
    exact absurd ((hone.alone j (by rw [hj]; trivial)).trans (hone.alone i hi).symm) hji
  | _ => rfl

/-- While no thread has tickets to subtract, the base is `head_`. -/
theorem base_eq_head (h : ∀ j, (s.pc j).toSubtract = none) : s.base = s.head := by
  have hzero : s.counts.unsubtracted = 0 := Finset.sum_eq_zero fun j _ =>
    Pc.unsubtracted_of_none (h j)
  rw [State.base, hzero, Nat.sub_zero]

/-- While the consumer has tickets to subtract, the base is the first of them. -/
theorem Window.base_eq (h : Window cap s) (hone : OneConsumer s c) {j : ι} {d : Drain α}
    (hpc : s.pc j = .subSize d) : s.base = d.head := by
  have hsum : s.counts.unsubtracted = (s.pc j).unsubtracted :=
    Finset.sum_eq_single j (fun k _ hkj => Pc.unsubtracted_of_none
      (hone.toSubtract_of_ne (by rw [hpc]; trivial) hkj))
      (fun hj => absurd (Finset.mem_univ j) hj)
  have hhead := h.freed j d hpc
  rw [State.base, hsum, hpc]
  exact Nat.sub_eq_of_eq_add hhead.symm

variable [DecidableEq ι]

/-- The base after a step that leaves `head_` and what is to be subtracted. -/
theorem base_of_pc (hhead : s'.head = s.head) (hpc : s'.pc = update s.pc i p)
    (hs : p.unsubtracted = (s.pc i).unsubtracted) : s'.base = s.base := by
  unfold State.base State.counts
  rw [hhead, hpc, sum_update_of_eq s.pc Pc.unsubtracted i hs]

omit [Fintype ι] in
/-- A step of thread `i` does not matter to the calls of the others. -/
theorem uncounted_iff_of_ne (hpc : s'.pc = update s.pc i p) (hargs : s'.args = s.args)
    {a : Call ι α} (hai : a.thread ≠ i) : s'.Uncounted a ↔ s.Uncounted a := by
  rw [State.Uncounted, State.Uncounted, State.number, State.number, hargs, hpc,
    update_of_ne hai]

omit [Fintype ι] in
/-- A step that wins no ticket and adds nothing leaves what is counted. -/
theorem uncounted_iff_of_pc (hpc : s'.pc = update s.pc i p)
    (hun : p.uncounted = (s.pc i).uncounted)
    (hnum : ∀ j, (s'.pc j).uncounted = 1 → s'.number j = s.number j) (a : Call ι α) :
    s'.Uncounted a ↔ s.Uncounted a := by
  have hsame : (s'.pc a.thread).uncounted = (s.pc a.thread).uncounted := by
    rw [hpc]
    by_cases hai : a.thread = i
    · rw [hai, update_self, hun]
    · rw [update_of_ne hai]
  unfold State.Uncounted
  rw [← hsame]
  exact and_congr_right fun ha => by rw [hnum _ ha]

/-- What is freed after a step that ends before a subtraction and leaves `head_`. -/
theorem Window.freed_of_pc (h : Window cap s) (hhead : s'.head = s.head)
    (hpc : s'.pc = update s.pc i p) (hp : p.toSubtract = none) (j : ι) (d : Drain α)
    (hj : s'.pc j = .subSize d) : d.head + d.available = s'.head := by
  rw [hpc] at hj
  rw [hhead]
  rcases of_update (P := fun q => q = Pc.subSize d) hj with ⟨-, rfl⟩ | ⟨-, hj⟩
  · cases hp
  · exact h.freed j d hj

/-- A step of thread `i` that neither wins a ticket nor adds to `size_`, and leaves
`head_` and what is to be subtracted. -/
theorem Window.of_pc (h : Window cap s) (htick : s'.tickets = s.tickets)
    (hhead : s'.head = s.head) (hpc : s'.pc = update s.pc i p)
    (hp : p.toSubtract = none) (hun : p.uncounted = (s.pc i).uncounted)
    (hs : p.unsubtracted = (s.pc i).unsubtracted)
    (hnum : ∀ j, (s'.pc j).uncounted = 1 → s'.number j = s.number j) : Window cap s' := by
  have hiff := uncounted_iff_of_pc hpc hun hnum
  have hbase := base_of_pc hhead hpc hs
  refine ⟨h.freed_of_pc hhead hpc hp, fun a ha hu => ?_, fun a ha => ?_⟩
  · rw [htick, hbase] at ha
    exact h.counted a ha ((hiff a).mp hu)
  · rw [htick, hbase] at ha
    exact (hiff a).mpr (h.uncounted a ha)

/-- A ticket is won: it is not counted. -/
theorem Window.reserve (h : Window cap s) (hbase : s.base ≤ s.tickets.length)
    (hnumber : ∀ a ∈ s.tickets, a.thread = i → a.number < s.number i) {e : α} {t : ℕ}
    (hpc : s.pc i = .cas e t) : Window cap (s.reserve i e t) := by
  have hpc' : (s.reserve i e t).pc = update s.pc i (.awaitFree e t) := rfl
  have hother : ∀ a : Call ι α, a.thread ≠ i →
      ((s.reserve i e t).Uncounted a ↔ s.Uncounted a) := fun a hai =>
    uncounted_iff_of_ne hpc' rfl hai
  have hbase' : (s.reserve i e t).base = s.base := base_of_pc rfl rfl (by rw [hpc]; rfl)
  refine ⟨h.freed_of_pc rfl rfl rfl, fun a ha => ?_, fun a ha => ?_⟩
  · rw [hbase'] at ha
    have ha : a ∈ (s.tickets ++ [Call.mk i (s.number i) e]).take s.base := ha
    rw [List.take_append_of_le_length hbase] at ha
    by_cases hai : a.thread = i
    · rintro ⟨-, hnum⟩
      rw [hai] at hnum
      exact Nat.ne_of_lt (hnumber a (List.mem_of_mem_take ha) hai) hnum
    · exact fun hu => h.counted a ha ((hother a hai).mp hu)
  · rw [hbase'] at ha
    have ha : a ∈ (s.tickets ++ [Call.mk i (s.number i) e]).drop (s.base + cap) := ha
    rw [List.drop_append] at ha
    rcases List.mem_append.mp ha with ha | ha
    · have hu := h.uncounted a ha
      have hai : a.thread ≠ i := by
        rintro rfl
        rw [State.Uncounted, hpc] at hu
        cases hu.1
      exact (hother a hai).mpr hu
    · rw [List.mem_singleton.mp (List.mem_of_mem_drop ha)]
      exact ⟨by rw [hpc', update_self]; rfl, rfl⟩

/-- A producer counts its ticket, which is less than a lap past the base. -/
theorem Window.addSize (h : Window cap s) (hpc : s.pc i = .addSize)
    (hlap : ∀ a ∈ s.tickets.drop (s.base + cap), ¬ (a.thread = i ∧ a.number = s.number i)) :
    Window cap (s.addSize i) := by
  have hpc' : (s.addSize i).pc = update s.pc i (.pushed true) := rfl
  have hother : ∀ a : Call ι α, a.thread ≠ i →
      ((s.addSize i).Uncounted a ↔ s.Uncounted a) := fun a hai =>
    uncounted_iff_of_ne hpc' rfl hai
  have hbase' : (s.addSize i).base = s.base := base_of_pc rfl rfl (by rw [hpc]; rfl)
  refine ⟨h.freed_of_pc rfl rfl rfl, fun a ha hu => ?_, fun a ha => ?_⟩
  · rw [hbase'] at ha
    have hai : a.thread ≠ i := by
      rintro rfl
      rw [State.Uncounted, hpc', update_self] at hu
      cases hu.1
    exact h.counted a ha ((hother a hai).mp hu)
  · rw [hbase'] at ha
    have hu := h.uncounted a ha
    have hai : a.thread ≠ i := by
      rintro rfl
      exact hlap a ha ⟨rfl, hu.2⟩
    exact (hother a hai).mpr hu

/-- The store to `head_` leaves the base. -/
theorem Window.storeHead (h : Window cap s) (hone : OneConsumer s c) {d : Drain α}
    (hpc : s.pc i = .storeHead d) (hhead : d.head = s.head)
    (hwrap : wrap (d.head + d.available) = s.head + d.available) :
    Window cap (s.storeHead i d) := by
  have hhead' : (s.storeHead i d).head = d.head + d.available := hwrap.trans (by rw [hhead])
  have hpc' : (s.storeHead i d).pc = update s.pc i (.subSize d) := rfl
  have hiff := uncounted_iff_of_pc hpc' (by rw [hpc]; rfl) fun _ _ => rfl
  have hbase' : (s.storeHead i d).base = s.base := by
    have hs := sum_update_add s.pc Pc.unsubtracted i (.subSize d)
    rw [hpc] at hs
    have hs : (s.storeHead i d).counts.unsubtracted = s.counts.unsubtracted + d.available := hs
    rw [State.base, hs, hhead', hhead, Nat.add_sub_add_right]
    rfl
  refine ⟨fun j d' hj => ?_, fun a ha hu => ?_, fun a ha => ?_⟩
  · rw [hhead']
    rcases of_update (P := fun q => q = Pc.subSize d') hj with ⟨-, hp⟩ | ⟨hji, hj⟩
    · cases hp
      rfl
    · have hnone := hone.toSubtract_of_ne (i := i) (by rw [hpc]; trivial) hji
      rw [hj] at hnone
      cases hnone
  · rw [hbase'] at ha
    exact h.counted a ha ((hiff a).mp hu)
  · rw [hbase'] at ha
    exact (hiff a).mpr (h.uncounted a ha)

/-- The drain subtracts its entries, which are counted. -/
theorem Window.subSize (h : Window cap s) (hone : OneConsumer s c) {d : Drain α}
    (hpc : s.pc i = .subSize d) (hle : s.tickets.length ≤ s.head + cap)
    (hcounted : ∀ a ∈ (s.tickets.drop d.head).take d.available, ¬ s.Uncounted a) :
    Window cap (s.subSize i d) := by
  have hbase := h.base_eq hone hpc
  have hhead := h.freed i d hpc
  have hpc' : (s.subSize i d).pc = update s.pc i (.popped d.result) := rfl
  have hnone : ∀ j, ((s.subSize i d).pc j).toSubtract = none := fun j => by
    rw [hpc']
    by_cases hji : j = i
    · rw [hji, update_self]
      rfl
    · rw [update_of_ne hji]
      exact hone.toSubtract_of_ne (by rw [hpc]; trivial) hji
  have hbase' : (s.subSize i d).base = d.head + d.available := by
    rw [base_eq_head hnone, hhead]
    rfl
  have hiff := uncounted_iff_of_pc hpc' (by rw [hpc]; rfl) fun _ _ => rfl
  refine ⟨h.freed_of_pc rfl rfl rfl, fun a ha hu => ?_, fun a ha => ?_⟩
  · rw [hbase'] at ha
    have ha : a ∈ s.tickets.take (d.head + d.available) := ha
    rw [List.take_add] at ha
    rcases List.mem_append.mp ha with ha | ha
    · exact h.counted a (hbase ▸ ha) ((hiff a).mp hu)
    · exact hcounted a ha ((hiff a).mp hu)
  · -- the tickets end a lap past `head_`
    rw [hbase', hhead] at ha
    have ha : a ∈ s.tickets.drop (s.head + cap) := ha
    rw [List.drop_eq_nil_of_le hle] at ha
    cases ha

/-- **A step in order keeps the window.** -/
theorem Step.window {a : Act α} (hstep : Step cap s i a s') {ph : ℕ → Phase}
    {drainer : Option ι} (hinv : Inv cap s ph drainer) (hone : OneConsumer s c)
    (hhist : s.History) (hok : InOrder cap s i) (h : Window cap s) : Window cap s' := by
  have hpcs := hinv.pcs i
  have hbase : s.base ≤ s.head := Nat.sub_le _ _
  cases hstep with
  | spinFree | spinEntry => exact h
  | callPush hpc =>
    refine h.of_pc rfl rfl rfl rfl (by rw [hpc]; rfl) (by rw [hpc]; rfl) fun j hj => ?_
    have hji : j ≠ i := by
      rintro rfl
      have hj : (update s.pc j _ j).uncounted = 1 := hj
      rw [update_self] at hj
      cases hj
    show (update s.args i _ j).length - 1 = _
    rw [update_of_ne hji]
    rfl
  | @reserve e t hpc _ =>
    have hrun := hhist.running i
    rw [hpc] at hrun
    exact h.reserve (hbase.trans hinv.head_le) hrun.2 hpc
  | addSize hpc =>
    refine h.addSize hpc ?_
    by_cases hsub : ∃ j d, s.pc j = .subSize d
    · obtain ⟨j, d, hj⟩ := hsub
      rw [h.base_eq hone hj]
      exact hok.add hpc j d (by rw [hj]; rfl)
    · -- nothing is to be subtracted, and the tickets end a lap past `head_`
      have hnone : ∀ j, (s.pc j).toSubtract = none := fun j => by
        cases hj : s.pc j with
        | subSize d => exact absurd ⟨j, d, hj⟩ hsub
        | _ => rfl
      rw [base_eq_head hnone, List.drop_eq_nil_of_le hinv.tail_le]
      exact fun a ha => absurd ha List.not_mem_nil
  | @storeHead d hpc =>
    rw [hpc] at hpcs
    exact h.storeHead hone hpc hpcs.1.head_eq (hinv.wrap_head hpcs.1)
  | @subSize d hpc => exact h.subSize hone hpc hinv.tail_le (hok.sub d hpc)
  | freeSlot hpc =>
    exact h.of_pc rfl rfl rfl (by split <;> rfl) (by rw [hpc]; split <;> rfl)
      (by rw [hpc]; split <;> rfl) fun _ _ => rfl
  | full hpc _ | room hpc _ | slotFree hpc _ | nothing hpc _ | startDrain hpc _
  | entryReady hpc _ | hasValue hpc _ | noValue hpc _ | moveOut hpc _ =>
    exact h.of_pc rfl rfl rfl rfl (by rw [hpc]; rfl) (by rw [hpc]; rfl) fun _ _ => rfl
  | _ hpc =>
    exact h.of_pc rfl rfl rfl rfl (by rw [hpc]; rfl) (by rw [hpc]; rfl) fun _ _ => rfl

/-! What is counted lies in the window. -/

omit [DecidableEq ι] in
theorem uncounted_eq_card :
    s.counts.uncounted = (Finset.univ.filter fun j => (s.pc j).uncounted = 1).card := by
  rw [Finset.card_filter]
  exact Finset.sum_congr rfl fun j _ => (s.pc j).uncounted_eq

/-- Who has yet to count a ticket has one past the base. -/
theorem Window.uncounted_le (h : Window cap s) (hhist : s.History) :
    s.counts.uncounted ≤ s.tickets.length - s.base := by
  have hsub : (Finset.univ.filter fun j => (s.pc j).uncounted = 1) ⊆
      ((s.tickets.drop s.base).map Call.thread).toFinset := by
    intro j hj
    have hj : (s.pc j).uncounted = 1 := (Finset.mem_filter.mp hj).2
    have hrun := hhist.running j
    rw [Pc.stage_of_uncounted hj] at hrun
    obtain ⟨-, a, ha, rfl, hnumber⟩ := hrun
    rw [← List.take_append_drop s.base s.tickets] at ha
    refine List.mem_toFinset.mpr (List.mem_map_of_mem ?_)
    exact (List.mem_append.mp ha).resolve_left fun ha => h.counted a ha ⟨hj, hnumber⟩
  rw [uncounted_eq_card]
  refine ((Finset.card_le_card hsub).trans (List.toFinset_card_le _)).trans ?_
  rw [List.length_map, List.length_drop]

/-- Every ticket a lap past the base has yet to be counted, each by another thread. -/
theorem Window.le_uncounted (h : Window cap s) (hhist : s.History) :
    s.tickets.length - (s.base + cap) ≤ s.counts.uncounted := by
  have hnodup : ((s.tickets.drop (s.base + cap)).map Call.thread).Nodup := by
    refine List.pairwise_map.mpr ?_
    refine (hhist.ordered.sublist (List.drop_sublist _ _)).imp_of_mem ?_
    intro a b ha hb hlt hab
    have hnumber := hlt hab
    rw [(h.uncounted a ha).2, (h.uncounted b hb).2, hab] at hnumber
    exact Nat.lt_irrefl _ hnumber
  have hsub : ((s.tickets.drop (s.base + cap)).map Call.thread).toFinset ⊆
      Finset.univ.filter fun j => (s.pc j).uncounted = 1 := by
    intro j hj
    obtain ⟨a, ha, rfl⟩ := List.mem_map.mp (List.mem_toFinset.mp hj)
    exact Finset.mem_filter.mpr ⟨Finset.mem_univ _, (h.uncounted a ha).1⟩
  have hle := Finset.card_le_card hsub
  rwa [List.toFinset_card_of_nodup hnodup, List.length_map, List.length_drop,
    ← uncounted_eq_card] at hle

/-- **The number of counted tickets is in range.** -/
theorem Window.inRange (h : Window cap s) (hhist : s.History) (hb : s.counts.Balanced)
    (hle : s.head ≤ s.tickets.length) : s.counts.InRange cap := by
  have hlo := h.uncounted_le hhist
  have hhi := h.le_uncounted hhist
  have hbase : s.base + s.counts.unsubtracted = s.head := Nat.sub_add_cancel hb.freed
  constructor <;> simp only [State.counts] at hlo hhi hbase ⊢ <;> omega

end Window

/-! ### `size()` with one consumer -/

/-- `isEmpty`. -/
def State.isEmpty (s : State ι α) : Bool := s.size == 0

/-- **`size()` is meaningful**: it is at most the capacity; and when no call is running
it is the distance from `head_` to `tail_`, and `isEmpty()` holds exactly when every
entry that was pushed has been popped. -/
structure SizeMeaningful (cap : ℕ) (s : State ι α) : Prop where
  le_capacity : s.size ≤ cap
  quiet : (∀ i, s.pc i = .idle) → s.head + s.size = s.tail
  isEmpty_iff : (∀ i, s.pc i = .idle) →
    (s.isEmpty = true ↔ s.completed = s.tickets.map Call.entry)

section Size

variable [Fintype ι] [DecidableEq ι] {cap : ℕ} {c : ι} {s : State ι α}

/-- The counter is balanced in every run with one consumer. -/
theorem balanced_of_reachable {ok : State ι α → ι × Act α → Prop}
    (hs : Reachable (next cap) (fun s a => SingleConsumer c s a ∧ ok s a) (init ι α) s)
    (hlt : s.tickets.length < sizeModulus) : s.counts.Balanced := by
  refine invariant_of_singleConsumer (I := fun s => s.counts.Balanced) hs hlt balanced_init ?_
  intro s s' i a ph drainer hinv h _ hstep
  obtain ⟨m, hm, henabled⟩ := hstep.counts hinv
  rw [hm]
  exact h.apply henabled (Nat.lt_of_le_of_lt hinv.head_le hinv.tail_lt)

/-- The window is kept in every run whose updates are in order. -/
theorem window_of_reachable
    (hs : Reachable (next cap) (fun s a => SingleConsumer c s a ∧ InOrder cap s a.1) (init ι α) s)
    (hlt : s.tickets.length < sizeModulus) : Window cap s := by
  have hknown : Reachable (next cap) (fun s a => SingleConsumer c s a ∧ InOrder cap s a.1 ∧
      OneConsumer s c ∧ s.History) (init ι α) s := hs.tighten fun s a _ hs _ hok _ =>
    ⟨hok.1, hok.2, oneConsumer_of_reachable (hs.mono fun _ _ h => h.1), history_of_reachable hs⟩
  refine invariant_of_singleConsumer (I := fun s => Window cap s) hknown hlt (window_init cap) ?_
  intro s s' i a ph drainer hinv h ⟨hok, hone, hhist⟩ hstep
  exact hstep.window hinv hone hhist hok h

/-- **The counter is exact when no call is running**, whatever happened before. -/
theorem head_add_size_of_idle {ok : State ι α → ι × Act α → Prop}
    (hs : Reachable (next cap) (fun s a => SingleConsumer c s a ∧ ok s a) (init ι α) s)
    (hlt : s.tickets.length < sizeModulus) (hidle : ∀ i, s.pc i = .idle) :
    s.head + s.size = s.tail ∧
      (s.isEmpty = true ↔ s.completed = s.tickets.map Call.entry) := by
  have hsingle := hs.mono fun _ _ h => h.1
  have hone := oneConsumer_of_reachable hsingle
  obtain ⟨ph, drainer, h⟩ := inv_of_singleConsumer hsingle hlt
  have huncounted : s.counts.uncounted = 0 := Finset.sum_eq_zero fun j _ => by rw [hidle]; rfl
  have hunsub : s.counts.unsubtracted = 0 := Finset.sum_eq_zero fun j _ => by rw [hidle]; rfl
  have hsize : s.head + s.size = s.tickets.length :=
    (balanced_of_reachable hs hlt).head_add_size huncounted hunsub h.head_le hlt
  -- nobody drains, so what was returned is what lies below `head_`
  have hnone : drainer = none := h.drainer_eq_none fun j hj => by
    rw [hidle] at hj
    exact hj
  have hcompleted : s.completed = entries s.tickets s.head := by
    have hdrained := hone.drained
    rw [hidle, (h.quiet hnone).2] at hdrained
    exact (hdrained.trans (List.append_nil _)).symm
  refine ⟨by rw [hsize, h.tail_eq], ?_⟩
  rw [State.isEmpty, beq_iff_eq, hcompleted]
  constructor
  · intro hzero
    rw [entries, List.take_of_length_le (by omega)]
  · intro heq
    have hlen := congrArg List.length heq
    rw [length_entries h.head_le, List.length_map] at hlen
    omega

/-- **`size()` is meaningful** in every run of any number of producers and one consumer
whose updates of `size_` are in order. -/
theorem sizeMeaningful
    (hs : Reachable (next cap) (fun s a => SingleConsumer c s a ∧ InOrder cap s a.1) (init ι α) s)
    (hlt : s.tickets.length < sizeModulus) : SizeMeaningful cap s where
  le_capacity := by
    obtain ⟨_, _, hinv⟩ := inv_of_singleConsumer (hs.mono fun _ _ h => h.1) hlt
    have hb := balanced_of_reachable hs hlt
    exact hb.size_le ((window_of_reachable hs hlt).inRange (history_of_reachable hs) hb
      hinv.head_le)
  quiet hidle := (head_add_size_of_idle hs hlt hidle).1
  isEmpty_iff hidle := (head_add_size_of_idle hs hlt hidle).2

end Size

/-- A push that overlaps a drain: the entry is counted before it is subtracted; and the
next push, into the cell the drain has freed, is counted after. -/
theorem sizeMeaningful_push_pop : ∃ s : State (Fin 2) Char, s.completed = ['a'] ∧
    s.tickets.length = 2 ∧ SizeMeaningful 1 s := by
  obtain ⟨s, hs, hlen, hcompleted⟩ := exists_reachable_of_decide (next 1) (init (Fin 2) Char)
    (fun s => s.tickets.length = 2 ∧ s.completed = ['a'])
    (fun s a => SingleConsumer 1 s a ∧ InOrder 1 s a.1)
    (doing 0 (.push 'a') 6 ++ doing 1 .pop 8 ++ List.replicate 2 (0, .step)
      ++ doing 0 (.push 'b') 6 ++ List.replicate 2 (1, .step) ++ List.replicate 2 (0, .step))
    (by decide +kernel)
  exact ⟨s, hcompleted, hlen, sizeMeaningful hs (by rw [hlen]; decide +kernel)⟩

/-- **A subtraction that comes first.**  The consumer has taken and subtracted the entry
of thread `0` when thread `0` has yet to count it: `size()` is `2 ^ 64 - 1`. -/
theorem not_sizeMeaningful_wrapped : ¬ ∀ s : State (Fin 2) Char,
    Reachable (next 1) (SingleConsumer 1) (init (Fin 2) Char) s →
      s.tickets.length < sizeModulus → SizeMeaningful 1 s := by
  intro hall
  obtain ⟨s, hs, hlen, hsize⟩ := exists_reachable_of_decide (next 1) (init (Fin 2) Char)
    (fun s => s.tickets.length = 1 ∧ s.size = sizeModulus - 1) (SingleConsumer 1)
    (doing 0 (.push 'a') 6 ++ doing 1 .pop 9) (by decide +kernel)
  have hle := (hall s hs (by rw [hlen]; decide +kernel)).le_capacity
  rw [hsize] at hle
  exact absurd hle (by decide +kernel)

/-- **An addition that comes first.**  The consumer has freed the cell of the first
entry and not subtracted it when the second one is counted: `size()` is `2`. -/
theorem not_sizeMeaningful_overfull : ¬ ∀ s : State (Fin 2) Char,
    Reachable (next 1) (SingleConsumer 1) (init (Fin 2) Char) s →
      s.tickets.length < sizeModulus → SizeMeaningful 1 s := by
  intro hall
  obtain ⟨s, hs, hlen, hsize⟩ := exists_reachable_of_decide (next 1) (init (Fin 2) Char)
    (fun s => s.tickets.length = 2 ∧ s.size = 2) (SingleConsumer 1)
    (doing 0 (.push 'a') 8 ++ doing 1 .pop 8 ++ doing 0 (.push 'b') 7) (by decide +kernel)
  have hle := (hall s hs (by rw [hlen]; decide +kernel)).le_capacity
  rw [hsize] at hle
  exact absurd hle (by decide)

end AsyncQueue
end SpeckitLog
