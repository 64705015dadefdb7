import SpeckitLog.RingBuffer
import SpeckitLog.Lib.Circular

/-!
# The ring buffer, one call at a time

When no two calls overlap, `RingBuffer` is a queue of at most `capacity` entries.  The
methods stand here whole.  `head_` counts the entries pushed and is never reduced;
`tail_` counts those popped and is kept below the capacity.  A remainder by zero has no
result, so that a call that takes one has none either.

## Main definitions

* `Members`, with `tryPush`, `popAll`, `isEmpty` — the methods of the class.
* `Op.call`, `perform` — a call, and a sequence of calls.
* `Op.onFifo`, `performFifo` — the same on a bounded queue.
* `Represents` — the queue that the members stand for.

## Main results

* `exists_perform` — **no sequence of calls takes a remainder by zero.**
* `perform_eq_performFifo` — **the ring buffer is a bounded queue.**
-/

namespace SpeckitLog
namespace RingBuffer

open Function

variable {α : Type*} {cap : ℕ}

/-! ### The methods -/

/-- `a % b`; by zero there is none. -/
def remainder (a b : ℕ) : Option ℕ := if b = 0 then none else some (a % b)

theorem remainder_of_pos {b : ℕ} (h : 0 < b) (a : ℕ) : remainder a b = some (a % b) :=
  if_neg (Nat.ne_of_gt h)

/-- The members of a `RingBuffer` but `capacity_`, which never changes. -/
structure Members (α : Type*) where
  buffer : ℕ → α
  head : ℕ
  tail : ℕ
  size : ℕ

/-- `RingBuffer::RingBuffer`; `dflt` is a default-constructed entry. -/
def construct (dflt : α) : Members α := ⟨fun _ => dflt, 0, 0, 0⟩

namespace Members

/-- `tryPush`. -/
def tryPush (m : Members α) (cap : ℕ) (entry : α) : Option (Bool × Members α) :=
  let currentSize := m.size
  if cap ≤ currentSize then some (false, m)
  else
    let oldSize := m.size
    let m := { m with size := wrap (m.size + 1) }
    -- with nothing in between, this test sees what the first one saw
    if cap ≤ oldSize then some (false, { m with size := wsub m.size 1 })
    else
      let currentHead := m.head
      let m := { m with head := wrap (m.head + 1) }
      (remainder currentHead cap).map fun index =>
        (true, { m with buffer := update m.buffer index entry })

/-- The loop of `popAll` from round `i` on, with `n` rounds to go. -/
def collect (m : Members α) (cap currentTail : ℕ) : ℕ → ℕ → List α → Option (List α)
  | _, 0, entries => some entries
  | i, n + 1, entries =>
    (remainder (wrap (currentTail + i)) cap).bind fun index =>
      m.collect cap currentTail (i + 1) n (entries ++ [m.buffer index])

/-- `popAll`. -/
def popAll (m : Members α) (cap : ℕ) : Option (List α × Members α) :=
  let oldSize := m.size
  let m := { m with size := 0 }
  if oldSize = 0 then some ([], m)
  else
    let currentTail := m.tail
    (remainder (wrap (currentTail + oldSize)) cap).bind fun newTail =>
      (m.collect cap currentTail 0 oldSize []).map fun entries =>
        (entries, { m with tail := newTail })

/-- `isEmpty`. -/
def isEmpty (m : Members α) : Bool := decide (m.size = 0)

end Members

/-- A call of a method. -/
inductive Op (α : Type*)
  | tryPush (entry : α)
  | popAll
  | isEmpty
  | size
  | capacity
  deriving DecidableEq

/-- What a method returns. -/
inductive Answer (α : Type*)
  | pushed (ok : Bool)
  | popped (entries : List α)
  | empty (b : Bool)
  | count (n : ℕ)
  deriving DecidableEq

/-- A `tryPush` that returned `true`. -/
def Answer.accepted : Answer α → Bool
  | .pushed ok => ok
  | _ => false

/-- A call. -/
def Op.call (cap : ℕ) (m : Members α) : Op α → Option (Answer α × Members α)
  | .tryPush e => (m.tryPush cap e).map (Prod.map .pushed id)
  | .popAll => (m.popAll cap).map (Prod.map .popped id)
  | .isEmpty => some (.empty m.isEmpty, m)
  | .size => some (.count m.size, m)
  | .capacity => some (.count cap, m)

/-- One call after the other. -/
def perform (cap : ℕ) : Members α → List (Op α) → Option (List (Answer α) × Members α)
  | m, [] => some ([], m)
  | m, op :: ops => (op.call cap m).bind fun r =>
    (perform cap r.2 ops).map fun r' => (r.1 :: r'.1, r'.2)

/-! ### The same on a queue -/

/-- A call on a bounded queue. -/
def Op.onFifo (q : BoundedFifo α cap) : Op α → Answer α × BoundedFifo α cap
  | .tryPush e => (q.push e).map .pushed id
  | .popAll => q.popAll.map .popped id
  | .isEmpty => (.empty q.entries.isEmpty, q)
  | .size => (.count q.entries.length, q)
  | .capacity => (.count cap, q)

/-- One call after the other on a bounded queue. -/
def performFifo : BoundedFifo α cap → List (Op α) → List (Answer α) × BoundedFifo α cap
  | q, [] => ([], q)
  | q, op :: ops =>
    let r := performFifo (op.onFifo q).2 ops
    ((op.onFifo q).1 :: r.1, r.2)

/-! ### What the methods do -/

namespace Members

theorem tryPush_of_full {m : Members α} (h : cap ≤ m.size) (e : α) :
    m.tryPush cap e = some (false, m) := if_pos h

theorem tryPush_of_room {m : Members α} (h : m.size < cap) (e : α) :
    m.tryPush cap e = some (true,
      ⟨update m.buffer (m.head % cap) e, wrap (m.head + 1), m.tail, wrap (m.size + 1)⟩) := by
  simp only [tryPush, if_neg (Nat.not_le.mpr h), remainder_of_pos (Nat.zero_lt_of_lt h),
    Option.map_some]

theorem popAll_of_empty {m : Members α} (h : m.size = 0) : m.popAll cap = some ([], m) := by
  obtain ⟨buffer, head, tail, size⟩ := m
  obtain rfl : size = 0 := h
  rfl

theorem popAll_of_collect {m : Members α} (hcap : 0 < cap) (h : m.size ≠ 0) {entries : List α}
    (hcollect : { m with size := 0 }.collect cap m.tail 0 m.size [] = some entries) :
    m.popAll cap = some (entries, ⟨m.buffer, m.head, wrap (m.tail + m.size) % cap, 0⟩) := by
  simp only [popAll, if_neg h, remainder_of_pos hcap, Option.bind_some, hcollect,
    Option.map_some]

theorem collect_succ (hcap : 0 < cap) (m : Members α) (currentTail i n : ℕ)
    (entries : List α) : m.collect cap currentTail i (n + 1) entries =
      m.collect cap currentTail (i + 1) n
        (entries ++ [m.buffer (wrap (currentTail + i) % cap)]) := by
  rw [collect, remainder_of_pos hcap, Option.bind_some]

end Members

/-! ### No remainder by zero -/

/-- With slots there is a remainder, and the loop comes to its end. -/
theorem Members.collect_isSome (h : 0 < cap) (m : Members α) (currentTail n : ℕ) :
    ∀ i entries, ∃ r, m.collect cap currentTail i n entries = some r := by
  induction n with
  | zero => exact fun i entries => ⟨entries, rfl⟩
  | succ n ih =>
    intro i entries
    rw [collect_succ h]
    exact ih (i + 1) _

/-- A buffer without slots is never raised. -/
theorem Op.exists_call (op : Op α) {m : Members α} (h : cap = 0 → m.size = 0) :
    ∃ a m', op.call cap m = some (a, m') ∧ (cap = 0 → m'.size = 0) := by
  cases op with
  | tryPush e =>
    rcases Nat.lt_or_ge m.size cap with hroom | hfull
    · exact ⟨.pushed true, _, by rw [call, Members.tryPush_of_room hroom]; rfl,
        fun hzero => absurd hroom (hzero ▸ Nat.not_lt_zero _)⟩
    · exact ⟨.pushed false, m, by rw [call, Members.tryPush_of_full hfull]; rfl, h⟩
  | popAll =>
    by_cases hsize : m.size = 0
    · exact ⟨.popped [], m, by rw [call, Members.popAll_of_empty hsize]; rfl, h⟩
    · have hcap : 0 < cap := Nat.pos_of_ne_zero fun hzero => hsize (h hzero)
      obtain ⟨r, hr⟩ := Members.collect_isSome hcap { m with size := 0 } m.tail m.size 0 []
      exact ⟨.popped r, _, by rw [call, Members.popAll_of_collect hcap hsize hr]; rfl,
        fun _ => rfl⟩
  | isEmpty | size | capacity => exact ⟨_, m, rfl, h⟩

theorem exists_perform_of_empty {m : Members α} (h : cap = 0 → m.size = 0) (ops : List (Op α)) :
    ∃ as m', perform cap m ops = some (as, m') ∧ (cap = 0 → m'.size = 0) := by
  induction ops generalizing m with
  | nil => exact ⟨[], m, rfl, h⟩
  | cons op ops ih =>
    obtain ⟨a, m₁, hop, h₁⟩ := op.exists_call h
    obtain ⟨as, m₂, hops, h₂⟩ := ih h₁
    exact ⟨a :: as, m₂, by simp [perform, hop, hops], h₂⟩

/-- **No sequence of calls takes a remainder by zero**, however many entries are pushed. -/
theorem exists_perform (cap : ℕ) (dflt : α) (ops : List (Op α)) :
    ∃ as m, perform cap (construct dflt) ops = some (as, m) := by
  have hempty : cap = 0 → (construct dflt).size = 0 := fun _ => rfl
  obtain ⟨as, m, h, -⟩ := exists_perform_of_empty hempty ops
  exact ⟨as, m, h⟩

/-! ### The members stand for a queue -/

/-- The members stand for the queue `q`, and `popped` entries have come and gone. -/
structure Represents (cap : ℕ) (m : Members α) (q : BoundedFifo α cap) (popped : ℕ) : Prop where
  head_eq : m.head = popped + q.entries.length
  tail_eq : m.tail = popped % cap
  size_eq : m.size = q.entries.length
  window_eq : window cap m.buffer popped m.size = q.entries
  head_lt : m.head < sizeModulus

section Represents

variable {m : Members α} {q : BoundedFifo α cap} {popped : ℕ}

theorem represents_construct (cap : ℕ) (dflt : α) :
    Represents cap (construct dflt) (.empty α cap) 0 where
  head_eq := rfl
  tail_eq := (Nat.zero_mod cap).symm
  size_eq := rfl
  window_eq := rfl
  head_lt := by rw [sizeModulus_eq]; exact Nat.succ_pos _

theorem Represents.tail_mod (h : Represents cap m q popped) : m.tail % cap = popped % cap := by
  rw [h.tail_eq, Nat.mod_mod]

/-- **The three counters agree** up to multiples of the capacity. -/
theorem Represents.head_modEq (h : Represents cap m q popped) :
    m.head ≡ m.tail + m.size [MOD cap] := by
  rw [h.head_eq, h.size_eq]
  exact Nat.ModEq.add_right _ h.tail_mod.symm

theorem Represents.size_le (h : Represents cap m q popped) : m.size ≤ cap :=
  h.size_eq ▸ q.bounded

/-- A full buffer changes nothing. -/
theorem Represents.tryPush_of_full (h : Represents cap m q popped)
    (hfull : cap ≤ q.entries.length) (e : α) : m.tryPush cap e = some (false, m) :=
  Members.tryPush_of_full (h.size_eq.symm ▸ hfull) e

/-- A buffer with room takes the entry. -/
theorem Represents.tryPush_of_room (h : Represents cap m q popped)
    (hroom : q.entries.length < cap) (hlt : m.head + 1 < sizeModulus) (e : α) :
    ∃ m', m.tryPush cap e = some (true, m') ∧ Represents cap m' (q.push e).2 popped ∧
      m'.head = m.head + 1 := by
  have hsize : m.size < cap := h.size_eq ▸ hroom
  have hhead : wrap (m.head + 1) = m.head + 1 := wrap_of_lt hlt
  have hraise : wrap (m.size + 1) = m.size + 1 := by
    have := h.head_eq
    have := h.size_eq
    exact wrap_of_lt (by omega)
  have hq := (BoundedFifo.push_of_room hroom e).2
  refine ⟨⟨update m.buffer (m.head % cap) e, m.head + 1, m.tail, m.size + 1⟩, ?_, ?_, rfl⟩
  · rw [Members.tryPush_of_room hsize, hhead, hraise]
  · have hpos : m.head = popped + m.size := by rw [h.size_eq]; exact h.head_eq
    refine ⟨?_, h.tail_eq, ?_, ?_, hlt⟩
    · rw [hq, List.length_append, List.length_singleton, h.head_eq, Nat.add_assoc]
    · rw [hq, List.length_append, List.length_singleton, h.size_eq]
    · -- the index drawn is that of the first position past the window
      rw [hq, hpos, window_concat hsize, h.window_eq]

/-- The loop of `popAll` reads a window, as long as no sum wraps. -/
theorem Members.collect_eq (hcap : 0 < cap) (m : Members α) (currentTail n : ℕ) :
    ∀ i entries, currentTail + i + n < sizeModulus →
      m.collect cap currentTail i n entries =
        some (entries ++ window cap m.buffer (currentTail + i) n) := by
  induction n with
  | zero => exact fun i entries _ => by rw [collect, window_zero, List.append_nil]
  | succ n ih =>
    intro i entries hlt
    rw [collect_succ hcap, wrap_of_lt (by omega), ih (i + 1) _ (by omega), window_succ,
      List.append_assoc, ← Nat.add_assoc]
    rfl

/-- **`popAll` returns the queue and empties it.** -/
theorem Represents.popAll (h : Represents cap m q popped) :
    ∃ m', m.popAll cap = some (q.entries, m') ∧
      Represents cap m' (.empty α cap) (popped + m.size) ∧ m'.head = m.head := by
  have hhead : m.head = popped + m.size := by rw [h.size_eq]; exact h.head_eq
  by_cases hzero : m.size = 0
  · have hnil : q.entries = [] := List.eq_nil_of_length_eq_zero (h.size_eq ▸ hzero)
    refine ⟨m, ?_, ⟨hhead, ?_, hzero, ?_, h.head_lt⟩, rfl⟩
    · rw [Members.popAll_of_empty hzero, hnil]
    · rw [hzero, h.tail_eq, Nat.add_zero]
    · rw [hzero]
      rfl
  · have hcap : 0 < cap := Nat.lt_of_lt_of_le (Nat.pos_of_ne_zero hzero) h.size_le
    have htail : m.tail ≤ popped := h.tail_eq ▸ Nat.mod_le popped cap
    have hlt : m.tail + m.size < sizeModulus := by
      have := h.head_lt
      omega
    have hread : { m with size := 0 }.collect cap m.tail 0 m.size [] = some q.entries := by
      rw [Members.collect_eq hcap _ _ _ _ _ hlt, List.nil_append, Nat.add_zero,
        window_congr h.tail_mod, h.window_eq]
    refine ⟨_, Members.popAll_of_collect hcap hzero hread, ⟨hhead, ?_, rfl, rfl, h.head_lt⟩, rfl⟩
    rw [wrap_of_lt hlt, h.tail_eq, Nat.mod_add_mod]

/-- **Every call answers as on the queue.** -/
theorem Represents.call (h : Represents cap m q popped) (op : Op α)
    (hlt : (op.onFifo q).1.accepted = true → m.head + 1 < sizeModulus) :
    ∃ m' popped', op.call cap m = some ((op.onFifo q).1, m') ∧
      Represents cap m' (op.onFifo q).2 popped' ∧
      m'.head = m.head + if (op.onFifo q).1.accepted then 1 else 0 := by
  cases op with
  | tryPush e =>
    by_cases hroom : q.entries.length < cap
    · have hok : (q.push e).1 = true := (BoundedFifo.push_of_room hroom e).1
      obtain ⟨m', hm', hrep, hhead⟩ := h.tryPush_of_room hroom (hlt hok) e
      refine ⟨m', popped, ?_, hrep, ?_⟩
      · rw [Op.call, hm', Option.map_some, Op.onFifo, Prod.map_fst, hok]
        rfl
      · rw [hhead]
        exact congrArg (m.head + ·) (if_pos hok).symm
    · have hfull := Nat.not_lt.mp hroom
      refine ⟨m, popped, ?_, ?_, ?_⟩
      · rw [Op.call, h.tryPush_of_full hfull, Op.onFifo, BoundedFifo.push_of_full hfull]
        rfl
      · rw [Op.onFifo, BoundedFifo.push_of_full hfull]
        exact h
      · rw [Op.onFifo, BoundedFifo.push_of_full hfull]
        rfl
  | popAll =>
    obtain ⟨m', hm', hrep, hhead⟩ := h.popAll
    exact ⟨m', _, by rw [Op.call, hm']; rfl, hrep, hhead⟩
  | isEmpty =>
    refine ⟨m, popped, ?_, h, rfl⟩
    rw [Op.call, Members.isEmpty, h.size_eq, Op.onFifo]
    cases q.entries <;> rfl
  | size => exact ⟨m, popped, by rw [Op.call, h.size_eq]; rfl, h, rfl⟩
  | capacity => exact ⟨m, popped, rfl, h, rfl⟩

/-- The same for a sequence of calls. -/
theorem Represents.perform (ops : List (Op α)) (h : Represents cap m q popped)
    (hlt : m.head + (performFifo q ops).1.countP Answer.accepted < sizeModulus) :
    ∃ m' popped', perform cap m ops = some ((performFifo q ops).1, m') ∧
      Represents cap m' (performFifo q ops).2 popped' := by
  induction ops generalizing m q popped with
  | nil => exact ⟨m, popped, rfl, h⟩
  | cons op ops ih =>
    simp only [performFifo, List.countP_cons] at hlt
    obtain ⟨m₁, p₁, hop, h₁, hhead⟩ := h.call op fun hacc => by
      rw [if_pos hacc] at hlt
      omega
    obtain ⟨m₂, p₂, hops, h₂⟩ := ih h₁ (by rw [hhead]; omega)
    exact ⟨m₂, p₂, by simp [RingBuffer.perform, performFifo, hop, hops], h₂⟩

end Represents

/-- **The ring buffer is a bounded queue.**  Every sequence of calls on a new buffer, of
any capacity, gives the answers of the queue, and leaves a buffer that holds the entries
of the queue, whose `size_` is their number, and in which a refused `tryPush` changes
nothing; as long as fewer than `2 ^ 64` entries are pushed. -/
theorem perform_eq_performFifo (cap : ℕ) (dflt : α) (ops : List (Op α))
    (hpushes : (performFifo (.empty α cap) ops).1.countP Answer.accepted < sizeModulus) :
    ∃ m, perform cap (construct dflt) ops = some ((performFifo (.empty α cap) ops).1, m) ∧
      m.size = (performFifo (.empty α cap) ops).2.entries.length ∧
      window cap m.buffer m.tail m.size = (performFifo (.empty α cap) ops).2.entries ∧
      m.head ≡ m.tail + m.size [MOD cap] ∧
      ∀ e, cap ≤ (performFifo (.empty α cap) ops).2.entries.length →
        m.tryPush cap e = some (false, m) := by
  obtain ⟨m, popped, hm, h⟩ := (represents_construct cap dflt).perform ops
    (by rw [construct, Nat.zero_add]; exact hpushes)
  refine ⟨m, hm, h.size_eq, ?_, h.head_modEq, fun e hfull => h.tryPush_of_full hfull e⟩
  rw [window_congr h.tail_mod, h.window_eq]

/-- Two slots are used round and round. -/
theorem perform_eq_performFifo_two :
    (performFifo (.empty Char 2) [.tryPush 'a', .popAll, .tryPush 'b', .tryPush 'c',
      .tryPush 'd', .size, .popAll]).1.countP Answer.accepted < sizeModulus ∧
    ∃ m, perform 2 (construct '-') [.tryPush 'a', .popAll, .tryPush 'b', .tryPush 'c',
      .tryPush 'd', .size, .popAll] = some ([.pushed true, .popped ['a'], .pushed true,
        .pushed true, .pushed false, .count 2, .popped ['b', 'c']], m) := by
  have hlt : (performFifo (.empty Char 2) [.tryPush 'a', .popAll, .tryPush 'b', .tryPush 'c',
      .tryPush 'd', .size, .popAll]).1.countP Answer.accepted < sizeModulus := by decide
  obtain ⟨m, hm, -⟩ := perform_eq_performFifo 2 '-' _ hlt
  exact ⟨hlt, m, hm⟩

end RingBuffer
end SpeckitLog
