import SpeckitLog.Lib.Call
import SpeckitLog.Lib.SizeT
import SpeckitLog.Lib.Transition

/-!
# The ring buffer, one atomic operation at a time

`RingBuffer` takes what does not fit the queue.  `tryPush` raises `size_` first,
takes an index from `head_` next and writes its slot last; `popAll` takes
`size_` to zero first, reads that many slots from `tail_` on next and stores
`tail_` last.  A slot that has been read keeps its value: moving a `LogEntry`
copies its fields.

A step of a thread is one atomic load, store or read-modify-write on `size_`,
`head_` or `tail_`, or one read or write of a slot.

## Main definitions

* `Pc` — the program points of `tryPush` and `popAll`.
* `State`, `next` — the object and one step of one thread.
* `Step` — the kinds of steps.
* `State.popAllResult` — what `popAll` returns when it runs alone.
-/

namespace SpeckitLog
namespace RingBuffer

open Function Transition

variable {ι α : Type*}

/-- The locals of `popAll` from the load of `tail_` on. -/
structure Drain (α : Type*) where
  currentTail : ℕ
  oldSize : ℕ
  i : ℕ
  entries : List α

/-- The program points of `tryPush` and `popAll`: the operation a thread does next. -/
inductive Pc (α : Type*)
  | idle
  /-- `tryPush`: load `size_` and test it. -/
  | loadSize (entry : α)
  /-- `size_.fetch_add(1)`, and the test of the old value. -/
  | addSize (entry : α)
  /-- `size_.fetch_sub(1)`, after overshooting the capacity. -/
  | subSize
  /-- `head_.fetch_add(1)`. -/
  | addHead (entry : α)
  /-- Write the slot. -/
  | store (entry : α) (currentHead : ℕ)
  /-- Return from `tryPush`. -/
  | pushed (ok : Bool)
  /-- `popAll`: `size_.exchange(0)`. -/
  | exchange
  /-- Load `tail_`. -/
  | loadTail (oldSize : ℕ)
  /-- Move the next slot into `entries`. -/
  | read (d : Drain α)
  /-- Store the new `tail_`. -/
  | storeTail (d : Drain α)
  /-- Return from `popAll`. -/
  | popped (result : List α)

/-- The thread is in `tryPush`, has raised `size_`, and has neither written its
slot nor lowered `size_` again. -/
def Pc.Raised : Pc α → Prop
  | .subSize | .addHead _ | .store _ _ => True
  | _ => False

/-- The thread is in `popAll`, has taken a count, and has not stored `tail_`. -/
def Pc.Draining : Pc α → Prop
  | .loadTail _ | .read _ | .storeTail _ => True
  | _ => False

/-- The thread is inside `popAll`. -/
def Pc.Popping : Pc α → Prop
  | .exchange | .loadTail _ | .read _ | .storeTail _ | .popped _ => True
  | _ => False

/-- The thread is inside a call that is not about to return. -/
def Pc.Inner : Pc α → Prop
  | .idle | .pushed _ | .popped _ => False
  | _ => True

theorem Pc.inner_of_ne {p : Pc α} (hidle : p ≠ .idle) (hpushed : ∀ ok, p ≠ .pushed ok)
    (hpopped : ∀ es, p ≠ .popped es) : p.Inner := by
  cases p with
  | idle => exact hidle rfl
  | pushed ok => exact hpushed ok rfl
  | popped es => exact hpopped es rfl
  | _ => trivial

theorem Pc.Draining.popping {p : Pc α} (h : p.Draining) : p.Popping := by
  cases p <;> trivial

/-- The entries a running `popAll` has collected. -/
def Pc.entries : Pc α → List α
  | .read d | .storeTail d => d.entries
  | .popped r => r
  | _ => []

/-- How far the `tryPush` call of the thread has come. -/
def Pc.stage : Pc α → Call.Stage α
  | .loadSize e | .addSize e | .addHead e => .undecided e
  | .subSize => .decided false
  | .store _ _ => .decided true
  | .pushed b => .decided b
  | _ => .outside

instance : DecidablePred (Pc.Raised (α := α)) := fun p => by
  cases p <;> unfold Pc.Raised <;> infer_instance

instance : DecidablePred (Pc.Draining (α := α)) := fun p => by
  cases p <;> unfold Pc.Draining <;> infer_instance

/-- The object, the program point of each thread, and the history. -/
structure State (ι α : Type*) where
  buffer : ℕ → α
  head : ℕ
  tail : ℕ
  size : ℕ
  pc : ι → Pc α
  /-- History: the arguments of each thread's `tryPush` calls, in call order. -/
  args : ι → List α
  /-- History: the call that drew index `0`, `1`, and so on from `head_`. -/
  tickets : List (Call ι α)
  /-- History: the calls that wrote their slot. -/
  stored : List (Call ι α)
  /-- History: the `tryPush` calls that returned: thread, number and result. -/
  returns : List (ι × ℕ × Bool)
  /-- History: the sum of the counts `popAll` took from `size_`. -/
  taken : ℕ
  /-- History: the entries read from slots, in the order of the reads. -/
  moved : List α
  /-- History: the results of the `popAll` calls that returned, concatenated. -/
  returned : List α

/-- `RingBuffer::RingBuffer`, before any call; `dflt` is a default-constructed entry. -/
def init (ι : Type*) (dflt : α) : State ι α where
  buffer _ := dflt
  head := 0
  tail := 0
  size := 0
  pc _ := .idle
  args _ := []
  tickets := []
  stored := []
  returns := []
  taken := 0
  moved := []
  returned := []

/-! ### The effects of the steps -/

variable [DecidableEq ι]

/-- Only the program point of thread `i` changes. -/
def State.goto (s : State ι α) (i : ι) (p : Pc α) : State ι α :=
  { s with pc := update s.pc i p }

/-- The number of the `tryPush` call thread `i` is in. -/
def State.number (s : State ι α) (i : ι) : ℕ := (s.args i).length - 1

/-- Thread `i` calls `tryPush(entry)`. -/
def State.callPush (s : State ι α) (i : ι) (e : α) : State ι α :=
  { s with pc := update s.pc i (.loadSize e), args := update s.args i (s.args i ++ [e]) }

/-- `size_` is raised; the old value decides between going on and rolling back. -/
def State.addSize (s : State ι α) (cap : ℕ) (i : ι) (e : α) : State ι α :=
  { s with
    size := wrap (s.size + 1),
    pc := update s.pc i (if cap ≤ s.size then .subSize else .addHead e) }

/-- `size_` is lowered again. -/
def State.subSize (s : State ι α) (i : ι) : State ι α :=
  { s with size := wsub s.size 1, pc := update s.pc i (.pushed false) }

/-- Thread `i` draws an index from `head_`. -/
def State.addHead (s : State ι α) (i : ι) (e : α) : State ι α :=
  { s with
    head := wrap (s.head + 1), tickets := s.tickets ++ [⟨i, s.number i, e⟩],
    pc := update s.pc i (.store e s.head) }

/-- `buffer_[index] = std::move(entry)`. -/
def State.store (s : State ι α) (cap : ℕ) (i : ι) (e : α) (h : ℕ) : State ι α :=
  { s with
    buffer := update s.buffer (h % cap) e, stored := s.stored ++ [⟨i, s.number i, e⟩],
    pc := update s.pc i (.pushed true) }

/-- `tryPush` returns `b`. -/
def State.returnPush (s : State ι α) (i : ι) (b : Bool) : State ι α :=
  { s with returns := s.returns ++ [(i, s.number i, b)], pc := update s.pc i .idle }

/-- `size_` is exchanged for zero. -/
def State.exchange (s : State ι α) (i : ι) : State ι α :=
  { s with
    size := 0, taken := s.taken + s.size,
    pc := update s.pc i (if s.size = 0 then .popped [] else .loadTail s.size) }

/-- The index of the slot a drain reads next. -/
def Drain.index (cap : ℕ) (d : Drain α) : ℕ := wrap (d.currentTail + d.i) % cap

/-- `entries.emplace_back(std::move(buffer_[index]))`, and on to the next slot or
to the store of `tail_`. -/
def State.read (s : State ι α) (cap : ℕ) (i : ι) (d : Drain α) : State ι α :=
  let d' := { d with i := d.i + 1, entries := d.entries ++ [s.buffer (d.index cap)] }
  { s with
    moved := s.moved ++ [s.buffer (d.index cap)],
    pc := update s.pc i (if d'.i < d'.oldSize then .read d' else .storeTail d') }

/-- `tail_.store((current_tail + old_size) % capacity_)`. -/
def State.storeTail (s : State ι α) (cap : ℕ) (i : ι) (d : Drain α) : State ι α :=
  { s with
    tail := wrap (d.currentTail + d.oldSize) % cap, pc := update s.pc i (.popped d.entries) }

/-- `popAll` returns `r`. -/
def State.returnPop (s : State ι α) (i : ι) (r : List α) : State ι α :=
  { s with returned := s.returned ++ r, pc := update s.pc i .idle }

/-! ### The step function -/

/-- What a thread does: call a method, or take the next step of the running call. -/
inductive Act (α : Type*)
  | push (entry : α)
  | pop
  | step
  deriving DecidableEq

/-- Thread `i` does `a` and takes `n` steps. -/
def doing (i : ι) (a : Act α) (n : ℕ) : List (ι × Act α) := (i, a) :: List.replicate n (i, .step)

/-- Action `a` of thread `i` on a buffer of `cap` slots; `none` when the thread
has no such step. -/
def threadNext (cap : ℕ) (s : State ι α) (i : ι) (a : Act α) : Option (State ι α) :=
  match s.pc i, a with
  | .idle, .push e => some (s.callPush i e)
  | .idle, .pop => some (s.goto i .exchange)
  | .loadSize e, .step => some (s.goto i (if cap ≤ s.size then .pushed false else .addSize e))
  | .addSize e, .step => some (s.addSize cap i e)
  | .subSize, .step => some (s.subSize i)
  | .addHead e, .step => some (s.addHead i e)
  | .store e h, .step => some (s.store cap i e h)
  | .pushed b, .step => some (s.returnPush i b)
  | .exchange, .step => some (s.exchange i)
  | .loadTail n, .step => some (s.goto i (.read ⟨s.tail, n, 0, []⟩))
  | .read d, .step => some (s.read cap i d)
  | .storeTail d, .step => some (s.storeTail cap i d)
  | .popped r, .step => some (s.returnPop i r)
  | _, _ => none

/-- One step of one thread. -/
def next (cap : ℕ) (s : State ι α) (a : ι × Act α) : Option (State ι α) :=
  threadNext cap s a.1 a.2

/-- `Step cap s i a s'`: thread `i` takes the buffer from `s` to `s'` by action `a`. -/
inductive Step (cap : ℕ) (s : State ι α) (i : ι) : Act α → State ι α → Prop
  | callPush {e : α} (hpc : s.pc i = .idle) : Step cap s i (.push e) (s.callPush i e)
  | callPop (hpc : s.pc i = .idle) : Step cap s i .pop (s.goto i .exchange)
  | full {e : α} (hpc : s.pc i = .loadSize e) (h : cap ≤ s.size) :
      Step cap s i .step (s.goto i (.pushed false))
  | room {e : α} (hpc : s.pc i = .loadSize e) (h : s.size < cap) :
      Step cap s i .step (s.goto i (.addSize e))
  | addSize {e : α} (hpc : s.pc i = .addSize e) : Step cap s i .step (s.addSize cap i e)
  | subSize (hpc : s.pc i = .subSize) : Step cap s i .step (s.subSize i)
  | addHead {e : α} (hpc : s.pc i = .addHead e) : Step cap s i .step (s.addHead i e)
  | store {e : α} {h : ℕ} (hpc : s.pc i = .store e h) : Step cap s i .step (s.store cap i e h)
  | returnPush {b : Bool} (hpc : s.pc i = .pushed b) : Step cap s i .step (s.returnPush i b)
  | exchange (hpc : s.pc i = .exchange) : Step cap s i .step (s.exchange i)
  | loadTail {n : ℕ} (hpc : s.pc i = .loadTail n) :
      Step cap s i .step (s.goto i (.read ⟨s.tail, n, 0, []⟩))
  | read {d : Drain α} (hpc : s.pc i = .read d) : Step cap s i .step (s.read cap i d)
  | storeTail {d : Drain α} (hpc : s.pc i = .storeTail d) :
      Step cap s i .step (s.storeTail cap i d)
  | returnPop {r : List α} (hpc : s.pc i = .popped r) : Step cap s i .step (s.returnPop i r)

/-- **Every step is one of the listed kinds.** -/
theorem step_of_next {cap : ℕ} {s s' : State ι α} {i : ι} {a : Act α}
    (h : threadNext cap s i a = some s') : Step cap s i a s' := by
  unfold threadNext at h
  split at h
  case h_1 e hpc => exact Option.some.inj h ▸ .callPush hpc
  case h_2 hpc => exact Option.some.inj h ▸ .callPop hpc
  case h_3 e hpc =>
    obtain rfl := Option.some.inj h
    split
    · next hfull => exact .full hpc hfull
    · next hroom => exact .room hpc (by omega)
  case h_4 e hpc => exact Option.some.inj h ▸ .addSize hpc
  case h_5 hpc => exact Option.some.inj h ▸ .subSize hpc
  case h_6 e hpc => exact Option.some.inj h ▸ .addHead hpc
  case h_7 e t hpc => exact Option.some.inj h ▸ .store hpc
  case h_8 b hpc => exact Option.some.inj h ▸ .returnPush hpc
  case h_9 hpc => exact Option.some.inj h ▸ .exchange hpc
  case h_10 n hpc => exact Option.some.inj h ▸ .loadTail hpc
  case h_11 d hpc => exact Option.some.inj h ▸ .read hpc
  case h_12 d hpc => exact Option.some.inj h ▸ .storeTail hpc
  case h_13 r hpc => exact Option.some.inj h ▸ .returnPop hpc
  case h_14 => contradiction

/-- A step of one thread leaves the program points of the others. -/
theorem Step.pc_of_ne {cap : ℕ} {s s' : State ι α} {i j : ι} {a : Act α}
    (h : Step cap s i a s') (hji : j ≠ i) : s'.pc j = s.pc j := by
  cases h <;> exact update_of_ne hji _ _

/-- What is read from the slots goes to the results of the running `popAll`. -/
theorem Step.moved_entries {cap : ℕ} {s s' : State ι α} {i : ι} {a : Act α}
    (h : Step cap s i a s') : (∃ r, s.pc i = .popped r) ∨
      ∃ es, s'.moved = s.moved ++ es ∧ (s'.pc i).entries = (s.pc i).entries ++ es := by
  have hself : ∀ {p : Pc α}, p.entries = (s.pc i).entries →
      (update s.pc i p i).entries = (s.pc i).entries ++ [] := by
    intro p hp
    rw [update_self, hp, List.append_nil]
  cases h with
  | returnPop hpc => exact Or.inl ⟨_, hpc⟩
  | @read d hpc =>
    refine Or.inr ⟨[s.buffer (d.index cap)], rfl, ?_⟩
    show (update s.pc i _ i).entries = _
    rw [update_self, hpc]
    split <;> rfl
  | addSize hpc | exchange hpc =>
    exact Or.inr ⟨[], (List.append_nil _).symm, hself (by rw [hpc]; split <;> rfl)⟩
  | full hpc _ | room hpc _ =>
    exact Or.inr ⟨[], (List.append_nil _).symm, hself (by rw [hpc]; rfl)⟩
  | _ hpc => exact Or.inr ⟨[], (List.append_nil _).symm, hself (by rw [hpc]; rfl)⟩

/-- A step inside a call neither starts nor ends one, and stays in the method. -/
theorem Step.inner {cap : ℕ} {s s' : State ι α} {i : ι} {a : Act α}
    (h : Step cap s i a s') (hin : (s.pc i).Inner) :
    s'.args = s.args ∧ s'.returns = s.returns ∧ s'.pc i ≠ .idle ∧
      ((s'.pc i).Popping ↔ (s.pc i).Popping) := by
  have hself : ∀ {p : Pc α}, p ≠ .idle → (p.Popping ↔ (s.pc i).Popping) →
      update s.pc i p i ≠ .idle ∧ ((update s.pc i p i).Popping ↔ (s.pc i).Popping) := by
    intro p hp hpop
    rw [update_self]
    exact ⟨hp, hpop⟩
  cases h with
  | callPush hpc | callPop hpc | returnPush hpc | returnPop hpc =>
    rw [hpc] at hin
    exact hin.elim
  | addSize hpc | exchange hpc | read hpc =>
    refine ⟨rfl, rfl, hself ?_ ?_⟩
    · split <;> simp
    · rw [hpc]; split <;> rfl
  | full hpc _ | room hpc _ => exact ⟨rfl, rfl, hself (by simp) (by rw [hpc]; rfl)⟩
  | _ hpc => exact ⟨rfl, rfl, hself (by simp) (by rw [hpc]; rfl)⟩

omit [DecidableEq ι] in
/-- What a `popAll` that runs alone returns: the `size_` slots from `tail_` on. -/
def State.popAllResult (s : State ι α) (cap : ℕ) : List α :=
  (List.range s.size).map fun j => s.buffer (wrap (s.tail + j) % cap)

end RingBuffer
end SpeckitLog
