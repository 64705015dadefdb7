import SpeckitLog.Lib.Call
import SpeckitLog.Lib.SizeT
import SpeckitLog.Lib.Transition

/-!
# The lock-free queue, one atomic operation at a time

`AsyncQueue` is a bounded queue over a ring of cells.  A producer reserves a
ticket by a compare-and-swap on `tail_`, waits until the cell of its ticket is
free, moves its entry in and publishes the cell through `seq`; `popAll` takes
the tickets from `head_` up to the `tail_` it read, frees each cell and stores
the new `head_` at the end.

A step of a thread is one atomic load, store or compare-and-swap, one update of
`size_`, or one access to a cell's `storage`; memory is sequentially consistent.
Nothing limits which threads call which method: that `popAll` is meant for one
consumer is a property of the caller.

## Main definitions

* `Pc` — the program points of `tryPush` and `popAll`, with their locals.
* `State` — the fields of the object, the program points, and the history.
* `next` — one step of one thread.
* `Step` — the same, as a relation with one constructor for each kind of step.
-/

namespace SpeckitLog
namespace AsyncQueue

open Function Transition

variable {ι α : Type*}

/-- `AsyncQueue::Cell`. -/
structure Cell (α : Type*) where
  seq : ℕ
  storage : Option α

/-- The locals of `popAll` inside its loop. -/
structure Drain (α : Type*) where
  head : ℕ
  available : ℕ
  i : ℕ
  result : List α

/-- The ticket the loop is at. -/
def Drain.ticket (d : Drain α) : ℕ := d.head + d.i

/-- The program points of `tryPush` and `popAll`: the operation a thread does next. -/
inductive Pc (α : Type*)
  | idle
  /-- `tryPush`: load `tail_`. -/
  | loadTail (entry : α)
  /-- Load `head_` and test for a full queue. -/
  | loadHead (entry : α) (currentTail : ℕ)
  /-- Compare-and-swap on `tail_`. -/
  | cas (entry : α) (currentTail : ℕ)
  /-- Spin until the cell is free for this ticket. -/
  | awaitFree (entry : α) (currentTail : ℕ)
  /-- Move the entry into the cell. -/
  | emplace (entry : α) (currentTail : ℕ)
  /-- Store `seq = currentTail + 1`. -/
  | publish (currentTail : ℕ)
  /-- `size_.fetch_add(1)`. -/
  | addSize
  /-- Return from `tryPush`. -/
  | pushed (ok : Bool)
  /-- `popAll`: load `head_`. -/
  | popLoadHead
  /-- Load `tail_` and compute `available`. -/
  | popLoadTail (head : ℕ)
  /-- Spin until the entry of this ticket is published. -/
  | awaitEntry (d : Drain α)
  /-- Test `storage.has_value()`. -/
  | testValue (d : Drain α)
  /-- Move the entry out of the cell into `result`. -/
  | moveOut (d : Drain α)
  /-- `storage.reset()`. -/
  | reset (d : Drain α)
  /-- Store `seq = head + i + cap`. -/
  | freeSlot (d : Drain α)
  /-- Store `head_ = head + available`. -/
  | storeHead (d : Drain α)
  /-- `size_.fetch_sub(available)`. -/
  | subSize (d : Drain α)
  /-- Return from `popAll`. -/
  | popped (result : List α)

/-- The thread is in the loop of `popAll`, up to the store to `head_`. -/
def Pc.Draining : Pc α → Prop
  | .awaitEntry _ | .testValue _ | .moveOut _ | .reset _ | .freeSlot _ | .storeHead _ => True
  | _ => False

/-- The thread is inside `popAll`. -/
def Pc.Popping : Pc α → Prop
  | .popLoadHead | .popLoadTail _ | .awaitEntry _ | .testValue _ | .moveOut _ | .reset _
  | .freeSlot _ | .storeHead _ | .subSize _ | .popped _ => True
  | _ => False

/-- The thread is inside a call that is not about to return. -/
def Pc.Inner : Pc α → Prop
  | .idle | .pushed _ | .popped _ => False
  | _ => True

theorem Pc.inner_of_ne {p : Pc α} (hidle : p ≠ .idle) (hpushed : ∀ ok, p ≠ .pushed ok)
    (hpopped : ∀ es, p ≠ .popped es) : p.Inner := by
  cases p with
  | idle => exact hidle rfl
  | pushed ok => exact hpushed ok rfl
  | popped es => exact hpopped es rfl
  | _ => trivial

theorem Pc.Draining.popping {p : Pc α} (h : p.Draining) : p.Popping := by
  cases p <;> trivial

/-- The thread won ticket `t` and has not published it. -/
def Pc.Holds (t : ℕ) : Pc α → Prop
  | .awaitFree _ u | .emplace _ u | .publish u => u = t
  | _ => False

/-- The entries a running `popAll` has in its `result`. -/
def Pc.result : Pc α → List α
  | .awaitEntry d | .testValue d | .moveOut d | .reset d | .freeSlot d | .storeHead d
  | .subSize d => d.result
  | .popped r => r
  | _ => []

/-- How far the `tryPush` call of the thread has come. -/
def Pc.stage : Pc α → Call.Stage α
  | .loadTail e | .loadHead e _ | .cas e _ => .undecided e
  | .awaitFree _ _ | .emplace _ _ | .publish _ | .addSize => .decided true
  | .pushed b => .decided b
  | _ => .outside

instance : DecidablePred (Pc.Draining (α := α)) := fun p => by
  cases p <;> unfold Pc.Draining <;> infer_instance

instance (t : ℕ) : DecidablePred (Pc.Holds (α := α) t) := fun p => by
  cases p <;> unfold Pc.Holds <;> infer_instance

/-- The object, the program point of each thread, and the history. -/
structure State (ι α : Type*) where
  buffer : ℕ → Cell α
  tail : ℕ
  head : ℕ
  size : ℕ
  pc : ι → Pc α
  /-- History: the arguments of each thread's `tryPush` calls, in call order. -/
  args : ι → List α
  /-- History: the call that won ticket `0`, `1`, and so on. -/
  tickets : List (Call ι α)
  /-- History: the `tryPush` calls that returned: thread, number and result. -/
  returns : List (ι × ℕ × Bool)
  /-- History: the entries moved out of cells, in the order of the moves. -/
  moved : List α
  /-- History: the results of the `popAll` calls that returned, concatenated. -/
  completed : List α

/-- `AsyncQueue::AsyncQueue`, before any call. -/
def init (ι α : Type*) : State ι α where
  buffer i := ⟨wrap i, none⟩
  tail := 0
  head := 0
  size := 0
  pc _ := .idle
  args _ := []
  tickets := []
  returns := []
  moved := []
  completed := []

/-! ### The effects of the steps -/

variable [DecidableEq ι]

/-- Only the program point of thread `i` changes. -/
def State.goto (s : State ι α) (i : ι) (p : Pc α) : State ι α :=
  { s with pc := update s.pc i p }

/-- Cell `k` becomes `c`. -/
def State.setCell (s : State ι α) (k : ℕ) (c : Cell α) : State ι α :=
  { s with buffer := update s.buffer k c }

/-- The number of the `tryPush` call thread `i` is in. -/
def State.number (s : State ι α) (i : ι) : ℕ := (s.args i).length - 1

/-- Thread `i` calls `tryPush(entry)`. -/
def State.callPush (s : State ι α) (i : ι) (e : α) : State ι α :=
  { s with pc := update s.pc i (.loadTail e), args := update s.args i (s.args i ++ [e]) }

/-- The compare-and-swap of thread `i` succeeds: it owns ticket `t`. -/
def State.reserve (s : State ι α) (i : ι) (e : α) (t : ℕ) : State ι α :=
  { s with
    tail := wrap (t + 1), tickets := s.tickets ++ [⟨i, s.number i, e⟩],
    pc := update s.pc i (.awaitFree e t) }

/-- `cell.storage.emplace(std::move(entry))`. -/
def State.emplace (s : State ι α) (cap : ℕ) (i : ι) (e : α) (t : ℕ) : State ι α :=
  (s.setCell (t % cap) { s.buffer (t % cap) with storage := some e }).goto i (.publish t)

/-- `cell.seq.store(current_tail + 1)`. -/
def State.publish (s : State ι α) (cap : ℕ) (i : ι) (t : ℕ) : State ι α :=
  (s.setCell (t % cap) { s.buffer (t % cap) with seq := wrap (t + 1) }).goto i .addSize

/-- `size_` is raised by one. -/
def State.addSize (s : State ι α) (i : ι) : State ι α :=
  { s with size := wrap (s.size + 1), pc := update s.pc i (.pushed true) }

/-- `tryPush` returns `b`. -/
def State.returnPush (s : State ι α) (i : ι) (b : Bool) : State ι α :=
  { s with returns := s.returns ++ [(i, s.number i, b)], pc := update s.pc i .idle }

/-- `result.push_back(std::move(*cell.storage))`. -/
def State.moveOut (s : State ι α) (i : ι) (d : Drain α) (e : α) : State ι α :=
  { s with
    moved := s.moved ++ [e], pc := update s.pc i (.reset { d with result := d.result ++ [e] }) }

/-- The cell of the ticket a drain is at. -/
def Drain.cell (cap : ℕ) (d : Drain α) : ℕ := wrap d.ticket % cap

/-- `cell.storage.reset()`. -/
def State.reset (s : State ι α) (cap : ℕ) (i : ι) (d : Drain α) : State ι α :=
  (s.setCell (d.cell cap) { s.buffer (d.cell cap) with storage := none }).goto i (.freeSlot d)

/-- `cell.seq.store(head + i + cap)`, and on to the next ticket or to the store of `head_`. -/
def State.freeSlot (s : State ι α) (cap : ℕ) (i : ι) (d : Drain α) : State ι α :=
  (s.setCell (d.cell cap) { s.buffer (d.cell cap) with seq := wrap (d.ticket + cap) }).goto i
    (if d.i + 1 < d.available then .awaitEntry { d with i := d.i + 1 }
      else .storeHead { d with i := d.i + 1 })

/-- `head_.store(head + available)`. -/
def State.storeHead (s : State ι α) (i : ι) (d : Drain α) : State ι α :=
  { s with head := wrap (d.head + d.available), pc := update s.pc i (.subSize d) }

/-- `size_.fetch_sub(available)`. -/
def State.subSize (s : State ι α) (i : ι) (d : Drain α) : State ι α :=
  { s with size := wsub s.size d.available, pc := update s.pc i (.popped d.result) }

/-- `popAll` returns `r`. -/
def State.returnPop (s : State ι α) (i : ι) (r : List α) : State ι α :=
  { s with completed := s.completed ++ r, pc := update s.pc i .idle }

/-! ### The step function -/

/-- What a thread does: call a method, take the next step of the running call,
or have a `compare_exchange_weak` fail for no reason. -/
inductive Act (α : Type*)
  | push (entry : α)
  | pop
  | step
  | spurious
  deriving DecidableEq

/-- Thread `i` does `a` and takes `n` steps. -/
def doing (i : ι) (a : Act α) (n : ℕ) : List (ι × Act α) := (i, a) :: List.replicate n (i, .step)

/-- Action `a` of thread `i` on a queue of `cap` cells; `none` when the thread
has no such step.  Moving out of an empty `storage` is undefined behaviour of
the source and has no successor here. -/
def threadNext (cap : ℕ) (s : State ι α) (i : ι) (a : Act α) : Option (State ι α) :=
  match s.pc i, a with
  | .idle, .push e => some (s.callPush i e)
  | .idle, .pop => some (s.goto i .popLoadHead)
  | .loadTail e, .step => some (s.goto i (.loadHead e s.tail))
  | .loadHead e t, .step =>
    some (s.goto i (if cap ≤ wsub t s.head then .pushed false else .cas e t))
  | .cas e t, .step =>
    some (if s.tail = t then s.reserve i e t else s.goto i (.loadTail e))
  | .cas e _, .spurious => some (s.goto i (.loadTail e))
  | .awaitFree e t, .step =>
    some (if (s.buffer (t % cap)).seq = t then s.goto i (.emplace e t) else s)
  | .emplace e t, .step => some (s.emplace cap i e t)
  | .publish t, .step => some (s.publish cap i t)
  | .addSize, .step => some (s.addSize i)
  | .pushed b, .step => some (s.returnPush i b)
  | .popLoadHead, .step => some (s.goto i (.popLoadTail s.head))
  | .popLoadTail h, .step =>
    some (s.goto i (if h < s.tail then .awaitEntry ⟨h, s.tail - h, 0, []⟩ else .popped []))
  | .awaitEntry d, .step =>
    some (if (s.buffer (d.cell cap)).seq = wrap (d.ticket + 1) then s.goto i (.testValue d)
      else s)
  | .testValue d, .step =>
    some (s.goto i (if (s.buffer (d.cell cap)).storage.isSome then .moveOut d else .freeSlot d))
  | .moveOut d, .step => ((s.buffer (d.cell cap)).storage).map fun e => s.moveOut i d e
  | .reset d, .step => some (s.reset cap i d)
  | .freeSlot d, .step => some (s.freeSlot cap i d)
  | .storeHead d, .step => some (s.storeHead i d)
  | .subSize d, .step => some (s.subSize i d)
  | .popped r, .step => some (s.returnPop i r)
  | _, _ => none

/-- One step of one thread. -/
def next (cap : ℕ) (s : State ι α) (a : ι × Act α) : Option (State ι α) :=
  threadNext cap s a.1 a.2

/-- `Step cap s i a s'`: thread `i` takes the queue from `s` to `s'` by action `a`.
One constructor for each kind of step, with what the thread saw in shared memory. -/
inductive Step (cap : ℕ) (s : State ι α) (i : ι) : Act α → State ι α → Prop
  | callPush {e : α} (hpc : s.pc i = .idle) : Step cap s i (.push e) (s.callPush i e)
  | callPop (hpc : s.pc i = .idle) : Step cap s i .pop (s.goto i .popLoadHead)
  | loadTail {e : α} (hpc : s.pc i = .loadTail e) :
      Step cap s i .step (s.goto i (.loadHead e s.tail))
  | full {e : α} {t : ℕ} (hpc : s.pc i = .loadHead e t) (h : cap ≤ wsub t s.head) :
      Step cap s i .step (s.goto i (.pushed false))
  | room {e : α} {t : ℕ} (hpc : s.pc i = .loadHead e t) (h : wsub t s.head < cap) :
      Step cap s i .step (s.goto i (.cas e t))
  | reserve {e : α} {t : ℕ} (hpc : s.pc i = .cas e t) (h : s.tail = t) :
      Step cap s i .step (s.reserve i e t)
  | retry {a : Act α} {e : α} {t : ℕ} (hpc : s.pc i = .cas e t) :
      Step cap s i a (s.goto i (.loadTail e))
  | spinFree {e : α} {t : ℕ} (hpc : s.pc i = .awaitFree e t)
      (h : (s.buffer (t % cap)).seq ≠ t) : Step cap s i .step s
  | slotFree {e : α} {t : ℕ} (hpc : s.pc i = .awaitFree e t)
      (h : (s.buffer (t % cap)).seq = t) : Step cap s i .step (s.goto i (.emplace e t))
  | emplace {e : α} {t : ℕ} (hpc : s.pc i = .emplace e t) :
      Step cap s i .step (s.emplace cap i e t)
  | publish {t : ℕ} (hpc : s.pc i = .publish t) : Step cap s i .step (s.publish cap i t)
  | addSize (hpc : s.pc i = .addSize) : Step cap s i .step (s.addSize i)
  | returnPush {b : Bool} (hpc : s.pc i = .pushed b) : Step cap s i .step (s.returnPush i b)
  | popLoadHead (hpc : s.pc i = .popLoadHead) :
      Step cap s i .step (s.goto i (.popLoadTail s.head))
  | nothing {h : ℕ} (hpc : s.pc i = .popLoadTail h) (hle : s.tail ≤ h) :
      Step cap s i .step (s.goto i (.popped []))
  | startDrain {h : ℕ} (hpc : s.pc i = .popLoadTail h) (hlt : h < s.tail) :
      Step cap s i .step (s.goto i (.awaitEntry ⟨h, s.tail - h, 0, []⟩))
  | spinEntry {d : Drain α} (hpc : s.pc i = .awaitEntry d)
      (h : (s.buffer (d.cell cap)).seq ≠ wrap (d.ticket + 1)) : Step cap s i .step s
  | entryReady {d : Drain α} (hpc : s.pc i = .awaitEntry d)
      (h : (s.buffer (d.cell cap)).seq = wrap (d.ticket + 1)) :
      Step cap s i .step (s.goto i (.testValue d))
  | hasValue {d : Drain α} {e : α} (hpc : s.pc i = .testValue d)
      (h : (s.buffer (d.cell cap)).storage = some e) : Step cap s i .step (s.goto i (.moveOut d))
  | noValue {d : Drain α} (hpc : s.pc i = .testValue d)
      (h : (s.buffer (d.cell cap)).storage = none) : Step cap s i .step (s.goto i (.freeSlot d))
  | moveOut {d : Drain α} {e : α} (hpc : s.pc i = .moveOut d)
      (h : (s.buffer (d.cell cap)).storage = some e) : Step cap s i .step (s.moveOut i d e)
  | reset {d : Drain α} (hpc : s.pc i = .reset d) : Step cap s i .step (s.reset cap i d)
  | freeSlot {d : Drain α} (hpc : s.pc i = .freeSlot d) :
      Step cap s i .step (s.freeSlot cap i d)
  | storeHead {d : Drain α} (hpc : s.pc i = .storeHead d) : Step cap s i .step (s.storeHead i d)
  | subSize {d : Drain α} (hpc : s.pc i = .subSize d) : Step cap s i .step (s.subSize i d)
  | returnPop {r : List α} (hpc : s.pc i = .popped r) : Step cap s i .step (s.returnPop i r)

/-- **Every step is one of the listed kinds.** -/
theorem step_of_next {cap : ℕ} {s s' : State ι α} {i : ι} {a : Act α}
    (h : threadNext cap s i a = some s') : Step cap s i a s' := by
  unfold threadNext at h
  split at h
  case h_1 e hpc => exact Option.some.inj h ▸ .callPush hpc
  case h_2 hpc => exact Option.some.inj h ▸ .callPop hpc
  case h_3 e hpc => exact Option.some.inj h ▸ .loadTail hpc
  case h_4 e t hpc =>
    obtain rfl := Option.some.inj h
    split
    · next hfull => exact .full hpc hfull
    · next hroom => exact .room hpc (by omega)
  case h_5 e t hpc =>
    obtain rfl := Option.some.inj h
    split
    · next ht => exact .reserve hpc ht
    · exact .retry hpc
  case h_6 e t hpc => exact Option.some.inj h ▸ .retry hpc
  case h_7 e t hpc =>
    obtain rfl := Option.some.inj h
    split
    · next hseq => exact .slotFree hpc hseq
    · next hseq => exact .spinFree hpc hseq
  case h_8 e t hpc => exact Option.some.inj h ▸ .emplace hpc
  case h_9 t hpc => exact Option.some.inj h ▸ .publish hpc
  case h_10 hpc => exact Option.some.inj h ▸ .addSize hpc
  case h_11 b hpc => exact Option.some.inj h ▸ .returnPush hpc
  case h_12 hpc => exact Option.some.inj h ▸ .popLoadHead hpc
  case h_13 k hpc =>
    obtain rfl := Option.some.inj h
    split
    · next hlt => exact .startDrain hpc hlt
    · next hlt => exact .nothing hpc (by omega)
  case h_14 d hpc =>
    obtain rfl := Option.some.inj h
    split
    · next hseq => exact .entryReady hpc hseq
    · next hseq => exact .spinEntry hpc hseq
  case h_15 d hpc =>
    obtain rfl := Option.some.inj h
    cases hv : (s.buffer (d.cell cap)).storage with
    | none => exact .noValue hpc hv
    | some e => exact .hasValue hpc hv
  case h_16 d hpc =>
    obtain ⟨e, he, rfl⟩ := Option.map_eq_some_iff.mp h
    exact .moveOut hpc he
  case h_17 d hpc => exact Option.some.inj h ▸ .reset hpc
  case h_18 d hpc => exact Option.some.inj h ▸ .freeSlot hpc
  case h_19 d hpc => exact Option.some.inj h ▸ .storeHead hpc
  case h_20 d hpc => exact Option.some.inj h ▸ .subSize hpc
  case h_21 r hpc => exact Option.some.inj h ▸ .returnPop hpc
  case h_22 => contradiction

/-- A step of one thread leaves the program points of the others. -/
theorem Step.pc_of_ne {cap : ℕ} {s s' : State ι α} {i j : ι} {a : Act α}
    (h : Step cap s i a s') (hji : j ≠ i) : s'.pc j = s.pc j := by
  cases h with
  | spinFree | spinEntry => rfl
  | _ => exact update_of_ne hji _ _

/-- What is moved out of the cells goes to the results of the running `popAll`. -/
theorem Step.moved_result {cap : ℕ} {s s' : State ι α} {i : ι} {a : Act α}
    (h : Step cap s i a s') : (∃ r, s.pc i = .popped r) ∨
      ∃ es, s'.moved = s.moved ++ es ∧ (s'.pc i).result = (s.pc i).result ++ es := by
  have hself : ∀ {p : Pc α}, p.result = (s.pc i).result →
      (update s.pc i p i).result = (s.pc i).result ++ [] := by
    intro p hp
    rw [update_self, hp, List.append_nil]
  cases h with
  | returnPop hpc => exact Or.inl ⟨_, hpc⟩
  | spinFree | spinEntry => exact Or.inr ⟨[], by simp⟩
  | @moveOut d e hpc _ =>
    refine Or.inr ⟨[e], rfl, ?_⟩
    show (update s.pc i _ i).result = _
    rw [update_self, hpc]
    rfl
  | freeSlot hpc =>
    exact Or.inr ⟨[], (List.append_nil _).symm, hself (by rw [hpc]; split <;> rfl)⟩
  | full hpc _ | room hpc _ | reserve hpc _ | slotFree hpc _ | nothing hpc _ | startDrain hpc _
  | entryReady hpc _ | hasValue hpc _ | noValue hpc _ =>
    exact Or.inr ⟨[], (List.append_nil _).symm, hself (by rw [hpc]; rfl)⟩
  | _ hpc => exact Or.inr ⟨[], (List.append_nil _).symm, hself (by rw [hpc]; rfl)⟩

/-- A step inside a call neither starts nor ends one, and stays in the method. -/
theorem Step.inner {cap : ℕ} {s s' : State ι α} {i : ι} {a : Act α}
    (h : Step cap s i a s') (hin : (s.pc i).Inner) :
    s'.args = s.args ∧ s'.returns = s.returns ∧ s'.pc i ≠ .idle ∧
      ((s'.pc i).Popping ↔ (s.pc i).Popping) := by
  have hself : ∀ {p : Pc α}, p ≠ .idle → (p.Popping ↔ (s.pc i).Popping) →
      update s.pc i p i ≠ .idle ∧ ((update s.pc i p i).Popping ↔ (s.pc i).Popping) := by
    intro p hp hpop
    rw [update_self]
    exact ⟨hp, hpop⟩
  cases h with
  | callPush hpc | callPop hpc | returnPush hpc | returnPop hpc =>
    rw [hpc] at hin
    exact hin.elim
  | spinFree hpc _ | spinEntry hpc _ => exact ⟨rfl, rfl, by rw [hpc]; simp, Iff.rfl⟩
  | full hpc _ | room hpc _ | reserve hpc _ | slotFree hpc _ | nothing hpc _ | startDrain hpc _
  | entryReady hpc _ | hasValue hpc _ | noValue hpc _ | moveOut hpc _ =>
    exact ⟨rfl, rfl, hself (by simp) (by rw [hpc]; rfl)⟩
  | freeSlot hpc =>
    refine ⟨rfl, rfl, hself ?_ ?_⟩
    · split <;> simp
    · rw [hpc]; split <;> rfl
  | _ hpc => exact ⟨rfl, rfl, hself (by simp) (by rw [hpc]; rfl)⟩

end AsyncQueue
end SpeckitLog
