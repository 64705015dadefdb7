import SpeckitLog.Lib.Call
import SpeckitLog.Lib.Transition

/-!
# Queues that are emptied in batches

A bounded queue of many producers and one consumer, one whole operation at a time: an
entry is accepted in one step, and all entries that wait are taken in one step.  The
slots of a batch stay occupied until the consumer releases them, so an entry may find
no room though few entries wait; and a queue of this kind may refuse an entry at any
time.

## Main definitions

* `BatchQueue` — the entries that wait, the batch on its way out, and the history.
* `BatchQueue.next` — one operation.

## Main results

* `BatchQueue.Sound` — the slots suffice, and nothing accepted is lost or reordered.
* `BatchQueue.sound_of_reachable` — every run is sound.
* `BatchQueue.took_of_next` — a batch is all that waits.
-/

open Function Transition

/-- What the consumer does. -/
inductive Consumer (α : Type*)
  | idle
  /-- It has called, and taken nothing. -/
  | called
  /-- It has taken a batch, of which so many slots are still occupied. -/
  | took (batch : List α) (held : ℕ)

namespace Consumer

variable {α : Type*}

/-- The batch on its way out. -/
def batch : Consumer α → List α
  | .took batch _ => batch
  | _ => []

/-- The slots that the batch occupies. -/
def held : Consumer α → ℕ
  | .took _ held => held
  | _ => 0

end Consumer

/-- A queue that is emptied in batches, with its history. -/
structure BatchQueue (ι α : Type*) where
  /-- The accepted calls whose entries wait. -/
  waiting : List (Call ι α)
  consumer : Consumer α
  stage : ι → Call.Stage α
  args : ι → List α
  /-- History: the accepted calls. -/
  accepted : List (Call ι α)
  /-- History: the calls that returned: thread, number and result. -/
  returns : List (ι × ℕ × Bool)
  /-- History: the batches that were handed over, concatenated. -/
  handed : List α

namespace BatchQueue

variable {ι α : Type*}

/-- Nothing has happened. -/
def init (ι α : Type*) : BatchQueue ι α where
  waiting := []
  consumer := .idle
  stage _ := .outside
  args _ := []
  accepted := []
  returns := []
  handed := []

/-- An operation. -/
inductive Act (ι α : Type*)
  /-- A thread calls to push an entry. -/
  | call (i : ι) (e : α)
  | accept (i : ι)
  | refuse (i : ι)
  /-- A push returns. -/
  | finish (i : ι)
  /-- The consumer calls. -/
  | pop
  | take
  /-- The slots of the batch are free again. -/
  | release
  /-- The consumer has its batch. -/
  | hand

variable [DecidableEq ι]

/-- The number of the call that a thread is in. -/
def number (q : BatchQueue ι α) (i : ι) : ℕ := (q.args i).length - 1

/-- One operation on a queue of `cap` slots. -/
def next (cap : ℕ) (q : BatchQueue ι α) : Act ι α → Option (BatchQueue ι α)
  | .call i e =>
    match q.stage i with
    | .outside => some { q with
        stage := update q.stage i (.undecided e), args := update q.args i (q.args i ++ [e]) }
    | _ => none
  | .accept i =>
    match q.stage i with
    | .undecided e =>
      if q.waiting.length + q.consumer.held < cap then some { q with
        waiting := q.waiting ++ [⟨i, q.number i, e⟩]
        accepted := q.accepted ++ [⟨i, q.number i, e⟩]
        stage := update q.stage i (.decided true) }
      else none
    | _ => none
  | .refuse i =>
    match q.stage i with
    | .undecided _ => some { q with stage := update q.stage i (.decided false) }
    | _ => none
  | .finish i =>
    match q.stage i with
    | .decided ok => some { q with
        returns := q.returns ++ [(i, q.number i, ok)], stage := update q.stage i .outside }
    | _ => none
  | .pop =>
    match q.consumer with
    | .idle => some { q with consumer := .called }
    | _ => none
  | .take =>
    match q.consumer with
    | .called => some { q with
        consumer := .took (q.waiting.map Call.entry) q.waiting.length, waiting := [] }
    | _ => none
  | .release =>
    match q.consumer with
    | .took batch _ => some { q with consumer := .took batch 0 }
    | _ => none
  | .hand =>
    match q.consumer with
    | .took batch 0 => some { q with consumer := .idle, handed := q.handed ++ batch }
    | _ => none

/-! ### What one operation does -/

variable {cap : ℕ} {q q' : BatchQueue ι α} {i : ι}

/-- **The kinds of operations**, with what each needs. -/
inductive Step (cap : ℕ) (q : BatchQueue ι α) : Act ι α → BatchQueue ι α → Prop
  | call {i : ι} {e : α} (h : q.stage i = .outside) : Step cap q (.call i e) { q with
      stage := update q.stage i (.undecided e), args := update q.args i (q.args i ++ [e]) }
  | accept {i : ι} {e : α} (h : q.stage i = .undecided e)
      (hroom : q.waiting.length + q.consumer.held < cap) : Step cap q (.accept i) { q with
        waiting := q.waiting ++ [⟨i, q.number i, e⟩]
        accepted := q.accepted ++ [⟨i, q.number i, e⟩]
        stage := update q.stage i (.decided true) }
  | refuse {i : ι} {e : α} (h : q.stage i = .undecided e) : Step cap q (.refuse i) { q with
      stage := update q.stage i (.decided false) }
  | finish {i : ι} {ok : Bool} (h : q.stage i = .decided ok) : Step cap q (.finish i) { q with
      returns := q.returns ++ [(i, q.number i, ok)], stage := update q.stage i .outside }
  | pop (h : q.consumer = .idle) : Step cap q .pop { q with consumer := .called }
  | take (h : q.consumer = .called) : Step cap q .take { q with
      consumer := .took (q.waiting.map Call.entry) q.waiting.length, waiting := [] }
  | release {batch : List α} {held : ℕ} (h : q.consumer = .took batch held) :
      Step cap q .release { q with consumer := .took batch 0 }
  | hand {batch : List α} (h : q.consumer = .took batch 0) : Step cap q .hand { q with
      consumer := .idle, handed := q.handed ++ batch }

theorem step_of_next {a : Act ι α} (h : next cap q a = some q') : Step cap q a q' := by
  cases a with
  | accept i =>
    simp only [next] at h
    split at h
    · next e hstage =>
      split at h
      · next hroom => exact Option.some.inj h ▸ .accept hstage hroom
      · contradiction
    · contradiction
  | call i e | refuse i | finish i | pop | take | release | hand =>
    simp only [next] at h
    split at h
    · next heq => exact Option.some.inj h ▸ by constructor; exact heq
    · contradiction

theorem next_of_step {a : Act ι α} (h : Step cap q a q') : next cap q a = some q' := by
  cases h with
  | accept h hroom => simp only [next, h, if_pos hroom]
  | _ h => simp only [next, h]

/-! ### Every run is sound -/

omit [DecidableEq ι] in
/-- **Soundness**: the entries that wait and the batch fit in the slots, and what was
handed over, the batch and what waits are the accepted entries, in the order in which
they were accepted. -/
structure Sound (cap : ℕ) (q : BatchQueue ι α) : Prop where
  fits : q.waiting.length + q.consumer.held ≤ cap
  kept : q.handed ++ q.consumer.batch ++ q.waiting.map Call.entry = q.accepted.map Call.entry

omit [DecidableEq ι] in
theorem sound_init (cap : ℕ) : Sound cap (init ι α) := ⟨Nat.zero_le cap, rfl⟩

theorem Step.sound {a : Act ι α} (hstep : Step cap q a q') (h : Sound cap q) : Sound cap q' := by
  have hfits := h.fits
  have hkept := h.kept
  cases hstep with
  | call | refuse | finish => exact ⟨hfits, hkept⟩
  | accept _ hroom =>
    refine ⟨?_, ?_⟩
    · show (q.waiting ++ [_]).length + q.consumer.held ≤ cap
      rw [List.length_append, List.length_singleton]
      omega
    · show q.handed ++ q.consumer.batch ++ (q.waiting ++ [_]).map Call.entry =
        (q.accepted ++ [_]).map Call.entry
      rw [List.map_append, List.map_append, ← hkept, List.append_assoc (_ ++ _)]
  | pop hidle =>
    rw [hidle] at hfits hkept
    exact ⟨hfits, hkept⟩
  | take hcalled =>
    -- what waited becomes the batch
    rw [hcalled] at hfits hkept
    refine ⟨?_, ?_⟩
    · show 0 + q.waiting.length ≤ cap
      rw [Nat.zero_add]
      exact hfits
    · show q.handed ++ q.waiting.map Call.entry ++ [] = q.accepted.map Call.entry
      rw [List.append_nil, ← hkept]
      exact congrArg (· ++ _) (List.append_nil _).symm
  | release htook =>
    rw [htook] at hfits hkept
    exact ⟨Nat.le_trans (Nat.le_add_right _ _) hfits, hkept⟩
  | hand htook =>
    rw [htook] at hfits hkept
    refine ⟨hfits, ?_⟩
    show q.handed ++ _ ++ [] ++ _ = _
    rw [List.append_nil]
    exact hkept

/-- **Every run is sound.** -/
theorem sound_of_reachable {ok : BatchQueue ι α → Act ι α → Prop}
    (hq : Reachable (next cap) ok (init ι α) q) : Sound cap q :=
  hq.invariant (sound_init cap) fun _ _ _ _ h _ hnext => (step_of_next hnext).sound h

/-- **A batch is all that waits** when it is taken, and stays what it is until it is
handed over. -/
theorem took_of_next {a : Act ι α} (h : next cap q a = some q') {batch : List α} {held : ℕ}
    (htook : q'.consumer = .took batch held) :
    (∃ held', q.consumer = .took batch held') ∨ q'.waiting = [] := by
  cases step_of_next h with
  | call | accept | refuse | finish => exact Or.inl ⟨held, htook⟩
  | take _ => exact Or.inr rfl
  | release hold =>
    obtain ⟨rfl, -⟩ := Consumer.took.inj htook
    exact Or.inl ⟨_, hold⟩
  | pop | hand => contradiction

end BatchQueue
