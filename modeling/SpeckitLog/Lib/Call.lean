import Mathlib.Data.List.Nodup
import Mathlib.Logic.Function.Basic
import Mathlib.Tactic.Common

/-!
# Calls on a shared object

The calls of one method are told apart by the calling thread and the number of
the call among that thread's calls.  A list of calls is `InCallOrder` when the
calls of each thread stand in it in the order in which the thread made them,
which also says that no call stands in it twice.

An object that hands out *tickets* to some of the calls and refuses the others
has a history: the arguments of the calls, the calls that won a ticket, and the
calls that returned.  `CallHistory` says what the history records, whatever the
object does in between; it is kept when a call starts, wins its ticket, is
refused and returns.
-/

/-- One call: by whom, its number among the thread's calls, and its argument. -/
structure Call (ι α : Type*) where
  thread : ι
  number : ℕ
  entry : α
  deriving DecidableEq

namespace Call

variable {ι α : Type*}

theorem eq_of_fields {a b : Call ι α} (hthread : a.thread = b.thread)
    (hnumber : a.number = b.number) (hentry : a.entry = b.entry) : a = b := by
  cases a
  cases b
  obtain rfl := hthread
  obtain rfl := hnumber
  obtain rfl := hentry
  rfl

/-- What stands in a history keeps its place when a call is added. -/
theorem getElem?_concat_of_some {l : List α} {x y : α} {t : ℕ} (h : l[t]? = some x) :
    (l ++ [y])[t]? = some x := by
  rw [List.getElem?_append_left (List.getElem?_eq_some_iff.mp h).1, h]

/-- What stands in a history stood there before the last call was added, or is that call. -/
theorem some_of_getElem?_concat {l : List α} {x y : α} {t : ℕ} (h : (l ++ [y])[t]? = some x) :
    l[t]? = some x ∨ (t = l.length ∧ x = y) := by
  have hlt := (List.getElem?_eq_some_iff.mp h).1
  rw [List.length_append, List.length_singleton] at hlt
  rcases Nat.lt_or_eq_of_le (Nat.le_of_lt_succ hlt) with hlt | rfl
  · rw [List.getElem?_append_left hlt] at h
    exact Or.inl h
  · rw [List.getElem?_concat_length] at h
    exact Or.inr ⟨rfl, (Option.some.inj h).symm⟩

/-- The calls of each thread stand in the order of their numbers. -/
def InCallOrder (l : List (Call ι α)) : Prop :=
  l.Pairwise fun a b => a.thread = b.thread → a.number < b.number

theorem inCallOrder_nil : InCallOrder ([] : List (Call ι α)) := List.Pairwise.nil

/-- No call in `l` is later than one of the same thread in `l'`. -/
def Before (l l' : List (Call ι α)) : Prop :=
  ∀ a ∈ l, ∀ b ∈ l', a.thread = b.thread → a.number < b.number

theorem inCallOrder_append {l l' : List (Call ι α)} :
    InCallOrder (l ++ l') ↔ InCallOrder l ∧ InCallOrder l' ∧ Before l l' :=
  List.pairwise_append

theorem before_append_left {l l' k : List (Call ι α)} :
    Before (l ++ l') k ↔ Before l k ∧ Before l' k := by
  simp only [Before, List.mem_append, or_imp, forall_and]

theorem before_append_right {l k k' : List (Call ι α)} :
    Before l (k ++ k') ↔ Before l k ∧ Before l k' := by
  simp only [Before, List.mem_append, or_imp, forall_and]

theorem before_of_ne {l l' : List (Call ι α)} (h : ∀ a ∈ l, ∀ b ∈ l', a.thread ≠ b.thread) :
    Before l l' := fun a ha b hb hab => absurd hab (h a ha b hb)

theorem InCallOrder.nodup {l : List (Call ι α)} (h : InCallOrder l) : l.Nodup :=
  List.Pairwise.imp (fun hab he => absurd (hab (by rw [he])) (by simp [he])) h

/-- A history grows by a call numbered past all others of its thread. -/
theorem InCallOrder.concat {l : List (Call ι α)} (h : InCallOrder l) {c : Call ι α}
    (hc : ∀ a ∈ l, a.thread = c.thread → a.number < c.number) : InCallOrder (l ++ [c]) := by
  refine List.pairwise_append.mpr ⟨h, List.pairwise_singleton _ _, ?_⟩
  intro a ha b hb
  rw [List.mem_singleton.mp hb]
  exact hc a ha

/-- In a history in call order, a call is found at one position only. -/
theorem InCallOrder.getElem?_inj {l : List (Call ι α)} (h : InCallOrder l) {t u : ℕ}
    {c d : Call ι α} (ht : l[t]? = some c) (hu : l[u]? = some d)
    (hthread : c.thread = d.thread) (hnumber : c.number = d.number) : t = u := by
  obtain ⟨ht', rfl⟩ := List.getElem?_eq_some_iff.mp ht
  obtain ⟨hu', rfl⟩ := List.getElem?_eq_some_iff.mp hu
  have hp := List.pairwise_iff_getElem.mp h
  rcases Nat.lt_trichotomy t u with hlt | heq | hgt
  · have := hp t u ht' hu' hlt hthread
    omega
  · exact heq
  · have := hp u t hu' ht' hgt hthread.symm
    omega

/-- The arguments of the first `k` calls. -/
def entries (l : List (Call ι α)) (k : ℕ) : List α := (l.take k).map Call.entry

theorem entries_concat {l : List (Call ι α)} {c : Call ι α} {k : ℕ} (h : k ≤ l.length) :
    entries (l ++ [c]) k = entries l k := by
  unfold entries
  rw [List.take_append_of_le_length h]

theorem entries_succ {l : List (Call ι α)} {k : ℕ} {c : Call ι α} (h : l[k]? = some c) :
    entries l (k + 1) = entries l k ++ [c.entry] := by
  simp [entries, List.take_add_one, h]

theorem length_entries {l : List (Call ι α)} {k : ℕ} (h : k ≤ l.length) :
    (entries l k).length = k := by
  simp [entries, Nat.min_eq_left h]

theorem entries_sublist (l : List (Call ι α)) (k : ℕ) :
    (entries l k).Sublist (l.map Call.entry) :=
  (List.take_sublist k l).map Call.entry

theorem mem_entries {l : List (Call ι α)} {k t : ℕ} {c : Call ι α} (hc : l[t]? = some c)
    (ht : t < k) : c.entry ∈ entries l k := by
  refine List.mem_map_of_mem (List.mem_of_getElem? (i := t) ?_)
  rw [List.getElem?_take_of_lt ht, hc]

/-- When no argument occurs twice, that of a later call is not among the first. -/
theorem not_mem_entries {l : List (Call ι α)} (h : (l.map Call.entry).Nodup) {k t : ℕ}
    {c : Call ι α} (hc : l[t]? = some c) (ht : k ≤ t) : c.entry ∉ entries l k := by
  intro hmem
  obtain ⟨n, hn⟩ := List.mem_iff_getElem?.mp hmem
  have hlt : n < k := by
    have := (List.getElem?_eq_some_iff.mp hn).1
    simp only [entries, List.length_map, List.length_take] at this
    omega
  have hn' : (l.map Call.entry)[n]? = some c.entry := by
    rw [← hn, entries, List.map_take, List.getElem?_take_of_lt hlt]
  have ht' : (l.map Call.entry)[t]? = some c.entry := by rw [List.getElem?_map, hc]; rfl
  have := (List.getElem?_inj (List.getElem?_eq_some_iff.mp hn').1 h).mp (hn'.trans ht'.symm)
  omega

/-- How far a call has come. -/
inductive Stage (α : Type*)
  /-- The thread is not in the method. -/
  | outside
  /-- The call with this argument has not been decided. -/
  | undecided (entry : α)
  /-- The call won a ticket, or was refused. -/
  | decided (ok : Bool)

/-- What the history says of the call a thread is in. -/
def Stage.Ok (args : List α) (tickets : List (Call ι α)) (i : ι) : Stage α → Prop
  | .outside => True
  | .undecided e => args.getLast? = some e ∧
      ∀ a ∈ tickets, a.thread = i → a.number < args.length - 1
  | .decided false => args ≠ [] ∧ ∀ a ∈ tickets, a.thread = i → a.number < args.length - 1
  | .decided true => args ≠ [] ∧ ∃ a ∈ tickets, a.thread = i ∧ a.number = args.length - 1

theorem Stage.Ok.refuse {args : List α} {tickets : List (Call ι α)} {i : ι} {e : α}
    (h : Stage.Ok args tickets i (.undecided e)) : Stage.Ok args tickets i (.decided false) :=
  ⟨by rintro rfl; exact absurd h.1 (by simp), h.2⟩

/-- A ticket won by another thread does not matter. -/
theorem Stage.Ok.concat {args : List α} {tickets : List (Call ι α)} {i : ι} {c : Call ι α}
    {st : Stage α} (h : st.Ok args tickets i) (hc : c.thread ≠ i) :
    st.Ok args (tickets ++ [c]) i := by
  have hother : (∀ a ∈ tickets, a.thread = i → a.number < args.length - 1) →
      ∀ a ∈ tickets ++ [c], a.thread = i → a.number < args.length - 1 := by
    intro hall a ha hai
    rcases List.mem_append.mp ha with ha | ha
    · exact hall a ha hai
    · rw [List.mem_singleton.mp ha] at hai
      exact absurd hai hc
  match st, h with
  | .outside, _ => trivial
  | .undecided e, h => exact ⟨h.1, hother h.2⟩
  | .decided false, h => exact ⟨h.1, hother h.2⟩
  | .decided true, ⟨hne, a, ha, hrest⟩ => exact ⟨hne, a, List.mem_append_left _ ha, hrest⟩

end Call

/-- **What the history of a ticket object records.**  `args i` are the arguments
of the calls of thread `i`, `tickets` the calls that won a ticket, `returns` the
calls that returned with their results, and `stage i` the stage of the call that
thread `i` is in. -/
structure CallHistory {ι α : Type*} (args : ι → List α) (tickets : List (Call ι α))
    (returns : List (ι × ℕ × Bool)) (stage : ι → Call.Stage α) : Prop where
  ordered : Call.InCallOrder tickets
  unaltered : ∀ a ∈ tickets, (args a.thread)[a.number]? = some a.entry
  running : ∀ i, (stage i).Ok (args i) tickets i
  accepted : ∀ i n, (i, n, true) ∈ returns → ∃ a ∈ tickets, a.thread = i ∧ a.number = n
  refused : ∀ i n, (i, n, false) ∈ returns → ∀ a ∈ tickets, a.thread = i → a.number ≠ n
  past : ∀ i n b, (i, n, b) ∈ returns →
    n < (args i).length ∧ (stage i ≠ .outside → n < (args i).length - 1)
  settled : ∀ a ∈ tickets, (a.thread, a.number, true) ∈ returns ∨
    (stage a.thread = .decided true ∧ a.number = (args a.thread).length - 1)

namespace CallHistory

open Function

variable {ι α : Type*} {args : ι → List α} {tickets : List (Call ι α)}
  {returns : List (ι × ℕ × Bool)} {stage stage' : ι → Call.Stage α} {i : ι}

theorem init : CallHistory (fun _ : ι => ([] : List α)) [] [] (fun _ => .outside) where
  ordered := Call.inCallOrder_nil
  unaltered a h := by simp at h
  running _ := trivial
  accepted i n h := by simp at h
  refused i n h := by simp at h
  past i n b h := by simp at h
  settled a h := by simp at h

/-- A step of thread `i` that is consistent with the history so far. -/
theorem move (h : CallHistory args tickets returns stage)
    (hother : ∀ j, j ≠ i → stage' j = stage j) (hok : (stage' i).Ok (args i) tickets i)
    (hin : stage' i ≠ .outside → stage i ≠ .outside)
    (hwon : stage i = .decided true → stage' i = .decided true) :
    CallHistory args tickets returns stage' where
  ordered := h.ordered
  unaltered := h.unaltered
  running j := by
    by_cases hji : j = i
    · rw [hji]; exact hok
    · rw [hother j hji]; exact h.running j
  accepted := h.accepted
  refused := h.refused
  past j n b hr := by
    obtain ⟨hlt, hrun⟩ := h.past j n b hr
    refine ⟨hlt, fun hs => hrun ?_⟩
    by_cases hji : j = i
    · rw [hji] at hs ⊢; exact hin hs
    · rwa [hother j hji] at hs
  settled a ha := by
    refine (h.settled a ha).imp_right fun hrun => ⟨?_, hrun.2⟩
    by_cases hai : a.thread = i
    · rw [hai] at hrun ⊢; exact hwon hrun.1
    · rw [hother _ hai]; exact hrun.1

/-- A call is refused. -/
theorem refuse (h : CallHistory args tickets returns stage) {e : α}
    (hi : stage i = .undecided e) (hother : ∀ j, j ≠ i → stage' j = stage j)
    (hi' : stage' i = .decided false) : CallHistory args tickets returns stage' := by
  refine h.move hother ?_ (fun _ => by simp [hi]) (fun hwon => by simp [hi] at hwon)
  have hrun := h.running i
  rw [hi] at hrun
  rw [hi']
  exact hrun.refuse

/-- Thread `i` starts a call. -/
theorem start [DecidableEq ι] (h : CallHistory args tickets returns stage) (e : α)
    (hi : stage i = .outside) (hother : ∀ j, j ≠ i → stage' j = stage j)
    (hi' : stage' i = .undecided e) :
    CallHistory (update args i (args i ++ [e])) tickets returns stage' := by
  have hlt : ∀ a ∈ tickets, a.number < (args a.thread).length := fun a ha =>
    (List.getElem?_eq_some_iff.mp (h.unaltered a ha)).1
  refine ⟨h.ordered, ?_, ?_, h.accepted, h.refused, ?_, ?_⟩
  · intro a ha
    by_cases hai : a.thread = i
    · rw [hai, update_self]
      refine Call.getElem?_concat_of_some ?_
      rw [← hai, h.unaltered a ha]
    · rw [update_of_ne hai, h.unaltered a ha]
  · intro j
    by_cases hji : j = i
    · subst hji
      rw [update_self, hi']
      refine ⟨by simp, fun a ha hai => ?_⟩
      have := hlt a ha
      rw [hai] at this
      simpa using this
    · rw [update_of_ne hji, hother j hji]
      exact h.running j
  · intro j n b hr
    obtain ⟨hn, hrun⟩ := h.past j n b hr
    by_cases hji : j = i
    · subst hji
      rw [update_self, List.length_append, List.length_singleton]
      exact ⟨by omega, fun _ => by omega⟩
    · rw [update_of_ne hji, hother j hji]
      exact ⟨hn, hrun⟩
  · intro a ha
    by_cases hai : a.thread = i
    · refine (h.settled a ha).imp_right fun hrun => ?_
      rw [hai, hi] at hrun
      exact absurd hrun.1 (by simp)
    · rw [update_of_ne hai, hother _ hai]
      exact h.settled a ha

/-- The call of thread `i` wins a ticket. -/
theorem win (h : CallHistory args tickets returns stage) {e : α} (hi : stage i = .undecided e)
    (hother : ∀ j, j ≠ i → stage' j = stage j) (hi' : stage' i = .decided true) :
    CallHistory args (tickets ++ [⟨i, (args i).length - 1, e⟩]) returns stage' := by
  have hrun := h.running i
  rw [hi] at hrun
  obtain ⟨hlast, hnum⟩ := hrun
  have hne : args i ≠ [] := by rintro hnil; simp [hnil] at hlast
  refine ⟨h.ordered.concat fun a ha hai => hnum a ha hai, ?_, ?_, ?_, ?_, ?_, ?_⟩
  · intro a ha
    rcases List.mem_append.mp ha with ha | ha
    · exact h.unaltered a ha
    · rw [List.mem_singleton.mp ha]
      show (args i)[(args i).length - 1]? = some e
      rw [← hlast, List.getLast?_eq_getElem?]
  · intro j
    by_cases hji : j = i
    · subst hji
      rw [hi']
      exact ⟨hne, _, List.mem_append_right _ (List.mem_singleton_self _), rfl, rfl⟩
    · rw [hother j hji]
      exact (h.running j).concat (fun hij => hji hij.symm)
  · intro j n hr
    obtain ⟨a, ha, hrest⟩ := h.accepted j n hr
    exact ⟨a, List.mem_append_left _ ha, hrest⟩
  · -- a call of thread `i` that was refused is not the one that wins now
    intro j n hr a ha haj
    rcases List.mem_append.mp ha with ha | ha
    · exact h.refused j n hr a ha haj
    · rw [List.mem_singleton.mp ha] at haj ⊢
      have hji : i = j := haj
      obtain ⟨-, hlt⟩ := h.past j n false hr
      rw [← hji, hi] at hlt
      exact Nat.ne_of_gt (hlt (by simp))
  · intro j n b hr
    obtain ⟨hn, hlt⟩ := h.past j n b hr
    refine ⟨hn, fun hs => hlt ?_⟩
    by_cases hji : j = i
    · rw [hji, hi]; simp
    · rwa [hother j hji] at hs
  · intro a ha
    rcases List.mem_append.mp ha with ha | ha
    · refine (h.settled a ha).imp_right fun hrun => ?_
      have hai : a.thread ≠ i := by
        intro hai
        rw [hai, hi] at hrun
        exact absurd hrun.1 (by simp)
      rwa [hother _ hai]
    · rw [List.mem_singleton.mp ha]
      exact Or.inr ⟨hi', rfl⟩

/-- The call of thread `i` returns what was decided. -/
theorem finish (h : CallHistory args tickets returns stage) {b : Bool}
    (hi : stage i = .decided b) (hother : ∀ j, j ≠ i → stage' j = stage j)
    (hi' : stage' i = .outside) :
    CallHistory args tickets (returns ++ [(i, (args i).length - 1, b)]) stage' := by
  have hrun := h.running i
  rw [hi] at hrun
  have hne : args i ≠ [] := by cases b <;> exact hrun.1
  have hpos : 0 < (args i).length := List.length_pos_iff.mpr hne
  refine ⟨h.ordered, h.unaltered, ?_, ?_, ?_, ?_, ?_⟩
  · intro j
    by_cases hji : j = i
    · rw [hji, hi']; trivial
    · rw [hother j hji]; exact h.running j
  · intro j n hr
    rcases List.mem_append.mp hr with hr | hr
    · exact h.accepted j n hr
    · obtain ⟨rfl, rfl, rfl⟩ : j = i ∧ n = (args i).length - 1 ∧ true = b := by simpa using hr
      exact hrun.2
  · intro j n hr
    rcases List.mem_append.mp hr with hr | hr
    · exact h.refused j n hr
    · obtain ⟨rfl, rfl, rfl⟩ : j = i ∧ n = (args i).length - 1 ∧ false = b := by simpa using hr
      exact fun a ha haj => Nat.ne_of_lt (hrun.2 a ha haj)
  · intro j n b' hr
    by_cases hji : j = i
    · subst hji
      refine ⟨?_, fun hs => absurd hi' hs⟩
      rcases List.mem_append.mp hr with hr | hr
      · exact (h.past j n b' hr).1
      · obtain ⟨-, rfl, -⟩ : j = j ∧ n = (args j).length - 1 ∧ b' = b := by simpa using hr
        omega
    · rw [hother j hji]
      rcases List.mem_append.mp hr with hr | hr
      · exact h.past j n b' hr
      · exact absurd (by simpa using hr : j = i ∧ _).1 hji
  · intro a ha
    by_cases hai : a.thread = i
    · left
      rcases h.settled a ha with hr | ⟨hst, hnum⟩
      · exact List.mem_append_left _ hr
      · rw [hai, hi] at hst
        obtain rfl : b = true := by simpa using hst
        refine List.mem_append_right _ ?_
        rw [hai, hnum, hai]
        exact List.mem_singleton_self _
    · rw [hother _ hai]
      exact (h.settled a ha).imp_left fun hr => List.mem_append_left _ hr

end CallHistory
