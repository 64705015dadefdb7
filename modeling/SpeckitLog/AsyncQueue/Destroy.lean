import SpeckitLog.AsyncQueue.Linear

/-!
# The destructor of the queue

`~AsyncQueue` goes through the tickets from `head_` to `tail_` and resets the cells that
still have an entry.  Once every call has returned, these are the entries that nobody has
popped, and no other cell has one.

## Main definitions

* `State.destroy` — the loop of the destructor.

## Main results

* `destroy_of_idle` — **every accepted entry is returned once or destroyed once.**
-/

namespace SpeckitLog
namespace AsyncQueue

open Function Transition Call

variable {ι α : Type*} {cap : ℕ}

/-- The loop of `~AsyncQueue` from round `i` on, with `n` rounds to go: the entries that
are destroyed, and the cells after it. -/
def destroyLoop (cap head : ℕ) : ℕ → ℕ → (ℕ → Cell α) → List α × (ℕ → Cell α)
  | _, 0, buffer => ([], buffer)
  | i, n + 1, buffer =>
    let pos := wrap (head + i) % cap
    match (buffer pos).storage with
    | some e =>
      let r := destroyLoop cap head (i + 1) n
        (update buffer pos { buffer pos with storage := none })
      (e :: r.1, r.2)
    | none => destroyLoop cap head (i + 1) n buffer

/-- `~AsyncQueue`. -/
def State.destroy (s : State ι α) (cap : ℕ) : List α × (ℕ → Cell α) :=
  let available := if s.head ≤ s.tail then s.tail - s.head else 0
  destroyLoop cap s.head 0 available s.buffer

theorem destroyLoop_of_some {head i n : ℕ} {buffer : ℕ → Cell α} {e : α}
    (h : (buffer (wrap (head + i) % cap)).storage = some e) :
    destroyLoop cap head i (n + 1) buffer =
      (e :: (destroyLoop cap head (i + 1) n (update buffer (wrap (head + i) % cap)
          { buffer (wrap (head + i) % cap) with storage := none })).1,
        (destroyLoop cap head (i + 1) n (update buffer (wrap (head + i) % cap)
          { buffer (wrap (head + i) % cap) with storage := none })).2) := by
  simp only [destroyLoop, h]

/-- **The loop destroys what the cells of its tickets hold**, and leaves the other cells. -/
theorem destroyLoop_eq {head : ℕ} (es : List α) :
    ∀ (i : ℕ) (buffer : ℕ → Cell α), i + es.length ≤ cap → head + i + es.length < sizeModulus →
      (∀ j e, es[j]? = some e → (buffer ((head + i + j) % cap)).storage = some e) →
      (destroyLoop cap head i es.length buffer).1 = es ∧
        ∀ k, ((destroyLoop cap head i es.length buffer).2 k).storage = none ∨
          ((destroyLoop cap head i es.length buffer).2 k).storage = (buffer k).storage ∧
            ∀ j < es.length, (head + i + j) % cap ≠ k := by
  induction es with
  | nil => exact fun i buffer _ _ _ => ⟨rfl, fun k => Or.inr ⟨rfl, fun j hj => nomatch hj⟩⟩
  | cons e es ih =>
    intro i buffer hcap hlt hcells
    rw [List.length_cons] at *
    have hwrap : wrap (head + i) = head + i := wrap_of_lt (by omega)
    have hfirst : (buffer (wrap (head + i) % cap)).storage = some e := by
      rw [hwrap]
      exact hcells 0 e rfl
    rw [destroyLoop_of_some hfirst, hwrap]
    -- the later tickets have other cells
    have hrest : ∀ j e', es[j]? = some e' →
        (update buffer ((head + i) % cap) { buffer ((head + i) % cap) with storage := none }
          ((head + (i + 1) + j) % cap)).storage = some e' := by
      intro j e' hj
      have hjlen := (List.getElem?_eq_some_iff.mp hj).1
      rw [update_of_ne]
      · rw [show head + (i + 1) + j = head + i + (j + 1) by omega]
        exact hcells (j + 1) e' hj
      · intro heq
        rw [show head + (i + 1) + j = head + i + (j + 1) by omega] at heq
        have hge : head + i ≤ head + i + (j + 1) := Nat.le_add_right ..
        have hlt : head + i + (j + 1) < head + i + cap := by omega
        have := eq_of_mod_eq_of_window hge hlt le_rfl (by omega) heq
        omega
    obtain ⟨hes, hstorage⟩ := ih (i + 1) _ (by omega) (by omega) hrest
    refine ⟨congrArg (e :: ·) hes, fun k => ?_⟩
    rcases hstorage k with hnone | ⟨hsame, hother⟩
    · exact Or.inl hnone
    · by_cases hk : k = (head + i) % cap
      · rw [hk, update_self] at hsame
        exact Or.inl (hk ▸ hsame)
      · rw [update_of_ne hk] at hsame
        refine Or.inr ⟨hsame, fun j hj => ?_⟩
        cases j with
        | zero => exact Ne.symm hk
        | succ j =>
          rw [show head + i + (j + 1) = head + (i + 1) + j by omega]
          exact hother j (by omega)

/-- Every slot belongs to one of `cap` consecutive tickets. -/
theorem exists_window_mod_eq (lo : ℕ) {k : ℕ} (hk : k < cap) :
    ∃ t, lo ≤ t ∧ t < lo + cap ∧ t % cap = k := by
  have hlo := Nat.mod_lt lo (Nat.zero_lt_of_lt hk)
  refine ⟨lo + (k + (cap - lo % cap)) % cap, Nat.le_add_right _ _,
    Nat.add_lt_add_left (Nat.mod_lt _ (Nat.zero_lt_of_lt hk)) lo, ?_⟩
  have hsum : lo % cap + (k + (cap - lo % cap)) = k + cap := by omega
  rw [Nat.add_mod_mod, ← Nat.mod_add_mod, hsum, Nat.add_mod_right, Nat.mod_eq_of_lt hk]

section Rest

variable {c : ι} {s : State ι α}

/-- At rest, the cell of a ticket that was not popped holds its entry, and the cells of the
tickets to come are empty. -/
theorem Inv.storage_of_idle {ph : ℕ → Phase} {drainer : Option ι} (h : Inv cap s ph drainer)
    (hidle : ∀ i, s.pc i = .idle) {t : ℕ} (ht : s.head ≤ t) (hlt : t < s.head + cap) :
    (s.buffer (t % cap)).storage = s.tickets[t]?.map Call.entry := by
  have hnone : drainer = none := h.drainer_eq_none fun j hj => by
    rw [hidle j] at hj
    exact hj
  cases hc : s.tickets[t]? with
  | some a =>
    refine (h.waiting hc ht ((h.quiet hnone).1 t ht hlt)).resolve_right fun hold => ?_
    rw [hidle] at hold
    exact hold
  | none =>
    have hfree : ph t = .free := (h.free_iff t ht hlt).mpr (List.getElem?_eq_none_iff.mp hc)
    rw [h.cells t ht hlt, hfree]
    rfl

variable [DecidableEq ι]

/-- **Every accepted entry is returned once or destroyed once**: when every call has
returned, the destructor destroys the entries that were not popped, oldest first, and no
cell is left with one. -/
theorem destroy_of_idle (hs : Reachable (next cap) (SingleConsumer c) (init ι α) s)
    (hlt : s.tickets.length < sizeModulus) (hidle : ∀ i, s.pc i = .idle) :
    s.completed ++ (s.destroy cap).1 = s.tickets.map Call.entry ∧
      ∀ k < cap, ((s.destroy cap).2 k).storage = none := by
  obtain ⟨ph, drainer, h⟩ := inv_of_singleConsumer hs hlt
  have hhead := h.head_le
  have htail := h.tail_eq
  have hcap := h.tail_le
  have hone := oneConsumer_of_reachable hs
  have hcompleted : s.completed = entries s.tickets s.head := by
    have hresult := hone.completed_eq h (by rw [hidle]; exact not_false)
    rw [hidle] at hresult
    exact (List.append_nil _).symm.trans hresult
  -- the loop goes through the tickets that were not popped
  have hcount : ((s.tickets.drop s.head).map Call.entry).length = s.tail - s.head := by
    rw [List.length_map, List.length_drop, htail]
  have hloop : s.destroy cap = destroyLoop cap s.head 0
      ((s.tickets.drop s.head).map Call.entry).length s.buffer := by
    rw [hcount, State.destroy, if_pos (by omega)]
  have hcells : ∀ j e, ((s.tickets.drop s.head).map Call.entry)[j]? = some e →
      (s.buffer ((s.head + 0 + j) % cap)).storage = some e := by
    intro j e hj
    have hjlen := (List.getElem?_eq_some_iff.mp hj).1
    rw [hcount] at hjlen
    rw [List.getElem?_map, List.getElem?_drop] at hj
    rw [Nat.add_zero, h.storage_of_idle hidle (by omega) (by omega), hj]
  obtain ⟨hes, hstorage⟩ := destroyLoop_eq ((s.tickets.drop s.head).map Call.entry) 0 s.buffer
    (by omega) (by omega) hcells
  refine ⟨?_, fun k hk => ?_⟩
  · rw [hloop, hes, hcompleted, entries, ← List.map_append, List.take_append_drop]
  · rw [hloop]
    rcases hstorage k with hnone | ⟨hsame, hother⟩
    · exact hnone
    · -- the cell belongs to a ticket that was popped or destroyed, or to one to come
      obtain ⟨t, ht, htlt, rfl⟩ := exists_window_mod_eq s.head hk
      have hmissing : s.tickets[t]? = none := by
        refine List.getElem?_eq_none_iff.mpr ?_
        by_contra hlen
        refine hother (t - s.head) (by omega) ?_
        rw [Nat.add_zero, Nat.add_sub_cancel' ht]
      rw [hsame, h.storage_of_idle hidle ht htlt, hmissing]
      rfl

/-- One of two entries is popped, and the other destroyed. -/
theorem destroy_of_idle_pushed : ∃ s : State (Fin 2) Char, s.completed = ['a'] ∧
    s.completed ++ (s.destroy 2).1 = ['a', 'b'] ∧
      ∀ k < 2, ((s.destroy 2).2 k).storage = none := by
  obtain ⟨s, hs, hlen, hentries, hcompleted, hidle⟩ := exists_reachable_of_decide (next 2)
    (init (Fin 2) Char) (fun s => s.tickets.length = 2 ∧
      s.tickets.map Call.entry = ['a', 'b'] ∧ s.completed = ['a'] ∧ ∀ i, s.pc i = .idle)
    (SingleConsumer 1) (doing 0 (.push 'a') 8 ++ doing 1 .pop 10 ++ doing 0 (.push 'b') 8)
    (by decide +kernel)
  have hrest := destroy_of_idle hs (by rw [hlen]; decide +kernel) hidle
  rw [hentries] at hrest
  exact ⟨s, hcompleted, hrest⟩

end Rest

end AsyncQueue
end SpeckitLog
