import Mathlib.Data.List.Nodup

/-!
# Adding under a name

A list of named values, to which a value is added: it goes to the end, or in the
place of the value that had its name.

## Main definitions

* `overwrite`, `overwriteAll` — adding a value under a name, or several.

## Main results

* `mem_overwrite`, `map_fst_overwrite` — the values and the names after it.
* `mem_overwriteAll`, `nodup_overwriteAll` — what is added is there, each name once.
-/

variable {κ α : Type*} [DecidableEq κ] {k : κ} {x : α} {l : List (κ × α)}

/-- `x` is added under the name `k`; what had that name is replaced. -/
def overwrite (k : κ) (x : α) (l : List (κ × α)) : List (κ × α) :=
  if k ∈ l.map Prod.fst then l.map fun e => if e.1 = k then (k, x) else e else l ++ [(k, x)]

/-- Replacing keeps the names. -/
theorem map_fst_replace (k : κ) (x : α) (l : List (κ × α)) :
    (l.map fun e => if e.1 = k then (k, x) else e).map Prod.fst = l.map Prod.fst := by
  rw [List.map_map]
  refine List.map_congr_left fun e _ => ?_
  by_cases he : e.1 = k
  · simp [he]
  · simp [he]

theorem map_fst_overwrite (k : κ) (x : α) (l : List (κ × α)) :
    (overwrite k x l).map Prod.fst =
      if k ∈ l.map Prod.fst then l.map Prod.fst else l.map Prod.fst ++ [k] := by
  unfold overwrite
  split
  · exact map_fst_replace k x l
  · rw [List.map_append]
    rfl

/-- No name comes twice. -/
theorem nodup_overwrite (h : (l.map Prod.fst).Nodup) :
    ((overwrite k x l).map Prod.fst).Nodup := by
  rw [map_fst_overwrite]
  split
  · exact h
  · next hk =>
    rw [← List.concat_eq_append]
    exact h.concat hk

theorem mem_overwrite {e : κ × α} :
    e ∈ overwrite k x l ↔ e = (k, x) ∨ e ∈ l ∧ e.1 ≠ k := by
  unfold overwrite
  split
  · next hk =>
    obtain ⟨d, hd, rfl⟩ := List.mem_map.mp hk
    rw [List.mem_map]
    constructor
    · rintro ⟨c, hc, rfl⟩
      by_cases hcd : c.1 = d.1
      · exact Or.inl (if_pos hcd)
      · rw [if_neg hcd]
        exact Or.inr ⟨hc, hcd⟩
    · rintro (rfl | ⟨he, hne⟩)
      · exact ⟨d, hd, if_pos rfl⟩
      · exact ⟨e, he, if_neg hne⟩
  · next hk =>
    rw [List.mem_append, List.mem_singleton, or_comm]
    refine or_congr_right (iff_self_and.mpr fun he => ?_)
    rintro rfl
    exact hk (List.mem_map_of_mem he)

/-- Several values are added in order. -/
def overwriteAll (xs l : List (κ × α)) : List (κ × α) :=
  xs.foldl (fun l x => overwrite x.1 x.2 l) l

theorem nodup_overwriteAll (xs : List (κ × α)) (h : (l.map Prod.fst).Nodup) :
    ((overwriteAll xs l).map Prod.fst).Nodup := by
  unfold overwriteAll
  induction xs generalizing l with
  | nil => exact h
  | cons x xs ih => exact ih (nodup_overwrite h)

/-- When no name is added with two values, all that is added is there. -/
theorem mem_overwriteAll {xs : List (κ × α)} {e : κ × α}
    (h : ∀ a ∈ xs, ∀ b ∈ xs, a.1 = b.1 → a = b) :
    e ∈ overwriteAll xs l ↔ e ∈ xs ∨ e ∈ l ∧ e.1 ∉ xs.map Prod.fst := by
  unfold overwriteAll
  induction xs generalizing l with
  | nil => simp
  | cons x xs ih =>
    rw [List.foldl_cons, ih fun a ha b hb =>
      h a (List.mem_cons_of_mem x ha) b (List.mem_cons_of_mem x hb), mem_overwrite]
    rw [List.mem_cons, List.map_cons, List.mem_cons, not_or]
    constructor
    · rintro (he | ⟨rfl | ⟨he, hne⟩, hnot⟩)
      · exact Or.inl (Or.inr he)
      · exact Or.inl (Or.inl rfl)
      · exact Or.inr ⟨he, hne, hnot⟩
    · rintro ((rfl | he) | ⟨he, hne, hnot⟩)
      · by_cases hmem : e.1 ∈ xs.map Prod.fst
        · -- the same value is added once more
          obtain ⟨d, hd, heq⟩ := List.mem_map.mp hmem
          obtain rfl : d = e := h d (List.mem_cons_of_mem e hd) e List.mem_cons_self heq
          exact Or.inl hd
        · exact Or.inr ⟨Or.inl rfl, hmem⟩
      · exact Or.inl he
      · exact Or.inr ⟨Or.inr ⟨he, hne⟩, hnot⟩
