import SpeckitLog.FileManager
import SpeckitLog.Lib.Transition
import Mathlib.Data.List.MinMax

/-!
# The retention loop

`DeleteOldestFiles` takes the file with the lowest number out of its list, and tries to
remove it, until no more than `retention_count_` are left.  Here the loop stands round
by round, for any list, and whatever `fs::remove` answers to each attempt.

## Main definitions

* `DeleteOldest`, `deleteOldestRound` — the loop and one round of it.
* `Retained` — the invariant of the loop.

## Main results

* `findOldestHistoricalFile_le` — the file that a round takes has the lowest number.
* `retention` — **the loop ends, and keeps the newest files.**
* `rounds_deleteOldestFiles` — what it leaves is what `deleteOldestFiles` leaves.
-/

namespace SpeckitLog

/-! ### The file that a round takes -/

/-- A search that goes on to an element only if its key is less finds the first of those
with the least key. -/
theorem foldl_eq_argmin {α β : Type*} [LinearOrder β] (key : α → β) (l : List α) (x : α) :
    some (l.foldl (fun least y => if key y < key least then y else least) x) =
      (x :: l).argmin key := by
  rw [List.argmin, List.foldl_cons]
  show _ = l.foldl _ (some x)
  induction l generalizing x with
  | nil => rfl
  | cons y l ih =>
    rw [List.foldl_cons, List.foldl_cons, ih]
    refine congrArg (l.foldl _) ?_
    simp only [List.argAux]
    split <;> rfl

/-- `FindOldestHistoricalFile` finds a file, if there is one. -/
theorem exists_findOldestHistoricalFile {files : List Text} (h : files ≠ []) :
    ∃ oldest, findOldestHistoricalFile files = some oldest := by
  cases files with
  | nil => exact absurd rfl h
  | cons f l => exact ⟨_, rfl⟩

/-- **`FindOldestHistoricalFile` finds a file with the lowest number.** -/
theorem findOldestHistoricalFile_le {files : List Text} {oldest : Text}
    (h : findOldestHistoricalFile files = some oldest) :
    ∀ f ∈ files, extractSequenceNumber oldest ≤ extractSequenceNumber f := by
  intro f hf
  cases files with
  | nil => exact absurd hf List.not_mem_nil
  | cons g l =>
    refine List.le_of_mem_argmin (f := extractSequenceNumber) hf ?_
    rw [← foldl_eq_argmin]
    exact h

namespace FileManager

open Transition

variable {δ : Type*} [DecidableEq δ] {host : Host δ}

/-! ### The loop -/

/-- The loop of `DeleteOldestFiles` between two rounds. -/
structure DeleteOldest (host : Host δ) where
  historicalFiles : List Text
  world : World host
  /-- History: the names handed to `fs::remove`, and whether they were removed. -/
  attempts : List (Text × Bool)

/-- `fs::remove` and `erase` of one file; `remove` answers an attempt, after those before
it. -/
def DeleteOldest.attempt (s : DeleteOldest host) (remove : List (Text × Bool) → Text → Bool)
    (oldest : Text) : DeleteOldest host where
  historicalFiles := s.historicalFiles.erase oldest
  world :=
    if remove s.attempts oldest then { s.world with fs := s.world.fs.remove (host.locate oldest) }
    else s.world
  attempts := s.attempts ++ [(oldest, remove s.attempts oldest)]

/-- The place of a file that is removed leads nowhere. -/
theorem DeleteOldest.lookup_attempt (s : DeleteOldest host)
    (remove : List (Text × Bool) → Text → Bool) (oldest : Text) (place : host.Place) :
    (s.attempt remove oldest).world.fs.lookup place =
      if remove s.attempts oldest = true ∧ host.locate oldest = place then none
      else s.world.fs.lookup place := by
  simp only [attempt]
  by_cases hremoved : remove s.attempts oldest = true
  · simp only [hremoved, ↓reduceIte, FileSystem.lookup_remove, true_and, eq_comm]
  · simp only [hremoved, Bool.false_eq_true, ↓reduceIte, false_and]

/-- One round of `while (historical_files.size() > retention_count_)`. -/
def deleteOldestRound (retentionCount : ℕ) (remove : List (Text × Bool) → Text → Bool)
    (s : DeleteOldest host) : Option (DeleteOldest host) :=
  if retentionCount < s.historicalFiles.length then
    match findOldestHistoricalFile s.historicalFiles with
    | none => some s
    | some oldest => some (s.attempt remove oldest)
  else none

/-- The loop before its first round. -/
def DeleteOldest.start (files : List Text) (w : World host) : DeleteOldest host := ⟨files, w, []⟩

section Round

variable {retentionCount : ℕ} {remove : List (Text × Bool) → Text → Bool}
  {s s' : DeleteOldest host} {files : List Text} {w : World host}

theorem deleteOldestRound_eq_none :
    deleteOldestRound retentionCount remove s = none ↔
      s.historicalFiles.length ≤ retentionCount := by
  unfold deleteOldestRound
  split
  · next h =>
    refine iff_of_false ?_ (Nat.not_le.mpr h)
    split <;> simp
  · next h => exact iff_of_true rfl (Nat.not_lt.mp h)

/-- **What a round does.**  It hands a file with the lowest number to `fs::remove` and
takes it from the list. -/
theorem deleteOldestRound_eq_some (remove : List (Text × Bool) → Text → Bool)
    (h : retentionCount < s.historicalFiles.length) :
    ∃ oldest ∈ s.historicalFiles,
      (∀ f ∈ s.historicalFiles, extractSequenceNumber oldest ≤ extractSequenceNumber f) ∧
      findOldestHistoricalFile s.historicalFiles = some oldest ∧
      deleteOldestRound retentionCount remove s = some (s.attempt remove oldest) := by
  obtain ⟨oldest, hold⟩ := exists_findOldestHistoricalFile
    (List.ne_nil_of_length_pos (Nat.zero_lt_of_lt h))
  refine ⟨oldest, findOldestHistoricalFile_mem hold, findOldestHistoricalFile_le hold, hold, ?_⟩
  rw [deleteOldestRound, if_pos h, hold]

/-- The same, read off the round. -/
theorem of_deleteOldestRound (h : deleteOldestRound retentionCount remove s = some s') :
    retentionCount < s.historicalFiles.length ∧ ∃ oldest ∈ s.historicalFiles,
      (∀ f ∈ s.historicalFiles, extractSequenceNumber oldest ≤ extractSequenceNumber f) ∧
      findOldestHistoricalFile s.historicalFiles = some oldest ∧
      s' = s.attempt remove oldest := by
  have hlt : retentionCount < s.historicalFiles.length := by
    by_contra hle
    rw [deleteOldestRound_eq_none.mpr (Nat.not_lt.mp hle)] at h
    exact absurd h (by simp)
  obtain ⟨oldest, hmem, hleast, hold, hsome⟩ := deleteOldestRound_eq_some remove hlt
  exact ⟨hlt, oldest, hmem, hleast, hold, Option.some.inj (h.symm.trans hsome)⟩

/-! ### The invariant -/

/-- **The invariant of the loop.**  The list that it began with has been divided into the
names attempted, each as often as it stood there, and those left, in their order; the
former are no newer than the latter, and were attempted the oldest first.  The files
at the places of removed names are gone, and no others. -/
structure Retained (files : List Text) (w : World host) (s : DeleteOldest host) : Prop where
  divided : files.Perm (s.attempts.map Prod.fst ++ s.historicalFiles)
  inOrder : s.historicalFiles.Sublist files
  older : ∀ a ∈ s.attempts, ∀ f ∈ s.historicalFiles,
    extractSequenceNumber a.1 ≤ extractSequenceNumber f
  oldestFirst : s.attempts.Pairwise fun a b =>
    extractSequenceNumber a.1 ≤ extractSequenceNumber b.1
  lookup_eq : ∀ place, s.world.fs.lookup place =
    if ∃ a ∈ s.attempts, a.2 = true ∧ host.locate a.1 = place then none else w.fs.lookup place

theorem retained_start (files : List Text) (w : World host) :
    Retained files w (.start files w) where
  divided := .refl _
  inOrder := .refl _
  older _ ha := absurd ha List.not_mem_nil
  oldestFirst := .nil
  lookup_eq _ := (if_neg fun ⟨_, ha, _⟩ => absurd ha List.not_mem_nil).symm

/-- **Every round keeps the invariant.** -/
theorem Retained.round (h : Retained files w s)
    (hround : deleteOldestRound retentionCount remove s = some s') : Retained files w s' := by
  obtain ⟨-, oldest, hmem, hleast, -, rfl⟩ := of_deleteOldestRound hround
  constructor
  · -- the name goes from one side to the other
    rw [DeleteOldest.attempt, List.map_append, List.append_assoc]
    exact h.divided.trans ((List.perm_cons_erase hmem).append_left _)
  · exact List.erase_sublist.trans h.inOrder
  · intro a ha f hf
    have hf := List.mem_of_mem_erase hf
    rcases List.mem_append.mp ha with ha | ha
    · exact h.older a ha f hf
    · rw [List.mem_singleton.mp ha]
      exact hleast f hf
  · refine List.pairwise_append.mpr ⟨h.oldestFirst, List.pairwise_singleton _ _, ?_⟩
    intro a ha b hb
    rw [List.mem_singleton.mp hb]
    exact h.older a ha oldest hmem
  · intro place
    have hattempts : (∃ a ∈ (s.attempt remove oldest).attempts, a.2 = true ∧
        host.locate a.1 = place) ↔
        (∃ a ∈ s.attempts, a.2 = true ∧ host.locate a.1 = place) ∨
          remove s.attempts oldest = true ∧ host.locate oldest = place := by
      simp [DeleteOldest.attempt, or_and_right, exists_or]
    rw [DeleteOldest.lookup_attempt, h.lookup_eq]
    by_cases hgone : remove s.attempts oldest = true ∧ host.locate oldest = place
    · rw [if_pos hgone, if_pos (hattempts.mpr (Or.inr hgone))]
    · rw [if_neg hgone]
      exact if_congr (hattempts.trans (or_iff_left hgone)).symm rfl rfl

/-- Each round is an attempt. -/
theorem length_attempts_of_rounds {n : ℕ}
    (h : Rounds (deleteOldestRound retentionCount remove) n s s') :
    s'.attempts.length = s.attempts.length + n := by
  induction h with
  | stop _ => rfl
  | round hround _ ih =>
    obtain ⟨-, oldest, -, -, -, rfl⟩ := of_deleteOldestRound hround
    rw [ih, DeleteOldest.attempt, List.length_append, List.length_singleton]
    omega

/-- The list loses one name in each round, and the loop ends where it is short enough. -/
theorem rounds_deleteOldest (retentionCount : ℕ) (remove : List (Text × Bool) → Text → Bool)
    (files : List Text) (w : World host) :
    ∃ s, Rounds (deleteOldestRound retentionCount remove) (files.length - retentionCount)
      (.start files w) s := by
  refine exists_rounds (fun s : DeleteOldest host => s.historicalFiles.length - retentionCount)
    (fun s hs => deleteOldestRound_eq_none.mpr (Nat.sub_eq_zero_iff_le.mp hs))
    (fun s n hs => ?_) (.start files w)
  have hlt : retentionCount < s.historicalFiles.length := by omega
  obtain ⟨oldest, hmem, -, -, hsome⟩ := deleteOldestRound_eq_some remove hlt
  refine ⟨_, hsome, ?_⟩
  show (s.historicalFiles.erase oldest).length - retentionCount = n
  rw [List.length_erase_of_mem hmem]
  omega

end Round

/-- A round of `deleteOldestLoop`. -/
theorem deleteOldestLoop_of_lt {retentionCount : ℕ} {remove : Text → Bool}
    {s : DeleteOldest host} {oldest : Text} (h : retentionCount < s.historicalFiles.length)
    (hold : findOldestHistoricalFile s.historicalFiles = some oldest) :
    deleteOldestLoop retentionCount remove s.historicalFiles s.world =
      deleteOldestLoop retentionCount remove (s.attempt (fun _ => remove) oldest).historicalFiles
        (s.attempt (fun _ => remove) oldest).world := by
  rw [deleteOldestLoop, if_pos h]
  split
  · next hnone => exact absurd (hnone.symm.trans hold) (by simp)
  · next found hfound =>
    obtain rfl : found = oldest := Option.some.inj (hfound.symm.trans hold)
    rfl

/-- **The recursion of `deleteOldestLoop` is this loop**, when the answers depend on the
name only. -/
theorem rounds_deleteOldestLoop {retentionCount n : ℕ} {remove : Text → Bool}
    {s s' : DeleteOldest host}
    (h : Rounds (deleteOldestRound retentionCount fun _ => remove) n s s') :
    s'.world = deleteOldestLoop retentionCount remove s.historicalFiles s.world := by
  induction h with
  | stop hstop =>
    rw [deleteOldestLoop, if_neg (Nat.not_lt.mpr (deleteOldestRound_eq_none.mp hstop))]
  | round hround _ ih =>
    obtain ⟨hlt, oldest, -, -, hold, rfl⟩ := of_deleteOldestRound hround
    rw [ih, deleteOldestLoop_of_lt hlt hold]

/-- What `DeleteOldestFiles` leaves is what the loop leaves of the files it finds. -/
theorem rounds_deleteOldestFiles {fm : FileManager} {w : World host} {cwd : Text} {n : ℕ}
    {remove : Text → Bool} {s : DeleteOldest host}
    (h : Rounds (deleteOldestRound fm.retentionCount fun _ => remove) n
      (.start (fm.getHistoricalFiles w cwd) w) s) :
    s.world = fm.deleteOldestFiles w cwd remove := rounds_deleteOldestLoop h

end FileManager
end SpeckitLog
