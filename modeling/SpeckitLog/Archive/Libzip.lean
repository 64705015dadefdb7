import SpeckitLog.Archive
import SpeckitLog.Lib.Overwrite
import Mathlib.Data.List.Forall2

/-!
# The calls of libzip

libzip is not part of the repository: the functions that `createArchive` calls are
parameters here, with what their documentation says of them.  An archive that was
opened collects the files to be added, and only a `zip_close` that succeeds writes
them to the disk.

## Main definitions

* `Libzip`, `Libzip.Documented` — the functions, and what is documented of them.
* `Scripted.libzip` — a libzip whose failures are given.

## Main results

* `Scripted.documented` — it behaves as documented.
-/

namespace SpeckitLog

open Archive

/-! ### The functions -/

/-- What the files of a disk hold. -/
abbrev Disk {δ : Type*} (host : Host δ) (β : Type*) := host.Place → Option β

/-- The functions of libzip, and what they work on.  A path is given by where it leads. -/
structure Libzip {δ : Type*} (host : Host δ) (β : Type*) where
  /-- The disk, and the memory of libzip. -/
  State : Type
  /-- What a `zip_t *` points to. -/
  Zip : Type
  /-- What a `zip_source_t *` points to. -/
  Source : Type
  /-- `zip_open` with `ZIP_CREATE | ZIP_TRUNCATE`. -/
  zipOpen : State → host.Place → Option Zip × State
  /-- `zip_source_file` of a whole file. -/
  zipSourceFile : State → Zip → host.Place → Option Source × State
  /-- `zip_file_add` with `ZIP_FL_OVERWRITE`. -/
  zipFileAdd : State → Zip → Text → Source → ℤ × State
  zipSourceFree : State → Source → State
  zipClose : State → Zip → ℤ × State
  zipDiscard : State → Zip → State
  disk : State → Disk host β
  /-- Where an archive is going to be written. -/
  target : Zip → host.Place
  /-- The file that a source reads. -/
  file : Source → host.Place
  /-- What was added to an open archive. -/
  entries : State → Zip → List (Text × host.Place)
  /-- The names and the contents in a ZIP file. -/
  unzip : β → Option (List (Text × β))

/-- **What is documented of libzip.** -/
structure Libzip.Documented {δ : Type*} {host : Host δ} {β : Type*} (lib : Libzip host β) :
    Prop where
  open_disk : ∀ s place, lib.disk (lib.zipOpen s place).2 = lib.disk s
  open_empty : ∀ s place z, (lib.zipOpen s place).1 = some z →
    lib.target z = place ∧ lib.entries (lib.zipOpen s place).2 z = []
  source_disk : ∀ s z place, lib.disk (lib.zipSourceFile s z place).2 = lib.disk s
  source_entries : ∀ s z place,
    lib.entries (lib.zipSourceFile s z place).2 z = lib.entries s z
  source_file : ∀ s z place source, (lib.zipSourceFile s z place).1 = some source →
    lib.file source = place
  add_disk : ∀ s z name source, lib.disk (lib.zipFileAdd s z name source).2 = lib.disk s
  add_entries : ∀ s z name source, 0 ≤ (lib.zipFileAdd s z name source).1 →
    lib.entries (lib.zipFileAdd s z name source).2 z =
      overwrite name (lib.file source) (lib.entries s z)
  free_disk : ∀ s source, lib.disk (lib.zipSourceFree s source) = lib.disk s
  /-- A ZIP file is written, with what the files of its sources hold. -/
  close_written : ∀ s z, (lib.zipClose s z).1 = 0 → lib.entries s z ≠ [] →
    ∃ bytes contents, lib.disk (lib.zipClose s z).2 (lib.target z) = some bytes ∧
      lib.unzip bytes = some contents ∧
      List.Forall₂ (fun e c => e.1 = c.1 ∧ lib.disk s e.2 = some c.2) (lib.entries s z) contents
  close_elsewhere : ∀ s z place, place ≠ lib.target z →
    lib.disk (lib.zipClose s z).2 place = lib.disk s place
  close_failed : ∀ s z, (lib.zipClose s z).1 ≠ 0 → lib.disk (lib.zipClose s z).2 = lib.disk s
  discard_disk : ∀ s z, lib.disk (lib.zipDiscard s z) = lib.disk s

/-! ### A libzip whose failures are given -/

/-- What a file holds: bytes, or a ZIP file. -/
inductive Blob
  | bytes (t : Text)
  | zip (entries : List (Text × Blob))

/-- The entries of a ZIP file. -/
def Blob.unzip : Blob → Option (List (Text × Blob))
  | .bytes _ => none
  | .zip entries => some entries

namespace Scripted

variable {δ : Type} {host : Host δ}

/-- The disk, and what was added to the archive that is open. -/
structure State (host : Host δ) where
  disk : Disk host Blob
  entries : List (Text × host.Place)

/-- What the files of the sources hold, when all of them can be read. -/
def readSources (disk : Disk host Blob) : List (Text × host.Place) → Option (List (Text × Blob))
  | [] => some []
  | e :: entries => (disk e.2).bind fun blob =>
    (readSources disk entries).map fun contents => (e.1, blob) :: contents

theorem forall₂_readSources {disk : Disk host Blob} {entries : List (Text × host.Place)}
    {contents : List (Text × Blob)} (h : readSources disk entries = some contents) :
    List.Forall₂ (fun e c => e.1 = c.1 ∧ disk e.2 = some c.2) entries contents := by
  induction entries generalizing contents with
  | nil =>
    obtain rfl := Option.some.inj h
    exact .nil
  | cons e entries ih =>
    obtain ⟨blob, hblob, h⟩ := Option.bind_eq_some_iff.mp h
    obtain ⟨rest, hrest, rfl⟩ := Option.map_eq_some_iff.mp h
    exact .cons ⟨rfl, hblob⟩ (ih hrest)

def zipOpen (answers : ArchiveAnswers host) (s : State host) (place : host.Place) :
    Option host.Place × State host :=
  if answers.zipOpen then (some place, ⟨s.disk, []⟩) else (none, s)

def zipSourceFile (answers : ArchiveAnswers host) (s : State host) (place : host.Place) :
    Option host.Place × State host :=
  (if answers.zipSourceFile place.2 then some place else none, s)

def zipFileAdd (answers : ArchiveAnswers host) (s : State host) (name : Text)
    (source : host.Place) : ℤ × State host :=
  if answers.zipFileAdd source.2 then
    let entries := overwrite name source s.entries
    (entries.findIdx fun e => e.1 = name, ⟨s.disk, entries⟩)
  else (-1, s)

variable [DecidableEq δ]

def zipClose (answers : ArchiveAnswers host) (s : State host) (z : host.Place) :
    ℤ × State host :=
  if answers.zipClose then
    match readSources s.disk s.entries with
    | some contents => (0, ⟨Function.update s.disk z (some (.zip contents)), []⟩)
    | none => (-1, s)
  else (-1, s)

/-- A ZIP file is written, or nothing happens. -/
theorem zipClose_cases (answers : ArchiveAnswers host) (s : State host) (z : host.Place) :
    (∃ contents, readSources s.disk s.entries = some contents ∧
      zipClose answers s z = (0, ⟨Function.update s.disk z (some (.zip contents)), []⟩)) ∨
    zipClose answers s z = (-1, s) := by
  unfold zipClose
  split
  · split
    · next contents h => exact Or.inl ⟨contents, h, rfl⟩
    · exact Or.inr rfl
  · exact Or.inr rfl

/-- A libzip that answers as scripted; one archive is open at a time. -/
def libzip (answers : ArchiveAnswers host) : Libzip host Blob where
  State := State host
  Zip := host.Place
  Source := host.Place
  zipOpen := zipOpen answers
  zipSourceFile s _ := zipSourceFile answers s
  zipFileAdd s _ := zipFileAdd answers s
  zipSourceFree s _ := s
  zipClose := zipClose answers
  zipDiscard s _ := ⟨s.disk, []⟩
  disk := State.disk
  target z := z
  file source := source
  entries s _ := s.entries
  unzip := Blob.unzip

/-- **The scripted libzip behaves as documented**, whatever the script. -/
theorem documented (answers : ArchiveAnswers host) : (libzip answers).Documented where
  open_disk s place := by
    show (zipOpen answers s place).2.disk = s.disk
    unfold zipOpen
    split <;> rfl
  open_empty s place z hz := by
    change (zipOpen answers s place).1 = some z at hz
    show z = place ∧ (zipOpen answers s place).2.entries = []
    unfold zipOpen at hz ⊢
    split at hz
    · next h =>
      rw [if_pos h]
      exact ⟨(Option.some.inj hz).symm, rfl⟩
    · contradiction
  source_disk _ _ _ := rfl
  source_entries _ _ _ := rfl
  source_file s z place source h := by
    change (zipSourceFile answers s place).1 = some source at h
    show source = place
    unfold zipSourceFile at h
    dsimp only at h
    split at h
    · exact (Option.some.inj h).symm
    · contradiction
  add_disk s z name source := by
    show (zipFileAdd answers s name source).2.disk = s.disk
    unfold zipFileAdd
    split <;> rfl
  add_entries s z name source h := by
    change 0 ≤ (zipFileAdd answers s name source).1 at h
    show (zipFileAdd answers s name source).2.entries = overwrite name source s.entries
    unfold zipFileAdd at h ⊢
    split at h
    · next hadd =>
      rw [if_pos hadd]
      rfl
    · exact absurd h (by simp)
  free_disk _ _ := rfl
  close_written s z h hne := by
    change (zipClose answers s z).1 = 0 at h
    rcases zipClose_cases answers s z with ⟨contents, hread, heq⟩ | heq
    · refine ⟨.zip contents, contents, ?_, rfl, forall₂_readSources hread⟩
      show (zipClose answers s z).2.disk z = _
      rw [heq]
      exact Function.update_self ..
    · rw [heq] at h
      exact absurd h (by simp)
  close_elsewhere s z place hne := by
    show (zipClose answers s z).2.disk place = s.disk place
    rcases zipClose_cases answers s z with ⟨contents, -, heq⟩ | heq
    · rw [heq]
      exact Function.update_of_ne hne ..
    · rw [heq]
  close_failed s z h := by
    change (zipClose answers s z).1 ≠ 0 at h
    show (zipClose answers s z).2.disk = s.disk
    rcases zipClose_cases answers s z with ⟨contents, -, heq⟩ | heq
    · rw [heq] at h
      exact absurd rfl h
    · rw [heq]
  discard_disk _ _ := rfl

end Scripted
end SpeckitLog
