import SpeckitLog.Lib.Text
import Mathlib.Data.List.AList

/-!
# Files and streams

A file system leads from *places*, a directory and a name each, to files, and
keeps the bytes of every file.  A file stays what it is when its place is renamed
or removed, so a stream keeps writing to the file it was opened on.

A stream holds back some of the bytes written to it; they reach the file when it
is flushed or closed.

## Main definitions

* `FileSystem`, with `openAppend`, `append`, `rename`, `remove`.
* `FileStream`, with `fwrite`, `fflush`, `fclose`, and `lapse` for those that fail.
-/

open Function

/-- Which file each place leads to, and the bytes of the files; no two places lead
to the same file. -/
structure FileSystem (π : Type*) [DecidableEq π] where
  entries : AList fun _ : π => ℕ
  data : ℕ → Text
  /-- The next new file. -/
  next : ℕ
  used : ∀ p n, entries.lookup p = some n → n < next
  single : ∀ p q n, entries.lookup p = some n → entries.lookup q = some n → p = q

namespace FileSystem

variable {π : Type*} [DecidableEq π]

/-- The file a place leads to. -/
def lookup (fs : FileSystem π) (p : π) : Option ℕ := fs.entries.lookup p

/-- The bytes found at a place. -/
def content (fs : FileSystem π) (p : π) : Option Text := (fs.lookup p).map fs.data

/-- No files. -/
def empty : FileSystem π where
  entries := ∅
  data _ := []
  next := 0
  used p n h := by simp at h
  single p q n h := by simp at h

theorem lookup_insert (entries : AList fun _ : π => ℕ) (p q : π) (n : ℕ) :
    (entries.insert p n).lookup q = if q = p then some n else entries.lookup q := by
  split
  · next h => rw [h, AList.lookup_insert]
  · next h => rw [AList.lookup_insert_ne h]

/-- A new empty file at `p`. -/
def create (fs : FileSystem π) (p : π) : FileSystem π where
  entries := fs.entries.insert p fs.next
  data := update fs.data fs.next []
  next := fs.next + 1
  used q n h := by
    rw [lookup_insert] at h
    split at h
    · have := Option.some.inj h
      omega
    · have := fs.used q n h
      omega
  single q r n hq hr := by
    rw [lookup_insert] at hq hr
    split at hq <;> split at hr
    · next hqp hrp => rw [hqp, hrp]
    · have := fs.used r n hr
      have := Option.some.inj hq
      omega
    · have := fs.used q n hq
      have := Option.some.inj hr
      omega
    · exact fs.single q r n hq hr

/-- `fopen` for appending: the file at `p`, which is created when there is none. -/
def openAppend (fs : FileSystem π) (p : π) : ℕ × FileSystem π :=
  match fs.lookup p with
  | some n => (n, fs)
  | none => (fs.next, fs.create p)

/-- Bytes are added to the end of a file. -/
def append (fs : FileSystem π) (n : ℕ) (bytes : Text) : FileSystem π :=
  { fs with data := update fs.data n (fs.data n ++ bytes) }

/-- `remove`. -/
def remove (fs : FileSystem π) (p : π) : FileSystem π where
  entries := fs.entries.erase p
  data := fs.data
  next := fs.next
  used q n h := by
    by_cases hqp : q = p
    · rw [hqp, AList.lookup_erase] at h
      contradiction
    · rw [AList.lookup_erase_ne hqp] at h
      exact fs.used q n h
  single q r n hq hr := by
    have hne : ∀ {q}, (fs.entries.erase p).lookup q = some n → fs.entries.lookup q = some n := by
      intro q hq
      by_cases hqp : q = p
      · rw [hqp, AList.lookup_erase] at hq
        contradiction
      · rwa [AList.lookup_erase_ne hqp] at hq
    exact fs.single q r n (hne hq) (hne hr)

theorem lookup_remove (fs : FileSystem π) (p q : π) :
    (fs.remove p).lookup q = if q = p then none else fs.lookup q := by
  split
  · next h => rw [h]; exact AList.lookup_erase p fs.entries
  · next h => exact AList.lookup_erase_ne h

/-- The file `n` moves to `q`, which it may replace. -/
def moveTo (fs : FileSystem π) (q : π) (n : ℕ) (hn : n < fs.next) (hnew : ∀ p, fs.lookup p ≠ some n) :
    FileSystem π where
  entries := fs.entries.insert q n
  data := fs.data
  next := fs.next
  used r m h := by
    rw [lookup_insert] at h
    split at h
    · have := Option.some.inj h
      omega
    · exact fs.used r m h
  single r t m hr ht := by
    rw [lookup_insert] at hr ht
    split at hr <;> split at ht
    · next hrq htq => rw [hrq, htq]
    · rw [← Option.some.inj hr] at ht
      exact absurd ht (hnew t)
    · rw [← Option.some.inj ht] at hr
      exact absurd hr (hnew r)
    · exact fs.single r t m hr ht

theorem lookup_remove_ne (fs : FileSystem π) {p : π} {n : ℕ} (h : fs.lookup p = some n) (q : π) :
    (fs.remove p).lookup q ≠ some n := by
  rw [lookup_remove]
  split
  · exact nofun
  · next hqp => exact fun hq => hqp (fs.single q p n hq h)

/-- `rename`: a file at `q` is replaced; `none` when there is no file at `p`. -/
def rename (fs : FileSystem π) (p q : π) : Option (FileSystem π) :=
  match h : fs.lookup p with
  | none => none
  | some n => some ((fs.remove p).moveTo q n (fs.used p n h) (fs.lookup_remove_ne h))

/-! ### What the operations change -/

theorem lookup_create (fs : FileSystem π) (p q : π) :
    (fs.create p).lookup q = if q = p then some fs.next else fs.lookup q :=
  lookup_insert _ _ _ _

theorem lookup_openAppend_self (fs : FileSystem π) (p : π) :
    (fs.openAppend p).2.lookup p = some (fs.openAppend p).1 := by
  unfold openAppend
  split
  · next h => exact h
  · rw [lookup_create, if_pos rfl]

theorem lookup_openAppend_of_ne (fs : FileSystem π) {p q : π} (h : q ≠ p) :
    (fs.openAppend p).2.lookup q = fs.lookup q := by
  unfold openAppend
  split
  · rfl
  · rw [lookup_create, if_neg h]

/-- A file is there, or a new one is made. -/
theorem openAppend_cases (fs : FileSystem π) (p : π) :
    (∃ n, fs.lookup p = some n ∧ fs.openAppend p = (n, fs)) ∨
      fs.lookup p = none ∧ fs.openAppend p = (fs.next, fs.create p) := by
  unfold openAppend
  cases h : fs.lookup p with
  | some n => exact Or.inl ⟨n, rfl, rfl⟩
  | none => exact Or.inr ⟨rfl, rfl⟩

/-- A file that existed before another was opened still has its bytes. -/
theorem data_openAppend (fs : FileSystem π) (p : π) {q : π} {n : ℕ} (h : fs.lookup q = some n) :
    (fs.openAppend p).2.data n = fs.data n := by
  unfold openAppend
  split
  · rfl
  · have := fs.used q n h
    exact update_of_ne (by omega) _ _

theorem data_openAppend_new (fs : FileSystem π) {p : π} (h : fs.lookup p = none) :
    (fs.openAppend p).2.data (fs.openAppend p).1 = [] := by
  unfold openAppend
  rw [h]
  exact update_self ..

@[simp] theorem data_append_self (fs : FileSystem π) (n : ℕ) (bytes : Text) :
    (fs.append n bytes).data n = fs.data n ++ bytes := update_self ..

theorem data_append_of_ne (fs : FileSystem π) {m n : ℕ} (bytes : Text) (h : m ≠ n) :
    (fs.append n bytes).data m = fs.data m := update_of_ne h _ _

/-- **Renaming** moves a file with its bytes. -/
theorem rename_eq_some {fs fs' : FileSystem π} {p q : π} (h : fs.rename p q = some fs') :
    ∃ n, fs.lookup p = some n ∧ fs'.data = fs.data ∧
      ∀ r, fs'.lookup r = if r = q then some n else if r = p then none else fs.lookup r := by
  unfold rename at h
  split at h
  · contradiction
  · next n hn =>
    obtain rfl := Option.some.inj h
    refine ⟨n, hn, rfl, fun r => ?_⟩
    exact (lookup_insert _ _ _ _).trans (by rw [← lookup_remove]; rfl)

/-- Renaming makes no file. -/
theorem next_rename {fs fs' : FileSystem π} {p q : π} (h : fs.rename p q = some fs') :
    fs'.next = fs.next := by
  unfold rename at h
  split at h
  · contradiction
  · exact Option.some.inj h ▸ rfl

/-- A file that exists can be renamed. -/
theorem rename_isSome (fs : FileSystem π) {p : π} (q : π) {n : ℕ} (h : fs.lookup p = some n) :
    (fs.rename p q).isSome = true := by
  unfold rename
  split
  · next hnone => rw [h] at hnone; contradiction
  · rfl

end FileSystem

/-! ### Streams -/

/-- An open stream: its file, and the bytes it holds back. -/
structure FileStream where
  file : ℕ
  buffer : Text
  deriving DecidableEq

namespace FileStream

variable {π : Type*} [DecidableEq π]

/-- What was written to the file and to the stream. -/
def bytes (s : FileStream) (fs : FileSystem π) : Text := fs.data s.file ++ s.buffer

/-- `fwrite` of all of `bytes`, which the library leaves as they are: the first `pushed` bytes
waiting go to the file. -/
def fwrite (s : FileStream) (fs : FileSystem π) (bytes : Text) (pushed : ℕ) :
    FileStream × FileSystem π :=
  let waiting := s.buffer ++ bytes
  ({ s with buffer := waiting.drop pushed }, fs.append s.file (waiting.take pushed))

/-- `fflush` that succeeds. -/
def fflush (s : FileStream) (fs : FileSystem π) : FileStream × FileSystem π :=
  ({ s with buffer := [] }, fs.append s.file s.buffer)

/-- `fclose` that succeeds. -/
def fclose (s : FileStream) (fs : FileSystem π) : FileSystem π := fs.append s.file s.buffer

/-- A `fwrite`, `fflush` or `fclose` cannot write out what waits: the first `pushed` bytes
reach the file, and the library drops the others or keeps them. -/
def lapse (s : FileStream) (fs : FileSystem π) (pushed : ℕ) (lost : Bool) :
    FileStream × FileSystem π :=
  ({ s with buffer := if lost then [] else s.buffer.drop pushed },
    fs.append s.file (s.buffer.take pushed))

/-- **Nothing written is lost**, however much is held back. -/
theorem bytes_fwrite (s : FileStream) (fs : FileSystem π) (data : Text) (pushed : ℕ) :
    (s.fwrite fs data pushed).1.bytes (s.fwrite fs data pushed).2 = s.bytes fs ++ data := by
  unfold fwrite bytes
  rw [FileSystem.data_append_self, List.append_assoc, List.take_append_drop, List.append_assoc]

theorem bytes_fflush (s : FileStream) (fs : FileSystem π) :
    (s.fflush fs).1.bytes (s.fflush fs).2 = s.bytes fs := by
  unfold fflush bytes
  rw [FileSystem.data_append_self, List.append_nil]

/-- What is not lost is there. -/
theorem bytes_lapse (s : FileStream) (fs : FileSystem π) (pushed : ℕ) (lost : Bool) :
    (s.lapse fs pushed lost).1.bytes (s.lapse fs pushed lost).2 =
      fs.data s.file ++ if lost then s.buffer.take pushed else s.buffer := by
  unfold lapse bytes
  rw [FileSystem.data_append_self, List.append_assoc]
  cases lost with
  | true => exact congrArg _ (List.append_nil _)
  | false => exact congrArg _ (List.take_append_drop _ _)

theorem data_fclose (s : FileStream) (fs : FileSystem π) :
    (s.fclose fs).data s.file = s.bytes fs := FileSystem.data_append_self _ _ _

end FileStream
