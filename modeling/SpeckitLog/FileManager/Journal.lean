import SpeckitLog.FileManager.Steps

/-!
# What a front end has written

The asynchronous logger and the C interface both hand their records to
`FileManager::Write`.  A journal is the manager with its world and the list of these
calls, each with the current file and what was written to it before; the operating system
is given by its answers to the calls, one after another.

## Main definitions

* `Journal`, `Journal.write`, `Journal.rotate` — the manager and its history.
* `Io` — the answers of the operating system; `Io.Succeeds` when it never fails.
* `Journal.Open`, `Journal.Started` — the current file is open, and found under its
  name; nothing has been written since `Initialize`.

## Main results

* `Journal.Open.write`, `Journal.Open.rotate` — what a write and a rotation to which
  the system says yes do.
* `Journal.Grown.write` — what a file holds to which one writes without rotations.
* `Journal.Traced.length_le` — no file is longer than a write has made it, text mode
  included.
-/

namespace SpeckitLog

open FileManager

/-- A call of `Write`: the current file, what it held with its stream, and the data. -/
structure WriteCall where
  file : Option ℕ
  before : Text
  data : Text
  deriving DecidableEq

/-- The manager, its world, and the calls of `Write` so far. -/
structure Journal {δ : Type*} [DecidableEq δ] (host : Host δ) where
  fm : FileManager
  world : World host
  calls : List WriteCall

/-- What the operating system answers to the `n`-th write, and to a rotation after it. -/
structure Io where
  write : ℕ → Text → WriteAnswers
  rotate : ℕ → RotateAnswers

/-- The operating system never fails. -/
structure Io.Succeeds (io : Io) : Prop where
  write : ∀ n data, WriteAnswers.Succeed (io.write n data) data
  rename : ∀ n, (io.rotate n).rename = true
  openFile : ∀ n, (io.rotate n).openFile = true

/-- Every call succeeds, and `fwrite` passes on the first `pushed n` bytes that wait. -/
def Io.pushing (pushed : ℕ → ℕ) : Io where
  write n data := ⟨data.length, pushed n, true, true⟩
  rotate _ := ⟨true, fun _ => true, true⟩

theorem Io.pushing_succeeds (pushed : ℕ → ℕ) : (Io.pushing pushed).Succeeds where
  write _ _ := ⟨le_rfl, rfl, rfl⟩
  rename _ := rfl
  openFile _ := rfl

namespace Journal

variable {δ : Type*} [DecidableEq δ] {host : Host δ}

/-- The bytes that were written to the current file, on disk or in the stream. -/
def contents (j : Journal host) : Text :=
  match j.fm.fileHandle with
  | none => []
  | some f => f.bytes j.world.fs

/-- The current file. -/
def file (j : Journal host) : Option ℕ := j.fm.fileHandle.map FileStream.file

/-- `Write`. -/
def write (io : Io) (j : Journal host) (data : Text) : Bool × Journal host :=
  let (ok, fm, w) := j.fm.write j.world data (io.write j.calls.length data)
  (ok, { fm := fm, world := w, calls := j.calls ++ [⟨j.file, j.contents, data⟩] })

/-- `Rotate`, in the current directory `cwd`. -/
def rotate (io : Io) (cwd : Text) (j : Journal host) : Journal host :=
  let (_, fm, w) := j.fm.rotate j.world cwd (io.rotate j.calls.length)
  { j with fm := fm, world := w }

/-- The data of all calls of `Write`. -/
def appended (j : Journal host) : Text := (j.calls.map WriteCall.data).flatten

/-- The current file is open as `f`, under its name. -/
structure Open (j : Journal host) (f : FileStream) : Prop where
  stream : j.fm.fileHandle = some f
  named : j.world.fs.lookup (host.locate j.fm.currentFileName) = some f.file

variable {j : Journal host} {f : FileStream} {io : Io}

theorem Open.contents_eq (h : j.Open f) : j.contents = f.bytes j.world.fs := by
  unfold contents
  rw [h.stream]

/-- What a write does when the system says yes. -/
structure Wrote (j : Journal host) (f : FileStream) (data : Text) (pushed : ℕ)
    (j' : Journal host) (f' : FileStream) : Prop where
  isOpen : j'.Open f'
  calls : j'.calls = j.calls ++ [⟨some f.file, f.bytes j.world.fs, data⟩]
  manager : j'.fm = { j.fm with
    fileHandle := some f', currentFileSize := j.fm.sizeAfter data }
  file : f'.file = f.file
  bytes : f'.bytes j'.world.fs = f.bytes j.world.fs ++ data
  others : ∀ n, n ≠ f.file → j'.world.fs.data n = j.world.fs.data n
  lookup : ∀ p, j'.world.fs.lookup p = j.world.fs.lookup p
  next : j'.world.fs.next = j.world.fs.next
  /-- The size decides whether anything is held back. -/
  buffer : f'.buffer =
    if j.fm.sizeAfter data % (1024 * 1024) = 0 then [] else (f.buffer ++ data).drop pushed

/-- A write to which the system says yes this time. -/
theorem Open.wrote (h : j.Open f) {data : Text}
    (hok : WriteAnswers.Succeed (io.write j.calls.length data) data) :
    ∃ j' f', j.write io data = (true, j') ∧
      Wrote j f data (io.write j.calls.length data).pushed j' f' := by
  have hwrite := write_of_succeed (w := j.world) h.stream hok
  generalize hpushed : (io.write j.calls.length data).pushed = pushed at hwrite ⊢
  have heq : j.write io data = (true,
      { fm := { j.fm with
          fileHandle := some (j.fm.streamAfter j.world.fs f data pushed).1
          currentFileSize := j.fm.sizeAfter data }
        world := withFiles j.world (j.fm.streamAfter j.world.fs f data pushed).2
        calls := j.calls ++ [⟨some f.file, f.bytes j.world.fs, data⟩] }) := by
    simp only [Journal.write, hwrite, h.contents_eq, Journal.file, h.stream, Option.map_some]
  have hfile := j.fm.streamAfter_file j.world.fs f data pushed
  have hlookup := j.fm.streamAfter_lookup j.world.fs f data pushed
  refine ⟨_, (j.fm.streamAfter j.world.fs f data pushed).1, heq, ⟨rfl, ?_⟩, rfl, rfl, hfile,
    j.fm.streamAfter_bytes j.world.fs f data pushed,
    fun n hn => j.fm.streamAfter_data j.world.fs f data pushed hn, hlookup,
    j.fm.streamAfter_next j.world.fs f data pushed, ?_⟩
  · rw [hfile]
    exact (hlookup _).trans h.named
  · unfold streamAfter
    dsimp only
    split <;> rfl

/-- **A write to which the system says yes.** -/
theorem Open.write (h : j.Open f) (hio : io.Succeeds) (data : Text) :
    ∃ j' f', j.write io data = (true, j') ∧
      Wrote j f data (io.write j.calls.length data).pushed j' f' := h.wrote (hio.write _ _)

/-- What a rotation finds in the file that it opens: another file may have its name. -/
def found (j : Journal host) : Text :=
  if host.locate j.fm.currentFileName = host.locate (j.fm.generateFileName true) then []
  else (j.world.fs.content (host.locate (j.fm.generateFileName true))).getD []

/-- The file that a rotation opens; the next new one when there is none. -/
def nextFile (j : Journal host) : ℕ :=
  if host.locate j.fm.currentFileName = host.locate (j.fm.generateFileName true) then
    j.world.fs.next
  else (j.world.fs.lookup (host.locate (j.fm.generateFileName true))).getD j.world.fs.next

theorem Wrote.nextFile {data : Text} {pushed : ℕ} {j' : Journal host} {f' : FileStream}
    (h : Wrote j f data pushed j' f') : j'.nextFile = j.nextFile := by
  have hname : j'.fm.currentFileName = j.fm.currentFileName := by rw [h.manager]
  have hnext : j'.fm.generateFileName true = j.fm.generateFileName true := by rw [h.manager]; rfl
  rw [Journal.nextFile, Journal.nextFile, hname, hnext, h.next, h.lookup]

/-- A write leaves the file that the next rotation opens alone. -/
theorem Wrote.found {data : Text} {pushed : ℕ} {j' : Journal host} {f' : FileStream}
    (h : Wrote j f data pushed j' f') (hopen : j.Open f) : j'.found = j.found := by
  have hname : j'.fm.currentFileName = j.fm.currentFileName := by rw [h.manager]
  have hnext : j'.fm.generateFileName true = j.fm.generateFileName true := by rw [h.manager]; rfl
  unfold Journal.found
  rw [hname, hnext]
  split
  · rfl
  · next hne =>
    rw [FileSystem.content, FileSystem.content, h.lookup]
    cases hlookup : j.world.fs.lookup (host.locate (j.fm.generateFileName true)) with
    | none => rfl
    | some n =>
      have hother : n ≠ f.file := by
        rintro rfl
        exact hne (j.world.fs.single _ _ _ hopen.named hlookup)
      exact h.others n hother

/-- What a rotation does when the system says yes. -/
structure Rotated (j : Journal host) (f : FileStream) (j' : Journal host) (f' : FileStream) :
    Prop where
  isOpen : j'.Open f'
  calls : j'.calls = j.calls
  manager : j'.fm = { j.fm with
    currentFileName := j.fm.generateFileName true
    fileHandle := some f'
    currentFileSize := 0 }
  buffer : f'.buffer = []
  /-- The renamed file has all that was written to it. -/
  kept : j'.world.fs.data f.file = f.bytes j.world.fs
  /-- Every file has its bytes. -/
  data : ∀ n < j.world.fs.next, j'.world.fs.data n =
    if n = f.file then f.bytes j.world.fs else j.world.fs.data n
  /-- A new one has none. -/
  made : ∀ n, j.world.fs.next ≤ n → n < j'.world.fs.next → j'.world.fs.data n = []
  next_le : j.world.fs.next ≤ j'.world.fs.next
  file : f'.file = j.nextFile
  opened : f'.bytes j'.world.fs = j.found

/-- Opening a file makes at most one, which is empty, and changes no bytes. -/
theorem openAppend_frame (fs : FileSystem host.Place) (p : host.Place) :
    (∀ n < fs.next, (fs.openAppend p).2.data n = fs.data n) ∧
      (∀ n, fs.next ≤ n → n < (fs.openAppend p).2.next → (fs.openAppend p).2.data n = []) ∧
      fs.next ≤ (fs.openAppend p).2.next := by
  rcases fs.openAppend_cases p with ⟨m, -, heq⟩ | ⟨-, heq⟩
  · rw [heq]
    exact ⟨fun _ _ => rfl, fun n hn hlt => absurd hlt (Nat.not_lt.mpr hn), le_rfl⟩
  · rw [heq]
    refine ⟨fun n hn => Function.update_of_ne hn.ne _ _, fun n hn hlt => ?_, Nat.le_succ _⟩
    obtain rfl : n = fs.next := Nat.le_antisymm (Nat.le_of_lt_succ hlt) hn
    exact Function.update_self ..

/-- A rotation to which the system says yes this time. -/
theorem Open.rotated (h : j.Open f) (habs : host.isAbsolute j.fm.baseName = true)
    (hrename : (io.rotate j.calls.length).rename = true)
    (hreopen : (io.rotate j.calls.length).openFile = true) (cwd : Text) :
    ∃ f', Rotated j f (j.rotate io cwd) f' := by
  have hends := rotated_of_rotate (w := j.world) habs cwd (io.rotate j.calls.length)
  generalize hresult : j.fm.rotate j.world cwd (io.rotate j.calls.length) = result at hends
  obtain ⟨ok, fm, w⟩ := result
  have heq : j.rotate io cwd = { j with fm := fm, world := w } := by
    simp only [Journal.rotate, hresult]
  have hstream := h.stream
  rw [heq]
  cases hends with
  | closed hnone => rw [hnone] at hstream; contradiction
  | notRenamed _ hren =>
    rw [h.named] at hren
    exact absurd (hren hrename) (Option.some_ne_none _)
  | notOpened _ _ _ hopen => rw [hreopen] at hopen; contradiction
  | @done f₁ fs hsome _ hren =>
    obtain rfl : f₁ = f := Option.some.inj (hsome.symm.trans hstream)
    obtain ⟨n, hn, hdata, hlookup⟩ := FileSystem.rename_eq_some hren
    -- the bytes are where they were before the rename, with those of the stream added
    have hclosed : ∀ m, fs.data m = if m = f₁.file then f₁.bytes j.world.fs
        else j.world.fs.data m := by
      intro m
      rw [hdata]
      split
      · next hm => rw [hm, FileStream.data_fclose]
      · next hm => exact FileSystem.data_append_of_ne _ _ hm
    have hcount : fs.next = (f₁.fclose j.world.fs).next := FileSystem.next_rename hren
    change fs.next = j.world.fs.next at hcount
    obtain ⟨hold, hmade, hle⟩ := openAppend_frame fs (host.locate (j.fm.generateFileName true))
    have hsuffix : host.locate (j.fm.generateFileName true) ≠
        host.locate (j.fm.sequenceName 1) := by
      rw [generateFileName_eq, sequenceName_eq]
      exact fun heq => processSuffix_ne_sequenceSuffix true j.fm.processId 1
        ((Host.locate_append_inj (plain_processSuffix _ _) (plain_sequenceSuffix _)).mp heq)
    have hthere : fs.lookup (host.locate (j.fm.generateFileName true)) =
        if host.locate (j.fm.generateFileName true) = host.locate j.fm.currentFileName then none
        else j.world.fs.lookup (host.locate (j.fm.generateFileName true)) :=
      (hlookup _).trans (if_neg hsuffix)
    refine ⟨_, ⟨rfl, FileSystem.lookup_openAppend_self _ _⟩, rfl, rfl, rfl, ?_,
      fun m hm => (hold m (hcount ▸ hm)).trans (hclosed m),
      fun m hm => hmade m (hcount.trans_le hm), hcount.symm.trans_le hle, ?_, ?_⟩
    · have hmoved : fs.lookup (host.locate (j.fm.sequenceName 1)) = some f₁.file := by
        rw [hlookup, if_pos rfl]
        exact hn.symm.trans h.named
      refine (FileSystem.data_openAppend fs _ hmoved).trans ?_
      rw [hclosed, if_pos rfl]
    · show (fs.openAppend _).1 = j.nextFile
      unfold nextFile
      rw [FileSystem.openAppend, hthere, hcount]
      by_cases hsame : host.locate j.fm.currentFileName = host.locate (j.fm.generateFileName true)
      · rw [if_pos hsame.symm, if_pos hsame]
      · rw [if_neg (Ne.symm hsame), if_neg hsame]
        cases j.world.fs.lookup (host.locate (j.fm.generateFileName true)) <;> rfl
    · have hlookup := hthere
      refine (List.append_nil _).trans ?_
      unfold found
      -- the first process finds its name free again; another may find a file there
      split
      · next hsame => exact FileSystem.data_openAppend_new fs (by rw [hlookup, if_pos hsame.symm])
      · next hother =>
        rw [if_neg (Ne.symm hother)] at hlookup
        rw [FileSystem.content]
        cases hplace : j.world.fs.lookup (host.locate (j.fm.generateFileName true)) with
        | none => exact FileSystem.data_openAppend_new fs (hlookup.trans hplace)
        | some m =>
          have hm : m ≠ f₁.file := by
            rintro rfl
            exact hother (j.world.fs.single _ _ _ h.named hplace)
          show (fs.openAppend _).2.data (fs.openAppend _).1 = j.world.fs.data m
          rw [FileSystem.openAppend, hlookup, hplace]
          exact (hclosed m).trans (if_neg hm)

/-- **A rotation to which the system says yes.** -/
theorem Open.rotate (h : j.Open f) (habs : host.isAbsolute j.fm.baseName = true)
    (hio : io.Succeeds) (cwd : Text) : ∃ f', Rotated j f (j.rotate io cwd) f' :=
  h.rotated habs (hio.rename _) (hio.openFile _) cwd

/-! ### A file that is written without rotations -/

/-- The current file holds what it held at first, `old`, and all that was appended. -/
structure Grown (old : Text) (j : Journal host) (f : FileStream) : Prop where
  isOpen : j.Open f
  bytes : f.bytes j.world.fs = old ++ j.appended
  size : j.fm.currentFileSize % (1024 * 1024) = (f.bytes j.world.fs).length % (1024 * 1024)
  flushed : (f.bytes j.world.fs).length % (1024 * 1024) = 0 → f.buffer = []
  before : ∀ k c, j.calls[k]? = some c → c.file = some f.file ∧
    c.before = old ++ ((j.calls.take k).map WriteCall.data).flatten

variable {old data : Text} {j' : Journal host} {f' : FileStream} {pushed : ℕ}

theorem Wrote.appended (h : Wrote j f data pushed j' f') : j'.appended = j.appended ++ data := by
  unfold Journal.appended
  rw [h.calls, List.map_append, List.flatten_append, List.map_singleton, List.flatten_singleton]

/-- The size counts the bytes, up to multiples of the modulus. -/
theorem Grown.sizeAfter (h : Grown old j f) (data : Text) :
    j.fm.sizeAfter data % (1024 * 1024) =
      (f.bytes j.world.fs ++ data).length % (1024 * 1024) := by
  rw [FileManager.sizeAfter, wrap_mod_of_dvd (by decide), List.length_append, Nat.add_mod, h.size,
    ← Nat.add_mod]

theorem Grown.write (h : Grown old j f) (hwrote : Wrote j f data pushed j' f') :
    Grown old j' f' where
  isOpen := hwrote.isOpen
  bytes := by rw [hwrote.bytes, h.bytes, hwrote.appended, List.append_assoc]
  size := by
    rw [hwrote.bytes, ← h.sizeAfter, hwrote.manager]
  flushed hzero := by
    rw [hwrote.bytes, ← h.sizeAfter] at hzero
    rw [hwrote.buffer, if_pos hzero]
  before k c hc := by
    rw [hwrote.calls] at hc ⊢
    -- an earlier call, this one, or none
    rcases Nat.lt_trichotomy k j.calls.length with hk | rfl | hk
    · rw [List.getElem?_append_left hk] at hc
      rw [List.take_append_of_le_length hk.le, hwrote.file]
      exact h.before k c hc
    · rw [List.getElem?_concat_length] at hc
      rw [List.take_left, ← Option.some.inj hc, hwrote.file]
      exact ⟨rfl, h.bytes⟩
    · rw [List.getElem?_eq_none (by simp; omega)] at hc
      contradiction

/-- Where `fwrite` passes nothing on, what was written last is held back, unless the
size is a multiple. -/
theorem Grown.held (h : Grown old j f) (hwrote : Wrote j f data 0 j' f') (hdata : data ≠ [])
    (hsize : (f'.bytes j'.world.fs).length % (1024 * 1024) ≠ 0) : f'.buffer ≠ [] := by
  rw [hwrote.bytes, ← h.sizeAfter] at hsize
  rw [hwrote.buffer, if_neg hsize, List.drop_zero]
  exact fun hnil => hdata (List.append_eq_nil_iff.mp hnil).2

/-- **A manager has just been initialized**: its file is open, and nothing is held back. -/
structure Started (j : Journal host) (f : FileStream) (old : Text) : Prop where
  isOpen : j.Open f
  buffer : f.buffer = []
  data : j.world.fs.data f.file = old
  size : j.fm.currentFileSize = old.length
  calls : j.calls = []

theorem Started.bytes (h : Started j f old) : f.bytes j.world.fs = old := by
  rw [FileStream.bytes, h.buffer, List.append_nil, h.data]

theorem Started.grown (h : Started j f old) : Grown old j f where
  isOpen := h.isOpen
  bytes := by
    rw [h.bytes, Journal.appended, h.calls]
    exact (List.append_nil old).symm
  size := by rw [h.bytes, h.size]
  flushed _ := h.buffer
  before k c hc := by
    rw [h.calls] at hc
    contradiction

theorem started_of_initializeAs {fm₀ fm : FileManager} {w₀ w : World host} {cwd : Text}
    {processId : ℤ} {answers : InitAnswers} (hnew : fm₀.initialized = false)
    (hinit : fm₀.initializeAs w₀ cwd processId answers = (true, fm, w))
    (hold : w.fs.content (host.locate fm.currentFileName) = some old) :
    (∃ f, Started ⟨fm, w, []⟩ f old) ∧ fm.baseName = absoluteBase host cwd fm₀.baseName ∧
      fm.maxSize = fm₀.maxSize := by
  have hends := initialized_of_initializeAs fm₀ w₀ cwd processId answers
  rw [hinit] at hends
  cases hends with
  | again h => rw [hnew] at h; contradiction
  | @done another fm₁ w₁ n fs _ helect hopen =>
    obtain ⟨hfm₁, -⟩ := helect.frame
    have hlookup := w₁.fs.lookup_openAppend_self (host.locate (fm₁.generateFileName !another))
    rw [hopen] at hlookup
    have hdata : fs.data n = old := by
      have hold : (fs.lookup (host.locate (fm₁.generateFileName !another))).map fs.data =
        some old := hold
      rw [hlookup] at hold
      exact Option.some.inj hold
    refine ⟨⟨⟨n, []⟩, ⟨⟨rfl, hlookup⟩, rfl, hdata, ?_, rfl⟩⟩, ?_, ?_⟩
    · exact congrArg List.length hdata
    · show fm₁.baseName = _
      rw [hfm₁]
    · show fm₁.maxSize = _
      rw [hfm₁]

/-- A manager that is initialized has a file. -/
theorem exists_content_of_initializeAs {fm₀ fm : FileManager} {w₀ w : World host} {cwd : Text}
    {processId : ℤ} {answers : InitAnswers} (hnew : fm₀.initialized = false)
    (hinit : fm₀.initializeAs w₀ cwd processId answers = (true, fm, w)) :
    ∃ old, w.fs.content (host.locate fm.currentFileName) = some old := by
  have hends := initialized_of_initializeAs fm₀ w₀ cwd processId answers
  rw [hinit] at hends
  cases hends with
  | again h => rw [hnew] at h; contradiction
  | @done another fm₁ w₁ n fs _ _ hopen =>
    have hlookup := w₁.fs.lookup_openAppend_self (host.locate (fm₁.generateFileName !another))
    rw [hopen] at hlookup
    exact ⟨fs.data n, congrArg (Option.map fs.data) hlookup⟩

/-! ### The lengths of all files -/

/-- The bytes of a file, on disk or in the stream. -/
def bytesOf (j : Journal host) (n : ℕ) : Text :=
  match j.fm.fileHandle with
  | none => j.world.fs.data n
  | some f => if n = f.file then f.bytes j.world.fs else j.world.fs.data n

theorem Open.bytesOf_eq (h : j.Open f) (n : ℕ) :
    j.bytesOf n = if n = f.file then f.bytes j.world.fs else j.world.fs.data n := by
  unfold bytesOf
  rw [h.stream]

theorem bytesOf_of_none (h : j.fm.fileHandle = none) (n : ℕ) :
    j.bytesOf n = j.world.fs.data n := by
  unfold bytesOf
  rw [h]

/-- When nothing is held back all bytes are on disk. -/
theorem bytesOf_of_buffer (h : j.fm.fileHandle = some f) (hbuffer : f.buffer = []) (n : ℕ) :
    j.bytesOf n = j.world.fs.data n := by
  unfold bytesOf
  rw [h]
  show (if n = f.file then f.bytes j.world.fs else j.world.fs.data n) = _
  split
  · next hn => rw [FileStream.bytes, hbuffer, List.append_nil, hn]
  · rfl

/-- After a rotation all bytes are on disk. -/
theorem Rotated.bytesOf_eq (h : Rotated j f j' f') (n : ℕ) :
    j'.bytesOf n = j'.world.fs.data n := bytesOf_of_buffer h.isOpen.stream h.buffer n

/-- What a file had at first; files that are made later had nothing. -/
def base (first : Journal host) (n : ℕ) : Text :=
  if n < first.world.fs.next then first.bytesOf n else []

/-- What file `n` really has when it is `t` for the program. -/
def realBytes (first : Journal host) (n : ℕ) (t : Text) : Text := host.onDisk (first.base n) t

variable {first : Journal host}

theorem realBytes_base (n : ℕ) : first.realBytes n (first.base n) = first.base n :=
  host.onDisk_self _

theorem realBytes_append {n : ℕ} {t : Text} (h : first.base n <+: t) (data : Text) :
    first.realBytes n (t ++ data) = first.realBytes n t ++ host.inTextMode data :=
  host.onDisk_append h data

/-- **Every file has grown** from what it had at first, and is as it was then, or as a write
has left it. -/
structure Traced (first j : Journal host) : Prop where
  next_le : first.world.fs.next ≤ j.world.fs.next
  grown : ∀ n < j.world.fs.next, first.base n <+: j.bytesOf n
  left : ∀ n < j.world.fs.next, j.bytesOf n = first.base n ∨
    ∃ c ∈ j.calls, c.file = some n ∧ first.realBytes n (j.bytesOf n) =
      first.realBytes n c.before ++ host.inTextMode c.data

theorem traced_self : Traced first first where
  next_le := le_rfl
  grown n hn := by
    have hbase : first.base n = first.bytesOf n := if_pos hn
    exact hbase ▸ List.prefix_rfl
  left n hn := Or.inl (if_pos hn).symm

/-- A rotation finds the bytes that its file had at first. -/
theorem base_nextFile (h : first.Open f) : first.base first.nextFile = first.found := by
  unfold base nextFile found
  by_cases hsame : host.locate first.fm.currentFileName =
      host.locate (first.fm.generateFileName true)
  · rw [if_pos hsame, if_pos hsame, if_neg (lt_irrefl _)]
  · rw [if_neg hsame, if_neg hsame, FileSystem.content]
    cases hplace : first.world.fs.lookup (host.locate (first.fm.generateFileName true)) with
    | none => exact if_neg (lt_irrefl _)
    | some n =>
      have hother : n ≠ f.file := by
        rintro rfl
        exact hsame (first.world.fs.single _ _ _ h.named hplace)
      show (if n < first.world.fs.next then first.bytesOf n else []) = first.world.fs.data n
      rw [if_pos (first.world.fs.used _ _ hplace), h.bytesOf_eq, if_neg hother]

theorem Open.file_lt (h : j.Open f) : f.file < j.world.fs.next := j.world.fs.used _ _ h.named

theorem Traced.write (h : Traced first j) (hopen : j.Open f)
    (hwrote : Wrote j f data pushed j' f') : Traced first j' := by
  have hbytes : ∀ n, j'.bytesOf n = if n = f.file then j.bytesOf n ++ data else j.bytesOf n := by
    intro n
    rw [hwrote.isOpen.bytesOf_eq, hopen.bytesOf_eq, hwrote.file]
    split
    · exact hwrote.bytes
    · next hn => exact hwrote.others n hn
  refine ⟨hwrote.next.symm ▸ h.next_le, fun n hn => ?_, fun n hn => ?_⟩
  · rw [hwrote.next] at hn
    rw [hbytes]
    split
    · exact (h.grown n hn).trans (List.prefix_append _ _)
    · exact h.grown n hn
  · rw [hwrote.next] at hn
    rw [hbytes, hwrote.calls]
    split
    · -- the file that was written to is as the write has left it
      next hfile =>
      refine Or.inr ⟨_, List.mem_append_right _ (List.mem_singleton_self _), by rw [hfile], ?_⟩
      rw [realBytes_append (h.grown n hn), hopen.bytesOf_eq, if_pos hfile]
    · refine (h.left n hn).imp_right ?_
      rintro ⟨c, hc, hleft⟩
      exact ⟨c, List.mem_append_left _ hc, hleft⟩

theorem Traced.rotate (h : Traced first j) (hopen : j.Open f) (hrot : Rotated j f j' f') :
    Traced first j' := by
  have hbytes : ∀ n < j.world.fs.next, j'.bytesOf n = j.bytesOf n := fun n hn => by
    rw [hrot.bytesOf_eq, hrot.data n hn, hopen.bytesOf_eq]
  -- a file that is made by the rotation is empty, and was not there at first
  have hnew : ∀ n, j.world.fs.next ≤ n → n < j'.world.fs.next →
      j'.bytesOf n = [] ∧ first.base n = [] := fun n hle hlt => by
    refine ⟨(hrot.bytesOf_eq n).trans (hrot.made n hle hlt), ?_⟩
    rw [base, if_neg (Nat.not_lt.mpr (h.next_le.trans hle))]
  refine ⟨h.next_le.trans hrot.next_le, fun n hn => ?_, fun n hn => ?_⟩
  · rcases Nat.lt_or_ge n j.world.fs.next with hlt | hle
    · rw [hbytes n hlt]
      exact h.grown n hlt
    · rw [(hnew n hle hn).2]
      exact List.nil_prefix
  · rcases Nat.lt_or_ge n j.world.fs.next with hlt | hle
    · rw [hbytes n hlt, hrot.calls]
      exact h.left n hlt
    · obtain ⟨hnil, hbase⟩ := hnew n hle hn
      exact Or.inl (hnil.trans hbase.symm)

/-- **No file is longer than a write has made it.** -/
theorem Traced.length_le (h : Traced first j) {limit : ℕ}
    (hlimit : ∀ c ∈ j.calls, ∀ n ∈ c.file, (first.realBytes n c.before).length < limit)
    {n : ℕ} (hn : n < j.world.fs.next) :
    (first.realBytes n (j.bytesOf n)).length ≤ (first.base n).length ∨
      ∃ c ∈ j.calls, (first.realBytes n (j.bytesOf n)).length ≤
        limit + (host.inTextMode c.data).length := by
  rcases h.left n hn with hfirst | ⟨c, hc, hfile, hleft⟩
  · exact Or.inl (by rw [hfirst, realBytes_base])
  · have hlt := hlimit c hc n hfile
    refine Or.inr ⟨c, hc, ?_⟩
    rw [hleft, List.length_append]
    omega

/-- The file of a manager on an empty machine is empty. -/
theorem content_appOpened : appOpened.2.2.fs.content
    (Host.posix.locate appOpened.2.1.currentFileName) = some [] := by decide +kernel

end Journal
end SpeckitLog
