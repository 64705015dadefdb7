import SpeckitLog.FileManager.Journal
import SpeckitLog.Lib.Call
import SpeckitLog.Lib.Transition

/-!
# The file manager, called by several threads

Nothing in `FileManager` is locked.  A step of a thread is one access to `file_handle_` or
`current_file_size_`, or one call of the operating system, and all of these calls succeed.

A stream that was closed must not be used any more, and a null pointer cannot be; a call
that is given either is recorded as misused and has no other effect.

## Main definitions

* `Pc` — the program points of `Write` and `Rotate`.
* `State`, `next` — the manager and one step of one thread.
* `Step` — the kinds of steps.

## Main results

* `write_alone`, `rotate_alone` — a call that runs alone is the one of `FileManager`.
-/

namespace SpeckitLog
namespace FileManager
namespace Threads

open Function Transition

variable {ι δ : Type*} [DecidableEq δ] {host : Host δ}

/-- The program points of `Write` and `Rotate`: what a thread does next. -/
inductive Pc
  | idle
  /-- `Write`: test `file_handle_`. -/
  | testWrite (data : Text)
  /-- `std::fwrite`. -/
  | fwrite (data : Text)
  /-- `current_file_size_ += data.size()`: the load. -/
  | loadSize (data : Text)
  /-- And the store. -/
  | storeSize (data : Text) (size : ℕ)
  /-- `ShouldFlushToFile`. -/
  | testFlush (data : Text)
  /-- `FlushToFile`. -/
  | flush (data : Text)
  /-- Return from `Write`. -/
  | wrote (data : Text) (ok : Bool)
  /-- `Rotate`: test `file_handle_`. -/
  | testRotate
  /-- `CloseCurrentFile`: test `file_handle_`. -/
  | testClose
  /-- `std::fclose`. -/
  | fclose
  /-- `file_handle_ = nullptr`. -/
  | clearHandle
  /-- `GetHistoricalFiles`, `CalculateNextSequenceNumber` and `RenameWithSequence`. -/
  | rename
  /-- `DeleteOldestFiles`. -/
  | deleteOldest
  /-- `current_file_name_ = GenerateFileName(true)`. -/
  | setName
  /-- `OpenLogFile`. -/
  | openFile
  /-- `current_file_size_ = 0`. -/
  | clearSize
  /-- Return from `Rotate`. -/
  | rotated (ok : Bool)
  deriving DecidableEq

/-- The manager with its world, the program point of each thread, and the history. -/
structure State (ι : Type*) {δ : Type*} [DecidableEq δ] (host : Host δ) where
  fm : FileManager
  /-- `file_handle_` points to a stream that was closed. -/
  closed : Bool
  world : World host
  pc : ι → Pc
  /-- History: a call was given a stream that was closed, or none. -/
  misused : Bool
  /-- History: how many `Write` calls of each thread returned. -/
  number : ι → ℕ
  /-- History: the files that were written to, and the calls, in the order of `fwrite`. -/
  log : List (ℕ × Call ι Text)
  /-- History: the `Write` calls that returned true. -/
  accepted : List (Call ι Text)

/-- A manager before any call. -/
def init (ι : Type*) (fm : FileManager) (w : World host) : State ι host where
  fm := fm
  closed := false
  world := w
  pc _ := .idle
  misused := false
  number _ := 0
  log := []
  accepted := []

namespace State

variable (s : State ι host)

/-- The stream that a call is given which uses `file_handle_`. -/
def stream : Option FileStream := if s.closed then none else s.fm.fileHandle

/-! ### The effects of the steps -/

variable [DecidableEq ι] (i : ι)

/-- Only the program point of thread `i` changes. -/
def goto (p : Pc) : State ι host := { s with pc := update s.pc i p }

/-- `std::fwrite`, which passes on the first `pushed` bytes that wait. -/
def fwrite (data : Text) (pushed : ℕ) : State ι host :=
  match s.stream with
  | none => { s with misused := true, pc := update s.pc i (.wrote data false) }
  | some f =>
    { s with
      fm := s.fm.withHandle (some (f.fwrite s.world.fs data pushed).1)
      world := withFiles s.world (f.fwrite s.world.fs data pushed).2
      log := s.log ++ [(f.file, ⟨i, s.number i, data⟩)]
      pc := update s.pc i (.loadSize data) }

/-- The sum is stored. -/
def storeSize (data : Text) (size : ℕ) : State ι host :=
  { s with
    fm := { s.fm with currentFileSize := wrap (size + data.length) }
    pc := update s.pc i (.testFlush data) }

/-- `FlushToFile`. -/
def flush (data : Text) : State ι host :=
  match s.stream with
  | none => { s with misused := true, pc := update s.pc i (.wrote data false) }
  | some f =>
    { s with
      fm := s.fm.withHandle (some (f.fflush s.world.fs).1)
      world := withFiles s.world (f.fflush s.world.fs).2
      pc := update s.pc i (.wrote data true) }

/-- `Write` returns `ok`. -/
def returnWrite (data : Text) (ok : Bool) : State ι host :=
  { s with
    number := update s.number i (s.number i + 1)
    accepted := if ok then s.accepted ++ [⟨i, s.number i, data⟩] else s.accepted
    pc := update s.pc i .idle }

/-- `std::fclose`; `file_handle_` still points to the stream. -/
def fclose : State ι host :=
  match s.stream with
  | none => { s with misused := true, pc := update s.pc i .clearHandle }
  | some f =>
    { s with
      fm := s.fm.withHandle (some ⟨f.file, []⟩)
      closed := true
      world := withFiles s.world (f.fclose s.world.fs)
      pc := update s.pc i .clearHandle }

/-- `file_handle_ = nullptr`. -/
def clearHandle : State ι host :=
  { s with fm := s.fm.withHandle none, closed := false, pc := update s.pc i .rename }

/-- The file is renamed with the next number. -/
def rename (cwd : Text) : State ι host :=
  let (renamed, w) := s.fm.renameWithSequence s.world
    (calculateNextSequenceNumber (s.fm.getHistoricalFiles s.world cwd)) true
  { s with world := w, pc := update s.pc i (if renamed then .deleteOldest else .rotated false) }

/-- `DeleteOldestFiles`. -/
def deleteOldest (cwd : Text) : State ι host :=
  { s with
    world := s.fm.deleteOldestFiles s.world cwd fun _ => true
    pc := update s.pc i .setName }

/-- `current_file_name_ = GenerateFileName(true)`. -/
def setName : State ι host :=
  { s with
    fm := { s.fm with currentFileName := s.fm.generateFileName true }
    pc := update s.pc i .openFile }

/-- `OpenLogFile`. -/
def openFile : State ι host :=
  let (_, fm, w) := s.fm.openLogFile s.world true
  { s with fm := fm, closed := false, world := w, pc := update s.pc i .clearSize }

/-- `current_file_size_ = 0`. -/
def clearSize : State ι host :=
  { s with fm := { s.fm with currentFileSize := 0 }, pc := update s.pc i (.rotated true) }

/-! ### Where the thread is afterwards -/

@[simp] theorem goto_pc (p : Pc) : (s.goto i p).pc = update s.pc i p := rfl

@[simp] theorem storeSize_pc (data : Text) (size : ℕ) :
    (s.storeSize i data size).pc = update s.pc i (.testFlush data) := rfl

@[simp] theorem returnWrite_pc (data : Text) (ok : Bool) :
    (s.returnWrite i data ok).pc = update s.pc i .idle := rfl

@[simp] theorem returnWrite_number (data : Text) (ok : Bool) :
    (s.returnWrite i data ok).number = update s.number i (s.number i + 1) := rfl

@[simp] theorem clearSize_pc : (s.clearSize i).pc = update s.pc i (.rotated true) := rfl

end State

/-! ### The step function -/

/-- What a thread does: call a method, or take the next step of the running call. -/
inductive Act
  | write (data : Text)
  | rotate
  /-- An `fwrite` passes on so many bytes. -/
  | step (pushed : ℕ)
  deriving DecidableEq

variable [DecidableEq ι]

/-- Action `a` of thread `i`, in the current directory `cwd`; `none` when the thread has no
such step. -/
def threadNext (cwd : Text) (s : State ι host) (i : ι) (a : Act) : Option (State ι host) :=
  match s.pc i, a with
  | .idle, .write data => some (s.goto i (.testWrite data))
  | .idle, .rotate => some (s.goto i .testRotate)
  | .testWrite data, .step _ =>
    some (s.goto i (if s.fm.fileHandle = none then .wrote data false else .fwrite data))
  | .fwrite data, .step pushed => some (s.fwrite i data pushed)
  | .loadSize data, .step _ => some (s.goto i (.storeSize data s.fm.currentFileSize))
  | .storeSize data size, .step _ => some (s.storeSize i data size)
  | .testFlush data, .step _ =>
    some (s.goto i (if s.fm.shouldFlushToFile then .flush data else .wrote data true))
  | .flush data, .step _ => some (s.flush i data)
  | .wrote data ok, .step _ => some (s.returnWrite i data ok)
  | .testRotate, .step _ =>
    some (s.goto i (if s.fm.fileHandle = none then .rotated false else .testClose))
  | .testClose, .step _ => some (s.goto i (if s.fm.fileHandle = none then .rename else .fclose))
  | .fclose, .step _ => some (s.fclose i)
  | .clearHandle, .step _ => some (s.clearHandle i)
  | .rename, .step _ => some (s.rename i cwd)
  | .deleteOldest, .step _ => some (s.deleteOldest i cwd)
  | .setName, .step _ => some (s.setName i)
  | .openFile, .step _ => some (s.openFile i)
  | .clearSize, .step _ => some (s.clearSize i)
  | .rotated _, .step _ => some (s.goto i .idle)
  | _, _ => none

/-- One step of one thread. -/
def next (cwd : Text) (s : State ι host) (a : ι × Act) : Option (State ι host) :=
  threadNext cwd s a.1 a.2

/-- Thread `i` does `a` and takes `n` steps. -/
def doing (i : ι) (a : Act) (pushed n : ℕ) : List (ι × Act) :=
  (i, a) :: List.replicate n (i, .step pushed)

/-- `Step cwd s i a s'`: thread `i` takes the manager from `s` to `s'` by action `a`. -/
inductive Step (cwd : Text) (s : State ι host) (i : ι) : Act → State ι host → Prop
  | callWrite {data : Text} (hpc : s.pc i = .idle) :
      Step cwd s i (.write data) (s.goto i (.testWrite data))
  | callRotate (hpc : s.pc i = .idle) : Step cwd s i .rotate (s.goto i .testRotate)
  | testWrite {data : Text} {n : ℕ} (hpc : s.pc i = .testWrite data) : Step cwd s i (.step n)
      (s.goto i (if s.fm.fileHandle = none then .wrote data false else .fwrite data))
  | fwrite {data : Text} {n : ℕ} (hpc : s.pc i = .fwrite data) :
      Step cwd s i (.step n) (s.fwrite i data n)
  | loadSize {data : Text} {n : ℕ} (hpc : s.pc i = .loadSize data) :
      Step cwd s i (.step n) (s.goto i (.storeSize data s.fm.currentFileSize))
  | storeSize {data : Text} {size n : ℕ} (hpc : s.pc i = .storeSize data size) :
      Step cwd s i (.step n) (s.storeSize i data size)
  | testFlush {data : Text} {n : ℕ} (hpc : s.pc i = .testFlush data) : Step cwd s i (.step n)
      (s.goto i (if s.fm.shouldFlushToFile then .flush data else .wrote data true))
  | flush {data : Text} {n : ℕ} (hpc : s.pc i = .flush data) :
      Step cwd s i (.step n) (s.flush i data)
  | returnWrite {data : Text} {ok : Bool} {n : ℕ} (hpc : s.pc i = .wrote data ok) :
      Step cwd s i (.step n) (s.returnWrite i data ok)
  | testRotate {n : ℕ} (hpc : s.pc i = .testRotate) : Step cwd s i (.step n)
      (s.goto i (if s.fm.fileHandle = none then .rotated false else .testClose))
  | testClose {n : ℕ} (hpc : s.pc i = .testClose) : Step cwd s i (.step n)
      (s.goto i (if s.fm.fileHandle = none then .rename else .fclose))
  | fclose {n : ℕ} (hpc : s.pc i = .fclose) : Step cwd s i (.step n) (s.fclose i)
  | clearHandle {n : ℕ} (hpc : s.pc i = .clearHandle) : Step cwd s i (.step n) (s.clearHandle i)
  | rename {n : ℕ} (hpc : s.pc i = .rename) : Step cwd s i (.step n) (s.rename i cwd)
  | deleteOldest {n : ℕ} (hpc : s.pc i = .deleteOldest) :
      Step cwd s i (.step n) (s.deleteOldest i cwd)
  | setName {n : ℕ} (hpc : s.pc i = .setName) : Step cwd s i (.step n) (s.setName i)
  | openFile {n : ℕ} (hpc : s.pc i = .openFile) : Step cwd s i (.step n) (s.openFile i)
  | clearSize {n : ℕ} (hpc : s.pc i = .clearSize) : Step cwd s i (.step n) (s.clearSize i)
  | returnRotate {ok : Bool} {n : ℕ} (hpc : s.pc i = .rotated ok) :
      Step cwd s i (.step n) (s.goto i .idle)

variable {cwd : Text} {s s' : State ι host} {i j : ι} {a : Act}

/-- **Every step is one of the listed kinds.** -/
theorem step_of_next (h : threadNext cwd s i a = some s') : Step cwd s i a s' := by
  unfold threadNext at h
  split at h
  case h_20 => contradiction
  case h_1 data hpc => exact Option.some.inj h ▸ .callWrite hpc
  case h_2 hpc => exact Option.some.inj h ▸ .callRotate hpc
  case h_3 data n hpc => exact Option.some.inj h ▸ .testWrite hpc
  case h_4 data n hpc => exact Option.some.inj h ▸ .fwrite hpc
  case h_5 data n hpc => exact Option.some.inj h ▸ .loadSize hpc
  case h_6 data size n hpc => exact Option.some.inj h ▸ .storeSize hpc
  case h_7 data n hpc => exact Option.some.inj h ▸ .testFlush hpc
  case h_8 data n hpc => exact Option.some.inj h ▸ .flush hpc
  case h_9 data ok n hpc => exact Option.some.inj h ▸ .returnWrite hpc
  case h_10 n hpc => exact Option.some.inj h ▸ .testRotate hpc
  case h_11 n hpc => exact Option.some.inj h ▸ .testClose hpc
  case h_12 n hpc => exact Option.some.inj h ▸ .fclose hpc
  case h_13 n hpc => exact Option.some.inj h ▸ .clearHandle hpc
  case h_14 n hpc => exact Option.some.inj h ▸ .rename hpc
  case h_15 n hpc => exact Option.some.inj h ▸ .deleteOldest hpc
  case h_16 n hpc => exact Option.some.inj h ▸ .setName hpc
  case h_17 n hpc => exact Option.some.inj h ▸ .openFile hpc
  case h_18 n hpc => exact Option.some.inj h ▸ .clearSize hpc
  case h_19 ok n hpc => exact Option.some.inj h ▸ .returnRotate hpc

/-- **Every listed step can be taken.** -/
theorem next_of_step (h : Step cwd s i a s') : threadNext cwd s i a = some s' := by
  unfold threadNext
  cases h with
  | callWrite hpc | callRotate hpc => rw [hpc]
  | _ hpc => rw [hpc]

/-- A run goes on from a step. -/
theorem run_of_step {s₁ : State ι host} {as : List (ι × Act)} (h : Step cwd s i a s₁)
    (hrun : run (next cwd) (fun _ _ => true) s₁ as = some s') :
    run (next cwd) (fun _ _ => true) s ((i, a) :: as) = some s' := by
  rw [run, if_pos rfl, show next cwd s (i, a) = some s₁ from next_of_step h, Option.bind_some,
    hrun]

/-- A step of one thread leaves the program points of the others. -/
theorem Step.pc_of_ne (h : Step cwd s i a s') (hji : j ≠ i) : s'.pc j = s.pc j := by
  cases h with
  | fwrite hpc => unfold State.fwrite; split <;> exact update_of_ne hji _ _
  | flush hpc => unfold State.flush; split <;> exact update_of_ne hji _ _
  | fclose hpc => unfold State.fclose; split <;> exact update_of_ne hji _ _
  | _ => exact update_of_ne hji _ _

/-! ### Calls that run alone -/

theorem withHandle_withHandle (fm : FileManager) (handle handle' : Option FileStream) :
    (fm.withHandle handle).withHandle handle' = fm.withHandle handle' := rfl

/-- **A `Write` that runs alone** is the one of `FileManager`. -/
theorem write_alone (cwd : Text) (h : s.pc i = .idle) (hclosed : s.closed = false) (data : Text)
    (pushed : ℕ) : ∃ n ok s',
      run (next cwd) (fun _ _ => true) s (doing i (.write data) pushed n) = some s' ∧
      s'.pc i = .idle ∧ s'.closed = false ∧
      s'.accepted = (if ok then s.accepted ++ [⟨i, s.number i, data⟩] else s.accepted) ∧
      (ok, s'.fm, s'.world) = s.fm.write s.world data ⟨data.length, pushed, true, true⟩ := by
  cases hf : s.fm.fileHandle with
  | none =>
    refine ⟨2, false, _, run_of_step (.callWrite h) <| run_of_step (.testWrite (update_self ..)) <|
      run_of_step (.returnWrite (show _ = Pc.wrote data false by simp [State.goto, hf])) rfl, ?_⟩
    simp [State.returnWrite, State.goto, hclosed, FileManager.write, hf]
  | some f =>
    have hanswers : WriteAnswers.Succeed ⟨data.length, pushed, true, true⟩ data :=
      ⟨le_rfl, rfl, rfl⟩
    have hstream : ∀ pc : ι → Pc, State.stream { s with pc := pc } = some f := fun _ => by
      rw [State.stream, hclosed]
      exact hf
    rw [write_of_succeed hf hanswers]
    unfold streamAfter FileManager.sizeAfter
    by_cases hflush : wrap (s.fm.currentFileSize + data.length) % (1024 * 1024) = 0
    · refine ⟨7, true, _, run_of_step (.callWrite h) <|
        run_of_step (.testWrite (update_self ..)) <|
        run_of_step (.fwrite (show _ = Pc.fwrite data by simp [State.goto, hf])) <|
        run_of_step (.loadSize (show _ = Pc.loadSize data by
          simp [State.fwrite, hstream, State.goto])) <|
        run_of_step (.storeSize (update_self ..)) <| run_of_step (.testFlush (update_self ..)) <|
        run_of_step (.flush (show _ = Pc.flush data by
          simp [State.storeSize, State.fwrite, hstream, State.goto, shouldFlushToFile, hflush,
            withHandle])) <|
        run_of_step (.returnWrite (show _ = Pc.wrote data true by
          simp [State.flush, State.stream, State.storeSize, State.fwrite, State.goto, withHandle,
            hclosed, hf])) rfl, ?_⟩
      simp [State.returnWrite, State.flush, State.stream, State.storeSize, State.fwrite,
        State.goto, withHandle, hclosed, hf, hflush, withFiles]
    · refine ⟨6, true, _, run_of_step (.callWrite h) <|
        run_of_step (.testWrite (update_self ..)) <|
        run_of_step (.fwrite (show _ = Pc.fwrite data by simp [State.goto, hf])) <|
        run_of_step (.loadSize (show _ = Pc.loadSize data by
          simp [State.fwrite, hstream, State.goto])) <|
        run_of_step (.storeSize (update_self ..)) <| run_of_step (.testFlush (update_self ..)) <|
        run_of_step (.returnWrite (show _ = Pc.wrote data true by
          simp [State.storeSize, State.fwrite, hstream, State.goto, shouldFlushToFile, hflush,
            withHandle])) rfl, ?_⟩
      simpa [State.returnWrite, State.storeSize, State.fwrite, hstream, State.goto, withHandle,
        hflush, withFiles] using hclosed

/-- **A `Rotate` that runs alone** is the one of `FileManager`. -/
theorem rotate_alone (cwd : Text) (h : s.pc i = .idle) (hclosed : s.closed = false) : ∃ n s',
    run (next cwd) (fun _ _ => true) s (doing i .rotate 0 n) = some s' ∧
      s'.pc i = .idle ∧ s'.closed = false ∧
      (s'.fm, s'.world) = (s.fm.rotate s.world cwd ⟨true, fun _ => true, true⟩).2 := by
  cases hf : s.fm.fileHandle with
  | none =>
    refine ⟨2, _, run_of_step (.callRotate h) <| run_of_step (.testRotate (update_self ..)) <|
      run_of_step (.returnRotate (show _ = Pc.rotated false by simp [State.goto, hf])) rfl, ?_⟩
    simp [State.goto, hclosed, FileManager.rotate, hf]
  | some f =>
    have hclose := closeCurrentFile_some (w := s.world) hf
    have hstream : ∀ pc : ι → Pc, State.stream { s with pc := pc } = some f := fun _ => by
      rw [State.stream, hclosed]
      exact hf
    obtain ⟨⟨renamed, w⟩, hren⟩ : ∃ result, (s.fm.withHandle none).renameWithSequence
        (withFiles s.world (f.fclose s.world.fs)) (calculateNextSequenceNumber
          ((s.fm.withHandle none).getHistoricalFiles (withFiles s.world (f.fclose s.world.fs)) cwd))
        true = result := ⟨_, rfl⟩
    -- the steps up to the rename
    have hrename : ∀ {n s'}, run (next cwd) (fun _ _ => true)
          { s with
            fm := s.fm.withHandle none
            closed := false
            world := w
            pc := update s.pc i (if renamed then .deleteOldest else .rotated false) }
          (List.replicate n (i, .step 0)) = some s' →
        run (next cwd) (fun _ _ => true) s (doing i .rotate 0 (n + 5)) = some s' := by
      intro n s' hrun
      refine run_of_step (.callRotate h) <| run_of_step (.testRotate (update_self ..)) <|
        run_of_step (.testClose (show _ = Pc.testClose by simp [State.goto, hf])) <|
        run_of_step (.fclose (show _ = Pc.fclose by simp [State.goto, hf])) <|
        run_of_step (.clearHandle (show _ = Pc.clearHandle by
          simp [State.goto, State.fclose, hstream])) <|
        run_of_step (.rename (update_self ..)) ?_
      convert hrun using 2
      simp only [State.rename, State.clearHandle, State.fclose, State.goto, hstream,
        withHandle_withHandle, hren, update_idem]
    simp only [FileManager.rotate, hf, hclose, hren]
    cases renamed with
    | false =>
      exact ⟨6, _, hrename <| run_of_step (.returnRotate (update_self ..)) rfl, update_self .., rfl,
        rfl⟩
    | true =>
      exact ⟨10, _, hrename <| run_of_step (.deleteOldest (update_self ..)) <|
        run_of_step (.setName (update_self ..)) <| run_of_step (.openFile (update_self ..)) <|
        run_of_step (.clearSize (update_self ..)) <|
        run_of_step (.returnRotate (update_self ..)) rfl, update_self .., rfl, rfl⟩

end Threads
end FileManager
end SpeckitLog
