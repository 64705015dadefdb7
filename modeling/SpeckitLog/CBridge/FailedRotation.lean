import SpeckitLog.CBridge
import SpeckitLog.FileManager.Writes

/-!
# Rotations that fail

`Rotate` closes the file first.  When the file cannot be renamed, or the next one cannot be
opened, it returns false and no file is open any more; nothing opens one again, and every
message after it is lost.

## Main definitions

* `Journal.StillLogs` — a manager that can go on after a rotation that failed.
* `CBridge.LosesNothing` — every message that passes the filters is appended.
* `CBridge.RotationsSucceed` — every rotation with a message after it succeeds.

## Main results

* `FileManager.rotate_cases` — when a rotation succeeds, and what one that fails leaves.
* `CBridge.stillLogs_iff` — when a failed rotation leaves a working logger.
-/

namespace SpeckitLog

open FileManager

namespace FileManager

variable {δ : Type*} [DecidableEq δ] {host : Host δ} {fm : FileManager} {w : World host}

/-! ### When a rotation fails -/

/-- What a rotation needs: a file is open, it is found under its name, and the system
renames it and opens the next one. -/
def Rotatable (fm : FileManager) (w : World host) (answers : RotateAnswers) : Prop :=
  fm.fileHandle ≠ none ∧ w.fs.lookup (host.locate fm.currentFileName) ≠ none ∧
    answers.rename = true ∧ answers.openFile = true

theorem renameWithSequence_eq_true_iff (fm : FileManager) (w : World host) (sequence : ℤ)
    (rename : Bool) : (fm.renameWithSequence w sequence rename).1 = true ↔
      w.fs.lookup (host.locate fm.currentFileName) ≠ none ∧ rename = true := by
  unfold renameWithSequence
  cases rename with
  | false => simp
  | true =>
    cases hlookup : w.fs.lookup (host.locate fm.currentFileName) with
    | none =>
      have hnone : w.fs.rename (host.locate fm.currentFileName)
          (host.locate (fm.sequenceName sequence)) = none := by
        unfold FileSystem.rename
        split
        · rfl
        · next n hn => rw [hlookup] at hn; contradiction
      simp [hnone]
    | some n =>
      obtain ⟨fs, hfs⟩ := Option.isSome_iff_exists.mp
        (w.fs.rename_isSome (host.locate (fm.sequenceName sequence)) hlookup)
      simp [hfs]

/-- **A rotation succeeds, or it leaves no file open.** -/
theorem rotate_cases (fm : FileManager) (w : World host) (cwd : Text) (answers : RotateAnswers) :
    ((fm.rotate w cwd answers).1 = true ∧ Rotatable fm w answers) ∨
      ((fm.rotate w cwd answers).1 = false ∧ (fm.rotate w cwd answers).2.1.fileHandle = none ∧
        ¬ Rotatable fm w answers) := by
  cases hf : fm.fileHandle with
  | none =>
    have hrot : fm.rotate w cwd answers = (false, fm, w) := by simp only [rotate, hf]
    rw [hrot]
    exact Or.inr ⟨rfl, hf, fun h => h.1 hf⟩
  | some f =>
    have hclose := closeCurrentFile_some (w := w) hf
    have hiff := renameWithSequence_eq_true_iff (fm.withHandle none)
      (withFiles w (f.fclose w.fs)) (calculateNextSequenceNumber
        ((fm.withHandle none).getHistoricalFiles (withFiles w (f.fclose w.fs)) cwd)) answers.rename
    rcases hren : (fm.withHandle none).renameWithSequence (withFiles w (f.fclose w.fs))
      (calculateNextSequenceNumber ((fm.withHandle none).getHistoricalFiles
        (withFiles w (f.fclose w.fs)) cwd)) answers.rename with ⟨renamed, w₁⟩
    rw [hren] at hiff
    cases renamed with
    | false =>
      have hrot : fm.rotate w cwd answers = (false, fm.withHandle none, w₁) := by
        simp only [rotate, hf, hclose, hren, Bool.false_eq_true, if_false]
      rw [hrot]
      exact Or.inr ⟨rfl, rfl, fun h => Bool.false_ne_true (hiff.mpr ⟨h.2.1, h.2.2.1⟩)⟩
    | true =>
      obtain ⟨hnamed, hrename⟩ := hiff.mp rfl
      cases hopen : answers.openFile with
      | false =>
        refine Or.inr ⟨?_, ?_, fun h => ?_⟩
        · simp [rotate, hf, hclose, hren, openLogFile, hopen]
        · simp [rotate, hf, hclose, hren, openLogFile, hopen]
        · exact Bool.false_ne_true (hopen.symm.trans h.2.2.2)
      | true =>
        refine Or.inl ⟨?_, Option.isSome_iff_ne_none.mp (hf ▸ rfl), hnamed, hrename, hopen⟩
        simp [rotate, hf, hclose, hren, openLogFile, hopen]

end FileManager

namespace Journal

variable {δ : Type*} [DecidableEq δ] {host : Host δ}

/-- `Rotate` returns true. -/
def RotateReturns (io : Io) (cwd : Text) (j : Journal host) : Bool :=
  (j.fm.rotate j.world cwd (io.rotate j.calls.length)).1

/-- **A manager that can go on**: its file is open under its name, holds what was written
and has its size, and the next write appends to it. -/
structure StillLogs (j : Journal host) (written : Text) : Prop where
  isOpen : ∃ f, j.Open f
  contents : j.contents = written
  size : j.fm.currentFileSize = written.length
  appends : ∀ (io : Io) (data : Text), WriteAnswers.Succeed (io.write j.calls.length data) data →
    (j.write io data).1 = true ∧ (j.write io data).2.contents = written ++ data

variable {io : Io} {cwd : Text} {j : Journal host}

/-- **No failed rotation leaves a manager that can go on.** -/
theorem stillLogs_rotate_iff :
    (j.RotateReturns io cwd = false → StillLogs (j.rotate io cwd) j.contents) ↔
      Rotatable j.fm j.world (io.rotate j.calls.length) := by
  rcases rotate_cases j.fm j.world cwd (io.rotate j.calls.length) with
    ⟨htrue, hrotatable⟩ | ⟨hfalse, hnone, hnot⟩
  · exact iff_of_true (fun h => absurd (htrue.symm.trans h) (by decide)) hrotatable
  · refine iff_of_false (fun h => ?_) hnot
    obtain ⟨f, hopen⟩ := (h hfalse).isOpen
    exact absurd (hnone.symm.trans hopen.stream) (Option.some_ne_none f).symm

/-- **A rotation keeps the bytes** of the file, whether it succeeds or not. -/
theorem Open.bytesOf_rotate {f : FileStream} (h : j.Open f)
    (habs : host.isAbsolute j.fm.baseName = true) (io : Io) (cwd : Text) :
    (j.rotate io cwd).bytesOf f.file = f.bytes j.world.fs := by
  rcases rotate_cases j.fm j.world cwd (io.rotate j.calls.length) with
    ⟨-, -, -, hrename, hreopen⟩ | ⟨hfalse, hnone, -⟩
  · obtain ⟨f', hrot⟩ := h.rotated habs hrename hreopen cwd
    rw [hrot.bytesOf_eq, hrot.kept]
  · have hbytes : (j.rotate io cwd).bytesOf f.file = (j.rotate io cwd).world.fs.data f.file := by
      unfold bytesOf
      rw [show (j.rotate io cwd).fm.fileHandle = none from hnone]
    rw [hbytes]
    have hends := rotated_of_rotate (w := j.world) habs cwd (io.rotate j.calls.length)
    unfold Journal.rotate
    generalize j.fm.rotate j.world cwd (io.rotate j.calls.length) = result at hends hfalse
    obtain ⟨ok, fm, w⟩ := result
    cases hends with
    | closed hclosed => exact absurd (hclosed.symm.trans h.stream) (Option.some_ne_none f).symm
    | notRenamed hsome _ =>
      obtain rfl := Option.some.inj (hsome.symm.trans h.stream)
      exact FileStream.data_fclose _ _
    | notOpened hsome _ hren _ =>
      obtain rfl := Option.some.inj (hsome.symm.trans h.stream)
      obtain ⟨n, -, hdata, -⟩ := FileSystem.rename_eq_some hren
      exact (congrFun hdata _).trans (FileStream.data_fclose _ _)
    | done => exact absurd hfalse (by simp)

/-- Without a file a write does nothing. -/
theorem write_of_closed (io : Io) (h : j.fm.fileHandle = none) (data : Text) :
    (j.write io data).1 = false ∧ (j.write io data).2.fm = j.fm ∧
      (j.write io data).2.world = j.world := by
  unfold Journal.write FileManager.write
  rw [h]
  exact ⟨rfl, rfl, rfl⟩

end Journal

namespace CBridge

variable {δ : Type*} [DecidableEq δ] {host : Host δ} {io : Io} {cwd : Text}
  {logger : SpeckitLogger host} {filter : TagFilter} {calls : List Call}

/-! ### Whole runs -/

/-- The call is one of `log` that passes the filters. -/
def Writes (filter : TagFilter) : Call → Prop
  | .setLogLevel _ => False
  | .log level tag _ => Passes filter level tag

/-- The message of the call is appended, if it passes the filters. -/
def Keeps (io : Io) (cwd : Text) (logger : SpeckitLogger host) (c : Call) : Prop :=
  match c with
  | .setLogLevel _ => True
  | .log level tag message => Passes logger.tagFilter level tag →
      Appended logger.journal message (call io cwd logger c).journal

/-- **No message is lost.** -/
def LosesNothing (io : Io) (cwd : Text) : SpeckitLogger host → List Call → Prop
  | _, [] => True
  | logger, c :: calls => Keeps io cwd logger c ∧ LosesNothing io cwd (call io cwd logger c) calls

/-- The message of the call takes the file to its limit, and the system does not rename it
or does not open the next one. -/
def FailsToRotate (io : Io) (logger : SpeckitLogger host) : Call → Prop
  | .setLogLevel _ => False
  | .log level tag message => Passes logger.tagFilter level tag ∧
      logger.journal.fm.maxSize ≤ logger.journal.fm.sizeAfter (message ++ ['\n']) ∧
      ¬ ((io.rotate (logger.journal.calls.length + 1)).rename = true ∧
        (io.rotate (logger.journal.calls.length + 1)).openFile = true)

/-- **No rotation fails** before another message. -/
def RotationsSucceed (io : Io) (cwd : Text) : SpeckitLogger host → List Call → Prop
  | _, [] => True
  | logger, c :: calls =>
    (FailsToRotate io logger c → ∀ c' ∈ calls, ¬ Writes logger.tagFilter c') ∧
      RotationsSucceed io cwd (call io cwd logger c) calls

/-- No call changes the filter. -/
theorem call_tagFilter (c : Call) : (call io cwd logger c).tagFilter = logger.tagFilter := by
  cases c with
  | setLogLevel level => rfl
  | log level tag message =>
    by_cases hpasses : Passes logger.tagFilter level tag
    · rw [call, log_of_passes io cwd message hpasses]
      split <;> rfl
    · rw [call_of_not_passes hpasses]

/-- Without a file a message that passes is not appended, and no file is opened. -/
theorem call_of_closed (io : Io) (cwd : Text) (h : logger.journal.fm.fileHandle = none) (c : Call) :
    (call io cwd logger c).journal.fm.fileHandle = none ∧
      (Keeps io cwd logger c ↔ ¬ Writes logger.tagFilter c) := by
  cases c with
  | setLogLevel level => exact ⟨h, iff_of_true trivial id⟩
  | log level tag message =>
    refine ⟨?_, fun hkeeps hpasses => ?_, fun hnot hpasses => absurd hpasses hnot⟩
    · by_cases hpasses : Passes logger.tagFilter level tag
      · obtain ⟨hreturn, hfm, -⟩ := Journal.write_of_closed io h (message ++ ['\n'])
        rw [call, log_of_passes io cwd message hpasses, hreturn]
        exact hfm ▸ h
      · rwa [call_of_not_passes hpasses]
    · obtain ⟨f, hf, -⟩ := hkeeps hpasses
      exact absurd (h.symm.trans hf) (Option.some_ne_none f).symm

theorem losesNothing_of_closed (h : logger.journal.fm.fileHandle = none) (calls : List Call) :
    LosesNothing io cwd logger calls ↔ ∀ c ∈ calls, ¬ Writes logger.tagFilter c := by
  induction calls generalizing logger with
  | nil => exact iff_of_true trivial fun c hc => absurd hc List.not_mem_nil
  | cons c calls ih =>
    obtain ⟨hclosed, hkeeps⟩ := call_of_closed io cwd h c
    rw [LosesNothing, hkeeps, ih hclosed, call_tagFilter, List.forall_mem_cons]

/-- Without messages that pass no rotation is tried. -/
theorem rotationsSucceed_of_silent (h : ∀ c ∈ calls, ¬ Writes logger.tagFilter c) :
    RotationsSucceed io cwd logger calls := by
  induction calls generalizing logger with
  | nil => trivial
  | cons c calls ih =>
    obtain ⟨hc, hcalls⟩ := List.forall_mem_cons.mp h
    exact ⟨fun _ => hcalls, ih (by rwa [call_tagFilter])⟩

/-- **What a call does to a ready logger**: a message that passes is appended, and the logger
is ready for the next one, unless the rotation after it fails. -/
theorem call_cases_of_ready (h : Ready filter logger) (cwd : Text)
    (hwrites : ∀ n data, WriteAnswers.Succeed (io.write n data) data) (c : Call) :
    Keeps io cwd logger c ∧
      (FailsToRotate io logger c ∧ (call io cwd logger c).journal.fm.fileHandle = none ∨
        ¬ FailsToRotate io logger c ∧ Ready filter (call io cwd logger c)) := by
  cases c with
  | setLogLevel level => exact ⟨trivial, Or.inr ⟨id, h.isOpen, h.absolute, h.tagFilter⟩⟩
  | log level tag message =>
    by_cases hpasses : Passes logger.tagFilter level tag
    swap
    · refine ⟨fun hp => absurd hp hpasses, Or.inr ⟨fun hf => hpasses hf.1, ?_⟩⟩
      rwa [call_of_not_passes hpasses]
    obtain ⟨f, hopen⟩ := h.isOpen
    obtain ⟨j, f₁, heq, hwrote⟩ := hopen.wrote (hwrites logger.journal.calls.length _)
    have hcall : call io cwd logger (.log level tag message) = { logger with
        journal := if j.fm.needsRotation then j.rotate io cwd else j } := by
      rw [call, log_of_passes io cwd message hpasses, heq]
      rfl
    have habs : host.isAbsolute j.fm.baseName = true := by
      rw [hwrote.manager]
      exact h.absolute
    have hmax : logger.journal.fm.maxSize ≤ logger.journal.fm.sizeAfter (message ++ ['\n']) ↔
        j.fm.needsRotation = true := by
      rw [hwrote.manager, needsRotation, decide_eq_true_eq]
    have hcalls : j.calls.length = logger.journal.calls.length + 1 := by
      rw [hwrote.calls, List.length_append, List.length_singleton]
    have hbytes : f.bytes logger.journal.world.fs = logger.journal.bytesOf f.file := by
      rw [hopen.bytesOf_eq, if_pos rfl]
    unfold Keeps FailsToRotate
    dsimp only
    rw [hcall, hmax, ← hcalls]
    cases hneeds : j.fm.needsRotation with
    | false =>
      refine ⟨fun _ => ⟨f, hopen.stream, ?_⟩, Or.inr ⟨fun hf => ?_, ?_⟩⟩
      · show j.bytesOf f.file = _
        rw [hwrote.isOpen.bytesOf_eq, if_pos hwrote.file.symm, hwrote.bytes, hbytes]
      · exact Bool.false_ne_true hf.2.1
      · exact ⟨⟨f₁, hwrote.isOpen⟩, habs, h.tagFilter⟩
    | true =>
      refine ⟨fun _ => ⟨f, hopen.stream, ?_⟩, ?_⟩
      · show (j.rotate io cwd).bytesOf f.file = _
        have hkept := hwrote.isOpen.bytesOf_rotate habs io cwd
        rw [hwrote.file] at hkept
        rw [hkept, hwrote.bytes, hbytes]
      · rcases rotate_cases j.fm j.world cwd (io.rotate j.calls.length) with
          ⟨-, -, -, hrename, hreopen⟩ | ⟨-, hnone, hnot⟩
        · obtain ⟨f', hrot⟩ := hwrote.isOpen.rotated habs hrename hreopen cwd
          refine Or.inr ⟨fun hf => hf.2.2 ⟨hrename, hreopen⟩, ⟨f', hrot.isOpen⟩, ?_, h.tagFilter⟩
          show host.isAbsolute (j.rotate io cwd).fm.baseName = true
          rw [hrot.manager]
          exact habs
        · refine Or.inl ⟨⟨hpasses, rfl, fun hok => hnot ⟨?_, ?_, hok⟩⟩, hnone⟩
          · rw [hwrote.isOpen.stream]
            exact Option.some_ne_none _
          · rw [hwrote.isOpen.named]
            exact Option.some_ne_none _

/-- **When a run loses nothing**: when no rotation fails before another message. -/
theorem losesNothing_iff (h : Ready filter logger) (cwd : Text)
    (hwrites : ∀ n data, WriteAnswers.Succeed (io.write n data) data) (calls : List Call) :
    LosesNothing io cwd logger calls ↔ RotationsSucceed io cwd logger calls := by
  induction calls generalizing logger with
  | nil => exact Iff.rfl
  | cons c calls ih =>
    obtain ⟨hkeeps, ⟨hfails, hclosed⟩ | ⟨hnot, hready⟩⟩ := call_cases_of_ready h cwd hwrites c
    · -- what comes after the rotation is kept if it is nothing
      rw [LosesNothing, RotationsSucceed, losesNothing_of_closed hclosed, call_tagFilter]
      refine ⟨fun hlost => ⟨fun _ => hlost.2, ?_⟩, fun hsucceed => ⟨hkeeps, hsucceed.1 hfails⟩⟩
      exact rotationsSucceed_of_silent (by rw [call_tagFilter]; exact hlost.2)
    · rw [LosesNothing, RotationsSucceed, ih hready]
      exact ⟨fun hlost => ⟨fun hfails => absurd hfails hnot, hlost.2⟩,
        fun hsucceed => ⟨hkeeps, hsucceed.2⟩⟩

/-- **When a failed rotation leaves a working logger**: never.  A manager can go on after
`Rotate` returned false only in that it did not; and the messages of a run are all appended
just when no rotation failed before one of them. -/
theorem stillLogs_iff {w : World host} {config cwd₀ : Text} {processId : ℤ}
    {answers : InitAnswers} (hcwd : host.isAbsolute cwd₀ = true)
    (hcreate : create w cwd₀ (some config) processId answers = some logger)
    (hinit : logger.journal.fm.initialized = true) (io : Io)
    (hwrites : ∀ n data, WriteAnswers.Succeed (io.write n data) data) (cwd : Text) :
    (∀ (j : Journal host) (io : Io),
      (j.RotateReturns io cwd = false → Journal.StillLogs (j.rotate io cwd) j.contents) ↔
        Rotatable j.fm j.world (io.rotate j.calls.length)) ∧
      ∀ filter calls, LosesNothing io cwd { logger with tagFilter := filter } calls ↔
        RotationsSucceed io cwd { logger with tagFilter := filter } calls :=
  ⟨fun _ _ => Journal.stillLogs_rotate_iff,
    fun filter => losesNothing_iff (ready_of_create hcwd hcreate hinit filter) cwd hwrites⟩

/-! ### A rename that fails -/

theorem stillLogs_iff_createdApp : ∃ logger, createdApp = some logger ∧
    LosesNothing (.pushing fun _ => 0) ['/'] { logger with tagFilter := .new } obeyed := by
  obtain ⟨logger, hlogger, hinit⟩ := createdApp_initialized
  refine ⟨logger, hlogger, ((stillLogs_iff (by decide) hlogger hinit (.pushing fun _ => 0)
    (Io.pushing_succeeds fun _ => 0).write ['/']).2 .new obeyed).mpr ?_⟩
  have hno : ∀ (logger : SpeckitLogger Host.posix) c,
      ¬ FailsToRotate (.pushing fun _ => 0) logger c := by
    rintro logger (level | ⟨level, tag, message⟩) hfails
    · exact hfails
    · exact hfails.2.2 ⟨rfl, rfl⟩
  exact ⟨fun hf => absurd hf (hno _ _), fun hf => absurd hf (hno _ _),
    fun hf => absurd hf (hno _ _), trivial⟩

/-- Every write succeeds, and no file is renamed. -/
def noRename : Io where
  write n data := (Io.pushing fun _ => 0).write n data
  rotate _ := ⟨false, fun _ => true, true⟩

/-- **A file that cannot be renamed**: the manager has no file after that.  A message that
takes the file to ten mebibytes is the last one to be logged. -/
theorem not_stillLogs_noRename :
    (Journal.app.RotateReturns noRename ['/'] = false ∧
      ¬ Journal.StillLogs (Journal.app.rotate noRename ['/']) Journal.app.contents) ∧
    ∃ logger, createdApp = some logger ∧
      ¬ LosesNothing noRename ['/'] { logger with tagFilter := .new }
        [.log 2 none (Journal.ofLength (10 * 1024 * 1024)), .log 2 none "up".toList] := by
  refine ⟨⟨by decide +kernel, fun h => ?_⟩, ?_⟩
  · obtain ⟨f, hopen⟩ := h.isOpen
    have hnone : (Journal.app.rotate noRename ['/']).fm.fileHandle = none := by decide +kernel
    exact absurd (hnone.symm.trans hopen.stream) (Option.some_ne_none f).symm
  · obtain ⟨logger, hlogger, hinit⟩ := createdApp_initialized
    have hready := ready_of_create (by decide) hlogger hinit .new
    refine ⟨logger, hlogger, fun hlost => ?_⟩
    have hwrites : ∀ n data, WriteAnswers.Succeed (noRename.write n data) data :=
      (Io.pushing_succeeds fun _ => 0).write
    have hsucceed := (losesNothing_iff hready ['/'] hwrites _).mp hlost
    -- the limit of a logger is that of the constructor, and its file is empty
    have hlimits : createdApp.map (fun l => (l.journal.fm.maxSize, l.journal.fm.currentFileSize)) =
        some (10 * 1024 * 1024, 0) := by decide +kernel
    rw [hlogger] at hlimits
    obtain ⟨hmax, hsize⟩ := Prod.mk.inj (Option.some.inj hlimits)
    have hpasses : Passes .new 2 none := by decide
    refine hsucceed.1 ⟨hpasses, ?_, fun h => Bool.false_ne_true h.1⟩ _
      (List.mem_singleton_self _) hpasses
    show logger.journal.fm.maxSize ≤ wrap (logger.journal.fm.currentFileSize + _)
    rw [hmax, hsize, Journal.ofLength, List.length_append, List.length_replicate]
    rw [wrap_of_lt (by decide)]
    decide

end CBridge
end SpeckitLog
