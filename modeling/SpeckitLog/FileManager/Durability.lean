import SpeckitLog.FileManager.Processes
import SpeckitLog.Lib.Streams

/-!
# What reaches the files

The processes of a machine write, flush, rotate, exit and crash in any order, and every
call of the operating system may fail.  Seen from the files this is a store of streams:
`Write` gives bytes to a stream, `FlushToFile`, `Rotate` and the destructor send on what
it holds back, and a crash loses it, as a failing `fflush` or `fclose` may.  So the bytes of
every file are accounted for.

## Main definitions

* `Processes.acts`, `Processes.eventActs` — what a step does to the stream of its process.
* `Processes.Traced` — the processes, with all they did to their streams.
* `Processes.Matches` — a store of streams has the files and the streams of the processes.

## Main results

* `Processes.bytes_accounted` — every byte of a file is accounted for.
* `Processes.appendOnly` — no file loses or changes a byte.
* `Processes.durable_of_settles` — what a flush, a rotation or an exit puts in the file for good.
* `Processes.large_of_needsRotation` — a file that is to be rotated is large enough.
-/

namespace SpeckitLog

open Function Transition

namespace FileManager

variable {δ : Type*} [DecidableEq δ] {host : Host δ} {fm : FileManager} {w : World host}
  {f : FileStream}

/-! ### What the operations do to streams and files -/

/-- Without a file nothing happens. -/
theorem write_closed (hf : fm.fileHandle = none) (data : Text) (answers : WriteAnswers) :
    fm.write w data answers = (false, fm, w) := by
  simp only [write, hf]

theorem flush_closed (hf : fm.fileHandle = none) (answers : WriteAnswers) :
    fm.flush w answers = (false, fm, w) := by
  simp only [flush, hf]

theorem rotate_closed (hf : fm.fileHandle = none) (cwd : Text) (answers : RotateAnswers) :
    fm.rotate w cwd answers = (false, fm, w) := by
  simp only [rotate, hf]

theorem flush_open (hf : fm.fileHandle = some f) (answers : WriteAnswers) :
    fm.flush w answers = fm.flushToFile w answers := by
  simp only [flush, hf]

theorem initializeAs_again (hinit : fm.initialized = true) (cwd : Text) (processId : ℤ)
    (answers : InitAnswers) : fm.initializeAs w cwd processId answers = (true, fm, w) := by
  simp only [initializeAs, hinit, if_true]

/-- What an operation on an open manager ends in: this stream, these files and this size. -/
structure EndsIn (fm : FileManager) (r : Bool × FileManager × World host)
    (streams : FileStream × FileSystem host.Place) (size : ℕ) : Prop where
  handle : r.2.1.fileHandle = some streams.1
  fs : r.2.2.fs = streams.2
  initialized : r.2.1.initialized = fm.initialized
  maxSize : r.2.1.maxSize = fm.maxSize
  size : r.2.1.currentFileSize = size

/-- The stream and the files after `FlushToFile`. -/
def afterFlush (f : FileStream) (fs : FileSystem host.Place) (answers : WriteAnswers) :
    FileStream × FileSystem host.Place :=
  if answers.fflush = true then f.fflush fs else (f, fs)

/-- A write of this data goes on to `FlushToFile`. -/
def FlushesAfter (fm : FileManager) (data : Text) (answers : WriteAnswers) : Prop :=
  min answers.accepted data.length = data.length ∧ fm.sizeAfter data % (1024 * 1024) = 0

instance (fm : FileManager) (data : Text) (answers : WriteAnswers) :
    Decidable (fm.FlushesAfter data answers) := inferInstanceAs (Decidable (_ ∧ _))

/-- The stream and the files after `fwrite` of what the system accepts. -/
def afterFwrite (f : FileStream) (fs : FileSystem host.Place) (data : Text)
    (answers : WriteAnswers) : FileStream × FileSystem host.Place :=
  f.fwrite fs (data.take (min answers.accepted data.length)) answers.pushed

/-- The stream and the files after `Write`. -/
def afterWrite (fm : FileManager) (f : FileStream) (fs : FileSystem host.Place) (data : Text)
    (answers : WriteAnswers) : FileStream × FileSystem host.Place :=
  if fm.FlushesAfter data answers then
    afterFlush (afterFwrite f fs data answers).1 (afterFwrite f fs data answers).2 answers
  else afterFwrite f fs data answers

/-- **`FlushToFile`**, whatever it returns. -/
theorem endsIn_flushToFile (hf : fm.fileHandle = some f) (answers : WriteAnswers) :
    EndsIn fm (fm.flushToFile w answers) (afterFlush f w.fs answers) fm.currentFileSize := by
  unfold afterFlush
  by_cases hflush : answers.fflush = true
  · simp only [flushToFile, hf, if_pos hflush]
    exact ⟨rfl, rfl, rfl, rfl, rfl⟩
  · simp only [flushToFile, hf, if_neg hflush]
    exact ⟨hf, rfl, rfl, rfl, rfl⟩

theorem fflush_of_flushToFile {answers : WriteAnswers}
    (h : (fm.flushToFile w answers).1 = true) : answers.fflush = true := by
  unfold flushToFile at h
  split at h
  · contradiction
  · split at h
    · assumption
    · contradiction

/-- **`Write`**, whatever it returns. -/
theorem endsIn_write (hf : fm.fileHandle = some f) (data : Text) (answers : WriteAnswers) :
    EndsIn fm (fm.write w data answers) (fm.afterWrite f w.fs data answers)
      (if min answers.accepted data.length = data.length then fm.sizeAfter data
        else fm.currentFileSize) := by
  unfold afterWrite
  by_cases hfull : min answers.accepted data.length = data.length
  · rw [if_pos hfull]
    by_cases hsize : wrap (fm.currentFileSize + data.length) % (1024 * 1024) = 0
    · rw [if_pos ⟨hfull, hsize⟩]
      have hwrite : fm.write w data answers = flushToFile
          { fm with
            fileHandle := some (afterFwrite f w.fs data answers).1
            currentFileSize := fm.sizeAfter data }
          (withFiles w (afterFwrite f w.fs data answers).2) answers := by
        simp only [FileManager.write, hf, hfull, ne_eq, not_true_eq_false, if_false,
          shouldFlushToFile, hsize, decide_true, if_true, afterFwrite]
        rfl
      have hstream : FileManager.fileHandle { fm with
          fileHandle := some (afterFwrite f w.fs data answers).1
          currentFileSize := fm.sizeAfter data } = some (afterFwrite f w.fs data answers).1 := rfl
      have hends := endsIn_flushToFile (w := withFiles w (afterFwrite f w.fs data answers).2)
        hstream answers
      rw [hwrite]
      exact ⟨hends.handle, hends.fs, hends.initialized, hends.maxSize, hends.size⟩
    · rw [if_neg fun h => hsize h.2]
      simp only [FileManager.write, hf, hfull, ne_eq, not_true_eq_false, if_false,
        shouldFlushToFile, hsize, decide_false, Bool.false_eq_true, afterFwrite]
      exact ⟨rfl, rfl, rfl, rfl, rfl⟩
  · rw [if_neg hfull, if_neg fun h => hfull h.1]
    simp only [FileManager.write, hf, ne_eq, hfull, not_false_eq_true, if_true, afterFwrite]
    exact ⟨rfl, rfl, rfl, rfl, rfl⟩

/-- Deleting files takes no byte from a file that is open. -/
theorem deleteOldestLoop_frame (retentionCount : ℕ) (remove : Text → Bool)
    (historicalFiles : List Text) (w : World host) :
    (deleteOldestLoop retentionCount remove historicalFiles w).fs.data = w.fs.data ∧
      (deleteOldestLoop retentionCount remove historicalFiles w).fs.next = w.fs.next := by
  fun_induction deleteOldestLoop retentionCount remove historicalFiles w with
  | case1 => exact ⟨rfl, rfl⟩
  | case2 historicalFiles w _ oldest _ w₁ ih =>
    have hw₁ : w₁.fs.data = w.fs.data ∧ w₁.fs.next = w.fs.next := by
      simp only [w₁]
      split <;> exact ⟨rfl, rfl⟩
    exact ⟨ih.1.trans hw₁.1, ih.2.trans hw₁.2⟩
  | case3 => exact ⟨rfl, rfl⟩

/-- Neither does renaming the current file. -/
theorem renameWithSequence_frame (fm : FileManager) (w : World host) (sequence : ℤ)
    (rename : Bool) :
    (fm.renameWithSequence w sequence rename).2.fs.data = w.fs.data ∧
      (fm.renameWithSequence w sequence rename).2.fs.next = w.fs.next := by
  unfold renameWithSequence
  split
  · split
    · next fs hren =>
      obtain ⟨-, -, hdata, -⟩ := FileSystem.rename_eq_some hren
      exact ⟨hdata, FileSystem.next_rename hren⟩
    · exact ⟨rfl, rfl⟩
  · exact ⟨rfl, rfl⟩

theorem fs_cleanupMutex (fm : FileManager) (w : World host) :
    (fm.cleanupMutex w).2.fs = w.fs := by
  unfold cleanupMutex
  split
  · rfl
  · cases host.os <;> rfl

/-- A process that dies takes nothing from the files. -/
theorem fs_die (fm : FileManager) (w : World host) : (fm.die w).fs = w.fs := fs_cleanupMutex fm w

theorem fs_destroy_of_some (hf : fm.fileHandle = some f) :
    (fm.destroy w).fs = f.fclose w.fs := by
  simp only [destroy, closeCurrentFile_some hf]
  exact fs_cleanupMutex _ _

theorem fs_destroy_of_none (hf : fm.fileHandle = none) : (fm.destroy w).fs = w.fs := by
  simp only [destroy, closeCurrentFile, hf]
  exact fs_cleanupMutex _ _

theorem lapse_closed (hf : fm.fileHandle = none) (pushed : ℕ) (lost : Bool) :
    fm.lapse w pushed lost = (fm, w) := by
  simp only [lapse, hf]

theorem lapse_open (hf : fm.fileHandle = some f) (pushed : ℕ) (lost : Bool) :
    fm.lapse w pushed lost = (fm.withHandle (some (f.lapse w.fs pushed lost).1),
      withFiles w (f.lapse w.fs pushed lost).2) := by
  simp only [lapse, hf]
  rfl

theorem rotateThrows_closed (hf : fm.fileHandle = none) (cwd : Text) (renames : Bool) :
    fm.rotateThrows w cwd renames = (fm, w) := by
  simp only [rotateThrows, hf]

/-- What `Initialize` and `Rotate` do to files and streams once nothing is open: nothing, or
a file is opened, which is new when no place leads to it. -/
inductive OpensFile (fs : FileSystem host.Place) : Option FileStream → FileSystem host.Place → Prop
  | nothing {fs' : FileSystem host.Place} (hdata : fs'.data = fs.data)
      (hnext : fs'.next = fs.next) : OpensFile fs none fs'
  | file {fs₁ : FileSystem host.Place} {place : host.Place} (hdata : fs₁.data = fs.data)
      (hnext : fs₁.next = fs.next) :
      OpensFile fs (some ⟨(fs₁.openAppend place).1, []⟩) (fs₁.openAppend place).2

/-- The files that are there keep their bytes. -/
theorem OpensFile.data_eq {fs fs' : FileSystem host.Place} {handle : Option FileStream}
    (h : OpensFile fs handle fs') {n : ℕ} (hn : n < fs.next) : fs'.data n = fs.data n := by
  cases h with
  | nothing hdata _ => rw [hdata]
  | @file fs₁ place hdata hnext =>
    rw [← hdata]
    unfold FileSystem.openAppend
    split
    · rfl
    · exact update_of_ne (by omega) _ _

/-- **`Rotate`** closes the file, and opens the next if it can. -/
theorem opens_of_rotate (hf : fm.fileHandle = some f) (cwd : Text) (answers : RotateAnswers) :
    OpensFile (f.fclose w.fs) (fm.rotate w cwd answers).2.1.fileHandle
        (fm.rotate w cwd answers).2.2.fs ∧
      (fm.rotate w cwd answers).2.1.initialized = fm.initialized ∧
      (fm.rotate w cwd answers).2.1.maxSize = fm.maxSize ∧
      ((fm.rotate w cwd answers).2.1.fileHandle ≠ none →
        (fm.rotate w cwd answers).2.1.currentFileSize = 0) := by
  have hclose := closeCurrentFile_some (w := w) hf
  obtain ⟨hdata, hnext⟩ := renameWithSequence_frame (fm.withHandle none)
    (withFiles w (f.fclose w.fs)) (calculateNextSequenceNumber
      ((fm.withHandle none).getHistoricalFiles (withFiles w (f.fclose w.fs)) cwd)) answers.rename
  rcases hren : (fm.withHandle none).renameWithSequence (withFiles w (f.fclose w.fs))
    (calculateNextSequenceNumber ((fm.withHandle none).getHistoricalFiles
      (withFiles w (f.fclose w.fs)) cwd)) answers.rename with ⟨renamed, w₁⟩
  rw [hren] at hdata hnext
  cases renamed with
  | false =>
    simp only [rotate, hf, hclose, hren, Bool.false_eq_true, if_false]
    exact ⟨.nothing hdata hnext, rfl, rfl, fun h => absurd rfl h⟩
  | true =>
    obtain ⟨hdata', hnext'⟩ := deleteOldestLoop_frame fm.retentionCount answers.remove
      ((fm.withHandle none).getHistoricalFiles w₁ cwd) w₁
    cases hopen : answers.openFile with
    | false =>
      simp only [rotate, hf, hclose, hren, if_true, openLogFile, hopen, Bool.false_eq_true,
        if_false]
      exact ⟨.nothing (hdata'.trans hdata) (hnext'.trans hnext), rfl, rfl, fun h => absurd rfl h⟩
    | true =>
      simp only [rotate, hf, hclose, hren, if_true, openLogFile, hopen]
      exact ⟨.file (hdata'.trans hdata) (hnext'.trans hnext), rfl, rfl, fun _ => trivial⟩

/-- A `Rotate` that throws has closed the file. -/
theorem opens_of_rotateThrows (hf : fm.fileHandle = some f) (cwd : Text) (renames : Bool) :
    (fm.rotateThrows w cwd renames).1 = fm.withHandle none ∧
      OpensFile (f.fclose w.fs) none (fm.rotateThrows w cwd renames).2.fs := by
  have hclose := closeCurrentFile_some (w := w) hf
  simp only [rotateThrows, hf, hclose, true_and]
  obtain ⟨hdata, hnext⟩ := renameWithSequence_frame (fm.withHandle none)
    (withFiles w (f.fclose w.fs)) (calculateNextSequenceNumber
      ((fm.withHandle none).getHistoricalFiles (withFiles w (f.fclose w.fs)) cwd)) renames
  exact .nothing hdata hnext

/-- **`Initialize`** opens the file if it can, and reads its size. -/
theorem opens_of_initializeAs (hinit : fm.initialized = false) (hf : fm.fileHandle = none)
    (w : World host) (cwd : Text) (processId : ℤ) (answers : InitAnswers) :
    OpensFile w.fs (fm.initializeAs w cwd processId answers).2.1.fileHandle
        (fm.initializeAs w cwd processId answers).2.2.fs ∧
      ((fm.initializeAs w cwd processId answers).2.1.initialized = false →
        (fm.initializeAs w cwd processId answers).2.1.fileHandle = none) ∧
      (fm.initializeAs w cwd processId answers).2.1.maxSize = fm.maxSize ∧
      ∀ f, (fm.initializeAs w cwd processId answers).2.1.fileHandle = some f →
        (fm.initializeAs w cwd processId answers).2.1.currentFileSize =
          ((fm.initializeAs w cwd processId answers).2.2.fs.data f.file).length := by
  have hends := initialized_of_initializeAs fm w cwd processId answers
  generalize fm.initializeAs w cwd processId answers = r at hends ⊢
  obtain ⟨ok, fm', w'⟩ := r
  cases hends with
  | again h => exact absurd (h.symm.trans hinit) (by decide)
  | noDirectory =>
    dsimp only
    rw [hf]
    exact ⟨.nothing rfl rfl, fun _ => rfl, rfl, nofun⟩
  | notOpened _ helect _ =>
    obtain ⟨hfm, hfs⟩ := helect.frame
    refine ⟨.nothing (congrArg _ hfs) (congrArg _ hfs), fun _ => rfl, ?_, nofun⟩
    rw [hfm]
  | @done another fm₁ w₁ n fs _ helect hopen =>
    obtain ⟨hfm, hfs⟩ := helect.frame
    have hfile : OpensFile w.fs
        (some ⟨(w₁.fs.openAppend (host.locate (fm₁.generateFileName !another))).1, []⟩)
        (w₁.fs.openAppend (host.locate (fm₁.generateFileName !another))).2 :=
      .file (congrArg FileSystem.data hfs) (congrArg FileSystem.next hfs)
    rw [hopen] at hfile
    refine ⟨hfile, nofun, ?_, ?_⟩
    · dsimp only
      rw [hfm]
    · rintro f heq
      obtain rfl := Option.some.inj heq
      rfl

end FileManager

namespace Processes

open FileManager

variable {δ : Type*} [DecidableEq δ] {host : Host δ}

/-! ### The store of streams -/

/-- The acts that open a stream: on a file that is there, or on a new one. -/
def opening (fs : FileSystem host.Place) (p : ℤ) : Option FileStream → List (Streams.Act ℤ Char)
  | none => []
  | some f => if f.file < fs.next then [.openOn p f.file] else [.create, .openOn p f.file]

/-- What a step does to the stream of its process. -/
def acts (p : ℤ) (cwd : Text) (fm : FileManager) (w : World host) :
    Act → List (Streams.Act ℤ Char)
  | .start .. => []
  | .initializeAs answers =>
    if fm.initialized = true then []
    else opening w.fs p (fm.initializeAs w cwd p answers).2.1.fileHandle
  | .write data answers =>
    if fm.fileHandle = none then []
    else
      .accept p (data.take (min answers.accepted data.length)) answers.pushed ::
        if fm.FlushesAfter data answers ∧ answers.fflush = true then [.flush p] else []
  | .flush answers => if fm.fileHandle ≠ none ∧ answers.fflush = true then [.flush p] else []
  | .rotate answers =>
    if fm.fileHandle = none then []
    else .close p :: opening w.fs p (fm.rotate w cwd answers).2.1.fileHandle
  | .exit => if fm.fileHandle = none then [] else [.close p]
  | .crash => if fm.fileHandle = none then [] else [.lose p]

/-- What an event does to the stream of its process; one that loses bytes goes on as a new
one. -/
def eventActs (p : ℤ) (cwd : Text) (fm : FileManager) (w : World host) :
    Event → List (Streams.Act ℤ Char)
  | .act a => acts p cwd fm w a
  | .lapse pushed lost => fm.fileHandle.elim [] fun f =>
      .accept p [] pushed :: if lost then [.lose p, .openOn p f.file] else []
  | .rotateThrows _ => if fm.fileHandle = none then [] else [.close p]

/-- The processes, with all they did to their streams. -/
structure Traced (host : Host δ) where
  procs : State host
  acts : List (Streams.Act ℤ Char)

/-- An event of the processes, and what it does to a stream. -/
def Traced.next (base : Text) (cwd : ℤ → Text) (s : Traced host) (pe : ℤ × Event) :
    Option (Traced host) :=
  (nextEvent base cwd s.procs pe).map fun procs => ⟨procs, s.acts ++
    (s.procs.managers pe.1).elim [] fun fm =>
      eventActs pe.1 (cwd pe.1) fm s.procs.world pe.2⟩

/-- The file a process has open, and what its stream holds back. -/
def held (handle : Option FileStream) : Option (ℕ × Text) := handle.map fun f => (f.file, f.buffer)

/-- A store of streams has the files and the streams of the processes. -/
structure Matches (s : State host) (store : Streams.Store ℤ Char) : Prop where
  data : store.data = s.world.fs.data
  next : store.next = s.world.fs.next
  holds : ∀ p, store.holds p = (s.managers p).bind fun fm => held fm.fileHandle

/-- A manager that is not initialized has no file open. -/
def Closed (s : State host) : Prop :=
  ∀ p fm, s.managers p = some fm → fm.initialized = false → fm.fileHandle = none

variable {base : Text} {cwd : ℤ → Text} {s s' : State host} {p : ℤ} {a : Act} {e : Event}
  {store : Streams.Store ℤ Char} {old : ℕ → Text} {fm : FileManager} {f : FileStream}

@[simp] theorem managers_put_self (s : State host) (p : ℤ)
    (r : Bool × FileManager × World host) : (s.put p r).managers p = some r.2.1 := update_self ..

@[simp] theorem managers_drop_self (s : State host) (p : ℤ) (w : World host) :
    (s.drop p w).managers p = none := update_self ..

theorem performs_opening (fs : FileSystem host.Place) {fs' : FileSystem host.Place}
    {handle : Option FileStream} (hinv : store.Inv old) (hdata : store.data = fs.data)
    (hnext : store.next = fs.next) (hnone : store.holds p = none) (h : OpensFile fs handle fs') :
    ∃ store', Streams.Performs store p (opening fs p handle) (held handle) fs'.data fs'.next
      store' := by
  cases h with
  | nothing hdata' hnext' =>
    have hnil := Streams.performs_nil store p
    rw [hnone, hdata, ← hdata', hnext, ← hnext'] at hnil
    exact ⟨store, hnil⟩
  | @file fs₁ place hdata' hnext' =>
    unfold opening
    dsimp only
    cases hlookup : fs₁.lookup place with
    | some n =>
      have hopen : fs₁.openAppend place = (n, fs₁) := by
        unfold FileSystem.openAppend
        rw [hlookup]
      have hn : n < fs.next := hnext' ▸ fs₁.used place n hlookup
      rw [hopen, if_pos hn]
      obtain ⟨store', hperforms⟩ := Streams.performs_openOn hinv.sound hnone (hnext ▸ hn)
      rw [hdata, ← hdata', hnext, ← hnext'] at hperforms
      exact ⟨store', hperforms⟩
    | none =>
      have hopen : fs₁.openAppend place = (fs₁.next, fs₁.create place) := by
        unfold FileSystem.openAppend
        rw [hlookup]
      rw [hopen, hnext', if_neg (lt_irrefl _)]
      have hcreate := Streams.performs_create store p
      rw [hnone] at hcreate
      have hn : fs.next < store.create.next := hnext ▸ Nat.lt_succ_self store.next
      obtain ⟨store', hperforms⟩ :=
        Streams.performs_openOn (hcreate.inv hinv).sound hcreate.own hn
      have hboth := hcreate.append hperforms
      rw [hcreate.data, hcreate.next, hdata, ← hdata', hnext, ← hnext'] at hboth
      refine ⟨store', ?_⟩
      rw [← hnext']
      exact hboth

theorem performs_flush (fs : FileSystem host.Place) (hinv : store.Inv old)
    (hdata : store.data = fs.data) (hnext : store.next = fs.next)
    (hf : store.holds p = held (some f)) (answers : WriteAnswers) :
    ∃ store', Streams.Performs store p (if answers.fflush = true then [.flush p] else [])
      (held (some (afterFlush f fs answers).1)) (afterFlush f fs answers).2.data
      (afterFlush f fs answers).2.next store' := by
  unfold afterFlush
  by_cases hflush : answers.fflush = true
  · rw [if_pos hflush, if_pos hflush]
    obtain ⟨store', hperforms⟩ := Streams.performs_flush hinv.sound hf
    rw [hdata, hnext] at hperforms
    exact ⟨store', hperforms⟩
  · rw [if_neg hflush, if_neg hflush]
    have hnil := Streams.performs_nil store p
    rw [hf, hdata, hnext] at hnil
    exact ⟨store, hnil⟩

theorem performs_write (fs : FileSystem host.Place) (hinv : store.Inv old)
    (hdata : store.data = fs.data) (hnext : store.next = fs.next)
    (hf : store.holds p = held (some f)) (fm : FileManager) (data : Text)
    (answers : WriteAnswers) :
    ∃ store', Streams.Performs store p
      (.accept p (data.take (min answers.accepted data.length)) answers.pushed ::
        if fm.FlushesAfter data answers ∧ answers.fflush = true then [.flush p] else [])
      (held (some (fm.afterWrite f fs data answers).1)) (fm.afterWrite f fs data answers).2.data
      (fm.afterWrite f fs data answers).2.next store' := by
  obtain ⟨store₁, hwrite⟩ := Streams.performs_accept hinv.sound hf
    (data.take (min answers.accepted data.length)) answers.pushed
  rw [hdata, hnext] at hwrite
  have hinv₁ := hwrite.inv hinv
  unfold afterWrite
  by_cases hdue : fm.FlushesAfter data answers
  · obtain ⟨store', hflush⟩ := performs_flush (f := (afterFwrite f fs data answers).1)
      (afterFwrite f fs data answers).2 hinv₁ hwrite.data hwrite.next hwrite.own answers
    rw [if_pos hdue]
    simp only [hdue, true_and]
    exact ⟨store', hwrite.append hflush⟩
  · rw [if_neg hdue, if_neg fun h => hdue h.1]
    exact ⟨store₁, hwrite⟩

/-- `Rotate` closes the stream, and opens the next if it can. -/
theorem performs_rotate {w : World host} (hinv : store.Inv old) (hdata : store.data = w.fs.data)
    (hnext : store.next = w.fs.next) (hown : store.holds p = held (some f))
    (hf : fm.fileHandle = some f) (cwd : Text) (answers : RotateAnswers) :
    ∃ store', Streams.Performs store p
      (.close p :: opening w.fs p (fm.rotate w cwd answers).2.1.fileHandle)
      (held (fm.rotate w cwd answers).2.1.fileHandle) (fm.rotate w cwd answers).2.2.fs.data
      (fm.rotate w cwd answers).2.2.fs.next store' := by
  obtain ⟨store₁, hclose⟩ := Streams.performs_close hinv.sound hown
  rw [hdata, hnext] at hclose
  obtain ⟨store', hopen⟩ := performs_opening (f.fclose w.fs) (hclose.inv hinv)
    hclose.data hclose.next hclose.own (opens_of_rotate hf cwd answers).1
  exact ⟨store', hclose.append hopen⟩

/-- The destructor closes the stream. -/
theorem performs_destroy {w : World host} (hinv : store.Inv old) (hdata : store.data = w.fs.data)
    (hnext : store.next = w.fs.next) (hown : store.holds p = held (some f))
    (hf : fm.fileHandle = some f) :
    ∃ store', Streams.Performs store p [.close p] none (fm.destroy w).fs.data
      (fm.destroy w).fs.next store' := by
  obtain ⟨store', hclose⟩ := Streams.performs_close hinv.sound hown
  rw [hdata, hnext] at hclose
  rw [fs_destroy_of_some hf]
  exact ⟨store', hclose⟩

/-- The library fails to write out what the stream holds back. -/
theorem performs_lapse (fs : FileSystem host.Place) (hinv : store.Inv old)
    (hdata : store.data = fs.data) (hnext : store.next = fs.next)
    (hf : store.holds p = held (some f)) (pushed : ℕ) (lost : Bool) :
    ∃ store', Streams.Performs store p
        (.accept p [] pushed :: if lost then [.lose p, .openOn p f.file] else [])
        (held (some (f.lapse fs pushed lost).1)) (f.lapse fs pushed lost).2.data
        (f.lapse fs pushed lost).2.next store' ∧
      ∀ l, store.LostIn l → (lost = true → (p, f.buffer.drop pushed) ∈ l) → store'.LostIn l := by
  cases lost with
  | true =>
    obtain ⟨store', hlapse, hlost⟩ := Streams.performs_lapse hinv hf pushed
    rw [hdata, hnext] at hlapse
    exact ⟨store', hlapse, fun l hl hmem => hlost l hl (hmem rfl)⟩
  | false =>
    obtain ⟨store', haccept⟩ := Streams.performs_accept hinv.sound hf [] pushed
    have hkept := fun l (hl : store.LostIn l) =>
      Streams.lostIn_of_run (by simp [Streams.Act.Keeps]) hinv hl haccept.run
    rw [hdata, hnext, List.append_nil] at haccept
    exact ⟨store', haccept, fun l hl _ => hkept l hl⟩

/-- A `Rotate` that throws closes the stream. -/
theorem performs_rotateThrows {w : World host} (hinv : store.Inv old)
    (hdata : store.data = w.fs.data) (hnext : store.next = w.fs.next)
    (hown : store.holds p = held (some f)) (hf : fm.fileHandle = some f) (cwd : Text)
    (renames : Bool) :
    ∃ store', Streams.Performs store p [.close p] none (fm.rotateThrows w cwd renames).2.fs.data
      (fm.rotateThrows w cwd renames).2.fs.next store' := by
  obtain ⟨store', hclose⟩ := Streams.performs_close hinv.sound hown
  rw [hdata, hnext] at hclose
  cases (opens_of_rotateThrows (w := w) hf cwd renames).2 with
  | nothing hdata' hnext' =>
    rw [hdata', hnext']
    exact ⟨store', hclose⟩

/-- What the step of a process does to the store. -/
theorem Matches.performs (h : Matches s store) (hinv : store.Inv old) (hclosed : Closed s)
    (hp : s.managers p = some fm) (hnext : Processes.next base cwd s (p, a) = some s') :
    ∃ store', Streams.Performs store p (acts p (cwd p) fm s.world a)
      ((s'.managers p).bind fun fm => held fm.fileHandle) s'.world.fs.data s'.world.fs.next
      store' := by
  have hown : store.holds p = held fm.fileHandle := by rw [h.holds p, hp, Option.bind_some]
  -- nothing happens to the store
  have hnothing : ∀ {handle : Option FileStream}, held handle = held fm.fileHandle →
      ∃ store', Streams.Performs store p [] (held handle) s.world.fs.data s.world.fs.next
        store' := by
    intro handle hsame
    have hnil := Streams.performs_nil store p
    rw [hown, ← hsame, h.data, h.next] at hnil
    exact ⟨store, hnil⟩
  unfold Processes.next at hnext
  simp only [hp] at hnext
  cases a with
  | start => contradiction
  | initializeAs answers =>
    obtain rfl := Option.some.inj hnext
    rw [managers_put_self, Option.bind_some]
    unfold acts
    dsimp only [State.put]
    cases hinit : fm.initialized with
    | true =>
      rw [if_pos rfl, initializeAs_again hinit]
      exact hnothing rfl
    | false =>
      have hnone := hclosed p fm hp hinit
      rw [if_neg Bool.false_ne_true]
      exact performs_opening s.world.fs hinv h.data h.next (hown.trans (congrArg held hnone))
        (opens_of_initializeAs hinit hnone s.world (cwd p) p answers).1
  | write data answers =>
    obtain rfl := Option.some.inj hnext
    rw [managers_put_self, Option.bind_some]
    unfold acts
    dsimp only [State.put]
    cases hf : fm.fileHandle with
    | none =>
      rw [if_pos rfl, write_closed hf]
      exact hnothing rfl
    | some f =>
      have hends := endsIn_write (w := s.world) hf data answers
      rw [if_neg (Option.some_ne_none f), hends.handle, hends.fs]
      exact performs_write s.world.fs hinv h.data h.next (hown.trans (congrArg held hf)) fm data
        answers
  | flush answers =>
    obtain rfl := Option.some.inj hnext
    rw [managers_put_self, Option.bind_some]
    unfold acts
    dsimp only [State.put]
    cases hf : fm.fileHandle with
    | none =>
      rw [if_neg fun hflush => hflush.1 rfl, flush_closed hf]
      exact hnothing rfl
    | some f =>
      have hends := endsIn_flushToFile (w := s.world) hf answers
      rw [flush_open hf, hends.handle, hends.fs]
      simp only [ne_eq, Option.some_ne_none, not_false_eq_true, true_and]
      exact performs_flush s.world.fs hinv h.data h.next (hown.trans (congrArg held hf)) answers
  | rotate answers =>
    obtain rfl := Option.some.inj hnext
    rw [managers_put_self, Option.bind_some]
    unfold acts
    dsimp only [State.put]
    cases hf : fm.fileHandle with
    | none =>
      rw [if_pos rfl, rotate_closed hf]
      exact hnothing rfl
    | some f =>
      rw [if_neg (Option.some_ne_none f)]
      exact performs_rotate hinv h.data h.next (hown.trans (congrArg held hf)) hf (cwd p) answers
  | exit =>
    obtain rfl := Option.some.inj hnext
    rw [managers_drop_self, Option.bind_none]
    unfold acts
    dsimp only [State.drop]
    cases hf : fm.fileHandle with
    | none =>
      rw [if_pos rfl, fs_destroy_of_none hf]
      exact hnothing (congrArg held hf).symm
    | some f =>
      rw [if_neg (Option.some_ne_none f)]
      exact performs_destroy hinv h.data h.next (hown.trans (congrArg held hf)) hf
  | crash =>
    obtain rfl := Option.some.inj hnext
    rw [managers_drop_self, Option.bind_none]
    unfold acts
    dsimp only [State.drop]
    cases hf : fm.fileHandle with
    | none =>
      rw [if_pos rfl, fs_die]
      exact hnothing (congrArg held hf).symm
    | some f =>
      rw [if_neg (Option.some_ne_none f), fs_die]
      obtain ⟨store', hlose⟩ := Streams.performs_lose hinv.sound (hown.trans (congrArg held hf))
      rw [h.data, h.next] at hlose
      exact ⟨store', hlose⟩

/-- What an event in a process does to the store. -/
theorem Matches.performs_event (h : Matches s store) (hinv : store.Inv old) (hclosed : Closed s)
    (hp : s.managers p = some fm) (hnext : nextEvent base cwd s (p, e) = some s') :
    ∃ store', Streams.Performs store p (eventActs p (cwd p) fm s.world e)
      ((s'.managers p).bind fun fm => held fm.fileHandle) s'.world.fs.data s'.world.fs.next
      store' := by
  have hown : store.holds p = held fm.fileHandle := by rw [h.holds p, hp, Option.bind_some]
  have hnothing : Streams.Performs store p [] (held fm.fileHandle) s.world.fs.data
      s.world.fs.next store := by
    have hnil := Streams.performs_nil store p
    rwa [hown, h.data, h.next] at hnil
  cases e with
  | act a => exact h.performs hinv hclosed hp hnext
  | lapse pushed lost =>
    simp only [nextEvent, hp, Option.map_some, Option.some.injEq] at hnext
    subst hnext
    rw [managers_put_self, Option.bind_some]
    unfold eventActs
    dsimp only [State.put]
    cases hf : fm.fileHandle with
    | none =>
      rw [lapse_closed hf]
      exact ⟨store, hnothing⟩
    | some f =>
      rw [lapse_open hf]
      obtain ⟨store', hperforms, -⟩ := performs_lapse s.world.fs hinv h.data h.next
        (hown.trans (congrArg held hf)) pushed lost
      exact ⟨store', hperforms⟩
  | rotateThrows renames =>
    simp only [nextEvent, hp, Option.map_some, Option.some.injEq] at hnext
    subst hnext
    rw [managers_put_self, Option.bind_some]
    unfold eventActs
    dsimp only [State.put]
    cases hf : fm.fileHandle with
    | none =>
      rw [if_pos rfl, rotateThrows_closed hf]
      exact ⟨store, hnothing⟩
    | some f =>
      rw [if_neg (Option.some_ne_none f), (opens_of_rotateThrows hf (cwd p) renames).1]
      exact performs_rotateThrows hinv h.data h.next (hown.trans (congrArg held hf)) hf (cwd p)
        renames

/-- An event in a process is some acts of its stream. -/
theorem Matches.step (h : Matches s store) (hinv : store.Inv old) (hclosed : Closed s)
    (hnext : nextEvent base cwd s (p, e) = some s') :
    ∃ store', Matches s' store' ∧ store'.Inv old ∧
      Streams.Performs store p
        ((s.managers p).elim [] fun fm => eventActs p (cwd p) fm s.world e)
        ((s'.managers p).bind fun fm => held fm.fileHandle) s'.world.fs.data s'.world.fs.next
        store' := by
  have hothers := fun q hq => managers_of_nextEvent (q := q) hnext hq
  have hdone : ∀ {acts : List (Streams.Act ℤ Char)} {store' : Streams.Store ℤ Char},
      Streams.Performs store p acts ((s'.managers p).bind fun fm => held fm.fileHandle)
        s'.world.fs.data s'.world.fs.next store' → Matches s' store' ∧ store'.Inv old := by
    intro acts store' hperforms
    refine ⟨⟨hperforms.data, hperforms.next, fun q => ?_⟩, hperforms.inv hinv⟩
    by_cases hq : q = p
    · subst hq
      exact hperforms.own
    · rw [hperforms.others q hq, h.holds q, hothers q hq]
  cases hp : s.managers p with
  | none =>
    -- a process starts, and has no file yet
    cases e with
    | lapse | rotateThrows =>
      simp only [nextEvent, hp, Option.map_none] at hnext
      contradiction
    | act a =>
      cases step_of_next hnext with
      | @start maxSize retentionCount _ =>
        have hnil := Streams.performs_nil store p
        rw [h.holds p, hp, h.data, h.next] at hnil
        have hown : ((update s.managers p (some (configured base maxSize retentionCount)) p).bind
            fun fm => held fm.fileHandle) = none := by
          rw [update_self]
          rfl
        have hperforms : Streams.Performs store p []
            ((update s.managers p (some (configured base maxSize retentionCount)) p).bind
              fun fm => held fm.fileHandle) s.world.fs.data s.world.fs.next store := hown ▸ hnil
        exact ⟨store, (hdone hperforms).1, hinv, hperforms⟩
      | initializeAs hp' | write hp' _ | rotate hp' | exit hp' | crash hp' =>
        exact absurd (hp.symm.trans hp') nofun
  | some fm =>
    obtain ⟨store', hperforms⟩ := h.performs_event hinv hclosed hp hnext
    obtain ⟨hmatches, hinv'⟩ := hdone hperforms
    exact ⟨store', hmatches, hinv', hperforms⟩

/-! ### Sizes -/

/-- The size that a manager remembers is at most what its file and its stream have. -/
def SizeBounded (fm : FileManager) (w : World host) : Prop :=
  ∀ f, fm.fileHandle = some f → fm.currentFileSize ≤ (f.bytes w.fs).length

theorem bytes_afterFlush (f : FileStream) (fs : FileSystem host.Place) (answers : WriteAnswers) :
    (afterFlush f fs answers).1.bytes (afterFlush f fs answers).2 = f.bytes fs := by
  unfold afterFlush
  split
  · exact FileStream.bytes_fflush f fs
  · rfl

theorem bytes_afterWrite (fm : FileManager) (f : FileStream) (fs : FileSystem host.Place)
    (data : Text) (answers : WriteAnswers) :
    (fm.afterWrite f fs data answers).1.bytes (fm.afterWrite f fs data answers).2 =
      f.bytes fs ++ data.take (min answers.accepted data.length) := by
  have hwrite := f.bytes_fwrite fs (data.take (min answers.accepted data.length)) answers.pushed
  unfold afterWrite
  split
  · exact (bytes_afterFlush _ _ answers).trans hwrite
  · exact hwrite

theorem SizeBounded.write (h : SizeBounded fm s.world) (hf : fm.fileHandle = some f)
    (data : Text) (answers : WriteAnswers) :
    SizeBounded (fm.write s.world data answers).2.1 (fm.write s.world data answers).2.2 := by
  have hends := endsIn_write (w := s.world) hf data answers
  intro f' hf'
  obtain rfl := Option.some.inj (hends.handle.symm.trans hf')
  have hbytes := bytes_afterWrite fm f s.world.fs data answers
  have hlen := h f hf
  rw [hends.size, hends.fs, hbytes, List.length_append, List.length_take]
  split
  · next hfull =>
    have hwrap : fm.sizeAfter data ≤ fm.currentFileSize + data.length := wrap_le _
    omega
  · omega

theorem SizeBounded.flushToFile (h : SizeBounded fm s.world) (hf : fm.fileHandle = some f)
    (answers : WriteAnswers) :
    SizeBounded (fm.flushToFile s.world answers).2.1 (fm.flushToFile s.world answers).2.2 := by
  have hends := endsIn_flushToFile (w := s.world) hf answers
  intro f' hf'
  obtain rfl := Option.some.inj (hends.handle.symm.trans hf')
  rw [hends.size, hends.fs, bytes_afterFlush f s.world.fs answers]
  exact h f hf

/-- What a step of process `p` keeps of its own manager. -/
theorem own_of_next (hclosed : Closed s) (hnext : next base cwd s (p, a) = some s')
    {fm' : FileManager} (hp' : s'.managers p = some fm') :
    (fm'.initialized = false → fm'.fileHandle = none) ∧
      ((∀ fm, s.managers p = some fm → SizeBounded fm s.world) → SizeBounded fm' s'.world) := by
  unfold next at hnext
  cases hp : s.managers p with
  | none =>
    simp only [hp] at hnext
    cases a with
    | start maxSize retentionCount =>
      obtain rfl := Option.some.inj hnext
      have hnew : update s.managers p (some (configured base maxSize retentionCount)) p =
          some fm' := hp'
      rw [update_self] at hnew
      obtain rfl := Option.some.inj hnew
      exact ⟨fun _ => rfl, fun _ => nofun⟩
    | _ => contradiction
  | some fm =>
    have hold := hclosed p fm hp
    -- an operation that changes nothing
    have hsame : (fm.initialized = false → fm.fileHandle = none) ∧
        ((∀ fm', some fm = some fm' → SizeBounded fm' s.world) → SizeBounded fm s.world) :=
      ⟨hold, fun hsize => hsize fm rfl⟩
    simp only [hp] at hnext
    cases a with
    | start => contradiction
    | initializeAs answers =>
      obtain rfl := Option.some.inj hnext
      rw [managers_put_self] at hp'
      obtain rfl := Option.some.inj hp'
      dsimp only [State.put]
      cases hinit : fm.initialized with
      | true =>
        rw [initializeAs_again hinit]
        exact hsame
      | false =>
        obtain ⟨-, hkept, -, hread⟩ :=
          opens_of_initializeAs hinit (hold hinit) s.world (cwd p) p answers
        refine ⟨hkept, fun _ f hf => (hread f hf).le.trans ?_⟩
        rw [FileStream.bytes, List.length_append]
        exact Nat.le_add_right _ _
    | write data answers =>
      obtain rfl := Option.some.inj hnext
      rw [managers_put_self] at hp'
      obtain rfl := Option.some.inj hp'
      cases hf : fm.fileHandle with
      | none =>
        rw [write_closed hf]
        exact hsame
      | some f =>
        have hends := endsIn_write (w := s.world) hf data answers
        refine ⟨fun hfalse => ?_, fun hsize => (hsize fm rfl).write hf data answers⟩
        exact absurd (hold (hends.initialized.symm.trans hfalse)) (hf ▸ Option.some_ne_none f)
    | flush answers =>
      obtain rfl := Option.some.inj hnext
      rw [managers_put_self] at hp'
      obtain rfl := Option.some.inj hp'
      cases hf : fm.fileHandle with
      | none =>
        rw [flush_closed hf]
        exact hsame
      | some f =>
        have hends := endsIn_flushToFile (w := s.world) hf answers
        rw [flush_open hf]
        refine ⟨fun hfalse => ?_, fun hsize => (hsize fm rfl).flushToFile hf answers⟩
        exact absurd (hold (hends.initialized.symm.trans hfalse)) (hf ▸ Option.some_ne_none f)
    | rotate answers =>
      obtain rfl := Option.some.inj hnext
      rw [managers_put_self] at hp'
      obtain rfl := Option.some.inj hp'
      cases hf : fm.fileHandle with
      | none =>
        rw [rotate_closed hf]
        exact hsame
      | some f =>
        obtain ⟨-, hinit, -, hzero⟩ := opens_of_rotate (w := s.world) hf (cwd p) answers
        refine ⟨fun hfalse => ?_, fun _ f' hf' => ?_⟩
        · exact absurd (hold (hinit.symm.trans hfalse)) (hf ▸ Option.some_ne_none f)
        · rw [hzero (hf' ▸ Option.some_ne_none f')]
          exact Nat.zero_le _
    | exit =>
      obtain rfl := Option.some.inj hnext
      rw [managers_drop_self] at hp'
      contradiction
    | crash =>
      obtain rfl := Option.some.inj hnext
      rw [managers_drop_self] at hp'
      contradiction

/-- The fault of an event loses no byte. -/
def Event.Keeps : Event → Prop
  | .lapse _ lost => lost = false
  | _ => True

instance : DecidablePred Event.Keeps
  | .lapse _ lost => inferInstanceAs (Decidable (lost = false))
  | .act _ | .rotateThrows _ => .isTrue trivial

/-- What an event in process `p` keeps of its own manager; that the size is bounded, only if
no byte is lost. -/
theorem own_of_nextEvent (hclosed : Closed s) (hnext : nextEvent base cwd s (p, e) = some s')
    {fm' : FileManager} (hp' : s'.managers p = some fm') :
    (fm'.initialized = false → fm'.fileHandle = none) ∧
      (e.Keeps → (∀ fm, s.managers p = some fm → SizeBounded fm s.world) →
        SizeBounded fm' s'.world) := by
  cases e with
  | act a =>
    obtain ⟨hold, hsize⟩ := own_of_next hclosed hnext hp'
    exact ⟨hold, fun _ => hsize⟩
  | lapse pushed lost =>
    obtain ⟨fm, hp, rfl⟩ := Option.map_eq_some_iff.mp hnext
    rw [managers_put_self] at hp'
    obtain rfl := Option.some.inj hp'
    cases hf : fm.fileHandle with
    | none =>
      rw [lapse_closed hf]
      exact ⟨hclosed p fm hp, fun _ hsize => hsize fm hp⟩
    | some f =>
      rw [lapse_open hf]
      refine ⟨fun hfalse => ?_, fun hkeeps hsize f' hf' => ?_⟩
      · exact absurd (hclosed p fm hp hfalse) (hf ▸ Option.some_ne_none f)
      · obtain rfl := Option.some.inj hf'
        obtain rfl : lost = false := hkeeps
        refine (hsize fm hp f hf).trans (le_of_eq ?_)
        exact congrArg List.length (f.bytes_lapse s.world.fs pushed false).symm
  | rotateThrows renames =>
    obtain ⟨fm, hp, rfl⟩ := Option.map_eq_some_iff.mp hnext
    rw [managers_put_self] at hp'
    obtain rfl := Option.some.inj hp'
    cases hf : fm.fileHandle with
    | none =>
      rw [rotateThrows_closed hf]
      exact ⟨hclosed p fm hp, fun _ hsize => hsize fm hp⟩
    | some f =>
      dsimp only
      rw [(opens_of_rotateThrows hf (cwd p) renames).1]
      exact ⟨fun _ => rfl, fun _ _ => nofun⟩

/-! ### Runs -/

/-- What every event keeps, beside a store of streams. -/
structure Kept (old : ℕ → Text) (s : State host) (store : Streams.Store ℤ Char) : Prop where
  matched : Matches s store
  inv : store.Inv old
  closed : Closed s

/-- The bytes of the files before the first step. -/
def bytesAtFirst (w : World host) (n : ℕ) : Text := if n < w.fs.next then w.fs.data n else []

theorem kept_init (w : World host) :
    Kept (bytesAtFirst w) (init w) (.init w.fs.data w.fs.next) :=
  ⟨⟨rfl, rfl, fun _ => rfl⟩, Streams.Store.inv_init _ _, nofun⟩

/-- The file of an open stream exists. -/
theorem Kept.file_lt (h : Kept old s store) (hp : s.managers p = some fm)
    (hf : fm.fileHandle = some f) : f.file < s.world.fs.next := by
  have hholds : store.holds p = some (f.file, f.buffer) := by
    rw [h.matched.holds p, hp, Option.bind_some, hf]
    rfl
  obtain ⟨k, x, -, hx, hfile, -⟩ := Streams.Store.exists_stream hholds
  rw [← h.matched.next, ← hfile]
  exact h.inv.sound.file k x hx

/-- **One event** in a process, seen from its stream and from the files. -/
theorem Kept.step (h : Kept old s store) (hnext : nextEvent base cwd s (p, e) = some s') :
    ∃ store', Kept old s' store' ∧
      Streams.Performs store p
        ((s.managers p).elim [] fun fm => eventActs p (cwd p) fm s.world e)
        ((s'.managers p).bind fun fm => held fm.fileHandle) s'.world.fs.data s'.world.fs.next
        store' := by
  obtain ⟨store', hmatched, hinv, hperforms⟩ := h.matched.step h.inv h.closed hnext
  refine ⟨store', ⟨hmatched, hinv, fun q fm hq hinit => ?_⟩, hperforms⟩
  by_cases hqp : q = p
  · exact (own_of_nextEvent h.closed hnext (hqp ▸ hq)).1 hinit
  · exact h.closed q fm ((managers_of_nextEvent hnext hqp).symm.trans hq) hinit

/-- The files grow with an event. -/
theorem Kept.grows_step (h : Kept old s store) (hnext : nextEvent base cwd s (p, e) = some s')
    {n : ℕ} (hn : n < s.world.fs.next) :
    n < s'.world.fs.next ∧ s.world.fs.data n <+: s'.world.fs.data n := by
  obtain ⟨store', hkept, hperforms⟩ := h.step hnext
  have hreach := reachable_of_run hperforms.run
  have hgrown := Streams.grows_of_reachable h.inv hreach (h.matched.next.symm ▸ hn)
  have hle := Streams.next_le_of_reachable h.inv hreach
  rw [h.matched.data, hperforms.data] at hgrown
  rw [h.matched.next, hperforms.next] at hle
  exact ⟨hn.trans_le hle, hgrown⟩

theorem kept_of_reachable {ok : State host → ℤ × Event → Prop} {w : World host}
    (h : Reachable (nextEvent base cwd) ok (init w) s) :
    ∃ store, Kept (bytesAtFirst w) s store := by
  refine h.invariant (I := fun s => ∃ store, Kept (bytesAtFirst w) s store) ⟨_, kept_init w⟩ ?_
  rintro x ⟨p, e⟩ x' - ⟨store, hkept⟩ - hnext
  obtain ⟨store', hkept', -⟩ := hkept.step hnext
  exact ⟨store', hkept'⟩

/-- A file that exists has its bytes at the start of what it has later. -/
theorem Kept.grows {ok : State host → ℤ × Event → Prop} (h : Kept old s store)
    (hs : Reachable (nextEvent base cwd) ok s s') {n : ℕ} (hn : n < s.world.fs.next) :
    s.world.fs.data n <+: s'.world.fs.data n := by
  have hgrown : ∃ store', Kept old s' store' ∧ n < s'.world.fs.next ∧
      s.world.fs.data n <+: s'.world.fs.data n := by
    refine hs.invariant (I := fun x => ∃ store', Kept old x store' ∧ n < x.world.fs.next ∧
      s.world.fs.data n <+: x.world.fs.data n) ⟨store, h, hn, List.prefix_rfl⟩ ?_
    rintro x ⟨p, e⟩ x' - ⟨store₁, hkept, hlt, hgrown⟩ - hnext
    obtain ⟨store₂, hkept', -⟩ := hkept.step hnext
    obtain ⟨hlt', hstep⟩ := hkept.grows_step hnext hlt
    exact ⟨store₂, hkept', hlt', hgrown.trans hstep⟩
  obtain ⟨-, -, -, hgrown⟩ := hgrown
  exact hgrown

/-- A file has at its start what it had at first. -/
theorem bytesAtFirst_grown {ok : State host → ℤ × Event → Prop} {w : World host}
    (h : Reachable (nextEvent base cwd) ok (init w) s) (n : ℕ) :
    bytesAtFirst w n <+: s.world.fs.data n := by
  unfold bytesAtFirst
  split
  · next hn => exact (kept_init w).grows h hn
  · exact List.nil_prefix

/-- What file `n` really has in a run from `w` when it has `t` for the program. -/
def realBytes (w : World host) (n : ℕ) (t : Text) : Text := host.onDisk (bytesAtFirst w n) t

/-- The steps of a history are events of the processes. -/
theorem procs_reachable {w : World host} {s : Traced host}
    (h : Reachable (Traced.next base cwd) Always ⟨init w, []⟩ s) :
    Reachable (nextEvent base cwd) Always (init w) s.procs := by
  refine h.invariant (I := fun x => Reachable (nextEvent base cwd) Always (init w) x.procs)
    .init ?_
  rintro x pe x' - hx - hnext
  obtain ⟨procs, hprocs, rfl⟩ := Option.map_eq_some_iff.mp hnext
  exact hx.step trivial hprocs

/-- **Every byte of a file is accounted for** where there is no text mode, whatever the
processes do in whatever order and whatever fails: what they did to their streams is a run of
a store of streams with the same files, in which a file has what it had at first and what each
stream accepted, less what the stream holds back or held back when it was lost. -/
theorem bytes_accounted (hos : host.os = .macos) {w : World host} {s : Traced host}
    (h : Reachable (Traced.next base cwd) Always ⟨init w, []⟩ s) :
    ∃ store, run Streams.next (fun _ _ => true) (.init w.fs.data w.fs.next) s.acts = some store ∧
      (∀ n, store.data n = realBytes w n (s.procs.world.fs.data n)) ∧ Matches s.procs store ∧
      store.Sound ∧ store.Accounted (bytesAtFirst w) := by
  have hrun : ∃ store, run Streams.next (fun _ _ => true) (.init w.fs.data w.fs.next) s.acts =
      some store ∧ Kept (bytesAtFirst w) s.procs store := by
    refine h.invariant (I := fun s => ∃ store, run Streams.next (fun _ _ => true)
      (.init w.fs.data w.fs.next) s.acts = some store ∧ Kept (bytesAtFirst w) s.procs store)
      ⟨_, rfl, kept_init w⟩ ?_
    rintro x ⟨p, e⟩ x' - ⟨store, hacts, hkept⟩ - hnext
    obtain ⟨procs, hprocs, rfl⟩ := Option.map_eq_some_iff.mp hnext
    obtain ⟨store', hkept', hperforms⟩ := hkept.step hprocs
    refine ⟨store', ?_, hkept'⟩
    rw [run_append, hacts, Option.bind_some]
    exact hperforms.run
  obtain ⟨store, hacts, hkept⟩ := hrun
  obtain ⟨hsound, haccounted⟩ := Streams.accounted_of_reachable (reachable_of_run hacts)
  refine ⟨store, hacts, fun n => ?_, hkept.matched, hsound, haccounted⟩
  rw [realBytes, Host.onDisk_of_macos _ hos (bytesAtFirst_grown (procs_reachable h) n),
    hkept.matched.data]

/-- Steps of process `p` as events. -/
def asEvents (steps : List (ℤ × Act)) : List (ℤ × Event) := steps.map fun pa => (pa.1, .act pa.2)

/-- A process that writes three bytes, of which the system takes one at once. -/
def writing (p : ℤ) : List (ℤ × Act) :=
  launch p ++ [(p, .write "up\n".toList ⟨3, 1, true, true⟩)]

/-- A process whose `fflush` writes one byte more and drops the last, and which then writes two
bytes and crashes. -/
def losing (p : ℤ) : List (ℤ × Event) :=
  asEvents (writing p) ++ [(p, .lapse 1 true), (p, .act (.flush ⟨0, 0, false, true⟩)),
    (p, .act (.write "x\n".toList ⟨2, 1, true, true⟩)), (p, .act .crash)]

theorem bytes_accounted_losing :
    ∃ s : Traced Host.posix,
      s.acts = [.create, .openOn 7 0, .accept 7 "up\n".toList 1, .accept 7 [] 1, .lose 7,
        .openOn 7 0, .accept 7 "x\n".toList 1, .lose 7] ∧
      s.procs.world.fs.data 0 = "upx".toList ∧
      ∃ store, run Streams.next (fun _ _ => true) (.init (fun _ => []) 0) s.acts = some store ∧
        Matches s.procs store ∧ store.Sound ∧
        store.Accounted (bytesAtFirst (.empty Host.posix)) := by
  obtain ⟨s, hs, hacts, hdata⟩ := exists_reachable_of_decide
    (Traced.next "/logs/app".toList fun _ => ['/']) ⟨init (.empty Host.posix), []⟩
    (fun s => s.acts = [.create, .openOn 7 0, .accept 7 "up\n".toList 1, .accept 7 [] 1, .lose 7,
      .openOn 7 0, .accept 7 "x\n".toList 1, .lose 7] ∧
      s.procs.world.fs.data 0 = "upx".toList) Always (losing 7) (by decide +kernel)
  obtain ⟨store, hrun, -, hmatched, hsound, haccounted⟩ := bytes_accounted rfl hs
  exact ⟨s, hacts, hdata, store, hrun, hmatched, hsound, haccounted⟩

/-- **No file loses or changes a byte**, in any run of the processes. -/
theorem appendOnly {w : World host} (h : Reachable (nextEvent base cwd) Always (init w) s)
    (h' : Reachable (nextEvent base cwd) Always s s') {n : ℕ} (hn : n < s.world.fs.next) :
    s.world.fs.data n <+: s'.world.fs.data n := by
  obtain ⟨store, hkept⟩ := kept_of_reachable h
  exact hkept.grows h' hn

/-- A machine on which the file of the first process is there already. -/
def loggedBefore : World Host.posix :=
  withFiles (.empty Host.posix)
    (((FileSystem.empty (π := Host.posix.Place)).openAppend
      (Host.posix.locate "/logs/app.log".toList)).2.append 0 "old\n".toList)

theorem appendOnly_loggedBefore :
    ∃ s : State Host.posix, Reachable (nextEvent "/logs/app".toList fun _ => ['/']) Always
      (init loggedBefore) s ∧ s.world.fs.data 0 = "old\nupx".toList ∧
      (init loggedBefore).world.fs.data 0 <+: s.world.fs.data 0 := by
  obtain ⟨s, hs, hdata⟩ := exists_reachable_of_decide
    (nextEvent "/logs/app".toList fun _ => ['/']) (init loggedBefore)
    (fun s => s.world.fs.data 0 = "old\nupx".toList) Always (losing 7) (by decide +kernel)
  exact ⟨s, hs, hdata, appendOnly .init hs (by decide +kernel)⟩

/-- The steps after which nothing waits in the stream of a process: a `Flush` that returns
true, and those whose `fclose` writes out all that waits.  One that fails to is a lapse before
such a step. -/
def Settles (fm : FileManager) (w : World host) : Event → Prop
  | .act (.flush answers) => (fm.flush w answers).1 = true
  | .act (.rotate _) | .act .exit | .rotateThrows _ => True
  | _ => False

/-- What is settled is in the file at once. -/
theorem settled_of_nextEvent (hf : fm.fileHandle = some f) (hp : s.managers p = some fm)
    (hlt : f.file < s.world.fs.next) (hsettles : Settles fm s.world e)
    (hnext : nextEvent base cwd s (p, e) = some s') :
    s'.world.fs.data f.file = f.bytes s.world.fs := by
  have hclosed : (f.fclose s.world.fs).data f.file = f.bytes s.world.fs := f.data_fclose _
  cases e with
  | lapse => exact hsettles.elim
  | rotateThrows renames =>
    simp only [nextEvent, hp, Option.map_some, Option.some.injEq] at hnext
    subst hnext
    exact ((opens_of_rotateThrows hf (cwd p) renames).2.data_eq hlt).trans hclosed
  | act a =>
    simp only [nextEvent, next, hp] at hnext
    cases a with
    | start | initializeAs | write | crash => exact hsettles.elim
    | flush answers =>
      obtain rfl := Option.some.inj hnext
      have hends := endsIn_flushToFile (w := s.world) hf answers
      have htrue : (fm.flush s.world answers).1 = true := hsettles
      rw [flush_open hf] at htrue
      dsimp only [State.put]
      rw [flush_open hf, hends.fs, afterFlush, if_pos (fflush_of_flushToFile htrue)]
      exact hclosed
    | rotate answers =>
      obtain rfl := Option.some.inj hnext
      exact ((opens_of_rotate hf (cwd p) answers).1.data_eq hlt).trans hclosed
    | exit =>
      obtain rfl := Option.some.inj hnext
      dsimp only [State.drop]
      rw [fs_destroy_of_some hf]
      exact hclosed

/-- **What the file and the stream had is in the file for good** once a `Flush` has returned
true, or a rotation, even one that fails later on, or the exit of the process has closed the
file without a fault. -/
theorem durable_of_settles {w : World host} {s₁ : State host}
    (h : Reachable (nextEvent base cwd) Always (init w) s) (hp : s.managers p = some fm)
    (hf : fm.fileHandle = some f) (hsettles : Settles fm s.world e)
    (hnext : nextEvent base cwd s (p, e) = some s₁)
    (h' : Reachable (nextEvent base cwd) Always s₁ s') :
    realBytes w f.file (f.bytes s.world.fs) <+: realBytes w f.file (s'.world.fs.data f.file) := by
  obtain ⟨store, hkept⟩ := kept_of_reachable h
  have hlt := hkept.file_lt hp hf
  have hsettled := settled_of_nextEvent hf hp hlt hsettles hnext
  obtain ⟨store₁, hkept₁, -⟩ := hkept.step hnext
  have hfirst := bytesAtFirst_grown (h.step trivial hnext) f.file
  rw [hsettled] at hfirst
  refine host.onDisk_mono hfirst ?_
  rw [← hsettled]
  exact hkept₁.grows h' (hkept.grows_step hnext hlt).1

/-- Process 7 logs, and its stream holds this back. -/
def State.Waits (s : State host) (text : Text) : Prop :=
  ((s.managers 7).bind FileManager.fileHandle) = some ⟨0, text⟩

instance (s : State host) (text : Text) : Decidable (s.Waits text) :=
  inferInstanceAs (Decidable (_ = _))

/-- A process exits whose stream holds back two bytes; its file stays as it is then. -/
theorem durable_of_settles_exit :
    ∃ s s₁ : State Host.posix, s.world.fs.data 0 = "u".toList ∧
      nextEvent "/logs/app".toList (fun _ => ['/']) s (7, .act .exit) = some s₁ ∧
      "up\n".toList <+: s₁.world.fs.data 0 := by
  obtain ⟨s, hs, hdata, hwaits⟩ := exists_reachable_of_decide
    (nextEvent "/logs/app".toList fun _ => ['/']) (init (.empty Host.posix))
    (fun s => s.world.fs.data 0 = "u".toList ∧ s.Waits "p\n".toList) Always
    (asEvents (writing 7)) (by decide +kernel)
  obtain ⟨fm, hp, hf⟩ := Option.bind_eq_some_iff.mp hwaits
  have hnext : nextEvent "/logs/app".toList (fun _ => ['/']) s (7, .act .exit) =
      some (s.drop 7 (fm.destroy s.world)) := by
    simp only [nextEvent, next, hp]
  have hdurable := durable_of_settles (e := .act .exit) hs hp hf trivial hnext .init
  unfold FileStream.bytes at hdurable
  rw [hdata] at hdurable
  exact ⟨s, _, hdata, hnext, hdurable⟩

/-- The sizes of all managers are bounded. -/
def Sized (s : State host) : Prop := ∀ p fm, s.managers p = some fm → SizeBounded fm s.world

/-- They stay so while no byte is lost: a file does not become shorter. -/
theorem Sized.step (hsized : Sized s) (hkept : Kept old s store) (hkeeps : e.Keeps)
    (hnext : nextEvent base cwd s (p, e) = some s') : Sized s' := by
  intro q fm hq
  by_cases hqp : q = p
  · exact (own_of_nextEvent hkept.closed hnext (hqp ▸ hq)).2 hkeeps fun fm' => hsized p fm'
  · intro f hf
    have hq' := (managers_of_nextEvent hnext hqp).symm.trans hq
    have hlen := (hkept.grows_step hnext (hkept.file_lt hq' hf)).2.length_le
    have hsize := hsized q fm hq' f hf
    unfold FileStream.bytes at hsize ⊢
    rw [List.length_append] at hsize ⊢
    omega

/-- No fault loses a byte. -/
def NothingLost (_ : State host) (pe : ℤ × Event) : Prop := pe.2.Keeps

instance (s : State host) (pe : ℤ × Event) : Decidable (NothingLost s pe) :=
  inferInstanceAs (Decidable pe.2.Keeps)

/-- **A file that is to be rotated is large enough** where there is no text mode: when
`NeedsRotation` says yes, the file and what its stream holds back have `max_size_` bytes,
whatever failed before, unless bytes that a stream held back were dropped. -/
theorem large_of_needsRotation (hos : host.os = .macos) {w : World host}
    (h : Reachable (nextEvent base cwd) NothingLost (init w) s)
    (hp : s.managers p = some fm) (hf : fm.fileHandle = some f)
    (hneeds : fm.needsRotation = true) :
    fm.maxSize ≤ (realBytes w f.file (f.bytes s.world.fs)).length := by
  obtain ⟨-, -, hsized⟩ : ∃ store, Kept (bytesAtFirst w) s store ∧ Sized s := by
    refine h.invariant (I := fun s => ∃ store, Kept (bytesAtFirst w) s store ∧ Sized s)
      ⟨_, kept_init w, nofun⟩ ?_
    rintro x ⟨p, e⟩ x' - ⟨store, hkept, hsized⟩ hkeeps hnext
    obtain ⟨store', hkept', -⟩ := hkept.step hnext
    exact ⟨store', hkept', hsized.step hkept hkeeps hnext⟩
  have hfirst : bytesAtFirst w f.file <+: f.bytes s.world.fs :=
    (bytesAtFirst_grown h f.file).trans (List.prefix_append _ f.buffer)
  rw [realBytes, Host.onDisk_of_macos _ hos hfirst]
  exact (of_decide_eq_true hneeds).trans (hsized p fm hp f hf)

theorem large_of_needsRotation_writing :
    ∃ (s : State Host.posix) (fm : FileManager), s.managers 7 = some fm ∧
      fm.needsRotation = true ∧
      fm.maxSize ≤ (realBytes (.empty Host.posix) 0
        ((FileStream.mk 0 "456789".toList).bytes s.world.fs)).length := by
  obtain ⟨s, hs, hwaits, hneeds⟩ := exists_reachable_of_decide
    (nextEvent "/logs/app".toList fun _ => ['/']) (init (.empty Host.posix))
    (fun s => s.Waits "456789".toList ∧
      (s.managers 7).map FileManager.needsRotation = some true) NothingLost
    (asEvents (launch 7) ++ [(7, .act (.write "0123456789".toList ⟨10, 0, true, true⟩)),
      (7, .lapse 4 false), (7, .act (.flush ⟨0, 0, false, true⟩))]) (by decide +kernel)
  obtain ⟨fm, hp, hf⟩ := Option.bind_eq_some_iff.mp hwaits
  obtain ⟨fm', hp', hneeds⟩ := Option.map_eq_some_iff.mp hneeds
  obtain rfl := Option.some.inj (hp.symm.trans hp')
  exact ⟨s, fm, hp, hneeds, large_of_needsRotation rfl hs hp hf hneeds⟩

/-- **A byte that is dropped stays counted**: with a limit of ten bytes, a file of nine is to
be rotated. -/
theorem early_of_lapse : ∃ s : State Host.posix,
    Reachable (nextEvent "/logs/app".toList fun _ => ['/']) Always (init (.empty Host.posix)) s ∧
      s.Waits [] ∧ s.world.fs.data 0 = "012345678".toList ∧
      (s.managers 7).map FileManager.needsRotation = some true := by
  obtain ⟨s, hs, hwaits, hdata, hneeds⟩ := exists_reachable_of_decide
    (nextEvent "/logs/app".toList fun _ => ['/']) (init (.empty Host.posix))
    (fun s => s.Waits [] ∧ s.world.fs.data 0 = "012345678".toList ∧
      (s.managers 7).map FileManager.needsRotation = some true) Always
    (asEvents (launch 7) ++ [(7, .act (.write "0123456789".toList ⟨10, 0, true, true⟩)),
      (7, .lapse 9 true)]) (by decide +kernel)
  exact ⟨s, hs, hwaits, hdata, hneeds⟩

end Processes
end SpeckitLog
