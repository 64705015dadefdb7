import SpeckitLog.FileManager

/-!
# What the operations of the file manager can do

One lemma for each operation says every way in which it can end; the later
modules use these and no longer unfold the operations.

## Main results

* `FileManager.initialized_of_initializeAs`, `FileManager.written_of_write`,
  `FileManager.rotated_of_rotate` — the possible ends of the operations.
* `FileManager.write_of_succeed` — a write to which the system says yes.
-/

namespace SpeckitLog
namespace FileManager

open Function

/-! ### File names -/

/-- What `GenerateFileName` adds to the base name. -/
def processSuffix (firstProcess : Bool) (processId : ℤ) : Text :=
  if firstProcess then ".log".toList else '_' :: Text.decimal processId ++ ".log".toList

/-- What a rotation adds to the base name. -/
def sequenceSuffix (sequence : ℤ) : Text := '.' :: Text.decimal sequence ++ ".log".toList

theorem generateFileName_eq (fm : FileManager) (firstProcess : Bool) :
    fm.generateFileName firstProcess = fm.baseName ++ processSuffix firstProcess fm.processId := by
  cases firstProcess
  · exact List.append_assoc _ _ _
  · rfl

theorem sequenceName_eq (fm : FileManager) (sequence : ℤ) :
    fm.sequenceName sequence = fm.baseName ++ sequenceSuffix sequence :=
  List.append_assoc _ _ _

theorem processSuffix_injective {p q : ℤ} (h : processSuffix false p = processSuffix false q) :
    p = q :=
  Text.decimal_injective (List.append_cancel_right (List.cons_injective h))

theorem sequenceSuffix_injective {m n : ℤ} (h : sequenceSuffix m = sequenceSuffix n) : m = n :=
  Text.decimal_injective (List.append_cancel_right (List.cons_injective h))

theorem processSuffix_ne_first (p q : ℤ) : processSuffix false p ≠ processSuffix true q := fun h =>
  absurd (List.head_eq_of_cons_eq h) (by decide)

theorem processSuffix_ne_sequenceSuffix (first : Bool) (p n : ℤ) :
    processSuffix first p ≠ sequenceSuffix n := by
  intro h
  cases first with
  | false => exact absurd (List.head_eq_of_cons_eq h) (by decide)
  | true =>
    -- a decimal number does not start with the letter of the extension
    have htail : "log".toList = Text.decimal n ++ ".log".toList := List.cons_injective h
    cases hdec : Text.decimal n with
    | nil =>
      rw [hdec] at htail
      exact absurd htail (by decide)
    | cons c t =>
      have hc : 'l' = c := by
        rw [hdec] at htail
        exact List.head_eq_of_cons_eq htail
      have hmem : c ∈ Text.decimal n := by
        rw [hdec]
        exact List.mem_cons_self
      rcases Text.mem_decimal hmem with heq | heq <;> rw [← hc] at heq
      · exact absurd heq (by decide)
      · exact absurd heq (by decide)

variable {δ : Type*} {host : Host δ}

theorem plain_processSuffix (firstProcess : Bool) (processId : ℤ) :
    host.Plain (processSuffix firstProcess processId) := by
  cases firstProcess
  · refine Host.plain_append (t := '_' :: Text.decimal processId) ?_ ?_
    · exact Host.plain_append (t := ['_']) (Host.plain_of_notMem (by decide) (by decide))
        (Host.plain_decimal processId)
    · exact Host.plain_of_notMem (by decide) (by decide)
  · exact Host.plain_of_notMem (t := ".log".toList) (by decide) (by decide)

theorem plain_sequenceSuffix (sequence : ℤ) : host.Plain (sequenceSuffix sequence) := by
  refine Host.plain_append (t := '.' :: Text.decimal sequence) ?_ ?_
  · exact Host.plain_append (t := ['.']) (Host.plain_of_notMem (by decide) (by decide))
      (Host.plain_decimal sequence)
  · exact Host.plain_of_notMem (by decide) (by decide)

/-! ### The ends of the operations -/

variable [DecidableEq δ] {w w' : World host} {fm fm' : FileManager} {ok : Bool}

/-- The manager with another stream, or none. -/
def withHandle (fm : FileManager) (handle : Option FileStream) : FileManager :=
  { fm with fileHandle := handle }

/-- The world with other files. -/
def withFiles (w : World host) (fs : FileSystem host.Place) : World host := { w with fs := fs }

/-- What `Rotate` does to a manager whose base name is absolute. -/
inductive Rotated (fm : FileManager) (w : World host) (answers : RotateAnswers) :
    Bool → FileManager → World host → Prop
  /-- No file is open. -/
  | closed (h : fm.fileHandle = none) : Rotated fm w answers false fm w
  /-- The file is closed and not renamed. -/
  | notRenamed {f : FileStream} (h : fm.fileHandle = some f)
      (hren : answers.rename = true → w.fs.lookup (host.locate fm.currentFileName) = none) :
      Rotated fm w answers false (fm.withHandle none) (withFiles w (f.fclose w.fs))
  /-- The file is closed and renamed, and the next one cannot be opened. -/
  | notOpened {f : FileStream} {fs : FileSystem host.Place} (h : fm.fileHandle = some f)
      (hanswer : answers.rename = true)
      (hren : (f.fclose w.fs).rename (host.locate fm.currentFileName)
        (host.locate (fm.sequenceName 1)) = some fs) (hopen : answers.openFile = false) :
      Rotated fm w answers false
        { fm with currentFileName := fm.generateFileName true, fileHandle := none } (withFiles w fs)
  /-- The file is renamed, and the next one is open. -/
  | done {f : FileStream} {fs : FileSystem host.Place} (h : fm.fileHandle = some f)
      (hanswer : answers.rename = true)
      (hren : (f.fclose w.fs).rename (host.locate fm.currentFileName)
        (host.locate (fm.sequenceName 1)) = some fs) :
      Rotated fm w answers true
        { fm with
          currentFileName := fm.generateFileName true
          fileHandle := some ⟨(fs.openAppend (host.locate (fm.generateFileName true))).1, []⟩
          currentFileSize := 0 }
        (withFiles w (fs.openAppend (host.locate (fm.generateFileName true))).2)

/-- Closing the file leaves the named objects and the directory alone. -/
theorem closeCurrentFile_frame (fm : FileManager) (w : World host) :
    (fm.closeCurrentFile w).1.mutexHandle = fm.mutexHandle ∧
      (fm.closeCurrentFile w).2.mutexes = w.mutexes ∧
      (fm.closeCurrentFile w).2.semaphores = w.semaphores ∧
      (fm.closeCurrentFile w).2.fs.entries = w.fs.entries := by
  unfold closeCurrentFile
  split <;> exact ⟨rfl, rfl, rfl, rfl⟩

theorem closeCurrentFile_some {f : FileStream} (h : fm.fileHandle = some f) :
    fm.closeCurrentFile w = (fm.withHandle none, withFiles w (f.fclose w.fs)) := by
  simp only [closeCurrentFile, h, withHandle, withFiles]

/-- The retention loop finds no file to delete. -/
theorem deleteOldestFiles_eq (habs : host.isAbsolute fm.baseName = true) (cwd : Text)
    (remove : Text → Bool) : fm.deleteOldestFiles w cwd remove = w := by
  unfold deleteOldestFiles
  rw [getHistoricalFiles_eq_nil habs, deleteOldestLoop, if_neg (by simp)]

theorem renameWithSequence_some {sequence : ℤ} {fs : FileSystem host.Place}
    (h : w.fs.rename (host.locate fm.currentFileName)
      (host.locate (fm.sequenceName sequence)) = some fs) :
    fm.renameWithSequence w sequence true = (true, withFiles w fs) := by
  simp only [renameWithSequence, h, if_true]
  rfl

theorem renameWithSequence_none {sequence : ℤ}
    (h : w.fs.rename (host.locate fm.currentFileName)
      (host.locate (fm.sequenceName sequence)) = none) :
    fm.renameWithSequence w sequence true = (false, w) := by
  simp only [renameWithSequence, h, if_true]

/-- **Every rotation ends in one of these ways**: the next number is always one, and
nothing is deleted. -/
theorem rotated_of_rotate (habs : host.isAbsolute fm.baseName = true) (cwd : Text)
    (answers : RotateAnswers) :
    Rotated fm w answers (fm.rotate w cwd answers).1 (fm.rotate w cwd answers).2.1
      (fm.rotate w cwd answers).2.2 := by
  cases hf : fm.fileHandle with
  | none =>
    have hrot : fm.rotate w cwd answers = (false, fm, w) := by simp only [rotate, hf]
    rw [hrot]
    exact .closed hf
  | some f =>
    have habs' : host.isAbsolute (fm.withHandle none).baseName = true := habs
    have hclose := closeCurrentFile_some (w := w) hf
    have hseq : calculateNextSequenceNumber
        ((fm.withHandle none).getHistoricalFiles (withFiles w (f.fclose w.fs)) cwd) = 1 := by
      rw [getHistoricalFiles_eq_nil habs']
      rfl
    have hfail : ∀ w', (fm.withHandle none).renameWithSequence (withFiles w (f.fclose w.fs)) 1
        answers.rename = (false, w') →
        fm.rotate w cwd answers = (false, fm.withHandle none, w') := by
      intro w' hren
      simp only [rotate, hf, hclose, hseq, hren]
      rfl
    cases hanswer : answers.rename with
    | false =>
      rw [hfail _ (by rw [hanswer]; rfl)]
      exact .notRenamed hf fun h => absurd (hanswer.symm.trans h) (by decide)
    | true =>
      cases hren : (f.fclose w.fs).rename (host.locate fm.currentFileName)
          (host.locate (fm.sequenceName 1)) with
      | none =>
        rw [hfail _ (by rw [hanswer]; exact renameWithSequence_none hren)]
        refine .notRenamed hf fun _ => ?_
        by_contra hne
        obtain ⟨n, hn⟩ := Option.ne_none_iff_exists'.mp hne
        have := FileSystem.rename_isSome (f.fclose w.fs)
          (host.locate (fm.sequenceName 1)) hn
        rw [hren] at this
        contradiction
      | some fs =>
        have hrenamed : (fm.withHandle none).renameWithSequence (withFiles w (f.fclose w.fs)) 1
            true = (true, withFiles w fs) := renameWithSequence_some hren
        cases hopen : answers.openFile with
        | false =>
          have hrot : fm.rotate w cwd answers = (false, { fm with
              currentFileName := fm.generateFileName true, fileHandle := none },
              withFiles w fs) := by
            simp only [rotate, hf, hclose, hseq, hanswer, hrenamed, deleteOldestFiles_eq habs',
              hopen]
            rfl
          rw [hrot]
          exact .notOpened hf hanswer hren hopen
        | true =>
          have hrot : fm.rotate w cwd answers = (true, { fm with
              currentFileName := fm.generateFileName true
              fileHandle := some ⟨(fs.openAppend (host.locate (fm.generateFileName true))).1, []⟩
              currentFileSize := 0 },
              withFiles w (fs.openAppend (host.locate (fm.generateFileName true))).2) := by
            simp only [rotate, hf, hclose, hseq, hanswer, hrenamed, deleteOldestFiles_eq habs',
              hopen]
            rfl
          rw [hrot]
          exact .done hf hanswer hren

/-! ### Initialization -/

/-- The named object of a base name exists. -/
def Taken (w : World host) (filename : Text) : Prop :=
  match host.os with
  | .windows => mutexName filename ∈ w.mutexes
  | .macos => w.semaphores (semaphoreName host.hash filename) ≠ none

/-- What `IsAnotherProcessLogging` finds out and does. -/
inductive Elected (fm : FileManager) (w : World host) (filename : Text) (createObject : Bool) :
    Bool → FileManager → World host → Prop
  | other (h : createObject = true → Taken w filename) : Elected fm w filename createObject true fm w
  | mutex (hos : host.os = .windows) (hcreate : createObject = true)
      (h : mutexName filename ∉ w.mutexes) :
      Elected fm w filename createObject false { fm with mutexHandle := some (mutexName filename) }
        { w with mutexes := mutexName filename :: w.mutexes }
  | semaphore (hos : host.os = .macos) (hcreate : createObject = true)
      (h : w.semaphores (semaphoreName host.hash filename) = none) :
      Elected fm w filename createObject false
        { fm with mutexHandle := some (semaphoreName host.hash filename) }
        (setSemaphore w (semaphoreName host.hash filename) 1)

theorem semOpenExclusive_some {name : Text} {value : ℕ} (h : w.semaphores name = some value) :
    semOpenExclusive w name = none := by
  unfold semOpenExclusive
  rw [h]

theorem semOpenExclusive_none {name : Text} (h : w.semaphores name = none) :
    semOpenExclusive w name = some (setSemaphore w name 1) := by
  unfold semOpenExclusive
  rw [h]

/-- A successful `sem_trywait` is undone by `sem_post`. -/
theorem semPost_semTryWait {name : Text} (h : semTryWait w name = some w') :
    semPost w' name = w := by
  unfold semTryWait at h
  split at h
  · next value hvalue =>
    obtain rfl := Option.some.inj h
    have hset : (setSemaphore w name value).semaphores name = some value := update_self ..
    unfold semPost
    rw [hset]
    show { w with semaphores := update (update w.semaphores name _) name _ } = w
    rw [update_idem, ← hvalue, update_eq_self]
  · contradiction

/-- An existing semaphore is never created anew, whatever its value. -/
theorem isAnotherProcessLoggingPOSIX_of_some {filename : Text} {value : ℕ}
    (h : w.semaphores (semaphoreName host.hash filename) = some value) (createObject : Bool) :
    fm.isAnotherProcessLoggingPOSIX w filename createObject = (true, fm, w) := by
  cases createObject with
  | false => rfl
  | true =>
    cases hwait : semTryWait w (semaphoreName host.hash filename) with
    | none => simp only [isAnotherProcessLoggingPOSIX, semOpenExclusive_some h, h, hwait, if_true]
    | some w₁ =>
      simp only [isAnotherProcessLoggingPOSIX, semOpenExclusive_some h, h, hwait, if_true,
        semPost_semTryWait hwait]

theorem elected_of_isAnotherProcessLogging (fm : FileManager) (w : World host) (baseName : Text)
    (createObject : Bool) :
    Elected fm w (host.filename baseName).1 createObject
      (fm.isAnotherProcessLogging w baseName createObject).1
      (fm.isAnotherProcessLogging w baseName createObject).2.1
      (fm.isAnotherProcessLogging w baseName createObject).2.2 := by
  cases createObject with
  | false =>
    have heq : fm.isAnotherProcessLogging w baseName false = (true, fm, w) := by
      cases hos : host.os <;>
        simp [isAnotherProcessLogging, isAnotherProcessLoggingPOSIX, hos]
    rw [heq]
    exact .other (fun h => absurd h (by decide))
  | true =>
    cases hos : host.os with
    | windows =>
      by_cases hmem : mutexName (host.filename baseName).1 ∈ w.mutexes
      · have heq : fm.isAnotherProcessLogging w baseName true = (true, fm, w) := by
          simp [isAnotherProcessLogging, hos, hmem]
        rw [heq]
        refine .other fun _ => ?_
        simpa only [Taken, hos] using hmem
      · have heq : fm.isAnotherProcessLogging w baseName true =
            (false, { fm with mutexHandle := some (mutexName (host.filename baseName).1) },
              { w with mutexes := mutexName (host.filename baseName).1 :: w.mutexes }) := by
          simp [isAnotherProcessLogging, hos, hmem]
        rw [heq]
        exact .mutex hos rfl hmem
    | macos =>
      have hposix : fm.isAnotherProcessLogging w baseName true =
          fm.isAnotherProcessLoggingPOSIX w (host.filename baseName).1 true := by
        simp only [isAnotherProcessLogging, hos]
      rw [hposix]
      cases hsem : w.semaphores (semaphoreName host.hash (host.filename baseName).1) with
      | some value =>
        rw [isAnotherProcessLoggingPOSIX_of_some hsem]
        refine .other fun _ => ?_
        simp only [Taken, hos, hsem, ne_eq, reduceCtorEq, not_false_eq_true]
      | none =>
        have heq : fm.isAnotherProcessLoggingPOSIX w (host.filename baseName).1 true =
            (false,
              { fm with
                mutexHandle := some (semaphoreName host.hash (host.filename baseName).1) },
              setSemaphore w (semaphoreName host.hash (host.filename baseName).1) 1) := by
          simp only [isAnotherProcessLoggingPOSIX, semOpenExclusive_none hsem, if_true]
        rw [heq]
        exact .semaphore hos rfl hsem

theorem exists_elected (fm : FileManager) (w : World host) (baseName : Text)
    (createObject : Bool) : ∃ another fm' w',
      fm.isAnotherProcessLogging w baseName createObject = (another, fm', w') ∧
        Elected fm w (host.filename baseName).1 createObject another fm' w' :=
  ⟨_, _, _, rfl, elected_of_isAnotherProcessLogging fm w baseName createObject⟩

/-- Only the handle changes, and no file. -/
theorem Elected.frame {filename : Text} {createObject another : Bool}
    (h : Elected fm w filename createObject another fm' w') :
    fm' = { fm with mutexHandle := fm'.mutexHandle } ∧ w'.fs = w.fs := by
  cases h <;> exact ⟨rfl, rfl⟩

/-- The absolute base name. -/
def absoluteBase (host : Host δ) (cwd baseName : Text) : Text :=
  if host.isAbsolute baseName then baseName else host.absolute cwd baseName

omit [DecidableEq δ] in
theorem isAbsolute_absoluteBase {cwd : Text} (hcwd : host.isAbsolute cwd = true)
    (baseName : Text) : host.isAbsolute (absoluteBase host cwd baseName) = true := by
  unfold absoluteBase
  split
  · next h => exact h
  · exact host.isAbsolute_absolute cwd baseName hcwd

/-- What `Initialize` does. -/
inductive Initialized (fm : FileManager) (w : World host) (cwd : Text) (processId : ℤ)
    (answers : InitAnswers) : Bool → FileManager → World host → Prop
  | again (h : fm.initialized = true) : Initialized fm w cwd processId answers true fm w
  | noDirectory (h : fm.initialized = false) (hdir : answers.parentDirectory = false) :
      Initialized fm w cwd processId answers false
        { fm with processId := processId, baseName := absoluteBase host cwd fm.baseName } w
  /-- The file name is chosen, and the file cannot be opened. -/
  | notOpened {another : Bool} {fm₁ : FileManager} {w₁ : World host} (h : fm.initialized = false)
      (helect : Elected
        { fm with processId := processId, baseName := absoluteBase host cwd fm.baseName } w
        (host.filename (absoluteBase host cwd fm.baseName)).1 answers.createObject another fm₁ w₁)
      (hopen : answers.openFile = false) :
      Initialized fm w cwd processId answers false
        { fm₁ with currentFileName := fm₁.generateFileName !another, fileHandle := none } w₁
  /-- The file is open. -/
  | done {another : Bool} {fm₁ : FileManager} {w₁ : World host} {n : ℕ}
      {fs : FileSystem host.Place} (h : fm.initialized = false)
      (helect : Elected
        { fm with processId := processId, baseName := absoluteBase host cwd fm.baseName } w
        (host.filename (absoluteBase host cwd fm.baseName)).1 answers.createObject another fm₁ w₁)
      (hopen : w₁.fs.openAppend (host.locate (fm₁.generateFileName !another)) = (n, fs)) :
      Initialized fm w cwd processId answers true
        { fm₁ with
          currentFileName := fm₁.generateFileName !another
          fileHandle := some ⟨n, []⟩
          currentFileSize := (fs.data n).length
          initialized := true }
        (withFiles w₁ fs)

/-- An initialization without a directory. -/
theorem initializeAs_noDirectory (hinit : fm.initialized = false) (w : World host) (cwd : Text)
    (processId : ℤ) {answers : InitAnswers} (hdir : answers.parentDirectory = false) :
    fm.initializeAs w cwd processId answers = (false,
      { fm with processId := processId, baseName := absoluteBase host cwd fm.baseName }, w) := by
  simp only [initializeAs, hinit, hdir, Bool.false_eq_true, if_false]
  rfl

/-- An initialization whose file cannot be opened. -/
theorem initializeAs_notOpened (hinit : fm.initialized = false) (w : World host) (cwd : Text)
    (processId : ℤ) {answers : InitAnswers} (hdir : answers.parentDirectory = true)
    (hopen : answers.openFile = false) :
    ∃ another fm₁ w₁, Elected
        { fm with processId := processId, baseName := absoluteBase host cwd fm.baseName } w
        (host.filename (absoluteBase host cwd fm.baseName)).1 answers.createObject another fm₁ w₁ ∧
      fm.initializeAs w cwd processId answers = (false,
        { fm₁ with currentFileName := fm₁.generateFileName !another, fileHandle := none }, w₁) := by
  obtain ⟨another, fm₁, w₁, hcheck, helect⟩ := exists_elected
    { fm with processId := processId, baseName := absoluteBase host cwd fm.baseName } w
    (absoluteBase host cwd fm.baseName) answers.createObject
  refine ⟨another, fm₁, w₁, helect, ?_⟩
  simp only [absoluteBase, hinit] at hcheck
  simp only [initializeAs, hinit, hdir, hopen, Bool.false_eq_true, if_false, if_true, hcheck,
    openLogFile]

/-- An initialization to which the system says yes. -/
theorem initializeAs_opened (hinit : fm.initialized = false) (w : World host) (cwd : Text)
    (processId : ℤ) {answers : InitAnswers} (hdir : answers.parentDirectory = true)
    (hopen : answers.openFile = true) :
    ∃ another fm₁ w₁ n fs, Elected
        { fm with processId := processId, baseName := absoluteBase host cwd fm.baseName } w
        (host.filename (absoluteBase host cwd fm.baseName)).1 answers.createObject another fm₁ w₁ ∧
      w₁.fs.openAppend (host.locate (fm₁.generateFileName !another)) = (n, fs) ∧
      fm.initializeAs w cwd processId answers = (true,
        { fm₁ with
          currentFileName := fm₁.generateFileName !another
          fileHandle := some ⟨n, []⟩
          currentFileSize := (fs.data n).length
          initialized := true },
        withFiles w₁ fs) := by
  obtain ⟨another, fm₁, w₁, hcheck, helect⟩ := exists_elected
    { fm with processId := processId, baseName := absoluteBase host cwd fm.baseName } w
    (absoluteBase host cwd fm.baseName) answers.createObject
  rcases hfile : w₁.fs.openAppend (host.locate (fm₁.generateFileName !another)) with ⟨n, fs⟩
  refine ⟨another, fm₁, w₁, n, fs, helect, hfile, ?_⟩
  have hcontent : fs.content (host.locate (fm₁.generateFileName !another)) =
      some (fs.data n) := by
    have := w₁.fs.lookup_openAppend_self (host.locate (fm₁.generateFileName !another))
    rw [hfile] at this
    rw [FileSystem.content, this]
    rfl
  simp only [absoluteBase, hinit] at hcheck
  simp only [initializeAs, hinit, hdir, hopen, Bool.false_eq_true, if_false, if_true, hcheck,
    openLogFile, hfile, updateCurrentFileSize, hcontent]
  rfl

/-- **Every initialization ends in one of these ways.** -/
theorem initialized_of_initializeAs (fm : FileManager) (w : World host) (cwd : Text)
    (processId : ℤ) (answers : InitAnswers) :
    Initialized fm w cwd processId answers (fm.initializeAs w cwd processId answers).1
      (fm.initializeAs w cwd processId answers).2.1
      (fm.initializeAs w cwd processId answers).2.2 := by
  cases hinit : fm.initialized with
  | true =>
    have heq : fm.initializeAs w cwd processId answers = (true, fm, w) := by
      simp only [initializeAs, hinit, if_true]
    rw [heq]
    exact .again hinit
  | false =>
    cases hdir : answers.parentDirectory with
    | false =>
      rw [initializeAs_noDirectory hinit w cwd processId hdir]
      exact .noDirectory hinit hdir
    | true =>
      cases hopen : answers.openFile with
      | false =>
        obtain ⟨another, fm₁, w₁, helect, heq⟩ :=
          initializeAs_notOpened hinit w cwd processId hdir hopen
        rw [heq]
        exact .notOpened hinit helect hopen
      | true =>
        obtain ⟨another, fm₁, w₁, n, fs, helect, hfile, heq⟩ :=
          initializeAs_opened hinit w cwd processId hdir hopen
        rw [heq]
        exact .done hinit helect hfile

/-! ### Writing -/

/-- What any `Write` or `Flush` leaves as it is: everything but the bytes and the
size, and the file that the stream is open on. -/
structure Written (fm : FileManager) (w : World host) (fm' : FileManager) (w' : World host) :
    Prop where
  manager : fm' = { fm with
    fileHandle := fm'.fileHandle, currentFileSize := fm'.currentFileSize }
  file : fm'.fileHandle.map FileStream.file = fm.fileHandle.map FileStream.file
  world : w' = withFiles w w'.fs
  entries : w'.fs.entries = w.fs.entries

theorem Written.refl (fm : FileManager) (w : World host) : Written fm w fm w := ⟨rfl, rfl, rfl, rfl⟩

theorem Written.trans {fm₁ : FileManager} {w₁ : World host} (h : Written fm w fm₁ w₁)
    (h' : Written fm₁ w₁ fm' w') : Written fm w fm' w' where
  manager := by rw [h'.manager, h.manager]
  file := h'.file.trans h.file
  world := by
    rw [h'.world, h.world]
    rfl
  entries := h'.entries.trans h.entries

theorem written_of_flushToFile (fm : FileManager) (w : World host) (answers : WriteAnswers) :
    Written fm w (fm.flushToFile w answers).2.1 (fm.flushToFile w answers).2.2 := by
  unfold flushToFile
  split
  · exact .refl fm w
  · next f hf =>
    split
    · exact ⟨rfl, by rw [hf]; rfl, rfl, rfl⟩
    · exact .refl fm w

/-- **No write or flush touches the directories.** -/
theorem written_of_write (fm : FileManager) (w : World host) (data : Text)
    (answers : WriteAnswers) :
    Written fm w (fm.write w data answers).2.1 (fm.write w data answers).2.2 := by
  cases hf : fm.fileHandle with
  | none =>
    have heq : fm.write w data answers = (false, fm, w) := by simp only [write, hf]
    rw [heq]
    exact .refl fm w
  | some f =>
    have hwrote : ∀ size, Written fm w
        { fm with
          fileHandle := some (f.fwrite w.fs (data.take (min answers.accepted data.length))
            answers.pushed).1
          currentFileSize := size }
        (withFiles w (f.fwrite w.fs (data.take (min answers.accepted data.length))
          answers.pushed).2) := fun size => ⟨rfl, by rw [hf]; rfl, rfl, rfl⟩
    simp only [write, hf]
    split
    · exact hwrote fm.currentFileSize
    · split
      · exact (hwrote _).trans (written_of_flushToFile _ _ answers)
      · exact hwrote _

/-- The system does all that `Write` asks for. -/
structure WriteAnswers.Succeed (answers : WriteAnswers) (data : Text) : Prop where
  accepted : data.length ≤ answers.accepted
  fflush : answers.fflush = true
  fsync : answers.fsync = true

/-- The size after a write. -/
def sizeAfter (fm : FileManager) (data : Text) : ℕ := wrap (fm.currentFileSize + data.length)

/-- The stream and the files after a write to which the system says yes. -/
def streamAfter (fm : FileManager) (fs : FileSystem host.Place) (f : FileStream) (data : Text)
    (pushed : ℕ) : FileStream × FileSystem host.Place :=
  let (f, fs) := f.fwrite fs data pushed
  if fm.sizeAfter data % (1024 * 1024) = 0 then f.fflush fs else (f, fs)

/-- **A write to which the system says yes.** -/
theorem write_of_succeed {f : FileStream} (hf : fm.fileHandle = some f) {data : Text}
    {answers : WriteAnswers} (hans : WriteAnswers.Succeed answers data) :
    fm.write w data answers = (true,
      { fm with
        fileHandle := some (fm.streamAfter w.fs f data answers.pushed).1
        currentFileSize := fm.sizeAfter data },
      withFiles w (fm.streamAfter w.fs f data answers.pushed).2) := by
  have hlen : min answers.accepted data.length = data.length := Nat.min_eq_right hans.accepted
  unfold streamAfter sizeAfter
  by_cases hflush : wrap (fm.currentFileSize + data.length) % (1024 * 1024) = 0
  · simp only [write, hf, hlen, List.take_length, ne_eq, not_true_eq_false, if_false,
      shouldFlushToFile, hflush, decide_true, if_true, flushToFile, hans.fflush, hans.fsync]
    cases host.os <;> rfl
  · simp only [write, hf, hlen, List.take_length, ne_eq, not_true_eq_false, if_false,
      shouldFlushToFile, hflush, decide_false, Bool.false_eq_true]
    rfl

/-! ### The stream after a write -/

section StreamAfter

variable (fm) (fs : FileSystem host.Place) (f : FileStream) (data : Text) (pushed : ℕ)

theorem streamAfter_file : (fm.streamAfter fs f data pushed).1.file = f.file := by
  unfold streamAfter
  dsimp only
  split <;> rfl

theorem streamAfter_lookup (p : host.Place) :
    (fm.streamAfter fs f data pushed).2.lookup p = fs.lookup p := by
  unfold streamAfter
  dsimp only
  split <;> rfl

theorem streamAfter_next : (fm.streamAfter fs f data pushed).2.next = fs.next := by
  unfold streamAfter
  dsimp only
  split <;> rfl

/-- Other files keep their bytes. -/
theorem streamAfter_data {n : ℕ} (hn : n ≠ f.file) :
    (fm.streamAfter fs f data pushed).2.data n = fs.data n := by
  have hwrite : (f.fwrite fs data pushed).2.data n = fs.data n :=
    FileSystem.data_append_of_ne _ _ hn
  unfold streamAfter
  dsimp only
  split
  · exact (FileSystem.data_append_of_ne _ _ hn).trans hwrite
  · exact hwrite

/-- **What is written is in the file or in the stream.** -/
theorem streamAfter_bytes :
    (fm.streamAfter fs f data pushed).1.bytes (fm.streamAfter fs f data pushed).2 =
      f.bytes fs ++ data := by
  unfold streamAfter
  dsimp only
  split
  · rw [FileStream.bytes_fflush, FileStream.bytes_fwrite]
  · exact FileStream.bytes_fwrite f fs data pushed

end StreamAfter

/-! ### A manager on an empty machine -/

/-- The manager of `/logs/app`, with a limit of ten bytes and three generations, after
`Initialize`. -/
def appOpened : Bool × FileManager × World Host.posix :=
  (configured "/logs/app".toList 10 3).initializeAs (.empty Host.posix) ['/'] 7 ⟨true, true, true⟩

theorem appOpened_eq : appOpened = (true, appOpened.2.1, appOpened.2.2) :=
  Prod.ext (by decide +kernel) rfl

end FileManager
end SpeckitLog
