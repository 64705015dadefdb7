import SpeckitLog.Lib.FileSystem

/-!
# The file manager

`FileManager` as `file_manager.cpp` has it, on a world of files and named kernel
objects.  A machine is a parameter: its separators, which paths are absolute, and
which directory a path leads to.  What the operating system answers is an argument
of each operation, so every call may fail.

## Main definitions

* `Host`, `World` — the machine, and what its processes share.
* `FileManager` and its operations, under the names of the source.
-/

namespace SpeckitLog

/-! ### The machine -/

/-- The platforms of `platform.h`. -/
inductive Os
  | windows
  | macos
  deriving DecidableEq

/-- The paths of a machine; `δ` are its directories.  A path is a text and leads to one place,
however it is handed over: the source passes it as UTF-8 to `_wfopen_s` and as a narrow string
to `fs::path`, so a Windows machine is one whose narrow strings are UTF-8. -/
structure Host (δ : Type*) where
  os : Os
  isSeparator : Char → Bool
  isAbsolute : Text → Bool
  /-- `fs::absolute`, in a current directory. -/
  absolute : Text → Text → Text
  /-- The directory that the part of a path before its file name leads to. -/
  directory : Text → δ
  /-- `std::hash`. -/
  hash : Text → ℕ
  separators : ∀ c, isSeparator c = true → c = '/' ∨ c = '\\'
  isAbsolute_absolute : ∀ cwd path, isAbsolute cwd = true → isAbsolute (absolute cwd path) = true
  separator_of_isAbsolute : ∀ path, isAbsolute path = true → ∃ c ∈ path, isSeparator c = true

namespace Host

variable {δ : Type*} (host : Host δ)

/-- A name in a directory has no separator. -/
def FileName : Type := {t : Text // ∀ c ∈ t, host.isSeparator c = false}

instance : DecidableEq host.FileName := inferInstanceAs (DecidableEq (Subtype _))

/-- A directory and a name in it. -/
abbrev Place : Type _ := δ × host.FileName

/-- `path.filename()`: what follows the last separator. -/
def filename (path : Text) : host.FileName :=
  ⟨path.rtakeWhile fun c => !host.isSeparator c, fun _ hc => by
    simpa using List.mem_rtakeWhile_imp hc⟩

/-- Where a path leads. -/
def locate (path : Text) : host.Place :=
  (host.directory (path.rdropWhile fun c => !host.isSeparator c), host.filename path)

/-- `path / name`. -/
def join (path name : Text) : Text :=
  if path.getLast?.any host.isSeparator then path ++ name
  else path ++ (match host.os with | .windows => '\\' | .macos => '/') :: name

/-- What a stream opened with `"a"` makes of a text: on Windows it is in text mode, and every
LF becomes CR LF. -/
def inTextMode (t : Text) : Text :=
  match host.os with
  | .windows => t.flatMap fun c => if c = '\n' then ['\r', '\n'] else [c]
  | .macos => t

@[simp] theorem inTextMode_nil : host.inTextMode [] = [] := by
  unfold inTextMode
  split <;> rfl

theorem inTextMode_append (t t' : Text) :
    host.inTextMode (t ++ t') = host.inTextMode t ++ host.inTextMode t' := by
  unfold inTextMode
  split
  · exact List.flatMap_append
  · rfl

theorem inTextMode_of_macos (h : host.os = .macos) (t : Text) : host.inTextMode t = t := by
  unfold inTextMode
  rw [h]

/-- **Text mode adds a byte for every LF.** -/
theorem length_inTextMode (t : Text) : (host.inTextMode t).length =
    t.length + match host.os with | .windows => t.count '\n' | .macos => 0 := by
  unfold inTextMode
  cases host.os with
  | macos => rfl
  | windows =>
    show (t.flatMap fun c => if c = '\n' then ['\r', '\n'] else [c]).length = _
    induction t with
    | nil => rfl
    | cons c t ih =>
      rw [List.flatMap_cons, List.length_append, ih, List.count_cons, List.length_cons]
      by_cases hc : c = '\n'
      · simp [hc]; omega
      · simp [hc]; omega

/-- What a file really has that had `old` at first and has `t` for the program: its first bytes
are as they were, and those that were written since have gone through text mode. -/
def onDisk (old t : Text) : Text := old ++ host.inTextMode (t.drop old.length)

theorem onDisk_self (old : Text) : host.onDisk old old = old := by
  rw [onDisk, List.drop_length, inTextMode_nil, List.append_nil]

theorem onDisk_append {old t : Text} (h : old <+: t) (t' : Text) :
    host.onDisk old (t ++ t') = host.onDisk old t ++ host.inTextMode t' := by
  rw [onDisk, onDisk, List.drop_append_of_le_length h.length_le, inTextMode_append,
    List.append_assoc]

theorem onDisk_mono {old t t' : Text} (h : old <+: t) (h' : t <+: t') :
    host.onDisk old t <+: host.onDisk old t' := by
  obtain ⟨rest, rfl⟩ := h'
  rw [onDisk_append host h]
  exact List.prefix_append _ _

/-- Without text mode the program sees what there is. -/
theorem onDisk_of_macos (hos : host.os = .macos) {old t : Text} (h : old <+: t) :
    host.onDisk old t = t := by
  rw [onDisk, inTextMode_of_macos host hos]
  exact (List.prefix_iff_eq_append.mp h)

/-- The length is kept where there is no LF, or no text mode. -/
theorem length_inTextMode_eq_iff (t : Text) :
    (host.inTextMode t).length = t.length ↔ (host.os = .windows → '\n' ∉ t) := by
  rw [length_inTextMode]
  cases host.os with
  | macos => exact iff_of_true rfl fun h => by contradiction
  | windows =>
    rw [Nat.add_eq_left, List.count_eq_zero]
    exact ⟨fun h _ => h, fun h => h rfl⟩

/-! ### Paths with a common start -/

variable {host}

/-- A text without separators. -/
def Plain (host : Host δ) (t : Text) : Prop := ∀ c ∈ t, host.isSeparator c = false

theorem plain_of_notMem {t : Text} (h : '/' ∉ t) (h' : '\\' ∉ t) : host.Plain t := by
  intro c hc
  by_contra hsep
  rcases host.separators c (by simpa using hsep) with rfl | rfl
  · exact h hc
  · exact h' hc

theorem plain_append {t t' : Text} (h : host.Plain t) (h' : host.Plain t') :
    host.Plain (t ++ t') := fun c hc => (List.mem_append.mp hc).elim (h c) (h' c)

theorem plain_decimal (n : ℤ) : host.Plain (Text.decimal n) := by
  have hne : ∀ c ∈ Text.decimal n, c ≠ '/' ∧ c ≠ '\\' := by
    intro c hc
    rcases Text.mem_decimal hc with rfl | hdigit
    · decide
    · constructor <;> rintro rfl <;> exact absurd hdigit (by decide)
  exact plain_of_notMem (fun h => (hne _ h).1 rfl) fun h => (hne _ h).2 rfl

theorem filename_append (path : Text) {t : Text} (h : host.Plain t) :
    (host.filename (path ++ t)).1 = (host.filename path).1 ++ t := by
  have hall : ∀ c ∈ t.reverse, (!host.isSeparator c) = true := fun c hc => by
    simp [h c (List.mem_reverse.mp hc)]
  simp only [filename, List.rtakeWhile, List.reverse_append]
  rw [List.takeWhile_append_of_pos hall, List.reverse_append, List.reverse_reverse]

theorem locate_append_fst (path : Text) {t : Text} (h : host.Plain t) :
    (host.locate (path ++ t)).1 = (host.locate path).1 := by
  have hall : ∀ c ∈ t.reverse, (!host.isSeparator c) = true := fun c hc => by
    simp [h c (List.mem_reverse.mp hc)]
  simp only [locate, List.rdropWhile, List.reverse_append]
  rw [List.dropWhile_append_of_pos hall]

/-- **Different endings are different places.** -/
theorem locate_append_inj {path t t' : Text} (h : host.Plain t) (h' : host.Plain t') :
    host.locate (path ++ t) = host.locate (path ++ t') ↔ t = t' := by
  refine ⟨fun heq => ?_, fun heq => heq ▸ rfl⟩
  have hname : (host.filename (path ++ t)).1 = (host.filename (path ++ t')).1 :=
    congrArg (fun place => place.2.1) heq
  rw [filename_append path h, filename_append path h'] at hname
  exact List.append_cancel_left hname

/-! ### Two machines -/

/-- Paths from a root directory, which are their own directories. -/
def posix : Host Text where
  os := .macos
  isSeparator c := c == '/'
  isAbsolute path := path.head? == some '/'
  absolute cwd path := if path.head? == some '/' then path else cwd ++ '/' :: path
  directory := id
  hash _ := 0
  separators c h := Or.inl (beq_iff_eq.mp h)
  isAbsolute_absolute cwd path h := by
    split
    · next hpath => exact hpath
    · cases cwd with
      | nil => contradiction
      | cons c t => exact h
  separator_of_isAbsolute path h := by
    cases path with
    | nil => contradiction
    | cons c t =>
      obtain rfl : c = '/' := Option.some.inj (beq_iff_eq.mp h)
      exact ⟨'/', List.mem_cons_self, rfl⟩

/-- A separator of Windows. -/
def isSlash (c : Char) : Bool := c == '/' || c == '\\'

/-- Paths from the root of a drive. -/
def windows : Host Text where
  os := .windows
  isSeparator := isSlash
  isAbsolute path := path[1]? == some ':' && path[2]?.any isSlash
  absolute cwd path :=
    if path[1]? == some ':' && path[2]?.any isSlash then path else cwd ++ '\\' :: path
  directory := id
  hash _ := 0
  separators c h := by simpa [isSlash] using h
  isAbsolute_absolute cwd path h := by
    split
    · next hpath => exact hpath
    · rcases cwd with _ | ⟨a, _ | ⟨b, _ | ⟨c, t⟩⟩⟩
      · contradiction
      · contradiction
      · simp at h
      · exact h
  separator_of_isAbsolute path h := by
    rw [Bool.and_eq_true, Option.any_eq_true] at h
    obtain ⟨-, c, hc, hslash⟩ := h
    exact ⟨c, List.mem_of_getElem? hc, hslash⟩

end Host

/-- What the processes of a machine share. -/
structure World {δ : Type*} [DecidableEq δ] (host : Host δ) where
  fs : FileSystem host.Place
  /-- The open handles of named mutexes; a mutex exists while it has one. -/
  mutexes : List Text
  /-- The values of the named semaphores; they exist until they are unlinked. -/
  semaphores : Text → Option ℕ

/-- No files, and no named objects. -/
def World.empty {δ : Type*} [DecidableEq δ] (host : Host δ) : World host where
  fs := .empty
  mutexes := []
  semaphores _ := none

/-! ### Names of rotated files -/

/-- `ExtractSequenceNumber`. -/
def extractSequenceNumber (filename : Text) : ℤ :=
  let lastDotPos := filename.findLastOf '.' Text.npos
  if lastDotPos = Text.npos then -1
  else
    let secondLastDotPos := filename.findLastOf '.' (wsub lastDotPos 1)
    if secondLastDotPos = Text.npos then -1
    else
      let sequenceStr := filename.substr (secondLastDotPos + 1)
        (wsub (wsub lastDotPos secondLastDotPos) 1)
      sequenceStr.stoi.getD (-1)

/-- `IsHistoricalLogFile`. -/
def isHistoricalLogFile (filename basePattern : Text) : Bool :=
  if filename.find basePattern ≠ 0 ∨
      filename.find ".log".toList ≠ wsub filename.length 4 then false
  else
    let remaining := filename.drop basePattern.length
    let dotPos := Text.find remaining ['.']
    if dotPos = Text.npos then false
    else
      let sequenceStr := remaining.take dotPos
      !sequenceStr.isEmpty && sequenceStr.all Char.isDigit

/-- A historical file has the pattern at its start. -/
theorem prefix_of_isHistoricalLogFile {filename basePattern : Text}
    (h : isHistoricalLogFile filename basePattern = true) : basePattern <+: filename := by
  unfold isHistoricalLogFile at h
  split at h
  · contradiction
  · next hfind => exact Text.find_eq_zero.mp (not_not.mp (not_or.mp hfind).1)

/-- `CalculateNextSequenceNumber`. -/
def calculateNextSequenceNumber (historicalFiles : List Text) : ℤ :=
  if historicalFiles.isEmpty then 1
  else
    let maxSequence := historicalFiles.foldl (fun maxSequence file =>
      let sequence := extractSequenceNumber file
      if sequence > maxSequence then sequence else maxSequence) 0
    maxSequence + 1

/-- `FindOldestHistoricalFile`: the first file with the lowest number. -/
def findOldestHistoricalFile : List Text → Option Text
  | [] => none
  | file :: files => some (files.foldl (fun oldest f =>
      if extractSequenceNumber f < extractSequenceNumber oldest then f else oldest) file)

theorem findOldestHistoricalFile_mem {files : List Text} {f : Text}
    (h : findOldestHistoricalFile files = some f) : f ∈ files := by
  have hfold : ∀ (l : List Text) (g : Text), l.foldl (fun oldest f =>
      if extractSequenceNumber f < extractSequenceNumber oldest then f else oldest) g ∈ g :: l := by
    intro l
    induction l with
    | nil => exact fun g => List.mem_singleton_self g
    | cons a l ih =>
      intro g
      have := ih (if extractSequenceNumber a < extractSequenceNumber g then a else g)
      rcases List.mem_cons.mp this with heq | hmem
      · rw [List.foldl_cons, heq]
        split
        · exact List.mem_cons_of_mem _ List.mem_cons_self
        · exact List.mem_cons_self
      · exact List.mem_cons_of_mem _ (List.mem_cons_of_mem _ hmem)
  cases files with
  | nil => contradiction
  | cons g l => exact Option.some.inj h ▸ hfold l g

/-! ### The manager -/

/-- `FileManager`. -/
structure FileManager where
  baseName : Text
  processId : ℤ
  currentFileName : Text
  maxSize : ℕ
  retentionCount : ℕ
  currentFileSize : ℕ
  initialized : Bool
  fileHandle : Option FileStream
  /-- The name of the mutex or semaphore that `mutex_handle_` is a handle of. -/
  mutexHandle : Option Text
  deriving DecidableEq

/-- What the operating system answers during `Initialize`. -/
structure InitAnswers where
  /-- The parent directory exists or could be created. -/
  parentDirectory : Bool
  /-- `CreateMutexW`, or the first `sem_open`, meets no error. -/
  createObject : Bool
  openFile : Bool

/-- What the operating system answers during `Write` and `Flush`. -/
structure WriteAnswers where
  /-- How many bytes `fwrite` accepts. -/
  accepted : ℕ
  /-- How many of the bytes that wait in the stream `fwrite` passes on. -/
  pushed : ℕ
  fflush : Bool
  fsync : Bool

/-- What the operating system answers during a `Rotate` whose scans of the directory throw no
exception. -/
structure RotateAnswers where
  rename : Bool
  remove : Text → Bool
  openFile : Bool

namespace FileManager

open Function

/-- The constructor. -/
def ofBaseName (baseName : Text) : FileManager where
  baseName := baseName
  processId := 0
  currentFileName := []
  maxSize := 10 * 1024 * 1024
  retentionCount := 3
  currentFileSize := 0
  initialized := false
  fileHandle := none
  mutexHandle := none

/-- `SetMaxFileSize`. -/
def setMaxFileSize (fm : FileManager) (maxSize : ℕ) : FileManager := { fm with maxSize := maxSize }

/-- `SetRetentionCount`. -/
def setRetentionCount (fm : FileManager) (count : ℕ) : FileManager :=
  { fm with retentionCount := count }

/-- A manager that was given its limits before it starts. -/
def configured (baseName : Text) (maxSize retentionCount : ℕ) : FileManager :=
  ((ofBaseName baseName).setMaxFileSize maxSize).setRetentionCount retentionCount

/-- `GenerateFileName`. -/
def generateFileName (fm : FileManager) (firstProcess : Bool) : Text :=
  if firstProcess then fm.baseName ++ ".log".toList
  else fm.baseName ++ '_' :: Text.decimal fm.processId ++ ".log".toList

/-- The name that `RenameWithSequence` renames to. -/
def sequenceName (fm : FileManager) (sequence : ℤ) : Text :=
  fm.baseName ++ '.' :: Text.decimal sequence ++ ".log".toList

/-- `NeedsRotation`. -/
def needsRotation (fm : FileManager) : Bool := decide (fm.maxSize ≤ fm.currentFileSize)

/-- `ShouldFlushToFile`. -/
def shouldFlushToFile (fm : FileManager) : Bool :=
  decide (fm.currentFileSize % (1024 * 1024) = 0)

variable {δ : Type*} [DecidableEq δ] {host : Host δ}

/-- `CloseCurrentFile`; what a `fclose` that fails drops is lost in a `lapse` before. -/
def closeCurrentFile (fm : FileManager) (w : World host) : FileManager × World host :=
  match fm.fileHandle with
  | none => (fm, w)
  | some f => ({ fm with fileHandle := none }, { w with fs := f.fclose w.fs })

/-- `CleanupMutex`. -/
def cleanupMutex (fm : FileManager) (w : World host) : FileManager × World host :=
  match fm.mutexHandle with
  | none => (fm, w)
  | some name =>
    ({ fm with mutexHandle := none },
      match host.os with
      | .windows => { w with mutexes := w.mutexes.erase name }
      | .macos => w)

/-- The destructor. -/
def destroy (fm : FileManager) (w : World host) : World host :=
  let (fm, w) := fm.closeCurrentFile w
  (fm.cleanupMutex w).2

/-- The process dies: its handles are closed, and what its stream holds back is lost. -/
def die (fm : FileManager) (w : World host) : World host := (fm.cleanupMutex w).2

/-! ### Initialization -/

/-- The name of the semaphore, cut to the length that the system allows. -/
def semaphoreName (hash : Text → ℕ) (filename : Text) : Text :=
  let semaphoreName := "/SLM_".toList ++ filename
  if semaphoreName.length > 30 then
    "/SLM_".toList ++ filename.take 15 ++ '_' :: Text.decimal (hash filename % 100000 : ℕ)
  else semaphoreName

/-- A semaphore gets a value. -/
def setSemaphore (w : World host) (name : Text) (value : ℕ) : World host :=
  { w with semaphores := update w.semaphores name (some value) }

/-- `sem_open(name, O_CREAT | O_EXCL, 0644, 1)`; `none` when the semaphore exists. -/
def semOpenExclusive (w : World host) (name : Text) : Option (World host) :=
  match w.semaphores name with
  | some _ => none
  | none => some (setSemaphore w name 1)

/-- `sem_trywait`; `none` when the value is zero. -/
def semTryWait (w : World host) (name : Text) : Option (World host) :=
  match w.semaphores name with
  | some (value + 1) => some (setSemaphore w name value)
  | _ => none

/-- `sem_post`. -/
def semPost (w : World host) (name : Text) : World host :=
  match w.semaphores name with
  | some value => setSemaphore w name (value + 1)
  | none => w

/-- `IsAnotherProcessLoggingPOSIX`; `sem_close` changes no semaphore. -/
def isAnotherProcessLoggingPOSIX (fm : FileManager) (w : World host) (filename : Text)
    (createObject : Bool) : Bool × FileManager × World host :=
  let name := semaphoreName host.hash filename
  if createObject then
    match semOpenExclusive w name with
    | some w => (false, { fm with mutexHandle := some name }, w)
    | none =>
      match w.semaphores name with
      | none => (true, fm, w)
      | some _ =>
        match semTryWait w name with
        | some w =>
          let w := semPost w name
          match semOpenExclusive w name with
          | some w => (false, { fm with mutexHandle := some name }, w)
          | none => (true, fm, w)
        | none => (true, fm, w)
  else (true, fm, w)

/-- The name of the mutex. -/
def mutexName (filename : Text) : Text := "Global\\SpeckitLogMutex_".toList ++ filename

/-- `IsAnotherProcessLogging`. -/
def isAnotherProcessLogging (fm : FileManager) (w : World host) (baseName : Text)
    (createObject : Bool) : Bool × FileManager × World host :=
  let filename := (host.filename baseName).1
  match host.os with
  | .windows =>
    let name := mutexName filename
    if createObject then
      -- a second handle of an existing mutex is closed again
      if name ∈ w.mutexes then (true, fm, w)
      else (false, { fm with mutexHandle := some name }, { w with mutexes := name :: w.mutexes })
    else (true, fm, w)
  | .macos => fm.isAnotherProcessLoggingPOSIX w filename createObject

/-- `OpenLogFile`. -/
def openLogFile (fm : FileManager) (w : World host) (openFile : Bool) :
    Bool × FileManager × World host :=
  if openFile then
    let (n, fs) := w.fs.openAppend (host.locate fm.currentFileName)
    (true, { fm with fileHandle := some ⟨n, []⟩ }, { w with fs := fs })
  else (false, { fm with fileHandle := none }, w)

/-- `UpdateCurrentFileSize`. -/
def updateCurrentFileSize (fm : FileManager) (w : World host) : FileManager :=
  match w.fs.content (host.locate fm.currentFileName) with
  | some data => { fm with currentFileSize := data.length }
  | none => fm

/-- `Initialize`, in the current directory `cwd`. -/
def initializeAs (fm : FileManager) (w : World host) (cwd : Text) (processId : ℤ)
    (answers : InitAnswers) : Bool × FileManager × World host :=
  if fm.initialized then (true, fm, w)
  else
    let basePath := if host.isAbsolute fm.baseName then fm.baseName
      else host.absolute cwd fm.baseName
    let fm := { fm with processId := processId, baseName := basePath }
    if answers.parentDirectory then
      let (another, fm, w) := fm.isAnotherProcessLogging w fm.baseName answers.createObject
      let fm := { fm with currentFileName := fm.generateFileName !another }
      let (opened, fm, w) := fm.openLogFile w answers.openFile
      if opened then (true, { fm.updateCurrentFileSize w with initialized := true }, w)
      else (false, fm, w)
    else (false, fm, w)

/-! ### Writing -/

/-- `FlushToFile`; what a `fflush` that fails writes or drops goes in a `lapse` before. -/
def flushToFile (fm : FileManager) (w : World host) (answers : WriteAnswers) :
    Bool × FileManager × World host :=
  match fm.fileHandle with
  | none => (false, fm, w)
  | some f =>
    if answers.fflush then
      let (f, fs) := f.fflush w.fs
      (match host.os with | .windows => true | .macos => answers.fsync,
        { fm with fileHandle := some f }, { w with fs := fs })
    else (false, fm, w)

/-- `Write`. -/
def write (fm : FileManager) (w : World host) (data : Text) (answers : WriteAnswers) :
    Bool × FileManager × World host :=
  match fm.fileHandle with
  | none => (false, fm, w)
  | some f =>
    let written := min answers.accepted data.length
    let (f, fs) := f.fwrite w.fs (data.take written) answers.pushed
    let fm := { fm with fileHandle := some f }
    let w := { w with fs := fs }
    if written ≠ data.length then (false, fm, w)
    else
      let fm := { fm with currentFileSize := wrap (fm.currentFileSize + data.length) }
      if fm.shouldFlushToFile then fm.flushToFile w answers else (true, fm, w)

/-- `Flush`. -/
def flush (fm : FileManager) (w : World host) (answers : WriteAnswers) :
    Bool × FileManager × World host :=
  match fm.fileHandle with
  | none => (false, fm, w)
  | some _ => fm.flushToFile w answers

/-! ### Rotation -/

/-- `GetHistoricalFiles`, in the current directory `cwd`. -/
def getHistoricalFiles (fm : FileManager) (w : World host) (cwd : Text) : List Text :=
  let basePattern := fm.baseName ++ ['.']
  let directory := (host.locate (host.join cwd [])).1
  (w.fs.entries.keys.filter fun place =>
    place.1 = directory ∧ isHistoricalLogFile place.2.1 basePattern).map fun place =>
      host.join cwd place.2.1

/-- **No file is ever found.**  The scan compares the names in the current
directory, which have no separator, with the absolute base name, which has one. -/
theorem getHistoricalFiles_eq_nil {fm : FileManager} (habs : host.isAbsolute fm.baseName = true)
    (w : World host) (cwd : Text) : fm.getHistoricalFiles w cwd = [] := by
  unfold getHistoricalFiles
  rw [List.map_eq_nil_iff, List.filter_eq_nil_iff]
  intro place _ hplace
  have hstart := prefix_of_isHistoricalLogFile (of_decide_eq_true hplace).2
  obtain ⟨c, hc, hsep⟩ := host.separator_of_isAbsolute fm.baseName habs
  have := place.2.2 c (hstart.subset (List.mem_append_left _ hc))
  rw [hsep] at this
  contradiction

/-- `RenameWithSequence`. -/
def renameWithSequence (fm : FileManager) (w : World host) (sequence : ℤ) (rename : Bool) :
    Bool × World host :=
  if rename then
    match w.fs.rename (host.locate fm.currentFileName) (host.locate (fm.sequenceName sequence)) with
    | some fs => (true, { w with fs := fs })
    | none => (false, w)
  else (false, w)

/-- The loop of `DeleteOldestFiles`: the files are removed one by one, whether or
not the system removes them, until `retentionCount` are left in the list. -/
def deleteOldestLoop (retentionCount : ℕ) (remove : Text → Bool) (historicalFiles : List Text)
    (w : World host) : World host :=
  if retentionCount < historicalFiles.length then
    match _ : findOldestHistoricalFile historicalFiles with
    | none => w
    | some oldest =>
      let w := if remove oldest then { w with fs := w.fs.remove (host.locate oldest) } else w
      deleteOldestLoop retentionCount remove (historicalFiles.erase oldest) w
  else w
termination_by historicalFiles.length
decreasing_by
  have hmem := findOldestHistoricalFile_mem ‹_›
  rw [List.length_erase_of_mem hmem]
  have := List.length_pos_of_mem hmem
  omega

/-- `DeleteOldestFiles`. -/
def deleteOldestFiles (fm : FileManager) (w : World host) (cwd : Text) (remove : Text → Bool) :
    World host :=
  deleteOldestLoop fm.retentionCount remove (fm.getHistoricalFiles w cwd) w

/-- `Rotate`. -/
def rotate (fm : FileManager) (w : World host) (cwd : Text) (answers : RotateAnswers) :
    Bool × FileManager × World host :=
  match fm.fileHandle with
  | none => (false, fm, w)
  | some _ =>
    let (fm, w) := fm.closeCurrentFile w
    let historicalFiles := fm.getHistoricalFiles w cwd
    let nextSequence := calculateNextSequenceNumber historicalFiles
    let (renamed, w) := fm.renameWithSequence w nextSequence answers.rename
    if renamed then
      let w := fm.deleteOldestFiles w cwd answers.remove
      let fm := { fm with currentFileName := fm.generateFileName true }
      let (opened, fm, w) := fm.openLogFile w answers.openFile
      if opened then (true, { fm with currentFileSize := 0 }, w) else (false, fm, w)
    else (false, fm, w)

/-! ### Faults -/

/-- The library cannot write out what the stream of the open file holds back. -/
def lapse (fm : FileManager) (w : World host) (pushed : ℕ) (lost : Bool) :
    FileManager × World host :=
  match fm.fileHandle with
  | none => (fm, w)
  | some f =>
    let (f, fs) := f.lapse w.fs pushed lost
    ({ fm with fileHandle := some f }, { w with fs := fs })

/-- `Rotate` that is left by an exception of a scan of the directory: of the first one, or of
that of `DeleteOldestFiles`, after renaming. -/
def rotateThrows (fm : FileManager) (w : World host) (cwd : Text) (renames : Bool) :
    FileManager × World host :=
  match fm.fileHandle with
  | none => (fm, w)
  | some _ =>
    let (fm, w) := fm.closeCurrentFile w
    let nextSequence := calculateNextSequenceNumber (fm.getHistoricalFiles w cwd)
    (fm, (fm.renameWithSequence w nextSequence renames).2)

end FileManager
end SpeckitLog
