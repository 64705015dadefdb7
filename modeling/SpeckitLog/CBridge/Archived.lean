import SpeckitLog.Archive
import SpeckitLog.FileManager.Writes
import SpeckitLog.FrontEnds

/-!
# What an archive has of a log

`speckit_logger_archive` opens the log files by their paths, while the logger still holds
back what its stream has not passed on.  So an archive has what reached the disk: all that
was logged when the stream happens to be empty, and less of it, or nothing, when it is not.

## Main definitions

* `CBridge.archive` — the function of the interface, over `createArchive`.
* `Archive.copy` — the archived copy of a file.
* `CBridge.ArchivesAll` — an archive that has all that was logged.

## Main results

* `CBridge.archivesAll_iff` — what an archive has of an open file.
* `CBridge.archived_iff` — when an archive has everything logged before it.
-/

namespace SpeckitLog

open FileManager Archive

variable {δ : Type*} [DecidableEq δ] {host : Host δ}

/-! ### The files that an archiver finds -/

/-- The directories list the files of a world: each of them, with its size. -/
structure Lists (w : World host) (disk : δ → List (DirectoryEntry host)) : Prop where
  complete : ∀ place n, w.fs.lookup place = some n → ∃ entry ∈ disk place.1, entry.name = place.2
  faithful : ∀ dir, ∀ entry ∈ disk dir, ∀ n, w.fs.lookup (dir, entry.name) = some n →
    entry.regular = true ∧ entry.size = some (w.fs.data n).length

/-- The files of a world in a directory, as they are listed. -/
def listing (w : World host) (dir : δ) : List (DirectoryEntry host) :=
  (w.fs.entries.keys.filter fun place => place.1 = dir).map fun place =>
    ⟨place.2, true, (w.fs.content place).map List.length⟩

theorem lists_listing (w : World host) : Lists w (listing w) where
  complete place n hn := by
    refine ⟨_, List.mem_map.mpr ⟨place, List.mem_filter.mpr ⟨?_, by simp⟩, rfl⟩, rfl⟩
    exact AList.lookup_isSome.mp (Option.isSome_iff_exists.mpr ⟨n, hn⟩)
  faithful dir entry hentry n hn := by
    obtain ⟨place, hplace, rfl⟩ := List.mem_map.mp hentry
    obtain rfl : place.1 = dir := of_decide_eq_true (List.mem_filter.mp hplace).2
    refine ⟨rfl, ?_⟩
    have hlookup : w.fs.lookup place = some n := hn
    rw [FileSystem.content, hlookup]
    rfl

namespace Archive

/-- The archived copy of a file: libzip reads it by its path. -/
def copy (archive : Archive host) (w : World host) (cwd : Text) (place : host.Place) :
    Option Text :=
  if place.1 = directoryOf host cwd ∧ archive.files.any (fun name => name = place.2) then
    w.fs.content place
  else none

end Archive

namespace CBridge

/-- `strftime` with the format of `speckit_logger_archive`. -/
def archiveTimestamp (tm : Tm) : Text :=
  Text.decimal (tm.year + 1900) ++ Text.padded 2 (tm.mon + 1) ++ Text.padded 2 tm.mday ++
    Text.padded 2 tm.hour ++ Text.padded 2 tm.min ++ Text.padded 2 tm.sec

theorem archiveTimestamp_ne_nil (tm : Tm) : archiveTimestamp tm ≠ [] := by
  have hyear : Text.decimal (tm.year + 1900) ≠ [] := by
    unfold Text.decimal
    split
    · exact List.cons_ne_nil _ _
    · exact Nat.toDigits_ne_nil
  simp [archiveTimestamp, hyear]

/-- `speckit_logger_archive`, in the current directory `cwd`: its result, and the archive. -/
def archive (disk : δ → List (DirectoryEntry host)) (cwd : Text) (baseName : Option Text)
    (processId : ℤ) (tm : Tm) (answers : ArchiveAnswers host) : ℤ × Option (Archive host) :=
  match baseName with
  | none => (-1, none)
  | some baseName =>
    match createArchive disk cwd baseName processId (archiveTimestamp tm) answers with
    | some archive => (0, some archive)
    | none => (-1, none)

/-- **Everything is archived**: whatever order the directory is listed in, the call returns
zero when nothing fails in it, and the copy of the current file is `expected`. -/
def ArchivesAll (j : Journal host) (cwd config : Text) (processId : ℤ) (tm : Tm)
    (expected : Text) : Prop :=
  ∀ disk (answers : ArchiveAnswers host), Lists j.world disk →
    answers.Succeed (disk (directoryOf host cwd)).length →
      ∃ a, archive disk cwd (some config) processId tm answers = (0, some a) ∧
        a.copy j.world cwd (host.locate j.fm.currentFileName) = some expected

variable {j : Journal host} {f : FileStream} {cwd config : Text} {processId : ℤ} {tm : Tm}

/-- Where the first process logs to, in the directory of the archiver. -/
def LogsTo (j : Journal host) (cwd config : Text) : Prop :=
  (host.locate j.fm.currentFileName).1 = directoryOf host cwd ∧
    (host.locate j.fm.currentFileName).2.1 = (host.filename config).1 ++ ".log".toList

omit [DecidableEq δ] in
theorem archive_eq_iff {disk : δ → List (DirectoryEntry host)} {answers : ArchiveAnswers host}
    {a : Archive host} : archive disk cwd (some config) processId tm answers = (0, some a) ↔
      createArchive disk cwd config processId (archiveTimestamp tm) answers = some a := by
  unfold archive
  dsimp only
  cases createArchive disk cwd config processId (archiveTimestamp tm) answers <;> simp

/-- **What an archive has of an open file**: its bytes on disk. -/
theorem archivesAll_iff (hopen : j.Open f) (hname : LogsTo j cwd config) {expected : Text} :
    ArchivesAll j cwd config processId tm expected ↔ (host.filename config).1 ≠ [] ∧
      expected ≠ [] ∧ j.world.fs.data f.file = expected := by
  obtain ⟨hdir, hfile⟩ := hname
  have hcontent : j.world.fs.content (host.locate j.fm.currentFileName) =
      some (j.world.fs.data f.file) := by rw [FileSystem.content, hopen.named, Option.map_some]
  -- the directory entry of the file has the length of its bytes
  have hentry_size : ∀ {disk : δ → List (DirectoryEntry host)}, Lists j.world disk →
      ∀ entry ∈ disk (directoryOf host cwd),
        entry.name = (host.locate j.fm.currentFileName).2 →
        entry.regular = true ∧ entry.size = some (j.world.fs.data f.file).length := by
    intro disk hdisk entry hentry heq
    refine hdisk.faithful _ entry hentry f.file ?_
    rw [heq, ← hdir]
    exact hopen.named
  constructor
  · intro hall
    obtain ⟨a, ha, hcopy⟩ := hall (listing j.world)
      ⟨_, true, fun _ => true, fun _ => true, true⟩ (lists_listing j.world)
      ⟨le_rfl, rfl, fun _ => rfl, fun _ => rfl, rfl⟩
    unfold Archive.copy at hcopy
    split at hcopy
    swap
    · contradiction
    next hplace =>
    obtain rfl : j.world.fs.data f.file = expected :=
      Option.some.inj (hcontent.symm.trans hcopy)
    obtain ⟨entry, hentry, heq, -, ⟨sz, hsz, hzero⟩, hext, -⟩ :=
      (mem_files (archive_eq_iff.mp ha) _).mp (by simpa using hplace.2)
    have hsize := (hentry_size (lists_listing j.world) entry (List.mem_of_mem_take hentry) heq).2
    refine ⟨fun hnil => ?_, fun hnil => hzero ?_, rfl⟩
    · rw [hfile, hnil] at hext
      exact absurd hext (by decide)
    · rw [hnil] at hsize
      exact Option.some.inj (hsz.symm.trans hsize)
  · rintro ⟨hconfig, hexpected, hdata⟩ disk answers hdisk hanswers
    obtain ⟨entry, hentry, heq⟩ := hdisk.complete _ _ hopen.named
    rw [hdir] at hentry
    obtain ⟨hregular, hsize⟩ := hentry_size hdisk entry hentry heq
    have hfull : HasData entry := by
      refine ⟨_, hsize, fun hzero => hexpected ?_⟩
      rw [← hdata]
      exact List.length_eq_zero_iff.mp hzero
    have hcandidate : entry ∈
        collectLogFiles (disk (directoryOf host cwd)) answers.delivered config := by
      rw [mem_collectLogFiles, List.take_of_length_le hanswers.delivered, heq, hfile]
      exact ⟨hentry, hregular, extension_append_log hconfig, List.prefix_append _ _⟩
    obtain ⟨a, ha⟩ := createArchive_isSome processId hanswers (archiveTimestamp_ne_nil tm)
      (fun hnil => hconfig (by rw [hnil]; rfl)) hcandidate hfull
    refine ⟨a, archive_eq_iff.mpr ha, ?_⟩
    unfold Archive.copy
    rw [if_pos, hcontent, hdata]
    have hmem : (host.locate j.fm.currentFileName).2 ∈ a.files := by
      refine (mem_files ha _).mpr ⟨entry, (mem_collectLogFiles.mp hcandidate).1, heq, hregular,
        hfull, ?_⟩
      rw [← heq]
      exact (mem_collectLogFiles.mp hcandidate).2.2
    exact ⟨hdir, by simpa using hmem⟩

/-! ### Runs without a rotation -/

open FrontEnds Journal

variable {io : Io} {logger : SpeckitLogger host} {filter : TagFilter} {calls : List Call}
  {old : Text}

/-- The last write has left something in the stream, unless the size is a multiple. -/
def HeldBack (j : Journal host) (f : FileStream) : Prop :=
  (f.bytes j.world.fs).length % (1024 * 1024) ≠ 0 → f.buffer ≠ []

/-- **A run that reaches no rotation** appends its records to one file; and where `fwrite`
passes nothing on, something is held back. -/
theorem grown_run (cwd : Text) (hready : Ready filter logger) (hio : io.Succeeds)
    (h : Grown old logger.journal f)
    (hsize : logger.journal.fm.currentFileSize ≤ (f.bytes logger.journal.world.fs).length)
    (hroom : passed filter calls ≠ [] →
      (f.bytes logger.journal.world.fs ++ (passed filter calls).flatten).length <
        logger.journal.fm.maxSize) :
    ∃ f', Grown old (run io cwd logger calls).journal f' ∧
      (run io cwd logger calls).journal.fm.currentFileName = logger.journal.fm.currentFileName ∧
      ((∀ n data, (io.write n data).pushed = 0) →
        passed filter calls ≠ [] ∨ HeldBack logger.journal f →
          HeldBack (run io cwd logger calls).journal f') := by
  -- the bytes of the file grow along the run, so the file and its stream vary
  induction calls generalizing logger f with
  | nil => exact ⟨f, h, rfl, fun _ hheld => hheld.resolve_left fun hne => hne rfl⟩
  | cons c calls ih =>
    have hready' := hready.call cwd hio c
    cases c with
    | setLogLevel level => exact ih hready' h hsize hroom
    | log level tag message =>
      by_cases hpasses : Passes filter level tag
      swap
      · have hrun : run io cwd logger (.log level tag message :: calls) =
            run io cwd logger calls := by
          show run io cwd (call io cwd logger (.log level tag message)) calls = _
          rw [call_of_not_passes (by rw [hready.tagFilter]; exact hpasses)]
        rw [passed_of_not_passes hpasses] at hroom ⊢
        rw [hrun]
        exact ih hready h hsize hroom
      obtain ⟨j', f', heq, hwrote⟩ := h.isOpen.write hio (message ++ ['\n'])
      rw [passed_of_passes hpasses] at hroom ⊢
      have hlt := hroom (List.cons_ne_nil _ _)
      rw [List.flatten_cons, ← List.append_assoc, ← hwrote.bytes] at hlt
      have hname : j'.fm.currentFileName = logger.journal.fm.currentFileName := by
        rw [hwrote.manager]
      have hmax : j'.fm.maxSize = logger.journal.fm.maxSize := by rw [hwrote.manager]
      have hsize' : j'.fm.currentFileSize ≤ (f'.bytes j'.world.fs).length := by
        rw [hwrote.manager, hwrote.bytes, List.length_append]
        exact (wrap_le _).trans (Nat.add_le_add_right hsize _)
      have hfree : j'.fm.needsRotation = false := by
        rw [needsRotation, decide_eq_false_iff_not, hmax]
        rw [List.length_append] at hlt
        omega
      have hcall : call io cwd logger (.log level tag message) = { logger with journal := j' } := by
        rw [call, log_of_passes io cwd message (by rw [hready.tagFilter]; exact hpasses), heq]
        simp only [if_true, hfree, Bool.false_eq_true, if_false]
      have hrun : run io cwd logger (.log level tag message :: calls) =
          run io cwd { logger with journal := j' } calls := by
        show run io cwd (call io cwd logger (.log level tag message)) calls = _
        rw [hcall]
      rw [hcall] at hready'
      obtain ⟨f'', hgrown, hname', hheld⟩ := ih hready' (h.write hwrote) hsize'
        fun _ => hmax ▸ hlt
      rw [hrun]
      refine ⟨f'', hgrown, hname'.trans hname, fun hpushed _ => hheld hpushed (Or.inr ?_)⟩
      rw [hpushed] at hwrote
      exact h.held hwrote (List.append_ne_nil_of_right_ne_nil _ (List.cons_ne_nil _ _))

/-- The first process of a base in the current directory logs where the archiver looks. -/
theorem logsTo_of_first {base : Text}
    (hbase : host.locate base = (directoryOf host cwd, host.filename config))
    (hname : j.fm.currentFileName = base ++ ".log".toList) : LogsTo j cwd config := by
  have hplain : host.Plain ".log".toList := plain_processSuffix true 0
  unfold LogsTo
  rw [hname, Host.locate_append_fst _ hplain, hbase]
  refine ⟨rfl, (Host.filename_append _ hplain).trans ?_⟩
  rw [show host.filename base = host.filename config from congrArg Prod.snd hbase]

/-- Every record has its end of line. -/
theorem flatten_passed_ne_nil (h : passed filter calls ≠ []) :
    (passed filter calls).flatten ≠ [] := by
  obtain ⟨r, hr⟩ := List.exists_mem_of_ne_nil _ h
  obtain ⟨c, -, hc⟩ := List.mem_filterMap.mp hr
  rw [List.flatten_ne_nil_iff]
  refine ⟨r, hr, ?_⟩
  cases c with
  | setLogLevel level => contradiction
  | log level tag message =>
    dsimp only at hc
    split at hc
    · rw [← Option.some.inj hc]
      exact List.append_ne_nil_of_right_ne_nil _ (List.cons_ne_nil _ _)
    · contradiction

/-- **When an archive has everything logged before it**, whatever `fwrite` holds back: when no
message was accepted, or the base has a file name and the log file has a multiple of a
mebibyte. -/
theorem archived_iff {w : World host} {answers : InitAnswers} (hcwd : host.isAbsolute cwd = true)
    (hcreate : create w cwd (some config) processId answers = some logger)
    (hinit : logger.journal.fm.initialized = true)
    (hfirst : logger.journal.fm.currentFileName = logger.journal.fm.generateFileName true)
    (hbase : host.locate (absoluteBase host cwd config) =
      (directoryOf host cwd, host.filename config))
    (hold : logger.journal.world.fs.content (host.locate logger.journal.fm.currentFileName) =
      some old)
    (filter : TagFilter) (calls : List Call) (hroom : passed filter calls ≠ [] →
      (old ++ (passed filter calls).flatten).length < logger.journal.fm.maxSize) (tm : Tm) :
    (∀ io : Io, io.Succeeds → passed filter calls ≠ [] →
      ArchivesAll (run io cwd { logger with tagFilter := filter } calls).journal cwd config
        processId tm (old ++ (passed filter calls).flatten)) ↔
      passed filter calls = [] ∨ ((host.filename config).1 ≠ [] ∧
        (old ++ (passed filter calls).flatten).length % (1024 * 1024) = 0) := by
  obtain ⟨hresult, heq⟩ := initialized_of_create hcreate hinit
  have hready := ready_of_create hcwd hcreate hinit filter
  have hjournal : logger.journal = ⟨logger.journal.fm, logger.journal.world, []⟩ :=
    congrArg SpeckitLogger.journal heq
  obtain ⟨⟨f, hstarted⟩, hname, -⟩ := started_of_initializeAs rfl hresult hold
  rw [← hjournal] at hstarted
  by_cases hnone : passed filter calls = []
  · exact iff_of_true (fun _ _ hne => absurd hnone hne) (Or.inl hnone)
  -- what every run ends with
  have hrun : ∀ io : Io, io.Succeeds →
      ∃ f', (run io cwd { logger with tagFilter := filter } calls).journal.Open f' ∧
        f'.bytes (run io cwd { logger with tagFilter := filter } calls).journal.world.fs =
          old ++ (passed filter calls).flatten ∧
        LogsTo (run io cwd { logger with tagFilter := filter } calls).journal cwd config ∧
        ((old ++ (passed filter calls).flatten).length % (1024 * 1024) = 0 → f'.buffer = []) ∧
        ((∀ n data, (io.write n data).pushed = 0) →
          (old ++ (passed filter calls).flatten).length % (1024 * 1024) ≠ 0 →
            f'.buffer ≠ []) := by
    intro io hio
    obtain ⟨f', hgrown, hsame, hheld⟩ := grown_run cwd hready hio
      hstarted.grown (by rw [hstarted.bytes, hstarted.size]) (by rwa [hstarted.bytes])
    have hbytes := hgrown.bytes
    rw [appended_run hready hio, appended, hstarted.calls, List.map_nil, List.flatten_nil,
      List.nil_append] at hbytes
    refine ⟨f', hgrown.isOpen, hbytes, ?_, fun hzero => hgrown.flushed (hbytes ▸ hzero),
      fun hpushed hsize => hheld hpushed (Or.inl hnone) (hbytes ▸ hsize)⟩
    refine logsTo_of_first hbase (hsame.trans (hfirst.trans ?_))
    rw [generateFileName, if_pos rfl, hname]
    rfl
  rw [or_iff_right hnone]
  constructor
  · intro hall
    have hio := Io.pushing_succeeds fun _ => 0
    obtain ⟨f', hopen, hbytes, hlogs, -, hheld⟩ := hrun _ hio
    obtain ⟨hconfig, -, hdata⟩ := (archivesAll_iff hopen hlogs).mp (hall _ hio hnone)
    refine ⟨hconfig, ?_⟩
    by_contra hsize
    -- the stream holds the end of the log, which is not on disk
    refine hheld (fun _ _ => rfl) hsize ?_
    rw [FileStream.bytes, ← hdata] at hbytes
    exact List.append_right_eq_self.mp hbytes
  · rintro ⟨hconfig, hsize⟩ io hio -
    obtain ⟨f', hopen, hbytes, hlogs, hflushed, -⟩ := hrun io hio
    refine (archivesAll_iff hopen hlogs).mpr ⟨hconfig, ?_, ?_⟩
    · exact List.append_ne_nil_of_right_ne_nil _ (flatten_passed_ne_nil hnone)
    · rw [← hbytes, FileStream.bytes, hflushed hsize, List.append_nil]

/-! ### An archive of one message -/

/-- The logger of `app` in the directory `/logs` on an empty machine. -/
def createdHere : Option (SpeckitLogger Host.posix) :=
  create (.empty Host.posix) "/logs".toList (some "app".toList) 7 ⟨true, true, true⟩

/-- What is known of it. -/
theorem createdHere_spec : ∃ logger, createdHere = some logger ∧
    logger.journal.fm.initialized = true ∧
    logger.journal.fm.currentFileName = logger.journal.fm.generateFileName true ∧
    logger.journal.world.fs.content (Host.posix.locate logger.journal.fm.currentFileName) =
      some [] ∧
    logger.journal.fm.maxSize = 10 * 1024 * 1024 := by
  have hsome : createdHere.map (fun l => decide (l.journal.fm.initialized = true ∧
      l.journal.fm.currentFileName = l.journal.fm.generateFileName true ∧
      l.journal.world.fs.content (Host.posix.locate l.journal.fm.currentFileName) = some [] ∧
      l.journal.fm.maxSize = 10 * 1024 * 1024)) = some true := by decide +kernel
  obtain ⟨logger, hlogger, hspec⟩ := Option.map_eq_some_iff.mp hsome
  exact ⟨logger, hlogger, of_decide_eq_true hspec⟩

/-- A message that fills a mebibyte is archived. -/
theorem archived_iff_mebibyte : ∃ logger message, createdHere = some logger ∧
    message.length + 1 = 1024 * 1024 ∧ ∀ io : Io, io.Succeeds →
      ArchivesAll (run io "/logs".toList { logger with tagFilter := .new }
          [.log 2 none message]).journal "/logs".toList "app".toList 7 ⟨124, 0, 1, 0, 0, 0⟩
        (message ++ ['\n']) := by
  obtain ⟨logger, hlogger, hinit, hfirst, hold, hmax⟩ := createdHere_spec
  obtain ⟨message, hmessage⟩ : ∃ message : Text, message.length + 1 = 1024 * 1024 :=
    ⟨ofLength (1024 * 1024 - 1), by rw [ofLength, List.length_replicate]⟩
  have hpassed : passed .new [.log 2 none message] = [message ++ ['\n']] :=
    passed_of_passes (by decide) []
  have hlength : ([] ++ (passed .new [.log 2 none message]).flatten).length = 1024 * 1024 := by
    rw [hpassed, List.nil_append, List.flatten_singleton, List.length_append, ← hmessage]
    rfl
  have hiff := archived_iff (by decide) hlogger hinit hfirst (by decide) hold .new
    [.log 2 none message] (fun _ => by rw [hlength, hmax]; decide) ⟨124, 0, 1, 0, 0, 0⟩
  have hall := hiff.mpr (Or.inr ⟨by decide, by rw [hlength]⟩)
  rw [hpassed, List.flatten_singleton, List.nil_append] at hall
  exact ⟨logger, message, hlogger, hmessage, fun io hio => hall io hio (List.cons_ne_nil _ _)⟩

/-- The message `up`, and an archive where nothing fails. -/
def archiveUp (logger : SpeckitLogger Host.posix) : ℤ × Option (Archive Host.posix) :=
  archive (listing (run (.pushing fun _ => 0) "/logs".toList logger
      [.log 2 none "up".toList]).journal.world) "/logs".toList (some "app".toList) 7
    ⟨124, 0, 1, 0, 0, 0⟩ ⟨1, true, fun _ => true, fun _ => true, true⟩

/-- **The archive has nothing of the message**: the stream holds back all of it, so the file
is empty, and the call returns minus one. -/
theorem not_archivesAll_up : ∃ logger, createdHere = some logger ∧
    (log (.pushing fun _ => 0) "/logs".toList logger 2 none (some "up".toList)).1 = .success ∧
    (archiveUp logger).1 = -1 ∧
    ¬ ArchivesAll (run (.pushing fun _ => 0) "/logs".toList logger
        [.log 2 none "up".toList]).journal "/logs".toList "app".toList 7 ⟨124, 0, 1, 0, 0, 0⟩
      "up\n".toList := by
  have hsome : createdHere.map (fun l => decide (
      (log (.pushing fun _ => 0) "/logs".toList l 2 none (some "up".toList)).1 = .success ∧
      (archiveUp l).1 = -1 ∧
      (listing (run (.pushing fun _ => 0) "/logs".toList l [.log 2 none "up".toList]).journal.world
        (directoryOf Host.posix "/logs".toList)).length ≤ 1)) = some true := by decide +kernel
  obtain ⟨logger, hlogger, hspec⟩ := Option.map_eq_some_iff.mp hsome
  obtain ⟨hsuccess, hminus, hlength⟩ := of_decide_eq_true hspec
  refine ⟨logger, hlogger, hsuccess, hminus, fun hall => ?_⟩
  obtain ⟨a, ha, -⟩ := hall (listing _) ⟨1, true, fun _ => true, fun _ => true, true⟩
    (lists_listing _) ⟨hlength, rfl, fun _ => rfl, fun _ => rfl, rfl⟩
  have hzero : (archiveUp logger).1 = 0 := congrArg Prod.fst ha
  rw [hminus] at hzero
  exact absurd hzero (by decide)

end CBridge
end SpeckitLog
