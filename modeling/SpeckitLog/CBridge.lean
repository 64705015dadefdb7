import SpeckitLog.FileManager.Journal
import SpeckitLog.LogLevel

/-!
# The C interface

`speckit_logger_log` writes its message at once, behind the filters of the tag.  The
level that `speckit_logger_set_log_level` stores is never read, and the level of a
message is cut to eight bits before it is compared; so which messages are logged has
little to do with the level that was set.

## Main definitions

* `TagFilter`, `SpeckitLogger` — the filter of the tags, and a logger.
* `CBridge.log`, `CBridge.setLogLevel`, `CBridge.create` — the functions of the interface.
* `CBridge.FollowsLevels` — the filter as it is documented.

## Main results

* `CBridge.followsLevels_iff` — when the levels of the calls make no difference.
-/

namespace SpeckitLog

open FileManager Function

/-! ### Filters -/

/-- `static_cast<LogLevel>` of an `int`. -/
def LogLevel.ofInt (level : ℤ) : LogLevel := ⟨Int8.ofInt level⟩

/-- `static_cast<int>` of a level. -/
def LogLevel.toInt (level : LogLevel) : ℤ := level.value.toInt

/-- `TagFilter`. -/
structure TagFilter where
  enabled : Text → Option Bool
  levels : Text → Option LogLevel

namespace TagFilter

/-- The constructor. -/
def new : TagFilter where
  enabled _ := none
  levels _ := none

/-- `setTagEnabled`. -/
def setTagEnabled (filter : TagFilter) (tag : Text) (enabled : Bool) : TagFilter :=
  { filter with enabled := update filter.enabled tag (some enabled) }

/-- `isTagEnabled`: enabled by default. -/
def isTagEnabled (filter : TagFilter) (tag : Text) : Bool := (filter.enabled tag).getD true

/-- `setTagLevel`. -/
def setTagLevel (filter : TagFilter) (tag : Text) (level : LogLevel) : TagFilter :=
  { filter with levels := update filter.levels tag (some level) }

/-- `getTagLevel`. -/
def getTagLevel (filter : TagFilter) (tag : Text) : LogLevel := (filter.levels tag).getD .debug

end TagFilter

/-! ### The functions of the interface -/

/-- The codes that the functions return. -/
inductive SpeckitErrorCode
  | success
  | nullPointer
  | fileIo
  deriving DecidableEq

/-- `SpeckitLoggerImpl`; its manager comes with the world it writes to. -/
structure SpeckitLogger {δ : Type*} [DecidableEq δ] (host : Host δ) where
  journal : Journal host
  tagFilter : TagFilter
  level : LogLevel
  baseName : Text
  processId : ℤ

namespace CBridge

variable {δ : Type*} [DecidableEq δ] {host : Host δ}

/-- `speckit_logger_create`; whether `Initialize` succeeds is not looked at. -/
def create (w : World host) (cwd : Text) (config : Option Text) (processId : ℤ)
    (answers : InitAnswers) : Option (SpeckitLogger host) :=
  config.map fun baseName =>
    let (_, fm, w) := (ofBaseName baseName).initializeAs w cwd processId answers
    { journal := ⟨fm, w, []⟩
      tagFilter := .new
      level := .debug
      baseName := baseName
      processId := processId }

/-- `speckit_logger_log`, for a logger that is not null. -/
def log (io : Io) (cwd : Text) (logger : SpeckitLogger host) (level : ℤ)
    (tag message : Option Text) : SpeckitErrorCode × SpeckitLogger host :=
  match message with
  | none => (.nullPointer, logger)
  | some message =>
    let tagStr := tag.getD []
    -- `logger.level` is not read
    if !logger.tagFilter.isTagEnabled tagStr then (.success, logger)
    else if (LogLevel.ofInt level).toInt < (logger.tagFilter.getTagLevel tagStr).toInt then
      (.success, logger)
    else
      let out := message ++ ['\n']
      let (ok, journal) := logger.journal.write io out
      if !ok then (.fileIo, { logger with journal := journal })
      else
        (.success, { logger with
          journal := if journal.fm.needsRotation then journal.rotate io cwd else journal })

/-- `speckit_logger_set_log_level`, for a logger that is not null. -/
def setLogLevel (logger : SpeckitLogger host) (level : ℤ) :
    SpeckitErrorCode × SpeckitLogger host :=
  (.success, { logger with level := .ofInt level })

/-- A call with a message that is not null. -/
inductive Call
  | setLogLevel (level : ℤ)
  | log (level : ℤ) (tag : Option Text) (message : Text)
  deriving DecidableEq

/-- One call. -/
def call (io : Io) (cwd : Text) (logger : SpeckitLogger host) : Call → SpeckitLogger host
  | .setLogLevel level => (setLogLevel logger level).2
  | .log level tag message => (log io cwd logger level tag (some message)).2

/-- Calls one after another. -/
def run (io : Io) (cwd : Text) (logger : SpeckitLogger host) (calls : List Call) :
    SpeckitLogger host :=
  calls.foldl (call io cwd) logger

/-! ### What a call of `log` does -/

/-- The filters let the message through: the tag is enabled, and the level, cut to eight
bits, reaches that of the tag. -/
def Passes (filter : TagFilter) (level : ℤ) (tag : Option Text) : Prop :=
  filter.isTagEnabled (tag.getD []) = true ∧
    (filter.getTagLevel (tag.getD [])).toInt ≤ (LogLevel.ofInt level).toInt

instance (filter : TagFilter) (level : ℤ) (tag : Option Text) :
    Decidable (Passes filter level tag) := inferInstanceAs (Decidable (_ ∧ _))

variable {io : Io} {cwd : Text} {logger : SpeckitLogger host} {f : FileStream} {level : ℤ}
  {tag : Option Text} {message : Text}

/-- A message that is filtered out changes nothing. -/
theorem call_of_not_passes (h : ¬ Passes logger.tagFilter level tag) :
    call io cwd logger (.log level tag message) = logger := by
  unfold call log
  dsimp only
  split
  · rfl
  · next henabled =>
    rw [if_pos]
    by_contra hlevel
    exact h ⟨by simpa using henabled, not_lt.mp hlevel⟩

/-- A message that passes is handed to `Write`, whose result decides about the rest. -/
theorem log_of_passes (io : Io) (cwd message : Text) (h : Passes logger.tagFilter level tag) :
    log io cwd logger level tag (some message) =
      if (logger.journal.write io (message ++ ['\n'])).1 then
        (.success, { logger with
          journal := if (logger.journal.write io (message ++ ['\n'])).2.fm.needsRotation then
            (logger.journal.write io (message ++ ['\n'])).2.rotate io cwd
            else (logger.journal.write io (message ++ ['\n'])).2 })
      else
        (.fileIo, { logger with journal := (logger.journal.write io (message ++ ['\n'])).2 }) := by
  unfold log
  dsimp only
  rw [if_neg (by rw [h.1]; decide), if_neg (not_lt.mpr h.2)]
  cases (logger.journal.write io (message ++ ['\n'])).1 <;> rfl

/-- What a call of `log` that passes does to the journal: a write, and a rotation when the
file has reached the limit. -/
inductive Logged (j : Journal host) (f : FileStream) (data : Text) :
    Journal host → FileStream → Prop
  | kept {pushed : ℕ} {j' : Journal host} {f' : FileStream}
      (hwrote : Journal.Wrote j f data pushed j' f') (h : j'.fm.needsRotation = false) :
      Logged j f data j' f'
  | rotated {pushed : ℕ} {j₁ j' : Journal host} {f₁ f' : FileStream}
      (hwrote : Journal.Wrote j f data pushed j₁ f₁) (h : j₁.fm.needsRotation = true)
      (hrot : Journal.Rotated j₁ f₁ j' f') : Logged j f data j' f'

theorem Logged.isOpen {j j' : Journal host} {f' : FileStream} {data : Text}
    (h : Logged j f data j' f') : j'.Open f' := by
  cases h with
  | kept hwrote _ => exact hwrote.isOpen
  | rotated _ _ hrot => exact hrot.isOpen

theorem Logged.baseName {j j' : Journal host} {f' : FileStream} {data : Text}
    (h : Logged j f data j' f') : j'.fm.baseName = j.fm.baseName := by
  cases h with
  | kept hwrote _ => rw [hwrote.manager]
  | rotated hwrote _ hrot => rw [hrot.manager, hwrote.manager]

/-- A rotation is no call of `Write`. -/
theorem Logged.calls {j j' : Journal host} {f' : FileStream} {data : Text}
    (h : Logged j f data j' f') :
    j'.calls = j.calls ++ [⟨some f.file, f.bytes j.world.fs, data⟩] := by
  cases h with
  | kept hwrote _ => exact hwrote.calls
  | rotated hwrote _ hrot => rw [hrot.calls, hwrote.calls]

theorem Logged.appended {j j' : Journal host} {f' : FileStream} {data : Text}
    (h : Logged j f data j' f') : j'.appended = j.appended ++ data := by
  rw [Journal.appended, h.calls, List.map_append, List.flatten_append, List.map_singleton,
    List.flatten_singleton]
  rfl

/-- **A message that passes is written**, and the file is rotated if it has reached the
limit. -/
theorem call_of_passes (cwd message : Text) (hopen : logger.journal.Open f)
    (habs : host.isAbsolute logger.journal.fm.baseName = true) (hio : io.Succeeds)
    (h : Passes logger.tagFilter level tag) :
    ∃ j' f', call io cwd logger (.log level tag message) = { logger with journal := j' } ∧
      Logged logger.journal f (message ++ ['\n']) j' f' := by
  obtain ⟨j, f₁, heq, hwrote⟩ := hopen.write hio (message ++ ['\n'])
  have hcall : call io cwd logger (.log level tag message) = { logger with
      journal := if j.fm.needsRotation then j.rotate io cwd else j } := by
    rw [call, log_of_passes io cwd message h, heq]
    rfl
  rw [hcall]
  cases hneeds : j.fm.needsRotation with
  | false => exact ⟨j, f₁, rfl, .kept hwrote hneeds⟩
  | true =>
    have habs' : host.isAbsolute j.fm.baseName = true := by
      rw [hwrote.manager]
      exact habs
    obtain ⟨f', hrot⟩ := hwrote.isOpen.rotate habs' hio cwd
    exact ⟨j.rotate io cwd, f', rfl, .rotated hwrote hneeds hrot⟩

/-- A logger whose file is open, with its filter. -/
structure Ready (filter : TagFilter) (logger : SpeckitLogger host) : Prop where
  isOpen : ∃ f, logger.journal.Open f
  absolute : host.isAbsolute logger.journal.fm.baseName = true
  tagFilter : logger.tagFilter = filter

variable {filter : TagFilter}

/-- **One call** leaves the journal alone, or logs. -/
theorem Ready.call_cases (h : Ready filter logger) (cwd : Text) (hio : io.Succeeds) (c : Call) :
    (call io cwd logger c).tagFilter = logger.tagFilter ∧
      ((call io cwd logger c).journal = logger.journal ∨
        ∃ f data j' f', logger.journal.Open f ∧ (call io cwd logger c).journal = j' ∧
          Logged logger.journal f data j' f') := by
  cases c with
  | setLogLevel level => exact ⟨rfl, Or.inl rfl⟩
  | log level tag message =>
    by_cases hpasses : Passes logger.tagFilter level tag
    · obtain ⟨f, hopen⟩ := h.isOpen
      obtain ⟨j', f', heq, hlogged⟩ := call_of_passes cwd message hopen h.absolute hio hpasses
      rw [heq]
      exact ⟨rfl, Or.inr ⟨f, _, j', f', hopen, rfl, hlogged⟩⟩
    · rw [call_of_not_passes hpasses]
      exact ⟨rfl, Or.inl rfl⟩

theorem Ready.call (h : Ready filter logger) (cwd : Text) (hio : io.Succeeds) (c : Call) :
    Ready filter (call io cwd logger c) := by
  obtain ⟨hfilter, hsame | ⟨f, data, j', f', -, rfl, hlogged⟩⟩ := h.call_cases cwd hio c
  · exact ⟨hsame ▸ h.isOpen, hsame ▸ h.absolute, hfilter.trans h.tagFilter⟩
  · exact ⟨⟨f', hlogged.isOpen⟩, hlogged.baseName ▸ h.absolute, hfilter.trans h.tagFilter⟩

theorem ready_run (h : Ready filter logger) (cwd : Text) (hio : io.Succeeds) (calls : List Call) :
    Ready filter (run io cwd logger calls) := by
  induction calls generalizing logger with
  | nil => exact h
  | cons c calls ih => exact ih (h.call cwd hio c)

/-- **What writes and rotations preserve holds in every run.** -/
theorem run_induction {P : Journal host → Prop}
    (hwrite : ∀ {j f data pushed j' f'}, P j → j.Open f → Journal.Wrote j f data pushed j' f' →
      P j')
    (hrotate : ∀ {j f j' f'}, P j → j.Open f → Journal.Rotated j f j' f' → P j')
    (h : Ready filter logger) (hio : io.Succeeds) (hP : P logger.journal) (calls : List Call) :
    P (run io cwd logger calls).journal := by
  induction calls generalizing logger with
  | nil => exact hP
  | cons c calls ih =>
    refine ih (h.call cwd hio c) ?_
    obtain ⟨-, hsame | ⟨f, data, j', f', hopen, heq, hlogged⟩⟩ := h.call_cases cwd hio c
    · rwa [hsame]
    · rw [heq]
      cases hlogged with
      | kept hwrote _ => exact hwrite hP hopen hwrote
      | rotated hwrote _ hrot => exact hrotate (hwrite hP hopen hwrote) hwrote.isOpen hrot

/-- A logger that was created is ready when its manager is. -/
theorem initialized_of_create {w : World host} {config : Text} {processId : ℤ}
    {answers : InitAnswers}
    (hcreate : create w cwd (some config) processId answers = some logger)
    (hinit : logger.journal.fm.initialized = true) :
    (ofBaseName config).initializeAs w cwd processId answers =
        (true, logger.journal.fm, logger.journal.world) ∧
      logger =
        ⟨⟨logger.journal.fm, logger.journal.world, []⟩, .new, .debug, config, processId⟩ := by
  -- `create` ignores the result of `Initialize`, so the manager's own flag has to tell
  have hends := initialized_of_initializeAs (ofBaseName config) w cwd processId answers
  rcases hresult : (ofBaseName config).initializeAs w cwd processId answers with ⟨ok, fm, w'⟩
  rw [hresult] at hends
  have hlogger : logger = ⟨⟨fm, w', []⟩, .new, .debug, config, processId⟩ := by
    have hsome : create w cwd (some config) processId answers =
        some ⟨⟨fm, w', []⟩, .new, .debug, config, processId⟩ := by
      simp only [create, hresult, Option.map_some]
    exact Option.some.inj (hcreate.symm.trans hsome)
  subst hlogger
  refine ⟨?_, rfl⟩
  have hfm : fm.initialized = true := hinit
  cases hends with
  | again h => rfl
  | noDirectory h hdir => exact absurd hfm Bool.false_ne_true
  | @notOpened _ fm₁ _ h helect hopen =>
    have hfm₁ : fm₁.initialized = true := hfm
    rw [helect.frame.1] at hfm₁
    exact absurd hfm₁ Bool.false_ne_true
  | done h helect hopen => rfl

theorem ready_of_create {w : World host} {config : Text} {processId : ℤ}
    {answers : InitAnswers} (hcwd : host.isAbsolute cwd = true)
    (hcreate : create w cwd (some config) processId answers = some logger)
    (hinit : logger.journal.fm.initialized = true) (filter : TagFilter) :
    Ready filter { logger with tagFilter := filter } := by
  obtain ⟨hresult, heq⟩ := initialized_of_create hcreate hinit
  obtain ⟨old, hold⟩ := Journal.exists_content_of_initializeAs rfl hresult
  obtain ⟨⟨f, hstarted⟩, hbase, -⟩ := Journal.started_of_initializeAs rfl hresult hold
  have hjournal := congrArg SpeckitLogger.journal heq
  refine ⟨⟨f, ?_⟩, ?_, rfl⟩
  · exact hjournal ▸ hstarted.isOpen
  · exact hbase ▸ isAbsolute_absoluteBase hcwd config

/-! ### The documented filter -/

/-- The level that the most recent `speckit_logger_set_log_level` gave. -/
def lastSet (before : List Call) : ℤ :=
  before.foldl (fun last c => match c with | .setLogLevel level => level | .log .. => last) 0

/-- The documented filter, on the integers of the callers. -/
def Allowed (filter : TagFilter) (last level : ℤ) (tag : Option Text) : Prop :=
  filter.isTagEnabled (tag.getD []) = true ∧
    (filter.getTagLevel (tag.getD [])).toInt ≤ level ∧ last ≤ level

/-- The message was appended to what was the log file. -/
def Appended (j : Journal host) (message : Text) (j' : Journal host) : Prop :=
  ∃ f, j.fm.fileHandle = some f ∧
    j'.bytesOf f.file = j.bytesOf f.file ++ (message ++ ['\n'])

/-- **The filter follows the levels**: a message is appended if and only if it is allowed
by what was set before it. -/
def FollowsLevels (io : Io) (cwd : Text) (logger : SpeckitLogger host) (calls : List Call) :
    Prop :=
  ∀ before level tag message after, calls = before ++ .log level tag message :: after →
    (Appended (run io cwd logger before).journal message
        (run io cwd logger (before ++ [.log level tag message])).journal ↔
      Allowed logger.tagFilter (lastSet before) level tag)

/-- **What the code goes by**: the filters of the tag, and nothing else. -/
theorem appended_iff (h : Ready filter logger) (hio : io.Succeeds) (cwd : Text) (level : ℤ)
    (tag : Option Text) (message : Text) :
    Appended logger.journal message
      (call io cwd logger (.log level tag message)).journal ↔ Passes filter level tag := by
  obtain ⟨f, hopen⟩ := h.isOpen
  by_cases hpasses : Passes logger.tagFilter level tag
  · refine iff_of_true ⟨f, hopen.stream, ?_⟩ (h.tagFilter ▸ hpasses)
    obtain ⟨j', f', heq, hlogged⟩ := call_of_passes cwd message hopen h.absolute hio hpasses
    rw [heq, hopen.bytesOf_eq, if_pos rfl]
    show j'.bytesOf f.file = _
    cases hlogged with
    | kept hwrote _ =>
      rw [hwrote.isOpen.bytesOf_eq, if_pos hwrote.file.symm, hwrote.bytes]
    | rotated hwrote _ hrot =>
      -- the bytes are in the file that was renamed
      rw [hrot.bytesOf_eq, ← hwrote.file, hrot.kept, hwrote.bytes]
  · refine iff_of_false ?_ (h.tagFilter ▸ hpasses)
    rw [call_of_not_passes hpasses]
    rintro ⟨f', -, hsame⟩
    have hnil := List.self_eq_append_right.mp hsame
    exact absurd hnil (List.append_ne_nil_of_right_ne_nil _ (List.cons_ne_nil _ _))

/-- A level is cut to eight bits. -/
theorem toInt_ofInt (level : ℤ) : (LogLevel.ofInt level).toInt = level.bmod 256 :=
  Int8.toInt_ofInt

/-- **When the filter follows the levels**: when every message whose tag is enabled reaches
its tag's level, cut to eight bits, just when its whole level reaches both that level and
the one set last. -/
theorem followsLevels_iff {w : World host} {config cwd₀ : Text} {processId : ℤ}
    {answers : InitAnswers} (hcwd : host.isAbsolute cwd₀ = true)
    (hcreate : create w cwd₀ (some config) processId answers = some logger)
    (hinit : logger.journal.fm.initialized = true) (hio : io.Succeeds) (filter : TagFilter)
    (calls : List Call) :
    FollowsLevels io cwd { logger with tagFilter := filter } calls ↔
      ∀ before level tag message after, calls = before ++ .log level tag message :: after →
        filter.isTagEnabled (tag.getD []) = true →
          ((filter.getTagLevel (tag.getD [])).toInt ≤ level.bmod 256 ↔
            (filter.getTagLevel (tag.getD [])).toInt ≤ level ∧ lastSet before ≤ level) := by
  have happended : ∀ before level tag message,
      Appended (run io cwd { logger with tagFilter := filter } before).journal message
        (run io cwd { logger with tagFilter := filter }
          (before ++ [.log level tag message])).journal ↔ Passes filter level tag := by
    intro before level tag message
    have hready := ready_run (ready_of_create hcwd hcreate hinit filter) cwd hio before
    rw [← appended_iff hready hio cwd level tag message,
      run, run, List.foldl_append]
    rfl
  unfold FollowsLevels
  constructor
  · intro hfollows before level tag message after hcalls henabled
    have hiff := (happended before level tag message).symm.trans
      (hfollows before level tag message after hcalls)
    rw [Passes, toInt_ofInt] at hiff
    exact ⟨fun h => (hiff.mp ⟨henabled, h⟩).2, fun h => (hiff.mpr ⟨henabled, h⟩).2⟩
  · intro hcond before level tag message after hcalls
    rw [happended, Passes, toInt_ofInt]
    exact and_congr_right fun henabled =>
      hcond before level tag message after hcalls henabled

/-! ### Two messages -/

/-- The logger of `/logs/app` on an empty machine. -/
def createdApp : Option (SpeckitLogger Host.posix) :=
  create (.empty Host.posix) ['/'] (some "/logs/app".toList) 7 ⟨true, true, true⟩

/-- A warning, and an error after the level was set to warnings. -/
def obeyed : List Call :=
  [.log 2 none "up".toList, .setLogLevel 2, .log 3 (some "Net".toList) "down".toList]

theorem createdApp_initialized :
    ∃ logger, createdApp = some logger ∧ logger.journal.fm.initialized = true := by
  obtain ⟨logger, hlogger⟩ : ∃ logger, createdApp = some logger := ⟨_, rfl⟩
  have hinit : createdApp.map (fun l => l.journal.fm.initialized) = some true := by
    decide +kernel
  rw [hlogger] at hinit
  exact ⟨logger, hlogger, Option.some.inj hinit⟩

theorem followsLevels_iff_obeyed : ∃ logger, createdApp = some logger ∧
    FollowsLevels (.pushing fun _ => 0) ['/'] { logger with tagFilter := .new } obeyed := by
  obtain ⟨logger, hlogger, hinit⟩ := createdApp_initialized
  refine ⟨logger, hlogger, (followsLevels_iff (by decide) hlogger hinit
    (Io.pushing_succeeds fun _ => 0) .new obeyed).mpr ?_⟩
  intro before level tag message after hcalls _
  -- the calls are three, so what comes before a call of `log` is one of four lists
  rcases before with _ | ⟨a, _ | ⟨b, _ | ⟨c, before⟩⟩⟩
  · obtain ⟨rfl, rfl, -⟩ := Call.log.inj (List.cons.inj hcalls).1
    decide
  · have := (List.cons.inj (List.cons.inj hcalls).2).1
    contradiction
  · obtain ⟨rfl, htail⟩ := List.cons.inj hcalls
    obtain ⟨rfl, hlast⟩ := List.cons.inj htail
    obtain ⟨rfl, rfl, -⟩ := Call.log.inj (List.cons.inj hlast).1
    decide
  · have := congrArg List.length hcalls
    simp [obeyed] at this

/-- **A debug message is logged** though the level was set to warnings. -/
theorem not_followsLevels_debug : ∃ logger, createdApp = some logger ∧
    ¬ FollowsLevels (.pushing fun _ => 0) ['/'] logger
      [.setLogLevel 2, .log 0 (some "Test".toList) "Debug".toList] := by
  obtain ⟨logger, hlogger, hinit⟩ := createdApp_initialized
  refine ⟨logger, hlogger, fun hfollows => ?_⟩
  have hcreated := ready_of_create (by decide) hlogger hinit .new
  have htag : logger.tagFilter = .new := by rw [(initialized_of_create hlogger hinit).2]
  have hstart : Ready .new logger := ⟨hcreated.isOpen, hcreated.absolute, htag⟩
  have hready : Ready .new (run (.pushing fun _ => 0) ['/'] logger [.setLogLevel 2]) :=
    ready_run hstart ['/'] (Io.pushing_succeeds _) _
  have hallowed := (hfollows [.setLogLevel 2] 0 (some "Test".toList) "Debug".toList [] rfl).mp
    ((appended_iff hready (Io.pushing_succeeds _) _ _ _ _).mpr (by decide))
  exact absurd hallowed.2.2 (by decide)

end CBridge
end SpeckitLog
