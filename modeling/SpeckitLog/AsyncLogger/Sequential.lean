import SpeckitLog.FileManager.Journal
import SpeckitLog.LogEntry

/-!
# The asynchronous logger in one thread

`log` and `flush` of an initialized logger as one thread runs them, down to the bytes
of the log file; a flush of the writer thread is one more `flush` between the calls.
What is accepted is written in call order by the next flush; but `flush` does not flush
the stream, so its last bytes may stay there: they are on disk only when the size of the
file happens to be a multiple of a mebibyte.

The strings of the callers are not changed here, so a string is its contents.

## Main definitions

* `Sequential.Entry`, `Sequential.record` — what a call logs, and its record.
* `Sequential.Logger`, `Sequential.run` — the logger and its runs.
* `Sequential.OnDisk` — what a flush should leave behind.

## Main results

* `Sequential.journal_run` — what has been written after any calls.
* `Sequential.journal_run_flush` — a flush writes what was accepted, in call order.
* `Sequential.onDisk_iff` — when `flush` leaves nothing in the stream.
-/

namespace SpeckitLog
namespace AsyncLogger
namespace Sequential

open FileManager Journal

/-! ### Records -/

/-- What a `log` call logs: its arguments, and what the logger adds to them. -/
structure Entry (τ : Type*) where
  level : LogLevel
  timestampMs : ℤ
  processId : ℤ
  threadId : τ
  tag : Text
  message : Text
  deriving DecidableEq

variable {τ : Type*}

/-- The `LogEntry`, with views of the two strings. -/
def Entry.view (e : Entry τ) : LogEntry τ Text where
  level := e.level
  timestampMs := e.timestampMs
  processId := e.processId
  threadId := e.threadId
  tag := .ofString e.tag e.tag
  message := .ofString e.message e.message

/-- Strings that keep their contents, with the NUL behind them. -/
def constantMemory (contents : Text) : Text := contents ++ [Text.nul]

/-- The record of an entry; a view ends at the first NUL. -/
def record (platform : Platform τ) (e : Entry τ) : Text :=
  recordOf platform e.view (Text.untilNul e.tag) (Text.untilNul e.message)

theorem formatLogEntry_view (platform : Platform τ) (e : Entry τ) :
    formatLogEntry platform constantMemory e.view = some (record platform e) := by
  have hdata : ∀ t : Text, (StringView.ofString t t).data constantMemory =
      some (Text.untilNul t) := by
    intro t
    rw [StringView.data]
    show Text.cString ((t ++ [Text.nul]).drop 0) = _
    rw [List.drop_zero, Text.cString_terminated]
  rw [formatLogEntry]
  show ((StringView.ofString e.tag e.tag).data constantMemory).bind _ = _
  rw [hdata]
  show ((StringView.ofString e.message e.message).data constantMemory).bind _ = _
  rw [hdata]
  rfl

theorem record_ne_nil (platform : Platform τ) (e : Entry τ) : record platform e ≠ [] :=
  recordOf_ne_nil _ _ _ _

/-! ### The logger -/

variable {δ : Type*} [DecidableEq δ] {host : Host δ}

/-- `writeEntries`. -/
def writeEntries (platform : Platform τ) (io : Io) : List (Entry τ) → Journal host → Journal host
  | [], j => j
  | e :: entries, j =>
    writeEntries platform io entries
      (match formatLogEntry platform constantMemory e.view with
        | some formatted => (j.write io formatted).2
        | none => j)

theorem writeEntries_cons (platform : Platform τ) (io : Io) (e : Entry τ) (es : List (Entry τ))
    (j : Journal host) : writeEntries platform io (e :: es) j =
      writeEntries platform io es (j.write io (record platform e)).2 := by
  rw [writeEntries, formatLogEntry_view]

theorem writeEntries_append (platform : Platform τ) (io : Io) (es es' : List (Entry τ))
    (j : Journal host) : writeEntries platform io (es ++ es') j =
      writeEntries platform io es' (writeEntries platform io es j) := by
  induction es generalizing j with
  | nil => rfl
  | cons e es ih => rw [List.cons_append, writeEntries_cons, writeEntries_cons, ih]

/-- The logger, and what it has written. -/
structure Logger (host : Host δ) (τ : Type*) where
  queueSize : ℕ
  minLevel : LogLevel
  initialized : Bool
  queue : List (Entry τ)
  ring : List (Entry τ)
  journal : Journal host

/-- `flush`: `popAll` of both buffers, then the writes. -/
def Logger.flush (platform : Platform τ) (io : Io) (l : Logger host τ) : Logger host τ :=
  { l with
    queue := []
    ring := []
    journal := writeEntries platform io l.ring (writeEntries platform io l.queue l.journal) }

/-- `log`. -/
def Logger.log (platform : Platform τ) (io : Io) (l : Logger host τ) (e : Entry τ) :
    Logger host τ :=
  if !shouldLog e.level l.minLevel then l
  else if !l.initialized then l
  else if l.queue.length < l.queueSize then { l with queue := l.queue ++ [e] }
  else if l.ring.length < l.queueSize then
    Logger.flush platform io { l with ring := l.ring ++ [e] }
  else l

/-- A call. -/
inductive Call (τ : Type*)
  | log (e : Entry τ)
  | flush
  deriving DecidableEq

/-- One call. -/
def Logger.call (platform : Platform τ) (io : Io) (l : Logger host τ) : Call τ → Logger host τ
  | .log e => l.log platform io e
  | .flush => l.flush platform io

/-- Calls one after another. -/
def run (platform : Platform τ) (io : Io) (l : Logger host τ) (calls : List (Call τ)) :
    Logger host τ :=
  calls.foldl (fun l c => l.call platform io c) l

/-- The logger after `initialize`, with its manager and the world of that moment. -/
def start (queueSize : ℕ) (minLevel : LogLevel) (fm : FileManager) (w : World host) :
    Logger host τ where
  queueSize := queueSize
  minLevel := minLevel
  initialized := true
  queue := []
  ring := []
  journal := ⟨fm, w, []⟩

/-- The entries that the calls get into a buffer. -/
def accepted (queueSize : ℕ) (minLevel : LogLevel) (calls : List (Call τ)) : List (Entry τ) :=
  calls.filterMap fun
    | .log e => if shouldLog e.level minLevel ∧ 0 < queueSize then some e else none
    | .flush => none

/-- How many entries wait in the queue after a call, when `n` did before: a flush leaves
none, nor does an entry that finds the queue full. -/
def waitingAfter (queueSize : ℕ) (minLevel : LogLevel) (n : ℕ) : Call τ → ℕ
  | .log e =>
    if shouldLog e.level minLevel ∧ 0 < queueSize then if n < queueSize then n + 1 else 0 else n
  | .flush => 0

/-- How many accepted entries wait in the queue after the calls. -/
def waiting (queueSize : ℕ) (minLevel : LogLevel) (calls : List (Call τ)) : ℕ :=
  calls.foldl (waitingAfter queueSize minLevel) 0

/-- The accepted entries that have left the buffers: all but those that wait. -/
def flushed (queueSize : ℕ) (minLevel : LogLevel) (calls : List (Call τ)) : List (Entry τ) :=
  (accepted queueSize minLevel calls).take
    ((accepted queueSize minLevel calls).length - waiting queueSize minLevel calls)

/-! ### What the buffers hold and what is written -/

variable {platform : Platform τ} {io : Io} {j j₀ : Journal host} {l : Logger host τ}
  {f : FileStream} {old : Text} {queueSize : ℕ} {minLevel : LogLevel}

/-- The accepted entries `es` are in the queue, or were written in call order. -/
structure Filled (platform : Platform τ) (io : Io) (l₀ : Logger host τ) (es : List (Entry τ))
    (l : Logger host τ) : Prop where
  initialized : l.initialized = true
  queueSize : l.queueSize = l₀.queueSize
  minLevel : l.minLevel = l₀.minLevel
  ring : l.ring = []
  written : ∃ ws, es = ws ++ l.queue ∧ l.journal = writeEntries platform io ws l₀.journal

variable {l₀ : Logger host τ} {es : List (Entry τ)}

theorem Filled.flush (h : Filled platform io l₀ es l) :
    Filled platform io l₀ es (l.flush platform io) := by
  obtain ⟨ws, hes, hjournal⟩ := h.written
  refine ⟨h.initialized, h.queueSize, h.minLevel, rfl, es, (List.append_nil es).symm, ?_⟩
  show writeEntries platform io l.ring (writeEntries platform io l.queue l.journal) = _
  rw [h.ring, hjournal, hes, writeEntries_append]
  rfl

theorem Filled.log (h : Filled platform io l₀ es l) (e : Entry τ) :
    Filled platform io l₀ (es ++ accepted l₀.queueSize l₀.minLevel [.log e])
      (l.log platform io e) := by
  obtain ⟨ws, hes, hjournal⟩ := h.written
  unfold Logger.log
  by_cases hlevel : shouldLog e.level l₀.minLevel = true
  swap
  · have hnone : accepted l₀.queueSize l₀.minLevel [.log e] = [] := by
      simp [accepted, hlevel]
    rw [hnone, List.append_nil, if_pos (by rw [h.minLevel]; simpa using hlevel)]
    exact h
  rw [if_neg (by rw [h.minLevel, hlevel]; decide), if_neg (by rw [h.initialized]; decide)]
  by_cases hsize : 0 < l₀.queueSize
  swap
  · have hnone : accepted l₀.queueSize l₀.minLevel [.log e] = [] := by
      simp [accepted, hsize]
    rw [hnone, List.append_nil, if_neg (by rw [h.queueSize]; omega),
      if_neg (by rw [h.queueSize]; omega)]
    exact h
  have hone : accepted l₀.queueSize l₀.minLevel [.log e] = [e] := by
    simp [accepted, hlevel, hsize]
  rw [hone]
  split
  -- the queue takes the entry
  · refine ⟨h.initialized, h.queueSize, h.minLevel, h.ring, ws, ?_, hjournal⟩
    rw [hes, List.append_assoc]
  · -- the ring is empty, so it takes the entry, and everything is written
    rw [if_pos (by rw [h.ring, h.queueSize]; exact hsize)]
    refine ⟨h.initialized, h.queueSize, h.minLevel, rfl, es ++ [e], (List.append_nil _).symm, ?_⟩
    show writeEntries platform io (l.ring ++ [e]) (writeEntries platform io l.queue l.journal) = _
    rw [h.ring, hjournal, hes, List.nil_append, writeEntries_append, writeEntries_append]

/-- **Nothing accepted is lost or reordered**, in any run. -/
theorem filled_run (h : Filled platform io l₀ es l) (calls : List (Call τ)) :
    Filled platform io l₀ (es ++ accepted l₀.queueSize l₀.minLevel calls)
      (run platform io l calls) := by
  -- the accepted entries grow along the run, one call at a time
  induction calls generalizing es l with
  | nil =>
    rw [show accepted l₀.queueSize l₀.minLevel ([] : List (Call τ)) = [] from rfl, List.append_nil]
    exact h
  | cons c calls ih =>
    have hsplit : accepted l₀.queueSize l₀.minLevel (c :: calls) =
        accepted l₀.queueSize l₀.minLevel [c] ++ accepted l₀.queueSize l₀.minLevel calls := by
      rw [accepted, accepted, accepted, ← List.filterMap_append, List.singleton_append]
    rw [hsplit, ← List.append_assoc]
    cases c with
    | log e => exact ih (h.log e)
    | flush =>
      rw [show accepted l₀.queueSize l₀.minLevel [(.flush : Call τ)] = [] from rfl,
        List.append_nil]
      exact ih h.flush

theorem Filled.length_queue_log (h : Filled platform io l₀ es l) (e : Entry τ) :
    (l.log platform io e).queue.length =
      waitingAfter l₀.queueSize l₀.minLevel l.queue.length (.log e) := by
  unfold Logger.log
  rw [waitingAfter, h.minLevel, h.initialized, h.ring, h.queueSize]
  cases hlevel : shouldLog e.level l₀.minLevel with
  | false => simp
  | true =>
    by_cases hroom : l.queue.length < l₀.queueSize
    · simp [hroom, Nat.zero_lt_of_lt hroom]
    · by_cases hsize : 0 < l₀.queueSize
      · simp [hroom, hsize, Logger.flush]
      · simp [hroom, hsize]

/-- **How long the queue is** depends on the calls alone. -/
theorem Filled.length_queue_run (h : Filled platform io l₀ es l) (calls : List (Call τ)) :
    (run platform io l calls).queue.length =
      calls.foldl (waitingAfter l₀.queueSize l₀.minLevel) l.queue.length := by
  induction calls generalizing es l with
  | nil => rfl
  | cons c calls ih =>
    rw [List.foldl_cons]
    cases c with
    | log e =>
      rw [← h.length_queue_log e]
      exact ih (h.log e)
    | flush => exact ih h.flush

theorem filled_start (platform : Platform τ) (io : Io) (queueSize : ℕ) (minLevel : LogLevel)
    (fm : FileManager) (w : World host) (calls : List (Call τ)) :
    Filled platform io (start queueSize minLevel fm w) (accepted queueSize minLevel calls)
      (run platform io (start queueSize minLevel fm w) calls) :=
  filled_run ⟨rfl, rfl, rfl, rfl, [], rfl, rfl⟩ calls

/-- **What has been written** after any calls: the accepted entries that do not wait, in
call order. -/
theorem journal_run (platform : Platform τ) (io : Io) (queueSize : ℕ) (minLevel : LogLevel)
    (fm : FileManager) (w : World host) (calls : List (Call τ)) :
    (run platform io (start queueSize minLevel fm w) calls).journal =
      writeEntries platform io (flushed queueSize minLevel calls) ⟨fm, w, []⟩ := by
  obtain ⟨ws, hes, hjournal⟩ := (filled_start platform io queueSize minLevel fm w calls).written
  have hstart := filled_start platform io queueSize minLevel fm w []
  have hlength : (run platform io (start queueSize minLevel fm w) calls).queue.length =
      waiting queueSize minLevel calls := hstart.length_queue_run calls
  have hws : flushed queueSize minLevel calls = ws := by
    rw [flushed, ← hlength, hes, List.length_append, Nat.add_sub_cancel, List.take_left]
  rw [hws, hjournal]
  rfl

/-- **A flush writes all that was accepted before it**, in call order. -/
theorem journal_run_flush (platform : Platform τ) (io : Io) (queueSize : ℕ) (minLevel : LogLevel)
    (fm : FileManager) (w : World host) (calls : List (Call τ)) :
    (run platform io (start queueSize minLevel fm w) (calls ++ [.flush])).journal =
      writeEntries platform io (accepted queueSize minLevel calls) ⟨fm, w, []⟩ := by
  have haccepted : accepted queueSize minLevel (calls ++ [.flush]) =
      accepted queueSize minLevel calls := by
    rw [accepted, List.filterMap_append]
    exact List.append_nil _
  have hwaiting : waiting queueSize minLevel (calls ++ [.flush]) = 0 := by
    rw [waiting, List.foldl_append]
    rfl
  rw [journal_run, flushed, haccepted, hwaiting, Nat.sub_zero, List.take_length]

/-- The entries of a list are written to one file. -/
theorem grown_writeEntries (platform : Platform τ) (hio : io.Succeeds) (h : Grown old j f)
    (es : List (Entry τ)) :
    ∃ f', Grown old (writeEntries platform io es j) f' ∧
      (writeEntries platform io es j).calls.map WriteCall.data =
        j.calls.map WriteCall.data ++ es.map (record platform) ∧
      (writeEntries platform io es j).fm.currentFileName = j.fm.currentFileName ∧
      f'.file = f.file := by
  induction es generalizing j f with
  | nil => exact ⟨f, h, (List.append_nil _).symm, rfl, rfl⟩
  | cons e es ih =>
    obtain ⟨j', f', heq, hwrote⟩ := h.isOpen.write hio (record platform e)
    rw [writeEntries_cons, heq]
    obtain ⟨f'', hgrown, hcalls, hname, hfile⟩ := ih (h.write hwrote)
    refine ⟨f'', hgrown, ?_, ?_, hfile.trans hwrote.file⟩
    · rw [hcalls, hwrote.calls, List.map_append, List.append_assoc]
      rfl
    · rw [hname, hwrote.manager]

/-- Where `fwrite` passes nothing on, the last record is held back, unless the size is
a multiple. -/
theorem held_writeEntries (platform : Platform τ) (h : Grown old j f) {es : List (Entry τ)}
    (hes : es ≠ []) :
    ∃ f', Grown old (writeEntries platform (.pushing fun _ => 0) es j) f' ∧
      ((f'.bytes (writeEntries platform (.pushing fun _ => 0) es j).world.fs).length %
        (1024 * 1024) ≠ 0 → f'.buffer ≠ []) := by
  have hio := Io.pushing_succeeds fun _ => 0
  induction es generalizing j f with
  | nil => exact absurd rfl hes
  | cons e es ih =>
    obtain ⟨j', f', heq, hwrote⟩ := h.isOpen.write hio (record platform e)
    rw [writeEntries_cons, heq]
    by_cases hlast : es = []
    · subst hlast
      exact ⟨f', h.write hwrote, h.held hwrote (record_ne_nil platform e)⟩
    · exact ih (h.write hwrote) hlast

/-! ### The log on disk -/

/-- The bytes of the records of some entries. -/
def records (platform : Platform τ) (es : List (Entry τ)) : Text :=
  (es.map (record platform)).flatten

/-- **On disk**: whoever opens the log file finds what it held at first and the records,
and nothing is left in the stream. -/
def OnDisk (old recorded : Text) (l : Logger host τ) : Prop :=
  ∃ f, l.journal.fm.fileHandle = some f ∧ f.buffer = [] ∧
    l.journal.world.fs.content (host.locate l.journal.fm.currentFileName) = some (old ++ recorded)

/-- What a file holds is on disk if and only if nothing is held back. -/
theorem onDisk_of_grown (h : Grown old l.journal f) {recorded : Text}
    (hrecorded : l.journal.appended = recorded) : OnDisk old recorded l ↔ f.buffer = [] := by
  constructor
  · rintro ⟨f', hf', hbuffer, -⟩
    obtain rfl : f' = f := Option.some.inj (hf'.symm.trans h.isOpen.stream)
    exact hbuffer
  · intro hbuffer
    refine ⟨f, h.isOpen.stream, hbuffer, ?_⟩
    have hbytes := h.bytes
    rw [FileStream.bytes, hbuffer, List.append_nil, hrecorded] at hbytes
    rw [FileSystem.content, h.isOpen.named, Option.map_some, hbytes]

/-- **After `flush` the log is on disk**, whatever `fwrite` holds back, if and only if no
entry was accepted or the file has a multiple of a mebibyte. -/
theorem onDisk_iff {fm₀ fm : FileManager} {w₀ w : World host} {cwd : Text} {processId : ℤ}
    {answers : InitAnswers} (hnew : fm₀.initialized = false)
    (hinit : fm₀.initializeAs w₀ cwd processId answers = (true, fm, w))
    (hold : w.fs.content (host.locate fm.currentFileName) = some old) (platform : Platform τ)
    (queueSize : ℕ) (minLevel : LogLevel) (calls : List (Call τ)) :
    (∀ io : Io, io.Succeeds → OnDisk old (records platform (accepted queueSize minLevel calls))
      (run platform io (start queueSize minLevel fm w) (calls ++ [.flush]))) ↔
      accepted queueSize minLevel calls = [] ∨
        (old ++ records platform (accepted queueSize minLevel calls)).length %
          (1024 * 1024) = 0 := by
  obtain ⟨⟨f₀, hstarted⟩, -, -⟩ := started_of_initializeAs hnew hinit hold
  have happended : ∀ {io : Io}, io.Succeeds →
      (run platform io (start queueSize minLevel fm w) (calls ++ [.flush])).journal.appended =
        records platform (accepted queueSize minLevel calls) := by
    intro io hio
    obtain ⟨f, -, hcalls, -⟩ := grown_writeEntries platform hio hstarted.grown
      (accepted queueSize minLevel calls)
    rw [journal_run_flush, Journal.appended, hcalls]
    rfl
  constructor
  · intro hall
    by_cases hnone : accepted queueSize minLevel calls = []
    · exact Or.inl hnone
    refine Or.inr ?_
    by_contra hsize
    have hio := Io.pushing_succeeds fun _ => 0
    -- an `fwrite` that passes nothing on leaves the last record in the stream
    obtain ⟨f, hgrown, hheld⟩ := held_writeEntries platform hstarted.grown hnone
    rw [← journal_run_flush] at hgrown hheld
    have hbytes := hgrown.bytes
    rw [happended hio] at hbytes
    refine hheld (by rw [hbytes]; exact hsize) ?_
    exact (onDisk_of_grown hgrown (happended hio)).mp (hall _ hio)
  · intro hcases io hio
    obtain ⟨f, hgrown, -, -⟩ := grown_writeEntries platform hio hstarted.grown
      (accepted queueSize minLevel calls)
    rw [← journal_run_flush] at hgrown
    refine (onDisk_of_grown hgrown (happended hio)).mpr ?_
    -- nothing was written at all, or the last write has flushed the stream
    rcases hcases with hnone | hsize
    · have hjournal := journal_run_flush platform io queueSize minLevel fm w calls
      rw [hnone] at hjournal
      have hstream := hgrown.isOpen.stream
      rw [hjournal] at hstream
      obtain rfl : f₀ = f := Option.some.inj (hstarted.isOpen.stream.symm.trans hstream)
      exact hstarted.buffer
    · refine hgrown.flushed ?_
      rw [hgrown.bytes, happended hio]
      exact hsize

/-! ### One record -/

/-- A zone where the epoch is midnight. -/
def midnight : Platform ℕ where
  localtime _ := ⟨70, 0, 1, 0, 0, 0⟩
  threadIdStr t := Text.decimal t

/-- The entry of one call. -/
def entryUp : Entry ℕ := ⟨.info, 0, 7, 1, "Net".toList, "up".toList⟩

/-- A filtered call leaves the log on disk, and a call that logs does not always. -/
theorem onDisk_iff_up :
    (∀ io : Io, io.Succeeds → OnDisk [] []
      (run midnight io (start 4 .error appOpened.2.1 appOpened.2.2) [.log entryUp, .flush])) ∧
    ¬ ∀ io : Io, io.Succeeds → OnDisk [] (record midnight entryUp)
      (run midnight io (start 4 .debug appOpened.2.1 appOpened.2.2) [.log entryUp, .flush]) := by
  have hnew : (configured "/logs/app".toList 10 3).initialized = false := rfl
  have hiff := onDisk_iff hnew appOpened_eq
    content_appOpened midnight 4
  constructor
  · exact (hiff .error [.log entryUp]).mpr (Or.inl (by decide))
  · have hrecords : records midnight (accepted 4 .debug [.log entryUp]) =
        record midnight entryUp := by decide
    have hnot := (hiff .debug [.log entryUp]).not.mpr (by decide +kernel)
    rwa [hrecords] at hnot

/-- **The record is not on disk** when `flush` returns: the stream holds all of it. -/
theorem not_onDisk_up :
    (Io.pushing fun _ => 0).Succeeds ∧
      ¬ OnDisk [] (record midnight entryUp)
        (run midnight (.pushing fun _ => 0) (start 4 .debug appOpened.2.1 appOpened.2.2)
          [.log entryUp, .flush]) := by
  refine ⟨Io.pushing_succeeds _, ?_⟩
  rintro ⟨f, hf, hbuffer, -⟩
  have hheld : (run midnight (.pushing fun _ => 0) (start 4 .debug appOpened.2.1 appOpened.2.2)
      [.log entryUp, .flush]).journal.fm.fileHandle.map FileStream.buffer =
        some (record midnight entryUp) := by decide +kernel
  rw [hf, Option.map_some, hbuffer] at hheld
  exact record_ne_nil midnight entryUp (Option.some.inj hheld).symm

end Sequential
end AsyncLogger
end SpeckitLog
