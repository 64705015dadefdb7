import SpeckitLog.AsyncLogger.Sequential
import SpeckitLog.FileManager.Durability

/-!
# Lives of an asynchronous logger

One `AsyncLogger` may be initialized and deinitialized again and again, with any base
names.  `initialize` makes new components; the file manager of the session before is
destroyed when the new one takes its place, and only then does the new one look for
another process.  `deinitialize` leaves the file open: its last bytes are on disk when the
logger is initialized again or destroyed.

The calls come from one thread; a flush of the writer thread is one more `flush` between
them.

## Main definitions

* `Lifecycle.Object` — the logger before its first `initialize`, and with components.
* `Lifecycle.Life`, `Lifecycle.next` — the logger, with what it has accepted and where.

## Main results

* `Lifecycle.recorded_once` — what was accepted is recorded once, in order, in the file of
  its session.
* `Lifecycle.windows_file`, `Lifecycle.macos_file` — which file that is.
-/

namespace SpeckitLog
namespace AsyncLogger
namespace Lifecycle

open Function Transition FileManager Journal AsyncLogger.Sequential Streams

variable {δ : Type*} [DecidableEq δ] {host : Host δ} {τ : Type*}

/-! ### The logger -/

/-- An `AsyncLogger`: `initialize` makes its components. -/
inductive Object (host : Host δ) (τ : Type*)
  | fresh (minLevel : LogLevel) (w : World host)
  | built (l : Logger host τ)

namespace Object

/-- `min_level_`. -/
def minLevel : Object host τ → LogLevel
  | fresh level _ => level
  | built l => l.minLevel

/-- `initialized_`. -/
def initialized : Object host τ → Bool
  | fresh _ _ => false
  | built l => l.initialized

/-- The world the logger is in. -/
def world : Object host τ → World host
  | fresh _ w => w
  | built l => l.journal.world

/-- The world once `file_manager_` is destroyed. -/
def released : Object host τ → World host
  | fresh _ w => w
  | built l => l.journal.fm.destroy l.journal.world

/-- `initialize`: the new manager takes the place of the old one before it is initialized. -/
def initializeWith (cwd : Text) (processId : ℤ) (baseName : Text) (queueSize : ℕ)
    (answers : InitAnswers) (o : Object host τ) : Bool × Object host τ :=
  if o.initialized then (true, o)
  else
    let (ok, fm, w) := (ofBaseName baseName).initializeAs o.released cwd processId answers
    (ok, built
      { queueSize := queueSize
        minLevel := o.minLevel
        initialized := ok
        queue := []
        ring := []
        journal := ⟨fm, w, []⟩ })

/-- `deinitialize`; the writer thread has ended when the last `flush` starts. -/
def deinit (platform : Platform τ) (io : Io) : Object host τ → Object host τ
  | fresh level w => fresh level w
  | built l =>
    if l.initialized then built { l.flush platform io with initialized := false } else built l

/-- The destructor, and those of the members. -/
def destroy (platform : Platform τ) (io : Io) (o : Object host τ) : World host :=
  (o.deinit platform io).released

/-- `setLogLevel`. -/
def setLogLevel (level : LogLevel) : Object host τ → Object host τ
  | fresh _ w => fresh level w
  | built l => built { l with minLevel := level }

/-- `log`. -/
def log (platform : Platform τ) (io : Io) (e : Entry τ) : Object host τ → Object host τ
  | fresh level w => fresh level w
  | built l => built (l.log platform io e)

/-- `flush`; without components there is nothing to call. -/
def flush (platform : Platform τ) (io : Io) : Object host τ → Option (Object host τ)
  | fresh _ _ => none
  | built l => some (built (l.flush platform io))

/-- `file_manager_->Flush()`. -/
def flushFile (answers : WriteAnswers) (l : Logger host τ) : Logger host τ :=
  { l with journal :=
      { l.journal with
        fm := (l.journal.fm.flush l.journal.world answers).2.1
        world := (l.journal.fm.flush l.journal.world answers).2.2 } }

/-- `emergencyFlush`. -/
def emergencyFlush (platform : Platform τ) (io : Io) (answers : WriteAnswers) :
    Object host τ → Option (Object host τ)
  | fresh _ _ => none
  | built l => some (built (flushFile answers (l.flush platform io)))

/-- A `log` of this entry gets it into a buffer. -/
def accepts (e : Entry τ) : Object host τ → Bool
  | fresh _ _ => false
  | built l => l.initialized && shouldLog e.level l.minLevel && decide (0 < l.queueSize)

/-- The place of the current file. -/
def place : Object host τ → Option host.Place
  | fresh _ _ => none
  | built l => some (host.locate l.journal.fm.currentFileName)

end Object

/-- A call, with what the operating system answers to the writes in it. -/
inductive Call (τ : Type*)
  | initializeWith (cwd baseName : Text) (queueSize : ℕ) (answers : InitAnswers)
  | deinit (io : Io)
  | setLogLevel (level : LogLevel)
  | log (io : Io) (e : Entry τ)
  | flush (io : Io)
  | emergencyFlush (io : Io) (answers : WriteAnswers)

/-- A call. -/
def Object.call (platform : Platform τ) (processId : ℤ) (o : Object host τ) :
    Call τ → Option (Object host τ)
  | .initializeWith cwd baseName queueSize answers =>
    some (o.initializeWith cwd processId baseName queueSize answers).2
  | .deinit io => some (o.deinit platform io)
  | .setLogLevel level => some (o.setLogLevel level)
  | .log io e => some (o.log platform io e)
  | .flush io => o.flush platform io
  | .emergencyFlush io answers => o.emergencyFlush platform io answers

/-- The writes of a call succeed. -/
def Call.Succeeds : Call τ → Prop
  | .deinit io | .log io _ | .flush io | .emergencyFlush io _ => io.Succeeds
  | _ => True

/-- The logger, and the entries it has accepted with the places of their files. -/
structure Life (host : Host δ) (τ : Type*) where
  object : Object host τ
  history : List (host.Place × Entry τ)

/-- The entry that a call gets into a buffer. -/
def accepted (o : Object host τ) : Call τ → List (host.Place × Entry τ)
  | .log _ e => if o.accepts e then o.place.toList.map fun place => (place, e) else []
  | _ => []

/-- One call of a life. -/
def next (platform : Platform τ) (processId : ℤ) (s : Life host τ) (c : Call τ) :
    Option (Life host τ) :=
  (s.object.call platform processId c).map fun o => ⟨o, s.history ++ accepted s.object c⟩

/-- Before the first call. -/
def init (minLevel : LogLevel) (w : World host) : Life host τ := ⟨.fresh minLevel w, []⟩

/-! ### The bytes at a place -/

/-- The bytes of the file at a place, on disk or in the stream; none when there is no file. -/
def bytesAt (j : Journal host) (place : host.Place) : Text :=
  ((j.world.fs.lookup place).map j.bytesOf).getD []

variable {platform : Platform τ} {io : Io} {j : Journal host} {f : FileStream}
  {place : host.Place} {processId : ℤ}

/-- The bytes on disk at a place; none when there is no file. -/
def onDiskAt (w : World host) (place : host.Place) : Text := (w.fs.content place).getD []

theorem bytesAt_of_none (h : j.fm.fileHandle = none) :
    bytesAt j place = onDiskAt j.world place := by
  unfold bytesAt onDiskAt FileSystem.content
  rw [show j.bytesOf = j.world.fs.data from funext (bytesOf_of_none h)]

theorem bytesAt_of_buffer (h : j.fm.fileHandle = some f) (hbuffer : f.buffer = []) :
    bytesAt j place = onDiskAt j.world place := by
  unfold bytesAt onDiskAt FileSystem.content
  rw [show j.bytesOf = j.world.fs.data from funext (bytesOf_of_buffer h hbuffer)]

/-- What goes to the current file. -/
def toCurrent (j : Journal host) (place : host.Place) (text : Text) : Text :=
  if place = host.locate j.fm.currentFileName then text else []

/-- A write adds its data to the bytes of the current file. -/
theorem bytesAt_write (h : j.Open f) (hio : io.Succeeds) (data : Text) :
    ∃ f', (j.write io data).2.Open f' ∧
      (j.write io data).2.fm.currentFileName = j.fm.currentFileName ∧
      ∀ place, bytesAt (j.write io data).2 place = bytesAt j place ++ toCurrent j place data := by
  obtain ⟨j', f', heq, hwrote⟩ := h.write hio data
  rw [heq]
  refine ⟨f', hwrote.isOpen, by rw [hwrote.manager], fun place => ?_⟩
  unfold bytesAt toCurrent
  rw [hwrote.lookup]
  by_cases hplace : place = host.locate j.fm.currentFileName
  · rw [if_pos hplace, hplace, h.named, Option.map_some, Option.map_some, Option.getD_some,
      Option.getD_some, hwrote.isOpen.bytesOf_eq, h.bytesOf_eq, if_pos hwrote.file.symm,
      if_pos rfl, hwrote.bytes]
  · rw [if_neg hplace, List.append_nil]
    cases hlookup : j.world.fs.lookup place with
    | none => rfl
    | some n =>
      have hn : n ≠ f.file := fun heq =>
        hplace (j.world.fs.single _ _ _ hlookup (heq ▸ h.named))
      rw [Option.map_some, Option.map_some, Option.getD_some, Option.getD_some,
        hwrote.isOpen.bytesOf_eq, h.bytesOf_eq, hwrote.file, if_neg hn, if_neg hn,
        hwrote.others n hn]

theorem bytesAt_writeEntries (h : j.Open f) (hio : io.Succeeds) (es : List (Entry τ)) :
    ∃ f', (writeEntries platform io es j).Open f' ∧
      (writeEntries platform io es j).fm.currentFileName = j.fm.currentFileName ∧
      ∀ place, bytesAt (writeEntries platform io es j) place =
        bytesAt j place ++ toCurrent j place (records platform es) := by
  induction es generalizing j f with
  | nil =>
    refine ⟨f, h, rfl, fun place => ?_⟩
    rw [show toCurrent j place (records platform ([] : List (Entry τ))) = [] from ite_self _,
      List.append_nil]
    rfl
  | cons e es ih =>
    obtain ⟨f₁, hopen₁, hname₁, hbytes₁⟩ := bytesAt_write h hio (record platform e)
    obtain ⟨f', hopen, hname, hbytes⟩ := ih hopen₁
    rw [writeEntries_cons]
    refine ⟨f', hopen, hname.trans hname₁, fun place => ?_⟩
    rw [hbytes, hbytes₁, List.append_assoc]
    unfold toCurrent
    rw [hname₁]
    split <;> rfl

/-! ### What a call leaves behind -/

/-- Between calls: the ring is empty, the file of an initialized logger is open, and one
that is not initialized has nothing in its queue. -/
structure Ready (l : Logger host τ) : Prop where
  ring : l.ring = []
  stream : l.initialized = true → l.journal.fm.fileHandle ≠ none
  isOpen : ∀ f, l.journal.fm.fileHandle = some f → l.journal.Open f
  queue : l.initialized = false → l.queue = []

/-- The bytes at a place, with the records that wait in the queue for it. -/
def Object.bytes (platform : Platform τ) (place : host.Place) : Object host τ → Text
  | .fresh _ w => onDiskAt w place
  | .built l => bytesAt l.journal place ++ toCurrent l.journal place (records platform l.queue)

/-- An object is fresh, or its logger is ready. -/
def Object.Ready (o : Object host τ) : Prop := ∀ l, o = .built l → Lifecycle.Ready l

variable {l : Logger host τ} {o o' : Object host τ} {c : Call τ}

theorem toCurrent_append (j : Journal host) (place : host.Place) (text text' : Text) :
    toCurrent j place (text ++ text') = toCurrent j place text ++ toCurrent j place text' := by
  unfold toCurrent
  split <;> rfl

@[simp] theorem toCurrent_nil (j : Journal host) (place : host.Place) :
    toCurrent j place [] = [] := ite_self _

theorem records_append (platform : Platform τ) (es es' : List (Entry τ)) :
    records platform (es ++ es') = records platform es ++ records platform es' := by
  unfold records
  rw [List.map_append, List.flatten_append]

@[simp] theorem records_nil (platform : Platform τ) : records platform ([] : List (Entry τ)) = [] :=
  rfl

/-- A flush of both buffers. -/
theorem bytesAt_flush (platform : Platform τ) (h : l.journal.Open f) (hio : io.Succeeds) :
    ∃ f', (l.flush platform io).journal.Open f' ∧
      (l.flush platform io).journal.fm.currentFileName = l.journal.fm.currentFileName ∧
      ∀ place, bytesAt (l.flush platform io).journal place = bytesAt l.journal place ++
        toCurrent l.journal place (records platform (l.queue ++ l.ring)) := by
  have hflush : (l.flush platform io).journal =
      writeEntries platform io (l.queue ++ l.ring) l.journal :=
    (writeEntries_append platform io l.queue l.ring l.journal).symm
  rw [hflush]
  exact bytesAt_writeEntries h hio (l.queue ++ l.ring)

/-- A flush of buffers that are empty. -/
theorem flush_of_empty (hqueue : l.queue = []) (hring : l.ring = []) :
    l.flush platform io = l := by
  obtain ⟨queueSize, minLevel, initialized, queue, ring, journal⟩ := l
  dsimp only at hqueue hring
  subst hqueue hring
  rfl

theorem Ready.queue_of_none (h : Ready l) (hnone : l.journal.fm.fileHandle = none) :
    l.queue = [] := by
  cases hinit : l.initialized with
  | true => exact absurd hnone (h.stream hinit)
  | false => exact h.queue hinit

/-- Empty buffers and an open file. -/
theorem ready_of_open (h : l.journal.Open f) (hqueue : l.queue = []) (hring : l.ring = []) :
    Ready l where
  ring := hring
  stream _ := by
    rw [h.stream]
    exact Option.some_ne_none f
  isOpen g hg := by
    obtain rfl := Option.some.inj (h.stream.symm.trans hg)
    exact h
  queue _ := hqueue

/-- **A flush** empties the buffers, and changes no bytes. -/
theorem Ready.flush (platform : Platform τ) (h : Ready l) (hio : io.Succeeds) :
    Ready (l.flush platform io) ∧ ∀ place,
      (Object.built (l.flush platform io)).bytes platform place =
        (Object.built l).bytes platform place := by
  cases hf : l.journal.fm.fileHandle with
  | none =>
    rw [flush_of_empty (h.queue_of_none hf) h.ring]
    exact ⟨h, fun _ => rfl⟩
  | some f =>
    obtain ⟨f', hopen, -, hbytes⟩ := bytesAt_flush platform (h.isOpen f hf) hio
    refine ⟨ready_of_open hopen rfl rfl, fun place => ?_⟩
    show bytesAt _ place ++ toCurrent _ place (records platform []) = _
    rw [records_nil, toCurrent_nil, List.append_nil, hbytes, h.ring, List.append_nil]
    rfl

/-- How a `log` ends: it changes nothing, the queue takes the entry, or the ring takes it and
both buffers are flushed. -/
theorem Ready.log_cases (h : Ready l) (platform : Platform τ) (io : Io) (e : Entry τ) :
    ((Object.built l).accepts e = false ∧ l.log platform io e = l) ∨
      ((Object.built l).accepts e = true ∧ l.initialized = true ∧
        (l.log platform io e = { l with queue := l.queue ++ [e] } ∨
          l.log platform io e = Logger.flush platform io { l with ring := [e] })) := by
  have hring := h.ring
  unfold Logger.log Object.accepts
  dsimp only
  cases shouldLog e.level l.minLevel with
  | false => exact Or.inl ⟨by rw [Bool.and_false, Bool.false_and], rfl⟩
  | true =>
    cases hinit : l.initialized with
    | false => exact Or.inl ⟨rfl, rfl⟩
    | true =>
      by_cases hsize : 0 < l.queueSize
      · refine Or.inr ⟨decide_eq_true hsize, rfl, ?_⟩
        by_cases hroom : l.queue.length < l.queueSize
        · exact Or.inl (by simp [hroom, ← hinit])
        · exact Or.inr (by simp [hroom, hring, hsize, ← hinit])
      · exact Or.inl ⟨decide_eq_false hsize, by simp [Nat.eq_zero_of_not_pos hsize]⟩

/-- **A `log`** adds the record of an entry that it gets into a buffer. -/
theorem Ready.log (platform : Platform τ) (h : Ready l) (hio : io.Succeeds) (e : Entry τ) :
    Ready (l.log platform io e) ∧ ∀ place,
      (Object.built (l.log platform io e)).bytes platform place =
        (Object.built l).bytes platform place ++ toCurrent l.journal place
          (if (Object.built l).accepts e then record platform e else []) := by
  have hrecord : records platform [e] = record platform e := List.append_nil _
  rcases h.log_cases platform io e with ⟨hno, heq⟩ | ⟨hyes, hinit, heq⟩
  · rw [hno, heq]
    refine ⟨h, fun place => ?_⟩
    rw [if_neg Bool.false_ne_true, toCurrent_nil, List.append_nil]
  · obtain ⟨f, hf⟩ := Option.ne_none_iff_exists'.mp (h.stream hinit)
    rw [hyes, if_pos rfl]
    rcases heq with heq | heq
    · rw [heq]
      refine ⟨⟨h.ring, h.stream, h.isOpen, fun hfalse => ?_⟩, fun place => ?_⟩
      · exact absurd (hinit.symm.trans hfalse) (by decide)
      · show bytesAt l.journal place ++
          toCurrent l.journal place (records platform (l.queue ++ [e])) = _
        rw [records_append, toCurrent_append, hrecord, ← List.append_assoc]
        rfl
    · rw [heq]
      -- the entry is the last that the flush writes
      obtain ⟨f', hopen, -, hbytes⟩ := bytesAt_flush platform
        (l := { l with ring := [e] }) (h.isOpen f hf) hio
      refine ⟨ready_of_open hopen rfl rfl, fun place => ?_⟩
      show bytesAt _ place ++ toCurrent _ place (records platform []) = _
      rw [records_nil, toCurrent_nil, List.append_nil, hbytes, records_append, toCurrent_append,
        hrecord, ← List.append_assoc]
      rfl

/-- A manager that is destroyed puts on disk what its stream holds back. -/
theorem onDiskAt_destroy (h : ∀ f, j.fm.fileHandle = some f → j.Open f) (place : host.Place) :
    onDiskAt (j.fm.destroy j.world) place = bytesAt j place := by
  cases hf : j.fm.fileHandle with
  | none =>
    rw [bytesAt_of_none hf, onDiskAt, fs_destroy_of_none hf]
    rfl
  | some f =>
    have hopen := h f hf
    unfold onDiskAt bytesAt
    rw [fs_destroy_of_some hf, FileSystem.content]
    refine congrArg (fun o : Option Text => o.getD []) ?_
    refine Option.map_congr fun n _ => ?_
    rw [hopen.bytesOf_eq]
    split
    · next hn => exact hn ▸ f.data_fclose _
    · next hn => exact FileSystem.data_append_of_ne _ _ hn

theorem onDiskAt_openAppend (fs : FileSystem host.Place) (p q : host.Place) :
    ((fs.openAppend p).2.content q).getD [] = (fs.content q).getD [] := by
  by_cases hq : q = p
  · subst hq
    unfold FileSystem.content
    cases hlookup : fs.lookup q with
    | some n =>
      rw [show fs.openAppend q = (n, fs) by rw [FileSystem.openAppend, hlookup], hlookup]
    | none =>
      rw [fs.lookup_openAppend_self, Option.map_some, fs.data_openAppend_new hlookup]
      rfl
  · unfold FileSystem.content
    rw [fs.lookup_openAppend_of_ne hq]
    cases hlookup : fs.lookup q with
    | none => rfl
    | some n => rw [Option.map_some, Option.map_some, fs.data_openAppend p hlookup]

/-- **A new manager** changes no bytes on disk, whether it can open its file or not. -/
theorem initializeAs_frame (w : World host) (cwd baseName : Text) (processId : ℤ)
    (answers : InitAnswers) {ok : Bool} {fm : FileManager} {w' : World host}
    (h : (ofBaseName baseName).initializeAs w cwd processId answers = (ok, fm, w')) :
    (∀ place, bytesAt ⟨fm, w', []⟩ place = onDiskAt w place) ∧
      (ok = true → fm.fileHandle ≠ none) ∧
      ∀ f, fm.fileHandle = some f → Journal.Open ⟨fm, w', []⟩ f := by
  have hends := initialized_of_initializeAs (ofBaseName baseName) w cwd processId answers
  rw [h] at hends
  cases hends with
  | again h => contradiction
  | noDirectory => exact ⟨fun place => bytesAt_of_none rfl, nofun, nofun⟩
  | notOpened _ helect _ =>
    obtain ⟨-, hfs⟩ := helect.frame
    refine ⟨fun place => ?_, nofun, nofun⟩
    rw [bytesAt_of_none rfl, onDiskAt, hfs]
    rfl
  | @done another fm₁ w₁ n fs _ helect hopen =>
    obtain ⟨-, hfs⟩ := helect.frame
    have hself := w₁.fs.lookup_openAppend_self (host.locate (fm₁.generateFileName !another))
    have hdisk := onDiskAt_openAppend w₁.fs (host.locate (fm₁.generateFileName !another))
    rw [hopen] at hself hdisk
    refine ⟨fun place => ?_, fun _ => Option.some_ne_none _, fun f hf => ?_⟩
    · rw [bytesAt_of_buffer rfl rfl]
      exact (hdisk place).trans (by rw [hfs]; rfl)
    · exact ⟨hf, hself.trans (congrArg (Option.map FileStream.file) hf)⟩

/-- **`FlushToFile`** moves bytes from the stream to the file. -/
theorem bytesAt_fileFlush (h : j.Open f) (answers : WriteAnswers) :
    ∃ f', Journal.Open ⟨(j.fm.flush j.world answers).2.1, (j.fm.flush j.world answers).2.2,
        j.calls⟩ f' ∧
      (j.fm.flush j.world answers).2.1.currentFileName = j.fm.currentFileName ∧
      ∀ place, bytesAt ⟨(j.fm.flush j.world answers).2.1, (j.fm.flush j.world answers).2.2,
        j.calls⟩ place = bytesAt j place := by
  rw [flush_open h.stream]
  have hends := endsIn_flushToFile (w := j.world) h.stream answers
  have hwritten := written_of_flushToFile j.fm j.world answers
  have hname : (j.fm.flushToFile j.world answers).2.1.currentFileName = j.fm.currentFileName :=
    by rw [hwritten.manager]
  have hlookup : ∀ p, (j.fm.flushToFile j.world answers).2.2.fs.lookup p = j.world.fs.lookup p :=
    fun p => congrArg (fun entries => AList.lookup p entries) hwritten.entries
  have hfile : (afterFlush f j.world.fs answers).1.file = f.file := by
    unfold afterFlush
    split <;> rfl
  have hothers : ∀ n, n ≠ f.file →
      (afterFlush f j.world.fs answers).2.data n = j.world.fs.data n := by
    intro n hn
    unfold afterFlush
    split
    · exact FileSystem.data_append_of_ne _ _ hn
    · rfl
  have hopen : Journal.Open ⟨(j.fm.flushToFile j.world answers).2.1,
      (j.fm.flushToFile j.world answers).2.2, j.calls⟩ (afterFlush f j.world.fs answers).1 := by
    refine ⟨hends.handle, ?_⟩
    rw [hname, hfile]
    exact (hlookup _).trans h.named
  refine ⟨_, hopen, hname, fun place => ?_⟩
  unfold bytesAt
  rw [show FileSystem.lookup _ place = _ from hlookup place]
  refine congrArg (fun o : Option Text => o.getD []) (Option.map_congr fun n _ => ?_)
  rw [hopen.bytesOf_eq, h.bytesOf_eq, hfile]
  dsimp only
  rw [hends.fs, Processes.bytes_afterFlush f j.world.fs answers]
  split
  · rfl
  · next hn => exact hothers n hn

/-- `file_manager_->Flush()` changes no bytes, whatever it returns. -/
theorem Ready.flushFile (platform : Platform τ) (h : Ready l) (answers : WriteAnswers) :
    Ready (Object.flushFile answers l) ∧ ∀ place,
      (Object.built (Object.flushFile answers l)).bytes platform place =
        (Object.built l).bytes platform place := by
  cases hf : l.journal.fm.fileHandle with
  | none =>
    have hsame : Object.flushFile answers l = l := by
      unfold Object.flushFile
      rw [flush_closed hf]
    rw [hsame]
    exact ⟨h, fun _ => rfl⟩
  | some f =>
    obtain ⟨f', hopen, hname, hsame⟩ := bytesAt_fileFlush (h.isOpen f hf) answers
    refine ⟨⟨h.ring, fun _ hnone => ?_, fun g hg => ?_, h.queue⟩, fun place => ?_⟩
    · exact absurd (hopen.stream.symm.trans hnone) (Option.some_ne_none f')
    · obtain rfl := Option.some.inj (hopen.stream.symm.trans hg)
      exact hopen
    · show bytesAt _ place ++ toCurrent _ place (records platform l.queue) =
        bytesAt _ place ++ toCurrent _ place (records platform l.queue)
      have hbytes : bytesAt (Object.flushFile answers l).journal place = bytesAt l.journal place :=
        hsame place
      have hcurrent : (Object.flushFile answers l).journal.fm.currentFileName =
          l.journal.fm.currentFileName := hname
      unfold toCurrent
      rw [hbytes, hcurrent]

/-- **What a call does** to the bytes at a place: it adds the record of what it gets into a
buffer. -/
theorem Object.Ready.call (h : o.Ready) (hc : c.Succeeds)
    (hcall : o.call platform processId c = some o') :
    o'.Ready ∧ ∀ place, o'.bytes platform place =
      o.bytes platform place ++ records platform (part place (accepted o c)) := by
  -- a call that accepts nothing
  have hnone : ∀ {o' : Object host τ}, (o'.Ready ∧ ∀ place, o'.bytes platform place =
      o.bytes platform place) → o'.Ready ∧ ∀ place, o'.bytes platform place =
        o.bytes platform place ++ records platform (part place []) := by
    rintro o' ⟨hready, hbytes⟩
    refine ⟨hready, fun place => ?_⟩
    rw [hbytes, part_nil, records_nil, List.append_nil]
  have hbuilt : ∀ {l : Logger host τ}, Lifecycle.Ready l → (Object.built l).Ready := by
    rintro l hl l' heq
    exact Object.built.inj heq ▸ hl
  cases c with
  | initializeWith cwd baseName queueSize answers =>
    obtain rfl := Option.some.inj hcall
    refine hnone ?_
    unfold Object.initializeWith
    cases hinit : o.initialized with
    | true => exact ⟨h, fun _ => rfl⟩
    | false =>
      -- what the old manager held back is on disk before the new one looks for its file
      have hreleased : ∀ place, onDiskAt o.released place = o.bytes platform place := by
        intro place
        cases o with
        | fresh level w => rfl
        | built l =>
          have hl := h l rfl
          show _ = bytesAt l.journal place ++
            toCurrent l.journal place (records platform l.queue)
          rw [hl.queue hinit, records_nil, toCurrent_nil, List.append_nil]
          exact onDiskAt_destroy hl.isOpen place
      rcases hnew : (ofBaseName baseName).initializeAs o.released cwd processId answers with
        ⟨ok, fm, w⟩
      obtain ⟨hbytes, hstream, hopen⟩ :=
        initializeAs_frame o.released cwd baseName processId answers hnew
      refine ⟨hbuilt ⟨rfl, hstream, hopen, fun _ => rfl⟩, fun place => ?_⟩
      show bytesAt _ place ++ toCurrent _ place (records platform []) = _
      rw [records_nil, toCurrent_nil, List.append_nil, hbytes, hreleased]
  | deinit io =>
    obtain rfl := Option.some.inj hcall
    refine hnone ?_
    cases o with
    | fresh level w => exact ⟨h, fun _ => rfl⟩
    | built l =>
      have hl := h l rfl
      obtain ⟨hflush, hbytes⟩ := hl.flush platform hc
      unfold Object.deinit
      dsimp only
      split
      · exact ⟨hbuilt ⟨hflush.ring, nofun, hflush.isOpen, fun _ => rfl⟩, hbytes⟩
      · exact ⟨h, fun _ => rfl⟩
  | setLogLevel level =>
    obtain rfl := Option.some.inj hcall
    refine hnone ?_
    cases o with
    | fresh level w => exact ⟨nofun, fun _ => rfl⟩
    | built l =>
      have hl := h l rfl
      exact ⟨hbuilt ⟨hl.ring, hl.stream, hl.isOpen, hl.queue⟩, fun _ => rfl⟩
  | log io e =>
    obtain rfl := Option.some.inj hcall
    cases o with
    | fresh level w => exact hnone ⟨h, fun _ => rfl⟩
    | built l =>
      obtain ⟨hlog, hbytes⟩ := (h l rfl).log platform hc e
      refine ⟨hbuilt hlog, fun place => ?_⟩
      rw [show (Object.built l).log platform io e = .built (l.log platform io e) from rfl, hbytes]
      refine congrArg _ ?_
      unfold accepted toCurrent part
      dsimp only [Object.place]
      cases (Object.built l).accepts e with
      | false => simp
      | true =>
        by_cases hplace : place = host.locate l.journal.fm.currentFileName
        · simp [hplace, records]
        · simp [hplace, Ne.symm hplace]
  | flush io =>
    cases o with
    | fresh level w => contradiction
    | built l =>
      obtain rfl := Option.some.inj hcall
      obtain ⟨hflush, hbytes⟩ := (h l rfl).flush platform hc
      exact hnone ⟨hbuilt hflush, hbytes⟩
  | emergencyFlush io answers =>
    cases o with
    | fresh level w => contradiction
    | built l =>
      obtain rfl := Option.some.inj hcall
      obtain ⟨hflush, hbytes⟩ := (h l rfl).flush platform hc
      obtain ⟨hfile, hsame⟩ := hflush.flushFile platform answers
      exact hnone ⟨hbuilt hfile, fun place => (hsame place).trans (hbytes place)⟩

theorem Object.initialized_deinit (platform : Platform τ) (io : Io) (o : Object host τ) :
    (o.deinit platform io).initialized = false := by
  cases o with
  | fresh level w => rfl
  | built l =>
    unfold deinit
    dsimp only
    split
    · rfl
    · next hinit => exact Bool.not_eq_true _ ▸ hinit

/-! ### Whole lives -/

/-- The guard of the lives in which no write fails. -/
def NoWriteFails (_ : Life host τ) (c : Call τ) : Prop := c.Succeeds

variable {s s' : Life host τ} {minLevel : LogLevel} {w : World host}

theorem ready_of_reachable (h : Reachable (next platform processId) NoWriteFails
    (init minLevel w) s) : s.object.Ready ∧ ∀ place, s.object.bytes platform place =
      onDiskAt w place ++ records platform (part place s.history) := by
  refine h.invariant (I := fun s => s.object.Ready ∧ ∀ place, s.object.bytes platform place =
    onDiskAt w place ++ records platform (part place s.history))
    ⟨nofun, fun place => (List.append_nil _).symm⟩ ?_
  rintro s c s' - ⟨hready, hbytes⟩ hok hnext
  obtain ⟨o', hcall, rfl⟩ := Option.map_eq_some_iff.mp hnext
  obtain ⟨hready', hadds⟩ := hready.call hok hcall
  refine ⟨hready', fun place => ?_⟩
  rw [hadds, hbytes, part_append, records_append, List.append_assoc]

/-- **What was accepted is recorded once and in order**, however often the logger was
initialized and deinitialized, with whatever base names, and whichever of its attempts
failed: once it is destroyed, every file holds what it held at first and the records of
the entries that were accepted while it was the current file. -/
theorem recorded_once (h : Reachable (next platform processId) NoWriteFails
    (init minLevel w) s) (hio : io.Succeeds) (place : host.Place) :
    onDiskAt (s.object.destroy platform io) place =
      onDiskAt w place ++ records platform (part place s.history) := by
  obtain ⟨hready, hbytes⟩ := ready_of_reachable h
  have hdeinit : (s.object.call platform processId (.deinit io)) =
      some (s.object.deinit platform io) := rfl
  obtain ⟨hready', hsame⟩ := hready.call (c := .deinit io) hio hdeinit
  rw [← hbytes]
  refine Eq.trans ?_ ((hsame place).trans (List.append_nil _))
  unfold Object.destroy
  cases ho : s.object.deinit platform io with
  | fresh level w' => rfl
  | built l =>
    have hl := hready' l ho
    -- a logger that was deinitialized has nothing in its queue
    have hended := Object.initialized_deinit platform io s.object
    rw [ho] at hended
    have hqueue : l.queue = [] := hl.queue hended
    show onDiskAt _ place = bytesAt l.journal place ++
      toCurrent l.journal place (records platform l.queue)
    rw [hqueue, records_nil, toCurrent_nil, List.append_nil]
    exact onDiskAt_destroy hl.isOpen place

/-- A logger that logs in two sessions. -/
def twoSessions (cwd baseName : Text) : List (Call ℕ) :=
  let session := [.initializeWith cwd baseName 4 ⟨true, true, true⟩,
    .log (.pushing fun _ => 0) entryUp, .deinit (.pushing fun _ => 0)]
  session ++ session

theorem twoSessions_succeed (cwd baseName : Text) : ∀ c ∈ twoSessions cwd baseName, c.Succeeds := by
  have hio := Io.pushing_succeeds fun _ => 0
  intro c hc
  simp only [twoSessions, List.cons_append, List.nil_append, List.mem_cons, List.not_mem_nil,
    or_false] at hc
  rcases hc with rfl | rfl | rfl | rfl | rfl | rfl
  all_goals first | exact hio | trivial

theorem recorded_once_twoSessions :
    ∃ s : Life Host.posix ℕ,
      s.history = [(Host.posix.locate "/logs/app.log".toList, entryUp),
        (Host.posix.locate "/logs/app_7.log".toList, entryUp)] ∧
      ∀ place, onDiskAt (s.object.destroy midnight (.pushing fun _ => 0)) place =
        onDiskAt (.empty Host.posix) place ++ records midnight (part place s.history) := by
  have hhistory : (run (next midnight 7) (fun _ _ => true) (init .debug (.empty Host.posix))
      (twoSessions ['/'] "/logs/app".toList)).map Life.history =
        some [(Host.posix.locate "/logs/app.log".toList, entryUp),
          (Host.posix.locate "/logs/app_7.log".toList, entryUp)] := by decide +kernel
  obtain ⟨s, hrun, hs⟩ := Option.map_eq_some_iff.mp hhistory
  have hreach : Reachable (next midnight 7) NoWriteFails (init .debug (.empty Host.posix)) s :=
    reachable_of_forall hrun (twoSessions_succeed _ _)
  exact ⟨s, hs, recorded_once hreach (Io.pushing_succeeds _)⟩

/-! ### Which file it is -/

/-- The manager still has its file name and its named object, and no such object has come
or gone. -/
structure SameNames (j j' : Journal host) : Prop where
  fileName : j'.fm.currentFileName = j.fm.currentFileName
  mutexHandle : j'.fm.mutexHandle = j.fm.mutexHandle
  mutexes : j'.world.mutexes = j.world.mutexes
  semaphores : j'.world.semaphores = j.world.semaphores

theorem SameNames.refl (j : Journal host) : SameNames j j := ⟨rfl, rfl, rfl, rfl⟩

theorem SameNames.trans {j₁ j₂ j₃ : Journal host} (h : SameNames j₁ j₂) (h' : SameNames j₂ j₃) :
    SameNames j₁ j₃ :=
  ⟨h'.fileName.trans h.fileName, h'.mutexHandle.trans h.mutexHandle, h'.mutexes.trans h.mutexes,
    h'.semaphores.trans h.semaphores⟩

theorem sameNames_of_written {fm : FileManager} {w : World host}
    (h : Written j.fm j.world fm w) (calls : List WriteCall) : SameNames j ⟨fm, w, calls⟩ where
  fileName := by rw [h.manager]
  mutexHandle := by rw [h.manager]
  mutexes := by rw [h.world]; rfl
  semaphores := by rw [h.world]; rfl

theorem sameNames_writeEntries (platform : Platform τ) (io : Io) (es : List (Entry τ))
    (j : Journal host) : SameNames j (writeEntries platform io es j) := by
  induction es generalizing j with
  | nil => exact .refl j
  | cons e es ih =>
    rw [writeEntries_cons]
    exact (sameNames_of_written (written_of_write j.fm j.world _ _) _).trans (ih _)

theorem sameNames_flush (platform : Platform τ) (io : Io) (l : Logger host τ) :
    SameNames l.journal (l.flush platform io).journal :=
  (sameNames_writeEntries platform io l.queue l.journal).trans
    (sameNames_writeEntries platform io l.ring _)

/-- What the calls other than `initialize` leave of the names. -/
inductive SameFile : Object host τ → Object host τ → Prop
  | fresh {level level' : LogLevel} {w : World host} : SameFile (.fresh level w) (.fresh level' w)
  | built {l l' : Logger host τ} (hnames : SameNames l.journal l'.journal)
      (hinit : l'.initialized = true → l.initialized = true) : SameFile (.built l) (.built l')

/-- **A call is an `initialize`, or keeps the names.** -/
theorem call_cases (hcall : o.call platform processId c = some o') :
    (∃ cwd baseName queueSize answers, c = .initializeWith cwd baseName queueSize answers ∧
      o' = (o.initializeWith cwd processId baseName queueSize answers).2) ∨ SameFile o o' := by
  cases o with
  | fresh level w =>
    cases c with
    | initializeWith cwd baseName queueSize answers =>
      exact Or.inl ⟨_, _, _, _, rfl, (Option.some.inj hcall).symm⟩
    | flush | emergencyFlush => contradiction
    | deinit | setLogLevel | log =>
      obtain rfl := Option.some.inj hcall
      exact Or.inr .fresh
  | built l =>
    cases c with
    | initializeWith cwd baseName queueSize answers =>
      exact Or.inl ⟨_, _, _, _, rfl, (Option.some.inj hcall).symm⟩
    | deinit io =>
      refine Or.inr ?_
      obtain rfl := Option.some.inj hcall
      unfold Object.deinit
      dsimp only
      split
      · exact .built (sameNames_flush platform io l) nofun
      · exact .built (.refl _) id
    | setLogLevel level =>
      refine Or.inr ?_
      obtain rfl := Option.some.inj hcall
      exact .built (.refl _) id
    | log io e =>
      refine Or.inr ?_
      obtain rfl := Option.some.inj hcall
      unfold Object.log Logger.log
      dsimp only
      split
      · exact .built (.refl _) id
      · split
        · exact .built (.refl _) id
        · split
          · exact .built (.refl _) id
          · split
            · exact .built (sameNames_flush platform io { l with ring := l.ring ++ [e] }) id
            · exact .built (.refl _) id
    | flush io =>
      refine Or.inr ?_
      obtain rfl := Option.some.inj hcall
      exact .built (sameNames_flush platform io l) id
    | emergencyFlush io answers =>
      refine Or.inr ?_
      obtain rfl := Option.some.inj hcall
      refine .built ((sameNames_flush platform io l).trans ?_) id
      refine sameNames_of_written ?_ _
      unfold FileManager.flush
      split
      · exact .refl _ _
      · exact written_of_flushToFile _ _ _

/-- An `initialize` with this base name, for which the named object can be made. -/
def Call.IsFor (host : Host δ) (base : Text) : Call τ → Prop
  | .initializeWith cwd baseName _ answers =>
    absoluteBase host cwd baseName = base ∧ answers.createObject = true
  | _ => True

instance (host : Host δ) (base : Text) (c : Call τ) : Decidable (c.IsFor host base) :=
  match c with
  | .initializeWith .. => inferInstanceAs (Decidable (_ ∧ _))
  | .deinit _ | .setLogLevel _ | .log _ _ | .flush _ | .emergencyFlush _ _ => isTrue trivial

/-- The guard of the lives with one base name. -/
def ForBase (base : Text) (_ : Life host τ) (c : Call τ) : Prop := c.IsFor host base

/-- What is accepted goes to the current file of an initialized logger. -/
theorem place_of_accepted {x : host.Place × Entry τ} (hx : x ∈ accepted o c) :
    ∃ l, o = .built l ∧ l.initialized = true ∧
      x.1 = host.locate l.journal.fm.currentFileName := by
  cases c with
  | log io e =>
    cases o with
    | fresh level w => exact absurd hx (List.not_mem_nil)
    | built l =>
      unfold accepted at hx
      dsimp only at hx
      cases haccepts : (Object.built l).accepts e with
      | false =>
        rw [haccepts, if_neg Bool.false_ne_true] at hx
        exact absurd hx (List.not_mem_nil)
      | true =>
        rw [haccepts, if_pos rfl] at hx
        obtain rfl := List.mem_singleton.mp hx
        unfold Object.accepts at haccepts
        simp only [Bool.and_eq_true] at haccepts
        exact ⟨l, rfl, haccepts.1.1, rfl⟩
  | _ => exact absurd hx (List.not_mem_nil)

/-- What a new manager finds out about its name: `Elected` in the world it starts in, unless
its directory was missing. -/
theorem elected_of_initializeAs (w : World host) {cwd baseName base : Text}
    (hbase : absoluteBase host cwd baseName = base) (processId : ℤ) {answers : InitAnswers}
    {ok : Bool} {fm : FileManager} {w' : World host}
    (h : (ofBaseName baseName).initializeAs w cwd processId answers = (ok, fm, w')) :
    (ok = false ∧ fm.mutexHandle = none ∧ w'.mutexes = w.mutexes ∧ w'.semaphores = w.semaphores) ∨
      ∃ another fm₁ w₁, Elected
          { ofBaseName baseName with processId := processId, baseName := base } w
          (host.filename base).1 answers.createObject another fm₁ w₁ ∧
        fm.mutexHandle = fm₁.mutexHandle ∧ w'.mutexes = w₁.mutexes ∧
        w'.semaphores = w₁.semaphores ∧
        fm.currentFileName = base ++ processSuffix (!another) processId := by
  have hends := initialized_of_initializeAs (ofBaseName baseName) w cwd processId answers
  rw [h] at hends
  have hname : ∀ {another : Bool} {fm₁ : FileManager} {w₁ : World host}, Elected
      { ofBaseName baseName with
        processId := processId, baseName := absoluteBase host cwd (ofBaseName baseName).baseName }
      w (host.filename (absoluteBase host cwd (ofBaseName baseName).baseName)).1
      answers.createObject another fm₁ w₁ →
      fm₁.generateFileName (!another) = base ++ processSuffix (!another) processId := by
    intro another fm₁ w₁ helect
    rw [generateFileName_eq, helect.frame.1]
    exact congrArg (· ++ _) hbase
  cases hends with
  | again h => contradiction
  | noDirectory => exact Or.inl ⟨rfl, rfl, rfl, rfl⟩
  | @notOpened another fm₁ _ _ helect _ =>
    refine Or.inr ⟨another, fm₁, _, ?_, rfl, rfl, rfl, hname helect⟩
    rwa [show absoluteBase host cwd (ofBaseName baseName).baseName = base from hbase] at helect
  | @done another fm₁ w₁ n fs _ helect _ =>
    refine Or.inr ⟨another, fm₁, w₁, ?_, rfl, rfl, rfl, hname helect⟩
    rwa [show absoluteBase host cwd (ofBaseName baseName).baseName = base from hbase] at helect

/-- On Windows nobody holds the mutex, or the manager does and has the first file name. -/
inductive HoldsMutex (base : Text) : Object host τ → Prop
  | fresh {level : LogLevel} {w : World host}
      (hfree : mutexName (host.filename base).1 ∉ w.mutexes) : HoldsMutex base (.fresh level w)
  | free {l : Logger host τ} (hinit : l.initialized = false)
      (hhandle : l.journal.fm.mutexHandle = none)
      (hfree : mutexName (host.filename base).1 ∉ l.journal.world.mutexes) :
      HoldsMutex base (.built l)
  | held {l : Logger host τ}
      (hhandle : l.journal.fm.mutexHandle = some (mutexName (host.filename base).1))
      (honce : mutexName (host.filename base).1 ∉
        l.journal.world.mutexes.erase (mutexName (host.filename base).1))
      (hname : l.journal.fm.currentFileName = base ++ ".log".toList) :
      HoldsMutex base (.built l)

variable {base : Text}

theorem mutexes_destroy (hos : host.os = .windows) (fm : FileManager) (w : World host) :
    (fm.destroy w).mutexes = (fm.mutexHandle.elim w.mutexes w.mutexes.erase) := by
  obtain ⟨hhandle, hmutexes, -, -⟩ := closeCurrentFile_frame fm w
  unfold destroy cleanupMutex
  dsimp only
  rw [hhandle, ← hmutexes]
  cases fm.mutexHandle with
  | none => rfl
  | some name =>
    dsimp only
    rw [hos]
    rfl

/-- The mutex is free once the manager is destroyed. -/
theorem HoldsMutex.released (hos : host.os = .windows) (h : HoldsMutex base o) :
    mutexName (host.filename base).1 ∉ o.released.mutexes := by
  cases h with
  | fresh hfree => exact hfree
  | @free l _ hhandle hfree =>
    unfold Object.released
    dsimp only
    rw [mutexes_destroy hos, hhandle]
    exact hfree
  | @held l hhandle honce _ =>
    unfold Object.released
    dsimp only
    rw [mutexes_destroy hos, hhandle]
    exact honce

theorem HoldsMutex.sameFile (h : HoldsMutex base o) (hsame : SameFile o o') :
    HoldsMutex base o' := by
  cases hsame with
  | fresh =>
    cases h with
    | fresh hfree => exact .fresh hfree
  | @built l l' hnames hinit =>
    cases h with
    | free hidle hhandle hfree =>
      refine .free ?_ (hnames.mutexHandle.trans hhandle) (hnames.mutexes ▸ hfree)
      cases hl : l'.initialized with
      | false => rfl
      | true => exact absurd (hidle.symm.trans (hinit hl)) (by decide)
    | held hhandle honce hname =>
      exact .held (hnames.mutexHandle.trans hhandle) (hnames.mutexes ▸ honce)
        (hnames.fileName.trans hname)

theorem HoldsMutex.initializeWith (hos : host.os = .windows) (h : HoldsMutex base o)
    {cwd baseName : Text} (hbase : absoluteBase host cwd baseName = base) (queueSize : ℕ)
    {answers : InitAnswers} (hcreate : answers.createObject = true) :
    HoldsMutex base (o.initializeWith cwd processId baseName queueSize answers).2 := by
  have hfree := h.released hos
  unfold Object.initializeWith
  cases o.initialized with
  | true => exact h
  | false =>
    rcases hnew : (ofBaseName baseName).initializeAs o.released cwd processId answers with
      ⟨ok, fm, w⟩
    rcases elected_of_initializeAs o.released hbase processId hnew with
      ⟨rfl, hhandle, hmutexes, -⟩ | ⟨another, fm₁, w₁, helect, hhandle, hmutexes, -, hname⟩
    · exact .free rfl hhandle (hmutexes ▸ hfree)
    · cases helect with
      | other htaken =>
        have hmem := htaken hcreate
        unfold Taken at hmem
        rw [hos] at hmem
        exact absurd hmem hfree
      | mutex _ _ _ =>
        refine .held hhandle ?_ hname
        show _ ∉ w.mutexes.erase _
        rw [hmutexes, List.erase_cons_head]
        exact hfree
      | semaphore hmac _ _ => exact absurd (hos.symm.trans hmac) (by decide)

/-- **On Windows every session goes on with the first file**: the manager of the session
before has closed the mutex when the new one looks for it. -/
theorem windows_file (hos : host.os = .windows)
    (hfree : mutexName (host.filename base).1 ∉ w.mutexes)
    (h : Reachable (next platform processId) (ForBase base) (init minLevel w) s) :
    ∀ x ∈ s.history, x.1 = host.locate (base ++ ".log".toList) := by
  have hinv : HoldsMutex base s.object ∧
      ∀ x ∈ s.history, x.1 = host.locate (base ++ ".log".toList) := by
    refine h.invariant (I := fun s => HoldsMutex base s.object ∧
      ∀ x ∈ s.history, x.1 = host.locate (base ++ ".log".toList)) ⟨.fresh hfree, nofun⟩ ?_
    rintro s c s' - ⟨hholds, hplaces⟩ hok hnext
    obtain ⟨o', hcall, rfl⟩ := Option.map_eq_some_iff.mp hnext
    refine ⟨?_, fun x hx => ?_⟩
    · rcases call_cases hcall with ⟨cwd, baseName, queueSize, answers, rfl, rfl⟩ | hsame
      · obtain ⟨hbase, hcreate⟩ := hok
        exact hholds.initializeWith hos hbase queueSize hcreate
      · exact hholds.sameFile hsame
    · rcases List.mem_append.mp hx with hx | hx
      · exact hplaces x hx
      · obtain ⟨l, hl, hinit, hplace⟩ := place_of_accepted hx
        rw [hl] at hholds
        cases hholds with
        | free hidle _ _ => exact absurd (hinit.symm.trans hidle) (by decide)
        | held _ _ hname => rw [hplace, hname]
  exact hinv.2

theorem windows_file_twoSessions :
    ∃ s : Life Host.windows ℕ, s.history.length = 2 ∧
      ∀ x ∈ s.history, x.1 = Host.windows.locate ("C:\\app".toList ++ ".log".toList) := by
  have hlength : (run (next midnight 7) (fun _ _ => true) (init .debug (.empty Host.windows))
      (twoSessions "C:\\".toList "C:\\app".toList)).map (fun s => s.history.length) = some 2 := by
    decide +kernel
  obtain ⟨s, hrun, hs⟩ := Option.map_eq_some_iff.mp hlength
  have hreach : Reachable (next midnight 7) (ForBase "C:\\app".toList)
      (init .debug (.empty Host.windows)) s := reachable_of_forall hrun (by decide)
  exact ⟨s, hs, windows_file rfl (by decide) hreach⟩

/-- On macOS the semaphore exists, and an initialized logger has the file with the process
id. -/
structure HasSemaphore (base : Text) (processId : ℤ) (o : Object host τ) : Prop where
  taken : o.world.semaphores (semaphoreName host.hash (host.filename base).1) ≠ none
  named : ∀ l, o = .built l → l.initialized = true →
    l.journal.fm.currentFileName = base ++ processSuffix false processId

theorem semaphores_destroy (hos : host.os = .macos) (fm : FileManager) (w : World host) :
    (fm.destroy w).semaphores = w.semaphores := by
  obtain ⟨hhandle, -, hsemaphores, -⟩ := closeCurrentFile_frame fm w
  unfold destroy cleanupMutex
  dsimp only
  rw [hhandle, ← hsemaphores]
  cases fm.mutexHandle with
  | none => rfl
  | some name =>
    dsimp only
    rw [hos]

theorem semaphores_released (hos : host.os = .macos) (o : Object host τ) :
    o.released.semaphores = o.world.semaphores := by
  cases o with
  | fresh level w => rfl
  | built l => exact semaphores_destroy hos l.journal.fm l.journal.world

theorem HasSemaphore.sameFile (h : HasSemaphore base processId o) (hsame : SameFile o o') :
    HasSemaphore base processId o' := by
  cases hsame with
  | fresh => exact ⟨h.taken, nofun⟩
  | @built l l' hnames hinit =>
    refine ⟨?_, fun l₁ hl₁ hl' => ?_⟩
    · show l'.journal.world.semaphores _ ≠ none
      rw [hnames.semaphores]
      exact h.taken
    · obtain rfl := Object.built.inj hl₁
      exact hnames.fileName.trans (h.named l rfl (hinit hl'))

theorem HasSemaphore.initializeWith (hos : host.os = .macos) (h : HasSemaphore base processId o)
    {cwd baseName : Text} (hbase : absoluteBase host cwd baseName = base) (queueSize : ℕ)
    (answers : InitAnswers) :
    HasSemaphore base processId (o.initializeWith cwd processId baseName queueSize answers).2 := by
  have htaken : o.released.semaphores (semaphoreName host.hash (host.filename base).1) ≠ none :=
    semaphores_released hos o ▸ h.taken
  unfold Object.initializeWith
  cases o.initialized with
  | true => exact h
  | false =>
    rcases hnew : (ofBaseName baseName).initializeAs o.released cwd processId answers with
      ⟨ok, fm, w⟩
    rcases elected_of_initializeAs o.released hbase processId hnew with
      ⟨rfl, -, -, hsemaphores⟩ | ⟨another, fm₁, w₁, helect, -, -, hsemaphores, hname⟩
    · refine ⟨?_, fun l hl hinit => ?_⟩
      · show w.semaphores _ ≠ none
        rw [hsemaphores]
        exact htaken
      · obtain rfl := Object.built.inj hl
        contradiction
    · cases helect with
      | other _ =>
        refine ⟨?_, fun l hl _ => ?_⟩
        · show w.semaphores _ ≠ none
          rw [hsemaphores]
          exact htaken
        · obtain rfl := Object.built.inj hl
          exact hname
      | mutex hwindows _ _ => exact absurd (hos.symm.trans hwindows) (by decide)
      | semaphore _ _ hfree => exact absurd hfree htaken

/-- **On macOS no session after the first has its file**: nothing unlinks the semaphore, so
whoever is initialized while it exists logs to the file with the process id, in all of
its later sessions. -/
theorem macos_file (hos : host.os = .macos)
    (htaken : s.object.world.semaphores (semaphoreName host.hash (host.filename base).1) ≠ none)
    (hended : s.object.initialized = false)
    (h : Reachable (next platform processId) (ForBase base) s s') :
    ∃ later, s'.history = s.history ++ later ∧
      ∀ x ∈ later, x.1 = host.locate (base ++ processSuffix false processId) := by
  have hinv : HasSemaphore base processId s'.object ∧ ∃ later,
      s'.history = s.history ++ later ∧
        ∀ x ∈ later, x.1 = host.locate (base ++ processSuffix false processId) := by
    refine h.invariant (I := fun s' => HasSemaphore base processId s'.object ∧ ∃ later,
      s'.history = s.history ++ later ∧
        ∀ x ∈ later, x.1 = host.locate (base ++ processSuffix false processId))
      ⟨⟨htaken, fun l hl hinit => ?_⟩, [], (List.append_nil _).symm, nofun⟩ ?_
    · rw [hl] at hended
      exact absurd (hended.symm.trans hinit) (by decide)
    · rintro s c s' - ⟨hholds, later, hlater, hplaces⟩ hok hnext
      obtain ⟨o', hcall, rfl⟩ := Option.map_eq_some_iff.mp hnext
      refine ⟨?_, later ++ accepted s.object c, ?_, fun x hx => ?_⟩
      · rcases call_cases hcall with ⟨cwd, baseName, queueSize, answers, rfl, rfl⟩ | hsame
        · exact hholds.initializeWith hos hok.1 queueSize answers
        · exact hholds.sameFile hsame
      · rw [← List.append_assoc, ← hlater]
      · rcases List.mem_append.mp hx with hx | hx
        · exact hplaces x hx
        · obtain ⟨l, hl, hinit, hplace⟩ := place_of_accepted hx
          rw [hplace, hholds.named l hl hinit]
  exact hinv.2

/-- A machine where somebody logged to `/logs/app` before. -/
def usedBefore : World Host.posix := setSemaphore (.empty Host.posix) "/SLM_app".toList 1

theorem macos_file_twoSessions :
    ∃ s : Life Host.posix ℕ, s.history.length = 2 ∧ ∃ later, s.history = [] ++ later ∧
      ∀ x ∈ later, x.1 = Host.posix.locate ("/logs/app".toList ++ processSuffix false 7) := by
  have hlength : (run (next midnight 7) (fun _ _ => true) (init .debug usedBefore)
      (twoSessions ['/'] "/logs/app".toList)).map (fun s => s.history.length) = some 2 := by
    decide +kernel
  obtain ⟨s, hrun, hs⟩ := Option.map_eq_some_iff.mp hlength
  have hreach : Reachable (next midnight 7) (ForBase "/logs/app".toList) (init .debug usedBefore)
      s := reachable_of_forall hrun (by decide)
  exact ⟨s, hs, macos_file rfl (by decide +kernel) rfl hreach⟩

end Lifecycle
end AsyncLogger
end SpeckitLog
