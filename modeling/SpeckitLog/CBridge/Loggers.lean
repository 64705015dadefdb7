import SpeckitLog.CBridge
import SpeckitLog.FileManager.Durability

/-!
# The loggers of a process

A process creates and destroys loggers through the C interface, as many as it likes at a
time, with the same base name or with others.  Two of them may write to one file.  A caller
knows of its messages what the codes tell; what the files get is accounted for by logger.
Nothing in the interface catches an exception, so a scan of the directory that throws leaves
a call of `speckit_logger_log` without a code, after its line was written.

A logger is known by its address, and a null pointer is the address 0.

## Main definitions

* `Loggers.State`, `Loggers.next` — the loggers, the world they share, and the calls of
  `speckit_logger_log` with the codes they returned.
* `Loggers.Gave` — what a call gave to a file, as far as its code tells.
* `Loggers.Accounts` — a store of streams has the files and what the calls gave to them.

## Main results

* `Loggers.lines_accounted` — **every message is accounted for by the code of its call.**
-/

namespace SpeckitLog
namespace CBridge

open FileManager Function Transition

variable {δ : Type*} [DecidableEq δ] {host : Host δ}

/-- `speckit_logger_destroy`, for a logger that is not null. -/
def destroy (logger : SpeckitLogger host) : SpeckitErrorCode × World host :=
  (.success, logger.journal.fm.destroy logger.journal.world)

/-- `speckit_logger_log` that is left by an exception: the line was written, and a directory
scan of `Rotate` throws. -/
def logThrows (io : Io) (cwd : Text) (logger : SpeckitLogger host) (level : ℤ)
    (tag message : Option Text) (renames : Bool) : Option (SpeckitLogger host) :=
  message.bind fun message =>
    if Passes logger.tagFilter level tag then
      let (ok, journal) := logger.journal.write io (message ++ ['\n'])
      if ok ∧ journal.fm.needsRotation then
        let (fm, w) := journal.fm.rotateThrows journal.world cwd renames
        some { logger with journal := { journal with fm := fm, world := w } }
      else none
    else none

namespace Loggers

/-- A call of `speckit_logger_log`, with the code that it returned; `none` when an exception
left it. -/
structure LogCall where
  logger : ℤ
  level : ℤ
  tag : Option Text
  message : Option Text
  code : Option SpeckitErrorCode

/-- The loggers of a process, the world they share, the calls of `speckit_logger_log` so far,
and the bytes of each logger that the library dropped. -/
structure State (host : Host δ) where
  loggers : ℤ → Option (SpeckitLogger host)
  world : World host
  history : List LogCall
  lost : List (ℤ × Text)

/-- Before the first call. -/
def init (w : World host) : State host := ⟨fun _ => none, w, [], []⟩

/-- The calls of the interface that work on a logger, and the faults of the library: a
`fwrite`, `fflush` or `fclose` that cannot write out what waits is a lapse and what the call
does beside. -/
inductive Act
  | create (config : Option Text) (answers : InitAnswers)
  | log (level : ℤ) (tag message : Option Text) (io : Io)
  | logThrows (level : ℤ) (tag message : Option Text) (io : Io) (renames : Bool)
  | setLogLevel (level : ℤ)
  | destroy
  | lapse (pushed : ℕ) (drops : Bool)

/-- The logger at an address, in the world as it is now. -/
def State.logger (s : State host) (p : ℤ) : Option (SpeckitLogger host) :=
  (s.loggers p).map fun logger =>
    { logger with journal := { logger.journal with world := s.world } }

/-- A call that returns, or is given, the address `p`; there is none for an address where no
logger is. -/
def next (cwd : Text) (processId : ℤ) (s : State host) : ℤ × Act → Option (State host)
  | (p, .create config answers) =>
    match CBridge.create s.world cwd config processId answers with
    | none => if p = 0 then some s else none
    | some logger =>
      if p ≠ 0 ∧ s.loggers p = none then
        some { s with
          loggers := update s.loggers p (some logger)
          world := logger.journal.world }
      else none
  | (p, .log level tag message io) =>
    if p = 0 then
      some { s with history := s.history ++ [⟨p, level, tag, message, some .nullPointer⟩] }
    else (s.logger p).map fun logger =>
      let (code, logger) := CBridge.log io cwd logger level tag message
      { s with
        loggers := update s.loggers p (some logger)
        world := logger.journal.world
        history := s.history ++ [⟨p, level, tag, message, some code⟩] }
  | (p, .logThrows level tag message io renames) =>
    (s.logger p).bind fun logger =>
      (CBridge.logThrows io cwd logger level tag message renames).map fun logger =>
        { s with
          loggers := update s.loggers p (some logger)
          world := logger.journal.world
          history := s.history ++ [⟨p, level, tag, message, none⟩] }
  | (p, .setLogLevel level) =>
    if p = 0 then some s
    else (s.logger p).map fun logger =>
      { s with loggers := update s.loggers p (some (CBridge.setLogLevel logger level).2) }
  | (p, .destroy) =>
    if p = 0 then some s
    else (s.logger p).map fun logger =>
      { s with loggers := update s.loggers p none, world := (CBridge.destroy logger).2 }
  | (p, .lapse pushed drops) =>
    (s.logger p).bind fun logger => logger.journal.fm.fileHandle.map fun f =>
      let (fm, w) := logger.journal.fm.lapse s.world pushed drops
      { s with
        loggers := update s.loggers p
          (some { logger with journal := { logger.journal with fm := fm, world := w } })
        world := w
        lost := s.lost ++ if drops then [(p, f.buffer.drop pushed)] else [] }

/-! ### What a call gives to a file -/

/-- **What the code of a call tells** of its message: a success means that it was filtered
out or written as one line, by the low byte of its level, no code that it was written as one
line, and an I/O error that a first part of the line was written. -/
inductive Gave : LogCall → Text → Prop
  | refused {c : LogCall} (hcode : c.code = some .nullPointer) : Gave c []
  | filtered {c : LogCall} (hcode : c.code = some .success) (hlevel : c.level.bmod 256 < 0) :
      Gave c []
  | line {c : LogCall} {message : Text} (hcode : c.code = some .success ∨ c.code = none)
      (hlevel : 0 ≤ c.level.bmod 256) (hmessage : c.message = some message) :
      Gave c (message ++ ['\n'])
  | piece {c : LogCall} {message bytes : Text} (hcode : c.code = some .fileIo)
      (hlevel : 0 ≤ c.level.bmod 256) (hmessage : c.message = some message)
      (hbytes : bytes <+: message ++ ['\n']) : Gave c bytes

/-- Nobody changes the filter of a logger, so the low byte of the level decides. -/
theorem passes_new (level : ℤ) (tag : Option Text) :
    Passes .new level tag ↔ 0 ≤ level.bmod 256 := by
  unfold Passes
  rw [toInt_ofInt]
  exact and_iff_right rfl

variable {io : Io} {cwd : Text} {logger : SpeckitLogger host} {level : ℤ} {tag : Option Text}
  {fm : FileManager} {w : World host}

theorem log_of_not_passes (io : Io) (cwd message : Text)
    (h : ¬ Passes logger.tagFilter level tag) :
    CBridge.log io cwd logger level tag (some message) = (.success, logger) := by
  unfold CBridge.log
  dsimp only
  split
  · rfl
  · next henabled =>
    rw [if_pos]
    by_contra hlevel
    exact h ⟨by simpa using henabled, not_lt.mp hlevel⟩

theorem log_tagFilter (io : Io) (cwd : Text) (logger : SpeckitLogger host) (level : ℤ)
    (tag message : Option Text) :
    (CBridge.log io cwd logger level tag message).2.tagFilter = logger.tagFilter := by
  cases message with
  | none => rfl
  | some message =>
    by_cases hpasses : Passes logger.tagFilter level tag
    · rw [log_of_passes io cwd message hpasses]
      split <;> rfl
    · rw [log_of_not_passes io cwd message hpasses]

/-- A `Write` that returns true has written all of its data. -/
theorem full_of_write {data : Text} {answers : WriteAnswers}
    (h : (fm.write w data answers).1 = true) :
    min answers.accepted data.length = data.length := by
  by_contra hshort
  cases hf : fm.fileHandle with
  | none =>
    rw [write_closed hf] at h
    contradiction
  | some f =>
    simp only [FileManager.write, hf, ne_eq, hshort, not_false_eq_true, if_true] at h
    contradiction

variable {p : ℤ} {store : Streams.Store ℤ Char} {old : ℕ → Text}

theorem isOf_opening (fs : FileSystem host.Place) (p : ℤ) (handle : Option FileStream) :
    ∀ a ∈ Processes.opening fs p handle, a.IsOf p ∧ a.Keeps := by
  unfold Processes.opening
  intro a ha
  split at ha
  · contradiction
  · split at ha
    · obtain rfl := List.mem_singleton.mp ha
      exact ⟨rfl, trivial⟩
    · rcases List.mem_cons.mp ha with rfl | ha
      · exact ⟨trivial, trivial⟩
      · obtain rfl := List.mem_singleton.mp ha
        exact ⟨rfl, trivial⟩

theorem gives_opening (fs : FileSystem host.Place) (p : ℤ) (handle : Option FileStream) :
    (Processes.opening fs p handle).flatMap (Streams.Act.gives p) = [] := by
  unfold Processes.opening
  split
  · rfl
  · split <;> rfl

/-- A store has the files of a world, and the stream of `p` on one of them. -/
structure HasStream (store : Streams.Store ℤ Char) (p : ℤ) (handle : Option FileStream)
    (w : World host) : Prop where
  data : store.data = w.fs.data
  next : store.next = w.fs.next
  own : store.holds p = Processes.held handle

/-- The streams of `p` perform some acts which give them `bytes`, and by which they lose only
what is in `lost`. -/
structure Performs (store : Streams.Store ℤ Char) (p : ℤ) (handle : Option FileStream)
    (w : World host) (bytes : Text) (lost : List (ℤ × Text)) (store' : Streams.Store ℤ Char) :
    Prop where
  acts : ∃ acts, Streams.Performs store p acts (Processes.held handle) w.fs.data w.fs.next store' ∧
    (∀ a ∈ acts, a.IsOf p) ∧ acts.flatMap (Streams.Act.gives p) = bytes
  lost : ∀ l, store.LostIn l → store'.LostIn (l ++ lost)

/-- Acts by which nothing is lost. -/
theorem performs_of_keeps {acts : List (Streams.Act ℤ Char)} {handle : Option FileStream}
    {w : World host} {bytes : Text} {store' : Streams.Store ℤ Char} (hinv : store.Inv old)
    (h : Streams.Performs store p acts (Processes.held handle) w.fs.data w.fs.next store')
    (hacts : ∀ a ∈ acts, a.IsOf p ∧ a.Keeps)
    (hgives : acts.flatMap (Streams.Act.gives p) = bytes) :
    Performs store p handle w bytes [] store' where
  acts := ⟨acts, h, fun a ha => (hacts a ha).1, hgives⟩
  lost l hl := by
    rw [List.append_nil]
    exact Streams.lostIn_of_run (fun a ha => (hacts a ha).2) hinv hl h.run

variable {handle handle' : Option FileStream} {w' : World host} {bytes bytes' : Text}
  {lost lost' : List (ℤ × Text)} {store' store'' : Streams.Store ℤ Char} {j : Journal host} {f : FileStream}

theorem HasStream.nothing (h : HasStream store p handle w) :
    Performs store p handle w [] [] store := by
  have hnil := Streams.performs_nil store p
  rw [h.own, h.data, h.next] at hnil
  exact ⟨⟨[], hnil, nofun, rfl⟩, fun l hl => by rwa [List.append_nil]⟩

theorem Performs.hasStream (h : Performs store p handle w bytes lost store') :
    HasStream store' p handle w := by
  obtain ⟨acts, hperforms, -⟩ := h.acts
  exact ⟨hperforms.data, hperforms.next, hperforms.own⟩

theorem Performs.inv (h : Performs store p handle w bytes lost store') (hinv : store.Inv old) :
    store'.Inv old := by
  obtain ⟨acts, hperforms, -⟩ := h.acts
  exact hperforms.inv hinv

theorem Performs.append (h : Performs store p handle w bytes lost store')
    (h' : Performs store' p handle' w' bytes' lost' store'') :
    Performs store p handle' w' (bytes ++ bytes') (lost ++ lost') store'' := by
  obtain ⟨acts, hperforms, hof, hgives⟩ := h.acts
  obtain ⟨acts', hperforms', hof', hgives'⟩ := h'.acts
  refine ⟨⟨acts ++ acts', hperforms.append hperforms', fun a ha => ?_, ?_⟩, fun l hl => ?_⟩
  · exact (List.mem_append.mp ha).elim (hof a) (hof' a)
  · rw [List.flatMap_append, hgives, hgives']
  · rw [← List.append_assoc]
    exact h'.lost _ (h.lost l hl)

/-- `Write` to an open file. -/
theorem performs_write (h : HasStream store p j.fm.fileHandle j.world) (hinv : store.Inv old)
    (hf : j.fm.fileHandle = some f) (io : Io) (data : Text) :
    ∃ store', Performs store p (j.write io data).2.fm.fileHandle (j.write io data).2.world
        (data.take (min (io.write j.calls.length data).accepted data.length)) [] store' ∧
      ∃ f', (j.write io data).2.fm.fileHandle = some f' := by
  have hends := endsIn_write (w := j.world) hf data (io.write j.calls.length data)
  obtain ⟨store', hwrite⟩ := Processes.performs_write j.world.fs hinv h.data h.next
    (h.own.trans (congrArg Processes.held hf)) j.fm data (io.write j.calls.length data)
  rw [← hends.handle, ← hends.fs] at hwrite
  refine ⟨store', performs_of_keeps hinv hwrite (fun a ha => ?_) ?_, _, hends.handle⟩
  · rcases List.mem_cons.mp ha with rfl | ha
    · exact ⟨rfl, trivial⟩
    · split at ha
      · obtain rfl := List.mem_singleton.mp ha
        exact ⟨rfl, trivial⟩
      · contradiction
  · rw [List.flatMap_cons, Streams.Act.gives, if_pos rfl]
    split <;> exact List.append_nil _

/-- Closing the file gives nothing, and loses nothing. -/
theorem performs_close (hinv : store.Inv old)
    (h : Streams.Performs store p [.close p] (Processes.held handle) w.fs.data w.fs.next store') :
    Performs store p handle w [] [] store' :=
  performs_of_keeps hinv h (fun _ ha => List.mem_singleton.mp ha ▸ ⟨rfl, trivial⟩) rfl

/-- Neither does opening one. -/
theorem performs_opening {fs : FileSystem host.Place} (acts : List (Streams.Act ℤ Char))
    (hinv : store.Inv old) (hacts : ∀ a ∈ acts, a.IsOf p ∧ a.Keeps)
    (hgives : acts.flatMap (Streams.Act.gives p) = [])
    (h : Streams.Performs store p (acts ++ Processes.opening fs p handle) (Processes.held handle)
      w.fs.data w.fs.next store') : Performs store p handle w [] [] store' := by
  refine performs_of_keeps hinv h (fun a ha => ?_) ?_
  · exact (List.mem_append.mp ha).elim (hacts a) (isOf_opening fs p handle a)
  · rw [List.flatMap_append, hgives, gives_opening]
    rfl

/-- `Rotate` of an open file. -/
theorem performs_rotate (h : HasStream store p j.fm.fileHandle j.world) (hinv : store.Inv old)
    (hf : j.fm.fileHandle = some f) (io : Io) (cwd : Text) :
    ∃ store', Performs store p (j.rotate io cwd).fm.fileHandle (j.rotate io cwd).world [] []
      store' := by
  obtain ⟨store', hrotate⟩ := Processes.performs_rotate hinv h.data h.next
    (h.own.trans (congrArg Processes.held hf)) hf cwd (io.rotate j.calls.length)
  refine ⟨store', performs_opening [.close p] hinv ?_ rfl hrotate⟩
  exact fun a ha => List.mem_singleton.mp ha ▸ ⟨rfl, trivial⟩

/-- `Rotate` that throws. -/
theorem performs_rotateThrows (h : HasStream store p fm.fileHandle w) (hinv : store.Inv old)
    (hf : fm.fileHandle = some f) (cwd : Text) (renames : Bool) :
    ∃ store', Performs store p (fm.rotateThrows w cwd renames).1.fileHandle
      (fm.rotateThrows w cwd renames).2 [] [] store' := by
  obtain ⟨store', hclose⟩ := Processes.performs_rotateThrows hinv h.data h.next
    (h.own.trans (congrArg Processes.held hf)) hf cwd renames
  rw [(opens_of_rotateThrows (w := w) hf cwd renames).1]
  exact ⟨store', performs_close hinv hclose⟩

/-- A lapse of the library. -/
theorem performs_lapse (h : HasStream store p fm.fileHandle w) (hinv : store.Inv old)
    (hf : fm.fileHandle = some f) (pushed : ℕ) (drops : Bool) :
    ∃ store', Performs store p (fm.lapse w pushed drops).1.fileHandle (fm.lapse w pushed drops).2
      [] (if drops then [(p, f.buffer.drop pushed)] else []) store' := by
  obtain ⟨store', hlapse, hlost⟩ := Processes.performs_lapse w.fs hinv h.data h.next
    (h.own.trans (congrArg Processes.held hf)) pushed drops
  rw [lapse_open hf]
  refine ⟨store', ⟨_, hlapse, fun a ha => ?_, ?_⟩, fun l hl => ?_⟩
  · cases drops <;> simp only [Bool.false_eq_true, if_false, if_true, List.mem_cons,
      List.not_mem_nil, or_false] at ha
    · rw [ha]
      rfl
    · rcases ha with rfl | rfl | rfl <;> rfl
  · rw [List.flatMap_cons, Streams.Act.gives, if_pos rfl]
    cases drops <;> rfl
  · refine hlost _ (fun k x hx hfate => List.mem_append_left _ (hl k x hx hfate)) fun hdrops => ?_
    rw [if_pos hdrops]
    exact List.mem_append_right _ (List.mem_singleton_self _)

/-- **A call of `speckit_logger_log`**, whatever it returns. -/
theorem performs_log (h : HasStream store p logger.journal.fm.fileHandle logger.journal.world)
    (hinv : store.Inv old) (hfilter : logger.tagFilter = .new) (io : Io) (cwd : Text) (level : ℤ)
    (tag message : Option Text) :
    ∃ store' bytes,
      Performs store p (CBridge.log io cwd logger level tag message).2.journal.fm.fileHandle
        (CBridge.log io cwd logger level tag message).2.journal.world bytes [] store' ∧
      Gave ⟨p, level, tag, message, some (CBridge.log io cwd logger level tag message).1⟩
        bytes := by
  cases message with
  | none => exact ⟨store, [], h.nothing, .refused rfl⟩
  | some message =>
    by_cases hpasses : Passes logger.tagFilter level tag
    swap
    · rw [log_of_not_passes io cwd message hpasses]
      rw [hfilter, passes_new] at hpasses
      exact ⟨store, [], h.nothing, .filtered rfl (not_le.mp hpasses)⟩
    rw [log_of_passes io cwd message hpasses]
    rw [hfilter, passes_new] at hpasses
    cases hf : logger.journal.fm.fileHandle with
    | none =>
      -- a manager without a file writes nothing
      have hwrite : logger.journal.fm.write logger.journal.world (message ++ ['\n'])
          (io.write logger.journal.calls.length (message ++ ['\n'])) =
            (false, logger.journal.fm, logger.journal.world) := write_closed hf _ _
      simp only [Journal.write, hwrite, Bool.false_eq_true, if_false]
      exact ⟨store, [], h.nothing, .piece rfl hpasses rfl List.nil_prefix⟩
    | some f =>
      obtain ⟨store₁, hwrite, f', hf'⟩ := performs_write h hinv hf io (message ++ ['\n'])
      cases hok : (logger.journal.write io (message ++ ['\n'])).1 with
      | false => exact ⟨store₁, _, hwrite, .piece rfl hpasses rfl (List.take_prefix _ _)⟩
      | true =>
        -- all of the line is in the stream, and a rotation gives it nothing more
        rw [full_of_write hok, List.take_length] at hwrite
        cases (logger.journal.write io (message ++ ['\n'])).2.fm.needsRotation with
        | false => exact ⟨store₁, _, hwrite, .line (.inl rfl) hpasses rfl⟩
        | true =>
          obtain ⟨store₂, hrotate⟩ :=
            performs_rotate hwrite.hasStream (hwrite.inv hinv) hf' io cwd
          have hboth := hwrite.append hrotate
          rw [List.append_nil] at hboth
          exact ⟨store₂, _, hboth, .line (.inl rfl) hpasses rfl⟩

/-- **A call that throws** has written its line. -/
theorem performs_logThrows {logger' : SpeckitLogger host} {renames : Bool} {message : Option Text}
    (h : HasStream store p logger.journal.fm.fileHandle logger.journal.world)
    (hinv : store.Inv old) (hfilter : logger.tagFilter = .new)
    (hthrows : CBridge.logThrows io cwd logger level tag message renames = some logger') :
    ∃ store' bytes, Performs store p logger'.journal.fm.fileHandle logger'.journal.world bytes []
        store' ∧
      Gave ⟨p, level, tag, message, none⟩ bytes ∧ logger'.tagFilter = .new := by
  obtain ⟨message, rfl, hlogger⟩ := Option.bind_eq_some_iff.mp hthrows
  split at hlogger
  swap
  · contradiction
  next hpasses =>
  rw [hfilter, passes_new] at hpasses
  dsimp only at hlogger
  split at hlogger
  swap
  · contradiction
  next hdue =>
  obtain rfl := Option.some.inj hlogger
  cases hf : logger.journal.fm.fileHandle with
  | none =>
    have hwrite : logger.journal.fm.write logger.journal.world (message ++ ['\n'])
        (io.write logger.journal.calls.length (message ++ ['\n'])) =
          (false, logger.journal.fm, logger.journal.world) := write_closed hf _ _
    simp only [Journal.write, hwrite, Bool.false_eq_true, false_and] at hdue
  | some f =>
    obtain ⟨store₁, hwrite, f', hf'⟩ := performs_write h hinv hf io (message ++ ['\n'])
    rw [full_of_write hdue.1, List.take_length] at hwrite
    obtain ⟨store₂, hrotate⟩ := performs_rotateThrows hwrite.hasStream (hwrite.inv hinv) hf'
      cwd renames
    have hboth := hwrite.append hrotate
    rw [List.append_nil] at hboth
    exact ⟨store₂, _, hboth, .line (.inr rfl) hpasses rfl, hfilter⟩

/-! ### Runs -/

/-- **A store of streams accounts for the calls**: it has the files and the open streams of
the loggers, has lost what the library dropped, and each logger gave its streams what its calls
tell. -/
structure Accounts (w₀ : World host) (s : State host) (store : Streams.Store ℤ Char) : Prop where
  data : store.data = s.world.fs.data
  next : store.next = s.world.fs.next
  holds : ∀ p, store.holds p =
    (s.loggers p).bind fun logger => Processes.held logger.journal.fm.fileHandle
  inv : store.Inv (Processes.bytesAtFirst w₀)
  latest : store.Latest
  lost : store.LostIn s.lost
  next_le : w₀.fs.next ≤ store.next
  grown : ∀ n, Processes.bytesAtFirst w₀ n <+: store.data n
  filter : ∀ p logger, s.loggers p = some logger → logger.tagFilter = .new
  gave : ∀ p, ∃ given, List.Forall₂ Gave (s.history.filter fun c => c.logger = p) given ∧
    store.acceptedBy p = given.flatten

theorem accounts_init (w₀ : World host) :
    Accounts w₀ (init w₀) (.init w₀.fs.data w₀.fs.next) where
  data := rfl
  next := rfl
  holds _ := rfl
  inv := Streams.Store.inv_init _ _
  latest := nofun
  lost := nofun
  next_le := le_rfl
  grown n := by
    unfold Processes.bytesAtFirst
    split
    · exact List.prefix_rfl
    · exact List.nil_prefix
  filter := nofun
  gave _ := ⟨[], .nil, rfl⟩

variable {w₀ : World host} {s s' : State host} {calls : List LogCall} {given : List Text}

/-- The logger at `p` has its stream. -/
theorem Accounts.hasStream (h : Accounts w₀ s store) (hlogger : s.logger p = some logger) :
    HasStream store p logger.journal.fm.fileHandle logger.journal.world ∧
      logger.tagFilter = .new := by
  obtain ⟨logger₀, hp, rfl⟩ := Option.map_eq_some_iff.mp hlogger
  refine ⟨⟨h.data, h.next, ?_⟩, h.filter p logger₀ hp⟩
  rw [h.holds p, hp, Option.bind_some]

/-- What the logger at `p` does, while the others do nothing. -/
theorem Accounts.perform (h : Accounts w₀ s store)
    (hperforms : Performs store p ((s'.loggers p).bind fun logger => logger.journal.fm.fileHandle)
      s'.world given.flatten lost store')
    (hothers : ∀ q ≠ p, s'.loggers q = s.loggers q)
    (hfilter : ∀ logger, s'.loggers p = some logger → logger.tagFilter = .new)
    (hlost : s'.lost = s.lost ++ lost)
    (hhistory : s'.history = s.history ++ calls) (hcalls : ∀ c ∈ calls, c.logger = p)
    (hgave : List.Forall₂ Gave calls given) : Accounts w₀ s' store' := by
  have hloses := hperforms.lost _ h.lost
  rw [← hlost] at hloses
  obtain ⟨acts, hperforms, hof, hgives⟩ := hperforms.acts
  have hadds := fun q => Streams.acceptedBy_of_run h.inv h.latest hperforms.run q
  have hreach := reachable_of_run hperforms.run
  have hnext := Streams.next_le_of_reachable h.inv hreach
  refine ⟨hperforms.data, hperforms.next, fun q => ?_, hperforms.inv h.inv, (hadds p).1, hloses,
    h.next_le.trans hnext, fun n => ?_, fun q logger hq => ?_, fun q => ?_⟩
  · by_cases hq : q = p
    · subst hq
      rw [hperforms.own]
      cases s'.loggers q <;> rfl
    · rw [hperforms.others q hq, h.holds q, hothers q hq]
  · by_cases hn : n < w₀.fs.next
    · exact (h.grown n).trans (Streams.grows_of_reachable h.inv hreach (hn.trans_le h.next_le))
    · -- a file that is made later has nothing at first
      rw [Processes.bytesAtFirst, if_neg hn]
      exact List.nil_prefix
  · by_cases hqp : q = p
    · exact hfilter logger (hqp ▸ hq)
    · exact h.filter q logger ((hothers q hqp).symm.trans hq)
  · obtain ⟨before, hbefore, haccepted⟩ := h.gave q
    rw [(hadds q).2, haccepted, hhistory, List.filter_append]
    by_cases hq : q = p
    · subst hq
      have hall : calls.filter (fun c => c.logger = q) = calls :=
        List.filter_eq_self.mpr fun c hc => decide_eq_true (hcalls c hc)
      refine ⟨before ++ given, ?_, ?_⟩
      · rw [hall]
        exact List.rel_append hbefore hgave
      · rw [hgives, List.flatten_append]
    · -- another logger has no part in it
      have hnone : calls.filter (fun c => c.logger = q) = [] :=
        List.filter_eq_nil_iff.mpr fun c hc heq =>
          hq ((of_decide_eq_true heq).symm.trans (hcalls c hc))
      have hnothing : acts.flatMap (Streams.Act.gives q) = [] :=
        List.flatMap_eq_nil_iff.mpr fun a ha => Streams.Act.gives_of_isOf (hof a ha) hq
      exact ⟨before, by rwa [hnone, List.append_nil], by rw [hnothing, List.append_nil]⟩

/-- What the logger at `p` does without a call of `speckit_logger_log`. -/
theorem Accounts.silent (h : Accounts w₀ s store)
    (hperforms : Performs store p ((s'.loggers p).bind fun logger => logger.journal.fm.fileHandle)
      s'.world [] lost store')
    (hothers : ∀ q ≠ p, s'.loggers q = s.loggers q)
    (hfilter : ∀ logger, s'.loggers p = some logger → logger.tagFilter = .new)
    (hlost : s'.lost = s.lost ++ lost) (hhistory : s'.history = s.history) :
    Accounts w₀ s' store' := by
  refine h.perform ?_ hothers hfilter hlost ?_ ?_ .nil
  · exact hperforms
  · rw [hhistory, List.append_nil]
  · exact nofun

/-- **One call** is accounted for. -/
theorem Accounts.step {cwd : Text} {processId : ℤ} {a : Act} (h : Accounts w₀ s store)
    (hnext : Loggers.next cwd processId s (p, a) = some s') : ∃ store', Accounts w₀ s' store' := by
  have hothers : ∀ {o : Option (SpeckitLogger host)} q, q ≠ p →
      update s.loggers p o q = s.loggers q := fun q hq => update_of_ne hq _ _
  have hself : ∀ {o : Option (SpeckitLogger host)} {logger : SpeckitLogger host},
      update s.loggers p o p = some logger → o = some logger := by
    intro o logger hlogger
    rwa [update_self] at hlogger
  -- most calls lose nothing
  have hkept : s.lost = s.lost ++ [] := (List.append_nil _).symm
  cases a with
  | create config answers =>
    cases config with
    | none =>
      -- a null pointer makes no logger
      simp only [Loggers.next, CBridge.create, Option.map_none] at hnext
      split at hnext
      · exact ⟨store, Option.some.inj hnext ▸ h⟩
      · contradiction
    | some baseName =>
      simp only [Loggers.next, CBridge.create, Option.map_some] at hnext
      split at hnext
      swap
      · contradiction
      next hfree =>
      obtain rfl := Option.some.inj hnext
      have hnone : store.holds p = none := by rw [h.holds p, hfree.2, Option.bind_none]
      have hopens := (opens_of_initializeAs
        (show (ofBaseName baseName).initialized = false from rfl)
        (show (ofBaseName baseName).fileHandle = none from rfl) s.world cwd processId answers).1
      obtain ⟨store', hopen⟩ :=
        Processes.performs_opening s.world.fs h.inv h.data h.next hnone hopens
      refine ⟨store', h.silent ?_ hothers (fun logger hlogger => ?_) hkept rfl⟩
      · dsimp only
        rw [update_self]
        exact performs_opening [] h.inv (List.forall_mem_nil _) rfl hopen
      · obtain rfl := Option.some.inj (hself hlogger)
        rfl
  | log level tag message io =>
    by_cases hp : p = 0
    · simp only [Loggers.next, if_pos hp] at hnext
      obtain rfl := Option.some.inj hnext
      refine ⟨store, h.perform (HasStream.nothing ⟨h.data, h.next, ?_⟩) (fun _ _ => rfl)
        (h.filter p) hkept rfl ?_ (.cons (.refused rfl) .nil)⟩
      · rw [h.holds p]
        cases s.loggers p <;> rfl
      · exact fun c hc => List.mem_singleton.mp hc ▸ rfl
    · simp only [Loggers.next, if_neg hp] at hnext
      obtain ⟨logger, hlogger, rfl⟩ := Option.map_eq_some_iff.mp hnext
      obtain ⟨hstream, hfilter⟩ := h.hasStream hlogger
      obtain ⟨store', bytes, hperforms, hgave⟩ :=
        performs_log hstream h.inv hfilter io cwd level tag message
      refine ⟨store', h.perform ?_ hothers (fun logger' hlogger' => ?_) hkept rfl ?_
        (.cons hgave .nil)⟩
      · dsimp only
        rw [update_self, List.flatten_singleton]
        exact hperforms
      · obtain rfl := Option.some.inj (hself hlogger')
        exact (log_tagFilter io cwd logger level tag message).trans hfilter
      · exact fun c hc => List.mem_singleton.mp hc ▸ rfl
  | logThrows level tag message io renames =>
    obtain ⟨logger, hlogger, hthrows⟩ := Option.bind_eq_some_iff.mp hnext
    obtain ⟨logger', hlogs, rfl⟩ := Option.map_eq_some_iff.mp hthrows
    obtain ⟨hstream, hfilter⟩ := h.hasStream hlogger
    obtain ⟨store', bytes, hperforms, hgave, hfilter'⟩ :=
      performs_logThrows hstream h.inv hfilter hlogs
    refine ⟨store', h.perform ?_ hothers (fun logger'' hlogger'' => ?_) hkept rfl ?_
      (.cons hgave .nil)⟩
    · dsimp only
      rw [update_self, List.flatten_singleton]
      exact hperforms
    · obtain rfl := Option.some.inj (hself hlogger'')
      exact hfilter'
    · exact fun c hc => List.mem_singleton.mp hc ▸ rfl
  | setLogLevel level =>
    by_cases hp : p = 0
    · simp only [Loggers.next, if_pos hp] at hnext
      exact ⟨store, Option.some.inj hnext ▸ h⟩
    · simp only [Loggers.next, if_neg hp] at hnext
      obtain ⟨logger, hlogger, rfl⟩ := Option.map_eq_some_iff.mp hnext
      obtain ⟨hstream, hfilter⟩ := h.hasStream hlogger
      refine ⟨store, h.silent ?_ hothers (fun logger' hlogger' => ?_) hkept rfl⟩
      · dsimp only
        rw [update_self]
        exact HasStream.nothing ⟨h.data, h.next, hstream.own⟩
      · obtain rfl := Option.some.inj (hself hlogger')
        exact hfilter
  | destroy =>
    by_cases hp : p = 0
    · simp only [Loggers.next, if_pos hp] at hnext
      exact ⟨store, Option.some.inj hnext ▸ h⟩
    · simp only [Loggers.next, if_neg hp] at hnext
      obtain ⟨logger, hlogger, rfl⟩ := Option.map_eq_some_iff.mp hnext
      obtain ⟨hstream, -⟩ := h.hasStream hlogger
      have hgone : ∀ logger' : SpeckitLogger host, update s.loggers p none p = some logger' →
          logger'.tagFilter = .new := by
        intro logger' hlogger'
        exact absurd (hself hlogger').symm (Option.some_ne_none _)
      cases hf : logger.journal.fm.fileHandle with
      | none =>
        refine ⟨store, h.silent ?_ hothers hgone hkept rfl⟩
        dsimp only
        rw [update_self]
        have hsame : (CBridge.destroy logger).2.fs = logger.journal.world.fs :=
          fs_destroy_of_none hf
        refine HasStream.nothing ⟨?_, ?_, ?_⟩
        · rw [hsame, hstream.data]
        · rw [hsame, hstream.next]
        · rw [hstream.own, hf]
          rfl
      | some f =>
        obtain ⟨store', hclose⟩ := Processes.performs_destroy h.inv hstream.data hstream.next
          (hstream.own.trans (congrArg Processes.held hf)) hf
        refine ⟨store', h.silent ?_ hothers hgone hkept rfl⟩
        dsimp only
        rw [update_self]
        exact performs_close h.inv hclose
  | lapse pushed drops =>
    obtain ⟨logger, hlogger, hlapse⟩ := Option.bind_eq_some_iff.mp hnext
    obtain ⟨f, hf, rfl⟩ := Option.map_eq_some_iff.mp hlapse
    obtain ⟨hstream, hfilter⟩ := h.hasStream hlogger
    obtain ⟨logger₀, -, rfl⟩ := Option.map_eq_some_iff.mp hlogger
    obtain ⟨store', hperforms⟩ := performs_lapse hstream h.inv hf pushed drops
    refine ⟨store', h.silent ?_ hothers (fun logger' hlogger' => ?_) rfl rfl⟩
    · dsimp only
      rw [update_self]
      exact hperforms
    · obtain rfl := Option.some.inj (hself hlogger')
      exact hfilter

/-- Three loggers with one base name, of which the last two share a file; the `fclose` of the
second drops one byte. -/
def threeLoggers : List (ℤ × Act) :=
  [(1, .create (some "/logs/app".toList) ⟨true, true, true⟩),
    (2, .create (some "/logs/app".toList) ⟨true, true, true⟩),
    (3, .create (some "/logs/app".toList) ⟨true, true, true⟩),
    (2, .log 1 none (some ['a']) (.pushing fun _ => 0)),
    (3, .log 200 none (some ['?']) (.pushing fun _ => 0)),
    (3, .log 3 none (some ['b']) (.pushing fun _ => 0)),
    (0, .log 3 none (some ['c']) (.pushing fun _ => 0)),
    (3, .destroy), (2, .lapse 1 true), (2, .destroy)]

end Loggers
end CBridge
end SpeckitLog
