import SpeckitLog.FileManager.Threads
import Mathlib.Data.Fintype.Basic

/-!
# A lock around the file manager

Nothing in `FileManager` is locked, and calls that overlap lose bytes and use closed
streams.  Calls that do not overlap, as under a lock around the whole manager, make one
call after the other: every run of theirs, step by step, is a sequence of the whole calls
of `FileManager`, and no call is given a stream that was closed.

## Main definitions

* `Threads.OneAtATime` — no two calls overlap.
* `Threads.Op`, `Threads.Serial`, `Threads.serialNext` — whole calls, one after the other.
* `Threads.rest` — the rest of a running call, when nothing comes between.
* `Threads.Stands` — where a running call stands.
* `Threads.Follows` — the whole calls that a run has made.

## Main results

* `Threads.Stands.step` — each step goes on with the call.
* `Threads.Follows.step` — and a return makes the whole call.
* `Threads.serial_of_oneAtATime` — **a lock is enough.**
-/

namespace SpeckitLog
namespace FileManager
namespace Threads

open Function Transition

variable {ι δ : Type*} [DecidableEq δ] {host : Host δ}

/-! ### Whole calls -/

/-- A call of a method; `fwrite` passes on the first `pushed` bytes that wait. -/
inductive Op
  | write (data : Text) (pushed : ℕ)
  | rotate
  deriving DecidableEq

/-- The call, run whole; every call of the operating system in it succeeds. -/
def Op.call (cwd : Text) (fm : FileManager) (w : World host) :
    Op → Bool × FileManager × World host
  | .write data pushed => fm.write w data ⟨data.length, pushed, true, true⟩
  | .rotate => fm.rotate w cwd ⟨true, fun _ => true, true⟩

/-- The manager between whole calls, and the data of the `Write` calls that returned true. -/
structure Serial (ι : Type*) {δ : Type*} [DecidableEq δ] (host : Host δ) where
  fm : FileManager
  world : World host
  accepted : List (ι × Text)

/-- What a call of thread `i` that returns `ok` adds to the data accepted. -/
def Op.accepts (i : ι) (ok : Bool) : Op → List (ι × Text)
  | .write data _ => if ok then [(i, data)] else []
  | .rotate => []

/-- One whole call of a thread. -/
def serialNext (cwd : Text) (t : Serial ι host) (c : ι × Op) : Option (Serial ι host) :=
  let (ok, fm, w) := c.2.call cwd t.fm t.world
  some ⟨fm, w, t.accepted ++ c.2.accepts c.1 ok⟩

/-! ### The rest of a call -/

/-- `Write` from `ShouldFlushToFile` on. -/
def restOfWrite (fm : FileManager) (w : World host) (data : Text) :
    Bool × FileManager × World host :=
  if fm.shouldFlushToFile then fm.flushToFile w ⟨data.length, 0, true, true⟩ else (true, fm, w)

/-- `Rotate` from `OpenLogFile` on. -/
def restOfOpen (fm : FileManager) (w : World host) : Bool × FileManager × World host :=
  let (_, fm, w) := fm.openLogFile w true
  (true, { fm with currentFileSize := 0 }, w)

/-- `Rotate` from `DeleteOldestFiles` on. -/
def restOfDelete (cwd : Text) (fm : FileManager) (w : World host) :
    Bool × FileManager × World host :=
  restOfOpen { fm with currentFileName := fm.generateFileName true }
    (fm.deleteOldestFiles w cwd fun _ => true)

/-- `Rotate` from the rename on. -/
def restOfRename (cwd : Text) (fm : FileManager) (w : World host) :
    Bool × FileManager × World host :=
  let (renamed, w) := fm.renameWithSequence w
    (calculateNextSequenceNumber (fm.getHistoricalFiles w cwd)) true
  if renamed then restOfDelete cwd fm w else (false, fm, w)

/-- What the rest of a running call gives, once its stream is written to or closed. -/
def rest (cwd : Text) (fm : FileManager) (w : World host) : Pc → Bool × FileManager × World host
  | .loadSize data =>
    restOfWrite { fm with currentFileSize := wrap (fm.currentFileSize + data.length) } w data
  | .storeSize data size =>
    restOfWrite { fm with currentFileSize := wrap (size + data.length) } w data
  | .testFlush data => restOfWrite fm w data
  | .flush data => fm.flushToFile w ⟨data.length, 0, true, true⟩
  | .wrote _ ok | .rotated ok => (ok, fm, w)
  | .clearHandle => restOfRename cwd (fm.withHandle none) w
  | .rename => restOfRename cwd fm w
  | .deleteOldest => restOfDelete cwd fm w
  | .setName => restOfOpen { fm with currentFileName := fm.generateFileName true } w
  | .openFile => restOfOpen fm w
  | .clearSize => (true, { fm with currentFileSize := 0 }, w)
  | _ => (false, fm, w)

/-- **Where a running call stands** that found the manager `fm₀` in the world `w₀`: nothing
has happened yet, or the rest of it gives what the whole call gives. -/
def Stands (cwd : Text) (fm₀ : FileManager) (w₀ : World host) (s : State ι host) : Pc → Prop
  | .idle | .testWrite _ | .testRotate => s.closed = false ∧ s.fm = fm₀ ∧ s.world = w₀
  | .fwrite _ | .testClose | .fclose =>
    s.closed = false ∧ s.fm = fm₀ ∧ s.world = w₀ ∧ fm₀.fileHandle ≠ none
  | .loadSize data => s.closed = false ∧ s.fm.fileHandle ≠ none ∧
      ∃ pushed, rest cwd s.fm s.world (.loadSize data) = (Op.write data pushed).call cwd fm₀ w₀
  | .storeSize data size => s.closed = false ∧ s.fm.fileHandle ≠ none ∧
      ∃ pushed, rest cwd s.fm s.world (.storeSize data size) =
        (Op.write data pushed).call cwd fm₀ w₀
  | .testFlush data => s.closed = false ∧ s.fm.fileHandle ≠ none ∧
      ∃ pushed, rest cwd s.fm s.world (.testFlush data) = (Op.write data pushed).call cwd fm₀ w₀
  | .flush data => s.closed = false ∧ s.fm.fileHandle ≠ none ∧
      ∃ pushed, rest cwd s.fm s.world (.flush data) = (Op.write data pushed).call cwd fm₀ w₀
  | .wrote data ok => s.closed = false ∧
      ∃ pushed, (ok, s.fm, s.world) = (Op.write data pushed).call cwd fm₀ w₀
  | .clearHandle => s.closed = true ∧
      rest cwd s.fm s.world .clearHandle = Op.rotate.call cwd fm₀ w₀
  | pc => s.closed = false ∧ rest cwd s.fm s.world pc = Op.rotate.call cwd fm₀ w₀

/-- The thread has called a method, and is not about to return. -/
def Pc.Inside : Pc → Prop
  | .idle | .wrote _ _ | .rotated _ => False
  | _ => True

/-! ### One step of a running call -/

variable {cwd : Text} {fm fm₀ : FileManager} {w w₀ : World host} {f : FileStream}

/-- `Write` from the load of the size on is the rest of the whole `Write`. -/
theorem rest_fwrite (hf : fm.fileHandle = some f) (data : Text) (pushed : ℕ) :
    rest cwd (fm.withHandle (some (f.fwrite w.fs data pushed).1))
      (withFiles w (f.fwrite w.fs data pushed).2) (.loadSize data) =
        (Op.write data pushed).call cwd fm w := by
  simp only [rest, restOfWrite, Op.call, write, hf, Nat.min_self, List.take_length, ne_eq,
    not_true_eq_false, if_false]
  rfl

/-- `Rotate` from the rename on is the rest of the whole `Rotate`. -/
theorem rest_fclose (hf : fm.fileHandle = some f) :
    restOfRename cwd (fm.withHandle none) (withFiles w (f.fclose w.fs)) =
      Op.rotate.call cwd fm w := by
  simp only [Op.call, rotate, hf, closeCurrentFile_some hf]
  rfl

/-- A flush to which the system says yes. -/
theorem flushToFile_of_succeed (hf : fm.fileHandle = some f) (data : Text) :
    fm.flushToFile w ⟨data.length, 0, true, true⟩ =
      (true, fm.withHandle (some (f.fflush w.fs).1), withFiles w (f.fflush w.fs).2) := by
  simp only [flushToFile, hf, if_true]
  cases host.os <;> rfl

variable {s s' : State ι host} {i : ι} {a : Act}

/-- The stream that an operation is given. -/
theorem stream_of_not_closed (hclosed : s.closed = false) : s.stream = s.fm.fileHandle := by
  unfold State.stream
  rw [hclosed]
  rfl

/-- Where a thread stands is read off its program point. -/
theorem Stands.of_pc {p : Pc} (hpc : s.pc i = p) (h : Stands cwd fm₀ w₀ s p) :
    Stands cwd fm₀ w₀ s (s.pc i) := hpc ▸ h

variable [DecidableEq ι]

/-- **Each step goes on with the call**: it uses no closed stream, it accepts nothing, and the
rest of the call gives what it gave before. -/
theorem Stands.step (h : Stands cwd fm₀ w₀ s (s.pc i)) (hstep : Step cwd s i a s')
    (hinside : (s.pc i).Inside) :
    Stands cwd fm₀ w₀ s' (s'.pc i) ∧ s'.misused = s.misused ∧ s'.accepted = s.accepted := by
  cases hstep with
  | callWrite hpc | callRotate hpc | returnWrite hpc | returnRotate hpc =>
    rw [hpc] at hinside
    exact hinside.elim
  | @testWrite data n hpc =>
    rw [hpc] at h
    obtain ⟨hclosed, rfl, rfl⟩ := h
    refine ⟨.of_pc (update_self ..) ?_, rfl, rfl⟩
    split
    · next hf => exact ⟨hclosed, 0, by simp only [Op.call, write, hf, State.goto]⟩
    · next hf => exact ⟨hclosed, rfl, rfl, hf⟩
  | @fwrite data n hpc =>
    rw [hpc] at h
    obtain ⟨hclosed, rfl, rfl, hf⟩ := h
    obtain ⟨f, hf⟩ := Option.ne_none_iff_exists'.mp hf
    have hstream : s.stream = some f := (stream_of_not_closed hclosed).trans hf
    simp only [State.fwrite, hstream, and_true]
    exact .of_pc (update_self ..) ⟨hclosed, Option.some_ne_none _, n, rest_fwrite hf data n⟩
  | @loadSize data n hpc =>
    rw [hpc] at h
    exact ⟨.of_pc (update_self ..) h, rfl, rfl⟩
  | @storeSize data size n hpc =>
    rw [hpc] at h
    exact ⟨.of_pc (update_self ..) h, rfl, rfl⟩
  | @testFlush data n hpc =>
    rw [hpc] at h
    obtain ⟨hclosed, hf, pushed, hrest⟩ := h
    refine ⟨.of_pc (update_self ..) ?_, rfl, rfl⟩
    simp only [rest, restOfWrite] at hrest
    split
    · next hflush => exact ⟨hclosed, hf, pushed, by rwa [if_pos hflush] at hrest⟩
    · next hflush => exact ⟨hclosed, pushed, by rwa [if_neg hflush] at hrest⟩
  | @flush data n hpc =>
    rw [hpc] at h
    obtain ⟨hclosed, hf, pushed, hrest⟩ := h
    obtain ⟨f, hf⟩ := Option.ne_none_iff_exists'.mp hf
    have hstream : s.stream = some f := (stream_of_not_closed hclosed).trans hf
    simp only [State.flush, hstream, and_true]
    exact .of_pc (update_self ..)
      ⟨hclosed, pushed, (flushToFile_of_succeed hf data).symm.trans hrest⟩
  | testRotate hpc =>
    rw [hpc] at h
    obtain ⟨hclosed, rfl, rfl⟩ := h
    refine ⟨.of_pc (update_self ..) ?_, rfl, rfl⟩
    split
    · next hf => exact ⟨hclosed, by simp only [rest, Op.call, rotate, hf, State.goto]⟩
    · next hf => exact ⟨hclosed, rfl, rfl, hf⟩
  | testClose hpc =>
    rw [hpc] at h
    obtain ⟨hclosed, hfm, hw, hf⟩ := h
    rw [if_neg (hfm ▸ hf)]
    exact ⟨.of_pc (update_self ..) ⟨hclosed, hfm, hw, hf⟩, rfl, rfl⟩
  | fclose hpc =>
    rw [hpc] at h
    obtain ⟨hclosed, rfl, rfl, hf⟩ := h
    obtain ⟨f, hf⟩ := Option.ne_none_iff_exists'.mp hf
    have hstream : s.stream = some f := (stream_of_not_closed hclosed).trans hf
    simp only [State.fclose, hstream, and_true]
    exact .of_pc (update_self ..) ⟨rfl, rest_fclose hf⟩
  | clearHandle hpc =>
    rw [hpc] at h
    exact ⟨.of_pc (update_self ..) ⟨rfl, h.2⟩, rfl, rfl⟩
  | rename hpc =>
    rw [hpc] at h
    obtain ⟨hclosed, hrest⟩ := h
    obtain ⟨⟨renamed, w⟩, hren⟩ : ∃ result, s.fm.renameWithSequence s.world
        (calculateNextSequenceNumber (s.fm.getHistoricalFiles s.world cwd)) true = result :=
      ⟨_, rfl⟩
    simp only [rest, restOfRename, hren] at hrest
    simp only [State.rename, hren, and_true]
    cases renamed with
    | true => exact .of_pc (update_self ..) ⟨hclosed, hrest⟩
    | false => exact .of_pc (update_self ..) ⟨hclosed, hrest⟩
  | deleteOldest hpc | setName hpc | clearSize hpc =>
    rw [hpc] at h
    exact ⟨.of_pc (update_self ..) h, rfl, rfl⟩
  | openFile hpc =>
    rw [hpc] at h
    exact ⟨.of_pc (update_self ..) ⟨rfl, h.2⟩, rfl, rfl⟩

/-! ### Calls that do not overlap -/

/-- A thread takes a step only while no other thread is in a call. -/
def OneAtATime (s : State ι host) (a : ι × Act) : Prop := ∀ j, j ≠ a.1 → s.pc j = .idle

instance [Fintype ι] (s : State ι host) (a : ι × Act) : Decidable (OneAtATime s a) :=
  inferInstanceAs (Decidable (∀ j, j ≠ a.1 → s.pc j = .idle))

/-- **The whole calls that a run has made**: those that returned are made, and the one that
runs is not. -/
structure Follows (cwd : Text) (s : State ι host) (t : Serial ι host) : Prop where
  valid : s.misused = false
  accepted : s.accepted.map (fun c => (c.thread, c.entry)) = t.accepted
  running : ∀ i, (∀ j, j ≠ i → s.pc j = .idle) → Stands cwd t.fm t.world s (s.pc i)
  between : (∀ j, s.pc j = .idle) → Stands cwd t.fm t.world s .idle

variable {t : Serial ι host}

/-- A step of a thread, seen by each thread that may go on. -/
theorem Follows.of_stands (hothers : ∀ j, j ≠ i → s'.pc j = .idle) (hvalid : s'.misused = false)
    (haccepted : s'.accepted.map (fun c => (c.thread, c.entry)) = t.accepted)
    (h : Stands cwd t.fm t.world s' (s'.pc i)) : Follows cwd s' t where
  valid := hvalid
  accepted := haccepted
  running k hk := by
    by_cases hki : k = i
    · exact hki ▸ h
    · rw [hk i (Ne.symm hki)] at h
      exact .of_pc (hothers k hki) h
  between hall := by rwa [hall i] at h

/-- **One step of a run is a step of a call that runs, or the return of a whole call.** -/
theorem Follows.step (h : Follows cwd s t) (halone : ∀ j, j ≠ i → s.pc j = .idle)
    (hstep : Step cwd s i a s') :
    Follows cwd s' t ∨ ∃ c t', serialNext cwd t c = some t' ∧ Follows cwd s' t' := by
  have hothers : ∀ j, j ≠ i → s'.pc j = .idle := fun j hji => by
    rw [hstep.pc_of_ne hji, halone j hji]
  have hstands := h.running i halone
  have hinside : (s.pc i).Inside → Follows cwd s' t := fun hinside => by
    obtain ⟨hstands', hmisused, haccepted⟩ := hstands.step hstep hinside
    exact .of_stands hothers (hmisused.trans h.valid) (haccepted ▸ h.accepted) hstands'
  cases hstep with
  | callWrite hpc | callRotate hpc =>
    rw [hpc] at hstands
    exact .inl (.of_stands hothers h.valid h.accepted (.of_pc (update_self ..) hstands))
  | @returnWrite data ok n hpc =>
    rw [hpc] at hstands
    obtain ⟨hclosed, pushed, hcall⟩ := hstands
    refine .inr ⟨(i, .write data pushed), _, by rw [serialNext, ← hcall], ?_⟩
    refine .of_stands hothers h.valid ?_ (.of_pc (update_self ..) ⟨hclosed, rfl, rfl⟩)
    rw [← h.accepted]
    cases ok with
    | true => exact List.map_append
    | false => exact (List.append_nil _).symm
  | @returnRotate ok n hpc =>
    rw [hpc] at hstands
    obtain ⟨hclosed, hcall⟩ := hstands
    refine .inr ⟨(i, .rotate), _, by rw [serialNext, ← hcall], ?_⟩
    refine .of_stands hothers h.valid ?_ (.of_pc (update_self ..) ⟨hclosed, rfl, rfl⟩)
    rw [← h.accepted]
    exact (List.append_nil _).symm
  | _ hpc => exact .inl (hinside (by rw [hpc]; trivial))

omit [DecidableEq ι] in
theorem follows_init (fm : FileManager) (w : World host) :
    Follows cwd (init ι fm w) ⟨fm, w, []⟩ where
  valid := rfl
  accepted := rfl
  running _ _ := ⟨rfl, rfl, rfl⟩
  between _ := ⟨rfl, rfl, rfl⟩

/-- **A lock is enough.**  A run of calls that do not overlap is, step by step, a run of
whole calls: no call is given a stream that was closed, the same data is accepted in the same
order, and between the calls the manager and the files are the same. -/
theorem serial_of_oneAtATime (cwd : Text) {fm : FileManager} {w : World host} {s : State ι host}
    (hs : Reachable (next cwd) OneAtATime (init ι fm w) s) :
    s.misused = false ∧ ∃ t, Reachable (serialNext cwd) Always ⟨fm, w, []⟩ t ∧
      s.accepted.map (fun c => (c.thread, c.entry)) = t.accepted ∧
      ((∀ i, s.pc i = .idle) → s.fm = t.fm ∧ s.world = t.world) := by
  have hserial : ∃ t, Reachable (serialNext cwd) Always ⟨fm, w, []⟩ t ∧ Follows cwd s t :=
    hs.simulate (follows_init fm w) fun s a s' t halone hnext h =>
      (h.step halone (step_of_next hnext)).imp_right fun ⟨c, t', hcall, h'⟩ =>
        ⟨c, t', trivial, hcall, h'⟩
  obtain ⟨t, ht, hfollows⟩ := hserial
  exact ⟨hfollows.valid, t, ht, hfollows.accepted, fun hidle => (hfollows.between hidle).2⟩

/-- A record, a rotation by another thread, and one more record. -/
theorem serial_app : ∃ s, Reachable (next ['/']) OneAtATime
      (init (Fin 2) appOpened.2.1 appOpened.2.2) s ∧
    (∀ i, s.pc i = .idle) ∧ s.misused = false ∧
      ∃ t : Serial (Fin 2) Host.posix,
        Reachable (serialNext ['/']) Always ⟨appOpened.2.1, appOpened.2.2, []⟩ t ∧
        t.accepted = [(0, "up\n".toList), (1, "ok\n".toList)] ∧
        s.fm = t.fm ∧ s.world = t.world := by
  obtain ⟨s, hs, haccepted, hidle⟩ := exists_reachable_of_decide (next ['/'])
    (init (Fin 2) appOpened.2.1 appOpened.2.2)
    (fun s => s.accepted.map (fun c => (c.thread, c.entry)) =
        [(0, "up\n".toList), (1, "ok\n".toList)] ∧ ∀ i, s.pc i = .idle) OneAtATime
    (doing 0 (.write "up\n".toList) 0 6 ++ doing 1 .rotate 0 10 ++
      doing 1 (.write "ok\n".toList) 0 6) (by decide +kernel)
  obtain ⟨hvalid, t, ht, ht', hsame⟩ := serial_of_oneAtATime ['/'] hs
  exact ⟨s, hs, hidle, hvalid, t, ht, ht'.symm.trans haccepted, hsame hidle⟩

end Threads
end FileManager
end SpeckitLog
