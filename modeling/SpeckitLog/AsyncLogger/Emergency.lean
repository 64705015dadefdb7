import SpeckitLog.AsyncLogger.Lifecycle

/-!
# What a crash leaves of a logger

A crash loses what the stream of the log file holds back.  `emergencyFlush` is there for
that moment: it writes what waits in both buffers and then flushes the stream.  What is
on disk after it stays there, whatever the logger does and whatever fails afterwards.

## Main definitions

* `Lifecycle.Object.lost` — the world after a crash.
* `Lifecycle.Grows` — no file loses or changes a byte.

## Main results

* `Lifecycle.Object.grows_call` — **no call takes a byte from the disk**, even if it fails.
* `Lifecycle.survives_crash` — **what was accepted before an `emergencyFlush` survives.**
-/

namespace SpeckitLog
namespace AsyncLogger
namespace Lifecycle

open Function Transition FileManager Journal AsyncLogger.Sequential Streams

variable {δ : Type*} [DecidableEq δ] {host : Host δ} {τ : Type*}

/-- The process dies: the handles of the manager are closed, and the rest of its stream is
lost. -/
def Object.lost : Object host τ → World host
  | .fresh _ w => w
  | .built l => l.journal.fm.die l.journal.world

theorem Object.fs_lost (o : Object host τ) : o.lost.fs = o.world.fs := by
  cases o with
  | fresh level w => rfl
  | built l => exact fs_die l.journal.fm l.journal.world

theorem Object.onDiskAt_lost (o : Object host τ) (place : host.Place) :
    onDiskAt o.lost place = onDiskAt o.world place := by
  unfold onDiskAt
  rw [Object.fs_lost]

/-! ### The disk only grows -/

/-- **No file loses or changes a byte** from one world to the other. -/
def Grows (w w' : World host) : Prop := ∀ place, onDiskAt w place <+: onDiskAt w' place

variable {w w₁ w' : World host} {fm : FileManager} {f : FileStream} {platform : Platform τ}
  {processId : ℤ}

theorem Grows.refl (w : World host) : Grows w w := fun _ => List.prefix_rfl

theorem Grows.trans (h : Grows w w₁) (h' : Grows w₁ w') : Grows w w' :=
  fun place => (h place).trans (h' place)

theorem grows_of_fs (h : w'.fs = w.fs) : Grows w w' := by
  intro place
  have hsame : onDiskAt w' place = onDiskAt w place := by
    unfold onDiskAt
    rw [h]
  exact hsame ▸ List.prefix_rfl

/-- Bytes are added to files that keep their places. -/
theorem grows_of_data (hentries : w'.fs.entries = w.fs.entries)
    (hdata : ∀ n, w.fs.data n <+: w'.fs.data n) : Grows w w' := by
  intro place
  have hlookup : w'.fs.lookup place = w.fs.lookup place :=
    congrArg (fun entries => AList.lookup place entries) hentries
  unfold onDiskAt FileSystem.content
  rw [hlookup]
  cases w.fs.lookup place with
  | none => exact List.prefix_rfl
  | some n => exact hdata n

theorem prefix_data_append (fs : FileSystem host.Place) (n : ℕ) (bytes : Text) (m : ℕ) :
    fs.data m <+: (fs.append n bytes).data m := by
  by_cases hm : m = n
  · subst hm
    rw [FileSystem.data_append_self]
    exact List.prefix_append _ _
  · exact FileSystem.data_append_of_ne fs bytes hm ▸ List.prefix_rfl

theorem prefix_afterFlush (f : FileStream) (fs : FileSystem host.Place) (answers : WriteAnswers)
    (n : ℕ) : fs.data n <+: (afterFlush f fs answers).2.data n := by
  unfold afterFlush
  split
  · exact prefix_data_append fs f.file f.buffer n
  · exact List.prefix_rfl

theorem prefix_afterWrite (fm : FileManager) (f : FileStream) (fs : FileSystem host.Place)
    (data : Text) (answers : WriteAnswers) (n : ℕ) :
    fs.data n <+: (fm.afterWrite f fs data answers).2.data n := by
  have hwrite : fs.data n <+: (afterFwrite f fs data answers).2.data n :=
    prefix_data_append fs f.file _ n
  unfold afterWrite
  split
  · exact hwrite.trans (prefix_afterFlush _ _ answers n)
  · exact hwrite

/-- **`Write`**, whatever it returns. -/
theorem grows_write (fm : FileManager) (w : World host) (data : Text) (answers : WriteAnswers) :
    Grows w (fm.write w data answers).2.2 := by
  cases hf : fm.fileHandle with
  | none =>
    rw [write_closed hf]
    exact .refl w
  | some f =>
    refine grows_of_data (written_of_write fm w data answers).entries fun n => ?_
    rw [(endsIn_write hf data answers).fs]
    exact prefix_afterWrite fm f w.fs data answers n

/-- **`Flush`**, whatever it returns. -/
theorem grows_flush (fm : FileManager) (w : World host) (answers : WriteAnswers) :
    Grows w (fm.flush w answers).2.2 := by
  cases hf : fm.fileHandle with
  | none =>
    rw [flush_closed hf]
    exact .refl w
  | some f =>
    rw [flush_open hf]
    refine grows_of_data (written_of_flushToFile fm w answers).entries fun n => ?_
    rw [(endsIn_flushToFile hf answers).fs]
    exact prefix_afterFlush f w.fs answers n

/-- **The destructor** closes the file. -/
theorem grows_destroy (fm : FileManager) (w : World host) : Grows w (fm.destroy w) := by
  cases hf : fm.fileHandle with
  | none => exact grows_of_fs (fs_destroy_of_none hf)
  | some f =>
    refine grows_of_data (by rw [fs_destroy_of_some hf]; rfl) fun n => ?_
    rw [fs_destroy_of_some hf]
    exact prefix_data_append w.fs f.file f.buffer n

/-- **A new manager** may make an empty file. -/
theorem grows_initializeAs (w : World host) (cwd baseName : Text) (processId : ℤ)
    (answers : InitAnswers) :
    Grows w ((ofBaseName baseName).initializeAs w cwd processId answers).2.2 := by
  have hends := initialized_of_initializeAs (ofBaseName baseName) w cwd processId answers
  generalize (ofBaseName baseName).initializeAs w cwd processId answers = r at hends ⊢
  obtain ⟨ok, fm, w'⟩ := r
  cases hends with
  | again | noDirectory => exact .refl _
  | notOpened _ helect _ => exact grows_of_fs helect.frame.2
  | @done another fm₁ w₁ n fs _ helect hopen =>
    intro place
    have hsame := onDiskAt_openAppend w₁.fs (host.locate (fm₁.generateFileName !another)) place
    rw [hopen, helect.frame.2] at hsame
    exact ⟨[], (List.append_nil _).trans hsame.symm⟩

theorem grows_writeEntries (platform : Platform τ) (io : Io) (es : List (Entry τ))
    (j : Journal host) : Grows j.world (writeEntries platform io es j).world := by
  induction es generalizing j with
  | nil => exact .refl j.world
  | cons e es ih =>
    rw [writeEntries_cons]
    have hwrite : Grows j.world (j.write io (record platform e)).2.world :=
      grows_write j.fm j.world (record platform e) _
    exact hwrite.trans (ih _)

theorem grows_flushBuffers (platform : Platform τ) (io : Io) (l : Logger host τ) :
    Grows l.journal.world (l.flush platform io).journal.world :=
  (grows_writeEntries platform io l.queue l.journal).trans (grows_writeEntries platform io l.ring _)

/-- **No call takes a byte from the disk**, whatever fails in it. -/
theorem Object.grows_call {o o' : Object host τ} {c : Call τ}
    (hcall : o.call platform processId c = some o') : Grows o.world o'.world := by
  cases c with
  | initializeWith cwd baseName queueSize answers =>
    obtain rfl := Option.some.inj hcall
    unfold Object.initializeWith
    cases o.initialized with
    | true => exact .refl _
    | false =>
      have hreleased : Grows o.world o.released := by
        cases o with
        | fresh level w => exact .refl w
        | built l => exact grows_destroy l.journal.fm l.journal.world
      exact hreleased.trans (grows_initializeAs o.released cwd baseName processId answers)
  | deinit io =>
    obtain rfl := Option.some.inj hcall
    cases o with
    | fresh level w => exact .refl w
    | built l =>
      unfold Object.deinit
      dsimp only
      split
      · exact grows_flushBuffers platform io l
      · exact .refl _
  | setLogLevel level =>
    obtain rfl := Option.some.inj hcall
    cases o with
    | fresh | built => exact .refl _
  | log io e =>
    obtain rfl := Option.some.inj hcall
    cases o with
    | fresh level w => exact .refl w
    | built l =>
      show Grows l.journal.world (l.log platform io e).journal.world
      unfold Logger.log
      -- only an entry that goes to the ring is followed by a flush
      split
      · exact .refl _
      · split
        · exact .refl _
        · split
          · exact .refl _
          · split
            · exact grows_flushBuffers platform io { l with ring := l.ring ++ [e] }
            · exact .refl _
  | flush io =>
    cases o with
    | fresh => contradiction
    | built l =>
      obtain rfl := Option.some.inj hcall
      exact grows_flushBuffers platform io l
  | emergencyFlush io answers =>
    cases o with
    | fresh => contradiction
    | built l =>
      obtain rfl := Option.some.inj hcall
      exact (grows_flushBuffers platform io l).trans (grows_flush _ _ answers)

variable {s s₁ s' : Life host τ}

theorem grows_of_life {ok : Life host τ → Call τ → Prop}
    (h : Reachable (next platform processId) ok s s') : Grows s.object.world s'.object.world := by
  refine h.invariant (I := fun x => Grows s.object.world x.object.world) (.refl _) ?_
  intro x c x' _ hgrown _ hnext
  obtain ⟨o', hcall, rfl⟩ := Option.map_eq_some_iff.mp hnext
  exact hgrown.trans (Object.grows_call hcall)

/-! ### The emergency flush -/

/-- A `Flush` to which the system says yes leaves nothing in the stream. -/
theorem bytesAt_of_flushed {j : Journal host} (h : ∀ f, j.fm.fileHandle = some f → j.Open f)
    {answers : WriteAnswers} (hflush : answers.fflush = true) (place : host.Place) :
    onDiskAt (j.fm.flush j.world answers).2.2 place = bytesAt j place := by
  cases hf : j.fm.fileHandle with
  | none => rw [flush_closed hf, bytesAt_of_none hf]
  | some f =>
    obtain ⟨f', hopen, -, hbytes⟩ := bytesAt_fileFlush (h f hf) answers
    rw [← hbytes place]
    refine (bytesAt_of_buffer hopen.stream ?_).symm
    have hends := endsIn_flushToFile (w := j.world) hf answers
    rw [← flush_open hf] at hends
    obtain rfl := Option.some.inj (hends.handle.symm.trans hopen.stream)
    unfold afterFlush
    rw [if_pos hflush]
    rfl

/-- **An `emergencyFlush` puts everything on disk**, if no write fails in it and the flush of
the file succeeds. -/
theorem onDiskAt_emergencyFlush {minLevel : LogLevel} {io : Io} {answers : WriteAnswers}
    (h : Reachable (next platform processId) NoWriteFails (init minLevel w) s)
    (hio : io.Succeeds) (hflush : answers.fflush = true)
    (hnext : next platform processId s (.emergencyFlush io answers) = some s₁)
    (place : host.Place) :
    onDiskAt s₁.object.world place =
      onDiskAt w place ++ records platform (part place s.history) := by
  obtain ⟨hready, hbytes⟩ := ready_of_reachable h
  obtain ⟨o', hcall, rfl⟩ := Option.map_eq_some_iff.mp hnext
  rw [← hbytes]
  cases ho : s.object with
  | fresh level w =>
    rw [ho] at hcall
    contradiction
  | built l =>
    rw [ho] at hcall
    obtain rfl := Option.some.inj hcall
    obtain ⟨hflushed, hsame⟩ := (hready l ho).flush platform hio
    rw [← hsame place]
    refine (bytesAt_of_flushed hflushed.isOpen hflush place).trans ?_
    show bytesAt _ place = bytesAt _ place ++ toCurrent _ place (records platform [])
    rw [records_nil, toCurrent_nil, List.append_nil]

/-- **What was accepted before an `emergencyFlush` survives a crash.**  If no write fails
until it returns, and its flush of the file succeeds, then whatever calls come after it and
whatever fails in them: when the process dies, every file begins with what it held at first
and the records of the entries that were accepted for it until then. -/
theorem survives_crash {minLevel : LogLevel} {io : Io} {answers : WriteAnswers}
    (h : Reachable (next platform processId) NoWriteFails (init minLevel w) s)
    (hio : io.Succeeds) (hflush : answers.fflush = true)
    (hnext : next platform processId s (.emergencyFlush io answers) = some s₁)
    (h' : Reachable (next platform processId) Always s₁ s') (place : host.Place) :
    onDiskAt w place ++ records platform (part place s.history) <+:
      onDiskAt s'.object.lost place := by
  have hdisk := onDiskAt_emergencyFlush h hio hflush hnext place
  have hlater : onDiskAt s₁.object.world place <+: onDiskAt s'.object.world place :=
    grows_of_life h' place
  rw [Object.onDiskAt_lost, ← hdisk]
  exact hlater

/-- A logger that logs, flushes in an emergency, logs once more and crashes. -/
theorem survives_crash_logged :
    ∃ s' : Life Host.posix ℕ, s'.history.length = 2 ∧
      record midnight entryUp <+:
        onDiskAt s'.object.lost (Host.posix.locate "/logs/app.log".toList) := by
  have hio := Io.pushing_succeeds fun _ => 0
  let calls : List (Call ℕ) := [.initializeWith ['/'] "/logs/app".toList 4 ⟨true, true, true⟩,
    .log (.pushing fun _ => 0) entryUp]
  let later : List (Call ℕ) := [.log (.pushing fun _ => 0) entryUp, .flush (.pushing fun _ => 0)]
  have hlife : ((run (next midnight 7) (fun _ _ => true) (init .debug (.empty Host.posix))
      calls).any fun s => decide (s.history =
        [(Host.posix.locate "/logs/app.log".toList, entryUp)]) &&
          (next midnight 7 s (.emergencyFlush (.pushing fun _ => 0) ⟨0, 0, true, true⟩)).any
            fun s₁ => (run (next midnight 7) (fun _ _ => true) s₁ later).any
              fun s' => decide (s'.history.length = 2)) = true := by decide +kernel
  obtain ⟨s, hs, hrest⟩ := (Option.any_eq_true ..).mp hlife
  obtain ⟨hhistory, hrest⟩ := Bool.and_eq_true_iff.mp hrest
  obtain ⟨s₁, hnext, hrest⟩ := (Option.any_eq_true ..).mp hrest
  obtain ⟨s', hs', hlength⟩ := (Option.any_eq_true ..).mp hrest
  have hreach : Reachable (next midnight 7) NoWriteFails (init .debug (.empty Host.posix)) s :=
    reachable_of_forall hs (by
      intro c hc
      rcases List.mem_cons.mp hc with rfl | hc
      · trivial
      · obtain rfl := List.mem_singleton.mp hc
        exact hio)
  have hsurvives := survives_crash hreach hio rfl hnext
    ((reachable_of_run hs').mono fun _ _ _ => trivial) (Host.posix.locate "/logs/app.log".toList)
  refine ⟨s', of_decide_eq_true hlength, ?_⟩
  have hpart : part (Host.posix.locate "/logs/app.log".toList)
      [(Host.posix.locate "/logs/app.log".toList, entryUp)] = [entryUp] := by decide
  rw [of_decide_eq_true hhistory, hpart] at hsurvives
  exact (List.prefix_append _ _).trans hsurvives

end Lifecycle
end AsyncLogger
end SpeckitLog
