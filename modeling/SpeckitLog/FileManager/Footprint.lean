import SpeckitLog.FileManager.Durability
import SpeckitLog.FileManager.Retry
import SpeckitLog.Lib.Footprint

/-!
# What logging leaves alone

A process that logs names three files: `base.log`, `base_pid.log` and, when it rotates,
`base.1.log`.  Since the scan for historical files finds none, no higher number is ever
given and nothing is ever deleted.  So whatever the processes of a machine do, fail at or
crash in, every other place keeps its file, byte for byte.

## Main definitions

* `Processes.Ours` — the three places of each process.
* `Processes.Tame` — a manager that keeps to them.

## Main results

* `Processes.tame_initializeAs`, `Processes.tame_write`, `Processes.tame_flush`,
  `Processes.tame_rotate` — the operations of a manager.
* `Processes.Tame.deletesNothing` — no `Rotate` deletes a file.
* `Processes.footprint` — **logging touches no other file**, in any run.
-/

namespace SpeckitLog
namespace Processes

open Function Transition FileManager FileSystem

variable {δ : Type*} [DecidableEq δ] {host : Host δ} {base : Text} {cwd : ℤ → Text}
  {w w' : World host} {p : ℤ} {fm : FileManager} {f : FileStream}

/-! ### The places of a process -/

/-- The base name of process `p`, made absolute. -/
def logBase (host : Host δ) (base : Text) (cwd : ℤ → Text) (p : ℤ) : Text :=
  absoluteBase host (cwd p) base

/-- What follows the base name in the names that process `p` gives. -/
def IsEnding (p : ℤ) (ending : Text) : Prop :=
  (∃ first, ending = processSuffix first p) ∨ ending = sequenceSuffix 1

/-- **The places of the log files**: `base.log`, `base_p.log` and `base.1.log` for each
process `p`. -/
def Ours (host : Host δ) (base : Text) (cwd : ℤ → Text) (place : host.Place) : Prop :=
  ∃ p ending, IsEnding p ending ∧ place = host.locate (logBase host base cwd p ++ ending)

/-- The manager of process `p` keeps to its places. -/
structure Tame (host : Host δ) (base : Text) (cwd : ℤ → Text) (fs : FileSystem host.Place) (p : ℤ)
    (fm : FileManager) : Prop where
  baseName : absoluteBase host (cwd p) fm.baseName = logBase host base cwd p
  named : fm.fileHandle ≠ none → fm.baseName = logBase host base cwd p ∧
    ∃ first, fm.currentFileName = logBase host base cwd p ++ processSuffix first p
  stream : ∀ f, fm.fileHandle = some f → Within (Ours host base cwd) fs f.file

omit [DecidableEq δ] in
theorem ours_of_ending {ending : Text} (h : IsEnding p ending) :
    Ours host base cwd (host.locate (logBase host base cwd p ++ ending)) := ⟨p, ending, h, rfl⟩

/-- What others do at their places leaves a manager tame. -/
theorem Tame.frame {fs fs' : FileSystem host.Place} (h : Tame host base cwd fs p fm)
    (hsame : SameOutside (Ours host base cwd) fs fs') : Tame host base cwd fs' p fm where
  baseName := h.baseName
  named := h.named
  stream f hf := hsame.within (h.stream f hf)

/-- A manager without a file. -/
theorem tame_of_none {fs : FileSystem host.Place}
    (hbase : absoluteBase host (cwd p) fm.baseName = logBase host base cwd p)
    (hf : fm.fileHandle = none) : Tame host base cwd fs p fm where
  baseName := hbase
  named h := absurd hf h
  stream f hf' := by
    rw [hf] at hf'
    contradiction

/-- The file that a tame manager has open, and the one that it renames to. -/
theorem Tame.ours {fs : FileSystem host.Place} (h : Tame host base cwd fs p fm)
    (hf : fm.fileHandle ≠ none) :
    Ours host base cwd (host.locate fm.currentFileName) ∧
      Ours host base cwd (host.locate (fm.sequenceName 1)) := by
  obtain ⟨hbase, first, hname⟩ := h.named hf
  constructor
  · rw [hname]
    exact ours_of_ending (.inl ⟨first, rfl⟩)
  · rw [sequenceName_eq, hbase]
    exact ours_of_ending (.inr rfl)

theorem Tame.isAbsolute {fs : FileSystem host.Place} (hcwd : host.isAbsolute (cwd p) = true)
    (h : Tame host base cwd fs p fm) (hf : fm.fileHandle ≠ none) :
    host.isAbsolute fm.baseName = true := by
  rw [(h.named hf).1]
  exact isAbsolute_absoluteBase hcwd base

/-- **`DeleteOldestFiles` removes nothing** when `Rotate` calls it, after closing the file. -/
theorem Tame.deletesNothing {fs : FileSystem host.Place} (hcwd : host.isAbsolute (cwd p) = true)
    (h : Tame host base cwd fs p fm) (hf : fm.fileHandle ≠ none) (w : World host)
    (remove : Text → Bool) : (fm.withHandle none).deleteOldestFiles w (cwd p) remove = w :=
  deleteOldestFiles_eq (h.isAbsolute hcwd hf) (cwd p) remove

/-- An operation of a tame manager: it touches no other place, and leaves it tame. -/
def Keeps (host : Host δ) (base : Text) (cwd : ℤ → Text) (w : World host) (p : ℤ)
    (fm' : FileManager) (w' : World host) : Prop :=
  SameOutside (Ours host base cwd) w.fs w'.fs ∧ Tame host base cwd w'.fs p fm'

/-! ### The operations -/

theorem keeps_self (h : Tame host base cwd w.fs p fm) : Keeps host base cwd w p fm w :=
  ⟨.refl _ _, h⟩

theorem sameOutside_afterFlush {ours : host.Place → Prop} {fs : FileSystem host.Place}
    (h : Within ours fs f.file) (answers : WriteAnswers) :
    SameOutside ours fs (afterFlush f fs answers).2 ∧
      (afterFlush f fs answers).1.file = f.file := by
  unfold afterFlush
  split
  · exact ⟨sameOutside_append h f.buffer, rfl⟩
  · exact ⟨.refl _ _, rfl⟩

theorem sameOutside_afterWrite {ours : host.Place → Prop} {fs : FileSystem host.Place}
    (h : Within ours fs f.file) (fm : FileManager) (data : Text) (answers : WriteAnswers) :
    SameOutside ours fs (fm.afterWrite f fs data answers).2 ∧
      (fm.afterWrite f fs data answers).1.file = f.file := by
  have hwrite : SameOutside ours fs (afterFwrite f fs data answers).2 := sameOutside_append h _
  unfold afterWrite
  split
  · have hflush := sameOutside_afterFlush
      (f := (afterFwrite f fs data answers).1) (hwrite.within h) answers
    exact ⟨hwrite.trans hflush.1, hflush.2⟩
  · exact ⟨hwrite, rfl⟩

/-- The manager goes on with the stream it had. -/
theorem Tame.written {fm' : FileManager} (h : Tame host base cwd w.fs p fm)
    (hf : fm.fileHandle = some f) (hwritten : Written fm w fm' w')
    (hsame : SameOutside (Ours host base cwd) w.fs w'.fs) : Tame host base cwd w'.fs p fm' := by
  have hopen : fm.fileHandle ≠ none := by
    rw [hf]
    exact Option.some_ne_none f
  have hbase : fm'.baseName = fm.baseName := by rw [hwritten.manager]
  have hname : fm'.currentFileName = fm.currentFileName := by rw [hwritten.manager]
  constructor
  · rw [hbase]
    exact h.baseName
  · intro _
    rw [hbase, hname]
    exact h.named hopen
  · intro f' hf'
    have hfile := hwritten.file
    rw [hf', hf] at hfile
    rw [show f'.file = f.file from Option.some.inj hfile]
    exact hsame.within (h.stream f hf)

/-- **`Write`**, whatever it returns. -/
theorem tame_write (h : Tame host base cwd w.fs p fm) (data : Text) (answers : WriteAnswers) :
    Keeps host base cwd w p (fm.write w data answers).2.1 (fm.write w data answers).2.2 := by
  cases hf : fm.fileHandle with
  | none =>
    rw [write_closed hf]
    exact keeps_self h
  | some f =>
    have hsame : SameOutside (Ours host base cwd) w.fs (fm.write w data answers).2.2.fs := by
      rw [(endsIn_write hf data answers).fs]
      exact (sameOutside_afterWrite (h.stream f hf) fm data answers).1
    exact ⟨hsame, h.written hf (written_of_write fm w data answers) hsame⟩

/-- **`Flush`**, whatever it returns. -/
theorem tame_flush (h : Tame host base cwd w.fs p fm) (answers : WriteAnswers) :
    Keeps host base cwd w p (fm.flush w answers).2.1 (fm.flush w answers).2.2 := by
  cases hf : fm.fileHandle with
  | none =>
    rw [flush_closed hf]
    exact keeps_self h
  | some f =>
    rw [flush_open hf]
    have hsame : SameOutside (Ours host base cwd) w.fs (fm.flushToFile w answers).2.2.fs := by
      rw [(endsIn_flushToFile hf answers).fs]
      exact (sameOutside_afterFlush (h.stream f hf) answers).1
    exact ⟨hsame, h.written hf (written_of_flushToFile fm w answers) hsame⟩

/-- **The destructor**, and what a crash does to the files. -/
theorem sameOutside_destroy (h : Tame host base cwd w.fs p fm) :
    SameOutside (Ours host base cwd) w.fs (fm.destroy w).fs := by
  cases hf : fm.fileHandle with
  | none =>
    rw [fs_destroy_of_none hf]
    exact .refl _ _
  | some f =>
    rw [fs_destroy_of_some hf]
    exact sameOutside_append (h.stream f hf) f.buffer

/-- **`Initialize`**, whatever it returns. -/
theorem tame_initializeAs (hcwd : host.isAbsolute (cwd p) = true)
    (h : Tame host base cwd w.fs p fm) (answers : InitAnswers) :
    Keeps host base cwd w p (fm.initializeAs w (cwd p) p answers).2.1
      (fm.initializeAs w (cwd p) p answers).2.2 := by
  have hbase : absoluteBase host (cwd p) (absoluteBase host (cwd p) fm.baseName) =
      logBase host base cwd p := (absoluteBase_absoluteBase hcwd _).trans h.baseName
  have hends := initialized_of_initializeAs fm w (cwd p) p answers
  generalize fm.initializeAs w (cwd p) p answers = r at hends ⊢
  obtain ⟨ok, fm', w'⟩ := r
  cases hends with
  | again => exact keeps_self h
  | noDirectory _ _ => exact ⟨.refl _ _, hbase, fun hf => ⟨h.baseName, (h.named hf).2⟩, h.stream⟩
  | @notOpened another fm₁ w₁ _ helect _ =>
    obtain ⟨hfm, hfs⟩ := helect.frame
    refine ⟨hfs ▸ .refl _ _, tame_of_none ?_ rfl⟩
    rw [hfm]
    exact hbase
  | @done another fm₁ w₁ n fs _ helect hopen =>
    obtain ⟨hfm, hfs⟩ := helect.frame
    have hfm₁ : fm₁.baseName = logBase host base cwd p := by
      rw [hfm]
      exact h.baseName
    have hname : fm₁.generateFileName (!another) =
        logBase host base cwd p ++ processSuffix (!another) p := by
      rw [generateFileName_eq, hfm₁, hfm]
    have hours : Ours host base cwd (host.locate (fm₁.generateFileName !another)) := by
      rw [hname]
      exact ours_of_ending (.inl ⟨_, rfl⟩)
    have hsame : SameOutside (Ours host base cwd) w₁.fs (w₁.fs.openAppend _).2 :=
      sameOutside_openAppend hours
    have hwithin : Within (Ours host base cwd) (w₁.fs.openAppend _).2 (w₁.fs.openAppend _).1 :=
      within_openAppend hours
    rw [hopen] at hsame hwithin
    refine ⟨hfs ▸ hsame, ?_, fun _ => ⟨hfm₁, _, hname⟩, ?_⟩
    · show absoluteBase host (cwd p) fm₁.baseName = _
      rw [hfm]
      exact hbase
    · intro f hf
      obtain rfl := Option.some.inj hf
      exact hwithin

/-- **`Rotate`**, whatever it returns. -/
theorem tame_rotate (hcwd : host.isAbsolute (cwd p) = true) (h : Tame host base cwd w.fs p fm)
    (answers : RotateAnswers) :
    Keeps host base cwd w p (fm.rotate w (cwd p) answers).2.1
      (fm.rotate w (cwd p) answers).2.2 := by
  cases hf : fm.fileHandle with
  | none =>
    rw [rotate_closed hf]
    exact keeps_self h
  | some f =>
    have hopen : fm.fileHandle ≠ none := hf ▸ Option.some_ne_none f
    obtain ⟨hbase, -⟩ := h.named hopen
    obtain ⟨hcurrent, hsequence⟩ := h.ours hopen
    have habs := h.isAbsolute hcwd hopen
    have hnextName : fm.generateFileName true =
        logBase host base cwd p ++ processSuffix true p := by
      rw [generateFileName_eq, hbase]
      rfl
    have hnext : Ours host base cwd (host.locate (fm.generateFileName true)) := by
      rw [hnextName]
      exact ours_of_ending (.inl ⟨true, rfl⟩)
    have hclose : SameOutside (Ours host base cwd) w.fs (f.fclose w.fs) :=
      sameOutside_append (h.stream f hf) f.buffer
    have hends := rotated_of_rotate (w := w) habs (cwd p) answers
    generalize fm.rotate w (cwd p) answers = r at hends ⊢
    obtain ⟨ok, fm', w'⟩ := r
    cases hends with
    | closed => exact keeps_self h
    | @notRenamed f' hf' _ =>
      obtain rfl := Option.some.inj (hf.symm.trans hf')
      exact ⟨hclose, tame_of_none h.baseName rfl⟩
    | @notOpened f' fs hf' _ hren _ =>
      obtain rfl := Option.some.inj (hf.symm.trans hf')
      exact ⟨hclose.trans (sameOutside_rename hcurrent hsequence hren), tame_of_none h.baseName rfl⟩
    | @done f' fs hf' _ hren =>
      obtain rfl := Option.some.inj (hf.symm.trans hf')
      have hrenamed := hclose.trans (sameOutside_rename hcurrent hsequence hren)
      refine ⟨hrenamed.trans (sameOutside_openAppend hnext), h.baseName,
        fun _ => ⟨hbase, true, hnextName⟩, ?_⟩
      intro f' hf'
      obtain rfl := Option.some.inj hf'
      exact within_openAppend hnext

/-- **`Rotate`** that throws. -/
theorem tame_rotateThrows (hcwd : host.isAbsolute (cwd p) = true)
    (h : Tame host base cwd w.fs p fm) (renames : Bool) :
    Keeps host base cwd w p (fm.rotateThrows w (cwd p) renames).1
      (fm.rotateThrows w (cwd p) renames).2 := by
  cases hf : fm.fileHandle with
  | none =>
    rw [rotateThrows_closed hf]
    exact keeps_self h
  | some f =>
    have hopen : fm.fileHandle ≠ none := hf ▸ Option.some_ne_none f
    obtain ⟨hcurrent, hsequence⟩ := h.ours hopen
    have habs := h.isAbsolute hcwd hopen
    have hclose : SameOutside (Ours host base cwd) w.fs (f.fclose w.fs) :=
      sameOutside_append (h.stream f hf) f.buffer
    rw [Keeps, (opens_of_rotateThrows hf (cwd p) renames).1]
    refine ⟨?_, tame_of_none h.baseName rfl⟩
    have hscan : (fm.withHandle none).getHistoricalFiles (withFiles w (f.fclose w.fs)) (cwd p) =
        [] := getHistoricalFiles_eq_nil habs _ _
    simp only [rotateThrows, hf, closeCurrentFile_some hf, hscan]
    -- the first scan throws, the renaming fails, or the second scan throws
    unfold renameWithSequence
    split
    · split
      · next fs hren => exact hclose.trans (sameOutside_rename hcurrent hsequence hren)
      · exact hclose
    · exact hclose

/-- **A lapse of the library** adds bytes to the own file, if anything. -/
theorem tame_lapse (h : Tame host base cwd w.fs p fm) (pushed : ℕ) (lost : Bool) :
    Keeps host base cwd w p (fm.lapse w pushed lost).1 (fm.lapse w pushed lost).2 := by
  cases hf : fm.fileHandle with
  | none =>
    rw [lapse_closed hf]
    exact keeps_self h
  | some f =>
    have hsame : SameOutside (Ours host base cwd) w.fs (f.lapse w.fs pushed lost).2 :=
      sameOutside_append (h.stream f hf) _
    rw [lapse_open hf]
    refine ⟨hsame, h.baseName, fun _ => h.named (hf ▸ Option.some_ne_none f), fun f' hf' => ?_⟩
    obtain rfl := Option.some.inj hf'
    exact hsame.within (h.stream f hf)

/-! ### Runs -/

/-- The files of the processes, and their managers. -/
structure Contained (base : Text) (cwd : ℤ → Text) (w : World host) (s : State host) : Prop where
  files : SameOutside (Ours host base cwd) w.fs s.world.fs
  managers : ∀ p fm, s.managers p = some fm → Tame host base cwd s.world.fs p fm

variable {s s' : State host} {a : Act} {e : Event}

theorem contained_init (w : World host) : Contained base cwd w (init w) := ⟨.refl _ _, nofun⟩

/-- One process goes on with a manager that keeps to its places. -/
theorem Contained.put (h : Contained base cwd w s) {r : Bool × FileManager × World host}
    (hkeeps : Keeps host base cwd s.world p r.2.1 r.2.2) : Contained base cwd w (s.put p r) := by
  obtain ⟨hsame, htame⟩ := hkeeps
  refine ⟨h.files.trans hsame, ?_⟩
  intro q fm hq
  rcases of_update_some hq with ⟨rfl, rfl⟩ | ⟨-, hq⟩
  · exact htame
  · exact (h.managers q fm hq).frame hsame

theorem Contained.drop (h : Contained base cwd w s)
    (hsame : SameOutside (Ours host base cwd) s.world.fs w'.fs) :
    Contained base cwd w (s.drop p w') := by
  refine ⟨h.files.trans hsame, ?_⟩
  intro q fm hq
  exact (h.managers q fm (of_update_none hq).2).frame hsame

theorem Contained.elect (h : Contained base cwd w s) (p : ℤ) (fm : FileManager)
    (answers : InitAnswers) (fileName : Text) :
    Contained base cwd w (s.elect p fm answers fileName) := by
  unfold State.elect
  split
  · exact ⟨h.files, h.managers⟩
  · exact h

/-- **Every step keeps to the places of the processes.** -/
theorem Contained.step (hcwd : ∀ p, host.isAbsolute (cwd p) = true) (h : Contained base cwd w s)
    (hnext : Processes.next base cwd s (p, a) = some s') : Contained base cwd w s' := by
  unfold Processes.next at hnext
  dsimp only at hnext
  split at hnext
  case h_1 maxSize retentionCount _ =>
    obtain rfl := Option.some.inj hnext
    refine ⟨h.files, ?_⟩
    intro q fm hq
    rcases of_update_some hq with ⟨rfl, rfl⟩ | ⟨-, hq⟩
    · exact tame_of_none rfl rfl
    · exact h.managers q fm hq
  case h_2 fm answers hm =>
    obtain rfl := Option.some.inj hnext
    have hkeeps := tame_initializeAs (hcwd p) (h.managers p fm hm) answers
    refine (h.elect p fm answers _).put ?_
    unfold State.elect
    split <;> exact hkeeps
  case h_3 fm data answers hm =>
    exact Option.some.inj hnext ▸ h.put (tame_write (h.managers p fm hm) data answers)
  case h_4 fm answers hm =>
    exact Option.some.inj hnext ▸ h.put (tame_flush (h.managers p fm hm) answers)
  case h_5 fm answers hm =>
    exact Option.some.inj hnext ▸ h.put (tame_rotate (hcwd p) (h.managers p fm hm) answers)
  case h_6 fm hm => exact Option.some.inj hnext ▸ h.drop (sameOutside_destroy (h.managers p fm hm))
  case h_7 fm hm =>
    refine Option.some.inj hnext ▸ h.drop ?_
    rw [fs_die]
    exact .refl _ _
  case h_8 => contradiction

theorem Contained.stepEvent (hcwd : ∀ p, host.isAbsolute (cwd p) = true)
    (h : Contained base cwd w s) (hnext : nextEvent base cwd s (p, e) = some s') :
    Contained base cwd w s' := by
  cases e with
  | act a => exact h.step hcwd hnext
  | lapse pushed lost =>
    obtain ⟨fm, hp, rfl⟩ := Option.map_eq_some_iff.mp hnext
    exact h.put (tame_lapse (h.managers p fm hp) pushed lost)
  | rotateThrows renames =>
    obtain ⟨fm, hp, rfl⟩ := Option.map_eq_some_iff.mp hnext
    exact h.put (tame_rotateThrows (hcwd p) (h.managers p fm hp) renames)

/-- **Logging touches no other file**: in every run of any processes with one base name, each
in a current directory of its own, whatever fails and whoever crashes, a place that is not
`base.log`, `base_pid.log` or `base.1.log` has the content that it had at first, and what
`Rotate` calls to delete old files removes nothing.  So nothing but these is ever made,
changed, replaced or deleted. -/
theorem footprint (hcwd : ∀ p, host.isAbsolute (cwd p) = true)
    (h : Reachable (nextEvent base cwd) Always (init w) s) :
    (∀ place : host.Place, ¬ Ours host base cwd place →
      s.world.fs.content place = w.fs.content place) ∧
    ∀ p fm, s.managers p = some fm → fm.fileHandle ≠ none → ∀ (w' : World host) remove,
      (fm.withHandle none).deleteOldestFiles w' (cwd p) remove = w' := by
  have hcontained : Contained base cwd w s := by
    refine h.invariant (I := Contained base cwd w) (contained_init w) ?_
    rintro s ⟨p, e⟩ s' - h - hnext
    exact h.stepEvent hcwd hnext
  refine ⟨fun place hplace => hcontained.files.content hplace, fun p fm hp hopen => ?_⟩
  exact (hcontained.managers p fm hp).deletesNothing (hcwd p) hopen

omit [DecidableEq δ] in
/-- A number other than one is never given. -/
theorem not_ours_of_sequence (habs : host.isAbsolute base = true) {n : ℤ} (hn : n ≠ 1) :
    ¬ Ours host base cwd (host.locate (base ++ sequenceSuffix n)) := by
  have hbase : ∀ p, logBase host base cwd p = base := fun _ => if_pos habs
  rintro ⟨p, ending, hending, hplace⟩
  rw [hbase p] at hplace
  rcases hending with ⟨first, rfl⟩ | rfl
  · rw [Host.locate_append_inj (plain_sequenceSuffix n) (plain_processSuffix _ _)] at hplace
    exact processSuffix_ne_sequenceSuffix first p n hplace.symm
  · rw [Host.locate_append_inj (plain_sequenceSuffix n) (plain_sequenceSuffix 1)] at hplace
    exact hn (sequenceSuffix_injective hplace)

/-- A process that writes and rotates twice. -/
def rotatingTwice : List (ℤ × Act) :=
  writing 7 ++ [(7, .rotate ⟨true, fun _ => true, true⟩),
    (7, .write "on\n".toList ⟨3, 3, true, true⟩), (7, .rotate ⟨true, fun _ => true, true⟩)]

theorem footprint_rotatingTwice : ∃ s : State Host.posix,
    Reachable (nextEvent "/logs/app".toList fun _ => ['/']) Always
      (init (.empty Host.posix)) s ∧
    s.world.fs.content (Host.posix.locate "/logs/app.1.log".toList) = some "on\n".toList ∧
      s.world.fs.content (Host.posix.locate "/logs/app.2.log".toList) = none := by
  obtain ⟨s, hs, hfirst⟩ := exists_reachable_of_decide
    (nextEvent "/logs/app".toList fun _ => ['/']) (init (.empty Host.posix))
    (fun s => s.world.fs.content (Host.posix.locate "/logs/app.1.log".toList) =
      some "on\n".toList) Always (asEvents rotatingTwice) (by decide +kernel)
  refine ⟨s, hs, hfirst, ?_⟩
  exact (footprint (fun _ => rfl) hs).1 _ (not_ours_of_sequence (n := 2) rfl (by decide))

end Processes
end SpeckitLog
