import SpeckitLog.FileManager.Steps

/-!
# Calling `Initialize` again

`Initialize` creates the named object of the base name before it opens the file, and
does not give it back when the file cannot be opened.  The next call finds the object
and takes its own process for another one.

## Main definitions

* `FileManager.retry` — failed calls, one after the other.
* `FileManager.LeavesNoTrace` — a call that succeeds does the same with failed calls
  before it as without.

## Main results

* `FileManager.leavesNoTrace_iff` — when failed calls leave no trace.
-/

namespace SpeckitLog
namespace FileManager

open Function

variable {δ : Type*} [DecidableEq δ] {host : Host δ}

/-! ### The named object -/

/-- The name of the mutex or the semaphore. -/
def objectName (host : Host δ) (filename : Text) : Text :=
  match host.os with
  | .windows => mutexName filename
  | .macos => semaphoreName host.hash filename

/-- The object is created. -/
def withObject (w : World host) (filename : Text) : World host :=
  match host.os with
  | .windows => { w with mutexes := mutexName filename :: w.mutexes }
  | .macos => setSemaphore w (semaphoreName host.hash filename) 1

theorem taken_withObject (w : World host) (filename : Text) :
    Taken (withObject w filename) filename := by
  cases hos : host.os with
  | windows =>
    simp only [Taken, withObject, hos]
    exact List.mem_cons_self
  | macos =>
    simp only [Taken, withObject, hos, setSemaphore, update_self]
    exact Option.some_ne_none 1

variable {w w' : World host} {fm fm' : FileManager} {filename : Text} {createObject another : Bool}

/-- Who can create the object is first. -/
theorem Elected.first (h : Elected fm w filename createObject another fm' w')
    (hcreate : createObject = true) (hfree : ¬ Taken w filename) :
    another = false ∧ fm' = { fm with mutexHandle := some (objectName host filename) } ∧
      w' = withObject w filename := by
  cases h with
  | other h => exact absurd (h hcreate) hfree
  | mutex hos _ _ => simp only [objectName, withObject, hos, and_self]
  | semaphore hos _ _ => simp only [objectName, withObject, hos, and_self]

/-- Who cannot is not, and leaves everything as it is. -/
theorem Elected.notFirst (h : Elected fm w filename createObject another fm' w')
    (hcreate : createObject = true → Taken w filename) :
    another = true ∧ fm' = fm ∧ w' = w := by
  cases h with
  | other _ => exact ⟨rfl, rfl, rfl⟩
  | mutex hos hc hfree =>
    have := hcreate hc
    simp only [Taken, hos] at this
    exact absurd this hfree
  | semaphore hos hc hfree =>
    have := hcreate hc
    simp only [Taken, hos] at this
    exact absurd hfree this

theorem taken_withFiles (w : World host) (fs : FileSystem host.Place) :
    Taken (withFiles w fs) filename ↔ Taken w filename := by
  cases hos : host.os <;> simp only [Taken, withFiles, hos]

/-! ### Failed calls -/

/-- The call meets an error. -/
def Fails (answers : InitAnswers) : Prop :=
  answers.parentDirectory = false ∨ answers.openFile = false

/-- The call gets as far as the named object, and the system would create it. -/
def Elects (answers : InitAnswers) : Prop :=
  answers.parentDirectory = true ∧ answers.createObject = true

/-- The file can be opened. -/
def Opens (answers : InitAnswers) : Prop :=
  answers.parentDirectory = true ∧ answers.openFile = true

/-- The manager and the world after some calls. -/
def retry (cwd : Text) (processId : ℤ) :
    List InitAnswers → FileManager → World host → FileManager × World host
  | [], fm, w => (fm, w)
  | answers :: attempts, fm, w =>
    let (_, fm, w) := fm.initializeAs w cwd processId answers
    retry cwd processId attempts fm w

/-- The name that the named object is for. -/
def ownFilename (host : Host δ) (cwd : Text) (fm : FileManager) : Text :=
  (host.filename (absoluteBase host cwd fm.baseName)).1

/-- The manager has not been initialized, and will do so as the other one. -/
structure StartsAs (host : Host δ) (cwd : Text) (fm fm' : FileManager) : Prop where
  initialized : fm'.initialized = false
  base : absoluteBase host cwd fm'.baseName = absoluteBase host cwd fm.baseName
  maxSize : fm'.maxSize = fm.maxSize
  retentionCount : fm'.retentionCount = fm.retentionCount
  mutexHandle : fm'.mutexHandle = fm.mutexHandle

omit [DecidableEq δ] in
theorem StartsAs.ownFilename {cwd : Text} (h : StartsAs host cwd fm fm') :
    ownFilename host cwd fm' = ownFilename host cwd fm := by
  unfold FileManager.ownFilename
  rw [h.base]

omit [DecidableEq δ] in
theorem absoluteBase_absoluteBase {cwd : Text} (hcwd : host.isAbsolute cwd = true)
    (baseName : Text) :
    absoluteBase host cwd (absoluteBase host cwd baseName) = absoluteBase host cwd baseName := by
  rw [absoluteBase, if_pos (isAbsolute_absoluteBase hcwd baseName)]

variable {cwd : Text} (processId : ℤ) {answers : InitAnswers}

/-- **A failed call that creates no object** changes nothing that the next call reads. -/
theorem startsAs_of_fails (hcwd : host.isAbsolute cwd = true) (hinit : fm.initialized = false)
    (hfails : Fails answers) (hquiet : Elects answers → Taken w (ownFilename host cwd fm)) :
    StartsAs host cwd fm (fm.initializeAs w cwd processId answers).2.1 ∧
      (fm.initializeAs w cwd processId answers).2.2 = w := by
  cases hdir : answers.parentDirectory with
  | false =>
    rw [initializeAs_noDirectory hinit w cwd processId hdir]
    exact ⟨⟨hinit, absoluteBase_absoluteBase hcwd _, rfl, rfl, rfl⟩, rfl⟩
  | true =>
    have hopen : answers.openFile = false :=
      hfails.resolve_left fun hno => absurd (hdir.symm.trans hno) (by decide)
    obtain ⟨another, fm₁, w₁, helect, heq⟩ :=
      initializeAs_notOpened hinit w cwd processId hdir hopen
    obtain ⟨-, rfl, rfl⟩ := helect.notFirst fun hcreate => hquiet ⟨hdir, hcreate⟩
    rw [heq]
    exact ⟨⟨hinit, absoluteBase_absoluteBase hcwd _, rfl, rfl, rfl⟩, rfl⟩

/-- What every failed call leaves behind. -/
structure Retried (w : World host) (cwd : Text) (fm fm' : FileManager) (w' : World host) :
    Prop where
  initialized : fm'.initialized = false
  base : absoluteBase host cwd fm'.baseName = absoluteBase host cwd fm.baseName
  taken : Taken w (ownFilename host cwd fm) → Taken w' (ownFilename host cwd fm)

theorem Retried.ownFilename (h : Retried w cwd fm fm' w') :
    ownFilename host cwd fm' = ownFilename host cwd fm := by
  unfold FileManager.ownFilename
  rw [h.base]

/-- **A failed call keeps the object**, and one that gets that far creates it. -/
theorem retried_of_fails (hcwd : host.isAbsolute cwd = true) (hinit : fm.initialized = false)
    (hfails : Fails answers) :
    Retried w cwd fm (fm.initializeAs w cwd processId answers).2.1
        (fm.initializeAs w cwd processId answers).2.2 ∧
      (Elects answers →
        Taken (fm.initializeAs w cwd processId answers).2.2 (ownFilename host cwd fm)) := by
  by_cases hquiet : Elects answers → Taken w (ownFilename host cwd fm)
  · obtain ⟨hstart, hworld⟩ := startsAs_of_fails processId hcwd hinit hfails hquiet
    rw [hworld]
    exact ⟨⟨hstart.initialized, hstart.base, id⟩, hquiet⟩
  · obtain ⟨⟨hdir, hcreate⟩, hfree⟩ := Classical.not_imp.mp hquiet
    have hopen : answers.openFile = false :=
      hfails.resolve_left fun hno => absurd (hdir.symm.trans hno) (by decide)
    obtain ⟨another, fm₁, w₁, helect, heq⟩ :=
      initializeAs_notOpened hinit w cwd processId hdir hopen
    obtain ⟨-, rfl, rfl⟩ := helect.first hcreate hfree
    rw [heq]
    exact ⟨⟨hinit, absoluteBase_absoluteBase hcwd _, fun _ => taken_withObject _ _⟩,
      fun _ => taken_withObject _ _⟩

/-- Failed calls that create no object change nothing that the next call reads. -/
theorem retry_startsAs (hcwd : host.isAbsolute cwd = true) {attempts : List InitAnswers}
    (hinit : fm.initialized = false) (hfails : ∀ answers ∈ attempts, Fails answers)
    (hquiet : Taken w (ownFilename host cwd fm) ∨ ∀ answers ∈ attempts, ¬ Elects answers) :
    StartsAs host cwd fm (retry cwd processId attempts fm w).1 ∧
      (retry cwd processId attempts fm w).2 = w := by
  induction attempts generalizing fm with
  | nil => exact ⟨⟨hinit, rfl, rfl, rfl, rfl⟩, rfl⟩
  | cons answers attempts ih =>
    have hquiet' : Elects answers → Taken w (ownFilename host cwd fm) := fun helects =>
      hquiet.resolve_right fun hnone => hnone answers List.mem_cons_self helects
    obtain ⟨hstart, hworld⟩ := startsAs_of_fails processId hcwd hinit
      (hfails answers List.mem_cons_self) hquiet'
    obtain ⟨hrest, hrest'⟩ := ih hstart.initialized
      (fun a ha => hfails a (List.mem_cons_of_mem _ ha))
      (by
        rw [hstart.ownFilename]
        exact hquiet.imp id fun hnone a ha => hnone a (List.mem_cons_of_mem _ ha))
    unfold retry
    dsimp only
    rw [hworld]
    exact ⟨⟨hrest.initialized, hrest.base.trans hstart.base, hrest.maxSize.trans hstart.maxSize,
      hrest.retentionCount.trans hstart.retentionCount,
      hrest.mutexHandle.trans hstart.mutexHandle⟩, hrest'⟩

/-- Failed calls keep the object, and create it when one of them gets that far. -/
theorem retry_retried (hcwd : host.isAbsolute cwd = true) {attempts : List InitAnswers}
    (hinit : fm.initialized = false) (hfails : ∀ answers ∈ attempts, Fails answers) :
    Retried w cwd fm (retry cwd processId attempts fm w).1
        (retry cwd processId attempts fm w).2 ∧
      ((∃ answers ∈ attempts, Elects answers) →
        Taken (retry cwd processId attempts fm w).2 (ownFilename host cwd fm)) := by
  induction attempts generalizing fm w with
  | nil => exact ⟨⟨hinit, rfl, id⟩, by simp⟩
  | cons answers attempts ih =>
    obtain ⟨hstep, helects⟩ := retried_of_fails (w := w) processId hcwd hinit
      (hfails answers List.mem_cons_self)
    obtain ⟨hrest, hrest'⟩ := ih (w := (fm.initializeAs w cwd processId answers).2.2)
      hstep.initialized (fun a ha => hfails a (List.mem_cons_of_mem _ ha))
    rw [hstep.ownFilename] at hrest'
    have hkept := hrest.taken
    rw [hstep.ownFilename] at hkept
    unfold retry
    dsimp only
    refine ⟨⟨hrest.initialized, hrest.base.trans hstep.base, fun h => hkept (hstep.taken h)⟩, ?_⟩
    rintro ⟨a, ha, haelects⟩
    rcases List.mem_cons.mp ha with rfl | ha
    · exact hkept (helects haelects)
    · exact hrest' ⟨a, ha, haelects⟩

/-! ### The call that succeeds -/

/-- **A call that succeeds** does the same for managers that start alike. -/
theorem initializeAs_eq_of_startsAs (hinit : fm.initialized = false)
    (h : StartsAs host cwd fm fm') (hopens : Opens answers) :
    fm'.initializeAs w cwd processId answers = fm.initializeAs w cwd processId answers := by
  obtain ⟨another, fm₁, w₁, n, fs, helect, hfile, heq⟩ :=
    initializeAs_opened hinit w cwd processId hopens.1 hopens.2
  obtain ⟨another', fm₁', w₁', n', fs', helect', hfile', heq'⟩ :=
    initializeAs_opened h.initialized w cwd processId hopens.1 hopens.2
  rw [h.base] at helect'
  by_cases hfirst : answers.createObject = true ∧ ¬ Taken w (ownFilename host cwd fm)
  · obtain ⟨rfl, rfl, rfl⟩ := helect.first hfirst.1 hfirst.2
    obtain ⟨rfl, rfl, rfl⟩ := helect'.first hfirst.1 hfirst.2
    rw [generateFileName_eq] at hfile hfile'
    obtain ⟨rfl, rfl⟩ := Prod.mk.inj (hfile.symm.trans hfile')
    rw [heq, heq', generateFileName_eq, generateFileName_eq]
    simp only [h.maxSize, h.retentionCount]
  · have htaken : answers.createObject = true → Taken w (ownFilename host cwd fm) := by
      intro hcreate
      by_contra hfree
      exact hfirst ⟨hcreate, hfree⟩
    obtain ⟨rfl, rfl, rfl⟩ := helect.notFirst htaken
    obtain ⟨rfl, rfl, rfl⟩ := helect'.notFirst htaken
    rw [generateFileName_eq] at hfile hfile'
    obtain ⟨rfl, rfl⟩ := Prod.mk.inj (hfile.symm.trans hfile')
    rw [heq, heq', generateFileName_eq, generateFileName_eq]
    simp only [h.maxSize, h.retentionCount, h.mutexHandle]

/-- Who finds the object takes the name with its id, and leaves the object. -/
theorem opened_of_taken (hinit : fm.initialized = false) (hopens : Opens answers)
    (htaken : Taken w (ownFilename host cwd fm)) :
    (fm.initializeAs w cwd processId answers).2.1.currentFileName =
        absoluteBase host cwd fm.baseName ++ processSuffix false processId ∧
      Taken (fm.initializeAs w cwd processId answers).2.2 (ownFilename host cwd fm) := by
  obtain ⟨another, fm₁, w₁, n, fs, helect, -, heq⟩ :=
    initializeAs_opened hinit w cwd processId hopens.1 hopens.2
  obtain ⟨rfl, rfl, rfl⟩ := helect.notFirst fun _ => htaken
  rw [heq]
  refine ⟨?_, (taken_withFiles w₁ fs).mpr htaken⟩
  dsimp only
  rw [generateFileName_eq]
  rfl

/-- Who finds no object takes the base name when it can create the object, and otherwise
leaves none. -/
theorem opened_of_free (hinit : fm.initialized = false) (hopens : Opens answers)
    (hfree : ¬ Taken w (ownFilename host cwd fm)) :
    (answers.createObject = true →
        (fm.initializeAs w cwd processId answers).2.1.currentFileName =
          absoluteBase host cwd fm.baseName ++ processSuffix true processId) ∧
      (answers.createObject = false →
        ¬ Taken (fm.initializeAs w cwd processId answers).2.2 (ownFilename host cwd fm)) := by
  obtain ⟨another, fm₁, w₁, n, fs, helect, -, heq⟩ :=
    initializeAs_opened hinit w cwd processId hopens.1 hopens.2
  rw [heq]
  constructor
  · intro hcreate
    obtain ⟨rfl, rfl, rfl⟩ := helect.first hcreate hfree
    dsimp only
    rw [generateFileName_eq]
    rfl
  · intro hcreate
    obtain ⟨rfl, rfl, rfl⟩ := helect.notFirst fun h => absurd (hcreate.symm.trans h) (by decide)
    exact fun h => hfree ((taken_withFiles w₁ fs).mp h)

/-- The call does the same with the failed calls before it as without them, and who finds
no object takes the base name. -/
structure LeavesNoTrace (fm : FileManager) (w : World host) (cwd : Text) (processId : ℤ)
    (attempts : List InitAnswers) (answers : InitAnswers) : Prop where
  same : (retry cwd processId attempts fm w).1.initializeAs (retry cwd processId attempts fm w).2
    cwd processId answers = fm.initializeAs w cwd processId answers
  base : ¬ Taken w (ownFilename host cwd fm) → answers.createObject = true →
    ((retry cwd processId attempts fm w).1.initializeAs (retry cwd processId attempts fm w).2
      cwd processId answers).2.1.currentFileName =
        absoluteBase host cwd fm.baseName ++ ".log".toList

/-- **When failed calls leave no trace**: the object of the base name is there already, or
no failed call creates it. -/
theorem leavesNoTrace_iff (hcwd : host.isAbsolute cwd = true) (hinit : fm.initialized = false)
    {attempts : List InitAnswers} (hfails : ∀ answers ∈ attempts, Fails answers)
    (hopens : Opens answers) :
    LeavesNoTrace fm w cwd processId attempts answers ↔
      Taken w (ownFilename host cwd fm) ∨ ∀ answers ∈ attempts, ¬ Elects answers := by
  constructor
  · intro h
    by_contra hnot
    obtain ⟨hfree, hsome⟩ := not_or.mp hnot
    have helects : ∃ answers ∈ attempts, Elects answers := by
      by_contra hnone
      exact hsome fun a ha haelects => hnone ⟨a, ha, haelects⟩
    obtain ⟨hretried, htaken⟩ := retry_retried (w := w) processId hcwd hinit hfails
    obtain ⟨hname, hleft⟩ := opened_of_taken (w := (retry cwd processId attempts fm w).2) processId
      hretried.initialized hopens (by rw [hretried.ownFilename]; exact htaken helects)
    rw [h.same] at hname hleft
    rw [hretried.base] at hname
    rw [hretried.ownFilename] at hleft
    obtain ⟨hfirst, hnone⟩ := opened_of_free processId hinit hopens hfree
    cases hcreate : answers.createObject with
    | false => exact hnone hcreate hleft
    | true =>
      exact processSuffix_ne_first processId processId
        (List.append_cancel_left (hname.symm.trans (hfirst hcreate)))
  · intro h
    obtain ⟨hstart, hworld⟩ := retry_startsAs processId hcwd hinit hfails h
    have hsame : (retry cwd processId attempts fm w).1.initializeAs
        (retry cwd processId attempts fm w).2 cwd processId answers =
          fm.initializeAs w cwd processId answers := by
      rw [hworld]
      exact initializeAs_eq_of_startsAs processId hinit hstart hopens
    refine ⟨hsame, fun hfree hcreate => ?_⟩
    rw [hsame]
    exact (opened_of_free processId hinit hopens hfree).1 hcreate

theorem leavesNoTrace_iff_noDirectory :
    LeavesNoTrace (configured "/logs/app".toList 10 3) (.empty Host.posix) ['/'] 7
      [⟨false, true, true⟩] ⟨true, true, true⟩ :=
  (leavesNoTrace_iff 7 rfl rfl (by simp [Fails]) ⟨rfl, rfl⟩).mpr (Or.inr (by simp [Elects]))

/-- **A file that cannot be opened at first**: the process then finds its own object, on
Windows and on macOS. -/
theorem not_leavesNoTrace_notOpened :
    ¬ LeavesNoTrace (configured "C:\\logs\\app".toList 10 3) (.empty Host.windows)
        "C:\\".toList 7 [⟨true, true, false⟩] ⟨true, true, true⟩ ∧
      ¬ LeavesNoTrace (configured "/logs/app".toList 10 3) (.empty Host.posix) ['/'] 7
        [⟨true, true, false⟩] ⟨true, true, true⟩ := by
  constructor
  · intro h
    have hname := congrArg (fun r => r.2.1.currentFileName) h.same
    exact absurd hname (by decide +kernel)
  · intro h
    have hname := congrArg (fun r => r.2.1.currentFileName) h.same
    exact absurd hname (by decide +kernel)

end FileManager
end SpeckitLog
