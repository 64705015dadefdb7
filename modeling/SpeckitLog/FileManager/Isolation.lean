import SpeckitLog.FileManager.Processes

/-!
# Isolation of the processes on Windows

The first process holds the named mutex and writes `base.log`; the others write
files with their process ids.  `Rotate` forgets which of the two a process is: it
goes on with `base.log` in every process.  The processes stay apart in the runs in
which only the holder of the mutex completes a rotation.

## Main definitions

* `Processes.Isolated` — no two processes write one file.
* `Processes.HolderRotates` — only the holder of the mutex renames its file.

## Main results

* `Processes.isolated` — with that discipline the processes are isolated.
* `Processes.not_isolated_rotate` — a rotation of the second process.
-/

namespace SpeckitLog
namespace Processes

open Function Transition FileManager

variable {δ : Type*} [DecidableEq δ] {host : Host δ}

/-- **No two processes write one file**: the file names differ, the open files
differ, and the file that a rotation of one process would rename is not open in
another. -/
structure Isolated (s : State host) : Prop where
  names : ∀ p q fm fm', p ≠ q → s.managers p = some fm → s.managers q = some fm' →
    fm.initialized = true → fm'.initialized = true → fm.currentFileName ≠ fm'.currentFileName
  files : ∀ p q fm fm' f f', p ≠ q → s.managers p = some fm → s.managers q = some fm' →
    fm.fileHandle = some f → fm'.fileHandle = some f' → f.file ≠ f'.file
  sources : ∀ p q fm fm' f', p ≠ q → s.managers p = some fm → s.managers q = some fm' →
    fm.initialized = true → fm'.fileHandle = some f' →
    s.world.fs.lookup (host.locate fm.currentFileName) ≠ some f'.file

/-- A process whose file a rotation renames holds the mutex. -/
def HolderRotates (s : State host) (a : ℤ × Act) : Prop :=
  ∀ answers fm, a.2 = .rotate answers → s.managers a.1 = some fm → fm.fileHandle ≠ none →
    answers.rename = true → fm.mutexHandle ≠ none

/-- What holds of the manager of process `p`. -/
structure Local (base : Text) (w : World host) (p : ℤ) (fm : FileManager) : Prop where
  baseName : fm.baseName = base
  mutex : fm.mutexHandle ≠ none → mutexName (host.filename base).1 ∈ w.mutexes ∧
    fm.mutexHandle = some (mutexName (host.filename base).1)
  named : fm.initialized = true → ∃ first, fm.currentFileName = base ++ processSuffix first p ∧
    (first = true → fm.mutexHandle ≠ none)
  stream : ∀ f, fm.fileHandle = some f → fm.initialized = true ∧
    w.fs.lookup (host.locate fm.currentFileName) = some f.file

/-- Every manager is in order, and at most one holds the mutex. -/
structure Inv (base : Text) (s : State host) : Prop where
  managers : ∀ p fm, s.managers p = some fm → Local base s.world p fm
  holder : ∀ p q fm fm', s.managers p = some fm → s.managers q = some fm' →
    fm.mutexHandle ≠ none → fm'.mutexHandle ≠ none → p = q

variable {base : Text} {cwd : ℤ → Text} {s s' : State host} {p q : ℤ} {fm fm' : FileManager}
  {w w' : World host}

/-! ### The names of different processes -/

theorem processSuffix_ne (hpq : p ≠ q) {first first' : Bool}
    (h : first = true → first' = true → False) :
    processSuffix first p ≠ processSuffix first' q := by
  cases first with
  | false =>
    cases first' with
    | false => exact fun heq => hpq (processSuffix_injective heq)
    | true => exact processSuffix_ne_first p q
  | true =>
    cases first' with
    | false => exact (processSuffix_ne_first q p).symm
    | true => exact (h rfl rfl).elim

omit [DecidableEq δ] in
theorem place_ne {t t' : Text} (ht : host.Plain t) (ht' : host.Plain t') (h : t ≠ t') :
    host.locate (base ++ t) ≠ host.locate (base ++ t') :=
  fun heq => h ((Host.locate_append_inj ht ht').mp heq)

/-- Two initialized processes have different suffixes. -/
theorem Inv.suffix_ne (h : Inv base s) (hpq : p ≠ q) (hp : s.managers p = some fm)
    (hq : s.managers q = some fm') {first first' : Bool}
    (hfirst : first = true → fm.mutexHandle ≠ none)
    (hfirst' : first' = true → fm'.mutexHandle ≠ none) :
    processSuffix first p ≠ processSuffix first' q :=
  processSuffix_ne hpq fun ht ht' => hpq (h.holder p q fm fm' hp hq (hfirst ht) (hfirst' ht'))

/-- **The invariant isolates the processes.** -/
theorem isolated_of_inv (h : Inv base s) : Isolated s := by
  have hplaces : ∀ p q fm fm', p ≠ q → s.managers p = some fm → s.managers q = some fm' →
      fm.initialized = true → fm'.initialized = true →
      host.locate fm.currentFileName ≠ host.locate fm'.currentFileName := by
    intro p q fm fm' hpq hp hq hinit hinit'
    obtain ⟨first, hname, hfirst⟩ := (h.managers p fm hp).named hinit
    obtain ⟨first', hname', hfirst'⟩ := (h.managers q fm' hq).named hinit'
    rw [hname, hname']
    exact place_ne (plain_processSuffix _ _) (plain_processSuffix _ _)
      (h.suffix_ne hpq hp hq hfirst hfirst')
  have hsources : ∀ p q fm fm' f', p ≠ q → s.managers p = some fm → s.managers q = some fm' →
      fm.initialized = true → fm'.fileHandle = some f' →
      s.world.fs.lookup (host.locate fm.currentFileName) ≠ some f'.file := by
    intro p q fm fm' f' hpq hp hq hinit hf' hlookup
    obtain ⟨hinit', hlookup'⟩ := (h.managers q fm' hq).stream f' hf'
    exact hplaces p q fm fm' hpq hp hq hinit hinit' (s.world.fs.single _ _ _ hlookup hlookup')
  refine ⟨fun p q fm fm' hpq hp hq hinit hinit' heq => ?_, fun p q fm fm' f f' hpq hp hq hf hf' heq
    => ?_, hsources⟩
  · exact hplaces p q fm fm' hpq hp hq hinit hinit' (by rw [heq])
  · obtain ⟨hinit, hlookup⟩ := (h.managers p fm hp).stream f hf
    exact hsources p q fm fm' f' hpq hp hq hinit hf' (by rw [hlookup, heq])

/-! ### One step -/

/-- The world may change as long as the mutex and the open files stay. -/
theorem Local.frame (h : Local base w p fm)
    (hmutex : fm.mutexHandle ≠ none → mutexName (host.filename base).1 ∈ w'.mutexes)
    (hfiles : ∀ f, fm.fileHandle = some f →
      w'.fs.lookup (host.locate fm.currentFileName) =
        w.fs.lookup (host.locate fm.currentFileName)) :
    Local base w' p fm where
  baseName := h.baseName
  mutex hm := ⟨hmutex hm, (h.mutex hm).2⟩
  named := h.named
  stream f hf := ⟨(h.stream f hf).1, (hfiles f hf).trans (h.stream f hf).2⟩

/-- While one process holds the mutex, no other does. -/
theorem Inv.free_of_holder (h : Inv base s) (hp : s.managers p = some fm)
    (hm : fm.mutexHandle ≠ none) (hqp : q ≠ p) (hq : s.managers q = some fm') :
    fm'.mutexHandle = none := by
  by_contra hmq
  exact hqp (h.holder q p fm' fm hq hp hmq hm)

/-- One process goes on with a new manager. -/
theorem Inv.update (h : Inv base s) (hmanagers : s'.managers = update s.managers p (some fm'))
    (hp : Local base s'.world p fm')
    (hothers : ∀ q fmq, q ≠ p → s.managers q = some fmq → Local base s'.world q fmq)
    (hholder : fm'.mutexHandle ≠ none → ∀ q fmq, q ≠ p → s.managers q = some fmq →
      fmq.mutexHandle = none) : Inv base s' := by
  refine ⟨fun q fmq hq => ?_, fun q r fmq fmr hq hr hmq hmr => ?_⟩
  · rw [hmanagers] at hq
    rcases of_update_some hq with ⟨rfl, rfl⟩ | ⟨hqp, hq⟩
    · exact hp
    · exact hothers q fmq hqp hq
  · rw [hmanagers] at hq hr
    rcases of_update_some hq with ⟨hqp, rfl⟩ | ⟨hqp, hq⟩ <;>
      rcases of_update_some hr with ⟨hrp, rfl⟩ | ⟨hrp, hr⟩
    · rw [hqp, hrp]
    · exact absurd (hholder hmq r fmr hrp hr) hmr
    · exact absurd (hholder hmr q fmq hqp hq) hmq
    · exact h.holder q r fmq fmr hq hr hmq hmr

/-- One process is gone. -/
theorem Inv.drop (h : Inv base s) (hmanagers : s'.managers = Function.update s.managers p none)
    (hothers : ∀ q fmq, q ≠ p → s.managers q = some fmq → Local base s'.world q fmq) :
    Inv base s' := by
  have hold : ∀ {q fmq}, s'.managers q = some fmq → q ≠ p ∧ s.managers q = some fmq :=
    fun hq => of_update_none (hmanagers ▸ hq)
  exact ⟨fun q fmq hq => hothers q fmq (hold hq).1 (hold hq).2,
    fun q r fmq fmr hq hr => h.holder q r fmq fmr (hold hq).2 (hold hr).2⟩

/-- A process starts with a manager that has no file. -/
theorem Inv.start (h : Inv base s) {maxSize retentionCount : ℕ}
    (hmanagers : s'.managers = Function.update s.managers p
      (some (configured base maxSize retentionCount))) (hworld : s'.world = s.world) :
    Inv base s' := by
  refine h.update hmanagers ⟨rfl, fun hm => absurd rfl hm, nofun, nofun⟩
    (fun q fmq _ hq => ?_) fun hm => absurd rfl hm
  rw [hworld]
  exact h.managers q fmq hq

/-- A write changes no directory. -/
theorem Inv.write (h : Inv base s) (hp : s.managers p = some fm)
    {r : Bool × FileManager × World host} (hr : Written fm s.world r.2.1 r.2.2) :
    Inv base (s.put p r) := by
  have hlookup : ∀ place, r.2.2.fs.lookup place = s.world.fs.lookup place := fun place =>
    congrArg (fun entries => AList.lookup place entries) hr.entries
  have hmutexes : r.2.2.mutexes = s.world.mutexes := by rw [hr.world]; rfl
  have hother : ∀ q fmq, s.managers q = some fmq → Local base r.2.2 q fmq := fun q fmq hq =>
    (h.managers q fmq hq).frame
      (fun hm => by rw [hmutexes]; exact ((h.managers q fmq hq).mutex hm).1) fun f _ => hlookup _
  have hmine := hother p fm hp
  have hself : Local base r.2.2 p r.2.1 := by
    rw [hr.manager]
    refine ⟨hmine.baseName, hmine.mutex, hmine.named, fun f hf => ?_⟩
    have hfile := hr.file
    rw [show r.2.1.fileHandle = some f from hf] at hfile
    obtain ⟨f₀, hf₀, hsame⟩ := Option.map_eq_some_iff.mp hfile.symm
    rw [← hsame]
    exact hmine.stream f₀ hf₀
  refine h.update rfl hself (fun q fmq _ hq => hother q fmq hq) fun hm q fmq hqp hq => ?_
  rw [hr.manager] at hm
  exact h.free_of_holder hp hm hqp hq

/-- What an election does on Windows. -/
theorem elected_windows (hos : host.os = .windows) {filename : Text} {createObject another : Bool}
    (h : Elected fm w filename createObject another fm' w') :
    another = true ∧ fm' = fm ∧ w' = w ∨
      another = false ∧ mutexName filename ∉ w.mutexes ∧
        fm' = { fm with mutexHandle := some (mutexName filename) } ∧
        w' = { w with mutexes := mutexName filename :: w.mutexes } := by
  cases h with
  | other h => exact Or.inl ⟨rfl, rfl, rfl⟩
  | mutex _ _ h => exact Or.inr ⟨rfl, h, rfl, rfl⟩
  | semaphore hmac => rw [hos] at hmac; contradiction

/-- After the election of process `p`: nobody's files have changed, and only a process
that found no mutex takes the name of the first. -/
theorem Inv.elected (hos : host.os = .windows) (h : Inv base s) (hp : s.managers p = some fm)
    (hinit : fm.initialized = false) {createObject another : Bool} {fm₁ : FileManager}
    {w₁ : World host}
    (helect : Elected { fm with processId := p, baseName := base } s.world
      (host.filename base).1 createObject another fm₁ w₁) :
    Local base w₁ p fm₁ ∧ (∀ q fmq, q ≠ p → s.managers q = some fmq → Local base w₁ q fmq) ∧
      (fm₁.mutexHandle ≠ none → ∀ q fmq, q ≠ p → s.managers q = some fmq →
        fmq.mutexHandle = none) ∧
      fm₁.initialized = false ∧ fm₁.fileHandle = none ∧
      fm₁.generateFileName (!another) = base ++ processSuffix (!another) p ∧
      ((!another) = true → fm₁.mutexHandle ≠ none) ∧ w₁.fs = s.world.fs := by
  have hmine := h.managers p fm hp
  have hclosed : fm.fileHandle = none := by
    by_contra hne
    obtain ⟨f, hf⟩ := Option.ne_none_iff_exists'.mp hne
    have := (hmine.stream f hf).1
    rw [hinit] at this
    contradiction
  -- the mutex existed, or the process has created it
  rcases elected_windows hos helect with ⟨rfl, rfl, rfl⟩ | ⟨rfl, hfree, rfl, rfl⟩
  · refine ⟨⟨rfl, hmine.mutex, fun hi => ?_, hmine.stream⟩, fun q fmq _ hq => h.managers q fmq hq,
      fun hm q fmq hqp hq => h.free_of_holder hp hm hqp hq, hinit, hclosed,
      generateFileName_eq _ _, nofun, rfl⟩
    rw [show fm.initialized = true from hi] at hinit
    contradiction
  · refine ⟨⟨rfl, fun _ => ⟨List.mem_cons_self, rfl⟩, fun hi => ?_, hmine.stream⟩,
      fun q fmq _ hq => ?_, fun _ q fmq _ hq => ?_, hinit, hclosed, generateFileName_eq _ _,
      fun _ => Option.some_ne_none _, rfl⟩
    · rw [show fm.initialized = true from hi] at hinit
      contradiction
    · exact (h.managers q fmq hq).frame
        (fun hm => List.mem_cons_of_mem _ ((h.managers q fmq hq).mutex hm).1) fun _ _ => rfl
    · by_contra hmq
      exact hfree ((h.managers q fmq hq).mutex hmq).1

/-- An initialization. -/
theorem Inv.initializeAs (habs : host.isAbsolute base = true) (hos : host.os = .windows)
    (h : Inv base s) (hp : s.managers p = some fm) {answers : InitAnswers}
    (hmanagers : s'.managers = Function.update s.managers p
      (some (fm.initializeAs s.world (cwd p) p answers).2.1))
    (hworld : s'.world = (fm.initializeAs s.world (cwd p) p answers).2.2) : Inv base s' := by
  have hmine := h.managers p fm hp
  have habsolute : absoluteBase host (cwd p) fm.baseName = base := by
    rw [absoluteBase, hmine.baseName, if_pos habs]
  have hends := initialized_of_initializeAs fm s.world (cwd p) p answers
  generalize hr : fm.initializeAs s.world (cwd p) p answers = r at hends hmanagers hworld
  obtain ⟨ok, fm', w'⟩ := r
  dsimp only at hends hmanagers hworld
  cases hends with
  | again hinit =>
    exact h.update hmanagers (hworld ▸ hmine) (fun q fmq _ hq => hworld ▸ h.managers q fmq hq)
      fun hm q fmq hqp hq => h.free_of_holder hp hm hqp hq
  | noDirectory hinit _ =>
    rw [habsolute] at hmanagers
    refine h.update hmanagers (hworld ▸ ⟨rfl, hmine.mutex, fun hi => ?_, fun f hf => ?_⟩)
      (fun q fmq _ hq => hworld ▸ h.managers q fmq hq)
      fun hm q fmq hqp hq => h.free_of_holder hp hm hqp hq
    · rw [show fm.initialized = true from hi] at hinit
      contradiction
    · rw [(hmine.stream f hf).1] at hinit
      contradiction
  | notOpened hinit helect _ =>
    rw [habsolute] at helect
    obtain ⟨hlocal, hothers, hholder, hinit₁, -, -, -, -⟩ := h.elected hos hp hinit helect
    refine h.update hmanagers (hworld ▸ ⟨hlocal.baseName, hlocal.mutex, fun hi => ?_,
      fun f hf => ?_⟩) (hworld ▸ hothers) hholder
    · rw [show FileManager.initialized _ = true from hi] at hinit₁
      contradiction
    · exact absurd hf.symm (Option.some_ne_none f)
  | @done another fm₁ w₁ n fs hinit helect hopen =>
    rw [habsolute] at helect
    obtain ⟨hlocal, hothers, hholder, -, -, hname, hfirst, -⟩ := h.elected hos hp hinit helect
    rw [hname] at hopen
    have hself := w₁.fs.lookup_openAppend_self
      (host.locate (base ++ processSuffix (!another) p))
    rw [hopen] at hself
    refine h.update hmanagers (hworld ▸ ⟨hlocal.baseName, hlocal.mutex,
      fun _ => ⟨!another, hname, hfirst⟩, fun f hf => ⟨rfl, ?_⟩⟩)
      (fun q fmq hqp hq => hworld ▸ (hothers q fmq hqp hq).frame
        (fun hm => ((hothers q fmq hqp hq).mutex hm).1) fun f hf => ?_) hholder
    · rw [← Option.some.inj hf, hname]
      exact hself
    · obtain ⟨first, hnameq, hfirstq⟩ := (h.managers q fmq hq).named
        ((h.managers q fmq hq).stream f hf).1
      have hne : host.locate (base ++ processSuffix first q) ≠
          host.locate (base ++ processSuffix (!another) p) :=
        place_ne (plain_processSuffix _ _) (plain_processSuffix _ _)
          (processSuffix_ne hqp fun hq' hp' => hfirstq hq' (hholder (hfirst hp') q fmq hqp hq))
      have hframe := w₁.fs.lookup_openAppend_of_ne hne
      rw [hopen] at hframe
      rw [hnameq]
      exact hframe

/-- When the holder of the mutex renames its file, the files of the others stay. -/
theorem Inv.lookup_renamed (h : Inv base s) (hp : s.managers p = some fm)
    (hq : s.managers q = some fm') (hqp : q ≠ p) (hholder : fm.mutexHandle ≠ none)
    {f f' : FileStream} (hf : fm.fileHandle = some f) (hf' : fm'.fileHandle = some f')
    {fs : FileSystem host.Place}
    (hren : (f.fclose s.world.fs).rename (host.locate fm.currentFileName)
      (host.locate (fm.sequenceName 1)) = some fs) :
    fs.lookup (host.locate fm'.currentFileName) =
        s.world.fs.lookup (host.locate fm'.currentFileName) ∧
      host.locate fm'.currentFileName ≠ host.locate (base ++ processSuffix true p) := by
  have hlocal := h.managers p fm hp
  have hlocal' := h.managers q fm' hq
  obtain ⟨first, hname, hfirst⟩ := hlocal.named (hlocal.stream f hf).1
  obtain ⟨first', hname', hfirst'⟩ := hlocal'.named (hlocal'.stream f' hf').1
  obtain ⟨n, -, -, hlookup⟩ := FileSystem.rename_eq_some hren
  have hsequence : host.locate (base ++ processSuffix first' q) ≠
      host.locate (base ++ sequenceSuffix 1) :=
    place_ne (plain_processSuffix _ _) (plain_sequenceSuffix _)
      (processSuffix_ne_sequenceSuffix _ _ _)
  have hcurrent : host.locate (base ++ processSuffix first' q) ≠
      host.locate (base ++ processSuffix first p) :=
    place_ne (plain_processSuffix _ _) (plain_processSuffix _ _)
      (h.suffix_ne hqp hq hp hfirst' hfirst)
  have hlog : host.locate (base ++ processSuffix first' q) ≠
      host.locate (base ++ processSuffix true p) :=
    place_ne (plain_processSuffix _ _) (plain_processSuffix _ _)
      (h.suffix_ne hqp hq hp hfirst' fun _ => hholder)
  rw [hname']
  refine ⟨?_, hlog⟩
  rw [hlookup, sequenceName_eq, hlocal.baseName, if_neg hsequence, hname, if_neg hcurrent]
  rfl

/-- A rotation, by the holder of the mutex unless the rename fails. -/
theorem Inv.rotate (habs : host.isAbsolute base = true) (h : Inv base s)
    (hp : s.managers p = some fm) {answers : RotateAnswers}
    (hok : fm.fileHandle ≠ none → answers.rename = true → fm.mutexHandle ≠ none) :
    Inv base (s.put p (fm.rotate s.world (cwd p) answers)) := by
  have hmine := h.managers p fm hp
  have hothers : fm.mutexHandle ≠ none → ∀ q fmq, q ≠ p → s.managers q = some fmq →
      fmq.mutexHandle = none := fun hm q fmq hqp hq => h.free_of_holder hp hm hqp hq
  have habs' : host.isAbsolute fm.baseName = true := by rw [hmine.baseName]; exact habs
  have hname : fm.generateFileName true = base ++ processSuffix true p := by
    rw [generateFileName_eq, hmine.baseName]
    rfl
  have hends := rotated_of_rotate (w := s.world) habs' (cwd p) answers
  generalize fm.rotate s.world (cwd p) answers = r at hends
  obtain ⟨ok, fm', w'⟩ := r
  dsimp only at hends
  cases hends with
  | closed => exact h.update rfl hmine (fun q fmq _ hq => h.managers q fmq hq) hothers
  | notRenamed hf _ =>
    refine h.update rfl ⟨hmine.baseName, hmine.mutex, hmine.named, nofun⟩
      (fun q fmq _ hq => ?_) hothers
    exact (h.managers q fmq hq).frame (fun hm => ((h.managers q fmq hq).mutex hm).1) fun _ _ => rfl
  -- whoever gets as far as the rename takes the name of the first process
  | @notOpened f fs hf hrename hren _ =>
    have hholder := hok (by rw [hf]; exact Option.some_ne_none f) hrename
    refine h.update rfl ⟨hmine.baseName, hmine.mutex, fun _ => ⟨true, hname, fun _ => hholder⟩,
      nofun⟩ (fun q fmq hqp hq => ?_) hothers
    exact (h.managers q fmq hq).frame (fun hm => ((h.managers q fmq hq).mutex hm).1)
      fun f' hf' => (h.lookup_renamed hp hq hqp hholder hf hf' hren).1
  | @done f fs hf hrename hren =>
    have hholder := hok (by rw [hf]; exact Option.some_ne_none f) hrename
    refine h.update rfl ⟨hmine.baseName, hmine.mutex, fun _ => ⟨true, hname, fun _ => hholder⟩,
      fun f' hf' => ⟨(hmine.stream f hf).1, ?_⟩⟩ (fun q fmq hqp hq => ?_) hothers
    · rw [← Option.some.inj hf']
      exact fs.lookup_openAppend_self _
    · refine (h.managers q fmq hq).frame (fun hm => ((h.managers q fmq hq).mutex hm).1)
        fun f' hf' => ?_
      obtain ⟨hsame, hne⟩ := h.lookup_renamed hp hq hqp hholder hf hf' hren
      rw [← hname] at hne
      exact (fs.lookup_openAppend_of_ne hne).trans hsame

/-- A process that goes closes its handle of the mutex. -/
theorem Inv.gone (hos : host.os = .windows) (h : Inv base s) (hp : s.managers p = some fm)
    {fm₁ : FileManager} {w₁ : World host} (hmutex : fm₁.mutexHandle = fm.mutexHandle)
    (hmutexes : w₁.mutexes = s.world.mutexes) (hentries : w₁.fs.entries = s.world.fs.entries) :
    Inv base (s.drop p (fm₁.cleanupMutex w₁).2) := by
  refine h.drop rfl fun q fmq hqp hq => (h.managers q fmq hq).frame (fun hm => ?_) fun f _ => ?_
  · have hnone : fm₁.mutexHandle = none := hmutex.trans (h.free_of_holder hq hm hqp.symm hp)
    show _ ∈ (fm₁.cleanupMutex w₁).2.mutexes
    simp only [cleanupMutex, hnone]
    rw [hmutexes]
    exact ((h.managers q fmq hq).mutex hm).1
  · have hfs : (fm₁.cleanupMutex w₁).2.fs = w₁.fs := by
      unfold cleanupMutex
      rw [hos]
      split <;> rfl
    show (fm₁.cleanupMutex w₁).2.fs.lookup _ = _
    rw [hfs]
    exact congrArg (fun entries => AList.lookup _ entries) hentries

theorem Step.inv (habs : host.isAbsolute base = true) (hos : host.os = .windows) {a : Act}
    (hstep : Step base cwd s p a s') (hok : HolderRotates s (p, a)) (h : Inv base s) :
    Inv base s' := by
  cases hstep with
  | start _ => exact h.start rfl rfl
  | @initializeAs fm answers hp =>
    refine h.initializeAs habs hos hp ?_ rfl
    show Function.update (State.elect _ _ _ _ _).managers _ _ = _
    rw [State.elect_managers]
  | write hp hr => exact h.write hp hr
  | rotate hp => exact h.rotate habs hp (hok _ _ rfl hp)
  | @exit fm hp =>
    obtain ⟨hmutex, hmutexes, -, hentries⟩ := closeCurrentFile_frame fm s.world
    exact h.gone hos hp hmutex hmutexes hentries
  | crash hp => exact h.gone hos hp rfl rfl rfl

/-- **Isolation**, in every run in which only the holder of the mutex completes a
rotation. -/
theorem isolated (habs : host.isAbsolute base = true) (hos : host.os = .windows)
    {w : World host} (hs : Reachable (next base cwd) HolderRotates (init w) s) : Isolated s := by
  have hinv : Inv base s := by
    refine hs.invariant ⟨fun _ _ h => absurd h.symm (Option.some_ne_none _),
      fun _ _ _ _ h => absurd h.symm (Option.some_ne_none _)⟩ ?_
    rintro s ⟨p, a⟩ s' - h hok hnext
    exact (step_of_next hnext).inv habs hos hok h
  exact isolated_of_inv hinv

/-! ### Two processes -/

/-- The current file name of process `p`. -/
def State.currentName (s : State host) (p : ℤ) : Option Text :=
  (s.managers p).map FileManager.currentFileName

/-- A write to which the system says yes. -/
def writeOne (p : ℤ) : List (ℤ × Act) := [(p, .write "a".toList ⟨1, 0, true, true⟩)]

/-- A write and a rotation to which the system says yes. -/
def writeAndRotate (p : ℤ) : List (ℤ × Act) :=
  [(p, .write "a".toList ⟨1, 0, true, true⟩), (p, .rotate ⟨true, fun _ => true, true⟩)]

/-- The first process rotates while the second writes; then a third one is first. -/
theorem isolated_first_rotates :
    ∃ s : State Host.windows, s.currentName 8 = some "C:\\app_8.log".toList ∧
      s.currentName 9 = some "C:\\app.log".toList ∧ Isolated s := by
  obtain ⟨s, hs, hp⟩ := exists_reachable_of_run
    (next "C:\\app".toList fun _ => "C:\\".toList) (init (.empty Host.windows))
    (fun s => decide (s.currentName 8 = some "C:\\app_8.log".toList ∧
      s.currentName 9 = some "C:\\app.log".toList))
    (fun s a => match a.2 with
      | .rotate _ => (s.managers a.1).any fun fm => fm.mutexHandle.isSome
      | _ => true)
    (launch 7 ++ launch 8 ++ writeOne 8 ++ writeAndRotate 7 ++ leave 7 ++ launch 9)
    (by decide +kernel)
  obtain ⟨h8, h9⟩ := of_decide_eq_true hp
  have hrun : Reachable (next "C:\\app".toList fun _ => "C:\\".toList) HolderRotates
      (init (.empty Host.windows)) s := by
    refine hs.mono fun s a ha => ?_
    intro answers fm hrotate hfm _ _ hnone
    rw [hrotate, hfm, Option.any_some, hnone] at ha
    contradiction
  exact ⟨s, h8, h9, isolated (by decide) rfl hrun⟩

/-- **The second process rotates** and opens the file of the first. -/
theorem not_isolated_rotate :
    ∃ s : State Host.windows,
      Reachable (next "C:\\app".toList fun _ => "C:\\".toList) Always
        (init (.empty Host.windows)) s ∧ ¬ Isolated s := by
  obtain ⟨s, hs, hp⟩ := exists_reachable_of_run
    (next "C:\\app".toList fun _ => "C:\\".toList) (init (.empty Host.windows))
    (fun s => (s.managers 7).any fun fm => (s.managers 8).any fun fm' =>
      fm.initialized && fm'.initialized && decide (fm.currentFileName = fm'.currentFileName))
    (fun _ _ => true)
    (launch 7 ++ launch 8 ++ writeAndRotate 8) (by decide +kernel)
  refine ⟨s, hs.mono fun _ _ _ => trivial, fun h => ?_⟩
  obtain ⟨fm, hfm, hp⟩ := (Option.any_eq_true _ _).mp hp
  obtain ⟨fm', hfm', hp⟩ := (Option.any_eq_true _ _).mp hp
  simp only [Bool.and_eq_true, decide_eq_true_eq] at hp
  exact h.names 7 8 fm fm' (by decide) hfm hfm' hp.1.1 hp.1.2 hp.2

end Processes
end SpeckitLog
