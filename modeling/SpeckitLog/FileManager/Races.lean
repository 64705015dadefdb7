import SpeckitLog.FileManager.Election

/-!
# Processes that race to be first

`Initialize` asks `IsAnotherProcessLogging`, which makes up to two calls of the operating
system on Windows, and up to five on macOS.  A step is one of these calls, so that those of
other processes come in between; each of them may fail, and processes exit and crash at any
moment.

## Main definitions

* `Races.Pc`, `Races.State`, `Races.next` — the processes, and one step of one of them.
* `Races.Step` — the kinds of steps.
* `Races.Fair` — what holds of the election at any moment.

## Main results

* `Races.check_alone` — a check that nothing interrupts is the one of `FileManager`.
* `Races.fair` — **no two live processes have taken `base.log`.**
-/

namespace SpeckitLog
namespace Processes
namespace Races

open Function Transition FileManager

variable {δ : Type*} [DecidableEq δ] {host : Host δ}

/-- The program points of `Initialize`: what a process does next. -/
inductive Pc
  | idle
  /-- `CreateMutexW`. -/
  | createMutex
  /-- `CloseHandle`, of a mutex that existed. -/
  | closeHandle
  /-- The first `sem_open`. -/
  | openExclusive
  /-- `sem_open` of the semaphore that exists. -/
  | openExisting
  /-- `sem_trywait`. -/
  | tryWait
  /-- `sem_post`. -/
  | post
  /-- The last `sem_open`. -/
  | openAgain
  /-- `current_file_name_ = GenerateFileName(first_process)`. -/
  | setName (another : Bool)
  deriving DecidableEq

/-- The processes that are alive, and the objects that they share. -/
structure State (host : Host δ) where
  managers : Managers
  pc : ℤ → Pc
  /-- The open handles of the mutex, by the process that has them; the mutex exists while it
  has one. -/
  handles : List ℤ
  world : World host
  /-- History: the processes that made the mutex or the semaphore. -/
  creators : List ℤ

/-- Before any process starts. -/
def init (w : World host) : State host where
  managers _ := none
  pc _ := .idle
  handles := []
  world := w
  creators := []

namespace State

variable (s : State host) (base : Text) (p : ℤ) (fm : FileManager)

/-- Process `p` goes on with this manager. -/
def put (pc : Pc) : State host :=
  { s with managers := update s.managers p (some fm), pc := update s.pc p pc }

/-- Process `p` is gone. -/
def drop (handles : List ℤ) : State host :=
  { s with managers := update s.managers p none, pc := update s.pc p .idle, handles := handles }

/-- `CreateMutexW`. -/
def createMutex (ok : Bool) : State host :=
  if ok then
    if s.handles = [] then
      { s.put p { fm with mutexHandle := some (mutexName (host.filename base).1) }
          (.setName false) with
        handles := [p]
        creators := s.creators ++ [p] }
    else { s.put p fm .closeHandle with handles := p :: s.handles }
  else s.put p fm (.setName true)

/-- `CloseHandle`. -/
def closeHandle : State host :=
  { s.put p fm (.setName true) with handles := s.handles.erase p }

/-- `sem_open` with `O_CREAT | O_EXCL`; where a semaphore exists the process goes to `found`. -/
def openExclusive (ok : Bool) (found : Pc) : State host :=
  if ok then
    match semOpenExclusive s.world (semaphoreOf host base) with
    | some w =>
      { s.put p { fm with mutexHandle := some (semaphoreOf host base) } (.setName false) with
        world := w
        creators := s.creators ++ [p] }
    | none => s.put p fm found
  else s.put p fm (.setName true)

/-- `sem_open` of a semaphore that exists. -/
def openExisting (ok : Bool) : State host :=
  s.put p fm (if ok ∧ s.world.semaphores (semaphoreOf host base) ≠ none then .tryWait
    else .setName true)

/-- `sem_trywait`; `sem_close` changes no semaphore and is no step. -/
def tryWait (ok : Bool) : State host :=
  match if ok then semTryWait s.world (semaphoreOf host base) else none with
  | some w => { s.put p fm .post with world := w }
  | none => s.put p fm (.setName true)

/-- `sem_post`. -/
def post : State host :=
  { s.put p fm .openAgain with world := semPost s.world (semaphoreOf host base) }

/-- The destructor: `CleanupMutex` closes the handle of the mutex. -/
def exit : State host :=
  s.drop p (if fm.mutexHandle = none then s.handles else s.handles.erase p)

/-- The system closes the handles of a process that dies. -/
def crash : State host := s.drop p (s.handles.filter (· ≠ p))

end State

/-- What a process does; `step ok` is its next call of the system, `ok` when no error is met. -/
inductive Act
  | start
  | check
  | step (ok : Bool)
  | exit
  | crash
  deriving DecidableEq

/-- The first call of `IsAnotherProcessLogging`. -/
def firstCall : Os → Pc
  | .windows => .createMutex
  | .macos => .openExclusive

/-- One step of one process; `base` is the absolute base name of all of them. -/
def next (base : Text) (s : State host) : ℤ × Act → Option (State host)
  | (p, a) =>
    match s.managers p, s.pc p, a with
    | none, _, .start => some (s.put p (ofBaseName base) .idle)
    | some fm, .idle, .check => some (s.put p { fm with processId := p } (firstCall host.os))
    | some fm, .createMutex, .step ok => some (s.createMutex base p fm ok)
    | some fm, .closeHandle, .step _ => some (s.closeHandle p fm)
    | some fm, .openExclusive, .step ok => some (s.openExclusive base p fm ok .openExisting)
    | some fm, .openExisting, .step ok => some (s.openExisting base p fm ok)
    | some fm, .tryWait, .step ok => some (s.tryWait base p fm ok)
    | some fm, .post, .step _ => some (s.post base p fm)
    | some fm, .openAgain, .step ok => some (s.openExclusive base p fm ok (.setName true))
    | some fm, .setName another, .step _ =>
      some (s.put p { fm with currentFileName := fm.generateFileName (!another) } .idle)
    | some fm, .idle, .exit => some (s.exit p fm)
    | some _, _, .crash => some (s.crash p)
    | _, _, _ => none

/-! ### A check that nothing interrupts -/

variable {base : Text} {s s' : State host} {p q : ℤ} {a : Act} {fm : FileManager}

/-- The machine as `FileManager` sees it: the mutex has these handles. -/
def State.view (base : Text) (s : State host) : World host :=
  { s.world with mutexes := s.handles.map fun _ => mutexName (host.filename base).1 }

/-- Process `p` makes `n` calls to which the system says yes, and its check gives `r`. -/
def Checks (base : Text) (s : State host) (p : ℤ) (n : ℕ)
    (r : Bool × FileManager × World host) : Prop :=
  ∃ s', run (next base) (fun _ _ => true) s (List.replicate n (p, .step true)) = some s' ∧
    s'.pc p = .setName r.1 ∧ s'.managers p = some r.2.1 ∧ s'.view base = r.2.2

theorem Checks.done {r : Bool × FileManager × World host} (hpc : s.pc p = .setName r.1)
    (hm : s.managers p = some r.2.1) (hview : s.view base = r.2.2) : Checks base s p 0 r :=
  ⟨s, rfl, hpc, hm, hview⟩

theorem Checks.step {n : ℕ} {r : Bool × FileManager × World host}
    (hnext : next base s (p, .step true) = some s') (h : Checks base s' p n r) :
    Checks base s p (n + 1) r := by
  obtain ⟨s'', hrun, h⟩ := h
  refine ⟨s'', ?_, h⟩
  rw [List.replicate_succ, run, if_pos rfl, hnext, Option.bind_some, hrun]

/-- The branch of Windows. -/
theorem checks_createMutex (hos : host.os = .windows) (hm : s.managers p = some fm)
    (hpc : s.pc p = .createMutex) :
    ∃ n, Checks base s p n (fm.isAnotherProcessLogging (s.view base) base true) := by
  have hnext : next base s (p, .step true) = some (s.createMutex base p fm true) := by
    simp only [next, hm, hpc]
  by_cases hfree : s.handles = []
  · refine ⟨1, .step hnext (.done ?_ ?_ ?_)⟩
    all_goals simp [State.createMutex, State.put, State.view, isAnotherProcessLogging, hos, hfree]
  · -- the second handle is closed again
    have hclose : next base (s.createMutex base p fm true) (p, .step true) =
        some ((s.createMutex base p fm true).closeHandle p fm) := by
      simp [next, State.createMutex, State.put, hfree]
    refine ⟨2, .step hnext (.step hclose (.done ?_ ?_ ?_))⟩
    all_goals
      simp [State.closeHandle, State.createMutex, State.put, State.view, isAnotherProcessLogging,
        hos, hfree]

/-- The branch of macOS. -/
theorem checks_openExclusive (hos : host.os = .macos) (hm : s.managers p = some fm)
    (hpc : s.pc p = .openExclusive) :
    ∃ n, Checks base s p n (fm.isAnotherProcessLogging (s.view base) base true) := by
  have hnext : next base s (p, .step true) =
      some (s.openExclusive base p fm true .openExisting) := by
    simp only [next, hm, hpc]
  have hcheck : fm.isAnotherProcessLogging (s.view base) base true =
      fm.isAnotherProcessLoggingPOSIX (s.view base) (host.filename base).1 true := by
    rw [isAnotherProcessLogging, hos]
  rw [hcheck]
  cases hsem : s.world.semaphores (semaphoreOf host base) with
  | none =>
    have hopen : semOpenExclusive s.world (semaphoreOf host base) =
        some (setSemaphore s.world (semaphoreOf host base) 1) := semOpenExclusive_none hsem
    have hopen' : semOpenExclusive (s.view base)
        (FileManager.semaphoreName host.hash (host.filename base).1) =
          some (setSemaphore (s.view base) (semaphoreOf host base) 1) := semOpenExclusive_none hsem
    have hfirst : fm.isAnotherProcessLoggingPOSIX (s.view base) (host.filename base).1 true =
        (false, { fm with mutexHandle := some (semaphoreOf host base) },
          setSemaphore (s.view base) (semaphoreOf host base) 1) := by
      simp only [isAnotherProcessLoggingPOSIX, if_true, hopen']
      rfl
    rw [hfirst]
    refine ⟨1, .step hnext (.done ?_ ?_ ?_)⟩
    all_goals simp [State.openExclusive, hopen, State.put, State.view, setSemaphore]
  | some value =>
    have hopen : semOpenExclusive s.world (semaphoreOf host base) = none :=
      semOpenExclusive_some hsem
    have hsome : (s.view base).semaphores (semaphoreOf host base) = some value := hsem
    rw [isAnotherProcessLoggingPOSIX_of_some hsome]
    have hfound : s.openExclusive base p fm true .openExisting = s.put p fm .openExisting := by
      simp only [State.openExclusive, hopen, if_true]
    have hexisting : next base (s.put p fm .openExisting) (p, .step true) =
        some (s.put p fm .tryWait) := by
      simp [next, State.openExisting, State.put, hsem]
    rw [hfound] at hnext
    cases hwait : semTryWait s.world (semaphoreOf host base) with
    | none =>
      have hbusy : next base (s.put p fm .tryWait) (p, .step true) =
          some (s.put p fm (.setName true)) := by
        simp [next, State.tryWait, State.put, hwait]
      exact ⟨3, .step hnext (.step hexisting (.step hbusy
        (.done (update_self ..) (update_self ..) rfl)))⟩
    | some w =>
      have hacquired : next base (s.put p fm .tryWait) (p, .step true) =
          some { s.put p fm .post with world := w } := by
        simp [next, State.tryWait, State.put, hwait]
      have hpost : next base { s.put p fm .post with world := w } (p, .step true) =
          some (s.put p fm .openAgain) := by
        simp [next, State.post, State.put, semPost_semTryWait hwait]
      have hagain : next base (s.put p fm .openAgain) (p, .step true) =
          some (s.put p fm (.setName true)) := by
        simp [next, State.openExclusive, State.put, hopen]
      exact ⟨5, .step hnext (.step hexisting (.step hacquired (.step hpost (.step hagain
        (.done (update_self ..) (update_self ..) rfl)))))⟩

/-- **A check that nothing interrupts** is the one of `FileManager`. -/
theorem check_alone (base : Text) (hm : s.managers p = some fm) (hpc : s.pc p = .idle) :
    ∃ n s', next base s (p, .check) = some s' ∧ Checks base s' p n
      (FileManager.isAnotherProcessLogging { fm with processId := p } (s.view base) base true) := by
  have hcheck : next base s (p, .check) =
      some (s.put p { fm with processId := p } (firstCall host.os)) := by
    simp only [next, hm, hpc]
  cases hos : host.os with
  | windows =>
    rw [hos] at hcheck
    obtain ⟨n, h⟩ := checks_createMutex hos (s := s.put p _ .createMutex) (update_self ..)
      (update_self ..)
    exact ⟨n, _, hcheck, h⟩
  | macos =>
    rw [hos] at hcheck
    obtain ⟨n, h⟩ := checks_openExclusive hos (s := s.put p _ .openExclusive) (update_self ..)
      (update_self ..)
    exact ⟨n, _, hcheck, h⟩

/-! ### The kinds of steps -/

/-- The program points of a branch: none of the calls of the other system. -/
def Pc.Of : Os → Pc → Prop
  | .windows, .openExclusive | .windows, .openExisting | .windows, .tryWait | .windows, .post
  | .windows, .openAgain | .macos, .createMutex | .macos, .closeHandle => False
  | _, _ => True

/-- `Step base s p s'`: process `p` takes the machine from `s` to `s'`. -/
inductive Step (base : Text) (s : State host) (p : ℤ) : State host → Prop
  | start (h : s.managers p = none) : Step base s p (s.put p (ofBaseName base) .idle)
  /-- Nothing is made, opened or closed. -/
  | quiet {fm fm' : FileManager} {pc : Pc} (h : s.managers p = some fm)
      (hfm : fm' = { fm with processId := fm'.processId }) (hfrom : s.pc p ≠ .closeHandle)
      (hto : pc ≠ .closeHandle ∧ pc ≠ .setName false)
      (hos : (s.pc p).Of host.os → pc.Of host.os) : Step base s p (s.put p fm' pc)
  | makeMutex {fm : FileManager} (h : s.managers p = some fm) (hpc : s.pc p = .createMutex)
      (hfree : s.handles = []) :
      Step base s p
        { s.put p { fm with mutexHandle := some (mutexName (host.filename base).1) }
            (.setName false) with
          handles := [p]
          creators := s.creators ++ [p] }
  | foundMutex {fm : FileManager} (h : s.managers p = some fm) (hpc : s.pc p = .createMutex)
      (hexists : s.handles ≠ []) :
      Step base s p { s.put p fm .closeHandle with handles := p :: s.handles }
  | closeHandle {fm : FileManager} (h : s.managers p = some fm) (hpc : s.pc p = .closeHandle) :
      Step base s p (s.closeHandle p fm)
  | makeSemaphore {fm : FileManager} (h : s.managers p = some fm)
      (hpc : s.pc p = .openExclusive ∨ s.pc p = .openAgain)
      (hfree : s.world.semaphores (semaphoreOf host base) = none) :
      Step base s p
        { s.put p { fm with mutexHandle := some (semaphoreOf host base) } (.setName false) with
          world := setSemaphore s.world (semaphoreOf host base) 1
          creators := s.creators ++ [p] }
  /-- The value of a semaphore that exists changes. -/
  | value {fm : FileManager} {pc : Pc} {w : World host} (h : s.managers p = some fm)
      (hpc : s.pc p = .tryWait ∧ pc = .post ∨ s.pc p = .post ∧ pc = .openAgain)
      (hw : s.world.semaphores (semaphoreOf host base) ≠ none →
        w.semaphores (semaphoreOf host base) ≠ none) :
      Step base s p { s.put p fm pc with world := w }
  | setName {fm : FileManager} {another : Bool} (h : s.managers p = some fm)
      (hpc : s.pc p = .setName another) :
      Step base s p
        (s.put p { fm with currentFileName := fm.generateFileName (!another) } .idle)
  | exit {fm : FileManager} (h : s.managers p = some fm) (hpc : s.pc p = .idle) :
      Step base s p (s.exit p fm)
  | crash {fm : FileManager} (h : s.managers p = some fm) : Step base s p (s.crash p)

/-- After a call of a semaphore comes another. -/
theorem Pc.Of.next_semaphore {os : Os} {pc pc' : Pc} (h : pc.Of os)
    (hpc : pc.Of .windows = pc'.Of .windows) (hpc' : pc'.Of .macos) : pc'.Of os := by
  cases os with
  | windows => exact hpc ▸ h
  | macos => exact hpc'

theorem Pc.Of.of_pc {os : Os} {pc pc' : Pc} (hpc : pc' = pc) (h : pc.Of os) : pc'.Of os := hpc ▸ h

theorem of_idle (os : Os) : Pc.idle.Of os := by
  cases os <;> trivial

theorem of_setName (os : Os) (another : Bool) : (Pc.setName another).Of os := by
  cases os <;> trivial

theorem of_firstCall (os : Os) : (firstCall os).Of os := by
  cases os <;> trivial

theorem setSemaphore_self (w : World host) (name : Text) (value : ℕ) :
    (setSemaphore w name value).semaphores name = some value := update_self ..

/-- `sem_trywait` leaves the semaphore in being. -/
theorem exists_of_semTryWait {w w' : World host} {name : Text}
    (h : semTryWait w name = some w') : w'.semaphores name ≠ none := by
  unfold semTryWait at h
  split at h
  · obtain rfl := Option.some.inj h
    rw [setSemaphore_self]
    exact Option.some_ne_none _
  · contradiction

/-- And so does `sem_post`. -/
theorem exists_semPost {w : World host} {name : Text} (h : w.semaphores name ≠ none) :
    (semPost w name).semaphores name ≠ none := by
  unfold semPost
  split
  · rw [setSemaphore_self]
    exact Option.some_ne_none _
  · exact h

/-- Both calls of `sem_open` that may make the semaphore. -/
theorem step_openExclusive {fm : FileManager} (h : s.managers p = some fm) (ok : Bool) {found : Pc}
    (hpc : s.pc p = .openExclusive ∧ found = .openExisting ∨
      s.pc p = .openAgain ∧ found = .setName true) :
    Step base s p (s.openExclusive base p fm ok found) := by
  have hfrom : s.pc p ≠ .closeHandle := by
    rcases hpc with ⟨hpc, -⟩ | ⟨hpc, -⟩ <;> simp [hpc]
  unfold State.openExclusive
  split
  · split
    · next w hopen =>
      unfold semOpenExclusive at hopen
      split at hopen
      · contradiction
      next hfree =>
      obtain rfl := Option.some.inj hopen
      exact .makeSemaphore h (hpc.imp And.left And.left) hfree
    · refine .quiet h rfl hfrom ?_ fun hos => ?_
      · rcases hpc with ⟨-, rfl⟩ | ⟨-, rfl⟩ <;> simp
      · rcases hpc with ⟨hpc, rfl⟩ | ⟨-, rfl⟩
        · rw [hpc] at hos
          exact hos.next_semaphore rfl trivial
        · cases host.os <;> trivial
  · exact .quiet h rfl hfrom (by simp) fun _ => by cases host.os <;> trivial

/-- **Every step is one of the listed kinds.** -/
theorem step_of_next (h : next base s (p, a) = some s') : Step base s p s' := by
  unfold next at h
  dsimp only at h
  split at h
  case h_1 hm => exact Option.some.inj h ▸ .start hm
  case h_2 fm hm hpc =>
    refine Option.some.inj h ▸ .quiet hm rfl (by simp [hpc]) ?_ fun _ => of_firstCall _
    cases host.os <;> simp [firstCall]
  case h_3 fm ok hm hpc =>
    obtain rfl := Option.some.inj h
    unfold State.createMutex
    split
    · split
      · next hfree => exact .makeMutex hm hpc hfree
      · next hexists => exact .foundMutex hm hpc hexists
    · exact .quiet hm rfl (by simp [hpc]) (by simp) fun _ => by cases host.os <;> trivial
  case h_4 fm ok hm hpc => exact Option.some.inj h ▸ .closeHandle hm hpc
  case h_5 fm ok hm hpc => exact Option.some.inj h ▸ step_openExclusive hm ok (.inl ⟨hpc, rfl⟩)
  case h_6 fm ok hm hpc =>
    refine Option.some.inj h ▸ .quiet hm rfl (by simp [hpc]) (by split <;> simp) fun hos => ?_
    rw [hpc] at hos
    split
    · exact hos.next_semaphore rfl trivial
    · cases host.os <;> trivial
  case h_7 fm ok hm hpc =>
    obtain rfl := Option.some.inj h
    unfold State.tryWait
    split
    · next w hwait =>
      refine .value hm (.inl ⟨hpc, rfl⟩) fun _ => ?_
      cases ok with
      | false => contradiction
      | true => exact exists_of_semTryWait hwait
    · exact .quiet hm rfl (by simp [hpc]) (by simp) fun _ => by cases host.os <;> trivial
  case h_8 fm ok hm hpc =>
    exact Option.some.inj h ▸ .value hm (.inr ⟨hpc, rfl⟩) exists_semPost
  case h_9 fm ok hm hpc => exact Option.some.inj h ▸ step_openExclusive hm ok (.inr ⟨hpc, rfl⟩)
  case h_10 fm another ok hm hpc => exact Option.some.inj h ▸ .setName hm hpc
  case h_11 fm hm hpc => exact Option.some.inj h ▸ .exit hm hpc
  case h_12 fm hm => exact Option.some.inj h ▸ .crash hm
  case h_13 => contradiction

/-! ### What a step leaves -/

/-- The other processes keep their managers, their program points and their handles. -/
theorem Step.of_ne (h : Step base s p s') (hqp : q ≠ p) :
    s'.managers q = s.managers q ∧ s'.pc q = s.pc q ∧
      s'.handles.count q = s.handles.count q := by
  refine ⟨?_, ?_, ?_⟩
  · cases h <;> exact update_of_ne hqp _ _
  · cases h <;> exact update_of_ne hqp _ _
  · cases h with
    | makeMutex hm hpc hfree =>
      rw [hfree]
      exact List.count_cons_of_ne (Ne.symm hqp)
    | foundMutex => exact List.count_cons_of_ne (Ne.symm hqp)
    | closeHandle => exact List.count_erase_of_ne hqp
    | @exit fm =>
      show List.count q (if fm.mutexHandle = none then s.handles else s.handles.erase p) = _
      split
      · rfl
      · exact List.count_erase_of_ne hqp
    | crash => exact List.count_filter (by simp [hqp])
    | _ => rfl

/-- The calls of a process stay in its branch. -/
theorem Step.calls (h : Step base s p s') (hcalls : ∀ q, (s.pc q).Of host.os) (q : ℤ) :
    (s'.pc q).Of host.os := by
  by_cases hqp : q = p
  swap
  · rw [(h.of_ne hqp).2.1]
    exact hcalls q
  subst hqp
  have hq := hcalls q
  cases h with
  | start | setName | exit | crash => exact .of_pc (update_self ..) (of_idle _)
  | quiet _ _ _ _ hos => exact .of_pc (update_self ..) (hos hq)
  | makeMutex | makeSemaphore | closeHandle => exact .of_pc (update_self ..) (of_setName _ _)
  | foundMutex _ hpc =>
    rw [hpc] at hq
    refine .of_pc (update_self ..) ?_
    revert hq
    cases host.os <;> exact id
  | value _ hpc =>
    refine .of_pc (update_self ..) ?_
    rcases hpc with ⟨hpc, rfl⟩ | ⟨hpc, rfl⟩
    all_goals
      rw [hpc] at hq
      exact hq.next_semaphore rfl trivial

/-- Process `p` is first: it made the object and has its handle. -/
def State.First (s : State host) (p : ℤ) : Prop :=
  ∃ fm, s.managers p = some fm ∧ fm.mutexHandle ≠ none

/-- The mutex or the semaphore exists. -/
def State.Exists (base : Text) (s : State host) : Prop :=
  match host.os with
  | .windows => s.handles ≠ []
  | .macos => s.world.semaphores (semaphoreOf host base) ≠ none

/-- **Who makes the object**: it is made where there is none, and only who makes it becomes
first. -/
theorem Step.made (h : Step base s p s') (hcalls : (s.pc p).Of host.os) :
    s'.creators = s.creators ∧ (∀ q, s'.First q → s.First q) ∨
      ¬ s.Exists base ∧ s'.Exists base ∧ s'.creators = s.creators ++ [p] ∧
        ∀ q, s'.First q → s.First q ∨ q = p := by
  have hothers : ∀ q, q ≠ p → s'.First q → s.First q := by
    rintro q hqp ⟨fm, hfm, hhandle⟩
    exact ⟨fm, (h.of_ne hqp).1 ▸ hfm, hhandle⟩
  have hmade : ∀ q, s'.First q → s.First q ∨ q = p := fun q hq => by
    by_cases hqp : q = p
    · exact .inr hqp
    · exact .inl (hothers q hqp hq)
  have hkeep : (s'.First p → s.First p) → ∀ q, s'.First q → s.First q := fun hp q hq => by
    by_cases hqp : q = p
    · exact hqp ▸ hp (hqp ▸ hq)
    · exact hothers q hqp hq
  cases h with
  | makeMutex hm hpc hfree =>
    rw [hpc] at hcalls
    refine .inr ⟨?_, ?_, rfl, hmade⟩ <;> unfold State.Exists <;> revert hcalls <;> cases host.os
    · exact fun _ hexists => hexists hfree
    · exact False.elim
    · exact fun _ => List.cons_ne_nil _ _
    · exact False.elim
  | makeSemaphore hm hpc hfree =>
    have hmacos : host.os = .macos := by
      rcases hpc with hpc | hpc <;> rw [hpc] at hcalls <;> revert hcalls <;> cases host.os
      all_goals first | exact False.elim | exact fun _ => rfl
    refine .inr ⟨?_, ?_, rfl, hmade⟩ <;> unfold State.Exists <;> rw [hmacos]
    · exact fun hexists => hexists hfree
    · show (setSemaphore _ _ _).semaphores _ ≠ none
      rw [setSemaphore_self]
      exact Option.some_ne_none _
  | start hm =>
    refine .inl ⟨rfl, hkeep fun ⟨fm, hfm, hhandle⟩ => ?_⟩
    obtain rfl := Option.some.inj (eq_of_update_self hfm)
    exact absurd rfl hhandle
  | quiet hm hfm' =>
    refine .inl ⟨rfl, hkeep fun ⟨fm, hfm, hhandle⟩ => ?_⟩
    obtain rfl := Option.some.inj (eq_of_update_self hfm)
    rw [hfm'] at hhandle
    exact ⟨_, hm, hhandle⟩
  | foundMutex hm | closeHandle hm | value hm | setName hm =>
    refine .inl ⟨rfl, hkeep fun ⟨fm, hfm, hhandle⟩ => ?_⟩
    obtain rfl := Option.some.inj (eq_of_update_self hfm)
    exact ⟨_, hm, hhandle⟩
  | exit | crash =>
    refine .inl ⟨rfl, hkeep fun ⟨fm, hfm, _⟩ => ?_⟩
    exact absurd (eq_of_update_self hfm) (Option.some_ne_none fm).symm

/-! ### The handles of the mutex -/

/-- How many handles of the mutex a process has. -/
def owned : Option FileManager → Pc → ℕ
  | none, _ => 0
  | some fm, pc => (if fm.mutexHandle = none then 0 else 1) + if pc = .closeHandle then 1 else 0

/-- A process that goes on with this manager at this program point. -/
theorem owned_update (managers : Managers) (pcs : ℤ → Pc) (m : Option FileManager) (pc : Pc) :
    owned (update managers q m q) (update pcs q pc q) = owned m pc := by
  rw [update_self, update_self]

/-- **The handles are those of the live processes**, in the branch of Windows. -/
theorem Step.handles (hstep : Step base s p s') (hcalls : (s.pc p).Of .windows)
    (h : ∀ q, s.handles.count q = owned (s.managers q) (s.pc q)) (q : ℤ) :
    s'.handles.count q = owned (s'.managers q) (s'.pc q) := by
  by_cases hqp : q = p
  swap
  · obtain ⟨hmanager, hpc, hcount⟩ := hstep.of_ne hqp
    rw [hcount, h q, hmanager, hpc]
  subst hqp
  have hq := h q
  cases hstep with
  | start hm =>
    rw [hm] at hq
    refine hq.trans (Eq.trans ?_ (owned_update ..).symm)
    rfl
  | quiet hm hfm' hfrom hto =>
    rw [hm] at hq
    refine hq.trans (Eq.trans ?_ (owned_update ..).symm)
    rw [owned, owned, if_neg hfrom, if_neg hto.1, hfm']
  | makeMutex hm hpc hfree =>
    refine Eq.trans ?_ (owned_update ..).symm
    exact List.count_singleton_self
  | foundMutex hm hpc =>
    rw [hm, hpc] at hq
    refine Eq.trans ?_ (owned_update ..).symm
    exact List.count_cons_self.trans (congrArg (· + 1) hq)
  | closeHandle hm hpc =>
    rw [hm, hpc] at hq
    refine Eq.trans ?_ (owned_update ..).symm
    exact List.count_erase_self.trans (congrArg (· - 1) hq)
  | makeSemaphore hm hpc =>
    rcases hpc with hpc | hpc <;> rw [hpc] at hcalls <;> exact hcalls.elim
  | value hm hpc =>
    rcases hpc with ⟨hpc, -⟩ | ⟨hpc, -⟩ <;> rw [hpc] at hcalls <;> exact hcalls.elim
  | setName hm hpc =>
    rw [hm, hpc] at hq
    refine hq.trans (Eq.trans ?_ (owned_update ..).symm)
    rfl
  | @exit fm hm hpc =>
    rw [hm, hpc] at hq
    refine Eq.trans ?_ (owned_update ..).symm
    show List.count q (if fm.mutexHandle = none then s.handles else s.handles.erase q) = 0
    split
    · next hnone => exact hq.trans (by rw [owned, if_pos hnone]; rfl)
    · next hsome =>
      rw [List.count_erase_self, hq, owned, if_neg hsome]
      rfl
  | crash hm =>
    refine Eq.trans ?_ (owned_update ..).symm
    exact List.count_eq_zero.mpr fun hmem => of_decide_eq_true (List.mem_filter.mp hmem).2 rfl

/-! ### Who takes `base.log` -/

/-- The name of the first process's file. -/
def firstName (base : Text) : Text := base ++ ".log".toList

/-- **A process that takes `base.log` has made the object**, and still has its handle. -/
structure Honest (base : Text) (fm : FileManager) (pc : Pc) : Prop where
  baseName : fm.baseName = base
  told : pc = .setName false → fm.mutexHandle ≠ none
  named : fm.currentFileName = firstName base → fm.mutexHandle ≠ none

theorem Honest.of_pc {fm : FileManager} {pc pc' : Pc} (hpc : pc' = pc)
    (h : Honest base fm pc) : Honest base fm pc' := hpc ▸ h

theorem honest_start (base : Text) : Honest base (ofBaseName base) .idle where
  baseName := rfl
  told h := absurd h (by simp)
  named h := absurd h (by simp [ofBaseName, firstName])

/-- A name with a process id is not the name of the first. -/
theorem generateFileName_ne {fm : FileManager} (h : fm.baseName = base) :
    fm.generateFileName false ≠ firstName base := by
  intro heq
  have hlength := congrArg List.length heq
  simp [generateFileName, firstName, h] at hlength

theorem Step.honest (hstep : Step base s p s')
    (h : ∀ q fm, s.managers q = some fm → Honest base fm (s.pc q)) (q : ℤ) (fm : FileManager)
    (hq : s'.managers q = some fm) : Honest base fm (s'.pc q) := by
  by_cases hqp : q = p
  swap
  · obtain ⟨hmanager, hpc, -⟩ := hstep.of_ne hqp
    rw [hpc]
    exact h q fm (hmanager ▸ hq)
  subst hqp
  cases hstep with
  | start hm =>
    obtain rfl := Option.some.inj (eq_of_update_self hq)
    exact .of_pc (update_self ..) (honest_start base)
  | quiet hm hfm' hfrom hto =>
    obtain rfl := Option.some.inj (eq_of_update_self hq)
    obtain ⟨hbase, -, hnamed⟩ := h q _ hm
    refine .of_pc (update_self ..) ⟨?_, fun htold => absurd htold hto.2, ?_⟩
    · rw [hfm']
      exact hbase
    · rw [hfm']
      exact hnamed
  | makeMutex hm | makeSemaphore hm =>
    obtain rfl := Option.some.inj (eq_of_update_self hq)
    exact .of_pc (update_self ..)
      ⟨(h q _ hm).baseName, fun _ => Option.some_ne_none _, fun _ => Option.some_ne_none _⟩
  | foundMutex hm | closeHandle hm =>
    obtain rfl := Option.some.inj (eq_of_update_self hq)
    obtain ⟨hbase, -, hnamed⟩ := h q _ hm
    exact .of_pc (update_self ..) ⟨hbase, fun htold => absurd htold (by simp), hnamed⟩
  | value hm hpc =>
    obtain rfl := Option.some.inj (eq_of_update_self hq)
    obtain ⟨hbase, -, hnamed⟩ := h q _ hm
    refine .of_pc (update_self ..) ⟨hbase, fun htold => ?_, hnamed⟩
    rcases hpc with ⟨-, rfl⟩ | ⟨-, rfl⟩ <;> contradiction
  | @setName fm another hm hpc =>
    obtain rfl := Option.some.inj (eq_of_update_self hq)
    obtain ⟨hbase, htold, -⟩ := h q fm hm
    refine .of_pc (update_self ..) ⟨hbase, fun h => absurd h (by simp), fun hnamed => ?_⟩
    cases another with
    | false => exact htold hpc
    | true => exact absurd hnamed (generateFileName_ne hbase)
  | exit | crash => exact absurd (eq_of_update_self hq) (Option.some_ne_none fm).symm

/-! ### The race -/

/-- **Whatever the interleaving**, exits and crashes included. -/
structure Fair (base : Text) (s : State host) : Prop where
  /-- No two live processes have taken `base.log`. -/
  names : ∀ p q fm fm', s.managers p = some fm → s.managers q = some fm' →
    fm.currentFileName = firstName base → fm'.currentFileName = firstName base → p = q
  /-- And no two have the object. -/
  unique : ∀ p q, s.First p → s.First q → p = q
  /-- On macOS it is made once, whoever is gone since. -/
  once : host.os = .macos → s.creators.length ≤ 1
  /-- On Windows it exists while a process is first, or is about to close a mutex that it
  found. -/
  existing : host.os = .windows →
    (s.handles ≠ [] ↔ ∃ p, s.First p ∨ (s.managers p).isSome ∧ s.pc p = .closeHandle)

/-- What every step keeps. -/
structure Inv (base : Text) (s : State host) : Prop where
  calls : ∀ p, (s.pc p).Of host.os
  honest : ∀ p fm, s.managers p = some fm → Honest base fm (s.pc p)
  unique : ∀ p q, s.First p → s.First q → p = q
  handles : host.os = .windows → ∀ p, s.handles.count p = owned (s.managers p) (s.pc p)
  made : host.os = .macos → s.creators = [] ∧ (∀ p, ¬ s.First p) ∨
    s.creators.length = 1 ∧ s.world.semaphores (semaphoreOf host base) ≠ none

theorem owned_pos {m : Option FileManager} {pc : Pc} :
    owned m pc ≠ 0 ↔ ∃ fm, m = some fm ∧ (fm.mutexHandle ≠ none ∨ pc = .closeHandle) := by
  cases m with
  | none => simp [owned]
  | some fm =>
    by_cases hhandle : fm.mutexHandle = none <;> by_cases hpc : pc = .closeHandle <;>
      simp [owned, hhandle, hpc]

/-- The handles that there are. -/
theorem Inv.existing (h : Inv base s) (hos : host.os = .windows) :
    s.handles ≠ [] ↔ ∃ p, s.First p ∨ (s.managers p).isSome ∧ s.pc p = .closeHandle := by
  have hmem : ∀ p, p ∈ s.handles ↔ s.First p ∨ (s.managers p).isSome ∧ s.pc p = .closeHandle := by
    intro p
    rw [← List.count_pos_iff, Nat.pos_iff_ne_zero, h.handles hos p, owned_pos]
    constructor
    · rintro ⟨fm, hfm, hhandle | hpc⟩
      · exact .inl ⟨fm, hfm, hhandle⟩
      · exact .inr ⟨by rw [hfm]; rfl, hpc⟩
    · rintro (⟨fm, hfm, hhandle⟩ | ⟨hsome, hpc⟩)
      · exact ⟨fm, hfm, .inl hhandle⟩
      · obtain ⟨fm, hfm⟩ := Option.isSome_iff_exists.mp hsome
        exact ⟨fm, hfm, .inr hpc⟩
  rw [ne_eq, List.eq_nil_iff_forall_not_mem, not_forall_not]
  exact exists_congr hmem

/-- Who is first keeps the object in being. -/
theorem Inv.exists_of_first (h : Inv base s) (hp : s.First p) : s.Exists base := by
  unfold State.Exists
  cases hos : host.os with
  | windows => exact (h.existing hos).mpr ⟨p, .inl hp⟩
  | macos =>
    rcases h.made hos with ⟨-, hnone⟩ | ⟨-, hexists⟩
    · exact absurd hp (hnone p)
    · exact hexists

theorem fair_of_inv (h : Inv base s) : Fair base s where
  names p q fm fm' hp hq hname hname' :=
    h.unique p q ⟨fm, hp, (h.honest p fm hp).named hname⟩
      ⟨fm', hq, (h.honest q fm' hq).named hname'⟩
  unique := h.unique
  once hos := by
    rcases h.made hos with ⟨hnone, -⟩ | ⟨hone, -⟩
    · rw [hnone]
      exact Nat.zero_le 1
    · exact hone.le
  existing := h.existing

/-- A semaphore that exists is never unlinked. -/
theorem Step.semaphore (h : Step base s p s')
    (hexists : s.world.semaphores (semaphoreOf host base) ≠ none) :
    s'.world.semaphores (semaphoreOf host base) ≠ none := by
  cases h with
  | makeSemaphore _ _ hfree => exact absurd hfree hexists
  | value _ _ hw => exact hw hexists
  | _ => exact hexists

theorem Step.inv (hstep : Step base s p s') (h : Inv base s) : Inv base s' := by
  have hmade := hstep.made (h.calls p)
  refine ⟨hstep.calls h.calls, hstep.honest h.honest, fun q r hq hr => ?_, fun hos => ?_,
    fun hos => ?_⟩
  · rcases hmade with ⟨-, hold⟩ | ⟨hfree, -, -, hnew⟩
    · exact h.unique q r (hold q hq) (hold r hr)
    · -- the object did not exist, so nobody was first
      rcases hnew q hq with hq | rfl
      · exact absurd (h.exists_of_first hq) hfree
      rcases hnew r hr with hr | rfl
      · exact absurd (h.exists_of_first hr) hfree
      · rfl
  · exact hstep.handles (hos ▸ h.calls p) (h.handles hos)
  · rcases hmade with ⟨hcreators, hold⟩ | ⟨hfree, hexists, hcreators, -⟩
    · rw [hcreators]
      refine (h.made hos).imp (And.imp_right fun hnone q hq => hnone q (hold q hq)) ?_
      exact And.imp_right hstep.semaphore
    · unfold State.Exists at hfree hexists
      rw [hos] at hfree hexists
      rcases h.made hos with ⟨hnil, -⟩ | ⟨-, hbefore⟩
      · exact .inr ⟨by rw [hcreators, hnil]; rfl, hexists⟩
      · exact absurd hbefore hfree

theorem inv_init (base : Text) (w : World host) : Inv base (init w) where
  calls _ := of_idle _
  honest _ _ h := by contradiction
  unique _ _ h := absurd h.choose_spec.1 (Option.some_ne_none _).symm
  handles _ _ := rfl
  made _ := .inl ⟨rfl, fun _ h => absurd h.choose_spec.1 (Option.some_ne_none _).symm⟩

/-- **The race has one winner.**  In every run of any number of processes, one call of the
system at a time, whichever calls fail and whoever exits or crashes in between, no two live
processes have taken `base.log`. -/
theorem fair {w : World host} (hs : Reachable (next base) Always (init w) s) : Fair base s := by
  refine fair_of_inv (hs.invariant (inv_init base w) ?_)
  rintro s ⟨p, a⟩ s' - h - hnext
  exact (step_of_next hnext).inv h

/-- Process `p` starts, checks, and makes `n` calls. -/
def joins (p : ℤ) (n : ℕ) : List (ℤ × Act) :=
  (p, .start) :: (p, .check) :: List.replicate n (p, .step true)

/-- Process 7 is first and leaves while process 8 is about to close the handle of its mutex;
process 9 finds the mutex all the same, and nobody is first. -/
theorem fair_between_calls : ∃ s : State Host.windows,
    Reachable (next "C:\\app".toList) Always (init (.empty Host.windows)) s ∧
    (s.managers 7 = none ∧ s.handles = [8] ∧
      (s.managers 9).map currentFileName = some "C:\\app_9.log".toList) ∧
    Fair "C:\\app".toList s := by
  obtain ⟨s, hs, hp⟩ := exists_reachable_of_decide (next "C:\\app".toList)
    (init (.empty Host.windows))
    (fun s => s.managers 7 = none ∧ s.handles = [8] ∧
      (s.managers 9).map currentFileName = some "C:\\app_9.log".toList) Always
    (joins 7 2 ++ joins 8 1 ++ [(7, .exit)] ++ joins 9 3) (by decide +kernel)
  exact ⟨s, hs, hp, fair hs⟩

end Races
end Processes
end SpeckitLog
