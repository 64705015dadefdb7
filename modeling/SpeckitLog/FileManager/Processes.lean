import SpeckitLog.FileManager.Steps
import SpeckitLog.Lib.Transition

/-!
# Several processes with one base name

Each process has a file manager of the same base name, and its own current
directory; the processes of the machine take their steps in any order, and the
operating system gives any answers.

## Main definitions

* `Processes.State`, `Processes.next` — the managers, their world, and which name
  each `Initialize` chose.
* `Processes.nextEvent` — the same with the faults of the library.
-/

namespace SpeckitLog
namespace Processes

open Function Transition FileManager

variable {δ : Type*} [DecidableEq δ] {host : Host δ}

/-- The managers of the processes that are alive. -/
abbrev Managers := ℤ → Option FileManager

/-- Process `p` is initialized: it logs. -/
def Managers.Logs (managers : Managers) (p : ℤ) : Prop :=
  ∃ fm, managers p = some fm ∧ fm.initialized = true

/-- History: the name that an `Initialize` chose, and the managers of that moment. -/
structure Election where
  processId : ℤ
  managers : Managers
  fileName : Text

/-- The managers of the live processes, and the world they share. -/
structure State (host : Host δ) where
  managers : Managers
  world : World host
  elections : List Election

/-- Before any process starts. -/
def init (w : World host) : State host where
  managers _ := none
  world := w
  elections := []

/-- What a process does. -/
inductive Act
  | start (maxSize retentionCount : ℕ)
  | initializeAs (answers : InitAnswers)
  | write (data : Text) (answers : WriteAnswers)
  | flush (answers : WriteAnswers)
  | rotate (answers : RotateAnswers)
  | exit
  | crash

/-- Process `p` goes on with this manager. -/
def State.put (s : State host) (p : ℤ) (r : Bool × FileManager × World host) : State host :=
  { s with managers := update s.managers p (some r.2.1), world := r.2.2 }

/-- Process `p` is gone. -/
def State.drop (s : State host) (p : ℤ) (w : World host) : State host :=
  { s with managers := update s.managers p none, world := w }

/-- An `Initialize` that gets as far as to choose a name is on record. -/
def State.elect (s : State host) (p : ℤ) (fm : FileManager) (answers : InitAnswers)
    (fileName : Text) : State host :=
  if fm.initialized = false ∧ answers.parentDirectory = true then
    { s with elections := s.elections ++ [⟨p, s.managers, fileName⟩] }
  else s

theorem State.elect_managers (s : State host) (p : ℤ) (fm : FileManager) (answers : InitAnswers)
    (fileName : Text) : (s.elect p fm answers fileName).managers = s.managers := by
  unfold State.elect
  split <;> rfl

/-- One step of one process. -/
def next (base : Text) (cwd : ℤ → Text) (s : State host) : ℤ × Act → Option (State host)
  | (p, a) =>
    match s.managers p, a with
    | none, .start maxSize retentionCount =>
      some { s with managers := update s.managers p (some (configured base maxSize retentionCount)) }
    | some fm, .initializeAs answers =>
      let r := fm.initializeAs s.world (cwd p) p answers
      some ((s.elect p fm answers r.2.1.currentFileName).put p r)
    | some fm, .write data answers => some (s.put p (fm.write s.world data answers))
    | some fm, .flush answers => some (s.put p (fm.flush s.world answers))
    | some fm, .rotate answers => some (s.put p (fm.rotate s.world (cwd p) answers))
    | some fm, .exit => some (s.drop p (fm.destroy s.world))
    | some fm, .crash => some (s.drop p (fm.die s.world))
    | _, _ => none

/-- The steps of process `p`, one constructor for each kind. -/
inductive Step (base : Text) (cwd : ℤ → Text) (s : State host) (p : ℤ) : Act → State host → Prop
  | start {maxSize retentionCount : ℕ} (h : s.managers p = none) :
      Step base cwd s p (.start maxSize retentionCount)
        { s with
          managers := update s.managers p (some (configured base maxSize retentionCount)) }
  | initializeAs {fm : FileManager} {answers : InitAnswers} (h : s.managers p = some fm) :
      Step base cwd s p (.initializeAs answers)
        ((s.elect p fm answers
          (fm.initializeAs s.world (cwd p) p answers).2.1.currentFileName).put p
            (fm.initializeAs s.world (cwd p) p answers))
  | write {fm : FileManager} {a : Act} {r : Bool × FileManager × World host}
      (h : s.managers p = some fm) (hr : Written fm s.world r.2.1 r.2.2) :
      Step base cwd s p a (s.put p r)
  | rotate {fm : FileManager} {answers : RotateAnswers} (h : s.managers p = some fm) :
      Step base cwd s p (.rotate answers) (s.put p (fm.rotate s.world (cwd p) answers))
  | exit {fm : FileManager} (h : s.managers p = some fm) :
      Step base cwd s p .exit (s.drop p (fm.destroy s.world))
  | crash {fm : FileManager} (h : s.managers p = some fm) :
      Step base cwd s p .crash (s.drop p (fm.die s.world))

/-- **Every step is one of the listed kinds.** -/
theorem step_of_next {base : Text} {cwd : ℤ → Text} {s s' : State host} {p : ℤ} {a : Act}
    (h : next base cwd s (p, a) = some s') : Step base cwd s p a s' := by
  unfold next at h
  dsimp only at h
  split at h
  case h_1 hm => exact Option.some.inj h ▸ .start hm
  case h_2 fm answers hm => exact Option.some.inj h ▸ .initializeAs hm
  case h_3 fm data answers hm =>
    exact Option.some.inj h ▸ .write hm (written_of_write fm s.world data answers)
  case h_4 fm answers hm =>
    refine Option.some.inj h ▸ .write hm ?_
    unfold FileManager.flush
    split
    · exact .refl fm s.world
    · exact written_of_flushToFile fm s.world answers
  case h_5 fm answers hm => exact Option.some.inj h ▸ .rotate hm
  case h_6 fm hm => exact Option.some.inj h ▸ .exit hm
  case h_7 fm hm => exact Option.some.inj h ▸ .crash hm
  case h_8 => contradiction

/-- The other processes keep their managers. -/
theorem Step.managers_of_ne {base : Text} {cwd : ℤ → Text} {s s' : State host} {p q : ℤ} {a : Act}
    (h : Step base cwd s p a s') (hq : q ≠ p) : s'.managers q = s.managers q := by
  cases h with
  | initializeAs h =>
    refine (update_of_ne hq _ _).trans ?_
    rw [State.elect_managers]
  | _ => exact update_of_ne hq _ _

/-! ### Faults -/

/-- What happens in a process: it acts; or the library cannot write out what its stream holds
back, of which `pushed` bytes reach the file and the rest may be lost; or an exception of a
directory scan leaves its `Rotate`.  A call that fails and loses bytes is a lapse and what the
call does beside. -/
inductive Event
  | act (a : Act)
  | lapse (pushed : ℕ) (lost : Bool)
  | rotateThrows (renames : Bool)

/-- One event in one process. -/
def nextEvent (base : Text) (cwd : ℤ → Text) (s : State host) : ℤ × Event → Option (State host)
  | (p, .act a) => next base cwd s (p, a)
  | (p, .lapse pushed lost) =>
    (s.managers p).map fun fm => s.put p (false, fm.lapse s.world pushed lost)
  | (p, .rotateThrows renames) =>
    (s.managers p).map fun fm => s.put p (false, fm.rotateThrows s.world (cwd p) renames)

theorem managers_of_nextEvent {base : Text} {cwd : ℤ → Text} {s s' : State host} {p q : ℤ}
    {e : Event} (h : nextEvent base cwd s (p, e) = some s') (hq : q ≠ p) :
    s'.managers q = s.managers q := by
  cases e with
  | act a => exact (step_of_next h).managers_of_ne hq
  | lapse | rotateThrows =>
    obtain ⟨fm, -, rfl⟩ := Option.map_eq_some_iff.mp h
    exact update_of_ne hq _ _

/-! ### Lives of a process -/

/-- A process starts and opens its log file. -/
def launch (p : ℤ) : List (ℤ × Act) := [(p, .start 10 3), (p, .initializeAs ⟨true, true, true⟩)]

/-- A process exits. -/
def leave (p : ℤ) : List (ℤ × Act) := [(p, .exit)]

end Processes
end SpeckitLog
