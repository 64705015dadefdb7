import SpeckitLog.FileManager.Threads
import Mathlib.Data.Fintype.Basic

/-!
# Threads that keep out of each other's way

Between the `fclose` of a `Rotate` and its reset of the size the manager has no file, or one
whose size is not right yet; a `Write` adds to the size in two steps.  Nothing keeps other
threads out.  A step is clear when it does not come in between.

## Main definitions

* `Clear` — a step that does not come between the steps of another call.
* `Stages` — what the manager is in the middle of a rotation, and otherwise.
* `Effect` — what a clear step does.

## Main results

* `effect_of_step` — **a clear step does what it is meant to.**
* `Stages.effect` — the stages are kept.
-/

namespace SpeckitLog
namespace FileManager
namespace Threads

open Function Transition

variable {ι δ : Type*} [DecidableEq δ] {host : Host δ}

/-! ### Clear steps -/

/-- The thread is in `Rotate`, has closed the file, and has not opened the next one. -/
def Pc.Shut : Pc → Prop
  | .clearHandle | .rename | .deleteOldest | .setName | .openFile => True
  | _ => False

/-- The thread is in `Rotate`, has closed the file, and has not reset the size. -/
def Pc.Between (p : Pc) : Prop := p.Shut ∨ p = .clearSize

/-- The thread has loaded the size and not stored it. -/
def Pc.Storing : Pc → Prop
  | .storeSize _ _ => True
  | _ => False

/-- What the thread has written and not added to the size. -/
def Pc.owes : Pc → Option Text
  | .loadSize data | .storeSize data _ => some data
  | _ => none

/-- The record of a `Write` that is past its `fwrite`, and returns true if it returns. -/
def Pc.pending : Pc → Option Text
  | .loadSize data | .storeSize data _ | .testFlush data | .flush data | .wrote data true =>
    some data
  | _ => none

instance : DecidablePred Pc.Shut := fun p => by
  cases p <;> unfold Pc.Shut <;> infer_instance

instance : DecidablePred Pc.Between := fun _ => inferInstanceAs (Decidable (_ ∨ _))

instance : DecidablePred Pc.Storing := fun p => by
  cases p <;> unfold Pc.Storing <;> infer_instance

namespace State

variable (s : State ι host)

/-- No rotation is between its `fclose` and its reset of the size. -/
def Settled : Prop := ∀ j, ¬ (s.pc j).Between

instance [Fintype ι] : Decidable s.Settled := inferInstanceAs (Decidable (∀ _, _))

end State

/-- **The step is clear.**  No `fwrite` and no `fclose` comes between the `fclose` of a
rotation and its reset of the size, and no flush before it has opened the next file.  No size
is loaded while another thread is about to store one, and none is reset while it does not
count what was written.  A rotation finds a file to close, and opens one without bytes. -/
def Clear (s : State ι host) (a : ι × Act) : Prop :=
  match s.pc a.1 with
  | .fwrite _ | .fclose => s.Settled
  | .flush _ => ∀ j, ¬ (s.pc j).Shut
  | .loadSize _ => s.Settled → ∀ j, ¬ (s.pc j).Storing
  | .testClose => s.fm.fileHandle ≠ none
  | .openFile => (s.world.fs.content (host.locate s.fm.currentFileName)).getD [] = []
  | .clearSize => ∀ j, (s.pc j).owes = none
  | _ => True

instance [Fintype ι] (s : State ι host) (a : ι × Act) : Decidable (Clear s a) := by
  unfold Clear
  split <;> infer_instance

/-- The name that a rotation gives to the file is free. -/
def NameFree (cwd : Text) (s : State ι host) (a : ι × Act) : Prop :=
  s.pc a.1 = .rename → s.world.fs.lookup (host.locate (s.fm.sequenceName
    (calculateNextSequenceNumber (s.fm.getHistoricalFiles s.world cwd)))) = none

instance (cwd : Text) (s : State ι host) (a : ι × Act) : Decidable (NameFree cwd s a) :=
  inferInstanceAs (Decidable (_ → _))

/-! ### What the manager is in the middle of a rotation -/

/-- The manager and its world, without the threads. -/
def State.journal (s : State ι host) : Journal host := ⟨s.fm, s.world, []⟩

/-- What a thread at this point of a rotation has made of the manager. -/
def Pc.Stage (s : State ι host) : Pc → Prop
  | .clearHandle => s.closed = true ∧ ∃ n, s.fm.fileHandle = some ⟨n, []⟩ ∧
      s.world.fs.lookup (host.locate s.fm.currentFileName) = some n
  | .rename => s.closed = false ∧ s.fm.fileHandle = none ∧
      ∃ n, s.world.fs.lookup (host.locate s.fm.currentFileName) = some n
  | .deleteOldest | .setName | .openFile => s.closed = false ∧ s.fm.fileHandle = none
  | .clearSize => s.closed = false ∧ ∃ f, s.journal.Open f ∧ f.bytes s.world.fs = []
  | _ => True

theorem Pc.stage_of_not_between {p : Pc} (s : State ι host) (h : ¬ p.Between) : p.Stage s := by
  cases p with
  | clearHandle | rename | deleteOldest | setName | openFile =>
    exact absurd (Or.inl trivial) h
  | clearSize => exact absurd (Or.inr rfl) h
  | _ => trivial

theorem Pc.not_between {p : Pc} (h : ¬ p.Shut) (h' : p ≠ .clearSize) : ¬ p.Between :=
  fun hb => hb.elim h h'

/-- **No two threads are in the middle of a rotation**, and otherwise the current file is open
under its name. -/
structure Stages (s : State ι host) : Prop where
  absolute : host.isAbsolute s.fm.baseName = true
  valid : s.misused = false
  alone : ∀ i j, (s.pc i).Between → (s.pc j).Between → i = j
  settled : s.Settled → s.closed = false ∧ ∃ f, s.journal.Open f
  stage : ∀ i, (s.pc i).Stage s

variable {cwd : Text} {s s' : State ι host} {i j : ι} {a : Act}

theorem stream_of_open {f : FileStream} (hclosed : s.closed = false) (hopen : s.journal.Open f) :
    s.stream = some f := by
  rw [State.stream, hclosed]
  exact hopen.stream

/-- The steps of `Write` that only count. -/
structure SameFile (s s' : State ι host) : Prop where
  baseName : s'.fm.baseName = s.fm.baseName
  currentFileName : s'.fm.currentFileName = s.fm.currentFileName
  fileHandle : s'.fm.fileHandle = s.fm.fileHandle
  closed : s'.closed = s.closed
  world : s'.world = s.world
  misused : s'.misused = s.misused

theorem SameFile.isOpen (h : SameFile s s') {f : FileStream} (hopen : s.journal.Open f) :
    s'.journal.Open f where
  stream := h.fileHandle.trans hopen.stream
  named := by
    show s'.world.fs.lookup (host.locate s'.fm.currentFileName) = _
    rw [h.world, h.currentFileName]
    exact hopen.named

theorem SameFile.stage (h : SameFile s s') {p : Pc} (hp : p.Stage s) : p.Stage s' := by
  cases p with
  | clearHandle | rename =>
    unfold Pc.Stage at hp ⊢
    rwa [h.closed, h.fileHandle, h.world, h.currentFileName]
  | deleteOldest | setName | openFile =>
    unfold Pc.Stage at hp ⊢
    rwa [h.closed, h.fileHandle]
  | clearSize =>
    obtain ⟨hclosed, f, hopen, hempty⟩ := hp
    exact ⟨h.closed.trans hclosed, f, h.isOpen hopen, by rw [h.world]; exact hempty⟩
  | _ => trivial

/-- A flush comes when the manager has a file. -/
theorem Stages.open_of_not_shut (h : Stages s) (hshut : ∀ j, ¬ (s.pc j).Shut) :
    s.closed = false ∧ ∃ f, s.journal.Open f := by
  by_cases hsettled : s.Settled
  · exact h.settled hsettled
  · obtain ⟨j, hj⟩ := not_forall_not.mp hsettled
    have hpc := hj.resolve_left (hshut j)
    have hstage := h.stage j
    rw [hpc] at hstage
    obtain ⟨hclosed, f, hopen, -⟩ := hstage
    exact ⟨hclosed, f, hopen⟩

/-- Neither here nor there does the thread touch the manager. -/
structure Pc.Quiet (p : Pc) : Prop where
  between : ¬ p.Between
  owes : p.owes = none

variable [DecidableEq ι]

/-- **What a clear step does.** -/
inductive Effect (s : State ι host) (i : ι) : State ι host → Prop
  /-- The thread goes on, and touches nothing. -/
  | quiet {p : Pc} (hfrom : (s.pc i).Quiet) (hto : p.Quiet)
      (hpending : p.pending = (s.pc i).pending) : Effect s i (s.goto i p)
  | load {data : Text} (hpc : s.pc i = .loadSize data)
      (hnone : s.Settled → ∀ j, ¬ (s.pc j).Storing) :
      Effect s i (s.goto i (.storeSize data s.fm.currentFileSize))
  | write {data : Text} {pushed : ℕ} {f : FileStream} (hpc : s.pc i = .fwrite data)
      (hsettled : s.Settled) (hopen : s.journal.Open f) : Effect s i
      { s with
        fm := s.fm.withHandle (some (f.fwrite s.world.fs data pushed).1)
        world := withFiles s.world (f.fwrite s.world.fs data pushed).2
        log := s.log ++ [(f.file, ⟨i, s.number i, data⟩)]
        pc := update s.pc i (.loadSize data) }
  | store {data : Text} {size : ℕ} (hpc : s.pc i = .storeSize data size) :
      Effect s i (s.storeSize i data size)
  | flush {data : Text} {f : FileStream} (hpc : s.pc i = .flush data) (hclosed : s.closed = false)
      (hopen : s.journal.Open f) : Effect s i
      { s with
        fm := s.fm.withHandle (some (f.fflush s.world.fs).1)
        world := withFiles s.world (f.fflush s.world.fs).2
        pc := update s.pc i (.wrote data true) }
  | ret {data : Text} {ok : Bool} (hpc : s.pc i = .wrote data ok) :
      Effect s i (s.returnWrite i data ok)
  | close {f : FileStream} (hpc : s.pc i = .fclose) (hsettled : s.Settled)
      (hopen : s.journal.Open f) : Effect s i
      { s with
        fm := s.fm.withHandle (some ⟨f.file, []⟩)
        closed := true
        world := withFiles s.world (f.fclose s.world.fs)
        pc := update s.pc i .clearHandle }
  | clear (hpc : s.pc i = .clearHandle) : Effect s i (s.clearHandle i)
  | rename {fs : FileSystem host.Place} (hpc : s.pc i = .rename)
      (hren : s.world.fs.rename (host.locate s.fm.currentFileName)
        (host.locate (s.fm.sequenceName 1)) = some fs) : Effect s i
      { s with world := withFiles s.world fs, pc := update s.pc i .deleteOldest }
  | remove (hpc : s.pc i = .deleteOldest) : Effect s i (s.goto i .setName)
  | name (hpc : s.pc i = .setName) : Effect s i (s.setName i)
  | reopen (hpc : s.pc i = .openFile)
      (hempty : (s.world.fs.content (host.locate s.fm.currentFileName)).getD [] = []) :
      Effect s i (s.openFile i)
  | reset (hpc : s.pc i = .clearSize) (hnone : ∀ j, (s.pc j).owes = none) :
      Effect s i (s.clearSize i)

/-- The program points at which a thread is quiet. -/
theorem Pc.quiet_of {p : Pc} (h : ¬ p.Shut) (h' : p ≠ .clearSize) (howes : p.owes = none) :
    p.Quiet := ⟨Pc.not_between h h', howes⟩

/-- **A clear step does what it is meant to.** -/
theorem effect_of_step (h : Stages s) (hclear : Clear s (i, a)) (hstep : Step cwd s i a s') :
    Effect s i s' := by
  have hquiet : ∀ {p q : Pc}, s.pc i = p → (¬ p.Shut ∧ p ≠ .clearSize ∧ p.owes = none) →
      (¬ q.Shut ∧ q ≠ .clearSize ∧ q.owes = none) → q.pending = p.pending →
      Effect s i (s.goto i q) := by
    rintro p q rfl hp hq hpending
    exact .quiet (Pc.quiet_of hp.1 hp.2.1 hp.2.2) (Pc.quiet_of hq.1 hq.2.1 hq.2.2) hpending
  have hstage := h.stage i
  cases hstep with
  | callWrite hpc => exact hquiet hpc ⟨id, by simp, rfl⟩ ⟨id, by simp, rfl⟩ rfl
  | callRotate hpc => exact hquiet hpc ⟨id, by simp, rfl⟩ ⟨id, by simp, rfl⟩ rfl
  | testWrite hpc =>
    split
    · exact hquiet hpc ⟨id, by simp, rfl⟩ ⟨id, by simp, rfl⟩ rfl
    · exact hquiet hpc ⟨id, by simp, rfl⟩ ⟨id, by simp, rfl⟩ rfl
  | fwrite hpc =>
    simp only [Clear, hpc] at hclear
    obtain ⟨hclosed, f, hopen⟩ := h.settled hclear
    simp only [State.fwrite, stream_of_open hclosed hopen]
    exact .write hpc hclear hopen
  | loadSize hpc =>
    simp only [Clear, hpc] at hclear
    exact .load hpc hclear
  | storeSize hpc => exact .store hpc
  | testFlush hpc =>
    split
    · exact hquiet hpc ⟨id, by simp, rfl⟩ ⟨id, by simp, rfl⟩ rfl
    · exact hquiet hpc ⟨id, by simp, rfl⟩ ⟨id, by simp, rfl⟩ rfl
  | flush hpc =>
    simp only [Clear, hpc] at hclear
    obtain ⟨hclosed, f, hopen⟩ := h.open_of_not_shut hclear
    simp only [State.flush, stream_of_open hclosed hopen]
    exact .flush hpc hclosed hopen
  | returnWrite hpc => exact .ret hpc
  | testRotate hpc =>
    split
    · exact hquiet hpc ⟨id, by simp, rfl⟩ ⟨id, by simp, rfl⟩ rfl
    · exact hquiet hpc ⟨id, by simp, rfl⟩ ⟨id, by simp, rfl⟩ rfl
  | testClose hpc =>
    simp only [Clear, hpc] at hclear
    rw [if_neg hclear]
    exact hquiet hpc ⟨id, by simp, rfl⟩ ⟨id, by simp, rfl⟩ rfl
  | fclose hpc =>
    simp only [Clear, hpc] at hclear
    obtain ⟨hclosed, f, hopen⟩ := h.settled hclear
    simp only [State.fclose, stream_of_open hclosed hopen]
    exact .close hpc hclear hopen
  | clearHandle hpc => exact .clear hpc
  | rename hpc =>
    rw [hpc] at hstage
    obtain ⟨-, -, n, hn⟩ := hstage
    obtain ⟨fs, hren⟩ := Option.isSome_iff_exists.mp
      (s.world.fs.rename_isSome (host.locate (s.fm.sequenceName 1)) hn)
    have hseq : calculateNextSequenceNumber (s.fm.getHistoricalFiles s.world cwd) = 1 := by
      rw [getHistoricalFiles_eq_nil h.absolute]
      rfl
    simp only [State.rename, hseq, renameWithSequence_some hren, if_true]
    exact .rename hpc hren
  | deleteOldest hpc =>
    have hsame : s.deleteOldest i cwd = s.goto i .setName := by
      rw [State.deleteOldest, deleteOldestFiles_eq h.absolute]
      rfl
    rw [hsame]
    exact .remove hpc
  | setName hpc => exact .name hpc
  | openFile hpc =>
    simp only [Clear, hpc] at hclear
    exact .reopen hpc hclear
  | clearSize hpc =>
    simp only [Clear, hpc] at hclear
    exact .reset hpc hclear
  | returnRotate hpc => exact hquiet hpc ⟨id, by simp, rfl⟩ ⟨id, by simp, rfl⟩ rfl

theorem Effect.pc_of_ne (h : Effect s i s') (hji : j ≠ i) : s'.pc j = s.pc j := by
  cases h <;> exact update_of_ne hji _ _

/-- Who is in the middle of a rotation, when thread `i` is not. -/
theorem settled_iff (h : Effect s i s') (hfrom : ¬ (s.pc i).Between) (hto : ¬ (s'.pc i).Between) :
    s'.Settled ↔ s.Settled := by
  refine forall_congr' fun j => ?_
  by_cases hji : j = i
  · rw [hji]
    exact iff_of_true hto hfrom
  · rw [h.pc_of_ne hji]

/-- A thread that is in no rotation leaves the stages as they are. -/
theorem Stages.of_outside (h : Stages s) (heffect : Effect s i s')
    (hfrom : ¬ (s.pc i).Between) (hto : ¬ (s'.pc i).Between)
    (hbase : s'.fm.baseName = s.fm.baseName) (hvalid : s'.misused = s.misused)
    (hopen : s.closed = false ∧ (∃ f, s.journal.Open f) →
      s'.closed = false ∧ ∃ f, s'.journal.Open f)
    (hstage : ∀ p : Pc, p.Stage s → p.Stage s') : Stages s' := by
  have hbetween : ∀ j, (s'.pc j).Between → j ≠ i ∧ (s.pc j).Between := by
    intro j hj
    have hji : j ≠ i := fun hji => hto (hji ▸ hj)
    exact ⟨hji, by rwa [heffect.pc_of_ne hji] at hj⟩
  refine ⟨hbase ▸ h.absolute, hvalid.trans h.valid, fun j k hj hk => ?_, fun hs => ?_, fun j => ?_⟩
  · exact h.alone j k (hbetween j hj).2 (hbetween k hk).2
  · exact hopen (h.settled ((settled_iff heffect hfrom hto).mp hs))
  · by_cases hji : j = i
    · rw [hji]
      exact Pc.stage_of_not_between _ hto
    · rw [heffect.pc_of_ne hji]
      exact hstage _ (h.stage j)

theorem Stages.of_sameFile (h : Stages s) (heffect : Effect s i s')
    (hfrom : ¬ (s.pc i).Between) (hto : ¬ (s'.pc i).Between) (hsame : SameFile s s') :
    Stages s' :=
  h.of_outside heffect hfrom hto hsame.baseName hsame.misused
    (fun hopen => ⟨hsame.closed.trans hopen.1, hopen.2.imp fun _ => hsame.isOpen⟩)
    fun _ => hsame.stage

/-- While a thread is in a rotation everybody else is outside. -/
theorem Stages.of_between (h : Stages s) (heffect : Effect s i s') {p : Pc}
    (hpc : s'.pc i = p) (hfrom : s.Settled ∨ (s.pc i).Between)
    (hbase : s'.fm.baseName = s.fm.baseName) (hvalid : s'.misused = s.misused)
    (hstage : p.Stage s') (hto : p.Between ∨ s'.closed = false ∧ ∃ f, s'.journal.Open f) :
    Stages s' := by
  have hothers : ∀ j, j ≠ i → ¬ (s'.pc j).Between := by
    intro j hji hj
    rw [heffect.pc_of_ne hji] at hj
    rcases hfrom with hsettled | hi
    · exact hsettled j hj
    · exact hji (h.alone j i hj hi)
  refine ⟨hbase ▸ h.absolute, hvalid.trans h.valid, fun j k hj hk => ?_,
    fun hs => hto.resolve_left (hpc ▸ hs i), fun j => ?_⟩
  · rw [not_imp_comm.mp (hothers j) (not_not_intro hj), not_imp_comm.mp (hothers k)
      (not_not_intro hk)]
  · by_cases hji : j = i
    · rw [hji, hpc]
      exact hstage
    · exact Pc.stage_of_not_between _ (hothers j hji)

omit [DecidableEq ι] in
/-- What a file has that is opened without bytes. -/
theorem bytes_openFile
    (hempty : (s.world.fs.content (host.locate s.fm.currentFileName)).getD [] = []) :
    (s.world.fs.openAppend (host.locate s.fm.currentFileName)).2.data
      (s.world.fs.openAppend (host.locate s.fm.currentFileName)).1 = [] := by
  cases hlookup : s.world.fs.lookup (host.locate s.fm.currentFileName) with
  | none => exact FileSystem.data_openAppend_new _ hlookup
  | some n =>
    rw [FileSystem.content, hlookup] at hempty
    rw [FileSystem.openAppend, hlookup]
    exact hempty

/-- **The stages are kept.** -/
theorem Stages.effect (h : Stages s) (heffect : Effect s i s') : Stages s' := by
  have hall := heffect
  have hstage := h.stage i
  have hself : ∀ p : Pc, ¬ p.Shut → p ≠ .clearSize → ¬ (update s.pc i p i).Between := by
    intro p hshut hclear
    rw [update_self]
    exact Pc.not_between hshut hclear
  have hsame : ∀ pc : ι → Pc, SameFile s { s with pc := pc } := fun _ =>
    ⟨rfl, rfl, rfl, rfl, rfl, rfl⟩
  cases heffect with
  | quiet hfrom hto =>
    refine h.of_sameFile hall hfrom.between ?_ (hsame _)
    rw [State.goto_pc, update_self]
    exact hto.between
  | load hpc _ =>
    exact h.of_sameFile hall (hpc ▸ Pc.not_between id (by simp)) (hself _ id (by simp)) (hsame _)
  | store hpc =>
    exact h.of_sameFile hall (hpc ▸ Pc.not_between id (by simp)) (hself _ id (by simp))
      ⟨rfl, rfl, rfl, rfl, rfl, rfl⟩
  | ret hpc =>
    exact h.of_sameFile hall (hpc ▸ Pc.not_between id (by simp)) (hself _ id (by simp))
      ⟨rfl, rfl, rfl, rfl, rfl, rfl⟩
  | write hpc hsettled hopen =>
    exact h.of_between hall (update_self ..) (Or.inl hsettled) rfl rfl trivial
      (Or.inr ⟨(h.settled hsettled).1, _, rfl, hopen.named⟩)
  | flush hpc hclosed hopen =>
    refine h.of_outside hall (hpc ▸ Pc.not_between id (by simp)) (hself _ id (by simp)) rfl rfl
      (fun hs => ⟨hs.1, _, rfl, hopen.named⟩) fun p hp => ?_
    -- of the points of a rotation only the last has an open file
    cases p with
    | clearHandle => exact absurd (hclosed.symm.trans hp.1) Bool.false_ne_true
    | rename => exact absurd (hp.2.1.symm.trans hopen.stream) (Option.some_ne_none _).symm
    | deleteOldest | setName | openFile =>
      exact absurd (hp.2.symm.trans hopen.stream) (Option.some_ne_none _).symm
    | clearSize =>
      obtain ⟨-, f', hopen', hempty⟩ := hp
      obtain rfl := Option.some.inj (hopen'.stream.symm.trans hopen.stream)
      exact ⟨hclosed, _, ⟨rfl, hopen.named⟩, (FileStream.bytes_fflush _ _).trans hempty⟩
    | _ => trivial
  | close hpc hsettled hopen =>
    exact h.of_between hall (update_self ..) (Or.inl hsettled) rfl rfl
      ⟨rfl, _, rfl, hopen.named⟩ (Or.inl (Or.inl trivial))
  | clear hpc =>
    rw [hpc] at hstage
    obtain ⟨-, n, -, hn⟩ := hstage
    exact h.of_between hall (update_self ..) (Or.inr (hpc ▸ Or.inl trivial)) rfl rfl
      ⟨rfl, rfl, n, hn⟩ (Or.inl (Or.inl trivial))
  | rename hpc hren =>
    rw [hpc] at hstage
    exact h.of_between hall (update_self ..) (Or.inr (hpc ▸ Or.inl trivial)) rfl rfl
      ⟨hstage.1, hstage.2.1⟩ (Or.inl (Or.inl trivial))
  | remove hpc =>
    rw [hpc] at hstage
    exact h.of_between hall (update_self ..) (Or.inr (hpc ▸ Or.inl trivial)) rfl rfl hstage
      (Or.inl (Or.inl trivial))
  | name hpc =>
    rw [hpc] at hstage
    exact h.of_between hall (update_self ..) (Or.inr (hpc ▸ Or.inl trivial)) rfl rfl hstage
      (Or.inl (Or.inl trivial))
  | reopen hpc hempty =>
    refine h.of_between hall (update_self ..) (Or.inr (hpc ▸ Or.inl trivial)) rfl rfl ?_
      (Or.inl (Or.inr rfl))
    refine ⟨rfl, _, ⟨rfl, FileSystem.lookup_openAppend_self _ _⟩, ?_⟩
    exact (List.append_nil _).trans (bytes_openFile hempty)
  | reset hpc hnone =>
    rw [hpc] at hstage
    obtain ⟨hclosed, f, hopen, -⟩ := hstage
    exact h.of_between hall (update_self ..) (Or.inr (hpc ▸ Or.inr rfl)) rfl rfl trivial
      (Or.inr ⟨hclosed, f, hopen.stream, hopen.named⟩)

end Threads
end FileManager
end SpeckitLog
