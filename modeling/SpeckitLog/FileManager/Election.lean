import SpeckitLog.FileManager.Processes

/-!
# The election of the first process on macOS

A process is first when it creates the named semaphore.  Nothing ever unlinks the
semaphore, so after the first process no later one is first, whether or not any
other is still alive.  The election is accurate as long as a process that starts
alone finds no semaphore.

## Main definitions

* `Processes.Accurate` — the names that were chosen are the right ones.
* `Processes.AloneIsFirst` — who starts alone finds no semaphore.

## Main results

* `Processes.accurate` — under that condition the election is accurate.
* `Processes.not_accurate_restart` — a process that starts after the first has left.
-/

namespace SpeckitLog
namespace Processes

open Function Transition FileManager

variable {δ : Type*} [DecidableEq δ] {host : Host δ}

/-- **The election is accurate**: a process that starts while no other logs takes
`base.log`, and one that starts while another logs takes the name with its id. -/
def Accurate (base : Text) (s : State host) : Prop :=
  ∀ e ∈ s.elections,
    ((∀ q, q ≠ e.processId → ¬ e.managers.Logs q) → e.fileName = base ++ ".log".toList) ∧
    ((∃ q, q ≠ e.processId ∧ e.managers.Logs q) →
      e.fileName = base ++ '_' :: Text.decimal e.processId ++ ".log".toList)

/-- The semaphore of the base name. -/
def semaphoreOf (host : Host δ) (base : Text) : Text :=
  semaphoreName host.hash (host.filename base).1

/-- A process that chooses its name while no other logs finds no semaphore, and
meets no error when it creates it. -/
def AloneIsFirst (base : Text) (s : State host) (a : ℤ × Act) : Prop :=
  ∀ answers, a.2 = .initializeAs answers → (∀ q, q ≠ a.1 → ¬ s.managers.Logs q) →
    answers.createObject = true ∧ s.world.semaphores (semaphoreOf host base) = none

/-- A process that logs has left the semaphore behind. -/
structure Elections (baseName base : Text) (s : State host) : Prop where
  managers : ∀ p fm, s.managers p = some fm →
    (fm.baseName = baseName ∨ fm.baseName = base) ∧ (fm.initialized = true → fm.baseName = base) ∧
      (fm.fileHandle ≠ none → fm.initialized = true)
  semaphore : (∃ p, s.managers.Logs p) → s.world.semaphores (semaphoreOf host base) ≠ none
  accurate : Accurate base s

variable {baseName base : Text} {cwd : ℤ → Text} {s s' : State host} {p : ℤ}
  {fm fm' : FileManager} {w w' : World host}

/-- What a step does to one manager of an initialized process, or less. -/
theorem Elections.update (h : Elections baseName base s)
    (hmanagers : s'.managers = Function.update s.managers p (some fm'))
    (hp : (fm'.baseName = baseName ∨ fm'.baseName = base) ∧
      (fm'.initialized = true → fm'.baseName = base) ∧
      (fm'.fileHandle ≠ none → fm'.initialized = true))
    (hsem : (∃ q, s'.managers.Logs q) → s'.world.semaphores (semaphoreOf host base) ≠ none)
    (hacc : Accurate base s') : Elections baseName base s' where
  managers q fmq hq := by
    rw [hmanagers] at hq
    rcases of_update_some hq with ⟨-, rfl⟩ | ⟨-, hq⟩
    · exact hp
    · exact h.managers q fmq hq
  semaphore := hsem
  accurate := hacc

/-- A step after which no more processes log than before. -/
theorem Elections.logs_of_update (h : Elections baseName base s)
    (hmanagers : s'.managers = Function.update s.managers p (some fm'))
    (hinit : fm'.initialized = true → s.managers.Logs p)
    (hsem : s'.world.semaphores = s.world.semaphores) :
    (∃ q, s'.managers.Logs q) → s'.world.semaphores (semaphoreOf host base) ≠ none := by
  rintro ⟨q, fmq, hq, hqinit⟩
  rw [hsem]
  rw [hmanagers] at hq
  rcases of_update_some hq with ⟨-, rfl⟩ | ⟨-, hq⟩
  · exact h.semaphore ⟨p, hinit hqinit⟩
  · exact h.semaphore ⟨q, fmq, hq, hqinit⟩

/-- What an election does on macOS. -/
theorem elected_macos (hos : host.os = .macos) {createObject another : Bool}
    (h : Elected fm w (host.filename base).1 createObject another fm' w') :
    another = true ∧ w' = w ∧
        (createObject = true → w.semaphores (semaphoreOf host base) ≠ none) ∨
      another = false ∧ w.semaphores (semaphoreOf host base) = none ∧
        w'.semaphores (semaphoreOf host base) ≠ none := by
  cases h with
  | other h =>
    refine Or.inl ⟨rfl, rfl, fun hcreate => ?_⟩
    have := h hcreate
    simp only [Taken, hos] at this
    exact this
  | mutex hwindows _ _ => rw [hos] at hwindows; contradiction
  | semaphore _ _ hnone =>
    refine Or.inr ⟨rfl, hnone, ?_⟩
    show Function.update w.semaphores _ _ _ ≠ none
    rw [semaphoreOf, update_self]
    exact Option.some_ne_none _

/-- The semaphore tells whether another process logs. -/
theorem Elections.another_eq (h : Elections baseName base s) (hos : host.os = .macos)
    (hinit : fm.initialized = false) (hp : s.managers p = some fm) {answers : InitAnswers}
    (hok : AloneIsFirst base s (p, .initializeAs answers)) {another : Bool} {fm₀ : FileManager}
    (helect : Elected fm₀ s.world (host.filename base).1 answers.createObject another fm' w') :
    ((∀ q, q ≠ p → ¬ s.managers.Logs q) → another = false) ∧
      ((∃ q, q ≠ p ∧ s.managers.Logs q) → another = true) ∧
      w'.semaphores (semaphoreOf host base) ≠ none := by
  have hself : ¬ s.managers.Logs p := by
    rintro ⟨fm₁, hfm₁, hinit₁⟩
    rw [Option.some.inj (hp.symm.trans hfm₁), hinit₁] at hinit
    contradiction
  rcases elected_macos hos helect with ⟨rfl, rfl, htaken⟩ | ⟨rfl, hnone, hsome⟩
  · -- the semaphore exists, so the process is not alone
    have hothers : ∃ q, q ≠ p ∧ s.managers.Logs q := by
      by_contra hnot
      obtain ⟨hcreate, hnone⟩ := hok answers rfl fun q hqp hq => hnot ⟨q, hqp, hq⟩
      exact htaken hcreate hnone
    obtain ⟨q, hqp, hq⟩ := hothers
    exact ⟨fun halone => absurd hq (halone q hqp), fun _ => rfl, h.semaphore ⟨q, hq⟩⟩
  -- there was no semaphore, so nobody logs
  · refine ⟨fun _ => rfl, fun ⟨q, _, hq⟩ => ?_, hsome⟩
    exact absurd hnone (h.semaphore ⟨q, hq⟩)

/-- The record of an accurate election is accurate. -/
theorem Accurate.elect (h : Accurate base s) {answers : InitAnswers} {another : Bool}
    (hname : fm'.baseName = base ∧ fm'.processId = p)
    (halone : (∀ q, q ≠ p → ¬ s.managers.Logs q) → another = false)
    (hothers : (∃ q, q ≠ p ∧ s.managers.Logs q) → another = true) :
    Accurate base (s.elect p fm answers (fm'.generateFileName (!another))) := by
  unfold State.elect
  split
  swap
  · exact h
  intro e he
  rcases List.mem_append.mp he with he | he
  · exact h e he
  obtain rfl := List.mem_singleton.mp he
  rw [generateFileName, hname.1, hname.2]
  refine ⟨fun hno => ?_, fun hyes => ?_⟩
  · rw [halone hno]
    rfl
  · rw [hothers hyes]
    rfl

/-- An initialization. -/
theorem Elections.initializeAs (hos : host.os = .macos) (habs : host.isAbsolute base = true)
    (hbase : absoluteBase host (cwd p) baseName = base) (h : Elections baseName base s)
    (hp : s.managers p = some fm) {answers : InitAnswers}
    (hok : AloneIsFirst base s (p, .initializeAs answers)) :
    Elections baseName base ((s.elect p fm answers
      (fm.initializeAs s.world (cwd p) p answers).2.1.currentFileName).put p
        (fm.initializeAs s.world (cwd p) p answers)) := by
  obtain ⟨hname, hinitName, hopen⟩ := h.managers p fm hp
  have habsolute : absoluteBase host (cwd p) fm.baseName = base := by
    rcases hname with hname | hname
    · rw [hname, hbase]
    · rw [hname, absoluteBase, if_pos habs]
  have hclosed : fm.initialized = false → fm.fileHandle = none := by
    intro hinit
    by_contra hne
    rw [hopen hne] at hinit
    contradiction
  have hmanagers : ∀ (fileName : Text) (r : Bool × FileManager × World host),
      ((s.elect p fm answers fileName).put p r).managers =
        Function.update s.managers p (some r.2.1) := by
    intro fileName r
    show Function.update (State.elect _ _ _ _ _).managers _ _ = _
    rw [State.elect_managers]
  -- the election is on record only where the manager gets as far as choosing a name
  have hends := initialized_of_initializeAs fm s.world (cwd p) p answers
  generalize hr : fm.initializeAs s.world (cwd p) p answers = r at hends
  obtain ⟨ok, fm', w'⟩ := r
  dsimp only at hends ⊢
  cases hends with
  | again hinit =>
    refine h.update (hmanagers _ _) (h.managers p fm hp)
      (h.logs_of_update (hmanagers _ _) (fun _ => ⟨fm, hp, hinit⟩) rfl) ?_
    show Accurate base (s.elect _ _ _ _)
    unfold State.elect
    rw [if_neg (by rw [hinit]; simp)]
    exact h.accurate
  | noDirectory hinit hdir =>
    rw [habsolute]
    refine h.update (hmanagers _ _) ⟨Or.inr rfl, fun _ => rfl, fun hf => ?_⟩
      (h.logs_of_update (hmanagers _ _) (fun hi => ?_) rfl) ?_
    · exact absurd (hclosed hinit) hf
    · rw [show fm.initialized = true from hi] at hinit
      contradiction
    · show Accurate base (s.elect _ _ _ _)
      unfold State.elect
      rw [if_neg (by rw [hdir]; simp)]
      exact h.accurate
  | notOpened hinit helect _ =>
    rw [habsolute] at helect
    obtain ⟨halone, hothers, hsem⟩ := h.another_eq hos hinit hp hok helect
    obtain ⟨hfm₁, -⟩ := helect.frame
    refine h.update (hmanagers _ _) ⟨Or.inr (by rw [hfm₁]), fun _ => by rw [hfm₁],
      fun hne => absurd rfl hne⟩ (fun _ => hsem) (h.accurate.elect ?_ halone hothers)
    rw [hfm₁]
    exact ⟨rfl, rfl⟩
  | done hinit helect hfile =>
    rw [habsolute] at helect
    obtain ⟨halone, hothers, hsem⟩ := h.another_eq hos hinit hp hok helect
    obtain ⟨hfm₁, -⟩ := helect.frame
    refine h.update (hmanagers _ _) ⟨Or.inr (by rw [hfm₁]), fun _ => by rw [hfm₁], fun _ => rfl⟩
      (fun _ => hsem) (h.accurate.elect ?_ halone hothers)
    rw [hfm₁]
    exact ⟨rfl, rfl⟩

/-- A process is gone; its semaphore stays. -/
theorem Elections.drop (hos : host.os = .macos) (h : Elections baseName base s)
    {fm₁ : FileManager} {w₁ : World host} (hsem : w₁.semaphores = s.world.semaphores) :
    Elections baseName base (s.drop p (fm₁.cleanupMutex w₁).2) := by
  have hold : ∀ {q fmq}, (s.drop p (fm₁.cleanupMutex w₁).2).managers q = some fmq →
      s.managers q = some fmq := fun hq => (of_update_none hq).2
  refine ⟨fun q fmq hq => h.managers q fmq (hold hq), ?_, h.accurate⟩
  rintro ⟨q, fmq, hq, hinit⟩
  have hclean : (fm₁.cleanupMutex w₁).2.semaphores = w₁.semaphores := by
    unfold cleanupMutex
    rw [hos]
    split <;> rfl
  show (fm₁.cleanupMutex w₁).2.semaphores _ ≠ none
  rw [hclean, hsem]
  exact h.semaphore ⟨q, fmq, hold hq, hinit⟩

/-- A rotation elects nobody. -/
theorem Elections.rotate (habs : host.isAbsolute base = true) (h : Elections baseName base s)
    (hp : s.managers p = some fm) {answers : RotateAnswers} :
    Elections baseName base (s.put p (fm.rotate s.world (cwd p) answers)) := by
  have hlocal := h.managers p fm hp
  cases hf : fm.fileHandle with
  | none =>
    have heq : fm.rotate s.world (cwd p) answers = (false, fm, s.world) := by
      simp only [FileManager.rotate, hf]
    rw [heq]
    have hmanagers : (s.put p (false, fm, s.world)).managers =
        Function.update s.managers p (some fm) := rfl
    exact h.update hmanagers hlocal
      (h.logs_of_update hmanagers (fun hi => ⟨fm, hp, hi⟩) rfl) h.accurate
  | some f₀ =>
    have hinit := hlocal.2.2 (by rw [hf]; exact Option.some_ne_none f₀)
    have habs' : host.isAbsolute fm.baseName = true := by
      rw [hlocal.2.1 hinit]
      exact habs
    have hends := rotated_of_rotate (w := s.world) habs' (cwd p) answers
    generalize fm.rotate s.world (cwd p) answers = r at hends
    have hframe : r.2.1.baseName = fm.baseName ∧ r.2.1.initialized = fm.initialized ∧
        r.2.2.semaphores = s.world.semaphores := by
      obtain ⟨ok, fm', w'⟩ := r
      cases hends <;> exact ⟨rfl, rfl, rfl⟩
    obtain ⟨hname, hinit', hsem⟩ := hframe
    have hmanagers : (s.put p r).managers = Function.update s.managers p (some r.2.1) := rfl
    refine h.update hmanagers ⟨?_, fun _ => ?_, fun _ => hinit'.trans hinit⟩
      (h.logs_of_update hmanagers (fun _ => ⟨fm, hp, hinit⟩) hsem) h.accurate
    · rw [hname]
      exact hlocal.1
    · rw [hname]
      exact hlocal.2.1 hinit

theorem Step.elections (hos : host.os = .macos) (habs : host.isAbsolute base = true)
    (hbase : absoluteBase host (cwd p) baseName = base) {a : Act}
    (hstep : Step baseName cwd s p a s') (hok : AloneIsFirst base s (p, a))
    (h : Elections baseName base s) : Elections baseName base s' := by
  cases hstep with
  | @start maxSize retentionCount hnone =>
    have hmanagers : Function.update s.managers p (some (configured baseName maxSize
        retentionCount)) = Function.update s.managers p _ := rfl
    exact h.update hmanagers ⟨Or.inl rfl, nofun, fun hf => absurd rfl hf⟩
      (h.logs_of_update hmanagers nofun rfl) h.accurate
  | initializeAs hp => exact h.initializeAs hos habs hbase hp hok
  | @write fm a r hp hr =>
    have hlocal := h.managers p fm hp
    have hsem : r.2.2.semaphores = s.world.semaphores := by rw [hr.world]; rfl
    have hopen : r.2.1.fileHandle ≠ none → fm.fileHandle ≠ none := by
      intro hne hnone
      have hfile := hr.file
      rw [hnone, Option.map_none, Option.map_eq_none_iff] at hfile
      exact hne hfile
    have hmanagers : (s.put p r).managers = Function.update s.managers p (some r.2.1) := rfl
    refine h.update hmanagers ?_ (h.logs_of_update hmanagers ?_ hsem) h.accurate
    · refine ⟨?_, ?_, fun hf => ?_⟩
      · rw [hr.manager]
        exact hlocal.1
      · rw [hr.manager]
        exact hlocal.2.1
      · rw [hr.manager]
        exact hlocal.2.2 (hopen hf)
    · intro hi
      rw [hr.manager] at hi
      exact ⟨fm, hp, hi⟩
  | rotate hp => exact h.rotate habs hp
  | @exit fm hp => exact h.drop hos (closeCurrentFile_frame fm s.world).2.2.1
  | crash hp => exact h.drop hos rfl

/-- **The election is accurate** in every run in which who starts alone finds no
semaphore. -/
theorem accurate (hos : host.os = .macos) (hcwd : ∀ p, host.isAbsolute (cwd p) = true)
    (hbase : ∀ p, absoluteBase host (cwd p) baseName = base) {w : World host}
    (hs : Reachable (next baseName cwd) (AloneIsFirst base) (init w) s) : Accurate base s := by
  have habs : host.isAbsolute base = true := hbase 0 ▸ isAbsolute_absoluteBase (hcwd 0) baseName
  have hfirst : Elections baseName base (init w) := by
    refine ⟨fun p fm hp => ?_, fun ⟨p, hp⟩ => ?_, fun e he => ?_⟩
    · exact absurd hp nofun
    · obtain ⟨fm, hfm, -⟩ := hp
      exact absurd hfm nofun
    · exact absurd he List.not_mem_nil
  have hall : Elections baseName base s := by
    refine hs.invariant hfirst ?_
    rintro s ⟨p, a⟩ s' - h hok hnext
    exact (step_of_next hnext).elections hos habs (hbase p) hok h
  exact hall.accurate

/-! ### A first process and its successors -/

/-- The names that processes chose, in order. -/
def State.chosen (s : State host) : List (ℤ × Text) :=
  s.elections.map fun e => (e.processId, e.fileName)

/-- Process 7 starts alone, and processes 8 and 9 while it logs. -/
theorem accurate_three_processes :
    ∃ s : State Host.posix, s.chosen = [(7, "/logs/app.log".toList), (8, "/logs/app_8.log".toList),
      (9, "/logs/app_9.log".toList)] ∧ Accurate "/logs/app".toList s := by
  obtain ⟨s, hs, hp⟩ := exists_reachable_of_run
    (next "app".toList fun _ => "/logs".toList) (init (.empty Host.posix))
    (fun s => decide (s.chosen = [(7, "/logs/app.log".toList),
      (8, "/logs/app_8.log".toList), (9, "/logs/app_9.log".toList)]))
    (fun s a => match a.2 with
      | .initializeAs answers =>
        if a.1 = 7 then answers.createObject &&
          decide (s.world.semaphores (semaphoreOf Host.posix "/logs/app".toList) = none)
        else (s.managers 7).any FileManager.initialized
      | _ => true)
    (launch 7 ++ launch 8 ++ leave 8 ++ launch 9) (by decide +kernel)
  have hrun : Reachable (next "app".toList fun _ => "/logs".toList)
      (AloneIsFirst "/logs/app".toList) (init (.empty Host.posix)) s := by
    refine hs.mono fun s a ha => ?_
    rintro answers hinit halone
    rw [hinit] at ha
    dsimp only at ha
    split at ha
    · rw [Bool.and_eq_true] at ha
      exact ⟨ha.1, of_decide_eq_true ha.2⟩
    · next hne =>
      obtain ⟨fm, hfm, hlogs⟩ := (Option.any_eq_true _ _).mp ha
      exact absurd ⟨fm, hfm, hlogs⟩ (halone 7 (Ne.symm hne))
  have hcwd : Host.posix.isAbsolute "/logs".toList = true := by decide
  have hbase : absoluteBase Host.posix "/logs".toList "app".toList = "/logs/app".toList := by decide
  exact ⟨s, of_decide_eq_true hp, accurate rfl (fun _ => hcwd) (fun _ => hbase) hrun⟩

/-- A new record has the managers of the moment. -/
theorem Step.election_mem {a : Act} (hstep : Step baseName cwd s p a s') {e : Election}
    (he : e ∈ s'.elections) : e ∈ s.elections ∨ e.managers = s.managers := by
  cases hstep with
  | @initializeAs fm answers _ =>
    have he : e ∈ (s.elect p fm answers _).elections := he
    unfold State.elect at he
    split at he
    · rcases List.mem_append.mp he with he | he
      · exact Or.inl he
      · exact Or.inr (by rw [List.mem_singleton.mp he])
    · exact Or.inl he
  | _ => exact Or.inl he

/-- Where only the processes of a list take steps, no other is on record. -/
theorem elections_only {ps : List ℤ}
    (hs : Reachable (next baseName cwd) (fun _ a => a.1 ∈ ps) (init w) s) :
    (∀ q ∉ ps, s.managers q = none) ∧ ∀ e ∈ s.elections, ∀ q ∉ ps, e.managers q = none := by
  refine hs.invariant (I := fun s => (∀ q ∉ ps, s.managers q = none) ∧
    ∀ e ∈ s.elections, ∀ q ∉ ps, e.managers q = none)
    ⟨fun _ _ => rfl, fun e he => absurd he List.not_mem_nil⟩ ?_
  rintro s ⟨p, a⟩ s' - ⟨hmanagers, helections⟩ hok hnext
  have hstep := step_of_next hnext
  have hne : ∀ q ∉ ps, q ≠ p := by
    rintro q hq rfl
    exact hq hok
  refine ⟨fun q hq => ?_, fun e he q hq => ?_⟩
  · rw [hstep.managers_of_ne (hne q hq)]
    exact hmanagers q hq
  · rcases hstep.election_mem he with he | he
    · exact helections e he q hq
    · rw [he]
      exact hmanagers q hq

/-- **The semaphore outlives its creator**: process 8 starts after process 7 has left
and no other process logs, and does not get `app.log`. -/
theorem not_accurate_restart :
    ∃ s : State Host.posix,
      Reachable (next "app".toList fun _ => "/logs".toList) Always
        (init (.empty Host.posix)) s ∧ ¬ Accurate "/logs/app".toList s := by
  obtain ⟨s, hs, hp⟩ := exists_reachable_of_run
    (next "app".toList fun _ => "/logs".toList) (init (.empty Host.posix))
    (fun s => s.elections.any fun e => decide (e.processId = 8) &&
      ((e.managers 7).isNone && decide (e.fileName = "/logs/app_8.log".toList)))
    (fun _ a => decide (a.1 ∈ [7, 8])) (launch 7 ++ leave 7 ++ launch 8) (by decide +kernel)
  refine ⟨s, hs.mono fun _ _ _ => trivial, fun h => ?_⟩
  obtain ⟨e, he, hp⟩ := List.any_eq_true.mp hp
  simp only [Bool.and_eq_true, decide_eq_true_eq] at hp
  obtain ⟨hid, hgone, hname⟩ := hp
  have halone : ∀ q, q ≠ e.processId → ¬ e.managers.Logs q := by
    rintro q hq ⟨fm, hfm, -⟩
    rw [hid] at hq
    by_cases h7 : q = 7
    · rw [h7, Option.isNone_iff_eq_none.mp hgone] at hfm
      contradiction
    · have honly := (elections_only (hs.mono fun _ _ ha => of_decide_eq_true ha)).2 e he q
      rw [honly (by simp [h7, hq])] at hfm
      contradiction
  have := (h e he).1 halone
  rw [hname] at this
  exact absurd this (by decide)

end Processes
end SpeckitLog
