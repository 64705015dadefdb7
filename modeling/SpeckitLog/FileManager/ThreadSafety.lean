import SpeckitLog.FileManager.ClearSteps
import SpeckitLog.Lib.ThreadSum

/-!
# Threads that share a file manager

The manager is documented to be thread-safe.  When every step is clear, streams are used
only while they are open, every record is in one file, and the size is right.  Without a
lock nothing makes the steps clear.

## Main definitions

* `Logged`, `Written`, `Counted`, `Named` — what clear steps keep of the calls, the bytes,
  the size and the names.
* `ThreadSafe` — what the manager is documented to be.

## Main results

* `threadSafe` — **the manager in runs of clear steps.**
* `not_threadSafe` — two runs of others.
-/

namespace SpeckitLog
namespace FileManager
namespace Threads

open Function Transition

variable {ι δ : Type*} [DecidableEq δ] {host : Host δ} {cwd : Text} {s s' : State ι host}
  {i j : ι} {a : Act}

/-! ### The calls and the log -/

/-- **What is logged**: each call once, those that returned and those past their `fwrite`. -/
structure Logged (s : State ι host) : Prop where
  nodup : (s.log.map Prod.snd).Nodup
  past : ∀ c ∈ s.log.map Prod.snd, c.number < s.number c.thread ∨
    c.number = s.number c.thread ∧ (s.pc c.thread).pending ≠ none
  running : ∀ i data, (s.pc i).pending = some data →
    ⟨i, s.number i, data⟩ ∈ s.log.map Prod.snd
  accepted : ∀ c ∈ s.accepted, c ∈ s.log.map Prod.snd

/-- Steps that are not part of the history. -/
theorem Logged.of_same (h : Logged s) (hlog : s'.log = s.log) (hnumber : s'.number = s.number)
    (haccepted : s'.accepted = s.accepted)
    (hpending : ∀ j, (s'.pc j).pending = (s.pc j).pending) : Logged s' where
  nodup := by rw [hlog]; exact h.nodup
  past c hc := by
    rw [hlog] at hc
    rw [hnumber, hpending]
    exact h.past c hc
  running j data hj := by
    rw [hlog, hnumber]
    exact h.running j data ((hpending j).symm.trans hj)
  accepted c hc := by
    rw [hlog]
    rw [haccepted] at hc
    exact h.accepted c hc

variable [DecidableEq ι]

/-- What is read off the program points, when it is the same before and after. -/
theorem apply_update {β : Type*} (f : Pc → β) {pc : ι → Pc} {p : Pc} (h : f p = f (pc i))
    (j : ι) : f (update pc i p j) = f (pc j) := by
  by_cases hji : j = i
  · rw [hji, update_self, h]
  · rw [update_of_ne hji]

/-- A call is logged. -/
theorem Logged.write (h : Logged s) {data : Text} (hpc : s.pc i = .fwrite data) {n : ℕ}
    (hlog : s'.log = s.log ++ [(n, ⟨i, s.number i, data⟩)]) (hnumber : s'.number = s.number)
    (haccepted : s'.accepted = s.accepted) (hpc' : s'.pc = update s.pc i (.loadSize data)) :
    Logged s' := by
  have hmap : s'.log.map Prod.snd = s.log.map Prod.snd ++ [⟨i, s.number i, data⟩] := by
    rw [hlog, List.map_append]
    rfl
  have hold : ∀ c ∈ s.log.map Prod.snd, c.thread = i → c.number < s.number i := by
    rintro c hc rfl
    refine (h.past c hc).resolve_right fun hnow => ?_
    rw [hpc] at hnow
    exact hnow.2 rfl
  refine ⟨?_, fun c hc => ?_, fun j d hj => ?_, fun c hc => ?_⟩
  · rw [hmap]
    refine List.nodup_append.mpr ⟨h.nodup, List.nodup_singleton _, fun c hc c' hc' heq => ?_⟩
    rw [List.mem_singleton.mp hc'] at heq
    exact Nat.lt_irrefl _ (heq ▸ hold c hc (by rw [heq]))
  · rw [hmap] at hc
    rw [hnumber, hpc']
    rcases List.mem_append.mp hc with hc | hc
    · by_cases hci : c.thread = i
      · exact Or.inl (hci ▸ hold c hc hci)
      · rw [update_of_ne hci]
        exact h.past c hc
    · rw [List.mem_singleton.mp hc, update_self]
      exact Or.inr ⟨rfl, Option.some_ne_none _⟩
  · rw [hmap, hnumber]
    rw [hpc'] at hj
    by_cases hji : j = i
    · rw [hji, update_self] at hj
      rw [hji, ← Option.some.inj hj]
      exact List.mem_append_right _ (List.mem_singleton_self _)
    · rw [update_of_ne hji] at hj
      exact List.mem_append_left _ (h.running j d hj)
  · rw [hmap]
    rw [haccepted] at hc
    exact List.mem_append_left _ (h.accepted c hc)

/-- A call returns. -/
theorem Logged.returnWrite (h : Logged s) {data : Text} {ok : Bool}
    (hpc : s.pc i = .wrote data ok) : Logged (s.returnWrite i data ok) := by
  refine ⟨h.nodup, fun c hc => ?_, fun j d hj => ?_, fun c hc => ?_⟩
  · rw [State.returnWrite_number, State.returnWrite_pc]
    by_cases hci : c.thread = i
    · left
      rw [hci, update_self]
      have := hci ▸ h.past c hc
      omega
    · rw [update_of_ne hci]
      rw [update_of_ne hci]
      exact h.past c hc
  · by_cases hji : j = i
    · rw [hji, State.returnWrite_pc, update_self] at hj
      contradiction
    · rw [State.returnWrite_pc, update_of_ne hji] at hj
      rw [State.returnWrite_number, update_of_ne hji]
      exact h.running j d hj
  · cases ok with
    | false => exact h.accepted c hc
    | true =>
      rcases List.mem_append.mp hc with hc | hc
      · exact h.accepted c hc
      · rw [List.mem_singleton.mp hc]
        exact h.running i data (by rw [hpc]; rfl)

/-- **The log is kept.** -/
theorem Logged.effect (h : Logged s) (heffect : Effect s i s') : Logged s' := by
  cases heffect with
  | write hpc _ _ => exact h.write hpc rfl rfl rfl rfl
  | ret hpc => exact h.returnWrite hpc
  | quiet _ _ hpending => exact h.of_same rfl rfl rfl (apply_update Pc.pending hpending)
  | load hpc _ | store hpc | flush hpc _ _ | close hpc _ _ | clear hpc | rename hpc _
  | remove hpc | name hpc | reopen hpc _ | reset hpc _ =>
    exact h.of_same rfl rfl rfl (apply_update Pc.pending (by rw [hpc]; rfl))

/-! ### The bytes of the files -/

omit [DecidableEq ι] in
/-- What was written to file `n`, in the order of the `fwrite`s. -/
def State.written (s : State ι host) (n : ℕ) : Text :=
  ((s.log.filter fun e => e.1 = n).map fun e => e.2.entry).flatten

/-- What a file had at first: nothing when it is new. -/
def first (fs : FileSystem host.Place) (n : ℕ) : Text := if n < fs.next then fs.data n else []

/-- **Every file has what it had at first and the records that were written to it.** -/
structure Written (fs₀ : FileSystem host.Place) (s : State ι host) : Prop where
  next : fs₀.next ≤ s.world.fs.next
  below : ∀ e ∈ s.log, e.1 < s.world.fs.next
  bytes : ∀ n < s.world.fs.next, s.journal.bytesOf n = first fs₀ n ++ s.written n

variable {fs₀ : FileSystem host.Place}

omit [DecidableEq ι] in
/-- Steps that write nothing and make no file. -/
theorem Written.of_same (h : Written fs₀ s) (hlog : s'.log = s.log)
    (hnext : s'.world.fs.next = s.world.fs.next)
    (hbytes : ∀ n, s'.journal.bytesOf n = s.journal.bytesOf n) : Written fs₀ s' where
  next := hnext ▸ h.next
  below := by rw [hlog, hnext]; exact h.below
  bytes n hn := by
    rw [hbytes, State.written, hlog]
    exact h.bytes n (hnext ▸ hn)

omit [DecidableEq ι] in
/-- A record is added to the log. -/
theorem State.written_concat {n m : ℕ} {c : Call ι Text} (hlog : s'.log = s.log ++ [(m, c)]) :
    s'.written n = s.written n ++ if n = m then c.entry else [] := by
  unfold State.written
  rw [hlog, List.filter_append, List.map_append, List.flatten_append]
  by_cases hn : m = n
  · simp [hn]
  · simp [hn, Ne.symm hn]

omit [DecidableEq ι] in
/-- An empty file is opened: it is new, or was there. -/
theorem Written.reopen (h : Written fs₀ s) (hhandle : s.fm.fileHandle = none) (p : host.Place)
    (hlog : s'.log = s.log) (hfs : s'.world.fs = (s.world.fs.openAppend p).2)
    (hhandle' : s'.fm.fileHandle = some ⟨(s.world.fs.openAppend p).1, []⟩) : Written fs₀ s' := by
  have hold := Journal.bytesOf_of_none (j := s.journal) hhandle
  have hbytes : ∀ n, s'.journal.bytesOf n = (s.world.fs.openAppend p).2.data n := fun n =>
    (Journal.bytesOf_of_buffer (j := s'.journal) hhandle' rfl n).trans (congrFun
      (congrArg FileSystem.data hfs) n)
  cases hlookup : s.world.fs.lookup p with
  | some m =>
    have hsame : (s.world.fs.openAppend p).2 = s.world.fs := by
      rw [FileSystem.openAppend, hlookup]
    rw [hsame] at hbytes hfs
    exact h.of_same hlog (by rw [hfs]) fun n => (hbytes n).trans (hold n).symm
  | none =>
    have hnew : (s.world.fs.openAppend p).2 = s.world.fs.create p := by
      rw [FileSystem.openAppend, hlookup]
    rw [hnew] at hbytes hfs
    have hnext : s'.world.fs.next = s.world.fs.next + 1 := by rw [hfs]; rfl
    refine ⟨hnext ▸ Nat.le_succ_of_le h.next, fun e he => ?_, fun n hn => ?_⟩
    · rw [hlog] at he
      rw [hnext]
      exact Nat.lt_succ_of_lt (h.below e he)
    · rw [hbytes, show s'.written n = s.written n by rw [State.written, hlog]; rfl]
      rcases Nat.lt_succ_iff_lt_or_eq.mp (hnext ▸ hn) with hlt | rfl
      · rw [← h.bytes n hlt, hold]
        exact update_of_ne (Nat.ne_of_lt hlt) _ _
      · -- nothing was written to a file that did not exist
        have hnil : (s.log.filter fun e => e.1 = s.world.fs.next) = [] := by
          rw [List.filter_eq_nil_iff]
          intro e he heq
          exact absurd (of_decide_eq_true heq) (Nat.ne_of_lt (h.below e he))
        rw [first, if_neg (Nat.not_lt.mpr h.next), State.written, hnil]
        exact update_self ..

/-- **The bytes are kept.** -/
theorem Written.effect (hstages : Stages s) (h : Written fs₀ s) (heffect : Effect s i s') :
    Written fs₀ s' := by
  have hstage := hstages.stage i
  cases heffect with
  | quiet _ _ _ | load _ _ | store _ | ret _ | remove _ | name _ | reset _ _ =>
    exact h.of_same rfl rfl fun _ => rfl
  | @write data pushed f hpc _ hopen =>
    refine ⟨h.next, fun e he => ?_, fun n hn => ?_⟩
    · rcases List.mem_append.mp he with he | he
      · exact h.below e he
      · rw [List.mem_singleton.mp he]
        exact s.world.fs.used _ _ hopen.named
    · rw [State.written_concat rfl, ← List.append_assoc, ← h.bytes n hn, hopen.bytesOf_eq]
      show (if n = f.file then _ else _) = _
      split
      · exact FileStream.bytes_fwrite f s.world.fs data pushed
      · next hne =>
        rw [List.append_nil]
        exact FileSystem.data_append_of_ne _ _ hne
  | @flush _ f _ _ hopen =>
    refine h.of_same rfl rfl fun n => ?_
    rw [hopen.bytesOf_eq]
    show (if n = f.file then _ else _) = _
    split
    · exact FileStream.bytes_fflush f s.world.fs
    · next hne => exact FileSystem.data_append_of_ne _ _ hne
  | @close f _ _ hopen =>
    refine h.of_same rfl rfl fun n => (Journal.bytesOf_of_buffer rfl rfl n).trans ?_
    rw [hopen.bytesOf_eq]
    split
    · next heq => rw [heq]; exact FileStream.data_fclose f s.world.fs
    · next hne => exact FileSystem.data_append_of_ne _ _ hne
  | clear hpc =>
    rw [hpc] at hstage
    obtain ⟨-, m, hhandle, -⟩ := hstage
    exact h.of_same rfl rfl fun n => (Journal.bytesOf_of_none rfl n).trans
      (Journal.bytesOf_of_buffer (j := s.journal) hhandle rfl n).symm
  | rename hpc hren =>
    rw [hpc] at hstage
    obtain ⟨-, hhandle, -⟩ := hstage
    obtain ⟨-, -, hdata, -⟩ := FileSystem.rename_eq_some hren
    refine h.of_same rfl (FileSystem.next_rename hren) fun n => ?_
    rw [Journal.bytesOf_of_none (j := s.journal) hhandle, Journal.bytesOf_of_none hhandle]
    exact congrFun hdata n
  | reopen hpc _ =>
    rw [hpc] at hstage
    exact h.reopen hstage.2 _ rfl rfl rfl

/-! ### The size -/

/-- How many bytes the thread has written and not added to the size. -/
def Pc.owed (p : Pc) : ℕ := (p.owes.map List.length).getD 0

theorem Pc.not_storing {p : Pc} (h : p.owes = none) : ¬ p.Storing := by
  cases p with
  | storeSize data size => exact absurd h (Option.some_ne_none _)
  | _ => exact id

theorem Pc.owed_of_none {p : Pc} (h : p.owes = none) : p.owed = 0 := by
  rw [Pc.owed, h]
  rfl

variable [Fintype ι]

/-- **The size and what is still owed to it are the length of the file**, outside rotations,
and only one thread is about to store a size. -/
structure Counted (s : State ι host) : Prop where
  size : s.fm.currentFileSize < sizeModulus
  loaded : s.Settled → ∀ i data size, s.pc i = .storeSize data size →
    size = s.fm.currentFileSize
  alone : s.Settled → ∀ i j, (s.pc i).Storing → (s.pc j).Storing → i = j
  counted : s.Settled → wrap (s.fm.currentFileSize + ∑ i, (s.pc i).owed) =
    wrap s.journal.contents.length

/-- A step of a thread that owes nothing, outside rotations. -/
theorem Counted.of_quiet (h : Counted s) {p : Pc} (hfrom : (s.pc i).Quiet) (hto : p.Quiet)
    (hpc : s'.pc = update s.pc i p) (hsize : s'.fm.currentFileSize = s.fm.currentFileSize)
    (hcontents : s'.journal.contents.length = s.journal.contents.length)
    (heffect : Effect s i s') : Counted s' := by
  have hpci : s'.pc i = p := by rw [hpc, update_self]
  have hsettled := settled_iff heffect hfrom.between (hpci ▸ hto.between)
  -- a thread that is about to store is another one
  have hstoring : ∀ j, (s'.pc j).Storing → s'.pc j = s.pc j := by
    intro j hj
    refine heffect.pc_of_ne fun hji => Pc.not_storing hto.owes ?_
    rwa [hji, hpci] at hj
  refine ⟨hsize ▸ h.size, fun hs j data size hj => ?_, fun hs j k hj hk => ?_, fun hs => ?_⟩
  · rw [hstoring j (by rw [hj]; trivial)] at hj
    rw [hsize]
    exact h.loaded (hsettled.mp hs) j data size hj
  · rw [hstoring j hj] at hj
    rw [hstoring k hk] at hk
    exact h.alone (hsettled.mp hs) j k hj hk
  · rw [hsize, hcontents, hpc, sum_update_of_eq s.pc Pc.owed i
      ((Pc.owed_of_none hto.owes).trans (Pc.owed_of_none hfrom.owes).symm)]
    exact h.counted (hsettled.mp hs)

omit [DecidableEq ι] in
/-- In the middle of a rotation nothing is counted. -/
theorem Counted.of_between (hsize : s'.fm.currentFileSize < sizeModulus)
    (h : (s'.pc i).Between) : Counted s' :=
  ⟨hsize, fun hs => absurd h (hs i), fun hs => absurd h (hs i), fun hs => absurd h (hs i)⟩

/-- The size is loaded: nobody else is about to store one. -/
theorem Counted.load (h : Counted s) {data : Text} (hpc : s.pc i = .loadSize data)
    (hnone : s.Settled → ∀ j, ¬ (s.pc j).Storing) :
    Counted (s.goto i (.storeSize data s.fm.currentFileSize)) := by
  have hsettled : (s.goto i (.storeSize data s.fm.currentFileSize)).Settled → s.Settled := by
    intro hs j
    by_cases hji : j = i
    · rw [hji, hpc]
      exact Pc.not_between id (by simp)
    · have := hs j
      rwa [State.goto_pc, update_of_ne hji] at this
  have hstoring : s.Settled → ∀ j,
      ((s.goto i (.storeSize data s.fm.currentFileSize)).pc j).Storing → j = i := by
    intro hs j hj
    by_contra hji
    rw [State.goto_pc, update_of_ne hji] at hj
    exact hnone hs j hj
  refine ⟨h.size, fun hs j d size hj => ?_, fun hs j k hj hk => ?_, fun hs => ?_⟩
  · obtain rfl := hstoring (hsettled hs) j (by rw [hj]; trivial)
    rw [State.goto_pc, update_self] at hj
    exact (Pc.storeSize.inj hj).2.symm
  · rw [hstoring (hsettled hs) j hj, hstoring (hsettled hs) k hk]
  · have hsum := sum_update_of_eq s.pc Pc.owed i (b := .storeSize data s.fm.currentFileSize)
      (by rw [hpc]; rfl)
    rw [State.goto_pc, hsum]
    exact h.counted (hsettled hs)

/-- A record is written: its length is owed. -/
theorem Counted.write (h : Counted s) {data : Text} (hpc : s.pc i = .fwrite data)
    (hsettled : s.Settled) (hsize : s'.fm.currentFileSize = s.fm.currentFileSize)
    (hpc' : s'.pc = update s.pc i (.loadSize data))
    (hcontents : s'.journal.contents = s.journal.contents ++ data) : Counted s' := by
  have hstoring : ∀ j, (s'.pc j).Storing → s'.pc j = s.pc j := by
    intro j hj
    rw [hpc'] at hj ⊢
    refine update_of_ne (fun hji => ?_) _ _
    rw [hji, update_self] at hj
    exact hj
  refine ⟨hsize ▸ h.size, fun _ j d size hj => ?_, fun _ j k hj hk => ?_, fun _ => ?_⟩
  · rw [hstoring j (by rw [hj]; trivial)] at hj
    rw [hsize]
    exact h.loaded hsettled j d size hj
  · rw [hstoring j hj] at hj
    rw [hstoring k hk] at hk
    exact h.alone hsettled j k hj hk
  · have hsum := sum_update_add s.pc Pc.owed i (.loadSize data)
    rw [hpc, show (Pc.fwrite data).owed = 0 from rfl, Nat.add_zero,
      show (Pc.loadSize data).owed = data.length from rfl] at hsum
    rw [hsize, hpc', hsum, hcontents, List.length_append, ← Nat.add_assoc]
    exact wrap_add_congr (h.counted hsettled) _

/-- A size is stored: the length is not owed any more. -/
theorem Counted.store (h : Counted s) {data : Text} {size : ℕ}
    (hpc : s.pc i = .storeSize data size) : Counted (s.storeSize i data size) := by
  have hsettled := settled_iff (.store hpc) (hpc ▸ Pc.not_between id (by simp)) (by
    rw [State.storeSize_pc, update_self]
    exact Pc.not_between id (by simp))
  have hnone : s.Settled → ∀ j, ¬ ((s.storeSize i data size).pc j).Storing := by
    intro hs j hj
    by_cases hji : j = i
    · rw [hji, State.storeSize_pc, update_self] at hj
      exact hj
    · rw [State.storeSize_pc, update_of_ne hji] at hj
      exact hji (h.alone hs j i hj (by rw [hpc]; trivial))
  refine ⟨wrap_lt _, fun hs j d size' hj => ?_, fun hs j k hj _ => ?_, fun hs => ?_⟩
  · exact absurd (by rw [hj]; trivial) (hnone (hsettled.mp hs) j)
  · exact absurd hj (hnone (hsettled.mp hs) j)
  · have hload := h.loaded (hsettled.mp hs) i data size hpc
    have hsum := sum_update_add s.pc Pc.owed i (.testFlush data)
    rw [hpc, show (Pc.storeSize data size).owed = data.length from rfl,
      show (Pc.testFlush data).owed = 0 from rfl, Nat.add_zero] at hsum
    calc wrap (wrap (size + data.length) + ∑ j, (update s.pc i (.testFlush data) j).owed)
        = wrap (size + (∑ j, (update s.pc i (.testFlush data) j).owed + data.length)) := by
          rw [wrap_wrap_add, Nat.add_assoc, Nat.add_comm data.length]
      _ = wrap (s.fm.currentFileSize + ∑ j, (s.pc j).owed) := by rw [hsum, hload]
      _ = wrap s.journal.contents.length := h.counted (hsettled.mp hs)

/-- The size is reset: the new file is empty, and nothing is owed. -/
theorem Counted.reset (hstages : Stages s) (hpc : s.pc i = .clearSize)
    (hnone : ∀ j, (s.pc j).owes = none) : Counted (s.clearSize i) := by
  have hstage := hstages.stage i
  rw [hpc] at hstage
  obtain ⟨-, f, hopen, hempty⟩ := hstage
  have howes : ∀ j, ((s.clearSize i).pc j).owes = none := by
    intro j
    rw [State.clearSize_pc, apply_update Pc.owes (by rw [hpc]; rfl)]
    exact hnone j
  have hopen' : (s.clearSize i).journal.Open f := ⟨hopen.stream, hopen.named⟩
  have hcontents : (s.clearSize i).journal.contents = [] := hopen'.contents_eq.trans hempty
  refine ⟨by show 0 < sizeModulus; decide, fun _ j d size hj => ?_, fun _ j k hj _ => ?_,
    fun _ => ?_⟩
  · exact absurd (by rw [hj]; trivial) (Pc.not_storing (howes j))
  · exact absurd hj (Pc.not_storing (howes j))
  · rw [hcontents, Finset.sum_eq_zero fun j _ => Pc.owed_of_none (howes j)]
    rfl

/-- **The count is kept.** -/
theorem Counted.effect (hstages : Stages s) (h : Counted s) (heffect : Effect s i s') :
    Counted s' := by
  have hall := heffect
  have hbetween : ∀ p : Pc, p.Shut → (update s.pc i p i).Between := by
    intro p hp
    rw [update_self]
    exact Or.inl hp
  cases heffect with
  | quiet hfrom hto _ => exact h.of_quiet hfrom hto rfl rfl rfl hall
  | load hpc hnone => exact h.load hpc hnone
  | @write data pushed f hpc hsettled hopen =>
    refine h.write hpc hsettled rfl rfl ?_
    rw [hopen.contents_eq]
    exact FileStream.bytes_fwrite f s.world.fs data pushed
  | store hpc => exact h.store hpc
  | @flush _ f hpc _ hopen =>
    refine h.of_quiet (hpc ▸ Pc.quiet_of id (by simp) rfl) (Pc.quiet_of id (by simp) rfl)
      rfl rfl ?_ hall
    rw [hopen.contents_eq]
    exact congrArg List.length (FileStream.bytes_fflush f s.world.fs)
  | ret hpc =>
    exact h.of_quiet (hpc ▸ Pc.quiet_of id (by simp) rfl) (Pc.quiet_of id (by simp) rfl)
      rfl rfl rfl hall
  | close hpc _ _ | clear hpc | rename hpc _ | remove hpc | name hpc =>
    exact Counted.of_between h.size (hbetween _ trivial)
  | reopen hpc _ =>
    refine Counted.of_between (i := i) h.size (Or.inr ?_)
    exact update_self ..
  | reset hpc hnone => exact Counted.reset hstages hpc hnone

/-! ### The names of the files -/

omit [DecidableEq ι] [Fintype ι] in
/-- Every file that was written to has a name. -/
def Named (s : State ι host) : Prop := ∀ e ∈ s.log, ∃ p, s.world.fs.lookup p = some e.1

omit [DecidableEq ι] [Fintype ι] in
theorem Named.of_lookup (h : Named s) (hlog : s'.log = s.log)
    (hlookup : ∀ p n, s.world.fs.lookup p = some n → ∃ q, s'.world.fs.lookup q = some n) :
    Named s' := by
  intro e he
  rw [hlog] at he
  obtain ⟨p, hp⟩ := h e he
  exact hlookup p _ hp

omit [Fintype ι] in
/-- **The names are kept**, when a file is renamed to a free one. -/
theorem Named.effect (hstages : Stages s) (h : Named s) (hfree : NameFree cwd s (i, a))
    (heffect : Effect s i s') : Named s' := by
  cases heffect with
  | quiet _ _ _ | load _ _ | store _ | ret _ | remove _ | name _ | reset _ _ | clear _
  | flush _ _ _ | close _ _ _ => exact h.of_lookup rfl fun p _ hp => ⟨p, hp⟩
  | write hpc _ hopen =>
    intro e he
    rcases List.mem_append.mp he with he | he
    · exact h e he
    · rw [List.mem_singleton.mp he]
      exact ⟨_, hopen.named⟩
  | rename hpc hren =>
    obtain ⟨m, hm, -, hlookup⟩ := FileSystem.rename_eq_some hren
    have hnone := hfree hpc
    rw [getHistoricalFiles_eq_nil hstages.absolute] at hnone
    refine h.of_lookup rfl fun p n hp => ?_
    have hpq : p ≠ host.locate (s.fm.sequenceName 1) := by
      rintro rfl
      exact absurd (hnone.symm.trans hp) (Option.some_ne_none n).symm
    -- the renamed file has the new name, every other one its own
    by_cases hpm : p = host.locate s.fm.currentFileName
    · refine ⟨host.locate (s.fm.sequenceName 1), (hlookup _).trans ?_⟩
      rw [if_pos rfl, ← hm, ← hpm, hp]
    · exact ⟨p, (hlookup p).trans (by rw [if_neg hpq, if_neg hpm, hp])⟩
  | reopen hpc _ =>
    refine h.of_lookup rfl fun p n hp => ⟨p, ?_⟩
    show (s.world.fs.openAppend (host.locate s.fm.currentFileName)).2.lookup p = some n
    by_cases hpc : p = host.locate s.fm.currentFileName
    · rw [FileSystem.openAppend, ← hpc, hp]
      exact hp
    · rw [FileSystem.lookup_openAppend_of_ne _ hpc, hp]

/-! ### What clear steps keep -/

/-- **What the manager is documented to be**, after calls of `Write` and `Rotate` on a manager
that found the files of `fs₀`. -/
structure ThreadSafe (fs₀ : FileSystem host.Place) (s : State ι host) : Prop where
  /-- No call was given a stream that was closed. -/
  valid : s.misused = false
  /-- A `Write` that returned true wrote its bytes to one file, once. -/
  once : ∀ c ∈ s.accepted, ∃! n, (n, c) ∈ s.log
  nodup : s.log.Nodup
  /-- A file has what it had at first, and what was written to it. -/
  bytes : ∀ e ∈ s.log, s.journal.bytesOf e.1 = first fs₀ e.1 ++ s.written e.1
  /-- When no call is running, the size counts the bytes of the current file. -/
  size : (∀ i, s.pc i = .idle) → ∃ f, s.fm.fileHandle = some f ∧
    s.fm.currentFileSize = wrap ((first fs₀ f.file).length + (s.written f.file).length)

/-- What every clear step keeps. -/
structure Kept (fs₀ : FileSystem host.Place) (s : State ι host) : Prop where
  stages : Stages s
  logged : Logged s
  written : Written fs₀ s
  counted : Counted s

omit [DecidableEq ι] in
theorem threadSafe_of_kept (h : Kept fs₀ s) : ThreadSafe fs₀ s := by
  refine ⟨h.stages.valid, fun c hc => ?_, h.logged.nodup.of_map _,
    fun e he => h.written.bytes _ (h.written.below e he), fun hidle => ?_⟩
  · obtain ⟨e, he, rfl⟩ := List.mem_map.mp (h.logged.accepted c hc)
    refine ⟨e.1, he, fun n hn => ?_⟩
    exact congrArg Prod.fst (List.inj_on_of_nodup_map h.logged.nodup hn he rfl)
  · have hsettled : s.Settled := fun j => by
      rw [hidle j]
      exact Pc.not_between id (by simp)
    obtain ⟨-, f, hopen⟩ := h.stages.settled hsettled
    have hcount := h.counted.counted hsettled
    rw [Finset.sum_eq_zero fun j _ => Pc.owed_of_none (by rw [hidle j]; rfl), Nat.add_zero,
      wrap_of_lt h.counted.size, hopen.contents_eq] at hcount
    have hbytes := h.written.bytes _ (s.world.fs.used _ _ hopen.named)
    rw [hopen.bytesOf_eq, if_pos rfl] at hbytes
    exact ⟨f, hopen.stream, by rw [hcount, hbytes, List.length_append]⟩

theorem Kept.effect (h : Kept fs₀ s) (heffect : Effect s i s') : Kept fs₀ s' where
  stages := h.stages.effect heffect
  logged := h.logged.effect heffect
  written := h.written.effect h.stages heffect
  counted := h.counted.effect h.stages heffect

/-! ### A manager that was initialized -/

omit [DecidableEq ι] in
theorem kept_init {fm : FileManager} {w : World host} {f : FileStream} {old : Text}
    (hstarted : Journal.Started ⟨fm, w, []⟩ f old)
    (habs : host.isAbsolute fm.baseName = true) (hsize : fm.currentFileSize < sizeModulus) :
    Kept w.fs (init ι fm w) where
  stages :=
    { absolute := habs
      valid := rfl
      alone := fun _ _ h => absurd h (Pc.not_between id (by simp [init]))
      settled := fun _ => ⟨rfl, f, hstarted.isOpen⟩
      stage := fun _ => trivial }
  logged :=
    { nodup := List.nodup_nil
      past := fun _ h => absurd h List.not_mem_nil
      running := fun _ _ h => absurd h.symm (Option.some_ne_none _)
      accepted := fun _ h => absurd h List.not_mem_nil }
  written :=
    { next := le_rfl
      below := fun _ h => absurd h List.not_mem_nil
      bytes := fun n hn => by
        have hlt : n < w.fs.next := hn
        rw [first, if_pos hlt]
        exact (Journal.bytesOf_of_buffer hstarted.isOpen.stream hstarted.buffer n).trans
          (List.append_nil _).symm }
  counted :=
    { size := hsize
      loaded := fun _ _ _ _ h => absurd h (by simp [init])
      alone := fun _ _ _ h => absurd h id
      counted := fun _ => by
        have hcontents : (init ι fm w).journal.contents = old :=
          hstarted.isOpen.contents_eq.trans hstarted.bytes
        have hsum : ∑ i : ι, ((init ι fm w).pc i).owed = 0 := Finset.sum_eq_zero fun _ _ => rfl
        rw [hcontents, ← hstarted.size, hsum]
        rfl }

/-- **Thread safety, in runs of clear steps**: from a manager that was initialized, any calls
of `Write` and `Rotate` by any threads are as documented.  When the names that rotations give
are free, every file that was written to has a name. -/
theorem threadSafe {fm₀ fm : FileManager} {w₀ w : World host} {processId : ℤ}
    {answers : InitAnswers} (hcwd : host.isAbsolute cwd = true) (hnew : fm₀.initialized = false)
    (hinit : fm₀.initializeAs w₀ cwd processId answers = (true, fm, w))
    (hsize : fm.currentFileSize < sizeModulus) :
    (∀ s, Reachable (next cwd) Clear (init ι fm w) s → ThreadSafe w.fs s) ∧
      ∀ s, Reachable (next cwd) (fun s a => Clear s a ∧ NameFree cwd s a) (init ι fm w) s →
        Named s := by
  obtain ⟨old, hold⟩ := Journal.exists_content_of_initializeAs hnew hinit
  obtain ⟨⟨f, hstarted⟩, hbase, -⟩ := Journal.started_of_initializeAs hnew hinit hold
  have habs : host.isAbsolute fm.baseName = true := hbase ▸ isAbsolute_absoluteBase hcwd _
  have hkept : ∀ s, Reachable (next cwd) Clear (init ι fm w) s → Kept w.fs s := fun s hs =>
    hs.invariant (kept_init hstarted habs hsize) fun s a s' _ h hclear hnext =>
      h.effect (effect_of_step h.stages hclear (step_of_next hnext))
  refine ⟨fun s hs => threadSafe_of_kept (hkept s hs), fun s hs => ?_⟩
  refine hs.invariant (fun e he => absurd he List.not_mem_nil) fun s a s' hs h hok hnext => ?_
  have hstages := (hkept s (hs.mono fun _ _ hok => hok.1)).stages
  exact h.effect hstages hok.2 (effect_of_step hstages hok.1 (step_of_next hnext))

/-- A rotation that starts while a record is being written, and comes after it. -/
theorem threadSafe_app : ∃ s, Reachable (next ['/'])
      (fun s a => Clear s a ∧ NameFree ['/'] s a)
      (init (Fin 2) appOpened.2.1 appOpened.2.2) s ∧
    (s.accepted.map Call.entry = ["up\n".toList, "ok\n".toList] ∧ ∀ i, s.pc i = .idle) ∧
      ThreadSafe appOpened.2.2.fs s ∧ Named s := by
  obtain ⟨s, hs, hp⟩ := exists_reachable_of_decide (next ['/'])
    (init (Fin 2) appOpened.2.1 appOpened.2.2)
    (fun s => s.accepted.map Call.entry = ["up\n".toList, "ok\n".toList] ∧ ∀ i, s.pc i = .idle)
    (fun s a => Clear s a ∧ NameFree ['/'] s a)
    (doing 0 (.write "up\n".toList) 0 3 ++ doing 1 .rotate 0 2 ++ doing 0 (.step 0) 0 2 ++
      List.replicate 8 (1, .step 0) ++ doing 0 (.write "ok\n".toList) 0 6) (by decide +kernel)
  obtain ⟨hsafe, hnamed⟩ := threadSafe (ι := Fin 2) (by decide) (by decide) appOpened_eq
    (by decide +kernel)
  exact ⟨s, hs, hp, hsafe s (hs.mono fun _ _ hok => hok.1), hnamed s hs⟩

/-- **Threads that come in between.**  A file is closed between the null test of another
thread and its `fwrite`; and of two writes that load the same size one is not counted. -/
theorem not_threadSafe :
    (∃ s, Reachable (next ['/']) Always (init (Fin 2) appOpened.2.1 appOpened.2.2) s ∧
      s.misused = true ∧ ¬ ThreadSafe appOpened.2.2.fs s) ∧
    ∃ s, Reachable (next ['/']) Always (init (Fin 2) appOpened.2.1 appOpened.2.2) s ∧
      (s.misused = false ∧ (∀ i, s.pc i = .idle) ∧ s.accepted.length = 2 ∧
        s.fm.currentFileSize = 3 ∧ s.journal.contents = "up\nok\n".toList) ∧
      ¬ ThreadSafe appOpened.2.2.fs s := by
  constructor
  · obtain ⟨s, hs, hp⟩ := exists_reachable_of_decide (next ['/'])
      (init (Fin 2) appOpened.2.1 appOpened.2.2) (fun s => s.misused = true) Always
      (doing 0 (.write "up\n".toList) 0 1 ++ doing 1 .rotate 0 3 ++ [(0, .step 0)])
      (by decide +kernel)
    exact ⟨s, hs, hp, fun hsafe => absurd (hsafe.valid.symm.trans hp) Bool.false_ne_true⟩
  · obtain ⟨s, hs, hp, hcount⟩ := exists_reachable_of_decide (next ['/'])
      (init (Fin 2) appOpened.2.1 appOpened.2.2)
      (fun s => (s.misused = false ∧ (∀ i, s.pc i = .idle) ∧ s.accepted.length = 2 ∧
          s.fm.currentFileSize = 3 ∧ s.journal.contents = "up\nok\n".toList) ∧
        s.fm.fileHandle.map (fun f => wrap ((first appOpened.2.2.fs f.file).length +
          (s.written f.file).length)) = some 6) Always
      (doing 0 (.write "up\n".toList) 0 3 ++ doing 1 (.write "ok\n".toList) 0 6 ++
        List.replicate 3 (0, .step 0)) (by decide +kernel)
    refine ⟨s, hs, hp, fun hsafe => ?_⟩
    obtain ⟨f, hf, hsize⟩ := hsafe.size hp.2.1
    rw [hf, Option.map_some, ← hsize, hp.2.2.2.1] at hcount
    exact absurd hcount (by decide)

end Threads
end FileManager
end SpeckitLog
