import SpeckitLog.FileManager.Steps
import SpeckitLog.Lib.Transition

/-!
# Runs of writes and rotations

One manager that came first writes and rotates, and every call to the system
succeeds.  A rotation should give the closed file the next number; but the scan
for the numbers in use never finds a file, so every rotation takes the name with
number one and replaces the file that has it.

## Main definitions

* `Rotation.State`, `Rotation.next` — the manager, the files, and the history.
* `Rotation.NewestKept` — the directory holds the newest generations.

## Main results

* `Rotation.newestKept_iff` — this is so up to the first rotation only.
-/

namespace SpeckitLog
namespace Rotation

open Function Transition FileManager

variable {δ : Type*} [DecidableEq δ] {host : Host δ}

/-- The manager and its world; history: what the rotations closed, oldest first,
what was written since, and whether a rename replaced a file. -/
structure State (host : Host δ) where
  fm : FileManager
  world : World host
  rotated : List Text
  written : Text
  replaced : Bool

/-- A call of `Write`, of which the stream passes on some bytes, or of `Rotate`. -/
inductive Act
  | write (data : Text) (pushed : ℕ)
  | rotate

/-- After `Initialize`. -/
def start (fm : FileManager) (w : World host) : State host where
  fm := fm
  world := w
  rotated := []
  written := []
  replaced := false

/-- The number the next rotation takes. -/
def State.nextSequence (s : State host) (cwd : Text) : ℤ :=
  calculateNextSequenceNumber (s.fm.getHistoricalFiles s.world cwd)

/-- `Write`, with every call to the system succeeding. -/
def State.write (s : State host) (data : Text) (pushed : ℕ) : State host :=
  let (ok, fm, w) := s.fm.write s.world data ⟨data.length, pushed, true, true⟩
  { s with fm := fm, world := w, written := if ok then s.written ++ data else s.written }

/-- `Rotate`, with every call to the system succeeding. -/
def State.rotate (s : State host) (cwd : Text) : State host :=
  let target := host.locate (s.fm.sequenceName (s.nextSequence cwd))
  let (ok, fm, w) := s.fm.rotate s.world cwd ⟨true, fun _ => true, true⟩
  { fm := fm
    world := w
    rotated := if ok then s.rotated ++ [s.written] else s.rotated
    written := if ok then [] else s.written
    replaced := s.replaced || (s.world.fs.lookup target).isSome }

/-- One call. -/
def next (cwd : Text) (s : State host) : Act → Option (State host)
  | .write data pushed => some (s.write data pushed)
  | .rotate => some (s.rotate cwd)

/-- The bytes of `base.n.log`. -/
def State.generation (s : State host) (n : ℕ) : Option Text :=
  s.world.fs.content (host.locate (s.fm.sequenceName n))

/-- **The newest generations are kept**: the numbered files hold, in the order of
their numbers, the last `min k r` of the `k` generations; the current file holds
what was written since; and no rename replaced a file. -/
structure NewestKept (s : State host) : Prop where
  files : ∃ ns : List ℕ, ns.Pairwise (· < ·) ∧ (∀ n, n ∈ ns ↔ s.generation n ≠ none) ∧
    ns.map s.generation =
      (s.rotated.drop (s.rotated.length - min s.rotated.length s.fm.retentionCount)).map some
  current : ∃ f, s.fm.fileHandle = some f ∧
    s.world.fs.lookup (host.locate (s.fm.baseName ++ ".log".toList)) = some f.file ∧
    f.bytes s.world.fs = s.written
  kept : s.replaced = false

/-- What the code keeps instead: only the last generation, under number one. -/
structure Inv (base : Text) (r : ℕ) (s : State host) : Prop where
  baseName : s.fm.baseName = base
  retention : s.fm.retentionCount = r
  name : s.fm.currentFileName = base ++ ".log".toList
  stream : ∃ f, s.fm.fileHandle = some f ∧
    s.world.fs.lookup (host.locate (base ++ ".log".toList)) = some f.file ∧
    f.bytes s.world.fs = s.written
  others : ∀ n : ℕ, n ≠ 1 → s.world.fs.lookup (host.locate (base ++ sequenceSuffix n)) = none
  first : s.world.fs.content (host.locate (base ++ sequenceSuffix 1)) = s.rotated.getLast?
  replaced : s.replaced = decide (1 < s.rotated.length)

variable {base cwd : Text} {r : ℕ} {s : State host}

/-! ### Places of the files of one base -/

omit [DecidableEq δ] in
theorem locate_log_ne_sequence (host : Host δ) (base : Text) (n : ℤ) :
    host.locate (base ++ ".log".toList) ≠ host.locate (base ++ sequenceSuffix n) := fun h =>
  processSuffix_ne_sequenceSuffix true 0 n
    ((Host.locate_append_inj (plain_processSuffix true 0) (plain_sequenceSuffix n)).mp h)

omit [DecidableEq δ] in
theorem locate_sequence_inj {m n : ℤ}
    (h : host.locate (base ++ sequenceSuffix m) = host.locate (base ++ sequenceSuffix n)) :
    m = n :=
  sequenceSuffix_injective
    ((Host.locate_append_inj (plain_sequenceSuffix m) (plain_sequenceSuffix n)).mp h)

theorem Inv.generation (h : Inv base r s) (n : ℕ) :
    s.generation n = if n = 1 then s.rotated.getLast? else none := by
  rw [State.generation, sequenceName_eq, h.baseName]
  split
  · next hn => rw [hn]; exact h.first
  · next hn => rw [FileSystem.content, h.others n hn]; rfl

/-! ### The steps -/

/-- A write changes the bytes of the current file only. -/
theorem Inv.write (h : Inv base r s) (data : Text) (pushed : ℕ) :
    Inv base r (s.write data pushed) := by
  obtain ⟨f, hf, hlookup, hbytes⟩ := h.stream
  have hans : WriteAnswers.Succeed ⟨data.length, pushed, true, true⟩ data := ⟨le_rfl, rfl, rfl⟩
  have hwrite := write_of_succeed (w := s.world) hf hans
  unfold State.write
  rw [hwrite]
  refine ⟨h.baseName, h.retention, h.name, ⟨_, rfl, ?_, ?_⟩, fun n hn => ?_, ?_, h.replaced⟩
  · rw [streamAfter_file]
    exact (streamAfter_lookup s.fm s.world.fs f data pushed _).trans hlookup
  · exact (streamAfter_bytes s.fm s.world.fs f data pushed).trans (by rw [hbytes]; rfl)
  · exact (streamAfter_lookup s.fm s.world.fs f data pushed _).trans (h.others n hn)
  · refine Eq.trans ?_ h.first
    show (FileSystem.lookup _ _).map _ = (FileSystem.lookup _ _).map _
    rw [withFiles, streamAfter_lookup]
    cases hone : s.world.fs.lookup (host.locate (base ++ sequenceSuffix 1)) with
    | none => rfl
    | some m =>
      have hne : m ≠ f.file := by
        rintro rfl
        exact locate_log_ne_sequence _ _ 1 (s.world.fs.single _ _ _ hlookup hone)
      exact congrArg some (streamAfter_data s.fm s.world.fs f data pushed hne)

/-- The next number is always one. -/
theorem nextSequence_eq (habs : host.isAbsolute s.fm.baseName = true) :
    s.nextSequence cwd = 1 := by
  rw [State.nextSequence, getHistoricalFiles_eq_nil habs]
  rfl

/-- When a rotation has renamed the current file and opened the next. -/
theorem lookup_rotated (fs : FileSystem host.Place) {fs' : FileSystem host.Place} {n : ℕ}
    (hlookup : fs.lookup (host.locate (base ++ ".log".toList)) = some n)
    (hren : fs.rename (host.locate (base ++ ".log".toList))
      (host.locate (base ++ sequenceSuffix 1)) = some fs') :
    fs'.lookup (host.locate (base ++ ".log".toList)) = none ∧
      fs'.lookup (host.locate (base ++ sequenceSuffix 1)) = some n ∧
      (∀ m : ℕ, m ≠ 1 → fs'.lookup (host.locate (base ++ sequenceSuffix m)) =
        fs.lookup (host.locate (base ++ sequenceSuffix m))) ∧ fs'.data = fs.data := by
  obtain ⟨n', hn', hdata, hfs'⟩ := FileSystem.rename_eq_some hren
  obtain rfl : n = n' := Option.some.inj (hlookup.symm.trans hn')
  refine ⟨?_, ?_, fun m hm => ?_, hdata⟩
  · rw [hfs', if_neg (locate_log_ne_sequence _ _ 1), if_pos rfl]
  · rw [hfs', if_pos rfl]
  · have hm1 : host.locate (base ++ sequenceSuffix m) ≠ host.locate (base ++ sequenceSuffix 1) :=
      fun heq => hm (by exact_mod_cast locate_sequence_inj heq)
    rw [hfs', if_neg hm1, if_neg (locate_log_ne_sequence _ _ (m : ℤ)).symm]

/-- A rotation replaces the file with number one. -/
theorem Inv.rotate (habs : host.isAbsolute base = true) (h : Inv base r s) (cwd : Text) :
    Inv base r (s.rotate cwd) := by
  obtain ⟨f, hf, hlookup, hbytes⟩ := h.stream
  have habs' : host.isAbsolute s.fm.baseName = true := by rw [h.baseName]; exact habs
  have hlog : s.fm.generateFileName true = base ++ ".log".toList := by
    rw [generateFileName_eq, h.baseName]
    rfl
  have hone : s.fm.sequenceName 1 = base ++ sequenceSuffix 1 := by
    rw [sequenceName_eq, h.baseName]
  have hrot := rotated_of_rotate (w := s.world) habs' cwd ⟨true, fun _ => true, true⟩
  unfold State.rotate
  rw [nextSequence_eq habs', hone]
  generalize hresult : s.fm.rotate s.world cwd ⟨true, fun _ => true, true⟩ = result at hrot
  obtain ⟨ok, fm, w⟩ := result
  cases hrot with
  | closed hnone => rw [hf] at hnone; contradiction
  | notRenamed hsome hren =>
    have := hren rfl
    rw [h.name, hlookup] at this
    contradiction
  | notOpened hsome _ hren hopen => exact absurd hopen (by decide)
  | @done f' fs hsome _ hren =>
    obtain rfl : f = f' := Option.some.inj (hf.symm.trans hsome)
    rw [h.name, hone] at hren
    -- the next number is one, whatever the directory has
    obtain ⟨hcur, hfirst, hothers, hdata⟩ :=
      lookup_rotated (f.fclose s.world.fs) hlookup hren
    simp only [hlog, if_true]
    refine ⟨h.baseName, h.retention, rfl, ⟨_, rfl, ?_, ?_⟩, fun n hn => ?_, ?_, ?_⟩
    · exact FileSystem.lookup_openAppend_self _ _
    · exact (List.append_nil _).trans (FileSystem.data_openAppend_new fs hcur)
    · refine (FileSystem.lookup_openAppend_of_ne fs (locate_log_ne_sequence _ _ _).symm).trans ?_
      exact (hothers n hn).trans (h.others n hn)
    · have hplace := FileSystem.lookup_openAppend_of_ne fs
        (locate_log_ne_sequence host base 1).symm
      have hcontent := FileSystem.data_openAppend fs (host.locate (base ++ ".log".toList)) hfirst
      show (FileSystem.lookup (fs.openAppend _).2 _).map (fs.openAppend _).2.data = _
      rw [hplace, hfirst, Option.map_some, hcontent, hdata, FileStream.data_fclose, hbytes,
        List.getLast?_concat]
    · have hsome : (s.world.fs.lookup (host.locate (base ++ sequenceSuffix 1))).isSome =
          decide (0 < s.rotated.length) := by
        have := congrArg Option.isSome h.first
        rw [FileSystem.content, Option.isSome_map] at this
        rw [this]
        cases s.rotated with
        | nil => rfl
        | cons g gs => simp
      show (s.replaced || _) = decide _
      rw [hsome, h.replaced, List.length_append, List.length_singleton, ← Bool.decide_or]
      exact decide_eq_decide.mpr (by omega)

theorem Inv.of_reachable {s₀ : State host} (habs : host.isAbsolute base = true)
    (h₀ : Inv base r s₀) (hs : Reachable (next cwd) Always s₀ s) : Inv base r s := by
  refine hs.invariant h₀ ?_
  rintro s a s' - h - hnext
  cases a with
  | write data pushed => exact Option.some.inj hnext ▸ h.write data pushed
  | rotate => exact Option.some.inj hnext ▸ h.rotate habs cwd

/-! ### From an empty log directory -/

/-- The directory of the base name has no file whose name begins with it. -/
def NoFiles (w : World host) (base : Text) : Prop :=
  ∀ name : host.FileName, (host.filename base).1 <+: name.1 →
    w.fs.lookup ((host.locate base).1, name) = none

theorem NoFiles.lookup {w : World host} (h : NoFiles w base) {t : Text} (ht : host.Plain t) :
    w.fs.lookup (host.locate (base ++ t)) = none := by
  have hplace : host.locate (base ++ t) = ((host.locate base).1, host.filename (base ++ t)) :=
    Prod.ext (Host.locate_append_fst base ht) rfl
  rw [hplace]
  exact h _ ⟨t, (Host.filename_append base ht).symm⟩

/-- **The first process starts** with an empty file. -/
theorem inv_start {w₀ w : World host} {fm : FileManager} {processId : ℤ} {answers : InitAnswers}
    {maxSize : ℕ} (hinit : (configured base maxSize r).initializeAs w₀ cwd processId answers =
      (true, fm, w))
    (hfirst : fm.currentFileName = fm.generateFileName true)
    (hempty : NoFiles w₀ (absoluteBase host cwd base)) :
    Inv (absoluteBase host cwd base) r (start fm w) := by
  have hends := initialized_of_initializeAs (configured base maxSize r) w₀ cwd processId answers
  rw [hinit] at hends
  cases hends with
  | again h => exact absurd h Bool.false_ne_true
  | @done another fm₁ w₁ n fs h helect hopen =>
    obtain ⟨hfm₁, hfs⟩ := helect.frame
    have hbase : fm₁.baseName = absoluteBase host cwd base := by rw [hfm₁]; rfl
    have hname : fm₁.generateFileName (!another) = absoluteBase host cwd base ++ ".log".toList := by
      refine hfirst.trans ?_
      rw [generateFileName_eq]
      show fm₁.baseName ++ _ = _
      rw [hbase]
      rfl
    have hnone :
        w₁.fs.lookup (host.locate (absoluteBase host cwd base ++ ".log".toList)) = none := by
      rw [hfs]
      exact hempty.lookup (plain_processSuffix true 0)
    have hothers : ∀ m : ℤ, fs.lookup
        (host.locate (absoluteBase host cwd base ++ sequenceSuffix m)) = none := by
      intro m
      have hopened := FileSystem.lookup_openAppend_of_ne w₁.fs
        (locate_log_ne_sequence host (absoluteBase host cwd base) m).symm
      rw [← hname, hopen] at hopened
      rw [hopened, hfs]
      exact hempty.lookup (plain_sequenceSuffix m)
    have hself := FileSystem.lookup_openAppend_self w₁.fs
      (host.locate (absoluteBase host cwd base ++ ".log".toList))
    have hdata := FileSystem.data_openAppend_new w₁.fs hnone
    rw [← hname, hopen, hname] at hself
    rw [← hname, hopen] at hdata
    refine ⟨hbase, by rw [hfm₁]; rfl, hname, ⟨_, rfl, hself, ?_⟩, fun m _ => hothers m, ?_, rfl⟩
    · exact (List.append_nil _).trans hdata
    · exact congrArg (Option.map _) (hothers 1)

/-- **Rotation keeps the newest history up to the first rotation only**, and then if
one generation may be kept. -/
theorem newestKept_iff {w₀ w : World host} {fm : FileManager} {processId : ℤ}
    {answers : InitAnswers} {maxSize : ℕ} (hcwd : host.isAbsolute cwd = true)
    (hinit : (configured base maxSize r).initializeAs w₀ cwd processId answers = (true, fm, w))
    (hfirst : fm.currentFileName = fm.generateFileName true)
    (hempty : NoFiles w₀ (absoluteBase host cwd base))
    (hs : Reachable (next cwd) Always (start fm w) s) :
    NewestKept s ↔ s.rotated.length = 0 ∨ s.rotated.length = 1 ∧ 1 ≤ r := by
  have habs : host.isAbsolute (absoluteBase host cwd base) = true := by
    unfold absoluteBase
    split
    · next h => exact h
    · exact host.isAbsolute_absolute cwd base hcwd
  have hinv := Inv.of_reachable habs (inv_start hinit hfirst hempty) hs
  constructor
  · rintro ⟨⟨ns, -, hmem, hmap⟩, -, hkept⟩
    -- a second rotation replaces the file of the first
    have hle : s.rotated.length ≤ 1 := by
      rw [hinv.replaced, decide_eq_false_iff_not] at hkept
      omega
    rcases Nat.eq_zero_or_pos s.rotated.length with hzero | hpos
    · exact Or.inl hzero
    · refine Or.inr ⟨by omega, ?_⟩
      -- the file with number one is there, so the list of kept generations is not empty
      obtain ⟨g, hg⟩ := Option.ne_none_iff_exists'.mp
        (mt List.getLast?_eq_none_iff.mp (List.ne_nil_of_length_pos hpos))
      have hone : 1 ∈ ns := by
        rw [hmem, hinv.generation, if_pos rfl, hg]
        exact Option.some_ne_none g
      have hlen := congrArg List.length hmap
      rw [List.length_map, List.length_map, List.length_drop, hinv.retention] at hlen
      have := List.length_pos_of_mem hone
      omega
  · intro hcases
    have hcurrent := hinv.stream
    rw [← hinv.baseName] at hcurrent
    rcases hcases with hzero | ⟨hone, hr⟩
    · have hnil : s.rotated = [] := List.length_eq_zero_iff.mp hzero
      refine ⟨⟨[], List.Pairwise.nil, fun n => ?_, ?_⟩, hcurrent, ?_⟩
      · rw [hinv.generation, hnil]
        simp
      · rw [hnil]
        rfl
      · rw [hinv.replaced, hzero]
        rfl
    · obtain ⟨g, hg⟩ := List.length_eq_one_iff.mp hone
      refine ⟨⟨[1], List.pairwise_singleton _ _, fun n => ?_, ?_⟩, hcurrent, ?_⟩
      · rw [hinv.generation, hg, List.mem_singleton]
        simp
      · rw [List.map_singleton, hinv.generation, if_pos rfl, hg, hinv.retention,
          List.length_singleton, Nat.min_eq_left hr]
        rfl
      · rw [hinv.replaced, hone]
        rfl

/-! ### Runs of one manager -/

theorem noFiles_empty (host : Host δ) (base : Text) : NoFiles (.empty host) base := fun _ _ => rfl

/-- After one rotation the one generation is kept. -/
theorem newestKept_iff_one_rotation :
    ∃ s : State Host.posix, s.rotated = ["ab".toList] ∧ s.written = "c".toList ∧ NewestKept s := by
  obtain ⟨s, hs, hrotated, hwritten⟩ := exists_reachable_of_decide (next ['/'])
    (start appOpened.2.1 appOpened.2.2)
    (fun s => s.rotated = ["ab".toList] ∧ s.written = "c".toList)
    Always
    [.write "a".toList 0, .write "b".toList 1, .rotate, .write "c".toList 0] (by decide +kernel)
  refine ⟨s, hrotated, hwritten, ?_⟩
  have hcwd : Host.posix.isAbsolute ['/'] = true := by decide
  refine (newestKept_iff hcwd appOpened_eq (by decide +kernel) (noFiles_empty _ _) hs).mpr
    (Or.inr ⟨?_, by decide⟩)
  rw [hrotated]
  rfl

/-- **The second rotation replaces the first generation**, although three may be kept. -/
theorem not_newestKept_two_rotations :
    ∃ (fm : FileManager) (w : World Host.posix) (s : State Host.posix),
      (configured "/logs/app".toList 10 3).initializeAs (.empty Host.posix) ['/'] 7
        ⟨true, true, true⟩ = (true, fm, w) ∧
      fm.currentFileName = fm.generateFileName true ∧
      NoFiles (.empty Host.posix) "/logs/app".toList ∧
      Reachable (next ['/']) Always (start fm w) s ∧ ¬ NewestKept s := by
  obtain ⟨s, hs, hp⟩ := exists_reachable_of_decide (next ['/'])
    (start appOpened.2.1 appOpened.2.2)
    (fun s => s.replaced = true) Always
    [.write "a".toList 0, .rotate, .write "b".toList 0, .rotate] (by decide +kernel)
  refine ⟨appOpened.2.1, appOpened.2.2, s, appOpened_eq, by decide +kernel, noFiles_empty _ _,
    hs, fun h => ?_⟩
  rw [h.kept] at hp
  contradiction

end Rotation
end SpeckitLog
