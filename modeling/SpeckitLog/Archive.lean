import SpeckitLog.FileManager.Steps

/-!
# Archives

`createArchive` puts log files into a ZIP file.  It looks for them in the current
directory, and takes those whose names start with the file name of the base; so it finds
all files of a base that lies in the current directory, and files of other bases whose
names start the same way.

The archive itself is a list of names here; what the calls of libzip answer is a
parameter.

## Main definitions

* `createArchive`, with `Archive.extension` and `Archive.collectLogFiles`.
* `Archive.Belongs` — the files of a base, as `FileManager` names them.

## Main results

* `Archive.mem_files_iff` — which files are archived.
-/

namespace SpeckitLog

open FileManager

/-- An entry of a directory. -/
structure DirectoryEntry {δ : Type*} (host : Host δ) where
  name : host.FileName
  regular : Bool
  /-- `fs::file_size`; `none` when it fails. -/
  size : Option ℕ

/-- A ZIP file: its path, and the names of the files in it. -/
structure Archive {δ : Type*} (host : Host δ) where
  name : Text
  files : List host.FileName

/-- What the operating system and libzip answer during `createArchive`. -/
structure ArchiveAnswers {δ : Type*} (host : Host δ) where
  /-- How many entries the scan delivers before it ends or throws. -/
  delivered : ℕ
  zipOpen : Bool
  zipSourceFile : host.FileName → Bool
  zipFileAdd : host.FileName → Bool
  zipClose : Bool

/-- Nothing fails while an archive is made of a directory with so many entries. -/
structure ArchiveAnswers.Succeed {δ : Type*} {host : Host δ} (answers : ArchiveAnswers host)
    (entries : ℕ) : Prop where
  delivered : entries ≤ answers.delivered
  zipOpen : answers.zipOpen = true
  zipSourceFile : ∀ name, answers.zipSourceFile name = true
  zipFileAdd : ∀ name, answers.zipFileAdd name = true
  zipClose : answers.zipClose = true

namespace Archive

variable {δ : Type*} {host : Host δ}

/-- `extension()` of a file name: from the last dot on, unless the name starts there. -/
def extension (filename : Text) : Text :=
  let stem := filename.rdropWhile (· != '.')
  if stem.length ≤ 1 ∨ filename = "..".toList then []
  else '.' :: filename.rtakeWhile (· != '.')

/-- `CollectLogFiles`, on the entries of a directory. -/
def collectLogFiles (dir : List (DirectoryEntry host)) (delivered : ℕ) (baseName : Text) :
    List (DirectoryEntry host) :=
  let baseFname := (host.filename baseName).1
  (dir.take delivered).filter fun entry =>
    entry.regular && extension entry.name.1 == ".log".toList &&
      baseFname.isPrefixOf entry.name.1

/-- The loop of `createArchive` over the candidates; `none` when it returns. -/
def addFiles (answers : ArchiveAnswers host) :
    List (DirectoryEntry host) → Bool → List host.FileName → Option (Bool × List host.FileName)
  | [], hadNonempty, files => some (hadNonempty, files)
  | f :: candidates, hadNonempty, files =>
    match f.size with
    | none => addFiles answers candidates hadNonempty files
    | some sz =>
      if sz = 0 then addFiles answers candidates hadNonempty files
      else if !answers.zipSourceFile f.name then none
      else if !answers.zipFileAdd f.name then none
      -- a file of the same name is overwritten
      else addFiles answers candidates true
        (if f.name ∈ files then files else files ++ [f.name])

/-- The directory that a path names. -/
def directoryOf (host : Host δ) (path : Text) : δ := (host.locate (host.join path [])).1

end Archive

open Archive

variable {δ : Type*} {host : Host δ}

/-- `createArchive`, in the current directory `cwd`: the archive, or `none` when it
returns false. -/
def createArchive (disk : δ → List (DirectoryEntry host)) (cwd baseName : Text)
    (processId : ℤ) (timestamp : Text) (answers : ArchiveAnswers host) : Option (Archive host) :=
  if timestamp.isEmpty || baseName.isEmpty then none
  else
    let archiveName :=
      baseName ++ '_' :: Text.decimal processId ++ '_' :: timestamp ++ ".zip".toList
    let candidates := collectLogFiles (disk (directoryOf host cwd)) answers.delivered baseName
    if candidates.isEmpty then none
    else if !answers.zipOpen then none
    else
      match addFiles answers candidates false [] with
      | none => none
      | some (hadNonempty, files) =>
        if !hadNonempty then none
        else if !answers.zipClose then none
        else some ⟨archiveName, files⟩

namespace Archive

/-! ### What is archived -/

/-- A file that can be read, and is not empty. -/
def HasData (entry : DirectoryEntry host) : Prop := ∃ sz, entry.size = some sz ∧ sz ≠ 0

variable {answers : ArchiveAnswers host}

theorem mem_addFiles {candidates : List (DirectoryEntry host)} {had had' : Bool}
    {files files' : List host.FileName}
    (h : addFiles answers candidates had files = some (had', files')) (name : host.FileName) :
    name ∈ files' ↔ name ∈ files ∨ ∃ entry ∈ candidates, entry.name = name ∧ HasData entry := by
  -- the loop adds to `files`, so the names added so far vary
  induction candidates generalizing had files with
  | nil =>
    obtain ⟨-, rfl⟩ := Prod.mk.inj (Option.some.inj h)
    simp
  | cons f candidates ih =>
    rw [addFiles] at h
    cases hsize : f.size with
    | none =>
      rw [hsize] at h
      have hempty : ¬ HasData f := by simp [HasData, hsize]
      simp [ih h, hempty]
    | some sz =>
      rw [hsize] at h
      dsimp only at h
      split at h
      · next hzero =>
        have hempty : ¬ HasData f := by simp [HasData, hsize, hzero]
        simp [ih h, hempty]
      · next hsz =>
        have hfull : HasData f := ⟨sz, hsize, hsz⟩
        split at h
        · contradiction
        split at h
        · contradiction
        have hadded : name ∈ (if f.name ∈ files then files else files ++ [f.name]) ↔
            name ∈ files ∨ f.name = name := by
          split
          · next hmem => exact ⟨Or.inl, fun hor => hor.elim id fun heq => heq ▸ hmem⟩
          · rw [List.mem_append, List.mem_singleton, eq_comm (a := name)]
        rw [ih h, hadded, or_assoc, List.exists_mem_cons_iff, and_iff_left hfull]

theorem mem_collectLogFiles {dir : List (DirectoryEntry host)} {delivered : ℕ} {baseName : Text}
    {entry : DirectoryEntry host} : entry ∈ collectLogFiles dir delivered baseName ↔
      entry ∈ dir.take delivered ∧ entry.regular = true ∧
        extension entry.name.1 = ".log".toList ∧ (host.filename baseName).1 <+: entry.name.1 := by
  rw [collectLogFiles, List.mem_filter, Bool.and_eq_true, Bool.and_eq_true, beq_iff_eq,
    List.isPrefixOf_iff_prefix, and_assoc]

/-- When `createArchive` returns true, its loop has gone through the candidates. -/
theorem addFiles_of_createArchive {disk : δ → List (DirectoryEntry host)} {cwd baseName : Text}
    {processId : ℤ} {timestamp : Text} {archive : Archive host}
    (h : createArchive disk cwd baseName processId timestamp answers = some archive) :
    ∃ had, addFiles answers (collectLogFiles (disk (directoryOf host cwd)) answers.delivered
      baseName) false [] = some (had, archive.files) := by
  unfold createArchive at h
  split at h
  · contradiction
  dsimp only at h
  split at h
  · contradiction
  split at h
  · contradiction
  split at h
  · contradiction
  · next had files hadd =>
    split at h
    · contradiction
    split at h
    · contradiction
    obtain rfl := Option.some.inj h
    exact ⟨had, hadd⟩

/-! ### When an archive is made -/

/-- The loop goes through all candidates when nothing fails. -/
theorem addFiles_of_succeed {entries : ℕ} (h : answers.Succeed entries)
    (candidates : List (DirectoryEntry host)) (had : Bool) (files : List host.FileName) :
    ∃ had' files', addFiles answers candidates had files = some (had', files') ∧
      (had' = true ↔ had = true ∨ ∃ entry ∈ candidates, HasData entry) := by
  induction candidates generalizing had files with
  | nil => exact ⟨had, files, rfl, by simp⟩
  | cons f candidates ih =>
    rw [addFiles]
    cases hsize : f.size with
    | none =>
      have hempty : ¬ HasData f := by simp [HasData, hsize]
      simpa [hempty] using ih had files
    | some sz =>
      dsimp only
      by_cases hzero : sz = 0
      · have hempty : ¬ HasData f := by simp [HasData, hsize, hzero]
        simpa [hzero, hempty] using ih had files
      · have hfull : HasData f := ⟨sz, hsize, hzero⟩
        simpa [hzero, h.zipSourceFile, h.zipFileAdd, hfull] using
          ih true (if f.name ∈ files then files else files ++ [f.name])

/-- **An archive is made** when nothing fails and one candidate is not empty. -/
theorem createArchive_isSome {disk : δ → List (DirectoryEntry host)} {cwd baseName : Text}
    (processId : ℤ) {timestamp : Text} (hanswers : answers.Succeed (disk (directoryOf host cwd)).length)
    (htimestamp : timestamp ≠ []) (hbase : baseName ≠ []) {entry : DirectoryEntry host}
    (hentry : entry ∈ collectLogFiles (disk (directoryOf host cwd)) answers.delivered baseName)
    (hdata : HasData entry) :
    ∃ archive, createArchive disk cwd baseName processId timestamp answers = some archive := by
  obtain ⟨had, files, hadd, hhad⟩ := addFiles_of_succeed hanswers
    (collectLogFiles (disk (directoryOf host cwd)) answers.delivered baseName) false []
  have hsome : had = true := hhad.mpr (Or.inr ⟨entry, hentry, hdata⟩)
  have hcandidates := List.ne_nil_of_mem hentry
  unfold createArchive
  simp [htimestamp, hbase, hcandidates, hanswers.zipOpen, hanswers.zipClose, hadd, hsome]

/-! ### The files of a base -/

/-- The paths that a manager of the base can produce. -/
def Produces (base path : Text) : Prop :=
  ∃ fm : FileManager, fm.baseName = base ∧
    ((∃ first, path = fm.generateFileName first) ∨ ∃ n : ℕ, path = fm.sequenceName n)

/-- The file at a place belongs to a base: its name is one that a manager produces, and it
is a regular file that is not empty. -/
def Belongs (disk : δ → List (DirectoryEntry host)) (base : Text) (place : host.Place) : Prop :=
  (∃ path, Produces base path ∧ place = host.locate path) ∧
    ∃ entry ∈ disk place.1, entry.name = place.2 ∧ entry.regular = true ∧ HasData entry

/-- What a manager adds to the base name. -/
theorem Produces.eq_append {base path : Text} (h : Produces base path) (host : Host δ) :
    ∃ t, path = base ++ (t ++ ".log".toList) ∧ host.Plain (t ++ ".log".toList) ∧
      ∃ c ∈ ['.', '_'], (t ++ ".log".toList).head? = some c := by
  obtain ⟨fm, rfl, ⟨first, rfl⟩ | ⟨n, rfl⟩⟩ := h
  · rw [generateFileName_eq]
    have hplain : host.Plain (processSuffix first fm.processId) := plain_processSuffix _ _
    cases first with
    | false => exact ⟨_, rfl, hplain, '_', by decide, rfl⟩
    | true => exact ⟨[], rfl, hplain, '.', by decide, rfl⟩
  · rw [sequenceName_eq]
    exact ⟨_, rfl, plain_sequenceSuffix n, '.', by decide, rfl⟩

/-- A log file of any name has the extension. -/
theorem extension_append_log {t : Text} (h : t ≠ []) :
    extension (t ++ ".log".toList) = ".log".toList := by
  have hlog : ".log".toList = ['.', 'l', 'o', 'g'] := rfl
  have hstem : (t ++ ".log".toList).rdropWhile (· != '.') = t ++ ['.'] := by
    simp [hlog, List.rdropWhile]
  have hrest : (t ++ ".log".toList).rtakeWhile (· != '.') = "log".toList := by
    simp [hlog, List.rtakeWhile]
  have hpos := List.length_pos_of_ne_nil h
  have hdots : t ++ ".log".toList ≠ "..".toList := by
    intro heq
    have := congrArg List.length heq
    simp at this
  unfold extension
  rw [hstem, hrest, if_neg]
  · rfl
  · rw [List.length_append, List.length_singleton]
    exact not_or.mpr ⟨by omega, hdots⟩

section Archived

variable {disk : δ → List (DirectoryEntry host)} {cwd baseName timestamp : Text} {processId : ℤ}
  {archive : Archive host}

/-- What is archived: what the scan delivers of the log files with the name of the base at
their start. -/
theorem mem_files
    (h : createArchive disk cwd baseName processId timestamp answers = some archive)
    (name : host.FileName) : name ∈ archive.files ↔
      ∃ entry ∈ (disk (directoryOf host cwd)).take answers.delivered, entry.name = name ∧
        entry.regular = true ∧ HasData entry ∧ extension name.1 = ".log".toList ∧
        (host.filename baseName).1 <+: name.1 := by
  obtain ⟨had, hadd⟩ := addFiles_of_createArchive h
  rw [mem_addFiles hadd, or_iff_right List.not_mem_nil]
  constructor
  · rintro ⟨entry, hentry, rfl, hdata⟩
    obtain ⟨hmem, hregular, hext, hprefix⟩ := mem_collectLogFiles.mp hentry
    exact ⟨entry, hmem, rfl, hregular, hdata, hext, hprefix⟩
  · rintro ⟨entry, hmem, rfl, hregular, hdata, hext, hprefix⟩
    exact ⟨entry, mem_collectLogFiles.mpr ⟨hmem, hregular, hext, hprefix⟩, rfl, hdata⟩

/-- **What is archived**: of the current directory, as far as it was scanned, the regular
files that are not empty and whose names have the extension and start with the file name
of the base.  A base that lies in the current directory has all its files among them. -/
theorem mem_files_iff
    (h : createArchive disk cwd baseName processId timestamp answers = some archive) :
    (∀ name, name ∈ archive.files ↔
      ∃ entry ∈ (disk (directoryOf host cwd)).take answers.delivered, entry.name = name ∧
        entry.regular = true ∧ HasData entry ∧ extension name.1 = ".log".toList ∧
        (host.filename baseName).1 <+: name.1) ∧
    ((disk (directoryOf host cwd)).length ≤ answers.delivered →
      host.locate (absoluteBase host cwd baseName) =
        (directoryOf host cwd, host.filename baseName) →
      (host.filename baseName).1 ≠ [] →
      ∀ place, Belongs disk (absoluteBase host cwd baseName) place →
        place.1 = directoryOf host cwd ∧ place.2 ∈ archive.files) := by
  refine ⟨mem_files h, ?_⟩
  rintro hscan hbase hname place ⟨⟨path, hpath, rfl⟩, entry, hentry, heq, hregular, hdata⟩
  obtain ⟨t, rfl, hplain, -⟩ := hpath.eq_append host
  have hdir : (host.locate (absoluteBase host cwd baseName ++ (t ++ ".log".toList))).1 =
      directoryOf host cwd := by
    rw [Host.locate_append_fst _ hplain, hbase]
  have hfile : (host.locate (absoluteBase host cwd baseName ++ (t ++ ".log".toList))).2.1 =
      (host.filename baseName).1 ++ (t ++ ".log".toList) := by
    refine (Host.filename_append _ hplain).trans ?_
    rw [show host.filename (absoluteBase host cwd baseName) = host.filename baseName from
      congrArg Prod.snd hbase]
  refine ⟨hdir, (mem_files h _).mpr ⟨entry, ?_, heq, hregular, hdata, ?_, ?_⟩⟩
  · rw [List.take_of_length_le hscan, ← hdir]
    exact hentry
  · rw [hfile, ← List.append_assoc]
    exact extension_append_log fun hnil => hname (List.append_eq_nil_iff.mp hnil).1
  · rw [hfile]
    exact List.prefix_append _ _

/-- **Archiver and manager agree**: what is archived is what belongs to the base. -/
def Agrees (disk : δ → List (DirectoryEntry host)) (cwd baseName : Text) (archive : Archive host) :
    Prop :=
  ∀ place : host.Place, place.1 = directoryOf host cwd ∧ place.2 ∈ archive.files ↔
    Belongs disk (absoluteBase host cwd baseName) place

end Archived

/-! ### Two bases in one directory -/

/-- The directory `/logs` with a file of the base `app` and a file of the base `app2`. -/
def twoBases (dir : Text) : List (DirectoryEntry Host.posix) :=
  if dir = "/logs/".toList then
    [⟨Host.posix.filename "app.log".toList, true, some 5⟩,
      ⟨Host.posix.filename "app2.log".toList, true, some 6⟩]
  else []

/-- Nothing fails. -/
def noFailure : ArchiveAnswers Host.posix := ⟨2, true, fun _ => true, fun _ => true, true⟩

/-- The archive of the base `app`, made in its directory. -/
def archiveApp : Option (Archive Host.posix) :=
  createArchive twoBases "/logs".toList "/logs/app".toList 7 "20240101000000".toList noFailure

theorem archiveApp_isSome : ∃ archive, archiveApp = some archive :=
  Option.isSome_iff_exists.mp (by decide +kernel)

theorem absoluteBase_app :
    absoluteBase Host.posix "/logs".toList "/logs/app".toList = "/logs/app".toList := by decide

theorem mem_files_iff_app : ∃ archive, archiveApp = some archive ∧
    Host.posix.filename "app.log".toList ∈ archive.files ∧
    Host.posix.filename "app2.log".toList ∈ archive.files := by
  obtain ⟨archive, harchive⟩ := archiveApp_isSome
  obtain ⟨hfiles, hbase⟩ := mem_files_iff harchive
  refine ⟨archive, harchive, ?_, (hfiles _).mpr ?_⟩
  · refine (hbase (by decide +kernel) (by decide +kernel) (by decide +kernel)
      (Host.posix.locate "/logs/app.log".toList) ⟨⟨"/logs/app.log".toList, ?_, rfl⟩, ?_⟩).2
    · rw [absoluteBase_app]
      exact ⟨ofBaseName "/logs/app".toList, rfl, Or.inl ⟨true, by decide⟩⟩
    · exact ⟨⟨Host.posix.filename "app.log".toList, true, some 5⟩, List.mem_cons_self, rfl, rfl,
        5, rfl, by decide⟩
  · exact ⟨⟨Host.posix.filename "app2.log".toList, true, some 6⟩,
      List.mem_cons_of_mem _ List.mem_cons_self, rfl, rfl, ⟨6, rfl, by decide⟩, by decide,
      by decide⟩

/-- A file `app.log` in the directory `/logs`, and one in `/srv`. -/
def twoDirectories (dir : Text) : List (DirectoryEntry Host.posix) :=
  if dir = "/logs/".toList ∨ dir = "/srv/".toList then
    [⟨Host.posix.filename "app.log".toList, true, some 5⟩]
  else []

/-- **A file of another base is archived**: the manager of `app` never writes `app2.log`.
**A file of the base is not archived** when it lies outside the current directory. -/
theorem not_agrees_two_bases :
    (∃ archive, archiveApp = some archive ∧
      ¬ Agrees twoBases "/logs".toList "/logs/app".toList archive) ∧
    ∃ archive, createArchive twoDirectories "/srv".toList "/logs/app".toList 7
        "20240101000000".toList noFailure = some archive ∧
      ¬ Agrees twoDirectories "/srv".toList "/logs/app".toList archive := by
  constructor
  · obtain ⟨archive, harchive⟩ := archiveApp_isSome
    refine ⟨archive, harchive, fun hagrees => ?_⟩
    have hmem : Host.posix.filename "app2.log".toList ∈ archive.files :=
      (mem_files harchive _).mpr ⟨⟨Host.posix.filename "app2.log".toList, true, some 6⟩,
        List.mem_cons_of_mem _ List.mem_cons_self, rfl, rfl, ⟨6, rfl, by decide⟩, by decide,
        by decide⟩
    obtain ⟨⟨path, hpath, hplace⟩, -⟩ :=
      (hagrees (Host.posix.locate "/logs/app2.log".toList)).mp ⟨by decide, hmem⟩
    rw [absoluteBase_app] at hpath
    -- a name of the manager goes on with a dot or an underscore, this one with a digit
    obtain ⟨t, rfl, hplain, c, hc, hhead⟩ := hpath.eq_append Host.posix
    have hname : "app".toList ++ (t ++ ".log".toList) = "app".toList ++ "2.log".toList := by
      have := congrArg (fun place => place.2.1) hplace
      rw [show (Host.posix.locate ("/logs/app".toList ++ (t ++ ".log".toList))).2.1 = _ from
        Host.filename_append _ hplain] at this
      exact this.symm
    rw [List.append_cancel_left hname] at hhead
    obtain rfl : '2' = c := Option.some.inj hhead
    exact absurd hc (by decide)
  · obtain ⟨archive, harchive⟩ : ∃ archive, createArchive twoDirectories "/srv".toList
        "/logs/app".toList 7 "20240101000000".toList noFailure = some archive :=
      Option.isSome_iff_exists.mp (by decide +kernel)
    refine ⟨archive, harchive, fun hagrees => ?_⟩
    have hbelongs : Belongs twoDirectories
        (absoluteBase Host.posix "/srv".toList "/logs/app".toList)
        (Host.posix.locate "/logs/app.log".toList) := by
      refine ⟨⟨"/logs/app.log".toList, ?_, rfl⟩, ?_⟩
      · exact ⟨ofBaseName "/logs/app".toList, by decide, Or.inl ⟨true, by decide⟩⟩
      · exact ⟨⟨Host.posix.filename "app.log".toList, true, some 5⟩, List.mem_cons_self, rfl, rfl,
          5, rfl, by decide⟩
    -- the scan has been elsewhere
    exact absurd ((hagrees _).mpr hbelongs).1 (by decide)

end Archive
end SpeckitLog
