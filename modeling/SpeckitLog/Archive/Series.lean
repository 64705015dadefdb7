import SpeckitLog.Archive.Transaction
import SpeckitLog.Lib.Transition

/-!
# One archive after another

A process that makes archives again and again, of any bases and in any directories, while
libzip fails where it likes.  The log files are only read.  An archive stays as it was made
until the next one of the same name takes its place, and that one is complete as well.

## Main definitions

* `Series`, `Series.next` — the state of libzip, and which archives were made.
* `Series.Kept` — the last archive of each name is complete.

## Main results

* `Series.archives_kept` — **log files are never touched, and archives stay complete.**
-/

namespace SpeckitLog

open FileManager Archive Function Transition

variable {δ : Type*} {host : Host δ} {β : Type*} {lib : Libzip host β}

/-- The arguments of `createArchive`, with what its scan delivers. -/
structure ArchiveRequest {δ : Type*} (host : Host δ) where
  listed : δ → List (DirectoryEntry host)
  delivered : ℕ
  cwd : Text
  baseName : Text
  processId : ℤ
  timestamp : Text

namespace ArchiveRequest

variable (r : ArchiveRequest host)

/-- The directory that is scanned. -/
def dir : δ := directoryOf host r.cwd

/-- The name of the archive. -/
def archiveName : Text :=
  r.baseName ++ '_' :: Text.decimal r.processId ++ '_' :: r.timestamp ++ ".zip".toList

/-- Where the archive goes. -/
def place : host.Place := Session.archivePlace host r.cwd r.baseName r.processId r.timestamp

/-- The log files that the scan finds. -/
def candidates : List (DirectoryEntry host) :=
  collectLogFiles (r.listed r.dir) r.delivered r.baseName

end ArchiveRequest

/-- The state of libzip.  History: which request made the archive at a place, the last time
that one was made. -/
structure Series (lib : Libzip host β) where
  state : lib.State
  last : host.Place → Option (ArchiveRequest host)

namespace Series

/-! ### Names -/

/-- No log file has the extension of an archive. -/
theorem extension_append_zip (t : Text) : extension (t ++ ".zip".toList) ≠ ".log".toList := by
  have hzip : ".zip".toList = ['.', 'z', 'i', 'p'] := rfl
  have hrest : (t ++ ".zip".toList).rtakeWhile (· != '.') = "zip".toList := by
    simp [hzip, List.rtakeWhile]
  unfold extension
  dsimp only
  split
  · decide
  · rw [hrest]
    decide

/-- The name of an archive ends as it is written. -/
theorem zip_suffix_place {r : ArchiveRequest host} (hfilename :
    host.filename (host.absolute r.cwd r.archiveName) = host.filename r.archiveName) :
    ".zip".toList <:+ r.place.2.1 := by
  have hplain : host.Plain ".zip".toList :=
    Host.plain_of_notMem (by decide) (by decide)
  have hname : ∀ t : Text, ".zip".toList <:+ (host.filename (t ++ ".zip".toList)).1 := by
    intro t
    rw [Host.filename_append t hplain]
    exact List.suffix_append _ _
  show _ <:+ (host.filename (absoluteBase host r.cwd r.archiveName)).1
  unfold absoluteBase
  split
  · exact hname _
  · rw [hfilename]
    exact hname _

/-- A candidate is no archive. -/
theorem not_zip_of_candidate {r : ArchiveRequest host} {f : DirectoryEntry host}
    (hf : f ∈ r.candidates) : ¬ ".zip".toList <:+ f.name.1 := by
  rintro ⟨t, ht⟩
  obtain ⟨-, -, hext, -⟩ := mem_collectLogFiles.mp hf
  rw [← ht] at hext
  exact extension_append_zip t hext

/-! ### Complete archives -/

/-- An archive that holds all candidates, as the files of `disk` are. -/
def Complete (lib : Libzip host β) (disk : Disk host β) (r : ArchiveRequest host)
    (blob : Option β) : Prop :=
  ∃ bytes contents, blob = some bytes ∧ lib.unzip bytes = some contents ∧
    HoldsAll disk r.dir r.candidates contents

/-- The candidates are all that matters of the disk. -/
theorem Complete.congr {disk disk' : Disk host β} {r : ArchiveRequest host} {blob : Option β}
    (h : Complete lib disk r blob)
    (hsame : ∀ f ∈ r.candidates, disk' (r.dir, f.name) = disk (r.dir, f.name)) :
    Complete lib disk' r blob := by
  obtain ⟨bytes, contents, hblob, hunzip, hholds⟩ := h
  refine ⟨bytes, contents, hblob, hunzip, hholds.nonempty, hholds.nodup, fun f hf hdata => ?_,
    hholds.sound⟩
  rw [hsame f hf]
  exact hholds.complete f hf hdata

/-- What a run keeps: a place where no archive was made is as it was, archives are made
at their own places only, and the last one of each is complete. -/
structure Kept (state : lib.State) (s : Series lib) : Prop where
  unmade : ∀ place, s.last place = none → lib.disk s.state place = lib.disk state place
  zip : ∀ place r, s.last place = some r → ".zip".toList <:+ place.2.1
  complete : ∀ place r, s.last place = some r →
    Complete lib (lib.disk state) r (lib.disk s.state place)

variable {state : lib.State} {s s' : Series lib} {r : ArchiveRequest host}

theorem kept_start (state : lib.State) : Kept state (⟨state, fun _ => none⟩ : Series lib) :=
  ⟨fun _ _ => rfl, nofun, nofun⟩

/-- No log file has changed. -/
theorem Kept.candidate (h : Kept state s) {f : DirectoryEntry host} (hf : f ∈ r.candidates) :
    lib.disk s.state (r.dir, f.name) = lib.disk state (r.dir, f.name) := by
  refine h.unmade _ ?_
  cases hlast : s.last (r.dir, f.name) with
  | none => rfl
  | some r' => exact absurd (h.zip _ r' hlast) (not_zip_of_candidate hf)

/-! ### Runs -/

/-- `createArchive` in the state of libzip. -/
def make (s : Series lib) (r : ArchiveRequest host) : Bool × Session lib :=
  (Session.start s.state).createArchive r.listed r.delivered r.cwd r.baseName r.processId
    r.timestamp

/-- What a call guarantees, from the disk of that moment. -/
theorem transactional_make (hlib : lib.Documented) (s : Series lib) (r : ArchiveRequest host) :
    Transactional lib s.state r.dir r.place r.candidates (s.make r) := by
  unfold make Session.createArchive
  split
  · exact Session.transactional_start ..
  · dsimp only
    split
    · exact Session.transactional_start ..
    · exact (Session.made_makeArchive ..).guarantees hlib

variable [DecidableEq δ]

/-- One more `createArchive`. -/
def next (s : Series lib) (r : ArchiveRequest host) : Option (Series lib) :=
  let (ok, session) := s.make r
  some ⟨session.state, if ok then update s.last r.place (some r) else s.last⟩

/-- **One more archive.** -/
theorem Kept.step (hlib : lib.Documented) (hfilename :
    host.filename (host.absolute r.cwd r.archiveName) = host.filename r.archiveName)
    (h : Kept state s) (hnext : next s r = some s') : Kept state s' := by
  have htrans := transactional_make hlib s r
  unfold next at hnext
  generalize s.make r = result at htrans hnext
  obtain ⟨ok, session⟩ := result
  obtain rfl := Option.some.inj hnext
  cases ok with
  | false =>
    -- nothing was made, and the disk is as before
    have hdisk : lib.disk session.state = lib.disk s.state := htrans.unmade rfl
    refine ⟨fun place hnone => (congrFun hdisk place).trans (h.unmade place hnone), h.zip,
      fun place r' hr' => ?_⟩
    show Complete lib _ r' (lib.disk session.state place)
    rw [hdisk]
    exact h.complete place r' hr'
  | true =>
    have hself : update s.last r.place (some r) r.place = some r := update_self ..
    have hold : ∀ {place}, place ≠ r.place → update s.last r.place (some r) place = s.last place :=
      fun hne => update_of_ne hne _ _
    refine ⟨fun place hnone => ?_, fun place r' hr' => ?_, fun place r' hr' => ?_⟩
    · have hne : place ≠ r.place := by
        rintro rfl
        exact absurd (hself.symm.trans hnone) (Option.some_ne_none r)
      exact (htrans.elsewhere place hne).trans (h.unmade place ((hold hne).symm.trans hnone))
    · by_cases hplace : place = r.place
      · exact hplace ▸ zip_suffix_place hfilename
      · exact h.zip place r' ((hold hplace).symm.trans hr')
    · by_cases hplace : place = r.place
      · subst hplace
        obtain rfl := Option.some.inj (hself.symm.trans hr')
        obtain ⟨bytes, contents, hbytes, hunzip, hholds⟩ := htrans.made rfl
        refine Complete.congr ⟨bytes, contents, hbytes, hunzip, hholds⟩ fun f hf => ?_
        exact (h.candidate hf).symm
      · show Complete lib _ r' (lib.disk session.state place)
        rw [htrans.elsewhere place hplace]
        exact h.complete place r' ((hold hplace).symm.trans hr')

/-- **Log files are never touched, and archives stay complete.**  Whatever archives are asked
for, one after another, and wherever libzip fails: a place where none was made is as it was
at first, an archive is only ever made under a name with the extension `.zip`, and the last
one made at a place holds all of the log files that its request found, as they are now. -/
theorem archives_kept (hlib : lib.Documented) (hfilename : ∀ r : ArchiveRequest host,
    host.filename (host.absolute r.cwd r.archiveName) = host.filename r.archiveName)
    (h : Reachable next Always ⟨state, fun _ => none⟩ s) :
    (∀ place, s.last place = none → lib.disk s.state place = lib.disk state place) ∧
    ∀ place r, s.last place = some r → ".zip".toList <:+ place.2.1 ∧
      Complete lib (lib.disk s.state) r (lib.disk s.state place) := by
  have hkept : Kept state s :=
    h.invariant (kept_start state) fun _ r _ _ hkept _ hnext =>
      hkept.step hlib (hfilename r) hnext
  refine ⟨hkept.unmade, fun place r hr => ⟨hkept.zip place r hr, ?_⟩⟩
  exact (hkept.complete place r hr).congr fun f hf => hkept.candidate hf

/-- Where `fs::absolute` puts the current directory in front, the file name stays. -/
theorem filename_absolute_posix (cwd path : Text) :
    Host.posix.filename (Host.posix.absolute cwd path) = Host.posix.filename path := by
  by_cases habs : path.head? == some '/'
  · exact congrArg Host.posix.filename (if_pos habs)
  · have hjoin : Host.posix.absolute cwd path = cwd ++ '/' :: path := if_neg habs
    have hstop :
        List.takeWhile (fun c => !Host.posix.isSeparator c) ('/' :: cwd.reverse) = [] := rfl
    have hreverse : (cwd ++ '/' :: path).reverse = path.reverse ++ '/' :: cwd.reverse := by simp
    refine Subtype.ext ?_
    rw [hjoin]
    show List.rtakeWhile _ _ = List.rtakeWhile _ _
    rw [List.rtakeWhile, List.rtakeWhile, hreverse, List.takeWhile_append, hstop, List.append_nil]
    split
    · next hlength =>
      exact congrArg List.reverse
        ((List.takeWhile_prefix _).eq_of_length hlength).symm
    · rfl

/-- The base `app` is archived twice at one moment, and once at the next. -/
def requestOfApp (timestamp : Text) : ArchiveRequest Host.posix :=
  ⟨twoBases, 2, "/logs".toList, "/logs/app".toList, 7, timestamp⟩

theorem archives_kept_app :
    ∃ s : Series (Scripted.libzip noFailure),
      (s.last (requestOfApp "20240101000000".toList).place).isSome = true ∧
      ∀ place r, s.last place = some r → ".zip".toList <:+ place.2.1 ∧
        Complete (Scripted.libzip noFailure) ((Scripted.libzip noFailure).disk s.state) r
          ((Scripted.libzip noFailure).disk s.state place) := by
  obtain ⟨s, hs, hmade⟩ := exists_reachable_of_decide
    next (⟨Session.stateOfApp, fun _ => none⟩ : Series (Scripted.libzip noFailure))
    (fun s => (s.last (requestOfApp "20240101000000".toList).place).isSome = true) Always
    [requestOfApp "20240101000000".toList, requestOfApp "20240101000000".toList,
      requestOfApp "20240101000001".toList] (by decide +kernel)
  exact ⟨s, hmade, (archives_kept (Scripted.documented noFailure)
    (fun r => filename_absolute_posix r.cwd r.archiveName) hs).2⟩

end Series
end SpeckitLog
