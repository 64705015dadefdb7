import SpeckitLog.Archive.Libzip

/-!
# Making an archive, or changing nothing

`createArchive` call by call: it opens a ZIP archive, adds the candidates to it and
closes it, and `ZipGuard` discards the archive on every other way out.  So an archive is
written with all that belongs into it, or the disk stays as it was; and what libzip
hands out is given back once.

## Main definitions

* `Session` — libzip, and the history of what it handed out.
* `ZipGuard`, `Session.addFiles`, `Session.createArchive` — the code.
* `Transactional` — what the call guarantees.

## Main results

* `Session.transactional` — the guarantees hold wherever the call fails.
* `Session.createArchive_eq` — an archive that is made has the files of `createArchive`.
-/

namespace SpeckitLog

open FileManager Archive

variable {δ : Type*} {host : Host δ} {β : Type*} {lib : Libzip host β}

/-- The state of libzip; history: what it handed out, and what became of that. -/
structure Session (lib : Libzip host β) where
  state : lib.State
  opened : List lib.Zip
  /-- The archives given to a successful `zip_close`, or to `zip_discard`. -/
  ended : List lib.Zip
  created : List lib.Source
  /-- The sources given to a successful `zip_file_add`. -/
  adopted : List lib.Source
  freed : List lib.Source

namespace Session

/-- Before any call. -/
def start (state : lib.State) : Session lib := ⟨state, [], [], [], [], []⟩

/-! ### The calls -/

def zipOpen (s : Session lib) (place : host.Place) : Option lib.Zip × Session lib :=
  let (zip, state) := lib.zipOpen s.state place
  (zip, { s with state := state, opened := s.opened ++ zip.toList })

def zipSourceFile (s : Session lib) (z : lib.Zip) (place : host.Place) :
    Option lib.Source × Session lib :=
  let (source, state) := lib.zipSourceFile s.state z place
  (source, { s with state := state, created := s.created ++ source.toList })

def zipFileAdd (s : Session lib) (z : lib.Zip) (name : Text) (source : lib.Source) :
    ℤ × Session lib :=
  let (idx, state) := lib.zipFileAdd s.state z name source
  (idx, { s with
    state := state, adopted := if idx < 0 then s.adopted else s.adopted ++ [source] })

def zipSourceFree (s : Session lib) (source : lib.Source) : Session lib :=
  { s with state := lib.zipSourceFree s.state source, freed := s.freed ++ [source] }

def zipClose (s : Session lib) (z : lib.Zip) : ℤ × Session lib :=
  let (res, state) := lib.zipClose s.state z
  (res, { s with state := state, ended := if res = 0 then s.ended ++ [z] else s.ended })

def zipDiscard (s : Session lib) (z : lib.Zip) : Session lib :=
  { s with state := lib.zipDiscard s.state z, ended := s.ended ++ [z] }

end Session

/-- `ZipGuard`. -/
structure ZipGuard (lib : Libzip host β) where
  zip : Option lib.Zip
  closed : Bool

namespace ZipGuard

/-- `ZipGuard::Close`. -/
def close (guard : ZipGuard lib) (s : Session lib) : ℤ × ZipGuard lib × Session lib :=
  match guard.zip with
  | none => (-1, guard, s)
  | some z =>
    let (res, s) := s.zipClose z
    (res, { guard with closed := res == 0 }, s)

/-- The destructor. -/
def destroy (guard : ZipGuard lib) (s : Session lib) : Session lib :=
  match guard.zip with
  | none => s
  | some z => if guard.closed then s else s.zipDiscard z

end ZipGuard

/-- An entry of the archive: a file of `dir` under its bare name. -/
def zipEntry (dir : δ) (f : DirectoryEntry host) : Text × host.Place := (f.name.1, dir, f.name)

instance (f : DirectoryEntry host) : Decidable (HasData f) :=
  decidable_of_iff (f.size.any (· ≠ 0) = true) <| by
    rw [Option.any_eq_true]
    exact exists_congr fun _ => and_congr_right' decide_eq_true_iff

/-- What belongs into the archive: the candidates that are not empty. -/
def wanted (dir : δ) (candidates : List (DirectoryEntry host)) : List (Text × host.Place) :=
  (candidates.filter fun f => HasData f).map (zipEntry dir)

namespace Session

/-- The part of the loop for a candidate that is not empty; false when the call returns. -/
def addFile (s : Session lib) (dir : δ) (z : lib.Zip) (f : DirectoryEntry host) :
    Bool × Session lib :=
  match s.zipSourceFile z (dir, f.name) with
  | (none, s) => (false, s)
  | (some source, s) =>
    let (idx, s) := s.zipFileAdd z f.name.1 source
    if idx < 0 then (false, s.zipSourceFree source) else (true, s)

/-- The loop of `createArchive` over the candidates, which are files of `dir`; `none`
when the call returns. -/
def addFiles (dir : δ) (z : lib.Zip) :
    List (DirectoryEntry host) → Bool → Session lib → Option Bool × Session lib
  | [], hadNonempty, s => (some hadNonempty, s)
  | f :: candidates, hadNonempty, s =>
    match f.size with
    | none => addFiles dir z candidates hadNonempty s
    | some sz =>
      if sz = 0 then addFiles dir z candidates hadNonempty s
      else
        match s.addFile dir z f with
        | (false, s) => (none, s)
        | (true, s) => addFiles dir z candidates true s

/-- `createArchive` from the opening of the archive on; every way out goes through the
destructor of the guard. -/
def makeArchive (s : Session lib) (dir : δ) (place : host.Place)
    (candidates : List (DirectoryEntry host)) : Bool × Session lib :=
  match s.zipOpen place with
  | (none, s) => (false, s)
  | (some rawZip, s) =>
    let zip : ZipGuard lib := ⟨some rawZip, false⟩
    match addFiles dir rawZip candidates false s with
    | (none, s) => (false, zip.destroy s)
    | (some hadNonempty, s) =>
      if !hadNonempty then (false, zip.destroy s)
      else
        let (res, zip, s) := zip.close s
        (res == 0, zip.destroy s)

/-- Where the archive goes: its name leads there from the current directory. -/
def archivePlace (host : Host δ) (cwd baseName : Text) (processId : ℤ) (timestamp : Text) :
    host.Place :=
  host.locate (absoluteBase host cwd
    (baseName ++ '_' :: Text.decimal processId ++ '_' :: timestamp ++ ".zip".toList))

/-- `createArchive`, in the current directory `cwd`. -/
def createArchive (s : Session lib) (disk : δ → List (DirectoryEntry host)) (delivered : ℕ)
    (cwd baseName : Text) (processId : ℤ) (timestamp : Text) : Bool × Session lib :=
  if timestamp.isEmpty || baseName.isEmpty then (false, s)
  else
    let candidates := collectLogFiles (disk (directoryOf host cwd)) delivered baseName
    if candidates.isEmpty then (false, s)
    else s.makeArchive (directoryOf host cwd)
      (archivePlace host cwd baseName processId timestamp) candidates

/-! ### The loop -/

/-- Every source was adopted or freed, once. -/
def Settled (s : Session lib) : Prop := (s.adopted ++ s.freed).Perm s.created

/-- Between opening and ending: the disk and the archives stay, and sources are not lost. -/
structure Keeps (s s' : Session lib) : Prop where
  disk : lib.disk s'.state = lib.disk s.state
  opened : s'.opened = s.opened
  ended : s'.ended = s.ended
  settled : s.Settled → s'.Settled

theorem Keeps.refl (s : Session lib) : Keeps s s := ⟨rfl, rfl, rfl, id⟩

theorem Keeps.trans {s s' s'' : Session lib} (h : Keeps s s') (h' : Keeps s' s'') : Keeps s s'' :=
  ⟨h'.disk.trans h.disk, h'.opened.trans h.opened, h'.ended.trans h.ended, h'.settled ∘ h.settled⟩

variable {s : Session lib} {dir : δ} {z : lib.Zip} {f : DirectoryEntry host}
  {candidates : List (DirectoryEntry host)} {had : Bool}

/-- What becomes of one file: there is no source for it, its source is adopted, or its
source is freed again. -/
inductive Added (s : Session lib) (dir : δ) (z : lib.Zip) (f : DirectoryEntry host) :
    Bool × Session lib → Prop
  | noSource (hsource : (lib.zipSourceFile s.state z (dir, f.name)).1 = none) :
      Added s dir z f (false, { s with state := (lib.zipSourceFile s.state z (dir, f.name)).2 })
  | adopted {source : lib.Source} {state : lib.State}
      (hsource : lib.zipSourceFile s.state z (dir, f.name) = (some source, state))
      (hadd : 0 ≤ (lib.zipFileAdd state z f.name.1 source).1) :
      Added s dir z f (true, { s with
        state := (lib.zipFileAdd state z f.name.1 source).2
        created := s.created ++ [source]
        adopted := s.adopted ++ [source] })
  | refused {source : lib.Source} {state : lib.State}
      (hsource : lib.zipSourceFile s.state z (dir, f.name) = (some source, state))
      (hadd : (lib.zipFileAdd state z f.name.1 source).1 < 0) :
      Added s dir z f (false, { s with
        state := lib.zipSourceFree (lib.zipFileAdd state z f.name.1 source).2 source
        created := s.created ++ [source]
        freed := s.freed ++ [source] })

theorem added_addFile (s : Session lib) (dir : δ) (z : lib.Zip) (f : DirectoryEntry host) :
    Added s dir z f (s.addFile dir z f) := by
  unfold addFile zipSourceFile
  cases hsource : lib.zipSourceFile s.state z (dir, f.name) with
  | mk source state =>
    cases source with
    | none =>
      simpa [hsource] using Added.noSource (f := f) (congrArg Prod.fst hsource)
    | some source =>
      by_cases hadd : (lib.zipFileAdd state z f.name.1 source).1 < 0
      · simpa [zipFileAdd, zipSourceFree, hadd] using Added.refused hsource hadd
      · simpa [zipFileAdd, hadd] using Added.adopted hsource (not_lt.mp hadd)

/-- A source that was created has been adopted. -/
theorem Settled.adopt {state : lib.State} {source : lib.Source} (h : s.Settled) :
    Settled { s with
      state := state, created := s.created ++ [source], adopted := s.adopted ++ [source] } := by
  show ((s.adopted ++ [source]) ++ s.freed).Perm (s.created ++ [source])
  rw [List.append_assoc]
  exact List.perm_middle.trans ((h.cons source).trans (List.perm_append_singleton ..).symm)

/-- A source that was created has been freed. -/
theorem Settled.free {state : lib.State} {source : lib.Source} (h : s.Settled) :
    Settled { s with
      state := state, created := s.created ++ [source], freed := s.freed ++ [source] } := by
  show (s.adopted ++ (s.freed ++ [source])).Perm (s.created ++ [source])
  rw [← List.append_assoc]
  exact h.append_right [source]

/-- **One file** keeps the disk, and its source is adopted or freed. -/
theorem Added.keeps {r : Bool × Session lib} (h : Added s dir z f r) (hlib : lib.Documented) :
    Keeps s r.2 := by
  have hdisk : ∀ {source state}, lib.zipSourceFile s.state z (dir, f.name) = (source, state) →
      lib.disk state = lib.disk s.state := by
    intro source state hsource
    have := hlib.source_disk s.state z (dir, f.name)
    rwa [hsource] at this
  cases h with
  | noSource => exact ⟨hlib.source_disk .., rfl, rfl, id⟩
  | adopted hsource _ =>
    exact ⟨(hlib.add_disk ..).trans (hdisk hsource), rfl, rfl, Settled.adopt⟩
  | refused hsource _ =>
    exact ⟨(hlib.free_disk ..).trans ((hlib.add_disk ..).trans (hdisk hsource)), rfl, rfl,
      Settled.free⟩

/-- A file that was added is among the entries. -/
theorem Added.entries {s' : Session lib} (h : Added s dir z f (true, s'))
    (hlib : lib.Documented) : lib.entries s'.state z =
      overwrite f.name.1 (dir, f.name) (lib.entries s.state z) := by
  cases h with
  | @adopted source state hsource hadd =>
    have hentries := hlib.source_entries s.state z (dir, f.name)
    have hfile := hlib.source_file s.state z (dir, f.name) source (by rw [hsource])
    rw [hsource] at hentries
    exact (hlib.add_entries state z f.name.1 source hadd).trans (by rw [hfile, hentries])

/-- **The loop** keeps the disk, wherever it ends. -/
theorem addFiles_keeps (hlib : lib.Documented) (candidates : List (DirectoryEntry host))
    (had : Bool) (s : Session lib) : Keeps s (addFiles dir z candidates had s).2 := by
  induction candidates generalizing had s with
  | nil => exact .refl s
  | cons f candidates ih =>
    rw [addFiles]
    split
    · exact ih had s
    · split
      · exact ih had s
      · have hadded := (added_addFile s dir z f).keeps hlib
        split
        · next s' heq => rwa [heq] at hadded
        · next s' heq =>
          rw [heq] at hadded
          exact hadded.trans (ih true s')

theorem wanted_cons (h : HasData f) :
    wanted dir (f :: candidates) = zipEntry dir f :: wanted dir candidates := by
  simp [wanted, h]

theorem wanted_cons_of_not (h : ¬ HasData f) :
    wanted dir (f :: candidates) = wanted dir candidates := by
  simp [wanted, h]

/-- **What the loop adds**: the candidates that are not empty. -/
theorem addFiles_entries (hlib : lib.Documented) {s s' : Session lib} {had had' : Bool}
    (h : addFiles dir z candidates had s = (some had', s')) :
    lib.entries s'.state z =
        overwriteAll (wanted dir candidates) (lib.entries s.state z) ∧
      (had' = true ↔ had = true ∨ wanted dir candidates ≠ []) := by
  induction candidates generalizing had s with
  | nil =>
    obtain ⟨hhad, rfl⟩ := Prod.mk.inj h
    obtain rfl := Option.some.inj hhad
    exact ⟨rfl, by simp [wanted]⟩
  | cons f candidates ih =>
    rw [addFiles] at h
    split at h
    · next hsize =>
      rw [wanted_cons_of_not (by simp [HasData, hsize])]
      exact ih h
    · next sz hsize =>
      split at h
      · next hzero =>
        rw [wanted_cons_of_not (by simp [HasData, hsize, hzero])]
        exact ih h
      · next hsz =>
        rw [wanted_cons ⟨sz, hsize, hsz⟩]
        have hadded := added_addFile s dir z f
        split at h
        · cases h
        · next s₁ heq =>
          rw [heq] at hadded
          obtain ⟨hentries, hhad⟩ := ih h
          refine ⟨?_, ?_⟩
          · rw [hentries, hadded.entries hlib]
            rfl
          · exact iff_of_true (hhad.mpr (Or.inl rfl)) (Or.inr (List.cons_ne_nil _ _))

end Session

/-- The archive has one entry for every candidate whose size could be read and is not
zero, with what the file holds, and no other entry. -/
structure HoldsAll (disk : Disk host β) (dir : δ) (candidates : List (DirectoryEntry host))
    (contents : List (Text × β)) : Prop where
  nonempty : contents ≠ []
  nodup : (contents.map Prod.fst).Nodup
  complete : ∀ f ∈ candidates, HasData f →
    ∃ b, disk (dir, f.name) = some b ∧ (f.name.1, b) ∈ contents
  sound : ∀ c ∈ contents, ∃ f ∈ candidates, HasData f ∧ f.name.1 = c.1

/-- **What `createArchive` guarantees** of the candidates in `dir` and the archive at `place`:
the archive is made with all that belongs into it, or the disk is as it was; the archive,
if one was opened, was ended once; and every source was adopted or freed, once. -/
structure Transactional (lib : Libzip host β) (before : lib.State) (dir : δ) (place : host.Place)
    (candidates : List (DirectoryEntry host)) (r : Bool × Session lib) : Prop where
  made : r.1 = true → ∃ bytes contents, lib.disk r.2.state place = some bytes ∧
    lib.unzip bytes = some contents ∧ HoldsAll (lib.disk before) dir candidates contents
  elsewhere : ∀ other, other ≠ place → lib.disk r.2.state other = lib.disk before other
  unmade : r.1 = false → lib.disk r.2.state = lib.disk before
  opened : r.2.opened.length ≤ 1
  ended : r.2.ended = r.2.opened
  settled : r.2.Settled

/-- A call that returns false and left the disk alone. -/
theorem Transactional.of_disk {before : lib.State} {dir : δ} {place : host.Place}
    {candidates : List (DirectoryEntry host)} {s : Session lib}
    (hdisk : lib.disk s.state = lib.disk before) (hopened : s.opened.length ≤ 1)
    (hended : s.ended = s.opened) (hsettled : s.Settled) :
    Transactional lib before dir place candidates (false, s) where
  made h := absurd h Bool.false_ne_true
  elsewhere other _ := congrFun hdisk other
  unmade _ := hdisk
  opened := hopened
  ended := hended
  settled := hsettled

theorem mem_wanted {dir : δ} {candidates : List (DirectoryEntry host)} {e : Text × host.Place} :
    e ∈ wanted dir candidates ↔ ∃ f ∈ candidates, HasData f ∧ zipEntry dir f = e := by
  simp only [wanted, List.mem_map, List.mem_filter, decide_eq_true_iff, and_assoc]

/-- The name of an entry determines it. -/
theorem eq_of_mem_wanted {dir : δ} {candidates : List (DirectoryEntry host)}
    {a b : Text × host.Place} (ha : a ∈ wanted dir candidates) (hb : b ∈ wanted dir candidates)
    (hab : a.1 = b.1) : a = b := by
  obtain ⟨f, -, -, rfl⟩ := mem_wanted.mp ha
  obtain ⟨g, -, -, rfl⟩ := mem_wanted.mp hb
  have hname : f.name = g.name := Subtype.ext hab
  unfold zipEntry
  rw [hname]

/-- What is wanted is what is added. -/
theorem mem_added {dir : δ} {candidates : List (DirectoryEntry host)} {e : Text × host.Place} :
    e ∈ overwriteAll (wanted dir candidates) [] ↔ e ∈ wanted dir candidates := by
  rw [mem_overwriteAll fun a ha b hb => eq_of_mem_wanted ha hb]
  exact or_iff_left fun h => List.not_mem_nil h.1

theorem exists_mem_of_forall₂ {α γ : Type*} {R : α → γ → Prop} {l : List α} {l' : List γ}
    (h : List.Forall₂ R l l') {a : α} (ha : a ∈ l) : ∃ c ∈ l', R a c := by
  induction h with
  | nil => exact absurd ha List.not_mem_nil
  | @cons b c l l' hbc _ ih =>
    rcases List.mem_cons.mp ha with rfl | ha
    · exact ⟨c, List.mem_cons_self, hbc⟩
    · obtain ⟨d, hd, had⟩ := ih ha
      exact ⟨d, List.mem_cons_of_mem c hd, had⟩

/-- The names in what is written are those that were added. -/
theorem map_fst_of_forall₂ {disk : Disk host β} {entries : List (Text × host.Place)}
    {contents : List (Text × β)}
    (h : List.Forall₂ (fun e c => e.1 = c.1 ∧ disk e.2 = some c.2) entries contents) :
    contents.map Prod.fst = entries.map Prod.fst := by
  rw [← List.forall₂_eq_eq_eq, List.forall₂_map_left_iff, List.forall₂_map_right_iff]
  exact (h.imp fun e c hec => hec.1.symm).flip

/-- What is written holds all that was wanted. -/
theorem holdsAll_of_forall₂ {disk : Disk host β} {dir : δ}
    {candidates : List (DirectoryEntry host)} {contents : List (Text × β)}
    (hwanted : wanted dir candidates ≠ [])
    (h : List.Forall₂ (fun e c => e.1 = c.1 ∧ disk e.2 = some c.2)
      (overwriteAll (wanted dir candidates) []) contents) :
    HoldsAll disk dir candidates contents := by
  constructor
  · obtain ⟨e, he⟩ := List.exists_mem_of_ne_nil _ hwanted
    obtain ⟨c, hc, -⟩ := exists_mem_of_forall₂ h (mem_added.mpr he)
    exact List.ne_nil_of_mem hc
  · rw [map_fst_of_forall₂ h]
    exact nodup_overwriteAll _ List.nodup_nil
  · intro f hf hdata
    obtain ⟨⟨name, b⟩, hc, hname, hbytes⟩ :=
      exists_mem_of_forall₂ h (mem_added.mpr (mem_wanted.mpr ⟨f, hf, hdata, rfl⟩))
    obtain rfl : f.name.1 = name := hname
    exact ⟨b, hbytes, hc⟩
  · intro c hc
    obtain ⟨e, he, hname, -⟩ := exists_mem_of_forall₂ h.flip hc
    obtain ⟨f, hf, hdata, rfl⟩ := mem_wanted.mp (mem_added.mp he)
    exact ⟨f, hf, hdata, hname⟩

namespace Session

/-! ### The whole call -/

variable {s : Session lib} {dir : δ} {place : host.Place} {z : lib.Zip}
  {candidates : List (DirectoryEntry host)}

/-- The ways through a call: the archive is not opened; the loop returns, or finds no file
that is not empty; the archive is not closed; it is closed. -/
inductive Made (s : Session lib) (dir : δ) (place : host.Place)
    (candidates : List (DirectoryEntry host)) : Bool × Session lib → Prop
  | notOpened {s' : Session lib} (hopen : s.zipOpen place = (none, s')) :
      Made s dir place candidates (false, s')
  | discarded {z : lib.Zip} {s₁ s₂ : Session lib} {had : Option Bool}
      (hopen : s.zipOpen place = (some z, s₁))
      (hloop : addFiles dir z candidates false s₁ = (had, s₂)) (hhad : had ≠ some true) :
      Made s dir place candidates (false, s₂.zipDiscard z)
  | notClosed {z : lib.Zip} {s₁ s₂ : Session lib} (hopen : s.zipOpen place = (some z, s₁))
      (hloop : addFiles dir z candidates false s₁ = (some true, s₂))
      (hclose : (lib.zipClose s₂.state z).1 ≠ 0) :
      Made s dir place candidates (false, (s₂.zipClose z).2.zipDiscard z)
  | closed {z : lib.Zip} {s₁ s₂ : Session lib} (hopen : s.zipOpen place = (some z, s₁))
      (hloop : addFiles dir z candidates false s₁ = (some true, s₂))
      (hclose : (lib.zipClose s₂.state z).1 = 0) :
      Made s dir place candidates (true, (s₂.zipClose z).2)

theorem made_makeArchive (s : Session lib) (dir : δ) (place : host.Place)
    (candidates : List (DirectoryEntry host)) :
    Made s dir place candidates (s.makeArchive dir place candidates) := by
  unfold makeArchive
  split
  · next hopen => exact .notOpened hopen
  · next z s₁ hopen =>
    dsimp only
    split
    · next s₂ hloop => exact .discarded hopen hloop (by simp)
    · next had s₂ hloop =>
      cases had with
      | false => exact .discarded hopen hloop (by simp)
      | true =>
        by_cases hclose : (lib.zipClose s₂.state z).1 = 0
        · simpa [ZipGuard.close, ZipGuard.destroy, zipClose, hclose] using
            Made.closed hopen hloop hclose
        · simpa [ZipGuard.close, ZipGuard.destroy, zipClose, hclose, beq_false_of_ne hclose] using
            Made.notClosed hopen hloop hclose

/-- What opening an archive does. -/
theorem of_zipOpen (hlib : lib.Documented) {state : lib.State} {zip : Option lib.Zip}
    {s' : Session lib} (hopen : (start state).zipOpen place = (zip, s')) :
    lib.disk s'.state = lib.disk state ∧ s'.opened = zip.toList ∧ s'.ended = [] ∧ s'.Settled ∧
      ∀ z, zip = some z → lib.target z = place ∧ lib.entries s'.state z = [] := by
  obtain ⟨rfl, rfl⟩ := Prod.mk.inj hopen
  exact ⟨hlib.open_disk .., rfl, rfl, .refl _, fun z hz => hlib.open_empty _ _ z hz⟩

/-- After the loop the disk is as before, and the one open archive has not been ended. -/
theorem of_loop (hlib : lib.Documented) {state : lib.State} {s₁ s₂ : Session lib}
    {had : Option Bool} (hopen : (start state).zipOpen place = (some z, s₁))
    (hloop : addFiles dir z candidates false s₁ = (had, s₂)) :
    lib.disk s₂.state = lib.disk state ∧ s₂.opened = [z] ∧ s₂.ended = [] ∧ s₂.Settled ∧
      lib.target z = place ∧ lib.entries s₁.state z = [] := by
  obtain ⟨hdisk, hopened, hended, hsettled, hz⟩ := of_zipOpen hlib hopen
  have hkeeps : Keeps s₁ (addFiles dir z candidates false s₁).2 :=
    addFiles_keeps hlib candidates false s₁
  rw [hloop] at hkeeps
  exact ⟨hkeeps.disk.trans hdisk, hkeeps.opened.trans hopened, hkeeps.ended.trans hended,
    hkeeps.settled hsettled, hz z rfl⟩

/-- **What is written**: the files that were added, with what they held before the call. -/
theorem Made.written (hlib : lib.Documented) {state : lib.State} {s' : Session lib}
    (h : Made (start state) dir place candidates (true, s')) :
    wanted dir candidates ≠ [] ∧ ∃ bytes contents, lib.disk s'.state place = some bytes ∧
      lib.unzip bytes = some contents ∧
      List.Forall₂ (fun e c => e.1 = c.1 ∧ lib.disk state e.2 = some c.2)
        (overwriteAll (wanted dir candidates) []) contents := by
  cases h with
  | @closed z s₁ s₂ hopen hrun hclose =>
    obtain ⟨hdisk, -, -, -, htarget, hempty⟩ := of_loop hlib hopen hrun
    obtain ⟨hentries, hhad⟩ := addFiles_entries hlib hrun
    rw [hempty] at hentries
    have hwanted : wanted dir candidates ≠ [] := (hhad.mp rfl).resolve_left Bool.false_ne_true
    obtain ⟨e, he⟩ := List.exists_mem_of_ne_nil _ hwanted
    obtain ⟨bytes, contents, hbytes, hunzip, hcontents⟩ := hlib.close_written s₂.state z hclose
      (hentries ▸ List.ne_nil_of_mem (mem_added.mpr he))
    rw [htarget] at hbytes
    rw [hentries, hdisk] at hcontents
    exact ⟨hwanted, bytes, contents, hbytes, hunzip, hcontents⟩

/-- **The archive is made, or nothing is changed**, wherever the call fails. -/
theorem Made.guarantees (hlib : lib.Documented) {state : lib.State} {r : Bool × Session lib}
    (h : Made (start state) dir place candidates r) :
    Transactional lib state dir place candidates r := by
  have hmade : r.1 = true → ∃ bytes contents, lib.disk r.2.state place = some bytes ∧
      lib.unzip bytes = some contents ∧ HoldsAll (lib.disk state) dir candidates contents := by
    intro hr
    obtain ⟨result, s'⟩ := r
    obtain rfl : result = true := hr
    obtain ⟨hwanted, bytes, contents, hbytes, hunzip, hcontents⟩ := h.written hlib
    exact ⟨bytes, contents, hbytes, hunzip, holdsAll_of_forall₂ hwanted hcontents⟩
  cases h with
  | notOpened hopen =>
    obtain ⟨hdisk, hopened, hended, hsettled, -⟩ := of_zipOpen hlib hopen
    refine .of_disk hdisk ?_ (hended.trans hopened.symm) hsettled
    rw [hopened]
    exact Nat.zero_le 1
  | @discarded z s₁ s₂ had hopen hrun _ =>
    obtain ⟨hdisk, hopened, hended, hsettled, -⟩ := of_loop hlib hopen hrun
    refine .of_disk ((hlib.discard_disk ..).trans hdisk) (le_of_eq ?_) ?_ hsettled
    · exact congrArg List.length hopened
    · show s₂.ended ++ [z] = s₂.opened
      rw [hended, hopened, List.nil_append]
  | @notClosed z s₁ s₂ hopen hrun hclose =>
    obtain ⟨hdisk, hopened, hended, hsettled, -⟩ := of_loop hlib hopen hrun
    refine .of_disk ?_ (le_of_eq ?_) ?_ hsettled
    · exact (hlib.discard_disk ..).trans ((hlib.close_failed _ _ hclose).trans hdisk)
    · exact congrArg List.length hopened
    · show (if (lib.zipClose s₂.state z).1 = 0 then s₂.ended ++ [z] else s₂.ended) ++ [z] =
        s₂.opened
      rw [if_neg hclose, hended, hopened, List.nil_append]
  | @closed z s₁ s₂ hopen hrun hclose =>
    obtain ⟨hdisk, hopened, hended, hsettled, htarget, -⟩ := of_loop hlib hopen hrun
    refine ⟨hmade, fun other hother => ?_, fun h => ?_, le_of_eq ?_, ?_, hsettled⟩
    · exact (hlib.close_elsewhere _ _ _ (htarget ▸ hother)).trans (congrFun hdisk other)
    · exact absurd h.symm Bool.false_ne_true
    · exact congrArg List.length hopened
    · show (if (lib.zipClose s₂.state z).1 = 0 then s₂.ended ++ [z] else s₂.ended) = s₂.opened
      rw [if_pos hclose, hended, hopened, List.nil_append]

/-- Nothing was called. -/
theorem transactional_start (state : lib.State) (dir : δ) (place : host.Place)
    (candidates : List (DirectoryEntry host)) :
    Transactional lib state dir place candidates (false, start state) :=
  .of_disk rfl (Nat.zero_le 1) rfl (.refl _)

/-- The files of `/logs`, and an archive that is already there. -/
def filesOfApp (place : Host.posix.Place) : Option Blob :=
  if place = Host.posix.locate "/logs/app.log".toList then some (.bytes "hello".toList)
  else if place = Host.posix.locate "/logs/app2.log".toList then some (.bytes "second".toList)
  else if place = Host.posix.locate "/logs/app_7_20240101000000.zip".toList then some (.zip [])
  else none

def stateOfApp : Scripted.State Host.posix := ⟨filesOfApp, []⟩

/-- An archive of the base `app` is made in that directory. -/
def archiveScripted (answers : ArchiveAnswers Host.posix) :
    Bool × Session (Scripted.libzip answers) :=
  (start stateOfApp : Session (Scripted.libzip answers)).createArchive twoBases
    answers.delivered "/logs".toList "/logs/app".toList 7 "20240101000000".toList

/-- libzip does not take the second file. -/
def refuseSecond : ArchiveAnswers Host.posix :=
  ⟨2, true, fun _ => true, fun name => name.1 = "app.log".toList, true⟩

/-- The answers of a libzip that never fails. -/
def answering (delivered : ℕ) : ArchiveAnswers host :=
  ⟨delivered, true, fun _ => true, fun _ => true, true⟩

/-- The loops of the two models add the same names. -/
theorem addFiles_names (dir : δ) (candidates : List (DirectoryEntry host)) (had : Bool)
    {files : List host.FileName} {l : List (Text × host.Place)}
    (h : (files.map fun name => name.1) = l.map Prod.fst) {delivered : ℕ} {had' : Bool}
    {files' : List host.FileName}
    (hadd : Archive.addFiles (answering delivered) candidates had files = some (had', files')) :
    (files'.map fun name => name.1) = (overwriteAll (wanted dir candidates) l).map Prod.fst := by
  induction candidates generalizing had files l with
  | nil =>
    obtain ⟨-, rfl⟩ := Prod.mk.inj (Option.some.inj hadd)
    exact h
  | cons f candidates ih =>
    rw [Archive.addFiles] at hadd
    split at hadd
    · next hsize =>
      rw [wanted_cons_of_not (by simp [HasData, hsize])]
      exact ih had h hadd
    · next sz hsize =>
      split at hadd
      · next hzero =>
        rw [wanted_cons_of_not (by simp [HasData, hsize, hzero])]
        exact ih had h hadd
      · next hsz =>
        rw [wanted_cons ⟨sz, hsize, hsz⟩]
        refine ih true ?_ hadd
        have hmem : f.name ∈ files ↔ (zipEntry dir f).1 ∈ l.map Prod.fst := by
          rw [← h]
          exact (List.mem_map_of_injective fun _ _ hval => Subtype.ext hval).symm
        rw [map_fst_overwrite]
        by_cases hfile : f.name ∈ files
        · rw [if_pos hfile, if_pos (hmem.mp hfile), h]
        · rw [if_neg hfile, if_neg (hmem.not.mp hfile), List.map_append, h]
          rfl

/-- **An archive that is made** is the one of `createArchive`: a ZIP file with these names. -/
theorem createArchive_eq (hlib : lib.Documented) (state : lib.State)
    (disk : δ → List (DirectoryEntry host)) (delivered : ℕ) (cwd baseName : Text)
    (processId : ℤ) (timestamp : Text) {s' : Session lib}
    (h : (start state).createArchive disk delivered cwd baseName processId timestamp = (true, s')) :
    ∃ archive bytes contents,
      SpeckitLog.createArchive disk cwd baseName processId timestamp (answering delivered) =
        some archive ∧
      host.locate (absoluteBase host cwd archive.name) =
        archivePlace host cwd baseName processId timestamp ∧
      lib.disk s'.state (archivePlace host cwd baseName processId timestamp) = some bytes ∧
      lib.unzip bytes = some contents ∧
      contents.map Prod.fst = archive.files.map fun name => name.1 := by
  unfold createArchive at h
  split at h
  · cases h
  next hinputs =>
  dsimp only at h
  split at h
  · cases h
  next hcandidates =>
  have hmade := made_makeArchive (start state) (directoryOf host cwd)
    (archivePlace host cwd baseName processId timestamp)
    (collectLogFiles (disk (directoryOf host cwd)) delivered baseName)
  rw [h] at hmade
  obtain ⟨hwanted, bytes, contents, hbytes, hunzip, hcontents⟩ := hmade.written hlib
  obtain ⟨e, he⟩ := List.exists_mem_of_ne_nil _ hwanted
  obtain ⟨f, hf, hdata, -⟩ := mem_wanted.mp he
  -- the loop of the other model goes through as well, and adds the same names
  have hok : (answering delivered : ArchiveAnswers host).Succeed delivered :=
    ⟨le_rfl, rfl, fun _ => rfl, fun _ => rfl, rfl⟩
  obtain ⟨had, files, hadd, hhad⟩ := addFiles_of_succeed hok
    (collectLogFiles (disk (directoryOf host cwd)) delivered baseName) false []
  obtain rfl : had = true := hhad.mpr (Or.inr ⟨f, hf, hdata⟩)
  refine ⟨⟨_, files⟩, bytes, contents, ?_, rfl, hbytes, hunzip, ?_⟩
  · have hdelivered : (answering delivered : ArchiveAnswers host).delivered = delivered := rfl
    rw [SpeckitLog.createArchive, if_neg hinputs]
    dsimp only
    rw [hdelivered, if_neg hcandidates, hadd]
    rfl
  · rw [map_fst_of_forall₂ hcontents]
    exact (addFiles_names _ _ _ rfl hadd).symm

end Session

end SpeckitLog
