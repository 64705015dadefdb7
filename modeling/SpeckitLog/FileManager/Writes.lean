import SpeckitLog.FileManager.Journal

/-!
# Writes that fail, and writes that flush

`Write` hands its data to `fwrite`, adds the length to its size, and flushes when the
size is a multiple of a mebibyte.  A short `fwrite` leaves the first bytes in the stream
and does not count them; a flush that fails makes the call return false after all of the
data was written and counted; and on Windows, where the stream is in text mode, the file
gets a byte more for every LF.  A size that steps over a multiple is not one: then nothing
is flushed.

## Main definitions

* `Journal.AllOrNothing`, `Journal.Granted` — a write as callers see it, and what the
  system has to answer for it.
* `Journal.SizeExact` — the size is the length of the file, text mode included.
* `Journal.FlushesInTime`, `Lands` — no more than a mebibyte waits to be flushed, and no
  write steps over a multiple.

## Main results

* `Journal.wrote_of_write` — what a write does, whatever the system answers.
* `Journal.allOrNothing_iff` — when writes are all or nothing, and the size is exact.
* `Journal.flushesInTime_iff` — when the flushes are in time.
-/

namespace SpeckitLog

open FileManager

namespace FileManager

variable {δ : Type*} [DecidableEq δ] {host : Host δ}

/-! ### What a write does -/

/-- A `FlushToFile` with these answers returns true. -/
def FlushesOk (host : Host δ) (answers : WriteAnswers) : Prop :=
  answers.fflush = true ∧ (host.os = .macos → answers.fsync = true)

instance (host : Host δ) (answers : WriteAnswers) : Decidable (FlushesOk host answers) :=
  inferInstanceAs (Decidable (_ ∧ (_ → _)))

/-- What `FlushToFile` and `Write` do to an open manager: its stream gets some bytes, and it
gets a size. -/
structure Gained (fm : FileManager) (w : World host) (f : FileStream) (bytes : Text) (size : ℕ)
    (fm' : FileManager) (w' : World host) : Prop where
  manager : ∃ f', fm' = { fm with fileHandle := some f', currentFileSize := size } ∧
    f'.bytes w'.fs = f.bytes w.fs ++ bytes

variable {fm : FileManager} {w : World host} {f : FileStream}

/-- `FlushToFile` keeps the bytes, whether it succeeds or not. -/
theorem gained_of_flushToFile (hf : fm.fileHandle = some f) (answers : WriteAnswers) :
    Gained fm w f [] fm.currentFileSize (fm.flushToFile w answers).2.1
        (fm.flushToFile w answers).2.2 ∧
      ((fm.flushToFile w answers).1 = true ↔ FlushesOk host answers) := by
  unfold FlushesOk flushToFile
  split
  · next hnone => exact absurd (hnone.symm.trans hf) (Option.some_ne_none f).symm
  · next g hg =>
    obtain rfl : f = g := Option.some.inj (hf.symm.trans hg)
    split
    · next hflush =>
      refine ⟨⟨_, rfl, (FileStream.bytes_fflush f w.fs).trans (List.append_nil _).symm⟩, ?_⟩
      cases host.os <;> simp [hflush]
    · next hflush =>
      exact ⟨⟨f, by rw [← hf], (List.append_nil _).symm⟩, by simp [hflush]⟩

/-- **What `Write` does**, whatever the system answers: the bytes that `fwrite` accepts are
appended, and counted when they are all. -/
theorem gained_of_write (hf : fm.fileHandle = some f) (data : Text) (answers : WriteAnswers) :
    Gained fm w f (data.take (min answers.accepted data.length))
        (if min answers.accepted data.length = data.length then fm.sizeAfter data
          else fm.currentFileSize)
        (fm.write w data answers).2.1 (fm.write w data answers).2.2 ∧
      ((fm.write w data answers).1 = true ↔ min answers.accepted data.length = data.length ∧
        (fm.sizeAfter data % (1024 * 1024) = 0 → FlushesOk host answers)) := by
  have hbytes := f.bytes_fwrite w.fs (data.take (min answers.accepted data.length)) answers.pushed
  by_cases hfull : min answers.accepted data.length = data.length
  · rw [if_pos hfull]
    rw [hfull, List.take_length] at hbytes ⊢
    by_cases hflush : wrap (fm.currentFileSize + data.length) % (1024 * 1024) = 0
    · have hwrite : fm.write w data answers = flushToFile
          { fm with
            fileHandle := some (f.fwrite w.fs data answers.pushed).1
            currentFileSize := fm.sizeAfter data }
          (withFiles w (f.fwrite w.fs data answers.pushed).2) answers := by
        simp only [FileManager.write, hf, hfull, List.take_length, ne_eq, not_true_eq_false,
          if_false, shouldFlushToFile, hflush, decide_true, if_true]
        rfl
      have hstream : FileManager.fileHandle { fm with
          fileHandle := some (f.fwrite w.fs data answers.pushed).1
          currentFileSize := fm.sizeAfter data } = some (f.fwrite w.fs data answers.pushed).1 := rfl
      obtain ⟨⟨f', hfm, hsame⟩, hok⟩ := gained_of_flushToFile
        (w := withFiles w (f.fwrite w.fs data answers.pushed).2) hstream answers
      rw [hwrite]
      refine ⟨⟨f', hfm, ?_⟩, hok.trans ⟨fun h => ⟨rfl, fun _ => h⟩, fun h => h.2 hflush⟩⟩
      rw [hsame, List.append_nil]
      exact hbytes
    · have hwrite : fm.write w data answers = (true,
          { fm with
            fileHandle := some (f.fwrite w.fs data answers.pushed).1
            currentFileSize := fm.sizeAfter data },
          withFiles w (f.fwrite w.fs data answers.pushed).2) := by
        simp only [FileManager.write, hf, hfull, List.take_length, ne_eq, not_true_eq_false,
          if_false, shouldFlushToFile, hflush, decide_false, Bool.false_eq_true]
        rfl
      rw [hwrite]
      exact ⟨⟨_, rfl, hbytes⟩, iff_of_true rfl ⟨rfl, fun h => absurd h hflush⟩⟩
  · have hwrite : fm.write w data answers = (false,
        fm.withHandle (some (f.fwrite w.fs (data.take (min answers.accepted data.length))
          answers.pushed).1),
        withFiles w (f.fwrite w.fs (data.take (min answers.accepted data.length))
          answers.pushed).2) := by
      simp only [FileManager.write, hf, ne_eq, hfull, not_false_eq_true, if_true]
      rfl
    rw [hwrite, if_neg hfull]
    exact ⟨⟨_, rfl, hbytes⟩, iff_of_false Bool.false_ne_true fun h => hfull h.1⟩

end FileManager

namespace Journal

variable {δ : Type*} [DecidableEq δ] {host : Host δ}

/-- How much of the data the next `fwrite` accepts. -/
def accepted (io : Io) (j : Journal host) (data : Text) : ℕ :=
  min (io.write j.calls.length data).accepted data.length

/-- A write of the data that is not short calls `FlushToFile`. -/
def Flushes (j : Journal host) (data : Text) : Prop :=
  j.fm.sizeAfter data % (1024 * 1024) = 0

instance (j : Journal host) (data : Text) : Decidable (j.Flushes data) :=
  inferInstanceAs (Decidable (_ = _))

/-- Calls of `Write` one after another. -/
def writes (io : Io) (j : Journal host) (datas : List Text) : Journal host :=
  datas.foldl (fun j data => (j.write io data).2) j

/-- Something is true of every one of these calls, in the state before it. -/
def Each (P : Journal host → Text → Prop) (io : Io) : Journal host → List Text → Prop
  | _, [] => True
  | j, data :: datas => P j data ∧ Each P io (j.write io data).2 datas

variable {io : Io} {j j' : Journal host} {f : FileStream} {data : Text} {datas : List Text}

/-- The current file got `n` bytes of the data, and the size counts them when they are all. -/
structure WroteSome (j : Journal host) (data : Text) (n : ℕ) (j' : Journal host) : Prop where
  isOpen : ∃ f', j'.fm.fileHandle = some f'
  contents : j'.contents = j.contents ++ data.take n
  size : j'.fm.currentFileSize =
    if n = data.length then j.fm.sizeAfter data else j.fm.currentFileSize
  calls : j'.calls.length = j.calls.length + 1

/-- **What a write does**, whatever the system answers. -/
theorem wrote_of_write (hopen : j.fm.fileHandle = some f) (io : Io) (data : Text) :
    WroteSome j data (j.accepted io data) (j.write io data).2 ∧
      ((j.write io data).1 = true ↔ j.accepted io data = data.length ∧
        (j.Flushes data → FlushesOk host (io.write j.calls.length data))) := by
  obtain ⟨⟨f', hfm, hbytes⟩, hok⟩ :=
    gained_of_write (w := j.world) hopen data (io.write j.calls.length data)
  have hopen' : (j.write io data).2.fm.fileHandle = some f' := by
    show (j.fm.write j.world data _).2.1.fileHandle = _
    rw [hfm]
  refine ⟨⟨⟨f', hopen'⟩, ?_, ?_, by simp [Journal.write]⟩, hok⟩
  · simp only [contents, hopen, hopen']
    exact hbytes
  · show (j.fm.write j.world data _).2.1.currentFileSize = _
    rw [hfm]
    rfl

/-- What is true of a call just when something else is, is true of every call just then. -/
theorem each_congr {P Q : Journal host → Text → Prop}
    (hstep : ∀ j f data, j.fm.fileHandle = some f → (P j data ↔ Q j data))
    (hopen : j.fm.fileHandle = some f) (datas : List Text) :
    Each P io j datas ↔ Each Q io j datas := by
  induction datas generalizing j f with
  | nil => exact Iff.rfl
  | cons data datas ih =>
    obtain ⟨f', hopen'⟩ := (wrote_of_write hopen io data).1.isOpen
    exact and_congr (hstep j f data hopen) (ih hopen')

/-! ### All or nothing -/

/-- **A write as its callers see it**: it returns true just when all of the data was
appended, and it has changed nothing when it returns false. -/
structure AllOrNothing (io : Io) (j : Journal host) (data : Text) : Prop where
  all : (j.write io data).1 = true ↔ (j.write io data).2.contents = j.contents ++ data
  nothing : (j.write io data).1 = false → (j.write io data).2.contents = j.contents ∧
    (j.write io data).2.fm.currentFileSize = j.fm.currentFileSize

/-- What the system has to answer: `fwrite` accepts all of the data and no flush after it
fails, or `fwrite` accepts none of it. -/
def Granted (io : Io) (j : Journal host) (data : Text) : Prop :=
  (j.accepted io data = data.length ∧
      (j.Flushes data → FlushesOk host (io.write j.calls.length data))) ∨
    (j.accepted io data = 0 ∧ data ≠ [])

instance (io : Io) (j : Journal host) (data : Text) : Decidable (Granted io j data) :=
  inferInstanceAs (Decidable ((_ ∧ (_ → _)) ∨ _))

/-- What is in the file of a journal, and in its stream, after writes from the journal
`first`: what was there, and what text mode made of the rest. -/
def contentsSince (first j : Journal host) : Text := host.onDisk first.contents j.contents

/-- **The size is the length** of the file with what its stream holds back. -/
def SizeExact (first j : Journal host) : Prop :=
  j.fm.currentFileSize = (contentsSince first j).length

instance (first j : Journal host) : Decidable (SizeExact first j) :=
  inferInstanceAs (Decidable (_ = _))

/-- What is there at first is as it is. -/
theorem sizeExact_self : SizeExact j j ↔ j.fm.currentFileSize = j.contents.length := by
  rw [SizeExact, contentsSince, Host.onDisk_self]

theorem allOrNothing_iff_granted (hopen : j.fm.fileHandle = some f) :
    AllOrNothing io j data ↔ Granted io j data := by
  obtain ⟨hwrote, hok⟩ := wrote_of_write hopen io data
  constructor
  · rintro ⟨hall, hnothing⟩
    cases hreturn : (j.write io data).1 with
    | true => exact Or.inl (hok.mp hreturn)
    | false =>
      -- nothing was appended, so `fwrite` accepted nothing
      have hsame := (hnothing hreturn).1
      rw [hwrote.contents, List.append_right_eq_self, List.take_eq_nil_iff] at hsame
      have hne : data ≠ [] := by
        rintro rfl
        refine absurd (hall.mpr ?_) (by rw [hreturn]; exact Bool.false_ne_true)
        rw [hwrote.contents, List.take_nil]
      exact Or.inr ⟨hsame.resolve_right hne, hne⟩
  · rintro (hgranted | ⟨hzero, hne⟩)
    · have hreturn := hok.mpr hgranted
      refine ⟨iff_of_true hreturn ?_, fun h => ?_⟩
      · rw [hwrote.contents, hgranted.1, List.take_length]
      · rw [hreturn] at h
        contradiction
    · have hlength : 0 ≠ data.length := fun h => hne (List.length_eq_zero_iff.mp h.symm)
      have hcontents := hwrote.contents
      have hsize := hwrote.size
      rw [hzero, if_neg hlength] at hsize
      rw [hzero, List.take_zero, List.append_nil] at hcontents
      refine ⟨iff_of_false (fun h => ?_) fun h => ?_, fun _ => ⟨hcontents, hsize⟩⟩
      · exact hlength (hzero ▸ (hok.mp h).1)
      · rw [hcontents, List.self_eq_append_right] at h
        exact hne h

/-- What `fwrite` accepts in all, from the `n`-th write on. -/
def taken (io : Io) : ℕ → List Text → Text
  | _, [] => []
  | n, data :: datas =>
    data.take (min (io.write n data).accepted data.length) ++ taken io (n + 1) datas

/-- What the size and the contents are after writes that were granted. -/
theorem writes_of_granted (hopen : j.fm.fileHandle = some f)
    (hsize : j.fm.currentFileSize < sizeModulus) (h : Each (Granted io) io j datas) :
    (j.writes io datas).fm.currentFileSize =
        wrap (j.fm.currentFileSize + (taken io j.calls.length datas).length) ∧
      (j.writes io datas).contents = j.contents ++ taken io j.calls.length datas := by
  induction datas generalizing j f with
  | nil => exact ⟨(wrap_of_lt hsize).symm, (List.append_nil _).symm⟩
  | cons data datas ih =>
    obtain ⟨hgranted, hrest⟩ := h
    obtain ⟨hwrote, -⟩ := wrote_of_write hopen io data
    obtain ⟨f', hopen'⟩ := hwrote.isOpen
    have haccepted : (data.take (j.accepted io data)).length = j.accepted io data :=
      List.length_take_of_le (Nat.min_le_right _ _)
    have hcounted : (j.write io data).2.fm.currentFileSize =
        wrap (j.fm.currentFileSize + j.accepted io data) := by
      rw [hwrote.size]
      rcases hgranted with ⟨hfull, -⟩ | ⟨hzero, hne⟩
      · rw [if_pos hfull, hfull]
        rfl
      · have hlength : 0 ≠ data.length := fun h => hne (List.length_eq_zero_iff.mp h.symm)
        rw [hzero, if_neg hlength, Nat.add_zero, wrap_of_lt hsize]
    obtain ⟨hs, hc⟩ := ih hopen' (hcounted ▸ wrap_lt _) hrest
    rw [hcounted, hwrote.calls] at hs
    rw [hwrote.contents, hwrote.calls, List.append_assoc] at hc
    refine ⟨hs.trans ?_, hc⟩
    have htaken : (taken io j.calls.length (data :: datas)).length =
        j.accepted io data + (taken io (j.calls.length + 1) datas).length := by
      rw [taken, List.length_append]
      exact congrArg (· + _) haccepted
    rw [htaken, ← Nat.add_assoc]
    unfold wrap
    rw [Nat.mod_add_mod]

/-- `NeedsRotation` compares the length of the file, where the size is exact. -/
theorem SizeExact.needsRotation {first : Journal host} (h : SizeExact first j) :
    j.fm.needsRotation = decide (j.fm.maxSize ≤ (contentsSince first j).length) := by
  rw [FileManager.needsRotation, h]

/-- `Initialize` reads the size from the file. -/
theorem Started.sizeExact {old : Text} (h : Started j f old) : SizeExact j j := by
  rw [sizeExact_self, h.size, h.isOpen.contents_eq, h.bytes]

/-- The manager of `/logs/app` on an empty machine, before any write. -/
def app : Journal Host.posix := ⟨appOpened.2.1, appOpened.2.2, []⟩

theorem app_started : ∃ f, Started app f [] :=
  (started_of_initializeAs rfl appOpened_eq content_appOpened).1

/-- Every `fwrite` accepts three bytes. -/
def threeBytes : Io where
  write _ _ := ⟨3, 0, true, true⟩
  rotate _ := ⟨true, fun _ => true, true⟩

/-- The manager of `C:\app` on an empty machine, before any write. -/
def winApp : Journal Host.windows :=
  let opened := (configured "C:\\app".toList 10 3).initializeAs (.empty Host.windows)
    "C:\\".toList 7 ⟨true, true, true⟩
  ⟨opened.2.1, opened.2.2, []⟩

/-- The bytes written since the last flush, after one more write: `unflushed` before it. -/
def unflushedAfter (j : Journal host) (unflushed : ℕ) (data : Text) : ℕ :=
  if j.Flushes data then 0 else unflushed + data.length

/-- A write makes the size reach or pass a multiple of a mebibyte. -/
def Crosses (size length : ℕ) : Prop := size / (1024 * 1024) < (size + length) / (1024 * 1024)

instance (size length : ℕ) : Decidable (Crosses size length) :=
  inferInstanceAs (Decidable (_ < _))

/-- A write is flushed in time: no more than a mebibyte waits beside it, and it is flushed
when it makes the size reach or pass a multiple. -/
structure InTime (j : Journal host) (unflushed : ℕ) (data : Text) : Prop where
  bounded : j.unflushedAfter unflushed data ≤ 1024 * 1024 + data.length
  flushes : Crosses j.fm.currentFileSize data.length → j.Flushes data

/-- **Writes are flushed in time**, one after another. -/
def FlushesInTime (io : Io) : Journal host → ℕ → List Text → Prop
  | _, _, [] => True
  | j, unflushed, data :: datas => InTime j unflushed data ∧
      FlushesInTime io (j.write io data).2 (j.unflushedAfter unflushed data) datas

/-- **No write steps over a multiple** of a mebibyte: those that reach one end there. -/
def Lands : ℕ → List ℕ → Prop
  | _, [] => True
  | size, length :: lengths =>
    (Crosses size length → (size + length) % (1024 * 1024) = 0) ∧ Lands (size + length) lengths

/-- A write reaches a multiple from the distance that the last multiple leaves. -/
theorem crosses_iff {size length : ℕ} :
    Crosses size length ↔ 1024 * 1024 ≤ size % (1024 * 1024) + length := by
  unfold Crosses
  omega

/-- Only the distance from the last multiple matters. -/
theorem lands_congr {s t : ℕ} (h : s % (1024 * 1024) = t % (1024 * 1024)) (lengths : List ℕ) :
    Lands s lengths ↔ Lands t lengths := by
  induction lengths generalizing s t with
  | nil => exact Iff.rfl
  | cons length lengths ih =>
    have hsum : (s + length) % (1024 * 1024) = (t + length) % (1024 * 1024) := by omega
    unfold Lands
    rw [crosses_iff, crosses_iff, h, hsum, ih hsum]

/-- The size may wrap around: what is left of it is as far from a multiple. -/
theorem flushes_iff : j.Flushes data ↔
    (j.fm.currentFileSize + data.length) % (1024 * 1024) = 0 := by
  unfold Flushes FileManager.sizeAfter
  rw [wrap_mod_of_dvd (by decide)]

/-- While no more waits than was written since the last multiple, the bound holds. -/
theorem inTime_iff {unflushed : ℕ} (h : unflushed ≤ j.fm.currentFileSize % (1024 * 1024)) :
    InTime j unflushed data ↔ (Crosses j.fm.currentFileSize data.length →
      (j.fm.currentFileSize + data.length) % (1024 * 1024) = 0) := by
  refine ⟨fun hin hcross => flushes_iff.mp (hin.flushes hcross),
    fun hlands => ⟨?_, fun hcross => flushes_iff.mpr (hlands hcross)⟩⟩
  unfold unflushedAfter
  split <;> omega

/-- A write that steps over no multiple leaves no more than was written since the last. -/
theorem unflushedAfter_le {unflushed : ℕ} (h : unflushed ≤ j.fm.currentFileSize % (1024 * 1024))
    (hlands : Crosses j.fm.currentFileSize data.length →
      (j.fm.currentFileSize + data.length) % (1024 * 1024) = 0) :
    j.unflushedAfter unflushed data ≤ (j.fm.currentFileSize + data.length) % (1024 * 1024) := by
  unfold unflushedAfter
  split
  · exact Nat.zero_le _
  · next hflush =>
    rw [flushes_iff] at hflush
    have hbelow := mt hlands hflush
    rw [crosses_iff] at hbelow
    omega

theorem flushesInTime_iff_of_le {unflushed : ℕ} (hopen : j.fm.fileHandle = some f)
    (hok : Each (fun j data => (j.write io data).1 = true) io j datas)
    (h : unflushed ≤ j.fm.currentFileSize % (1024 * 1024)) :
    FlushesInTime io j unflushed datas ↔ Lands j.fm.currentFileSize (datas.map List.length) := by
  induction datas generalizing j f unflushed with
  | nil => exact Iff.rfl
  | cons data datas ih =>
    obtain ⟨hreturned, hrest⟩ := hok
    obtain ⟨hwrote, hiff⟩ := wrote_of_write hopen io data
    obtain ⟨f', hopen'⟩ := hwrote.isOpen
    have hsize : (j.write io data).2.fm.currentFileSize % (1024 * 1024) =
        (j.fm.currentFileSize + data.length) % (1024 * 1024) := by
      rw [hwrote.size, if_pos (hiff.mp hreturned).1, FileManager.sizeAfter,
        wrap_mod_of_dvd (by decide)]
    unfold FlushesInTime
    rw [inTime_iff h, List.map_cons, Lands]
    refine and_congr_right fun hlands => ?_
    rw [ih hopen' hrest (hsize ▸ unflushedAfter_le h hlands)]
    exact lands_congr hsize _

/-- **When the flushes are in time**: when no write steps over a multiple of a mebibyte. -/
theorem flushesInTime_iff (hopen : j.fm.fileHandle = some f)
    (hok : Each (fun j data => (j.write io data).1 = true) io j datas) :
    FlushesInTime io j 0 datas ↔ Lands j.fm.currentFileSize (datas.map List.length) :=
  flushesInTime_iff_of_le hopen hok (Nat.zero_le _)

theorem flushesInTime_iff_app :
    FlushesInTime (.pushing fun _ => 0) app 0 ["up\n".toList, "down\n".toList] := by
  obtain ⟨f, hstarted⟩ := app_started
  have hok : Each (fun j data => (j.write (.pushing fun _ => 0) data).1 = true)
      (.pushing fun _ => 0) app ["up\n".toList, "down\n".toList] :=
    ⟨by decide +kernel, by decide +kernel, trivial⟩
  refine (flushesInTime_iff hstarted.isOpen.stream hok).mpr ?_
  rw [hstarted.size]
  exact ⟨by decide, by decide, trivial⟩

/-- A text of some length. -/
def ofLength (n : ℕ) : Text := List.replicate n 'x'

/-- **Writes that step over multiples**: of three records no one ends at a multiple, so
nothing is flushed, and more than a mebibyte waits beside the last. -/
theorem not_flushesInTime_over :
    ¬ FlushesInTime (.pushing fun _ => 0) app 0
      [ofLength 1, ofLength (1024 * 1024), ofLength 1] := by
  rintro ⟨-, -, h₃, -⟩
  have hio := Io.pushing_succeeds fun _ => 0
  obtain ⟨f, hstarted⟩ := app_started
  obtain ⟨j₁, f₁, heq₁, hwrote₁⟩ := hstarted.isOpen.write hio (ofLength 1)
  obtain ⟨j₂, f₂, heq₂, hwrote₂⟩ := hwrote₁.isOpen.write hio (ofLength (1024 * 1024))
  rw [heq₁] at h₃
  dsimp only at h₃
  rw [heq₂] at h₃
  have hsize₁ : j₁.fm.currentFileSize = 1 := by
    rw [hwrote₁.manager, FileManager.sizeAfter, hstarted.size, ofLength, List.length_replicate]
    exact wrap_of_lt (by decide)
  have hsize₂ : j₂.fm.currentFileSize = 1024 * 1024 + 1 := by
    rw [hwrote₂.manager, FileManager.sizeAfter, hsize₁, ofLength, List.length_replicate]
    exact wrap_of_lt (by decide)
  have hno₁ : ¬ app.Flushes (ofLength 1) := by
    rw [flushes_iff, hstarted.size, ofLength, List.length_replicate]
    decide
  have hno₂ : ¬ j₁.Flushes (ofLength (1024 * 1024)) := by
    rw [flushes_iff, hsize₁, ofLength, List.length_replicate]
    decide
  have hno₃ : ¬ j₂.Flushes (ofLength 1) := by
    rw [flushes_iff, hsize₂, ofLength, List.length_replicate]
    decide
  -- `1 + 1048576 + 1` bytes wait, and the last write has one of them
  have hbounded := h₃.bounded
  simp only [unflushedAfter, if_neg hno₁, if_neg hno₂, if_neg hno₃] at hbounded
  simp only [ofLength, List.length_replicate] at hbounded
  omega

end Journal
end SpeckitLog
