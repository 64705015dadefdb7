import SpeckitLog.AsyncLogger.Sequential
import SpeckitLog.CBridge
import Mathlib.Data.List.Flatten

/-!
# The two front ends

The asynchronous logger and the C interface drive the same `FileManager`, each in its
own way.  The C interface asks after every record whether the file is full and never
formats one; the asynchronous logger formats every record and never asks.

## Main definitions

* `WithinLimit` — a record is written only to a file that has room.
* `generations` — the records that go to one file after another.
* `Room` — each of these files is below the limit before the last of them.
* `SameBytes` — both front ends write the same.

## Main results

* `FrontEnds.withinLimit_iff` — when either front end keeps the limit.
* `FrontEnds.sameBytes_iff` — they write the same only when they write nothing.
-/

namespace SpeckitLog
namespace FrontEnds

open FileManager Journal AsyncLogger.Sequential

variable {τ δ : Type*} [DecidableEq δ] {host : Host δ} {platform : Platform τ} {io : Io}
  {first j : Journal host} {f : FileStream} {old : Text} {max : ℕ}

/-! ### The limit -/

/-- **Within the limit**: before a record is written the current file is below the limit,
and no file exceeds the limit by more than a record, unless it did at first; all lengths
are those on disk. -/
structure WithinLimit (max : ℕ) (first j : Journal host) : Prop where
  before : ∀ c ∈ j.calls, ∀ n ∈ c.file, (first.realBytes n c.before).length < max
  length_le : ∀ n < j.world.fs.next,
    (first.realBytes n (j.bytesOf n)).length ≤ (first.base n).length ∨
      ∃ c ∈ j.calls, (first.realBytes n (j.bytesOf n)).length ≤
        max + (host.inTextMode c.data).length

/-- Each call of `Write` has found its file below the limit. -/
def BelowLimit (max : ℕ) (first : Journal host) (calls : List WriteCall) : Prop :=
  ∀ c ∈ calls, ∀ n ∈ c.file, (first.realBytes n c.before).length < max

/-- The lengths follow from the sizes before the writes. -/
theorem withinLimit_iff_before (h : Traced first j) :
    WithinLimit max first j ↔ BelowLimit max first j.calls :=
  ⟨WithinLimit.before, fun hbefore => ⟨hbefore, fun _ hn => h.length_le hbefore hn⟩⟩

/-! ### The asynchronous logger -/

theorem traced_writeEntries (hio : io.Succeeds) (h : Traced first j) (hopen : j.Open f)
    (es : List (Entry τ)) : Traced first (writeEntries platform io es j) := by
  induction es generalizing j f with
  | nil => exact h
  | cons e es ih =>
    obtain ⟨j', f', heq, hwrote⟩ := hopen.write hio (record platform e)
    rw [writeEntries_cons, heq]
    exact ih (h.write hopen hwrote) hwrote.isOpen

omit [DecidableEq δ] in
/-- Fewer records are shorter, in text mode too. -/
theorem length_records_le (host : Host δ) (platform : Platform τ) {es es' : List (Entry τ)}
    (h : es <+: es') : (host.inTextMode (records platform es)).length ≤
      (host.inTextMode (records platform es')).length := by
  obtain ⟨rest, rfl⟩ := h
  rw [records, records, List.map_append, List.flatten_append, Host.inTextMode_append,
    List.length_append]
  exact Nat.le_add_right _ _

/-- The current file of a manager that has just been initialized. -/
theorem base_of_started (h : Started j f old) : j.base f.file = old := by
  rw [base, if_pos h.isOpen.file_lt, h.isOpen.bytesOf_eq, if_pos rfl, h.bytes]

/-- The last record of a list finds all the others in the file. -/
theorem before_writeEntries (hio : io.Succeeds) (h : Started j f old) (es : List (Entry τ)) :
    BelowLimit max j (writeEntries platform io es j).calls ↔
      es = [] ∨ (old ++ host.inTextMode (records platform es.dropLast)).length < max := by
  -- the k-th write finds the old bytes and the first k records
  obtain ⟨f', hgrown, hdata, -, hsame⟩ := grown_writeEntries platform hio h.grown es
  rw [h.calls, List.map_nil, List.nil_append] at hdata
  have hlength : (writeEntries platform io es j).calls.length = es.length := by
    rw [← List.length_map WriteCall.data, hdata, List.length_map]
  have hbefore : ∀ k c, (writeEntries platform io es j).calls[k]? = some c →
      c.file = some f.file ∧ (j.realBytes f.file c.before).length =
        old.length + (host.inTextMode (records platform (es.take k))).length := by
    intro k c hc
    obtain ⟨hfile, hbytes⟩ := hgrown.before k c hc
    rw [List.map_take, hdata, ← List.map_take] at hbytes
    refine ⟨hsame ▸ hfile, ?_⟩
    rw [hbytes, realBytes, base_of_started h, Host.onDisk, List.drop_left, List.length_append]
    rfl
  constructor
  · intro hall
    by_cases hes : es = []
    · exact Or.inl hes
    -- the last write finds the most
    have hpos := List.length_pos_of_ne_nil hes
    have hlast := List.getElem?_eq_getElem (l := (writeEntries platform io es j).calls)
      (i := es.length - 1) (by omega)
    obtain ⟨hfile, hreal⟩ := hbefore _ _ hlast
    have hlt := hall _ (List.mem_of_getElem? hlast) _ hfile
    rw [hreal, ← List.dropLast_eq_take] at hlt
    exact Or.inr (by rwa [List.length_append])
  -- every write comes no later than the last
  · rintro (rfl | hroom) c hc n hn
    · rw [show writeEntries platform io [] j = j from rfl, h.calls] at hc
      exact absurd hc List.not_mem_nil
    · obtain ⟨k, hk⟩ := List.getElem?_of_mem hc
      have hlt := (List.getElem?_eq_some_iff.mp hk).1
      obtain ⟨hfile, hreal⟩ := hbefore k c hk
      obtain rfl : f.file = n := Option.some.inj (hfile.symm.trans hn)
      have hprefix : es.take k <+: es.dropLast := by
        rw [List.dropLast_eq_take]
        exact List.take_prefix_take_left (by omega)
      have hle := length_records_le host platform hprefix
      rw [List.length_append] at hroom
      rw [hreal]
      exact lt_of_le_of_lt (Nat.add_le_add_left hle _) hroom

/-! ### The C interface -/

/-- What the calls write: the messages that pass, each with its end of line. -/
def passed (filter : TagFilter) (calls : List CBridge.Call) : List Text :=
  calls.filterMap fun
    | .log level tag message =>
      if CBridge.Passes filter level tag then some (message ++ ['\n']) else none
    | .setLogLevel _ => none

section Passed

variable {filter : TagFilter} {level : ℤ} {tag : Option Text} {message : Text}

theorem passed_of_passes (h : CBridge.Passes filter level tag) (calls : List CBridge.Call) :
    passed filter (.log level tag message :: calls) =
      (message ++ ['\n']) :: passed filter calls := by
  simp [passed, h]

theorem passed_of_not_passes (h : ¬ CBridge.Passes filter level tag)
    (calls : List CBridge.Call) :
    passed filter (.log level tag message :: calls) = passed filter calls := by
  simp [passed, h]

end Passed

/-- The records that go to one file after another: the first counts `size` bytes, the others
none, and the next file comes when the counter has reached the limit. -/
def generations (max : ℕ) : ℕ → List Text → List (List Text)
  | _, [] => [[]]
  | size, r :: rs =>
    if max ≤ size + r.length then [r] :: generations max 0 rs
    else match generations max (size + r.length) rs with
      | [] => [[r]]
      | g :: gs => (r :: g) :: gs

/-- **There is room** for the generations in files that start with the bytes of the list, or
with none: each file is below the limit before the last record that it gets. -/
def Room (host : Host δ) (max : ℕ) : List Text → List (List Text) → Prop
  | _, [] => True
  | starts, g :: gs =>
    (g ≠ [] → (starts.headD [] ++ host.inTextMode g.dropLast.flatten).length < max) ∧
      Room host max starts.tail gs

instance decidableRoom :
    (starts : List Text) → (gs : List (List Text)) → Decidable (Room host max starts gs)
  | _, [] => .isTrue trivial
  | starts, _ :: gs =>
    have := decidableRoom starts.tail gs
    inferInstanceAs (Decidable (_ ∧ _))

/-- The current file has `length` bytes, of which `size` are counted; the next ones start
with the bytes of the list. -/
def Fits (host : Host δ) (max : ℕ) : ℕ → List Text → ℕ → List Text → Prop
  | _, _, _, [] => True
  | length, starts, size, r :: rs => length < max ∧
      if max ≤ size + r.length then Fits host max (starts.headD []).length starts.tail 0 rs
      else Fits host max (length + (host.inTextMode r).length) starts (size + r.length) rs

theorem generations_ne_nil (size : ℕ) (rs : List Text) : generations max size rs ≠ [] := by
  cases rs with
  | nil => exact List.cons_ne_nil _ _
  | cons r rs =>
    rw [generations]
    split
    · exact List.cons_ne_nil _ _
    · split <;> exact List.cons_ne_nil _ _

omit [DecidableEq δ] in
/-- A file that is not in the list starts with no bytes. -/
theorem room_headD (starts : List Text) (gs : List (List Text)) :
    Room host max (starts.headD [] :: starts.tail) gs ↔ Room host max starts gs := by
  cases gs <;> rfl

omit [DecidableEq δ] in
/-- **Records fit just where there is room** for their generations. -/
theorem fits_iff_room (start : Text) (starts : List Text) (size : ℕ) (rs : List Text) :
    Fits host max start.length starts size rs ↔
      Room host max (start :: starts) (generations max size rs) := by
  induction rs generalizing start starts size with
  | nil => exact iff_of_true trivial ⟨fun h => absurd rfl h, trivial⟩
  | cons r rs ih =>
    rw [Fits, generations]
    split
    · -- the first generation is this record alone
      rw [Room, ih, List.tail_cons, room_headD]
      refine and_congr_left fun _ => ?_
      simp
    · have hih := ih (start ++ host.inTextMode r) starts (size + r.length)
      rw [List.length_append] at hih
      rw [hih]
      have hne : generations max (size + r.length) rs ≠ [] := generations_ne_nil _ _
      obtain ⟨g, gs, hg⟩ := List.exists_cons_of_ne_nil hne
      rw [hg, Room, Room, ← and_assoc]
      refine and_congr_left fun _ => ?_
      cases g with
      | nil => simp
      | cons r' g =>
        rw [List.dropLast_cons_of_ne_nil (List.cons_ne_nil _ _), List.flatten_cons,
          Host.inTextMode_append]
        simp only [List.headD_cons, ← List.append_assoc, ne_eq, reduceCtorEq,
          not_false_eq_true, forall_const, List.length_append]
        omega

/-- The current file with its counter: it has `length` bytes on disk, and the next rotation
finds a file as it was at first. -/
structure Counted (max : ℕ) (first : Journal host) (length : ℕ) (next : Text)
    (j : Journal host) (f : FileStream) : Prop where
  isOpen : j.Open f
  traced : Traced first j
  maxSize : j.fm.maxSize = max
  length_eq : (first.realBytes f.file (f.bytes j.world.fs)).length = length
  size_le : j.fm.currentFileSize ≤ length
  found : j.found = next
  base : first.base j.nextFile = next

variable {length pushed : ℕ} {next : Text} {j' : Journal host} {f' : FileStream} {data : Text}

/-- A manager that has just been initialized counts the bytes of its file. -/
theorem counted_of_started (h : Started first f old) (hmax : first.fm.maxSize = max) :
    Counted max first old.length first.found first f where
  isOpen := h.isOpen
  traced := traced_self
  maxSize := hmax
  length_eq := by
    have hreal := first.realBytes_base f.file
    rw [base_of_started h] at hreal
    rw [h.bytes, hreal]
  size_le := h.size.le
  found := rfl
  base := first.base_nextFile h.isOpen

/-- A write below the limit is counted exactly: the counter does not wrap around. -/
theorem Counted.write (h : Counted max first length next j f) (hlt : j.fm.currentFileSize < max)
    (hmemory : max + data.length ≤ sizeModulus) (hwrote : Wrote j f data pushed j' f') :
    Counted max first (length + (host.inTextMode data).length) next j' f' ∧
      j'.fm.currentFileSize = j.fm.currentFileSize + data.length := by
  have hsize : j'.fm.currentFileSize = j.fm.currentFileSize + data.length := by
    rw [hwrote.manager]
    exact wrap_of_lt (by omega)
  have hgrown := h.traced.grown f.file h.isOpen.file_lt
  rw [h.isOpen.bytesOf_eq, if_pos rfl] at hgrown
  refine ⟨⟨hwrote.isOpen, h.traced.write h.isOpen hwrote, ?_, ?_, ?_, ?_, ?_⟩, hsize⟩
  · rw [hwrote.manager]
    exact h.maxSize
  · rw [hwrote.file, hwrote.bytes, realBytes_append hgrown, List.length_append, h.length_eq]
  · -- text mode makes the file longer than the counter says, never shorter
    have hle := h.size_le
    rw [hsize, Host.length_inTextMode]
    omega
  · rw [hwrote.found h.isOpen]
    exact h.found
  · rw [hwrote.nextFile]
    exact h.base

/-- The file that a rotation opens has what was found there, and the next one is new. -/
theorem Counted.rotate (h : Counted max first length next j f) (hrot : Rotated j f j' f') :
    Counted max first next.length [] j' f' ∧ j'.fm.currentFileSize = 0 := by
  have hname : j'.fm.currentFileName = j'.fm.generateFileName true := by
    rw [hrot.manager]
    rfl
  have htraced := h.traced.rotate h.isOpen hrot
  have hzero : j'.fm.currentFileSize = 0 := by rw [hrot.manager]
  refine ⟨⟨hrot.isOpen, htraced, ?_, ?_, hzero ▸ Nat.zero_le _, ?_, ?_⟩, hzero⟩
  · rw [hrot.manager]
    exact h.maxSize
  · have hbase : first.base f'.file = next := by rw [hrot.file, h.base]
    have hreal := first.realBytes_base f'.file
    rw [hbase] at hreal
    rw [hrot.opened, h.found, hreal]
  · rw [Journal.found, if_pos (by rw [hname])]
  · rw [Journal.nextFile, if_pos (by rw [hname]), Journal.base,
      if_neg (Nat.not_lt.mpr htraced.next_le)]

/-- A call that passes below the limit: the file is counted on, or it has reached the limit
and the next one is counted. -/
theorem Counted.logged (h : Counted max first length next j f) (hlt : j.fm.currentFileSize < max)
    (hmemory : max + data.length ≤ sizeModulus) (hlogged : CBridge.Logged j f data j' f') :
    if max ≤ j.fm.currentFileSize + data.length then
      Counted max first next.length [] j' f' ∧ j'.fm.currentFileSize = 0
    else Counted max first (length + (host.inTextMode data).length) next j' f' ∧
      j'.fm.currentFileSize = j.fm.currentFileSize + data.length := by
  cases hlogged with
  | kept hwrote hfree =>
    obtain ⟨hcounted, hsize⟩ := h.write hlt hmemory hwrote
    rw [needsRotation, hcounted.maxSize, hsize] at hfree
    rw [if_neg (of_decide_eq_false hfree)]
    exact ⟨hcounted, hsize⟩
  | rotated hwrote hfull hrot =>
    obtain ⟨hcounted, hsize⟩ := h.write hlt hmemory hwrote
    rw [needsRotation, hcounted.maxSize, hsize] at hfull
    rw [if_pos (of_decide_eq_true hfull)]
    exact hcounted.rotate hrot

/-- What was written stays in the history. -/
theorem mem_calls_run {filter : TagFilter} {cwd : Text} {logger : SpeckitLogger host}
    {c : WriteCall} (hready : CBridge.Ready filter logger) (hio : io.Succeeds)
    (hc : c ∈ logger.journal.calls) (calls : List CBridge.Call) :
    c ∈ (CBridge.run io cwd logger calls).journal.calls := by
  refine CBridge.run_induction (P := fun j => c ∈ j.calls) (fun hmem _ hwrote => ?_)
    (fun hmem _ hrot => ?_) hready hio hc calls
  · rw [hwrote.calls]
    exact List.mem_append_left _ hmem
  · rw [hrot.calls]
    exact hmem

/-- **What a run of the C interface finds before its writes.** -/
theorem before_run {filter : TagFilter} {cwd : Text} {logger : SpeckitLogger host}
    {calls : List CBridge.Call} {starts : List Text} (hready : CBridge.Ready filter logger)
    (hio : io.Succeeds) (h : Counted max first length (starts.headD []) logger.journal f)
    (hstarts : starts.tail = [])
    (hmemory : ∀ r ∈ passed filter calls, max + r.length ≤ sizeModulus) :
    BelowLimit max first (CBridge.run io cwd logger calls).journal.calls ↔
      BelowLimit max first logger.journal.calls ∧
        Fits host max length starts logger.journal.fm.currentFileSize (passed filter calls) := by
  -- a rotation changes the file, so `length` and `starts` vary along the run
  induction calls generalizing logger f length starts with
  | nil => exact ⟨fun hall => ⟨hall, trivial⟩, And.left⟩
  | cons c calls ih =>
    have hready' := hready.call cwd hio c
    cases c with
    | setLogLevel level => exact ih hready' h hstarts hmemory
    | log level tag message =>
      by_cases hpasses : CBridge.Passes filter level tag
      swap
      · rw [passed_of_not_passes hpasses] at hmemory ⊢
        show BelowLimit max first
          (CBridge.run io cwd (CBridge.call io cwd logger _) calls).journal.calls ↔ _
        rw [CBridge.call_of_not_passes (by rw [hready.tagFilter]; exact hpasses)]
        exact ih hready h hstarts hmemory
      rw [passed_of_passes hpasses] at hmemory ⊢
      obtain ⟨j', f', heq, hlogged⟩ := CBridge.call_of_passes cwd message h.isOpen
        hready.absolute hio (by rw [hready.tagFilter]; exact hpasses)
      have hrun : CBridge.run io cwd logger (.log level tag message :: calls) =
          CBridge.run io cwd { logger with journal := j' } calls := by
        rw [← heq]
        rfl
      have hcalls := hlogged.calls
      rw [heq] at hready'
      rw [hrun, Fits]
      by_cases hlt : length < max
      swap
      · -- this write alone breaks the limit
        have hmem : ⟨some f.file, f.bytes logger.journal.world.fs, message ++ ['\n']⟩ ∈
            j'.calls := by
          rw [hcalls]
          exact List.mem_append_right _ (List.mem_singleton_self _)
        refine iff_of_false (fun hall => hlt ?_) fun hfits => hlt hfits.2.1
        rw [← h.length_eq]
        exact hall _ (mem_calls_run hready' hio hmem calls) _ rfl
      have hfront : BelowLimit max first j'.calls ↔
          BelowLimit max first logger.journal.calls := by
        unfold BelowLimit
        rw [hcalls, List.forall_mem_append]
        refine and_iff_left fun c hc n hn => ?_
        rw [List.mem_singleton.mp hc] at hn ⊢
        obtain rfl : f.file = n := Option.some.inj hn
        rw [h.length_eq]
        exact hlt
      have hrest : ∀ r ∈ passed filter calls, max + r.length ≤ sizeModulus := fun r hr =>
        hmemory r (List.mem_cons_of_mem _ hr)
      have hnow := h.logged (lt_of_le_of_lt h.size_le hlt) (hmemory _ List.mem_cons_self) hlogged
      rw [and_iff_right hlt, ← hfront]
      -- a full file is rotated at once, and the rest of the run goes on in the next one
      by_cases hfull :
        max ≤ logger.journal.fm.currentFileSize + (message ++ ['\n']).length
      · rw [if_pos hfull] at hnow ⊢
        have hcounted : Counted max first (starts.headD []).length (starts.tail.headD []) j'
            f' := by
          rw [hstarts]
          exact hnow.1
        have hstep := ih hready' hcounted (by rw [hstarts]; rfl) hrest
        rwa [hnow.2] at hstep
      · rw [if_neg hfull] at hnow ⊢
        have hstep := ih hready' hnow.1 hstarts hrest
        rwa [hnow.2] at hstep

/-! ### Both front ends -/

/-- **When the files stay within the limit.**  The asynchronous logger keeps it as long as
all records that have left its buffers, but the last, fit into one file.  The C interface
keeps it when there is room for the generations of its records: in the file that it has, in
the one that the first rotation finds, and then in new ones. -/
theorem withinLimit_iff {fm₀ fm : FileManager} {w₀ w : World host} {cwd : Text} {processId : ℤ}
    {answers : InitAnswers} (hcwd : host.isAbsolute cwd = true) (hnew : fm₀.initialized = false)
    (hinit : fm₀.initializeAs w₀ cwd processId answers = (true, fm, w))
    (hold : w.fs.content (host.locate fm.currentFileName) = some old) (hio : io.Succeeds) :
    (∀ (platform : Platform τ) queueSize minLevel calls,
      WithinLimit fm₀.maxSize ⟨fm, w, []⟩
          (run platform io (start queueSize minLevel fm w) calls).journal ↔
        flushed queueSize minLevel calls = [] ∨ (old ++ host.inTextMode (records platform
          (flushed queueSize minLevel calls).dropLast)).length < fm₀.maxSize) ∧
    ∀ (cwd : Text) (logger : SpeckitLogger host) calls, logger.journal = ⟨fm, w, []⟩ →
      (∀ r ∈ passed logger.tagFilter calls, fm₀.maxSize + r.length ≤ sizeModulus) →
        (WithinLimit fm₀.maxSize ⟨fm, w, []⟩ (CBridge.run io cwd logger calls).journal ↔
          Room host fm₀.maxSize [old, found ⟨fm, w, []⟩]
            (generations fm₀.maxSize old.length (passed logger.tagFilter calls))) := by
  obtain ⟨⟨f, hstarted⟩, hbase, hmax⟩ := started_of_initializeAs hnew hinit hold
  refine ⟨fun platform queueSize minLevel calls => ?_, fun cwd' logger calls hjournal hmemory => ?_⟩
  · rw [journal_run]
    exact (withinLimit_iff_before (traced_writeEntries hio traced_self hstarted.isOpen _)).trans
      (before_writeEntries hio hstarted _)
  · have hready : CBridge.Ready logger.tagFilter logger := by
      refine ⟨⟨f, hjournal ▸ hstarted.isOpen⟩, ?_, rfl⟩
      rw [hjournal]
      exact hbase ▸ isAbsolute_absoluteBase hcwd fm₀.baseName
    have hcounted : Counted fm₀.maxSize ⟨fm, w, []⟩ old.length
        ([found ⟨fm, w, []⟩].headD []) logger.journal f := by
      rw [hjournal]
      exact counted_of_started hstarted hmax
    have htraced : Traced ⟨fm, w, []⟩ (CBridge.run io cwd' logger calls).journal :=
      CBridge.run_induction Traced.write Traced.rotate hready hio (hjournal ▸ traced_self) calls
    rw [withinLimit_iff_before htraced, before_run hready hio hcounted rfl hmemory, hjournal,
      hstarted.size, fits_iff_room]
    exact and_iff_right fun c hc => absurd hc List.not_mem_nil

/-- With a limit of ten bytes, one record of the asynchronous logger is within it, and so
are two of the C interface, but not two of the asynchronous logger. -/
theorem withinLimit_iff_app :
    WithinLimit 10 ⟨appOpened.2.1, appOpened.2.2, []⟩
        (run midnight (.pushing fun _ => 0) (start 4 .debug appOpened.2.1 appOpened.2.2)
          [.log entryUp, .flush]).journal ∧
      ¬ WithinLimit 10 ⟨appOpened.2.1, appOpened.2.2, []⟩
        (run midnight (.pushing fun _ => 0) (start 4 .debug appOpened.2.1 appOpened.2.2)
          [.log entryUp, .log entryUp, .flush]).journal ∧
      WithinLimit 10 ⟨appOpened.2.1, appOpened.2.2, []⟩
        (CBridge.run (.pushing fun _ => 0) ['/']
          ⟨⟨appOpened.2.1, appOpened.2.2, []⟩, .new, .debug, "/logs/app".toList, 7⟩
          [.log 1 none "up".toList, .log 2 none "down and up".toList]).journal := by
  have hnew : (configured "/logs/app".toList 10 3).initialized = false := rfl
  obtain ⟨hasync, hbridge⟩ := withinLimit_iff (τ := ℕ) (by decide) hnew appOpened_eq
    content_appOpened (Io.pushing_succeeds fun _ => 0)
  refine ⟨?_, ?_, ?_⟩
  · exact (hasync midnight 4 .debug [.log entryUp, .flush]).mpr (Or.inr (by decide +kernel))
  · exact (hasync midnight 4 .debug [.log entryUp, .log entryUp, .flush]).not.mpr
      (by decide +kernel)
  · refine (hbridge ['/'] ⟨⟨appOpened.2.1, appOpened.2.2, []⟩, .new, .debug,
      "/logs/app".toList, 7⟩ [.log 1 none "up".toList, .log 2 none "down and up".toList] rfl
      (by decide +kernel)).mpr ?_
    decide +kernel

/-- **The limit is passed**: the second record goes to a file of ten bytes or more. -/
theorem not_withinLimit_two_records :
    ¬ WithinLimit 10 ⟨appOpened.2.1, appOpened.2.2, []⟩
      (run midnight (.pushing fun _ => 0) (start 4 .debug appOpened.2.1 appOpened.2.2)
        [.log entryUp, .log entryUp, .flush]).journal := by
  intro hwithin
  have hbefore : ∃ c ∈ (run midnight (.pushing fun _ => 0)
      (start 4 .debug appOpened.2.1 appOpened.2.2)
      [.log entryUp, .log entryUp, .flush]).journal.calls, c.file = some 0 ∧
        10 ≤ (realBytes ⟨appOpened.2.1, appOpened.2.2, []⟩ 0 c.before).length := by
    decide +kernel
  obtain ⟨c, hc, hfile, hle⟩ := hbefore
  exact absurd (hwithin.before c hc 0 hfile) (Nat.not_lt.mpr hle)

/-! ### The same calls -/

/-- The calls of the C interface for the same levels, tags and messages; a C string ends at
its first NUL. -/
def bridgeCalls (es : List (Entry τ)) : List CBridge.Call :=
  es.map fun e => .log e.level.toInt (some (Text.untilNul e.tag)) (Text.untilNul e.message)

/-- **The same records**: both front ends append the records of the calls. -/
def SameBytes (platform : Platform τ) (es : List (Entry τ)) (bridge async : Journal host) : Prop :=
  bridge.appended = async.appended ∧ async.appended = records platform es

/-- What the C interface appends. -/
theorem appended_run {filter : TagFilter} {cwd : Text} {logger : SpeckitLogger host}
    (hready : CBridge.Ready filter logger) (hio : io.Succeeds) (calls : List CBridge.Call) :
    (CBridge.run io cwd logger calls).journal.appended =
      logger.journal.appended ++ (passed filter calls).flatten := by
  induction calls generalizing logger with
  | nil => exact (List.append_nil _).symm
  | cons c calls ih =>
    refine (ih (hready.call cwd hio c)).trans ?_
    cases c with
    | setLogLevel level => rfl
    | log level tag message =>
      by_cases hpasses : CBridge.Passes filter level tag
      · obtain ⟨f, hopen⟩ := hready.isOpen
        obtain ⟨j', f', heq, hlogged⟩ := CBridge.call_of_passes cwd message hopen hready.absolute
          hio (by rw [hready.tagFilter]; exact hpasses)
        rw [heq, passed_of_passes hpasses, List.flatten_cons, ← List.append_assoc,
          ← hlogged.appended]
      · rw [CBridge.call_of_not_passes (by rw [hready.tagFilter]; exact hpasses),
          passed_of_not_passes hpasses]

/-- What the asynchronous logger appends. -/
theorem appended_run_flush {fm₀ fm : FileManager} {w₀ w : World host} {cwd : Text}
    {processId : ℤ} {answers : InitAnswers} (hnew : fm₀.initialized = false)
    (hinit : fm₀.initializeAs w₀ cwd processId answers = (true, fm, w)) (hio : io.Succeeds)
    (platform : Platform τ) (queueSize : ℕ) (minLevel : LogLevel) (calls : List (Call τ)) :
    (run platform io (start queueSize minLevel fm w) (calls ++ [.flush])).journal.appended =
      records platform (accepted queueSize minLevel calls) := by
  obtain ⟨old, hold⟩ := exists_content_of_initializeAs hnew hinit
  obtain ⟨⟨f, hstarted⟩, -, -⟩ := started_of_initializeAs hnew hinit hold
  obtain ⟨-, -, hdata, -⟩ := grown_writeEntries platform hio hstarted.grown
    (accepted queueSize minLevel calls)
  rw [journal_run_flush, Journal.appended, hdata]
  rfl

/-- A record is longer than its message. -/
theorem length_lt_record (platform : Platform τ) (e : Entry τ) :
    (Text.untilNul e.message ++ ['\n']).length < (record platform e).length := by
  simp only [record, recordOf, List.length_append, List.length_cons]
  omega

theorem length_lt_records (platform : Platform τ) {es : List (Entry τ)} (h : es ≠ []) :
    (es.map fun e => Text.untilNul e.message ++ ['\n']).flatten.length <
      (records platform es).length := by
  induction es with
  | nil => exact absurd rfl h
  | cons e es ih =>
    have hone := length_lt_record platform e
    have hrest : (es.map fun e => Text.untilNul e.message ++ ['\n']).flatten.length ≤
        (records platform es).length := by
      by_cases hes : es = []
      · rw [hes]
        exact Nat.zero_le _
      · exact (ih hes).le
    have hcons : records platform (e :: es) = record platform e ++ records platform es := rfl
    rw [hcons, List.map_cons, List.flatten_cons]
    simp only [List.length_append] at hone ⊢
    omega

/-- A named level passes the default filters. -/
theorem passed_bridgeCalls {es : List (Entry τ)}
    (hlevels : ∀ e ∈ es, e.level ∈ [LogLevel.debug, .info, .warning, .error]) :
    passed .new (bridgeCalls es) = es.map fun e => Text.untilNul e.message ++ ['\n'] := by
  have hpasses : ∀ level ∈ [LogLevel.debug, .info, .warning, .error], ∀ tag,
      CBridge.Passes .new level.toInt tag := by
    intro level hlevel tag
    refine ⟨rfl, ?_⟩
    show LogLevel.debug.toInt ≤ (LogLevel.ofInt level.toInt).toInt
    revert level
    decide
  induction es with
  | nil => rfl
  | cons e es ih =>
    rw [bridgeCalls, List.map_cons, passed_of_passes (hpasses _ (hlevels e List.mem_cons_self) _)]
    exact congrArg _ (ih fun e' he' => hlevels e' (List.mem_cons_of_mem _ he'))

/-- **The front ends write the same only when they write nothing**: the C interface
writes messages, and the asynchronous logger records. -/
theorem sameBytes_iff {logger : SpeckitLogger host} {w₁ : World host} {config cwd₁ : Text}
    {processId₁ : ℤ} {answers₁ : InitAnswers} (hcwd : host.isAbsolute cwd₁ = true)
    (hcreate : CBridge.create w₁ cwd₁ (some config) processId₁ answers₁ = some logger)
    (hcreated : logger.journal.fm.initialized = true)
    {fm₀ fm : FileManager} {w₀ w : World host} {cwd₀ : Text} {processId₀ : ℤ}
    {answers₀ : InitAnswers} (hnew : fm₀.initialized = false)
    (hinit : fm₀.initializeAs w₀ cwd₀ processId₀ answers₀ = (true, fm, w))
    {io₁ : Io} (hio₁ : io₁.Succeeds) (hio : io.Succeeds) (cwd : Text) (platform : Platform τ)
    (queueSize : ℕ) (es : List (Entry τ))
    (hlevels : ∀ e ∈ es, e.level ∈ [LogLevel.debug, .info, .warning, .error]) :
    SameBytes platform es (CBridge.run io₁ cwd logger (bridgeCalls es)).journal
        (run platform io (start queueSize .debug fm w) (es.map .log ++ [.flush])).journal ↔
      es = [] := by
  obtain ⟨-, heq⟩ := CBridge.initialized_of_create hcreate hcreated
  have hready : CBridge.Ready .new logger := by
    have := CBridge.ready_of_create hcwd hcreate hcreated .new
    exact ⟨this.isOpen, this.absolute, by rw [heq]⟩
  have hnone : logger.journal.appended = [] := by
    rw [heq]
    rfl
  rw [SameBytes, appended_run_flush hnew hinit hio, appended_run hready hio₁, hnone,
    List.nil_append, passed_bridgeCalls hlevels]
  constructor
  · rintro ⟨hsame, hall⟩
    by_contra hne
    have hlt := length_lt_records platform hne
    rw [hsame, hall] at hlt
    exact lt_irrefl _ hlt
  · rintro rfl
    exact ⟨rfl, rfl⟩

/-- The entries of two calls. -/
def entriesUpDown : List (Entry ℕ) :=
  [entryUp, { entryUp with level := .error, message := "down".toList }]

theorem sameBytes_iff_app : ∃ logger, CBridge.createdApp = some logger ∧
    SameBytes midnight [] (CBridge.run (.pushing fun _ => 0) ['/'] logger
        (bridgeCalls ([] : List (Entry ℕ)))).journal
      (run midnight (.pushing fun _ => 0) (start 4 .debug appOpened.2.1 appOpened.2.2)
        [.flush]).journal ∧
    ¬ SameBytes midnight entriesUpDown (CBridge.run (.pushing fun _ => 0) ['/'] logger
        (bridgeCalls entriesUpDown)).journal
      (run midnight (.pushing fun _ => 0) (start 4 .debug appOpened.2.1 appOpened.2.2)
        (entriesUpDown.map .log ++ [.flush])).journal := by
  obtain ⟨logger, hlogger, hcreated⟩ := CBridge.createdApp_initialized
  have hnew : (configured "/logs/app".toList 10 3).initialized = false := rfl
  have hiff := sameBytes_iff (by decide) hlogger hcreated hnew appOpened_eq
    (Io.pushing_succeeds fun _ => 0) (Io.pushing_succeeds fun _ => 0) ['/'] midnight 4
  exact ⟨logger, hlogger, (hiff [] nofun).mpr rfl,
    (hiff entriesUpDown (by decide)).not.mpr (List.cons_ne_nil _ _)⟩

/-- **One call, two outputs**: the C interface writes `up`. -/
theorem not_sameBytes_up : ∃ logger, CBridge.createdApp = some logger ∧
    ¬ SameBytes midnight [entryUp]
      (CBridge.run (.pushing fun _ => 0) ['/'] logger (bridgeCalls [entryUp])).journal
      (run midnight (.pushing fun _ => 0) (start 4 .debug appOpened.2.1 appOpened.2.2)
        [.log entryUp, .flush]).journal := by
  obtain ⟨logger, hlogger⟩ : ∃ logger, CBridge.createdApp = some logger := ⟨_, rfl⟩
  refine ⟨logger, hlogger, fun ⟨hsame, _⟩ => ?_⟩
  have hbridge : CBridge.createdApp.map (fun logger => (CBridge.run (.pushing fun _ => 0) ['/']
      logger (bridgeCalls [entryUp])).journal.appended) = some "up\n".toList := by decide +kernel
  have hasync : (run midnight (.pushing fun _ => 0)
      (start 4 .debug appOpened.2.1 appOpened.2.2) [.log entryUp, .flush]).journal.appended =
        "[INFO] 1970-01-01 00:00:00.000 [7, 1] [Net]: up\n".toList := by decide +kernel
  rw [hlogger, Option.map_some] at hbridge
  rw [Option.some.inj hbridge, hasync] at hsame
  exact absurd hsame (by decide)

end FrontEnds
end SpeckitLog
