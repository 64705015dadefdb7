import SpeckitLog.Lib.Transition
import Mathlib.Data.List.Basic

/-!
# Streams that share files

Owners open streams on files, and several streams may be open on one file.  A stream
holds back some of what it accepts and sends it on from the front; a file only ever grows.
What a file holds is accounted for: every byte was there at first or was sent by one
stream, and what a stream has sent is what it accepted, less what it holds back.

## Main definitions

* `part` — what one party contributed to a labelled list.
* `Session`, `Store`, `next` — streams over files, and what their owners do.
* `Store.Accounted` — where the bytes of the files come from.
* `Performs` — what the acts of one owner do to its stream and to the files.
* `Store.acceptedBy` — what the streams of an owner accepted.
* `Store.LostIn` — what was lost.

## Main results

* `accounted_of_reachable` — the bytes are accounted for in every run.
* `grows_of_reachable` — files only grow.
* `acceptedBy_of_run` — what a run adds to what each owner gave.
* `performs_lapse` — a stream loses a part of what it holds back.
-/

namespace Streams

open Function Transition

/-! ### Labelled lists -/

section Part

variable {κ α : Type*} [DecidableEq κ] (k : κ)

/-- The elements with the label `k`, in their order. -/
def part (bytes : List (κ × α)) : List α := (bytes.filter fun b => b.1 = k).map Prod.snd

@[simp] theorem part_nil : part k ([] : List (κ × α)) = [] := rfl

@[simp] theorem part_append (bytes bytes' : List (κ × α)) :
    part k (bytes ++ bytes') = part k bytes ++ part k bytes' := by
  unfold part
  rw [List.filter_append, List.map_append]

/-- A list with one label. -/
def labelled (l : List α) : List (κ × α) := l.map fun a => (k, a)

omit [DecidableEq κ] in
@[simp] theorem map_snd_labelled (l : List α) : (labelled k l).map Prod.snd = l := by
  unfold labelled
  rw [List.map_map]
  exact List.map_id l

@[simp] theorem part_labelled_self (l : List α) : part k (labelled k l) = l := by
  have hall : (labelled k l).filter (fun b => b.1 = k) = labelled k l := by
    refine List.filter_eq_self.mpr fun b hb => ?_
    obtain ⟨a, -, rfl⟩ := List.mem_map.mp hb
    exact decide_eq_true rfl
  unfold part
  rw [hall, map_snd_labelled]

theorem part_labelled_of_ne {k k' : κ} (h : k' ≠ k) (l : List α) : part k (labelled k' l) = [] := by
  have hnone : (labelled k' l).filter (fun b => b.1 = k) = [] := by
    refine List.filter_eq_nil_iff.mpr fun b hb => ?_
    obtain ⟨a, -, rfl⟩ := List.mem_map.mp hb
    exact fun heq => h (of_decide_eq_true heq)
  unfold part
  rw [hnone, List.map_nil]

end Part

/-! ### Streams and files -/

/-- What became of a stream. -/
inductive Fate
  | opened
  | closed
  | lost
  deriving DecidableEq

/-- A stream, from the moment it was opened on. -/
structure Session (ω α : Type*) where
  owner : ω
  file : ℕ
  /-- All that it accepted. -/
  accepted : List α
  /-- What it holds back; what it held back when it was lost. -/
  buffer : List α
  /-- How much it had accepted when it was last flushed. -/
  flushed : ℕ
  fate : Fate
  deriving DecidableEq

/-- Files, and all streams that were ever opened on them. -/
structure Store (ω α : Type*) where
  data : ℕ → List α
  /-- The next new file. -/
  next : ℕ
  sessions : ℕ → Option (Session ω α)
  /-- The next new stream. -/
  count : ℕ
  /-- The open stream of each owner. -/
  current : ω → Option ℕ

/-- What owners do. -/
inductive Act (ω α : Type*)
  | create
  | openOn (o : ω) (n : ℕ)
  /-- The stream accepts bytes, and sends on the first `pushed` of those that wait. -/
  | accept (o : ω) (bytes : List α) (pushed : ℕ)
  | flush (o : ω)
  | close (o : ω)
  | lose (o : ω)
  deriving DecidableEq

variable {ω α : Type*} [DecidableEq ω]

namespace Store

/-- Files with some bytes each, and no streams. -/
def init (data : ℕ → List α) (next : ℕ) : Store ω α where
  data := data
  next := next
  sessions _ := none
  count := 0
  current _ := none

/-- A new empty file. -/
def create (s : Store ω α) : Store ω α :=
  { s with data := update s.data s.next [], next := s.next + 1 }

/-- A new stream. -/
def openOn (s : Store ω α) (o : ω) (n : ℕ) : Store ω α :=
  { s with
    sessions := update s.sessions s.count (some ⟨o, n, [], [], 0, .opened⟩)
    count := s.count + 1
    current := update s.current o (some s.count) }

/-- The open stream of an owner, with its number. -/
def stream (s : Store ω α) (o : ω) : Option (ℕ × Session ω α) :=
  (s.current o).bind fun k => (s.sessions k).map fun x => (k, x)

/-- Stream `k` of `o` sends bytes to its file, and goes on as `x`. -/
def move (s : Store ω α) (o : ω) (k : ℕ) (x : Session ω α) (sent : List α) : Store ω α :=
  { s with
    data := update s.data x.file (s.data x.file ++ sent)
    sessions := update s.sessions k (some x)
    current := if x.fate = .opened then s.current else update s.current o none }

end Store

/-- One act. -/
def next (s : Store ω α) : Act ω α → Option (Store ω α)
  | .create => some s.create
  | .openOn o n => if s.current o = none ∧ n < s.next then some (s.openOn o n) else none
  | .accept o bytes pushed => (s.stream o).map fun kx => s.move o kx.1
      { kx.2 with
        accepted := kx.2.accepted ++ bytes
        buffer := (kx.2.buffer ++ bytes).drop pushed }
      ((kx.2.buffer ++ bytes).take pushed)
  | .flush o => (s.stream o).map fun kx =>
      s.move o kx.1 { kx.2 with buffer := [], flushed := kx.2.accepted.length } kx.2.buffer
  | .close o => (s.stream o).map fun kx =>
      s.move o kx.1 { kx.2 with buffer := [], fate := .closed } kx.2.buffer
  | .lose o => (s.stream o).map fun kx => s.move o kx.1 { kx.2 with fate := .lost } []

/-- The stream `x` becomes `x'`: it accepts `gained`, and sends on `sent`. -/
structure Moves (x x' : Session ω α) (gained sent : List α) : Prop where
  owner : x'.owner = x.owner
  file : x'.file = x.file
  accepted : x'.accepted = x.accepted ++ gained
  sent : sent ++ x'.buffer = x.buffer ++ gained
  flushed : x.flushed + x.buffer.length ≤ x.accepted.length →
    x'.flushed + x'.buffer.length ≤ x'.accepted.length
  closed : x'.fate = .closed → x'.buffer = []

/-- The acts that change the store: a new file, a new stream, or a move of one stream. -/
inductive Step (s : Store ω α) : Store ω α → Prop
  | create : Step s s.create
  | openOn {o : ω} {n : ℕ} (hnone : s.current o = none) (hn : n < s.next) : Step s (s.openOn o n)
  | move {o : ω} {k : ℕ} {x x' : Session ω α} {sent : List α} (gained : List α)
      (hk : s.current o = some k) (hx : s.sessions k = some x) (hmoves : Moves x x' gained sent) :
      Step s (s.move o k x' sent)

omit [DecidableEq ω] in
theorem Store.stream_eq_some {s : Store ω α} {o : ω} {k : ℕ} {x : Session ω α} :
    s.stream o = some (k, x) ↔ s.current o = some k ∧ s.sessions k = some x := by
  unfold Store.stream
  constructor
  · intro h
    obtain ⟨k', hk', hmap⟩ := Option.bind_eq_some_iff.mp h
    obtain ⟨x', hx', heq⟩ := Option.map_eq_some_iff.mp hmap
    obtain ⟨rfl, rfl⟩ := Prod.mk.inj heq
    exact ⟨hk', hx'⟩
  · rintro ⟨hk, hx⟩
    rw [hk, Option.bind_some, hx]
    rfl

variable {s s' : Store ω α} {a : Act ω α}

omit [DecidableEq ω] in
/-- An act of an owner that has a stream open. -/
theorem Store.exists_of_map_stream {o : ω} {f : ℕ × Session ω α → Store ω α}
    (h : (s.stream o).map f = some s') :
    ∃ k x, s.current o = some k ∧ s.sessions k = some x ∧ s' = f (k, x) := by
  obtain ⟨⟨k, x⟩, hstream, rfl⟩ := Option.map_eq_some_iff.mp h
  obtain ⟨hk, hx⟩ := Store.stream_eq_some.mp hstream
  exact ⟨k, x, hk, hx, rfl⟩

/-- **Every act is of one of these kinds.** -/
theorem step_of_next (h : next s a = some s') (hopen : ∀ o k x, s.current o = some k →
    s.sessions k = some x → x.fate = .opened) : Step s s' := by
  cases a with
  | create => exact Option.some.inj h ▸ .create
  | openOn o n =>
    simp only [next] at h
    split at h
    · next hok => exact Option.some.inj h ▸ .openOn hok.1 hok.2
    · contradiction
  | accept o bytes pushed =>
    obtain ⟨k, x, hk, hx, rfl⟩ := Store.exists_of_map_stream h
    refine .move bytes hk hx ⟨rfl, rfl, rfl, List.take_append_drop .., ?_, ?_⟩
    · intro hle
      simp only [List.length_drop, List.length_append]
      omega
    · exact fun hclosed => absurd ((hopen o k x hk hx).symm.trans hclosed) nofun
  | flush o =>
    obtain ⟨k, x, hk, hx, rfl⟩ := Store.exists_of_map_stream h
    refine .move [] hk hx ⟨rfl, rfl, (List.append_nil _).symm, rfl, ?_, fun _ => rfl⟩
    exact fun _ => le_rfl
  | close o =>
    obtain ⟨k, x, hk, hx, rfl⟩ := Store.exists_of_map_stream h
    refine .move [] hk hx ⟨rfl, rfl, (List.append_nil _).symm, rfl, ?_, fun _ => rfl⟩
    exact fun hle => (Nat.le_add_right _ _).trans hle
  | lose o =>
    obtain ⟨k, x, hk, hx, rfl⟩ := Store.exists_of_map_stream h
    exact .move [] hk hx ⟨rfl, rfl, (List.append_nil _).symm, (List.append_nil _).symm, id, nofun⟩

/-! ### Where the bytes come from -/

/-- The streams of a store are in order. -/
structure Store.Sound (s : Store ω α) : Prop where
  current : ∀ o k, s.current o = some k →
    ∃ x, s.sessions k = some x ∧ x.owner = o ∧ x.fate = .opened
  opened : ∀ k x, s.sessions k = some x → x.fate = .opened → s.current x.owner = some k
  file : ∀ k x, s.sessions k = some x → x.file < s.next
  count : ∀ k x, s.sessions k = some x → k < s.count
  flushed : ∀ k x, s.sessions k = some x → x.flushed + x.buffer.length ≤ x.accepted.length
  closed : ∀ k x, s.sessions k = some x → x.fate = .closed → x.buffer = []

/-- The bytes of file `n`, each with the stream that sent it; those of `old` have none. -/
structure Store.Ledger (old : ℕ → List α) (s : Store ω α) (n : ℕ) (bytes : List (Option ℕ × α)) :
    Prop where
  data : bytes.map Prod.snd = s.data n
  old : part none bytes = old n
  sent : ∀ b ∈ bytes, ∀ k, b.1 = some k → ∃ x, s.sessions k = some x ∧ x.file = n
  /-- What a stream has sent is what it accepted, less what it holds back. -/
  landed : ∀ k x, s.sessions k = some x → x.file = n → part (some k) bytes ++ x.buffer = x.accepted

/-- **The bytes of every file are accounted for.** -/
def Store.Accounted (old : ℕ → List α) (s : Store ω α) : Prop :=
  ∀ n < s.next, ∃ bytes, s.Ledger old n bytes

omit [DecidableEq ω] in
theorem Store.sound_init (data : ℕ → List α) (m : ℕ) : (init (ω := ω) data m).Sound :=
  ⟨nofun, nofun, nofun, nofun, nofun, nofun⟩

omit [DecidableEq ω] in
theorem Store.accounted_init (data : ℕ → List α) (m : ℕ) :
    (init (ω := ω) data m).Accounted fun n => if n < m then data n else [] := by
  intro n hn
  refine ⟨labelled none (data n), map_snd_labelled .., ?_, ?_, nofun⟩
  · rw [part_labelled_self]
    exact (if_pos hn).symm
  · intro b hb k hk
    obtain ⟨a, -, rfl⟩ := List.mem_map.mp hb
    contradiction

/-- A move of one stream keeps the others. -/
theorem Store.sessions_move {o : ω} {k j : ℕ} {x' y : Session ω α} {sent : List α}
    (hy : (s.move o k x' sent).sessions j = some y) :
    (j = k ∧ y = x') ∨ (j ≠ k ∧ s.sessions j = some y) := by
  by_cases hj : j = k
  · subst hj
    rw [show (s.move o j x' sent).sessions j = some x' from update_self ..] at hy
    exact Or.inl ⟨rfl, (Option.some.inj hy).symm⟩
  · exact Or.inr ⟨hj, (update_of_ne hj _ _).symm.trans hy⟩

omit [DecidableEq ω] in
@[simp] theorem Store.data_create_self : s.create.data s.next = [] := update_self ..

omit [DecidableEq ω] in
theorem Store.data_create_of_ne {n : ℕ} (hn : n ≠ s.next) : s.create.data n = s.data n :=
  update_of_ne hn _ _

section Move

variable {o o' : ω} {k n : ℕ} {x' : Session ω α} {sent : List α}

@[simp] theorem Store.sessions_move_self : (s.move o k x' sent).sessions k = some x' :=
  update_self ..

@[simp] theorem Store.data_move_self :
    (s.move o k x' sent).data x'.file = s.data x'.file ++ sent := update_self ..

theorem Store.data_move_of_ne (hn : n ≠ x'.file) : (s.move o k x' sent).data n = s.data n :=
  update_of_ne hn _ _

theorem Store.current_move_of_ne (ho : o' ≠ o) :
    (s.move o k x' sent).current o' = s.current o' := by
  unfold move
  dsimp only
  split
  · rfl
  · exact update_of_ne ho _ _

end Move

theorem Step.sound (hstep : Step s s') (h : s.Sound) : s'.Sound := by
  cases hstep with
  | create =>
    exact ⟨h.current, h.opened, fun k x hx => (h.file k x hx).trans (Nat.lt_succ_self _), h.count,
      h.flushed, h.closed⟩
  | @openOn o n hnone hn =>
    -- the new stream, or one of the old
    have hcases : ∀ {k x}, (s.openOn o n).sessions k = some x →
        (k = s.count ∧ x = ⟨o, n, [], [], 0, .opened⟩) ∨ (k < s.count ∧ s.sessions k = some x) := by
      intro k x hx
      by_cases hk : k = s.count
      · subst hk
        rw [show (s.openOn o n).sessions s.count = _ from update_self ..] at hx
        exact Or.inl ⟨rfl, (Option.some.inj hx).symm⟩
      · have hold := (update_of_ne hk _ _).symm.trans hx
        exact Or.inr ⟨h.count k x hold, hold⟩
    refine ⟨fun o' k hk => ?_, fun k x hx hfate => ?_, fun k x hx => ?_, fun k x hx => ?_,
      fun k x hx => ?_, fun k x hx hfate => ?_⟩
    · by_cases ho : o' = o
      · subst ho
        rw [show (s.openOn o' n).current o' = some s.count from update_self ..] at hk
        obtain rfl := Option.some.inj hk
        exact ⟨_, update_self .., rfl, rfl⟩
      · obtain ⟨x, hx, howner, hfate⟩ := h.current o' k ((update_of_ne ho _ _).symm.trans hk)
        have hne : k ≠ s.count := (h.count k x hx).ne
        exact ⟨x, (update_of_ne hne _ _).trans hx, howner, hfate⟩
    · rcases hcases hx with ⟨rfl, rfl⟩ | ⟨-, hold⟩
      · exact update_self ..
      · have hcurrent := h.opened k x hold hfate
        have ho : x.owner ≠ o := fun heq => by
          rw [heq, hnone] at hcurrent
          contradiction
        exact (update_of_ne ho _ _).trans hcurrent
    · rcases hcases hx with ⟨-, rfl⟩ | ⟨-, hold⟩
      · exact hn
      · exact h.file k x hold
    · rcases hcases hx with ⟨rfl, -⟩ | ⟨hlt, -⟩
      · exact Nat.lt_succ_self _
      · exact hlt.trans (Nat.lt_succ_self _)
    · rcases hcases hx with ⟨-, rfl⟩ | ⟨-, hold⟩
      · exact le_rfl
      · exact h.flushed k x hold
    · rcases hcases hx with ⟨-, rfl⟩ | ⟨-, hold⟩
      · rfl
      · exact h.closed k x hold hfate
  | @move o k x x' sent gained hk hx hmoves =>
    obtain ⟨x₀, hx₀, howner, hfate₀⟩ := h.current o k hk
    obtain rfl := Option.some.inj (hx.symm.trans hx₀)
    refine ⟨fun o' j hj => ?_, fun j y hy hfate => ?_, fun j y hy => ?_, fun j y hy => ?_,
      fun j y hy => ?_, fun j y hy hfate => ?_⟩
    · -- whoever has a stream after the move had it before
      by_cases ho : o' = o
      · subst ho
        by_cases hfate : x'.fate = .opened
        · rw [show (s.move o' k x' sent).current o' = s.current o' from
            congrFun (if_pos hfate) o', hk] at hj
          obtain rfl := Option.some.inj hj
          exact ⟨x', Store.sessions_move_self, hmoves.owner.trans howner, hfate⟩
        · rw [show (s.move o' k x' sent).current o' = none from
            (congrFun (if_neg hfate) o').trans (update_self ..)] at hj
          contradiction
      · obtain ⟨y, hy, hyowner, hyfate⟩ :=
          h.current o' j ((Store.current_move_of_ne ho).symm.trans hj)
        have hjk : j ≠ k := by
          rintro rfl
          obtain rfl := Option.some.inj (hx.symm.trans hy)
          exact ho (hyowner.symm.trans howner)
        exact ⟨y, (update_of_ne hjk _ _).trans hy, hyowner, hyfate⟩
    · rcases Store.sessions_move hy with ⟨rfl, rfl⟩ | ⟨hjk, hold⟩
      · rw [hmoves.owner, howner]
        exact (congrFun (if_pos hfate) o).trans hk
      · have hcurrent := h.opened j y hold hfate
        have ho : y.owner ≠ o := fun heq => by
          rw [heq, hk] at hcurrent
          exact hjk (Option.some.inj hcurrent).symm
        exact (Store.current_move_of_ne ho).trans hcurrent
    · rcases Store.sessions_move hy with ⟨-, rfl⟩ | ⟨-, hold⟩
      · exact hmoves.file ▸ h.file k x hx
      · exact h.file j y hold
    · rcases Store.sessions_move hy with ⟨rfl, -⟩ | ⟨-, hold⟩
      · exact h.count j x hx
      · exact h.count j y hold
    · rcases Store.sessions_move hy with ⟨-, rfl⟩ | ⟨-, hold⟩
      · exact hmoves.flushed (h.flushed k x hx)
      · exact h.flushed j y hold
    · rcases Store.sessions_move hy with ⟨-, rfl⟩ | ⟨-, hold⟩
      · exact hmoves.closed hfate
      · exact h.closed j y hold hfate

/-- The ledger of a file, after one act. -/
theorem Step.accounted {old : ℕ → List α} (hstep : Step s s') (h : s.Sound)
    (hnew : ∀ n, s.next ≤ n → old n = []) (hledger : s.Accounted old) : s'.Accounted old := by
  intro n hn
  cases hstep with
  | create =>
    by_cases hlast : n = s.next
    · subst hlast
      have hnone : ∀ k x, s.sessions k = some x → x.file ≠ s.next :=
        fun k x hx => (h.file k x hx).ne
      exact ⟨[], Store.data_create_self.symm, (hnew _ le_rfl).symm, nofun,
        fun k x hx hfile => absurd hfile (hnone k x hx)⟩
    · obtain ⟨bytes, hbytes⟩ := hledger n (by simp only [Store.create] at hn; omega)
      exact ⟨bytes, hbytes.data.trans (Store.data_create_of_ne hlast).symm, hbytes.old,
        hbytes.sent, hbytes.landed⟩
  | @openOn o m hnone hm =>
    obtain ⟨bytes, hbytes⟩ := hledger n hn
    have hkept : ∀ {k x}, s.sessions k = some x → (s.openOn o m).sessions k = some x :=
      fun hx => (update_of_ne (h.count _ _ hx).ne _ _).trans hx
    refine ⟨bytes, hbytes.data, hbytes.old, fun b hb k hk => ?_, fun k x hx hfile => ?_⟩
    · obtain ⟨x, hx, hfile⟩ := hbytes.sent b hb k hk
      exact ⟨x, hkept hx, hfile⟩
    · by_cases hk : k = s.count
      · -- the new stream has sent nothing
        subst hk
        rw [show (s.openOn o m).sessions s.count = _ from update_self ..] at hx
        obtain rfl := Option.some.inj hx
        refine (List.append_nil _).trans (List.map_eq_nil_iff.mpr (List.filter_eq_nil_iff.mpr ?_))
        intro b hb hlabel
        obtain ⟨x, hx, -⟩ := hbytes.sent b hb _ (of_decide_eq_true hlabel)
        exact absurd (h.count _ _ hx) (lt_irrefl _)
      · exact hbytes.landed k x ((update_of_ne hk _ _).symm.trans hx) hfile
  | @move o k x x' sent gained hk hx hmoves =>
    obtain ⟨bytes, hbytes⟩ := hledger n hn
    have hstill : ∀ {j y}, s.sessions j = some y → y.file = n →
        ∃ y', (s.move o k x' sent).sessions j = some y' ∧ y'.file = n := by
      intro j y hy hfile
      by_cases hj : j = k
      · subst hj
        obtain rfl := Option.some.inj (hx.symm.trans hy)
        exact ⟨x', Store.sessions_move_self, hmoves.file.trans hfile⟩
      · exact ⟨y, (update_of_ne hj _ _).trans hy, hfile⟩
    by_cases hfile : n = x'.file
    · -- the bytes sent get the number of the stream
      subst hfile
      refine ⟨bytes ++ labelled (some k) sent, ?_, ?_, fun b hb j hj => ?_, fun j y hy hyfile => ?_⟩
      · rw [List.map_append, hbytes.data, map_snd_labelled, Store.data_move_self]
      · have hne : some k ≠ none := Option.some_ne_none k
        rw [part_append, part_labelled_of_ne hne, List.append_nil, hbytes.old]
      · rcases List.mem_append.mp hb with hb | hb
        · obtain ⟨y, hy, hyfile⟩ := hbytes.sent b hb j hj
          exact hstill hy hyfile
        · obtain ⟨c, -, rfl⟩ := List.mem_map.mp hb
          obtain rfl := Option.some.inj hj
          exact ⟨x', Store.sessions_move_self, rfl⟩
      · rcases Store.sessions_move hy with ⟨rfl, rfl⟩ | ⟨hjk, hold⟩
        · rw [part_append, part_labelled_self, List.append_assoc, hmoves.sent, hmoves.accepted,
            ← List.append_assoc, hbytes.landed j x hx hmoves.file.symm]
        · rw [part_append, part_labelled_of_ne fun heq => hjk (Option.some.inj heq).symm,
            List.append_nil]
          exact hbytes.landed j y hold hyfile
    · refine ⟨bytes, hbytes.data.trans (Store.data_move_of_ne hfile).symm, hbytes.old,
        fun b hb j hj => ?_, fun j y hy hyfile => ?_⟩
      · obtain ⟨y, hy, hyfile⟩ := hbytes.sent b hb j hj
        exact hstill hy hyfile
      · rcases Store.sessions_move hy with ⟨rfl, rfl⟩ | ⟨-, hold⟩
        · exact absurd hyfile.symm hfile
        · exact hbytes.landed j y hold hyfile

theorem Step.next_le (hstep : Step s s') : s.next ≤ s'.next := by
  cases hstep with
  | create => exact Nat.le_succ _
  | _ => exact le_rfl

/-- What the acts keep: the streams are in order, and the bytes are accounted for. -/
structure Store.Inv (old : ℕ → List α) (s : Store ω α) : Prop where
  sound : s.Sound
  new : ∀ n, s.next ≤ n → old n = []
  accounted : s.Accounted old

omit [DecidableEq ω] in
theorem Store.inv_init (data : ℕ → List α) (m : ℕ) :
    (init (ω := ω) data m).Inv fun n => if n < m then data n else [] :=
  ⟨sound_init data m, fun _ hn => if_neg (not_lt.mpr hn), accounted_init data m⟩

theorem Store.Inv.step {old : ℕ → List α} (h : s.Inv old) (hnext : Streams.next s a = some s') :
    Step s s' ∧ s'.Inv old := by
  have hopen : ∀ o k x, s.current o = some k → s.sessions k = some x → x.fate = .opened := by
    intro o k x hk hx
    obtain ⟨x', hx', -, hfate⟩ := h.sound.current o k hk
    exact Option.some.inj (hx'.symm.trans hx) ▸ hfate
  have hstep := step_of_next hnext hopen
  exact ⟨hstep, hstep.sound h.sound, fun n hn => h.new n (hstep.next_le.trans hn),
    hstep.accounted h.sound h.new h.accounted⟩

/-- **In every run the bytes are accounted for**, whatever the owners do in whatever order. -/
theorem accounted_of_reachable {ok : Store ω α → Act ω α → Prop} {data : ℕ → List α} {m : ℕ}
    (h : Reachable next ok (.init data m) s) :
    s.Sound ∧ s.Accounted fun n => if n < m then data n else [] := by
  have hinv := h.invariant (Store.inv_init data m) fun _ _ _ _ hinv _ hnext => (hinv.step hnext).2
  exact ⟨hinv.sound, hinv.accounted⟩

/-- A file that exists has its bytes at the start of what it has later. -/
theorem Step.grows (hstep : Step s s') {n : ℕ} (hn : n < s.next) : s.data n <+: s'.data n := by
  cases hstep with
  | create => exact Store.data_create_of_ne hn.ne ▸ List.prefix_rfl
  | openOn => exact List.prefix_rfl
  | @move o k x x' sent gained hk hx hmoves =>
    by_cases hfile : n = x'.file
    · subst hfile
      exact ⟨sent, Store.data_move_self.symm⟩
    · exact Store.data_move_of_ne hfile ▸ List.prefix_rfl

/-- What later states keep of the files that exist. -/
theorem later_of_reachable {ok : Store ω α → Act ω α → Prop} {old : ℕ → List α} (h : s.Inv old)
    (hs : Reachable next ok s s') :
    s'.Inv old ∧ s.next ≤ s'.next ∧ ∀ n < s.next, s.data n <+: s'.data n := by
  refine hs.invariant (I := fun x => x.Inv old ∧ s.next ≤ x.next ∧
    ∀ n < s.next, s.data n <+: x.data n) ⟨h, le_rfl, fun _ _ => List.prefix_rfl⟩ ?_
  rintro x a x' - ⟨hx, hle, hgrown⟩ - hnext
  obtain ⟨hstep, hx'⟩ := hx.step hnext
  exact ⟨hx', hle.trans hstep.next_le,
    fun n hn => (hgrown n hn).trans (hstep.grows (hn.trans_le hle))⟩

theorem next_le_of_reachable {ok : Store ω α → Act ω α → Prop} {old : ℕ → List α} (h : s.Inv old)
    (hs : Reachable next ok s s') : s.next ≤ s'.next := (later_of_reachable h hs).2.1

/-- **Files only grow.** -/
theorem grows_of_reachable {ok : Store ω α → Act ω α → Prop} {old : ℕ → List α} (h : s.Inv old)
    (hs : Reachable next ok s s') {n : ℕ} (hn : n < s.next) : s.data n <+: s'.data n :=
  (later_of_reachable h hs).2.2 n hn

/-! ### The acts of one owner -/

/-- What an owner has open: the file, and what its stream holds back. -/
def Store.holds (s : Store ω α) (o : ω) : Option (ℕ × List α) :=
  (s.stream o).map fun kx => (kx.2.file, kx.2.buffer)

/-- **The owner `o` performs some acts** on `s`: then its stream is `held`, the files hold
`data`, and the others have what they had. -/
structure Performs (s : Store ω α) (o : ω) (acts : List (Act ω α)) (held : Option (ℕ × List α))
    (data : ℕ → List α) (m : ℕ) (s' : Store ω α) : Prop where
  run : run Streams.next (fun _ _ => true) s acts = some s'
  own : s'.holds o = held
  others : ∀ o' ≠ o, s'.holds o' = s.holds o'
  data : s'.data = data
  next : s'.next = m

variable {o : ω} {held : Option (ℕ × List α)} {data : ℕ → List α} {m n : ℕ}
  {buffer : List α} {old : ℕ → List α}

theorem performs_nil (s : Store ω α) (o : ω) : Performs s o [] (s.holds o) s.data s.next s :=
  ⟨rfl, rfl, fun _ _ => rfl, rfl, rfl⟩

theorem run_singleton (h : next s a = some s') :
    run next (fun _ _ => true) s [a] = some s' := by
  simp only [run, if_true, h, Option.bind_some]

theorem Performs.append {acts acts' : List (Act ω α)} {s'' : Store ω α}
    {held' : Option (ℕ × List α)} {data' : ℕ → List α} {m' : ℕ}
    (h : Performs s o acts held data m s') (h' : Performs s' o acts' held' data' m' s'') :
    Performs s o (acts ++ acts') held' data' m' s'' where
  run := by rw [run_append, h.run, Option.bind_some, h'.run]
  own := h'.own
  others o' ho := (h'.others o' ho).trans (h.others o' ho)
  data := h'.data
  next := h'.next

theorem Performs.inv {acts : List (Act ω α)} (h : Performs s o acts held data m s')
    (hinv : s.Inv old) : s'.Inv old := by
  refine (reachable_of_run h.run).invariant hinv ?_
  exact fun _ _ _ _ hx _ hnext => (hx.step hnext).2

omit [DecidableEq ω] in
theorem Store.exists_stream (h : s.holds o = some (n, buffer)) :
    ∃ k x, s.current o = some k ∧ s.sessions k = some x ∧ x.file = n ∧ x.buffer = buffer := by
  obtain ⟨⟨k, x⟩, hstream, heq⟩ := Option.map_eq_some_iff.mp h
  obtain ⟨rfl, rfl⟩ := Prod.mk.inj heq
  obtain ⟨hk, hx⟩ := Store.stream_eq_some.mp hstream
  exact ⟨k, x, hk, hx, rfl, rfl⟩

/-- A move changes what the owner of the stream has, and what no other has. -/
theorem Store.holds_move (hinv : s.Sound) {k : ℕ} {x x' : Session ω α} {sent : List α}
    (hk : s.current o = some k) (hx : s.sessions k = some x) :
    (s.move o k x' sent).holds o =
        (if x'.fate = .opened then some (x'.file, x'.buffer) else none) ∧
      ∀ o' ≠ o, (s.move o k x' sent).holds o' = s.holds o' := by
  constructor
  · unfold holds stream
    by_cases hfate : x'.fate = .opened
    · have hcurrent : (s.move o k x' sent).current o = some k :=
        (congrFun (if_pos hfate) o).trans hk
      rw [hcurrent, Option.bind_some, sessions_move_self, if_pos hfate]
      rfl
    · have hcurrent : (s.move o k x' sent).current o = none :=
        (congrFun (if_neg hfate) o).trans (update_self ..)
      rw [hcurrent, if_neg hfate]
      rfl
  · intro o' ho
    unfold holds stream
    rw [current_move_of_ne ho]
    cases hj : s.current o' with
    | none => rfl
    | some j =>
      -- another owner has another stream
      have hjk : j ≠ k := by
        rintro rfl
        obtain ⟨y, hy, howner, -⟩ := hinv.current o' j hj
        obtain ⟨y', hy', howner', -⟩ := hinv.current o j hk
        obtain rfl := Option.some.inj (hy.symm.trans hy')
        exact ho (howner.symm.trans howner')
      rw [Option.bind_some, Option.bind_some,
        show (s.move o k x' sent).sessions j = s.sessions j from update_of_ne hjk _ _]

/-- An act of an owner that has a stream. -/
theorem performs_move (hinv : s.Sound) {k : ℕ} {x x' : Session ω α} {sent : List α}
    (hk : s.current o = some k) (hx : s.sessions k = some x)
    (hnext : next s a = some (s.move o k x' sent)) :
    Performs s o [a] (if x'.fate = .opened then some (x'.file, x'.buffer) else none)
      (update s.data x'.file (s.data x'.file ++ sent)) s.next (s.move o k x' sent) :=
  ⟨run_singleton hnext, (Store.holds_move hinv hk hx).1, (Store.holds_move hinv hk hx).2, rfl, rfl⟩

omit [DecidableEq ω] in
theorem next_of_stream {k : ℕ} {x : Session ω α} (hk : s.current o = some k)
    (hx : s.sessions k = some x) (f : ℕ × Session ω α → Store ω α) :
    (s.stream o).map f = some (f (k, x)) := by
  rw [Store.stream_eq_some.mpr ⟨hk, hx⟩]
  rfl

theorem performs_accept (hinv : s.Sound) (h : s.holds o = some (n, buffer)) (bytes : List α)
    (pushed : ℕ) : ∃ s', Performs s o [.accept o bytes pushed]
      (some (n, (buffer ++ bytes).drop pushed))
      (update s.data n (s.data n ++ (buffer ++ bytes).take pushed)) s.next s' := by
  obtain ⟨k, x, hk, hx, rfl, rfl⟩ := Store.exists_stream h
  obtain ⟨x₀, hx₀, -, hfate⟩ := hinv.current o k hk
  obtain rfl := Option.some.inj (hx.symm.trans hx₀)
  have hmove := performs_move hinv hk hx (a := .accept o bytes pushed) (next_of_stream hk hx _)
  rw [if_pos hfate] at hmove
  exact ⟨_, hmove⟩

theorem performs_flush (hinv : s.Sound) (h : s.holds o = some (n, buffer)) :
    ∃ s', Performs s o [.flush o] (some (n, [])) (update s.data n (s.data n ++ buffer)) s.next
      s' := by
  obtain ⟨k, x, hk, hx, rfl, rfl⟩ := Store.exists_stream h
  obtain ⟨x₀, hx₀, -, hfate⟩ := hinv.current o k hk
  obtain rfl := Option.some.inj (hx.symm.trans hx₀)
  have hmove := performs_move hinv hk hx (a := .flush o) (next_of_stream hk hx _)
  rw [if_pos hfate] at hmove
  exact ⟨_, hmove⟩

theorem performs_close (hinv : s.Sound) (h : s.holds o = some (n, buffer)) :
    ∃ s', Performs s o [.close o] none (update s.data n (s.data n ++ buffer)) s.next s' := by
  obtain ⟨k, x, hk, hx, rfl, rfl⟩ := Store.exists_stream h
  exact ⟨_, performs_move hinv hk hx (a := .close o) (next_of_stream hk hx _)⟩

theorem performs_lose (hinv : s.Sound) (h : s.holds o = some (n, buffer)) :
    ∃ s', Performs s o [.lose o] none s.data s.next s' := by
  obtain ⟨k, x, hk, hx, rfl, rfl⟩ := Store.exists_stream h
  have hmove := performs_move hinv hk hx (a := .lose o) (next_of_stream hk hx _)
  rw [List.append_nil, update_eq_self] at hmove
  exact ⟨_, hmove⟩

omit [DecidableEq ω] in
theorem Store.current_eq_none (hinv : s.Sound) (h : s.holds o = none) : s.current o = none := by
  cases hk : s.current o with
  | none => rfl
  | some k =>
    obtain ⟨x, hx, -⟩ := hinv.current o k hk
    rw [holds, Store.stream_eq_some.mpr ⟨hk, hx⟩] at h
    contradiction

theorem performs_openOn (hinv : s.Sound) (h : s.holds o = none) (hn : n < s.next) :
    ∃ s', Performs s o [.openOn o n] (some (n, [])) s.data s.next s' := by
  have hnone := Store.current_eq_none hinv h
  refine ⟨s.openOn o n, run_singleton (if_pos ⟨hnone, hn⟩), ?_, fun o' ho => ?_, rfl, rfl⟩
  · unfold Store.holds Store.stream
    rw [show (s.openOn o n).current o = some s.count from update_self .., Option.bind_some,
      show (s.openOn o n).sessions s.count = _ from update_self ..]
    rfl
  · unfold Store.holds Store.stream
    rw [show (s.openOn o n).current o' = s.current o' from update_of_ne ho _ _]
    cases hj : s.current o' with
    | none => rfl
    | some j =>
      obtain ⟨y, hy, -⟩ := hinv.current o' j hj
      rw [Option.bind_some, Option.bind_some,
        show (s.openOn o n).sessions j = s.sessions j from update_of_ne (hinv.count j y hy).ne _ _]

theorem performs_create (s : Store ω α) (o : ω) :
    Performs s o [.create] (s.holds o) (update s.data s.next []) (s.next + 1) s.create :=
  ⟨run_singleton rfl, rfl, fun _ _ => rfl, rfl, rfl⟩

/-! ### What each owner gave -/

/-- An act of `o`. -/
def Act.IsOf (o : ω) : Act ω α → Prop
  | .create => True
  | .openOn o' _ | .accept o' _ _ | .flush o' | .close o' | .lose o' => o' = o

/-- An act by which nothing is lost. -/
def Act.Keeps : Act ω α → Prop
  | .lose _ => False
  | _ => True

/-- The bytes that `o` gives to its stream. -/
def Act.gives (o : ω) : Act ω α → List α
  | .accept o' bytes _ => if o' = o then bytes else []
  | _ => []

theorem Act.gives_of_isOf {o' : ω} (h : a.IsOf o) (ho : o' ≠ o) : a.gives o' = [] := by
  cases a with
  | accept o'' bytes pushed => exact if_neg fun heq => ho (heq.symm.trans h)
  | _ => rfl

namespace Store

/-- What stream `k` accepted, if it is one of `o`. -/
def acceptedIn (s : Store ω α) (o : ω) (k : ℕ) : List α :=
  (s.sessions k).elim [] fun x => if x.owner = o then x.accepted else []

/-- What the streams of `o` accepted, one stream after the other. -/
def acceptedBy (s : Store ω α) (o : ω) : List α := (List.range s.count).flatMap (s.acceptedIn o)

/-- The open stream of an owner is its last one. -/
def Latest (s : Store ω α) : Prop :=
  ∀ o k, s.current o = some k → ∀ j x, k < j → s.sessions j = some x → x.owner ≠ o

/-- What streams held back when they were lost is on the list. -/
def LostIn (s : Store ω α) (lost : List (ω × List α)) : Prop :=
  ∀ k x, s.sessions k = some x → x.fate = .lost → (x.owner, x.buffer) ∈ lost

end Store

/-- What the parts of a list gain when one of them gains and those after it are empty. -/
theorem flatMap_range_concat {f f' : ℕ → List α} {k n : ℕ} {gained : List α} (hk : k < n)
    (hself : f' k = f k ++ gained) (hothers : ∀ j, j ≠ k → f' j = f j)
    (hlast : ∀ j, k < j → f j = []) :
    (List.range n).flatMap f' = (List.range n).flatMap f ++ gained := by
  induction n with
  | zero => exact absurd hk (Nat.not_lt_zero k)
  | succ n ih =>
    rw [List.range_succ, List.flatMap_append, List.flatMap_append, List.flatMap_singleton,
      List.flatMap_singleton]
    rcases Nat.lt_succ_iff_lt_or_eq.mp hk with hlt | rfl
    · rw [ih hlt, hothers n hlt.ne', hlast n hlt, List.append_nil, List.append_nil]
    · have hsame : (List.range k).flatMap f' = (List.range k).flatMap f :=
        List.flatMap_congr fun j hj => hothers j (List.mem_range.mp hj).ne
      rw [hsame, hself, List.append_assoc]

/-- A move of a stream adds what the stream gains. -/
theorem Store.acceptedBy_move (hinv : s.Sound) (hlatest : s.Latest) {k : ℕ}
    {x x' : Session ω α} {sent gained : List α} (hk : s.current o = some k)
    (hx : s.sessions k = some x) (howner : x'.owner = x.owner)
    (haccepted : x'.accepted = x.accepted ++ gained) (o' : ω) :
    (s.move o k x' sent).acceptedBy o' = s.acceptedBy o' ++ if o = o' then gained else [] := by
  obtain ⟨x₀, hx₀, hxo, -⟩ := hinv.current o k hk
  obtain rfl := Option.some.inj (hx.symm.trans hx₀)
  have hothers : ∀ j, j ≠ k → (s.move o k x' sent).acceptedIn o' j = s.acceptedIn o' j := by
    intro j hj
    unfold acceptedIn
    rw [show (s.move o k x' sent).sessions j = s.sessions j from update_of_ne hj _ _]
  have hself : (s.move o k x' sent).acceptedIn o' k =
      s.acceptedIn o' k ++ if o = o' then gained else [] := by
    unfold acceptedIn
    rw [sessions_move_self, hx, Option.elim_some, Option.elim_some, howner, hxo, haccepted]
    split <;> rfl
  by_cases ho : o = o'
  · subst ho
    refine flatMap_range_concat (hinv.count k x hx) hself hothers fun j hj => ?_
    unfold acceptedIn
    cases hy : s.sessions j with
    | none => rfl
    | some y => exact if_neg (hlatest o k hk j y hj hy)
  · rw [if_neg ho, List.append_nil] at hself ⊢
    refine List.flatMap_congr fun j _ => ?_
    by_cases hj : j = k
    · rw [hj, hself]
    · exact hothers j hj

/-- A move by which a stream accepts nothing. -/
theorem Store.acceptedBy_move_same (hinv : s.Sound) (hlatest : s.Latest) {k : ℕ}
    {x x' : Session ω α} {sent : List α} (hk : s.current o = some k)
    (hx : s.sessions k = some x) (howner : x'.owner = x.owner)
    (haccepted : x'.accepted = x.accepted) (o' : ω) :
    (s.move o k x' sent).acceptedBy o' = s.acceptedBy o' := by
  rw [acceptedBy_move hinv hlatest hk hx howner (haccepted.trans (List.append_nil _).symm),
    ite_self, List.append_nil]

theorem Store.latest_move (hlatest : s.Latest) {k : ℕ} {x x' : Session ω α} {sent : List α}
    (hx : s.sessions k = some x) (howner : x'.owner = x.owner) :
    (s.move o k x' sent).Latest := by
  intro o' i hi j y hij hy
  have hcurrent : s.current o' = some i := by
    by_cases ho : o' = o
    · subst ho
      unfold move at hi
      dsimp only at hi
      split at hi
      · exact hi
      · rw [update_self] at hi
        contradiction
    · exact (Store.current_move_of_ne ho).symm.trans hi
  rcases Store.sessions_move hy with ⟨rfl, rfl⟩ | ⟨-, hold⟩
  · rw [howner]
    exact hlatest o' i hcurrent j x hij hx
  · exact hlatest o' i hcurrent j y hij hold

/-- **What an act adds** to what each owner gave. -/
theorem acceptedBy_of_next (hinv : s.Sound) (hlatest : s.Latest) (hnext : next s a = some s')
    (o' : ω) : s'.Latest ∧ s'.acceptedBy o' = s.acceptedBy o' ++ a.gives o' := by
  cases a with
  | create =>
    obtain rfl := Option.some.inj hnext
    exact ⟨hlatest, (List.append_nil _).symm⟩
  | openOn o n =>
    simp only [Streams.next] at hnext
    split at hnext
    swap
    · contradiction
    obtain rfl := Option.some.inj hnext
    have hold : ∀ {j}, j ≠ s.count → (s.openOn o n).sessions j = s.sessions j :=
      fun hj => update_of_ne hj _ _
    constructor
    · intro o₁ i hi j y hij hy
      by_cases ho : o₁ = o
      · -- no stream comes after the new one
        subst ho
        rw [show (s.openOn o₁ n).current o₁ = some s.count from update_self ..] at hi
        obtain rfl := Option.some.inj hi
        rw [hold hij.ne'] at hy
        exact absurd (hinv.count j y hy) (Nat.lt_asymm hij)
      · have hi' : s.current o₁ = some i := (update_of_ne ho _ _).symm.trans hi
        by_cases hj : j = s.count
        · subst hj
          rw [show (s.openOn o n).sessions s.count = _ from update_self ..] at hy
          obtain rfl := Option.some.inj hy
          exact Ne.symm ho
        · exact hlatest o₁ i hi' j y hij ((hold hj).symm.trans hy)
    · have hnew : (s.openOn o n).acceptedIn o' s.count = [] := by
        unfold Store.acceptedIn
        rw [show (s.openOn o n).sessions s.count = _ from update_self ..]
        exact ite_self _
      show (List.range (s.count + 1)).flatMap _ = _ ++ []
      rw [List.range_succ, List.flatMap_append, List.flatMap_singleton, hnew]
      refine congrArg (· ++ []) (List.flatMap_congr fun j hj => ?_)
      unfold Store.acceptedIn
      rw [hold (List.mem_range.mp hj).ne]
  | accept o bytes pushed =>
    obtain ⟨k, x, hk, hx, rfl⟩ := Store.exists_of_map_stream hnext
    refine ⟨Store.latest_move hlatest hx ?_, Store.acceptedBy_move hinv hlatest hk hx ?_ ?_ o'⟩
    all_goals rfl
  | flush o | close o | lose o =>
    obtain ⟨k, x, hk, hx, rfl⟩ := Store.exists_of_map_stream hnext
    refine ⟨Store.latest_move hlatest hx ?_,
      (Store.acceptedBy_move_same hinv hlatest hk hx ?_ ?_ o').trans (List.append_nil _).symm⟩
    all_goals rfl

/-- **What a run adds** to what each owner gave: the bytes of its acts, in their order. -/
theorem acceptedBy_of_run {acts : List (Act ω α)} (hinv : s.Inv old) (hlatest : s.Latest)
    (h : run Streams.next (fun _ _ => true) s acts = some s') (o' : ω) :
    s'.Latest ∧ s'.acceptedBy o' = s.acceptedBy o' ++ acts.flatMap (Act.gives o') := by
  induction acts generalizing s with
  | nil =>
    obtain rfl := Option.some.inj h
    exact ⟨hlatest, (List.append_nil _).symm⟩
  | cons a acts ih =>
    rw [run, if_pos rfl] at h
    obtain ⟨s₁, hnext, hrun⟩ := Option.bind_eq_some_iff.mp h
    obtain ⟨hlatest₁, hadds⟩ := acceptedBy_of_next hinv.sound hlatest hnext o'
    obtain ⟨hlatest', hrest⟩ := ih (hinv.step hnext).2 hlatest₁ hrun
    exact ⟨hlatest', by rw [hrest, hadds, List.flatMap_cons, List.append_assoc]⟩

/-! ### What is lost -/

variable {lost : List (ω × List α)}

theorem Store.LostIn.move (h : s.LostIn lost) {k : ℕ} {x' : Session ω α} {sent : List α}
    (hnew : x'.fate = .lost → (x'.owner, x'.buffer) ∈ lost) :
    (s.move o k x' sent).LostIn lost := by
  intro j y hy
  rcases Store.sessions_move hy with ⟨-, rfl⟩ | ⟨-, hold⟩
  · exact hnew
  · exact h j y hold

omit [DecidableEq ω] in
/-- A stream that is open has not been lost. -/
theorem Store.Sound.not_lost (hinv : s.Sound) {k : ℕ} {x : Session ω α}
    (hk : s.current o = some k) (hx : s.sessions k = some x) : x.fate ≠ .lost := by
  obtain ⟨x₀, hx₀, -, hfate⟩ := hinv.current o k hk
  obtain rfl := Option.some.inj (hx.symm.trans hx₀)
  rw [hfate]
  decide

/-- Acts by which nothing is lost. -/
theorem lostIn_of_run {acts : List (Act ω α)} (hacts : ∀ a ∈ acts, a.Keeps) (hinv : s.Inv old)
    (hlost : s.LostIn lost) (h : run Streams.next (fun _ _ => true) s acts = some s') :
    s'.LostIn lost := by
  induction acts generalizing s with
  | nil => exact Option.some.inj h ▸ hlost
  | cons a acts ih =>
    rw [run, if_pos rfl] at h
    obtain ⟨s₁, hnext, hrun⟩ := Option.bind_eq_some_iff.mp h
    obtain ⟨ha, hacts⟩ := List.forall_mem_cons.mp hacts
    refine ih hacts (hinv.step hnext).2 ?_ hrun
    cases a with
    | create => exact Option.some.inj hnext ▸ hlost
    | openOn o n =>
      simp only [Streams.next] at hnext
      split at hnext
      swap
      · contradiction
      obtain rfl := Option.some.inj hnext
      intro j y hy
      by_cases hj : j = s.count
      · subst hj
        rw [show (s.openOn o n).sessions s.count = _ from update_self ..] at hy
        obtain rfl := Option.some.inj hy
        intro hfate
        contradiction
      · exact hlost j y ((update_of_ne hj _ _).symm.trans hy)
    | accept | flush =>
      obtain ⟨k, x, hk, hx, rfl⟩ := Store.exists_of_map_stream hnext
      have hopen := hinv.sound.not_lost hk hx
      exact hlost.move fun h => absurd h hopen
    | close =>
      obtain ⟨k, x, -, hx, rfl⟩ := Store.exists_of_map_stream hnext
      refine hlost.move fun hfate => ?_
      contradiction
    | lose => exact ha.elim

/-- **A stream loses what it holds back** but the first `pushed` bytes, and its owner goes on
with a new one. -/
theorem performs_lapse (hinv : s.Inv old) (h : s.holds o = some (n, buffer)) (pushed : ℕ) :
    ∃ s', Performs s o [.accept o [] pushed, .lose o, .openOn o n] (some (n, []))
        (update s.data n (s.data n ++ buffer.take pushed)) s.next s' ∧
      ∀ lost, s.LostIn lost → (o, buffer.drop pushed) ∈ lost → s'.LostIn lost := by
  obtain ⟨s₁, haccept⟩ := performs_accept hinv.sound h [] pushed
  rw [List.append_nil] at haccept
  have hinv₁ := haccept.inv hinv
  obtain ⟨s₂, hlose⟩ := performs_lose hinv₁.sound haccept.own
  have hinv₂ := hlose.inv hinv₁
  have hn : n < s₂.next := by
    obtain ⟨k, x, -, hx, rfl, -⟩ := Store.exists_stream h
    rw [hlose.next, haccept.next]
    exact hinv.sound.file k x hx
  obtain ⟨s', hopen⟩ := performs_openOn hinv₂.sound hlose.own hn
  have hall := haccept.append (hlose.append hopen)
  rw [hlose.data, hlose.next, haccept.data, haccept.next] at hall
  refine ⟨s', hall, fun lost hlost hmem => ?_⟩
  have hlost₁ := lostIn_of_run (by simp [Act.Keeps]) hinv hlost haccept.run
  refine lostIn_of_run (by simp [Act.Keeps]) hinv₂ ?_ hopen.run
  -- the stream that is lost holds back the rest
  obtain ⟨k, x, hk, hx, -, hbuffer⟩ := Store.exists_stream haccept.own
  obtain ⟨x₀, hx₀, howner, -⟩ := hinv₁.sound.current o k hk
  obtain rfl := Option.some.inj (hx.symm.trans hx₀)
  have hnext : Streams.next s₁ (.lose o) = some s₂ := by
    have hrun := hlose.run
    simp only [run, if_true] at hrun
    obtain ⟨s₃, hnext, hsame⟩ := Option.bind_eq_some_iff.mp hrun
    exact hnext.trans (congrArg some (Option.some.inj hsame))
  obtain rfl := Option.some.inj ((next_of_stream hk hx _).symm.trans hnext)
  refine hlost₁.move fun _ => ?_
  dsimp only
  rw [howner, hbuffer]
  exact hmem

end Streams
