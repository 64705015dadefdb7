import SpeckitLog.CrashHandler
import Mathlib.Data.Fintype.Defs

/-!
# The monitor threads of crash handlers

On Windows the `CrashHandler` that sets the static flag starts a monitor thread, and
the one whose destructor clears the flag stops its own.  These need not be the same
object: a handler without a monitor may clear the flag, and then nobody joins the
monitor of the other.

## Main definitions

* `Monitors.State`, `Monitors.next` — crash handlers that come and go, and their monitors.
* `Monitors.Joined` — every monitor is joined before its handler dies.
* `Monitors.InTurn`, `Monitors.NoForeignMonitor` — the orders in which that holds.

## Main results

* `Monitors.monitorsJoined` — every monitor is joined where no handler is destroyed while
  another one's monitor runs.
* `Monitors.not_monitorsJoined_overlap` — where the handler without a monitor goes first.
-/

namespace SpeckitLog
namespace Monitors

open Function Transition CrashHandler

/-! ### The model -/

/-- Where a `CrashHandler` is in its life. -/
inductive Phase
  | absent
  /-- The constructor: `initialized_.compare_exchange_strong(false, true)`. -/
  | initializeHandlers
  /-- `std::signal(sig, signalHandler)`. -/
  | signals
  /-- `stop_monitor_.store(false)`. -/
  | startMonitor
  /-- `monitor_thread_ = std::thread`. -/
  | thread
  | alive
  /-- The destructor: `initialized_.compare_exchange_strong(true, false)`. -/
  | cleanupHandlers
  /-- `std::signal(sig, SIG_DFL)`. -/
  | restore
  /-- `stop_monitor_.store(true)`. -/
  | stopMonitor
  /-- `monitor_thread_.join()`, when it is joinable. -/
  | join
  /-- The body of the destructor has ended. -/
  | ended
  deriving DecidableEq

/-- A constructor or a destructor runs. -/
def Phase.busy : Phase → Bool
  | .absent | .alive => false
  | _ => true

/-- The handler holds the flag, or is about to let go of it. -/
def Phase.owning : Phase → Bool
  | .signals | .startMonitor | .thread | .cleanupHandlers | .restore | .stopMonitor | .join => true
  | _ => false

theorem Phase.busy_of_owning {p : Phase} (h : p.owning = true) : p.busy = true := by
  cases p with
  | absent | alive => contradiction
  | _ => rfl

/-- A `CrashHandler`; its thread is joinable unless it is absent. -/
structure Object where
  phase : Phase
  /-- `stop_monitor_`. -/
  stop : Bool
  /-- `monitor_thread_`. -/
  monitor : MonitorPc
  deriving DecidableEq

/-- The crash handlers `ι` of a process, and what is static. -/
structure State (ι : Type*) where
  disposition : Signal → Disposition
  /-- `initialized_`. -/
  installed : Bool
  callbackSet : Bool
  flushRequested : Bool
  objects : ι → Object
  /-- A joinable `std::thread` was destroyed. -/
  terminated : Bool

variable {ι : Type*} [DecidableEq ι]

/-- Before the first handler. -/
def init (ι : Type*) : State ι where
  disposition _ := .default
  installed := false
  callbackSet := false
  flushRequested := false
  objects _ := ⟨.absent, false, .absent⟩
  terminated := false

/-- Handler `i` goes on as `o`. -/
def State.put (s : State ι) (i : ι) (o : Object) : State ι :=
  { s with objects := update s.objects i o }

/-- The next step of the constructor or the destructor of `i`. -/
def bodyNext (s : State ι) (i : ι) : Option (State ι) :=
  let o := s.objects i
  match o.phase with
  | .initializeHandlers =>
    some (if s.installed then s.put i { o with phase := .alive }
      else { s with installed := true }.put i { o with phase := .signals })
  | .signals =>
    some ({ s with disposition := fun _ => .handler }.put i { o with phase := .startMonitor })
  | .startMonitor => some (s.put i { o with phase := .thread, stop := false })
  | .thread => some (s.put i { o with phase := .alive, monitor := .testStop })
  | .cleanupHandlers =>
    some (if s.installed then { s with installed := false }.put i { o with phase := .restore }
      else s.put i { o with phase := .ended })
  | .restore =>
    some ({ s with disposition := fun _ => .default }.put i { o with phase := .stopMonitor })
  | .stopMonitor => some (s.put i { o with phase := .join, stop := true })
  | .join =>
    -- `join` returns when the thread has ended
    match o.monitor with
    | .absent => some (s.put i { o with phase := .ended })
    | .ended => some (s.put i { o with phase := .ended, monitor := .absent })
    | _ => none
  | .ended =>
    some { s.put i { o with phase := .absent } with terminated := decide (o.monitor ≠ .absent) }
  | .absent | .alive => none

/-- A step of the monitor of `i`. -/
def monitorNext (s : State ι) (i : ι) : Option (State ι) :=
  let o := s.objects i
  match o.monitor with
  | .testStop => some (s.put i { o with monitor := if o.stop then .ended else .exchange })
  | .exchange =>
    some ({ s with flushRequested := false }.put i
      { o with monitor := if s.flushRequested then .testCallback else .sleep })
  | .testCallback =>
    some (s.put i { o with monitor := if s.callbackSet then .callback else .sleep })
  | .callback => some (s.put i { o with monitor := .sleep })
  | .sleep => some (s.put i { o with monitor := .testStop })
  | .absent | .ended => none

/-- What happens in the process. -/
inductive Event (ι : Type*)
  /-- A constructor is entered. -/
  | construct (i : ι)
  /-- A destructor is entered. -/
  | destroy (i : ι)
  /-- The next step of a constructor or destructor. -/
  | body (i : ι)
  | monitor (i : ι)
  | setFlushCallback
  /-- A handled signal sets `flush_requested_`. -/
  | requestFlush

/-- One step; a process that has ended takes none. -/
def next (s : State ι) (e : Event ι) : Option (State ι) :=
  if s.terminated then none
  else
    match e with
    | .construct i =>
      if (s.objects i).phase = .absent then
        some (s.put i ⟨.initializeHandlers, false, .absent⟩) else none
    | .destroy i =>
      if (s.objects i).phase = .alive then
        some (s.put i { s.objects i with phase := .cleanupHandlers }) else none
    | .body i => bodyNext s i
    | .monitor i => monitorNext s i
    | .setFlushCallback => some { s with callbackSet := true }
    | .requestFlush => some { s with flushRequested := true }

/-! ### Monitors that are joined -/

/-- **Every monitor is joined**: when the body of a destructor has ended its thread is not
joinable, at most one monitor has been started and not joined, and the process goes on. -/
structure Joined (s : State ι) : Prop where
  ended : ∀ i, (s.objects i).phase = .ended → (s.objects i).monitor = .absent
  one : ∀ i j, (s.objects i).monitor ≠ .absent → (s.objects j).monitor ≠ .absent → i = j
  running : s.terminated = false

/-- Constructions and destructions come one after the other. -/
def InTurn (s : State ι) : Event ι → Prop
  | .construct _ | .destroy _ => ∀ j, (s.objects j).phase.busy = false
  | _ => True

/-- No handler is destroyed while the monitor of another one has not been joined. -/
def NoForeignMonitor (s : State ι) : Event ι → Prop
  | .destroy i => ∀ j, j ≠ i → (s.objects j).monitor = .absent
  | _ => True

/-- What the phase of a handler says of its monitor and of the flag. -/
def Fits (installed : Bool) (o : Object) : Prop :=
  match o.phase with
  | .absent | .initializeHandlers | .ended => o.monitor = .absent
  | .signals | .startMonitor | .thread => installed = true ∧ o.monitor = .absent
  | .alive | .cleanupHandlers => o.monitor ≠ .absent → installed = true
  | .restore | .stopMonitor | .join => True

/-- One constructor or destructor runs at a time, and one monitor. -/
structure Inv (s : State ι) : Prop where
  running : s.terminated = false
  body : ∀ i j, (s.objects i).phase.busy = true → (s.objects j).phase.busy = true → i = j
  one : ∀ i j, (s.objects i).monitor ≠ .absent → (s.objects j).monitor ≠ .absent → i = j
  fits : ∀ i, Fits s.installed (s.objects i)
  owner : ∀ i, (s.objects i).phase.owning = true →
    ∀ j, j ≠ i → (s.objects j).monitor = .absent

variable {s s' : State ι} {i : ι} {o : Object}

omit [DecidableEq ι] in
theorem inv_init : Inv (init ι) where
  running := rfl
  body _ _ h := absurd h Bool.false_ne_true
  one _ _ h := absurd rfl h
  fits _ := rfl
  owner _ _ _ _ := rfl

omit [DecidableEq ι] in
theorem joined_of_inv (h : Inv s) : Joined s where
  ended i hended := by
    have hfits := h.fits i
    unfold Fits at hfits
    rwa [hended] at hfits
  one := h.one
  running := h.running

omit [DecidableEq ι] in
/-- A monitor that has not been joined belongs to a handler that holds the flag, unless a
body runs. -/
theorem Inv.installed_of_idle (h : Inv s) (hmonitor : (s.objects i).monitor ≠ .absent)
    (hidle : (s.objects i).phase.busy = false) : s.installed = true := by
  have hfits := h.fits i
  unfold Fits at hfits
  cases hphase : (s.objects i).phase with
  | alive =>
    rw [hphase] at hfits
    exact hfits hmonitor
  | absent =>
    rw [hphase] at hfits
    exact absurd hfits hmonitor
  | _ =>
    rw [hphase] at hidle
    contradiction

/-- **A step of one handler** while no other body runs. -/
theorem Inv.step (h : Inv s) (hobjects : s'.objects = update s.objects i o)
    (hrunning : s'.terminated = false)
    (hothers : ∀ j, j ≠ i → (s.objects j).phase.busy = false)
    (hfits : Fits s'.installed o)
    (hflag : s'.installed = false →
      s.installed = false ∨ ∀ j, j ≠ i → (s.objects j).monitor = .absent)
    (hone : o.monitor ≠ .absent ∨ o.phase.owning = true →
      ∀ j, j ≠ i → (s.objects j).monitor = .absent) : Inv s' := by
  have hself : s'.objects i = o := by rw [hobjects, update_self]
  have hother : ∀ j, j ≠ i → s'.objects j = s.objects j := fun j hj => by
    rw [hobjects, update_of_ne hj]
  refine ⟨hrunning, fun j k hj hk => ?_, fun j k hj hk => ?_, fun j => ?_, fun j hj k hk => ?_⟩
  · -- only `i` can be busy
    have hbusy : ∀ l, (s'.objects l).phase.busy = true → l = i := by
      intro l hl
      by_contra hli
      rw [hother l hli, hothers l hli] at hl
      contradiction
    exact (hbusy j hj).trans (hbusy k hk).symm
  · by_cases hji : j = i
    · subst hji
      by_contra hjk
      rw [hself] at hj
      rw [hother k (Ne.symm hjk)] at hk
      exact hk (hone (Or.inl hj) k (Ne.symm hjk))
    · rw [hother j hji] at hj
      by_cases hki : k = i
      · subst hki
        rw [hself] at hk
        exact absurd (hone (Or.inl hk) j hji) hj
      · rw [hother k hki] at hk
        exact h.one j k hj hk
  · by_cases hji : j = i
    · rw [hji, hself]
      exact hfits
    · rw [hother j hji]
      have hfitsj := h.fits j
      have hidle := hothers j hji
      unfold Fits at hfitsj ⊢
      cases hphase : (s.objects j).phase with
      | absent =>
        rw [hphase] at hfitsj
        exact hfitsj
      | alive =>
        intro hmonitor
        by_contra hclear
        rcases hflag (by simpa using hclear) with hwas | hnone
        · rw [h.installed_of_idle hmonitor hidle] at hwas
          contradiction
        · exact hmonitor (hnone j hji)
      | _ =>
        rw [hphase] at hidle
        contradiction
  · by_cases hji : j = i
    · subst hji
      rw [hself] at hj
      rw [hother k hk]
      exact hone (Or.inr hj) k hk
    · rw [hother j hji] at hj
      have := Phase.busy_of_owning hj
      rw [hothers j hji] at this
      contradiction

omit [DecidableEq ι] in
/-- The phase and whether the thread is joinable are what matters. -/
theorem Fits.congr {installed : Bool} {o o' : Object} (h : Fits installed o)
    (hphase : o'.phase = o.phase) (hmonitor : o'.monitor = .absent ↔ o.monitor = .absent) :
    Fits installed o' := by
  unfold Fits at h ⊢
  rw [hphase]
  cases hp : o.phase with
  | absent | initializeHandlers | ended =>
    rw [hp] at h
    exact hmonitor.mpr h
  | signals | startMonitor | thread =>
    rw [hp] at h
    exact ⟨h.1, hmonitor.mpr h.2⟩
  | alive | cleanupHandlers =>
    rw [hp] at h
    exact fun hne => h fun habsent => hne (hmonitor.mpr habsent)
  | restore | stopMonitor | join => trivial

/-- A step of a monitor, which goes on or ends. -/
theorem Inv.monitor (h : Inv s) {m : MonitorPc} (hwas : (s.objects i).monitor ≠ .absent)
    (hm : m ≠ .absent)
    (hobjects : s'.objects = update s.objects i { s.objects i with monitor := m })
    (hinstalled : s'.installed = s.installed) (hrunning : s'.terminated = false) : Inv s' := by
  have hphase : ∀ j, (s'.objects j).phase = (s.objects j).phase := by
    intro j
    rw [hobjects]
    by_cases hji : j = i
    · rw [hji, update_self]
    · rw [update_of_ne hji]
  have hmonitor : ∀ j, (s'.objects j).monitor = .absent ↔ (s.objects j).monitor = .absent := by
    intro j
    rw [hobjects]
    by_cases hji : j = i
    · rw [hji, update_self]
      exact iff_of_false hm hwas
    · rw [update_of_ne hji]
  refine ⟨hrunning, fun j k hj hk => ?_, fun j k hj hk => ?_, fun j => ?_, fun j hj k hk => ?_⟩
  · rw [hphase] at hj hk
    exact h.body j k hj hk
  · exact h.one j k (fun habsent => hj ((hmonitor j).mpr habsent))
      fun habsent => hk ((hmonitor k).mpr habsent)
  · rw [hinstalled]
    exact (h.fits j).congr (hphase j) (hmonitor j)
  · rw [hphase] at hj
    exact (hmonitor k).mpr (h.owner j hj k hk)

theorem inv_monitorNext (h : Inv s) (hnext : monitorNext s i = some s') : Inv s' := by
  have hmove : ∀ {t : State ι} {m : MonitorPc},
      (s.objects i).monitor ≠ .absent → m ≠ .absent →
      t.objects = s.objects → t.installed = s.installed → t.terminated = s.terminated →
      Inv (t.put i { s.objects i with monitor := m }) := by
    intro t m hwas hm hobjects hinstalled hterminated
    refine h.monitor hwas hm ?_ hinstalled (hterminated.trans h.running)
    rw [← hobjects]
    rfl
  unfold monitorNext at hnext
  dsimp only at hnext
  split at hnext
  case h_1 hpc =>
    obtain rfl := Option.some.inj hnext
    exact hmove (by rw [hpc]; decide) (by split <;> decide) rfl rfl rfl
  case h_2 hpc =>
    obtain rfl := Option.some.inj hnext
    exact hmove (by rw [hpc]; decide) (by split <;> decide) rfl rfl rfl
  case h_3 hpc =>
    obtain rfl := Option.some.inj hnext
    exact hmove (by rw [hpc]; decide) (by split <;> decide) rfl rfl rfl
  case h_4 hpc =>
    obtain rfl := Option.some.inj hnext
    exact hmove (by rw [hpc]; decide) (by decide) rfl rfl rfl
  case h_5 hpc =>
    obtain rfl := Option.some.inj hnext
    exact hmove (by rw [hpc]; decide) (by decide) rfl rfl rfl
  case h_6 | h_7 => contradiction

/-- The next step of a constructor or destructor. -/
theorem inv_bodyNext (h : Inv s) (hnext : bodyNext s i = some s') : Inv s' := by
  have hfits := h.fits i
  have hothers : (s.objects i).phase.busy = true →
      ∀ j, j ≠ i → (s.objects j).phase.busy = false := by
    intro hbusy j hji
    by_contra hj
    exact hji (h.body j i (by simpa using hj) hbusy)
  have howner := h.owner i
  unfold Fits at hfits
  unfold bodyNext at hnext
  dsimp only at hnext
  split at hnext
  case h_1 hpc =>
    rw [hpc] at hfits hothers
    obtain rfl := Option.some.inj hnext
    split
    · next hflag =>
      refine h.step rfl h.running (hothers rfl) (fun _ => hflag) Or.inl ?_
      rintro (hm | hown)
      · exact absurd hfits hm
      · contradiction
    · next hflag =>
      -- the flag is clear, so no monitor is left
      refine h.step rfl h.running (hothers rfl) ⟨rfl, hfits⟩ (fun hclear =>
        absurd (show true = false from hclear) (by decide)) fun _ j hji => ?_
      by_contra hm
      exact hflag (h.installed_of_idle hm (hothers rfl j hji))
  case h_2 hpc =>
    rw [hpc] at hfits hothers howner
    obtain rfl := Option.some.inj hnext
    exact h.step rfl h.running (hothers rfl) hfits Or.inl fun _ => howner rfl
  case h_3 hpc =>
    rw [hpc] at hfits hothers howner
    obtain rfl := Option.some.inj hnext
    exact h.step rfl h.running (hothers rfl) hfits Or.inl fun _ => howner rfl
  case h_4 hpc =>
    rw [hpc] at hfits hothers howner
    obtain rfl := Option.some.inj hnext
    exact h.step rfl h.running (hothers rfl) (fun _ => hfits.1) Or.inl fun _ => howner rfl
  case h_5 hpc =>
    rw [hpc] at hfits hothers howner
    obtain rfl := Option.some.inj hnext
    split
    · exact h.step rfl h.running (hothers rfl) trivial (fun _ => Or.inr (howner rfl))
        fun _ => howner rfl
    · next hflag =>
      -- the flag is clear, so the handler has no monitor
      have habsent : (s.objects i).monitor = .absent := by
        by_contra hm
        exact hflag (hfits hm)
      exact h.step rfl h.running (hothers rfl) habsent Or.inl fun _ => howner rfl
  case h_6 hpc =>
    rw [hpc] at hothers howner
    obtain rfl := Option.some.inj hnext
    exact h.step rfl h.running (hothers rfl) trivial Or.inl fun _ => howner rfl
  case h_7 hpc =>
    rw [hpc] at hothers howner
    obtain rfl := Option.some.inj hnext
    exact h.step rfl h.running (hothers rfl) trivial Or.inl fun _ => howner rfl
  case h_8 hpc =>
    rw [hpc] at hothers howner
    split at hnext
    · next hm =>
      obtain rfl := Option.some.inj hnext
      exact h.step rfl h.running (hothers rfl) hm Or.inl fun _ => howner rfl
    · obtain rfl := Option.some.inj hnext
      exact h.step rfl h.running (hothers rfl) rfl Or.inl fun _ => howner rfl
    · contradiction
  case h_9 hpc =>
    rw [hpc] at hfits hothers
    obtain rfl := Option.some.inj hnext
    refine h.step rfl (decide_eq_false (not_not.mpr hfits)) (hothers rfl) hfits Or.inl ?_
    rintro (hm | hown)
    · exact absurd hfits hm
    · contradiction
  case h_10 | h_11 => contradiction

/-- **Every step keeps the invariant** where no handler is destroyed while the monitor of
another one has not been joined. -/
theorem inv_next {e : Event ι} (h : Inv s) (hturn : InTurn s e) (hforeign : NoForeignMonitor s e)
    (hnext : next s e = some s') : Inv s' := by
  unfold next at hnext
  split at hnext
  · contradiction
  cases e with
  | construct i =>
    dsimp only at hnext
    split at hnext
    · obtain rfl := Option.some.inj hnext
      refine h.step rfl h.running (fun j _ => hturn j) rfl Or.inl ?_
      rintro (hm | hown)
      · exact absurd rfl hm
      · contradiction
    · contradiction
  | destroy i =>
    dsimp only at hnext
    split at hnext
    · next halive =>
      have hfits := h.fits i
      unfold Fits at hfits
      rw [halive] at hfits
      obtain rfl := Option.some.inj hnext
      exact h.step rfl h.running (fun j _ => hturn j) hfits Or.inl fun _ => hforeign
    · contradiction
  | body i => exact inv_bodyNext h hnext
  | monitor i => exact inv_monitorNext h hnext
  | setFlushCallback =>
    obtain rfl := Option.some.inj hnext
    exact ⟨h.running, h.body, h.one, h.fits, h.owner⟩
  | requestFlush =>
    obtain rfl := Option.some.inj hnext
    exact ⟨h.running, h.body, h.one, h.fits, h.owner⟩

/-- **Every monitor is joined** in runs in which no handler is destroyed while the monitor
of another one has not been joined. -/
theorem monitorsJoined
    (hs : Reachable next (fun s e => InTurn s e ∧ NoForeignMonitor s e) (init ι) s) : Joined s :=
  joined_of_inv (hs.invariant inv_init fun _ _ _ _ h hok hnext => inv_next h hok.1 hok.2 hnext)

/-! ### Two handlers -/

instance [Fintype ι] (s : State ι) (e : Event ι) : Decidable (InTurn s e) :=
  match e with
  | .construct _ => inferInstanceAs (Decidable (∀ j, (s.objects j).phase.busy = false))
  | .destroy _ => inferInstanceAs (Decidable (∀ j, (s.objects j).phase.busy = false))
  | .body _ => isTrue trivial
  | .monitor _ => isTrue trivial
  | .setFlushCallback => isTrue trivial
  | .requestFlush => isTrue trivial

instance [Fintype ι] (s : State ι) (e : Event ι) : Decidable (NoForeignMonitor s e) :=
  match e with
  | .destroy i => inferInstanceAs (Decidable (∀ j, j ≠ i → (s.objects j).monitor = .absent))
  | .construct _ => isTrue trivial
  | .body _ => isTrue trivial
  | .monitor _ => isTrue trivial
  | .setFlushCallback => isTrue trivial
  | .requestFlush => isTrue trivial

/-- A handler that starts a monitor. -/
def constructing (i : Bool) : List (Event Bool) := .construct i :: List.replicate 4 (.body i)

/-- Two handlers, the one with the monitor destroyed first. -/
theorem monitorsJoined_in_order :
    ∃ s, (Reachable next (fun s e => InTurn s e ∧ NoForeignMonitor s e) (init Bool) s ∧
      (s.objects true).phase = .ended) ∧ Joined s := by
  obtain ⟨s, hs, hended⟩ := exists_reachable_of_decide next (init Bool)
    (fun s => (s.objects true).phase = .ended) (fun s e => InTurn s e ∧ NoForeignMonitor s e)
    (constructing true ++ [.construct false, .body false, .destroy true, .body true, .body true,
      .body true, .monitor true, .body true]) (by decide +kernel)
  exact ⟨s, ⟨hs, hended⟩, monitorsJoined hs⟩

/-- **The handler without a monitor is destroyed first**: it clears the flag, and the
destructor of the other one leaves its monitor running. -/
theorem not_monitorsJoined_overlap :
    ¬ ∀ s : State Bool, Reachable next InTurn (init Bool) s → Joined s := by
  intro h
  obtain ⟨s, hs, hended, hmonitor⟩ := exists_reachable_of_decide next (init Bool)
    (fun s => (s.objects true).phase = .ended ∧ (s.objects true).monitor = .testStop) InTurn
    (constructing true ++ [.construct false, .body false, .destroy false, .body false,
      .body false, .body false, .body false, .body false, .destroy true, .body true])
    (by decide +kernel)
  have := (h s hs).ended true hended
  rw [hmonitor] at this
  contradiction

end Monitors
end SpeckitLog
