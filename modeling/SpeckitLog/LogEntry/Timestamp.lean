import SpeckitLog.LogEntry
import SpeckitLog.Lib.Padded

/-!
# The timestamps of records

`formatLogEntry` divides the milliseconds since 1970 into seconds and a rest, converts
the seconds to local time and prints both.  Division of C++ rounds toward zero, so
the rest of an instant before 1970 is negative.

## Main definitions

* `Calendar` — what is assumed of the conversion to local time.
* `Faithful` — a timestamp has the shape that is documented, and says its instant.

## Main results

* `faithfulPair_iff` — when timestamps are faithful, and sorted as their instants.
-/

namespace SpeckitLog

open Text

/-- `YYYY-MM-DD HH:MM:SS.` -/
def timestampLayout : Layout := [(4, '-'), (2, '-'), (2, ' '), (2, ':'), (2, ':'), (2, '.')]

namespace Tm

/-- The numbers that are printed. -/
def printed (tm : Tm) : List ℤ :=
  [tm.year + 1900, tm.mon + 1, tm.mday, tm.hour, tm.min, tm.sec]

/-- The ranges of the fields of `std::tm`, for the years that have four digits. -/
structure InRange (tm : Tm) : Prop where
  year : 0 ≤ tm.year + 1900 ∧ tm.year + 1900 ≤ 9999
  mon : 0 ≤ tm.mon ∧ tm.mon ≤ 11
  mday : 1 ≤ tm.mday ∧ tm.mday ≤ 31
  hour : 0 ≤ tm.hour ∧ tm.hour ≤ 23
  min : 0 ≤ tm.min ∧ tm.min ≤ 59
  sec : 0 ≤ tm.sec ∧ tm.sec ≤ 60

theorem InRange.allFit {tm : Tm} (h : tm.InRange) : AllFit timestampLayout tm.printed := by
  obtain ⟨hyear, hmon, hmday, hhour, hmin, hsec⟩ := h
  have hfit : ∀ {w : ℕ} {c : Char} {n : ℤ}, 0 < w → 0 ≤ n → n < 10 ^ w →
      0 < (w, c).1 ∧ Fits (w, c).1 n := fun hw hn hlt => ⟨hw, hn, hlt⟩
  exact .cons (hfit (by decide) (by omega) (by omega)) <|
    .cons (hfit (by decide) (by omega) (by omega)) <|
    .cons (hfit (by decide) (by omega) (by omega)) <|
    .cons (hfit (by decide) (by omega) (by omega)) <|
    .cons (hfit (by decide) (by omega) (by omega)) <|
    .cons (hfit (by decide) (by omega) (by omega)) .nil

end Tm

/-- The conversion of the covered seconds to local time: every field is in its range, and a
later second has later fields, the year first. -/
structure Calendar (localtime : ℤ → Tm) (covered : ℤ → Prop) : Prop where
  inRange : ∀ s, covered s → (localtime s).InRange
  mono : ∀ s s', covered s → covered s' → s < s' → (localtime s).printed < (localtime s').printed

theorem Calendar.injective {localtime : ℤ → Tm} {covered : ℤ → Prop}
    (h : Calendar localtime covered) {s s' : ℤ} (hs : covered s) (hs' : covered s')
    (heq : (localtime s).printed = (localtime s').printed) : s = s' := by
  rcases lt_trichotomy s s' with hlt | heq' | hgt
  · exact absurd (heq ▸ h.mono s s' hs hs' hlt) (List.lt_irrefl _)
  · exact heq'
  · exact absurd (heq ▸ h.mono s' s hs' hs hgt) (List.lt_irrefl _)

theorem formatTimestamp_eq (localtime : ℤ → Tm) (ms : ℤ) :
    formatTimestamp localtime ms =
      joinPadded timestampLayout (localtime (ms.tdiv 1000)).printed ++ padded 3 (ms.tmod 1000) := by
  simp [formatTimestamp, timestampLayout, Tm.printed, joinPadded]

/-! ### What a timestamp says -/

/-- The shape `YYYY-MM-DD HH:MM:SS.mmm`: a digit for each zero. -/
def HasShape (t : Text) : Prop := Matches "0000-00-00 00:00:00.000".toList t

/-- The milliseconds at the end of a timestamp. -/
def readMilliseconds (t : Text) : ℤ := Nat.ofDigitChars 10 (t.drop 20) 0

/-- The timestamp has its shape, and says the instant `ms`. -/
structure Faithful (localtime : ℤ → Tm) (covered : ℤ → Prop) (ms : ℤ) : Prop where
  shape : HasShape (formatTimestamp localtime ms)
  /-- The fields are those of a second. -/
  second : ∃ s, covered s ∧
    readJoined timestampLayout (formatTimestamp localtime ms) = (localtime s).printed
  /-- The second and the milliseconds are the instant. -/
  instant : ∀ s, covered s →
    readJoined timestampLayout (formatTimestamp localtime ms) = (localtime s).printed →
    s * 1000 + readMilliseconds (formatTimestamp localtime ms) = ms

/-- The division of C++ loses no instant: it is not before 1970, or has no milliseconds. -/
def Exact (ms : ℤ) : Prop := 0 ≤ ms ∨ 1000 ∣ ms

theorem tdiv_of_exact {ms : ℤ} (h : Exact ms) :
    ms.tdiv 1000 = ms / 1000 ∧ ms.tmod 1000 = ms % 1000 := by
  unfold Exact at h
  rw [Int.tdiv_eq_ediv, Int.tmod_eq_emod, if_pos h, if_pos h]
  omega

/-- The milliseconds of any other instant are negative. -/
theorem tmod_of_not_exact {ms : ℤ} (h : ¬ Exact ms) : -999 ≤ ms.tmod 1000 ∧ ms.tmod 1000 < 0 := by
  have hrange := Int.emod_lt_of_pos ms (show (0 : ℤ) < 1000 by decide)
  have hpos : ms % 1000 ≠ 0 := fun hzero => h (Or.inr (Int.dvd_of_emod_eq_zero hzero))
  have hnonneg := Int.emod_nonneg ms (show (1000 : ℤ) ≠ 0 by decide)
  unfold Exact at h
  rw [Int.tmod_eq_emod, if_neg h]
  omega

theorem fits_milliseconds (ms : ℤ) : Fits 3 (ms % 1000) := by
  unfold Fits
  omega

variable {localtime : ℤ → Tm} {covered : ℤ → Prop}

/-- The timestamp of an exact instant. -/
theorem formatTimestamp_of_exact {ms : ℤ} (h : Exact ms) :
    formatTimestamp localtime ms =
      joinPadded timestampLayout (localtime (ms / 1000)).printed ++ padded 3 (ms % 1000) := by
  rw [formatTimestamp_eq, (tdiv_of_exact h).1, (tdiv_of_exact h).2]

theorem faithful_of_exact (hcal : Calendar localtime covered) {ms : ℤ} (hms : covered (ms / 1000))
    (h : Exact ms) : Faithful localtime covered ms := by
  have hfit := (hcal.inRange _ hms).allFit
  have hmatch := matches_joinPadded (by decide) hfit
  have hread : readJoined timestampLayout (formatTimestamp localtime ms) =
      (localtime (ms / 1000)).printed := by
    rw [formatTimestamp_of_exact h, readJoined_joinPadded hfit]
  have hlen : (joinPadded timestampLayout (localtime (ms / 1000)).printed).length = 20 :=
    hmatch.length_eq.symm
  have hms' : readMilliseconds (formatTimestamp localtime ms) = ms % 1000 := by
    rw [readMilliseconds, formatTimestamp_of_exact h, List.drop_left' hlen]
    exact ofDigitChars_padded (fits_milliseconds ms)
  refine ⟨?_, ⟨_, hms, hread⟩, fun s hs hsame => ?_⟩
  · rw [formatTimestamp_of_exact h]
    exact hmatch.append (matches_padded (by decide) (fits_milliseconds ms))
  · obtain rfl : s = ms / 1000 := hcal.injective hs hms (hsame.symm.trans hread)
    rw [hms']
    omega

/-- How negative milliseconds are printed. -/
theorem padded_of_neg {n : ℤ} (hlow : -999 ≤ n) (hneg : n < 0) :
    ∃ rest : Text, padded 3 n = '-' :: rest ∧ (rest.length = 2 ∨ rest.length = 3) := by
  refine ⟨_, by rw [padded, if_pos hneg], ?_⟩
  have hlen := (Nat.length_toDigits_le_iff (by decide : 1 < 10) (by decide : 0 < 3)).mpr
    (show n.natAbs < 10 ^ 3 by omega)
  rw [List.leftpad, List.length_append, List.length_replicate]
  omega

/-- **Negative milliseconds** bring a sign into the timestamp, where a digit or the point
belongs. -/
theorem exact_of_hasShape {ms : ℤ} (h : HasShape (formatTimestamp localtime ms)) : Exact ms := by
  by_contra hexact
  obtain ⟨hlow, hneg⟩ := tmod_of_not_exact hexact
  obtain ⟨rest, hrest, hlen⟩ := padded_of_neg hlow hneg
  rw [formatTimestamp_eq, hrest] at h
  -- the sign is the third or the fourth character from the end
  have htotal := h.length_eq
  rw [List.length_append, List.length_cons, String.length_toList] at htotal
  have hsign := List.forall₂_drop (joinPadded timestampLayout
    (localtime (ms.tdiv 1000)).printed).length h
  rw [List.drop_left] at hsign
  have hplace : (joinPadded timestampLayout (localtime (ms.tdiv 1000)).printed).length = 20 ∨
      (joinPadded timestampLayout (localtime (ms.tdiv 1000)).printed).length = 19 := by
    rw [show "0000-00-00 00:00:00.000".length = 23 by decide] at htotal
    omega
  rcases hplace with hplace | hplace
  · rw [hplace] at hsign
    cases hsign with
    | cons hhead _ => exact absurd hhead (by decide)
  · rw [hplace] at hsign
    cases hsign with
    | cons hhead _ => exact absurd hhead (by decide)

/-- **When a timestamp is faithful.** -/
theorem faithful_iff_exact (hcal : Calendar localtime covered) {ms : ℤ}
    (hms : covered (ms / 1000)) : Faithful localtime covered ms ↔ Exact ms :=
  ⟨fun h => exact_of_hasShape h.shape, faithful_of_exact hcal hms⟩

/-! ### The order of timestamps -/

/-- **Later instants have later timestamps.** -/
theorem formatTimestamp_lt (hcal : Calendar localtime covered) {a b : ℤ} (ha : covered (a / 1000))
    (hb : covered (b / 1000)) (hexact : Exact a) (hexact' : Exact b) (hlt : a < b) :
    formatTimestamp localtime a < formatTimestamp localtime b := by
  rw [formatTimestamp_of_exact hexact, formatTimestamp_of_exact hexact']
  rcases lt_or_eq_of_le (show a / 1000 ≤ b / 1000 by omega) with hsec | hsec
  · exact joinPadded_lt (hcal.inRange _ ha).allFit (hcal.inRange _ hb).allFit
      (hcal.mono _ _ ha hb hsec) _ _
  · rw [hsec]
    exact List.append_left_lt
      (padded_lt (by decide) (fits_milliseconds a) (fits_milliseconds b) (by omega))

/-- Two timestamps are faithful, and sorted as their instants. -/
structure FaithfulPair (localtime : ℤ → Tm) (covered : ℤ → Prop) (a b : ℤ) : Prop where
  first : Faithful localtime covered a
  second : Faithful localtime covered b
  sorted : a < b → formatTimestamp localtime a < formatTimestamp localtime b

/-- **When timestamps are faithful and sorted.** -/
theorem faithfulPair_iff (hcal : Calendar localtime covered) {a b : ℤ} (ha : covered (a / 1000))
    (hb : covered (b / 1000)) : FaithfulPair localtime covered a b ↔ Exact a ∧ Exact b := by
  rw [← faithful_iff_exact hcal ha, ← faithful_iff_exact hcal hb]
  constructor
  · exact fun h => ⟨h.first, h.second⟩
  · rintro ⟨hfirst, hsecond⟩
    exact ⟨hfirst, hsecond, formatTimestamp_lt hcal ha hb (exact_of_hasShape hfirst.shape)
      (exact_of_hasShape hsecond.shape)⟩

/-! ### The minutes around the start of 1970 -/

/-- The conversion to UTC, in the last minute of 1969 and the first of 1970. -/
def utcAroundEpoch (s : ℤ) : Tm :=
  if s < 0 then ⟨69, 11, 31, 23, 59, s + 60⟩ else ⟨70, 0, 1, 0, 0, s⟩

/-- The seconds of both minutes. -/
def AroundEpoch (s : ℤ) : Prop := -60 ≤ s ∧ s < 60

theorem calendar_aroundEpoch : Calendar utcAroundEpoch AroundEpoch where
  inRange s hs := by
    obtain ⟨hlow, hhigh⟩ := hs
    unfold utcAroundEpoch
    split <;> constructor <;> dsimp only <;> omega
  mono s s' hs hs' hlt := by
    unfold utcAroundEpoch
    split
    · split
      · simpa [Tm.printed, List.cons_lt_cons_iff] using hlt
      · simp [Tm.printed, List.cons_lt_cons_iff]
    · rw [if_neg (by omega)]
      simpa [Tm.printed, List.cons_lt_cons_iff] using hlt

theorem faithfulPair_iff_next_second :
    FaithfulPair utcAroundEpoch AroundEpoch 999 1000 :=
  (faithfulPair_iff calendar_aroundEpoch (by unfold AroundEpoch; decide)
    (by unfold AroundEpoch; decide)).mpr ⟨Or.inl (by decide), Or.inl (by decide)⟩

/-- **The last millisecond of 1969** is printed with a sign. -/
theorem not_faithfulPair_before_epoch :
    ¬ ∀ (localtime : ℤ → Tm) (covered : ℤ → Prop), Calendar localtime covered →
      ∀ a b : ℤ, covered (a / 1000) → covered (b / 1000) →
        FaithfulPair localtime covered a b := by
  intro h
  have hfaithful := (h utcAroundEpoch AroundEpoch calendar_aroundEpoch (-1) 0
    (by unfold AroundEpoch; decide) (by unfold AroundEpoch; decide)).first
  have hexact := exact_of_hasShape hfaithful.shape
  exact absurd hexact (by unfold Exact; decide)

example : formatTimestamp utcAroundEpoch (-1) = "1970-01-01 00:00:00.-01".toList := by
  decide +kernel

end SpeckitLog
