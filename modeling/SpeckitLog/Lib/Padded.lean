import SpeckitLog.Lib.Text
import Mathlib.Data.List.Forall2

/-!
# Numbers of a fixed width

A number that fits a width is padded to exactly that many digits.  Texts of such
numbers can be read back place by place, and are ordered as the numbers are.

## Main definitions

* `joinPadded layout ns` — the numbers, each padded to its width and followed by its
  separator.
* `patternOf`, `readJoined` — the shape of such a text, and its numbers.

## Main results

* `matches_joinPadded`, `readJoined_joinPadded`, `joinPadded_lt` — its shape, its
  numbers and its place in the order of texts.
-/

namespace Text

/-! ### Digits and their value -/

theorem toNat_of_isDigit {c : Char} (h : c.isDigit = true) : 48 ≤ c.toNat ∧ c.toNat ≤ 57 :=
  Char.isDigit_iff_toNat.mp h

theorem ofDigitChars_cons (c : Char) (t : Text) :
    Nat.ofDigitChars 10 (c :: t) 0 = 10 ^ t.length * (c.toNat - 48) + Nat.ofDigitChars 10 t 0 := by
  rw [Nat.ofDigitChars_cons, Nat.ofDigitChars_eq_ofDigitChars_zero, Nat.mul_zero, Nat.zero_add]
  rfl

theorem ofDigitChars_lt {t : Text} (h : ∀ c ∈ t, c.isDigit = true) :
    Nat.ofDigitChars 10 t 0 < 10 ^ t.length := by
  induction t with
  | nil => decide
  | cons c t ih =>
    have hc := toNat_of_isDigit (h c List.mem_cons_self)
    have ht := ih fun d hd => h d (List.mem_cons_of_mem _ hd)
    have hle : 10 ^ t.length * (c.toNat - 48) ≤ 10 ^ t.length * 9 :=
      Nat.mul_le_mul_left _ (by omega)
    rw [ofDigitChars_cons, List.length_cons, Nat.pow_succ]
    omega

/-- **Digit strings of one length** are ordered as their values are. -/
theorem lt_of_ofDigitChars_lt {s t : Text} (hs : ∀ c ∈ s, c.isDigit = true)
    (ht : ∀ c ∈ t, c.isDigit = true) (hlen : s.length = t.length)
    (h : Nat.ofDigitChars 10 s 0 < Nat.ofDigitChars 10 t 0) : s < t := by
  induction s generalizing t with
  | nil =>
    cases t with
    | nil => exact absurd h (lt_irrefl _)
    | cons d t => exact absurd hlen.symm (Nat.succ_ne_zero _)
  | cons c s ih =>
    cases t with
    | nil => exact absurd hlen (Nat.succ_ne_zero _)
    | cons d t =>
      have hc := toNat_of_isDigit (hs c List.mem_cons_self)
      have hd := toNat_of_isDigit (ht d List.mem_cons_self)
      have hs' : ∀ c ∈ s, c.isDigit = true := fun e he => hs e (List.mem_cons_of_mem _ he)
      have ht' : ∀ c ∈ t, c.isDigit = true := fun e he => ht e (List.mem_cons_of_mem _ he)
      have hlen' : s.length = t.length := Nat.succ.inj hlen
      rw [ofDigitChars_cons, ofDigitChars_cons, hlen'] at h
      rw [List.cons_lt_cons_iff]
      rcases lt_trichotomy c.toNat d.toNat with hlt | heq | hgt
      · exact Or.inl hlt
      · have hcd : c = d := Char.toNat_inj.mp heq
        rw [heq] at h
        exact Or.inr ⟨hcd, ih hs' ht' hlen' (by omega)⟩
      · have hbound := ofDigitChars_lt ht'
        have hle : 10 ^ t.length * (d.toNat - 48) + 10 ^ t.length ≤
            10 ^ t.length * (c.toNat - 48) := by
          rw [← Nat.mul_succ]
          exact Nat.mul_le_mul_left _ (by omega)
        omega

/-- Texts that differ where both have characters are ordered there. -/
theorem append_lt_append {s t : Text} (hlen : s.length = t.length) (h : s < t) (u v : Text) :
    s ++ u < t ++ v := by
  induction s generalizing t with
  | nil =>
    cases t with
    | nil => exact absurd h (by simp)
    | cons d t => contradiction
  | cons c s ih =>
    cases t with
    | nil => contradiction
    | cons d t =>
      rw [List.cons_lt_cons_iff] at h
      rw [List.cons_append, List.cons_append, List.cons_lt_cons_iff]
      exact h.imp id fun ⟨hcd, hst⟩ => ⟨hcd, ih (Nat.succ.inj hlen) hst⟩

/-! ### One number -/

/-- The number fits the width. -/
def Fits (width : ℕ) (n : ℤ) : Prop := 0 ≤ n ∧ n < 10 ^ width

/-- The digits of a number with zeros before them. -/
theorem padded_of_fits {width : ℕ} {n : ℤ} (h : Fits width n) :
    padded width n = (Nat.toDigits 10 n.natAbs).leftpad width '0' := by
  rw [padded, if_neg (by have := h.1; omega)]

theorem natAbs_lt {width : ℕ} {n : ℤ} (h : Fits width n) : n.natAbs < 10 ^ width := by
  have hlt := h.2
  rw [← Int.natAbs_of_nonneg h.1] at hlt
  exact_mod_cast hlt

theorem mem_leftpad {width k : ℕ} {c : Char} (h : c ∈ (Nat.toDigits 10 k).leftpad width '0') :
    c.isDigit = true := by
  rw [List.leftpad, List.mem_append, List.mem_replicate] at h
  rcases h with ⟨-, rfl⟩ | hc
  · decide
  · exact Nat.isDigit_of_mem_toDigits (by decide) (by decide) hc

/-- The characters of a padded number. -/
theorem mem_padded {width : ℕ} {n : ℤ} {c : Char} (h : c ∈ padded width n) :
    c = '-' ∨ c.isDigit = true := by
  unfold padded at h
  split at h
  · rcases List.mem_cons.mp h with hc | hc
    · exact Or.inl hc
    · exact Or.inr (mem_leftpad hc)
  · exact Or.inr (mem_leftpad h)

theorem isDigit_of_mem_padded {width : ℕ} {n : ℤ} (h : Fits width n) :
    ∀ c ∈ padded width n, c.isDigit = true := fun _ hc =>
  mem_leftpad (padded_of_fits h ▸ hc)

theorem length_padded {width : ℕ} {n : ℤ} (hwidth : 0 < width) (h : Fits width n) :
    (padded width n).length = width := by
  have hlen := (Nat.length_toDigits_le_iff (by decide : 1 < 10) hwidth).mpr (natAbs_lt h)
  rw [padded_of_fits h, List.leftpad, List.length_append, List.length_replicate]
  omega

theorem ofDigitChars_padded {width : ℕ} {n : ℤ} (h : Fits width n) :
    (Nat.ofDigitChars 10 (padded width n) 0 : ℤ) = n := by
  have hvalue : Nat.ofDigitChars 10 (padded width n) 0 = n.natAbs := by
    rw [padded_of_fits h, List.leftpad, Nat.ofDigitChars_append, Nat.ofDigitChars_replicate_zero,
      Nat.mul_zero, Nat.ofDigitChars_ten_toDigits]
  rw [hvalue, Int.natAbs_of_nonneg h.1]

/-- **Padded numbers are ordered as numbers.** -/
theorem padded_lt {width : ℕ} (hwidth : 0 < width) {m n : ℤ} (hm : Fits width m)
    (hn : Fits width n) (h : m < n) : padded width m < padded width n := by
  refine lt_of_ofDigitChars_lt (isDigit_of_mem_padded hm) (isDigit_of_mem_padded hn)
    ((length_padded hwidth hm).trans (length_padded hwidth hn).symm) ?_
  have hvalue := ofDigitChars_padded hm
  have hvalue' := ofDigitChars_padded hn
  omega

/-! ### Several numbers -/

/-- Widths, each with the character behind the number. -/
abbrev Layout := List (ℕ × Char)

/-- The numbers in their widths, with their separators. -/
def joinPadded : Layout → List ℤ → Text
  | (width, c) :: layout, n :: ns => padded width n ++ c :: joinPadded layout ns
  | _, _ => []

/-- A zero for each digit, and the separators. -/
def patternOf : Layout → Text
  | (width, c) :: layout => List.replicate width '0' ++ c :: patternOf layout
  | [] => []

/-- The numbers at the places of a layout. -/
def readJoined : Layout → Text → List ℤ
  | (width, _) :: layout, t =>
    (Nat.ofDigitChars 10 (t.take width) 0 : ℤ) :: readJoined layout (t.drop (width + 1))
  | [], _ => []

/-- A digit where the pattern has a zero, and its other characters as they are. -/
def Matches (pattern t : Text) : Prop :=
  List.Forall₂ (fun p c => if p = '0' then c.isDigit = true else c = p) pattern t

/-- Each number fits its width, which is not zero. -/
def AllFit (layout : Layout) (ns : List ℤ) : Prop :=
  List.Forall₂ (fun place n => 0 < place.1 ∧ Fits place.1 n) layout ns

theorem Matches.append {p p' t t' : Text} (h : Matches p t) (h' : Matches p' t') :
    Matches (p ++ p') (t ++ t') := List.rel_append h h'

/-- Digits match as many zeros. -/
theorem matches_digits {t : Text} (h : ∀ c ∈ t, c.isDigit = true) :
    Matches (List.replicate t.length '0') t := by
  induction t with
  | nil => exact .nil
  | cons c t ih =>
    refine .cons ?_ (ih fun d hd => h d (List.mem_cons_of_mem _ hd))
    rw [if_pos rfl]
    exact h c List.mem_cons_self

theorem matches_padded {width : ℕ} {n : ℤ} (hwidth : 0 < width) (h : Fits width n) :
    Matches (List.replicate width '0') (padded width n) := by
  have hmatch := matches_digits (isDigit_of_mem_padded h)
  rwa [length_padded hwidth h] at hmatch

/-- **The shape.** -/
theorem matches_joinPadded {layout : Layout} (hlayout : ∀ place ∈ layout, place.2 ≠ '0')
    {ns : List ℤ} (h : AllFit layout ns) : Matches (patternOf layout) (joinPadded layout ns) := by
  induction h with
  | nil => exact .nil
  | @cons place n layout ns hplace _ ih =>
    have hrest := ih fun q hq => hlayout q (List.mem_cons_of_mem _ hq)
    refine (matches_padded hplace.1 hplace.2).append (.cons ?_ hrest)
    rw [if_neg (hlayout place List.mem_cons_self)]

/-- **The numbers are read back**, whatever follows. -/
theorem readJoined_joinPadded {layout : Layout} {ns : List ℤ} (h : AllFit layout ns) (t : Text) :
    readJoined layout (joinPadded layout ns ++ t) = ns := by
  induction h with
  | nil => rfl
  | @cons place n layout ns hplace _ ih =>
    have hlen := length_padded hplace.1 hplace.2
    have htake : (padded place.1 n ++ place.2 :: (joinPadded layout ns ++ t)).take place.1 =
        padded place.1 n := List.take_left' hlen
    have hdrop : (padded place.1 n ++ place.2 :: (joinPadded layout ns ++ t)).drop (place.1 + 1) =
        joinPadded layout ns ++ t := by
      rw [← List.singleton_append, ← List.append_assoc, List.drop_left' (by simp [hlen])]
    rw [joinPadded, List.append_assoc, List.cons_append, readJoined, htake, hdrop, ih,
      ofDigitChars_padded hplace.2]

/-- **The order of texts is the order of the numbers**, whatever follows. -/
theorem joinPadded_lt {layout : Layout} {ms ns : List ℤ} (hms : AllFit layout ms)
    (hns : AllFit layout ns) (h : ms < ns) (s t : Text) :
    joinPadded layout ms ++ s < joinPadded layout ns ++ t := by
  induction hms generalizing ns with
  | nil =>
    cases hns with
    | nil => exact absurd h (by simp)
  | @cons place m layout ms hplace _ ih =>
    cases hns with
    | @cons _ n _ ns hplace' hrest' =>
      have hlen := (length_padded hplace.1 hplace.2).trans (length_padded hplace.1 hplace'.2).symm
      rw [joinPadded, joinPadded, List.append_assoc, List.append_assoc]
      rcases List.cons_lt_cons_iff.mp h with hlt | ⟨rfl, hlt⟩
      · exact append_lt_append hlen (padded_lt hplace.1 hplace.2 hplace'.2 hlt) _ _
      · refine List.append_left_lt ?_
        rw [List.cons_append, List.cons_append, List.cons_lt_cons_iff]
        exact Or.inr ⟨rfl, ih hrest' hlt⟩

end Text
