import SpeckitLog.Lib.Text
import Mathlib.Data.List.Infix

/-!
# What searches find

Rules for the searches of texts.  A first occurrence is described by the text up to
it, a last occurrence by the text behind it; what `stoi` reads is described by the
shape of the text.

## Main definitions

* `unlines`, `lineCount` — texts of lines.
* `Digits` — digit strings, with their values.
* `Reads` — the texts that `stoi` reads as a number.

## Main results

* `find_eq_iff`, `find_eq_npos` — first occurrences.
* `append_pattern_inj`, `unlines_inj` — texts that split in one way.
* `findLastOf_append` — last occurrences.
* `stoi_eq_some` — what `stoi` reads.
-/

namespace Text

/-! ### First occurrences -/

theorem firstIndex_eq_some {pattern : Text} (hpattern : pattern ≠ []) {t : Text} {n : ℕ} :
    firstIndex pattern t = some n ↔
      pattern <+: t.drop n ∧ ¬ pattern <:+: t.take (n + pattern.length - 1) := by
  have hpos : 0 < pattern.length := List.length_pos_of_ne_nil hpattern
  induction t generalizing n with
  | nil => simp [firstIndex, hpattern]
  | cons c t ih =>
    have hzero : ¬ pattern <:+: (c :: t).take (0 + pattern.length - 1) := fun h => by
      have := h.length_le
      rw [List.length_take] at this
      omega
    unfold firstIndex
    by_cases hstart : pattern <+: c :: t
    · rw [if_pos (List.isPrefixOf_iff_prefix.mpr hstart)]
      cases n with
      | zero => exact ⟨fun _ => ⟨hstart, hzero⟩, fun _ => rfl⟩
      | succ n =>
        refine ⟨fun h => absurd (Option.some.inj h) (by omega), fun h => absurd ?_ h.2⟩
        exact (List.prefix_take_iff.mpr ⟨hstart, by omega⟩).isInfix
    · rw [if_neg (fun h => hstart (List.isPrefixOf_iff_prefix.mp h))]
      cases n with
      | zero => simp [hstart]
      | succ n =>
        have hcons : (c :: t).take (n + 1 + pattern.length - 1) =
            c :: t.take (n + pattern.length - 1) := by
          rw [show n + 1 + pattern.length - 1 = n + pattern.length - 1 + 1 by omega,
            List.take_succ_cons]
        have hhead : ¬ pattern <+: c :: t.take (n + pattern.length - 1) := fun h =>
          hstart (h.trans (by rw [← List.take_succ_cons]; exact List.take_prefix _ _))
        rw [hcons, List.infix_cons_iff, or_iff_right hhead, List.drop_succ_cons]
        refine Iff.trans ?_ (ih (n := n))
        cases firstIndex pattern t <;> simp

theorem firstIndex_eq_none {pattern : Text} (hpattern : pattern ≠ []) {t : Text} :
    firstIndex pattern t = none ↔ ¬ pattern <:+: t := by
  induction t with
  | nil => simp [firstIndex, hpattern]
  | cons c t ih =>
    unfold firstIndex
    rw [List.infix_cons_iff]
    by_cases hstart : pattern <+: c :: t
    · simp [hstart]
    · rw [if_neg (fun h => hstart (List.isPrefixOf_iff_prefix.mp h)), Option.map_eq_none_iff, ih]
      simp [hstart]

/-- A position is no more than the length. -/
theorem length_of_firstIndex {pattern t : Text} (hpattern : pattern ≠ []) {n : ℕ}
    (h : firstIndex pattern t = some n) : n + pattern.length ≤ t.length := by
  have hle := ((firstIndex_eq_some hpattern).mp h).1.length_le
  have hpos := List.length_pos_of_ne_nil hpattern
  rw [List.length_drop] at hle
  omega

/-- **The first occurrence**: the pattern is there, and not in what ends before it. -/
theorem find_eq_iff {pattern t : Text} (hpattern : pattern ≠ []) {n : ℕ} (hn : n ≠ npos) :
    find t pattern = n ↔
      pattern <+: t.drop n ∧ ¬ pattern <:+: t.take (n + pattern.length - 1) := by
  rw [← firstIndex_eq_some hpattern, find]
  cases firstIndex pattern t with
  | none => simpa using fun h => hn h.symm
  | some m => simp

/-- **Nothing is found.** -/
theorem find_eq_npos {pattern t : Text} (hpattern : pattern ≠ []) (hlen : t.length < sizeModulus) :
    find t pattern = npos ↔ ¬ pattern <:+: t := by
  rw [← firstIndex_eq_none hpattern, find]
  cases hfirst : firstIndex pattern t with
  | none => simp
  | some m =>
    have := length_of_firstIndex hpattern hfirst
    have := List.length_pos_of_ne_nil hpattern
    simp only [Option.getD_some, npos, reduceCtorEq, iff_false]
    omega

/-- The first occurrence of a character. -/
theorem find_singleton_append {a b : Text} {c : Char} (ha : c ∉ a)
    (hlen : (a ++ c :: b).length < sizeModulus) : find (a ++ c :: b) [c] = a.length := by
  have hn : a.length ≠ npos := by
    simp only [List.length_append, List.length_cons] at hlen
    simp only [npos]
    omega
  refine (find_eq_iff (List.cons_ne_nil c []) hn).mpr ⟨?_, ?_⟩
  · rw [List.drop_left]
    exact ⟨b, rfl⟩
  · rw [List.length_singleton, Nat.add_sub_cancel, List.take_left, List.singleton_infix_iff]
    exact ha

/-- A start without a character ends before the character. -/
theorem prefix_append_cons {a b q : Text} {c : Char} (hq : c ∉ q) :
    q <+: a ++ c :: b ↔ q <+: a := by
  induction a generalizing q with
  | nil =>
    cases q with
    | nil => simp
    | cons x q =>
      have hx : x ≠ c := by
        rintro rfl
        exact hq List.mem_cons_self
      simp [List.cons_prefix_cons, hx]
  | cons y a ih =>
    cases q with
    | nil => simp
    | cons x q =>
      rw [List.cons_append, List.cons_prefix_cons, List.cons_prefix_cons]
      exact and_congr_right fun _ => ih fun h => hq (List.mem_cons_of_mem _ h)

/-- What is found lies on one side of a character that it can only start with. -/
theorem cons_infix_append_cons {a b q : Text} {c : Char} (hq : c ∉ q) :
    c :: q <:+: a ++ c :: b ↔ c :: q <:+: a ∨ c :: q <:+: c :: b := by
  induction a with
  | nil => simp
  | cons y a ih =>
    rw [List.cons_append, List.infix_cons_iff, List.infix_cons_iff, List.cons_prefix_cons,
      List.cons_prefix_cons, prefix_append_cons hq, or_assoc]
    exact or_congr_right ih

/-- A text splits in one way at the first occurrence of a character. -/
theorem append_cons_inj {a a' b b' : Text} {c : Char} (ha : c ∉ a) (ha' : c ∉ a')
    (h : a ++ c :: b = a' ++ c :: b') : a = a' ∧ b = b' := by
  induction a generalizing a' with
  | nil =>
    cases a' with
    | nil => exact ⟨rfl, List.tail_eq_of_cons_eq h⟩
    | cons x a' =>
      obtain rfl : c = x := List.head_eq_of_cons_eq h
      exact absurd List.mem_cons_self ha'
  | cons x a ih =>
    cases a' with
    | nil =>
      obtain rfl : x = c := List.head_eq_of_cons_eq h
      exact absurd List.mem_cons_self ha
    | cons y a' =>
      obtain rfl : x = y := List.head_eq_of_cons_eq h
      obtain ⟨rfl, hb⟩ := ih (fun hc => ha (List.mem_cons_of_mem _ hc))
        (fun hc => ha' (List.mem_cons_of_mem _ hc)) (List.tail_eq_of_cons_eq h)
      exact ⟨rfl, hb⟩

/-- **A text splits in one way at the first occurrence of a pattern** whose first character
is not repeated in it. -/
theorem append_pattern_inj {a a' b b' q : Text} {c : Char} (hq : c ∉ q) (ha : ¬ c :: q <:+: a)
    (ha' : ¬ c :: q <:+: a') (h : a ++ c :: (q ++ b) = a' ++ c :: (q ++ b')) :
    a = a' ∧ b = b' := by
  -- the longer of the two starts would have the pattern in it
  have hlonger : ∀ {x a b b' : Text}, ¬ c :: q <:+: a ++ x →
      c :: (q ++ b) = x ++ c :: (q ++ b') → x = [] := by
    intro x a b b' hnot heq
    cases x with
    | nil => rfl
    | cons y x =>
      obtain rfl : c = y := List.head_eq_of_cons_eq heq
      have hstart : q <+: x ++ c :: (q ++ b') := ⟨b, List.tail_eq_of_cons_eq heq⟩
      have hx : c :: q <+: c :: x :=
        List.cons_prefix_cons.mpr ⟨rfl, (prefix_append_cons hq).mp hstart⟩
      exact absurd (hx.isInfix.trans (List.suffix_append a _).isInfix) hnot
  rcases List.append_eq_append_iff.mp h with ⟨x, rfl, hx⟩ | ⟨x, rfl, hx⟩
  · obtain rfl := hlonger ha' hx
    exact ⟨by simp, List.append_cancel_left (List.tail_eq_of_cons_eq hx)⟩
  · obtain rfl := hlonger ha hx
    exact ⟨by simp, (List.append_cancel_left (List.tail_eq_of_cons_eq hx)).symm⟩

/-! ### Lines -/

/-- Texts, each ended by a newline. -/
def unlines (lines : List Text) : Text := (lines.map (· ++ ['\n'])).flatten

theorem unlines_cons (line : Text) (lines : List Text) :
    unlines (line :: lines) = line ++ '\n' :: unlines lines := by
  simp [unlines]

/-- The number of lines that a newline ends. -/
def lineCount (t : Text) : ℕ := t.count '\n'

/-- **Each text is a line** when none has a newline in it. -/
theorem lineCount_unlines {lines : List Text} (h : ∀ line ∈ lines, '\n' ∉ line) :
    lineCount (unlines lines) = lines.length := by
  induction lines with
  | nil => rfl
  | cons line lines ih =>
    have hline : line.count '\n' = 0 := List.count_eq_zero.mpr (h line List.mem_cons_self)
    have hrest := ih fun l hl => h l (List.mem_cons_of_mem _ hl)
    unfold lineCount at hrest ⊢
    rw [unlines_cons, List.count_append, List.count_cons_self, hline, hrest, List.length_cons]
    omega

/-- **Lines are read back.** -/
theorem unlines_inj {lines lines' : List Text} (h : ∀ line ∈ lines, '\n' ∉ line)
    (h' : ∀ line ∈ lines', '\n' ∉ line) (heq : unlines lines = unlines lines') :
    lines = lines' := by
  induction lines generalizing lines' with
  | nil =>
    cases lines' with
    | nil => rfl
    | cons line lines' => simp [unlines] at heq
  | cons line lines ih =>
    cases lines' with
    | nil => simp [unlines] at heq
    | cons line' lines' =>
      rw [unlines_cons, unlines_cons] at heq
      obtain ⟨rfl, hrest⟩ := append_cons_inj (h line List.mem_cons_self)
        (h' line' List.mem_cons_self) heq
      rw [ih (fun l hl => h l (List.mem_cons_of_mem _ hl))
        (fun l hl => h' l (List.mem_cons_of_mem _ hl)) hrest]

/-! ### Last occurrences -/

/-- **The last occurrence**: the character is there, and not in what follows up to the
position. -/
theorem findLastOf_append (a b : Text) {c : Char} {pos : ℕ} (hpos : a.length ≤ pos)
    (hb : c ∉ b.take (pos - a.length)) : findLastOf (a ++ c :: b) c pos = a.length := by
  have hafter : ((List.range b.length).map (a.length + 1 + ·)).filter
      (fun n => decide (n ≤ pos ∧ (a ++ c :: b)[n]? = some c)) = [] := by
    rw [List.filter_eq_nil_iff]
    intro n hn hc
    obtain ⟨k, -, rfl⟩ := List.mem_map.mp hn
    obtain ⟨hle, hget⟩ := of_decide_eq_true hc
    rw [List.getElem?_append_right (by omega),
      show a.length + 1 + k - a.length = k + 1 by omega, List.getElem?_cons_succ] at hget
    refine hb (List.mem_of_getElem? (i := k) ?_)
    rw [List.getElem?_take, if_pos (by omega), hget]
  have hat : decide (a.length ≤ pos ∧ (a ++ c :: b)[a.length]? = some c) = true := by
    simp [hpos]
  rw [findLastOf, show (a ++ c :: b).length = a.length + 1 + b.length by simp; omega,
    List.range_add, List.filter_append, hafter, List.append_nil, List.range_succ,
    List.filter_append, List.filter_singleton, hat]
  simp

/-- The piece between the last two of a character. -/
theorem substr_append {a piece b : Text} {c : Char} :
    substr (a ++ c :: (piece ++ c :: b)) (a.length + 1) piece.length = piece := by
  have hsplit : a ++ c :: (piece ++ c :: b) = a ++ [c] ++ (piece ++ c :: b) := by simp
  rw [substr, hsplit, show a.length + 1 = (a ++ [c]).length by simp, List.drop_left,
    List.take_left]

/-! ### Digit strings -/

/-- Decimal digits, of any number. -/
def Digits : Type := {t : Text // ∀ c ∈ t, c.isDigit = true}

namespace Digits

/-- The number that the digits are a decimal form of. -/
def value (digits : Digits) : ℕ := Nat.ofDigitChars 10 digits.1 0

/-- The digits of a number. -/
def ofNat (n : ℕ) : Digits :=
  ⟨Nat.toDigits 10 n, fun _ hc => Nat.isDigit_of_mem_toDigits (by decide) (by decide) hc⟩

theorem value_ofNat (n : ℕ) : (ofNat n).value = n := Nat.ofDigitChars_ten_toDigits

theorem notMem {digits : Digits} {c : Char} (h : c.isDigit = false) : c ∉ digits.1 := fun hc => by
  rw [digits.2 c hc] at h
  contradiction

end Digits

/-! ### What `stoi` reads -/

/-- What may stand before the digits of a number. -/
inductive Sign
  | none
  | plus
  | minus

namespace Sign

/-- The characters of a sign. -/
def text : Sign → Text
  | none => []
  | plus => ['+']
  | minus => ['-']

/-- The number with a sign. -/
def apply : Sign → ℕ → ℤ
  | minus, n => -n
  | _, n => n

end Sign

/-- The text starts with blanks, a sign and the digits of `n`, and `n` is an `int`. -/
def Reads (t : Text) (n : ℤ) : Prop :=
  ∃ (blanks : Text) (sign : Sign) (digits : Digits) (rest : Text),
    t = blanks ++ (sign.text ++ (digits.1 ++ rest)) ∧ (∀ c ∈ blanks, isSpace c = true) ∧
      digits.1 ≠ [] ∧ (∀ c ∈ rest.head?, c.isDigit = false) ∧
      n = sign.apply digits.value ∧ -2 ^ 31 ≤ n ∧ n < 2 ^ 31

/-- Digits are read up to the first other character. -/
theorem takeWhile_digits (digits : Digits) {rest : Text}
    (hrest : ∀ c ∈ rest.head?, c.isDigit = false) :
    (digits.1 ++ rest).takeWhile Char.isDigit = digits.1 := by
  rw [List.takeWhile_append_of_pos digits.2]
  cases rest with
  | nil => rw [List.takeWhile_nil, List.append_nil]
  | cons c rest =>
    rw [List.takeWhile_cons_of_neg (by simp [hrest c (by simp)]), List.append_nil]

theorem isSpace_eq_false_of_isDigit {c : Char} (h : c.isDigit = true) : isSpace c = false := by
  rw [isSpace, decide_eq_false_iff_not]
  intro hc
  simp only [List.mem_cons, List.not_mem_nil, or_false] at hc
  rcases hc with rfl | rfl | rfl | rfl | rfl | rfl <;> exact absurd h (by decide)

/-- A number starts behind its blanks. -/
theorem dropWhile_blanks {blanks t : Text} (hblanks : ∀ c ∈ blanks, isSpace c = true)
    (ht : ∀ c ∈ t.head?, isSpace c = false) : (blanks ++ t).dropWhile isSpace = t := by
  rw [List.dropWhile_append_of_pos hblanks]
  cases t with
  | nil => rfl
  | cons c t => exact List.dropWhile_cons_of_neg (by simp [ht c (by simp)])

/-- The number of the digits at the start of a text. -/
def leadingValue (t : Text) : ℕ := Nat.ofDigitChars 10 (t.takeWhile Char.isDigit) 0

/-- What follows a sign, or starts where one could be. -/
def AfterSign (sign : Sign) (t : Text) : Prop :=
  match sign with
  | .none => ∀ c ∈ t.head?, isSpace c = false ∧ c ≠ '-' ∧ c ≠ '+'
  | _ => True

/-- **`stoi` on the parts of a text.** -/
theorem stoi_append {blanks t : Text} (hblanks : ∀ c ∈ blanks, isSpace c = true) {sign : Sign}
    (ht : AfterSign sign t) :
    stoi (blanks ++ (sign.text ++ t)) =
      if t.takeWhile Char.isDigit ≠ [] ∧ -2 ^ 31 ≤ sign.apply (leadingValue t) ∧
          sign.apply (leadingValue t) < 2 ^ 31 then
        some (sign.apply (leadingValue t)) else none := by
  have hhead : ∀ c ∈ (sign.text ++ t).head?, isSpace c = false := by
    cases sign with
    | none => exact fun c hc => (ht c hc).1
    | plus => simpa [Sign.text] using by decide
    | minus => simpa [Sign.text] using by decide
  unfold stoi
  rw [dropWhile_blanks hblanks hhead]
  cases sign with
  | none =>
    have hminus : t.head? ≠ some '-' := fun h => (ht _ h).2.1 rfl
    have hplus : t.head? ≠ some '+' := fun h => (ht _ h).2.2 rfl
    simp [Sign.text, Sign.apply, leadingValue, hminus, hplus]
  | plus => simp [Sign.text, Sign.apply, leadingValue]
  | minus => simp [Sign.text, Sign.apply, leadingValue]

/-- Every text is blanks, a sign or none, and a rest. -/
theorem exists_sign (t : Text) : ∃ (blanks : Text) (sign : Sign) (rest : Text),
    t = blanks ++ (sign.text ++ rest) ∧ (∀ c ∈ blanks, isSpace c = true) ∧
      AfterSign sign rest := by
  have hblanks : ∀ c ∈ t.takeWhile isSpace, isSpace c = true := fun c hc =>
    List.mem_takeWhile_imp hc
  have hsplit : t.takeWhile isSpace ++ t.dropWhile isSpace = t := List.takeWhile_append_dropWhile
  rcases hrest : t.dropWhile isSpace with _ | ⟨c, rest⟩
  · rw [hrest] at hsplit
    exact ⟨t.takeWhile isSpace, .none, [], hsplit.symm, hblanks, by simp [AfterSign]⟩
  · rw [hrest] at hsplit
    have hspace : isSpace c = false := by
      have := List.head?_dropWhile_not isSpace t
      rwa [hrest] at this
    rcases eq_or_ne c '-' with rfl | hminus
    · exact ⟨t.takeWhile isSpace, .minus, rest, hsplit.symm, hblanks, trivial⟩
    · rcases eq_or_ne c '+' with rfl | hplus
      · exact ⟨t.takeWhile isSpace, .plus, rest, hsplit.symm, hblanks, trivial⟩
      · refine ⟨t.takeWhile isSpace, .none, c :: rest, hsplit.symm, hblanks, fun c' hc' => ?_⟩
        obtain rfl : c = c' := Option.some.inj hc'
        exact ⟨hspace, hminus, hplus⟩

/-- Digits may follow any sign. -/
theorem afterSign_digits (sign : Sign) {digits : Digits} (hne : digits.1 ≠ []) (rest : Text) :
    AfterSign sign (digits.1 ++ rest) := by
  cases sign with
  | none =>
    intro c hc
    rw [List.head?_append_of_ne_nil _ hne] at hc
    have hdigit : c.isDigit = true := digits.2 c (List.mem_of_head? hc)
    refine ⟨isSpace_eq_false_of_isDigit hdigit, ?_, ?_⟩ <;> rintro rfl <;>
      exact absurd hdigit (by decide)
  | plus => trivial
  | minus => trivial

/-- **What `stoi` reads.** -/
theorem stoi_eq_some {t : Text} {n : ℤ} : stoi t = some n ↔ Reads t n := by
  constructor
  · intro h
    obtain ⟨blanks, sign, rest, rfl, hblanks, hafter⟩ := exists_sign t
    rw [stoi_append hblanks hafter] at h
    split at h
    · next hrange =>
      obtain rfl := Option.some.inj h
      have hsplit : rest.takeWhile Char.isDigit ++ rest.dropWhile Char.isDigit = rest :=
        List.takeWhile_append_dropWhile
      refine ⟨blanks, sign, ⟨rest.takeWhile Char.isDigit, fun c hc => List.mem_takeWhile_imp hc⟩,
        rest.dropWhile Char.isDigit, by rw [hsplit], hblanks, hrange.1, ?_, rfl, hrange.2⟩
      intro c hc
      have := List.head?_dropWhile_not Char.isDigit rest
      rwa [Option.mem_def.mp hc] at this
    · contradiction
  · rintro ⟨blanks, sign, digits, rest, rfl, hblanks, hne, hrest, rfl, hrange⟩
    have hvalue : leadingValue (digits.1 ++ rest) = digits.value := by
      rw [leadingValue, takeWhile_digits digits hrest, Digits.value]
    rw [stoi_append hblanks (afterSign_digits sign hne rest), takeWhile_digits digits hrest, hvalue,
      if_pos ⟨hne, hrange⟩]

/-- Digits are read as their value, when it is an `int`. -/
theorem stoi_digits (digits : Digits) :
    stoi digits.1 = if digits.1 ≠ [] ∧ digits.value < 2 ^ 31 then some (digits.value : ℤ)
      else none := by
  rcases eq_or_ne digits.1 [] with hnil | hne
  · rw [hnil]
    rfl
  · have hblanks : ∀ c ∈ ([] : Text), isSpace c = true := by simp
    have hrest : ∀ c ∈ ([] : Text).head?, c.isDigit = false := by simp
    have happend := stoi_append hblanks (afterSign_digits .none hne [])
    have hvalue : leadingValue (digits.1 ++ []) = digits.value := by
      rw [leadingValue, takeWhile_digits digits hrest, Digits.value]
    rw [takeWhile_digits digits hrest, hvalue, List.append_nil] at happend
    refine happend.trans ?_
    simp [Sign.apply, hne]

end Text
