import SpeckitLog.FileManager
import SpeckitLog.Lib.Search

/-!
# The names of rotated files

`RenameWithSequence` names a file `base.N.log`.  `IsHistoricalLogFile` is to recognise
these names and `ExtractSequenceNumber` to read the number back;
`CalculateNextSequenceNumber` takes the next one.

## Main definitions

* `digitsName base digits` — the name with the given digits.
* `IsRotatedName base name` — the names that the recogniser is for.

## Main results

* `isHistoricalLogFile_iff` — every name that is accepted.
-/

namespace SpeckitLog

open Text

/-! ### The recogniser -/

/-- `base.digits.log`. -/
def digitsName (base : Text) (digits : Digits) : Text := base ++ '.' :: (digits.1 ++ ".log".toList)

/-- The names that a rotation gives. -/
def IsRotatedName (base name : Text) : Prop :=
  ∃ digits : Digits, digits.1 ≠ [] ∧ name = digitsName base digits

/-- `base.digits.inner.log`. -/
def innerName (base : Text) (digits : Digits) (inner : Text) : Text :=
  base ++ '.' :: (digits.1 ++ '.' :: (inner ++ ".log".toList))

/-- The search for the extension is satisfied. -/
def ExtensionFound (name : Text) : Prop := name.find ".log".toList = wsub name.length 4

theorem dot_notMem (digits : Digits) : '.' ∉ digits.1 := Digits.notMem (by decide)

/-- **The extension is found at the end**, or the name has three characters: then the
position that is expected wraps to what a search returns that finds nothing. -/
theorem extensionFound_iff {name : Text} (hlen : name.length < sizeModulus) :
    ExtensionFound name ↔
      (".log".toList <:+ name ∧ ¬ ".log".toList <:+: name.dropLast) ∨ name.length = 3 := by
  have hne : ".log".toList ≠ [] := by decide
  have hlog : ".log".toList.length = 4 := rfl
  unfold ExtensionFound
  by_cases hshort : name.length < 4
  · have hno : ∀ t : Text, t.length < 4 → ¬ ".log".toList <:+: t := fun t ht h => by
      have := h.length_le
      omega
    have hnpos : name.find ".log".toList = npos := (find_eq_npos hne hlen).mpr (hno name hshort)
    have hsuffix : ¬ ".log".toList <:+ name := fun h => hno name hshort h.isInfix
    rw [hnpos, wsub, if_neg (by omega), npos, sizeModulus_eq]
    simp only [hsuffix, false_and, false_or]
    omega
  · have hpos : name.length - 4 ≠ npos := by
      simp only [npos]
      omega
    have hthree : name.length ≠ 3 := by omega
    rw [wsub_of_le (by omega), find_eq_iff hne hpos, hlog,
      show name.length - 4 + 4 - 1 = name.length - 1 by omega, ← List.dropLast_eq_take,
      or_iff_left hthree]
    refine and_congr_left fun _ => ⟨fun h => ?_, fun h => ?_⟩
    · have heq := h.eq_of_length (by rw [List.length_drop, hlog]; omega)
      rw [heq]
      exact List.drop_suffix _ _
    · rw [← hlog, ← List.suffix_iff_eq_drop.mp h]

/-- A text up to its first dot. -/
theorem take_find_dot {digits : Digits} {rest : Text}
    (hlen : (digits.1 ++ '.' :: rest).length < sizeModulus) :
    (digits.1 ++ '.' :: rest).take (find (digits.1 ++ '.' :: rest) ['.']) = digits.1 := by
  rw [find_singleton_append (dot_notMem digits) hlen, List.take_left]

/-- **What is accepted**: digits behind `base.`, then a dot, and the extension is found. -/
theorem isHistoricalLogFile_iff_extensionFound {base name : Text}
    (hlen : name.length < sizeModulus) :
    isHistoricalLogFile name (base ++ ['.']) = true ↔
      ∃ (digits : Digits) (rest : Text), digits.1 ≠ [] ∧
        name = base ++ '.' :: (digits.1 ++ '.' :: rest) ∧ ExtensionFound name := by
  unfold isHistoricalLogFile
  constructor
  · intro h
    split at h
    · contradiction
    · next hfind =>
      rw [not_or, not_not, not_not] at hfind
      obtain ⟨remaining, rfl⟩ := find_eq_zero.mp hfind.1
      simp only [List.drop_left] at h
      split at h
      · contradiction
      · next hdot =>
        have hlen' : remaining.length < sizeModulus := by
          rw [List.length_append] at hlen
          omega
        have hmem : '.' ∈ remaining := by
          rw [find_eq_npos (List.cons_ne_nil _ _) hlen', List.singleton_infix_iff] at hdot
          exact not_not.mp hdot
        obtain ⟨piece, rest, rfl, hpiece⟩ := List.eq_append_cons_of_mem hmem
        rw [find_singleton_append hpiece hlen', List.take_left, Bool.and_eq_true] at h
        refine ⟨⟨piece, List.all_eq_true.mp h.2⟩, rest, ?_, by simp, hfind.2⟩
        rintro rfl
        exact absurd h.1 (by decide)
  · rintro ⟨digits, rest, hne, rfl, hext⟩
    have hsplit : base ++ '.' :: (digits.1 ++ '.' :: rest) =
        base ++ ['.'] ++ (digits.1 ++ '.' :: rest) := by simp
    have hlen' : (digits.1 ++ '.' :: rest).length < sizeModulus := by
      rw [hsplit, List.length_append] at hlen
      omega
    have hdot : find (digits.1 ++ '.' :: rest) ['.'] ≠ npos := by
      rw [Ne, find_eq_npos (List.cons_ne_nil _ _) hlen', List.singleton_infix_iff]
      simp
    have hstart : find (base ++ '.' :: (digits.1 ++ '.' :: rest)) (base ++ ['.']) = 0 :=
      find_eq_zero.mpr ⟨_, hsplit.symm⟩
    rw [if_neg (by rw [not_or, not_not, not_not]; exact ⟨hstart, hext⟩)]
    simp only [hsplit, List.drop_left, if_neg hdot, take_find_dot hlen', Bool.and_eq_true,
      Bool.not_eq_true', List.isEmpty_eq_false_iff, List.all_eq_true]
    exact ⟨hne, digits.2⟩

/-- The extension occurs in a rotated name, before its end, when it occurs in the base. -/
theorem log_infix_digitsName {base : Text} {digits : Digits} :
    ".log".toList <:+: (digitsName base digits).dropLast ↔ ".log".toList <:+: base := by
  have hdrop : (digitsName base digits).dropLast =
      base ++ '.' :: (digits.1 ++ '.' :: "lo".toList) := by
    rw [digitsName, show ".log".toList = '.' :: "lo".toList ++ ['g'] from rfl]
    rw [← List.append_assoc, ← List.cons_append, ← List.append_assoc, List.dropLast_concat]
  have hdot : '.' ∉ "log".toList := by decide
  have hl : 'l' ∉ '.' :: digits.1 := by
    rw [List.mem_cons, not_or]
    exact ⟨by decide, Digits.notMem (by decide)⟩
  have hdigits : ¬ '.' :: "log".toList <:+: '.' :: digits.1 := fun h =>
    hl (h.subset (by decide))
  have hend : ¬ '.' :: "log".toList <:+: '.' :: "lo".toList := fun h =>
    absurd h.length_le (by decide)
  rw [hdrop, show ".log".toList = '.' :: "log".toList from rfl, cons_infix_append_cons hdot,
    ← List.cons_append, cons_infix_append_cons hdot]
  simp only [hdigits, hend, or_false]

/-- A name with a further piece between the number and the extension. -/
def HasInnerPiece (base name : Text) : Prop :=
  ∃ (digits : Digits) (inner : Text), digits.1 ≠ [] ∧ name = innerName base digits inner

/-- A digit between two dots, and no base. -/
def IsDottedDigit (base name : Text) : Prop :=
  base = [] ∧ ∃ c : Char, c.isDigit = true ∧ name = ['.', c, '.']

/-- What may follow the second dot of a name that ends with the extension. -/
theorem rest_of_log_suffix {front rest : Text} (h : ".log".toList <:+ front ++ '.' :: rest) :
    rest = "log".toList ∨ ∃ inner, rest = inner ++ ".log".toList := by
  have hrest : '.' :: rest <:+ front ++ '.' :: rest := List.suffix_append _ _
  have hlog : ".log".toList.length = 4 := rfl
  rcases Nat.lt_or_ge rest.length 3 with hlt | hge
  · -- the extension has no dot but its first character
    have hshort := List.suffix_of_suffix_length_le hrest h (by simp only [List.length_cons]; omega)
    rw [show ".log".toList = '.' :: "log".toList from rfl, List.suffix_cons_iff] at hshort
    rcases hshort with heq | htail
    · have := congrArg List.length heq
      simp at this
      omega
    · exact absurd (htail.subset List.mem_cons_self) (by decide)
  · rcases Nat.eq_or_lt_of_le hge with heq | hgt
    · have hall := List.suffix_of_suffix_length_le h hrest
        (by rw [hlog, List.length_cons]; omega)
      have := hall.eq_of_length (by rw [hlog, List.length_cons]; omega)
      exact Or.inl (List.tail_eq_of_cons_eq this.symm)
    · have hinner := List.suffix_of_suffix_length_le h
        ((List.suffix_cons '.' rest).trans hrest) (by rw [hlog]; omega)
      obtain ⟨inner, rfl⟩ := hinner
      exact Or.inr ⟨inner, rfl⟩

/-- **Every accepted name** is a rotated name whose base has no extension, or has a further
piece between the number and its only extension, or is a digit between two dots. -/
theorem isHistoricalLogFile_iff {base name : Text} (hlen : name.length < sizeModulus) :
    isHistoricalLogFile name (base ++ ['.']) = true ↔
      (IsRotatedName base name ∧ ¬ ".log".toList <:+: base) ∨
        (HasInnerPiece base name ∧ ¬ ".log".toList <:+: name.dropLast) ∨
          IsDottedDigit base name := by
  rw [isHistoricalLogFile_iff_extensionFound hlen]
  constructor
  · rintro ⟨digits, rest, hne, rfl, hext⟩
    rcases (extensionFound_iff hlen).mp hext with ⟨hend, honly⟩ | hthree
    · have hend' : ".log".toList <:+ (base ++ '.' :: digits.1) ++ '.' :: rest := by simpa using hend
      rcases rest_of_log_suffix hend' with rfl | ⟨inner, rfl⟩
      · refine Or.inl ⟨⟨digits, hne, rfl⟩, fun hbase => honly ?_⟩
        exact log_infix_digitsName.mpr hbase
      · exact Or.inr (Or.inl ⟨⟨digits, inner, hne, rfl⟩, honly⟩)
    · simp only [List.length_append, List.length_cons] at hthree
      have hpos := List.length_pos_of_ne_nil hne
      obtain ⟨c, hc⟩ := List.length_eq_one_iff.mp (show digits.1.length = 1 by omega)
      have hbase := List.eq_nil_of_length_eq_zero (show base.length = 0 by omega)
      have hrest := List.eq_nil_of_length_eq_zero (show rest.length = 0 by omega)
      refine Or.inr (Or.inr ⟨hbase, c, digits.2 c (by rw [hc]; exact List.mem_cons_self), ?_⟩)
      rw [hbase, hc, hrest]
      rfl
  · rintro (⟨⟨digits, hne, rfl⟩, hbase⟩ | ⟨⟨digits, inner, hne, rfl⟩, honly⟩ | ⟨rfl, c, hc, rfl⟩)
    · refine ⟨digits, "log".toList, hne, rfl, (extensionFound_iff hlen).mpr (Or.inl ⟨?_, ?_⟩)⟩
      · exact ⟨base ++ '.' :: digits.1, by simp [digitsName]⟩
      · exact fun h => hbase (log_infix_digitsName.mp h)
    · refine ⟨digits, inner ++ ".log".toList, hne, rfl,
        (extensionFound_iff hlen).mpr (Or.inl ⟨?_, honly⟩)⟩
      exact ⟨base ++ '.' :: (digits.1 ++ '.' :: inner), by simp [innerName]⟩
    · exact ⟨⟨[c], by simpa using hc⟩, [], List.cons_ne_nil c [], rfl,
        (extensionFound_iff hlen).mpr (Or.inr rfl)⟩

/-- A name has one number, and one text behind it. -/
theorem digits_inj {base : Text} {digits digits' : Digits} {rest rest' : Text}
    (h : base ++ '.' :: (digits.1 ++ '.' :: rest) = base ++ '.' :: (digits'.1 ++ '.' :: rest')) :
    digits = digits' ∧ rest = rest' := by
  obtain ⟨hdigits, hrest⟩ := append_cons_inj (dot_notMem digits) (dot_notMem digits')
    (List.tail_eq_of_cons_eq (List.append_cancel_left h))
  exact ⟨Subtype.ext hdigits, hrest⟩

theorem not_isRotatedName_of_hasInnerPiece {base name : Text} (h : HasInnerPiece base name) :
    ¬ IsRotatedName base name := by
  rintro ⟨digits, -, hname⟩
  obtain ⟨digits', inner, -, hinner⟩ := h
  have hrest : "log".toList = inner ++ ".log".toList :=
    (digits_inj (hname.symm.trans hinner)).2
  have := congrArg List.length hrest
  rw [List.length_append, show ".log".toList.length = 4 from rfl,
    show "log".toList.length = 3 from rfl] at this
  omega

theorem not_isRotatedName_of_isDottedDigit {base name : Text} (h : IsDottedDigit base name) :
    ¬ IsRotatedName base name := by
  rintro ⟨digits, -, hname⟩
  obtain ⟨rfl, c, -, rfl⟩ := h
  have := congrArg List.length hname
  simp [digitsName] at this

/-- The recogniser accepts the rotated names and no others. -/
def RecognisesRotated (base name : Text) : Prop :=
  isHistoricalLogFile name (base ++ ['.']) = true ↔ IsRotatedName base name

/-- The names on which the recogniser is right: none of the three kinds on which it errs. -/
structure Unmistakable (base name : Text) : Prop where
  /-- A rotated name is not refused because its base has the extension in it. -/
  rotated : IsRotatedName base name → ¬ ".log".toList <:+: base
  /-- No further piece follows the number, unless the extension is found before the end. -/
  piece : HasInnerPiece base name → ".log".toList <:+: name.dropLast
  dotted : ¬ IsDottedDigit base name

/-- **When the recogniser is right.** -/
theorem recognisesRotated_iff {base name : Text} (hlen : name.length < sizeModulus) :
    RecognisesRotated base name ↔ Unmistakable base name := by
  unfold RecognisesRotated
  rw [isHistoricalLogFile_iff hlen]
  constructor
  · intro h
    refine ⟨fun hrot => ?_, fun hpiece => ?_, fun hdot => ?_⟩
    · rcases h.mpr hrot with hplain | ⟨hpiece, -⟩ | hdot
      · exact hplain.2
      · exact absurd hrot (not_isRotatedName_of_hasInnerPiece hpiece)
      · exact absurd hrot (not_isRotatedName_of_isDottedDigit hdot)
    · by_contra honly
      exact not_isRotatedName_of_hasInnerPiece hpiece (h.mp (Or.inr (Or.inl ⟨hpiece, honly⟩)))
    · exact not_isRotatedName_of_isDottedDigit hdot (h.mp (Or.inr (Or.inr hdot)))
  · intro h
    refine ⟨?_, fun hrot => Or.inl ⟨hrot, h.rotated hrot⟩⟩
    rintro (⟨hrot, -⟩ | ⟨hpiece, honly⟩ | hdot)
    · exact hrot
    · exact absurd (h.piece hpiece) honly
    · exact absurd hdot h.dotted

/-- A base without the extension makes no mistakable name. -/
theorem unmistakable_digitsName {base : Text} (hbase : ¬ ".log".toList <:+: base)
    {digits : Digits} (hne : digits.1 ≠ []) : Unmistakable base (digitsName base digits) where
  rotated _ := hbase
  piece h := absurd ⟨digits, hne, rfl⟩ (not_isRotatedName_of_hasInnerPiece h)
  dotted h := absurd ⟨digits, hne, rfl⟩ (not_isRotatedName_of_isDottedDigit h)

theorem recognisesRotated_iff_app :
    RecognisesRotated "app".toList (digitsName "app".toList (.ofNat 1)) :=
  (recognisesRotated_iff (by decide +kernel)).mpr
    (unmistakable_digitsName (by decide) (by decide))

/-- **The extension in the base** is found before the one at the end. -/
theorem not_recognisesRotated_log_base :
    ¬ ∀ base name : Text, name.length < sizeModulus → RecognisesRotated base name := by
  intro h
  have haccept := (h "my.log".toList "my.log.1.log".toList (by decide +kernel)).mpr
    ⟨.ofNat 1, by decide, rfl⟩
  exact absurd haccept (by decide +kernel)

/-! ### Reading the number back -/

/-- **The number is read from the piece before the last dot.** -/
theorem extractSequenceNumber_append {front piece ext : Text} (hpiece : '.' ∉ piece)
    (hext : '.' ∉ ext)
    (hlen : (front ++ '.' :: (piece ++ '.' :: ext)).length < sizeModulus) :
    extractSequenceNumber (front ++ '.' :: (piece ++ '.' :: ext)) = piece.stoi.getD (-1) := by
  have hsplit : front ++ '.' :: (piece ++ '.' :: ext) =
      front ++ '.' :: piece ++ '.' :: ext := by simp
  have hlong : front.length + piece.length + ext.length + 2 < sizeModulus := by
    simp only [List.length_append, List.length_cons] at hlen
    omega
  have hlast : findLastOf (front ++ '.' :: (piece ++ '.' :: ext)) '.' npos =
      front.length + 1 + piece.length := by
    rw [hsplit, findLastOf_append]
    · simp only [List.length_append, List.length_cons]
      omega
    · simp only [List.length_append, List.length_cons, npos]
      omega
    · exact fun h => hext (List.mem_of_mem_take h)
  have hsecond : findLastOf (front ++ '.' :: (piece ++ '.' :: ext)) '.'
      (front.length + 1 + piece.length - 1) = front.length := by
    refine findLastOf_append _ _ (by omega) ?_
    rw [show front.length + 1 + piece.length - 1 - front.length = piece.length by omega,
      List.take_left]
    exact hpiece
  have hnpos : front.length + 1 + piece.length ≠ npos := by
    simp only [npos]
    omega
  have hnpos' : front.length ≠ npos := by
    simp only [npos]
    omega
  simp only [extractSequenceNumber, hlast, if_neg hnpos, wsub_of_le (show 1 ≤ front.length + 1 +
    piece.length by omega), hsecond, if_neg hnpos']
  rw [wsub_of_le (show front.length ≤ front.length + 1 + piece.length by omega),
    wsub_of_le (show 1 ≤ front.length + 1 + piece.length - front.length by omega),
    show front.length + 1 + piece.length - front.length - 1 = piece.length by omega,
    substr_append]

/-- The digits that `IsHistoricalLogFile` checks. -/
def checkedDigits (name basePattern : Text) : Text :=
  let remaining := name.drop basePattern.length
  remaining.take (find remaining ['.'])

theorem checkedDigits_append {base : Text} {digits : Digits} {rest : Text}
    (hlen : (base ++ '.' :: (digits.1 ++ '.' :: rest)).length < sizeModulus) :
    checkedDigits (base ++ '.' :: (digits.1 ++ '.' :: rest)) (base ++ ['.']) = digits.1 := by
  have hsplit : base ++ '.' :: (digits.1 ++ '.' :: rest) =
      base ++ ['.'] ++ (digits.1 ++ '.' :: rest) := by simp
  rw [hsplit, List.length_append] at hlen
  rw [hsplit, checkedDigits]
  simp only [List.drop_left]
  exact take_find_dot (by omega)

/-- The piece of a text behind its last dot. -/
def lastPiece (t : Text) : Text := t.rtakeWhile (· != '.')

theorem dot_notMem_lastPiece (t : Text) : '.' ∉ lastPiece t := fun h =>
  absurd (List.mem_rtakeWhile_imp h) (by decide)

/-- A dot before a text is a dot before its last piece. -/
theorem exists_lastPiece (t : Text) : ∃ front, '.' :: t = front ++ '.' :: lastPiece t := by
  have hsplit := List.rdropWhile_append_rtakeWhile (p := (· != '.')) (l := t)
  rcases List.eq_nil_or_concat (t.rdropWhile (· != '.')) with hnil | ⟨init, c, hconcat⟩
  · rw [hnil, List.nil_append] at hsplit
    exact ⟨[], by rw [lastPiece, hsplit, List.nil_append]⟩
  · have hne : t.rdropWhile (· != '.') ≠ [] := by simp [hconcat]
    have hlast := List.rdropWhile_last_not (· != '.') t hne
    have hc : c = '.' := by simpa [hconcat] using hlast
    rw [hconcat, hc, List.concat_eq_append, List.append_assoc] at hsplit
    exact ⟨'.' :: init, congrArg ('.' :: ·) hsplit.symm⟩

/-- The parser reads the digits that the recogniser checked. -/
def ReadsBack (base directory name : Text) : Prop :=
  extractSequenceNumber (directory ++ name) =
    Nat.ofDigitChars 10 (checkedDigits name (base ++ ['.'])) 0

/-- The names whose number is read back. -/
inductive Readable (base : Text) : Text → Prop
  /-- The number is the last piece, and an `int`. -/
  | last (digits : Digits) (ext : Text) (hne : digits.1 ≠ []) (hext : '.' ∉ ext)
      (hint : digits.value < 2 ^ 31) : Readable base (base ++ '.' :: (digits.1 ++ '.' :: ext))
  /-- The last piece is read as the same number. -/
  | inner (digits : Digits) (inner : Text) (hne : digits.1 ≠ [])
      (hsame : Reads (lastPiece inner) digits.value) : Readable base (innerName base digits inner)

/-- A non-negative number is not the answer to a text that is none. -/
theorem getD_stoi_eq_iff {t : Text} {n : ℕ} : t.stoi.getD (-1) = n ↔ Reads t n := by
  rw [← stoi_eq_some]
  cases t.stoi with
  | none => simp
  | some m => simp

/-- Digits are read as their value, when it is an `int`. -/
theorem extractSequenceNumber_digits {front ext : Text} {digits : Digits} (hext : '.' ∉ ext)
    (hlen : (front ++ '.' :: (digits.1 ++ '.' :: ext)).length < sizeModulus) :
    extractSequenceNumber (front ++ '.' :: (digits.1 ++ '.' :: ext)) =
      if digits.1 ≠ [] ∧ digits.value < 2 ^ 31 then (digits.value : ℤ) else -1 := by
  rw [extractSequenceNumber_append (dot_notMem digits) hext hlen, stoi_digits]
  split <;> rfl

theorem readsBack_last {base directory ext : Text} {digits : Digits} (hne : digits.1 ≠ [])
    (hext : '.' ∉ ext)
    (hlen : (directory ++ (base ++ '.' :: (digits.1 ++ '.' :: ext))).length < sizeModulus) :
    ReadsBack base directory (base ++ '.' :: (digits.1 ++ '.' :: ext)) ↔
      digits.value < 2 ^ 31 := by
  have hlen' : (base ++ '.' :: (digits.1 ++ '.' :: ext)).length < sizeModulus := by
    rw [List.length_append] at hlen
    omega
  unfold ReadsBack
  rw [checkedDigits_append hlen', ← List.append_assoc,
    extractSequenceNumber_digits hext (by rwa [List.append_assoc])]
  change (if digits.1 ≠ [] ∧ digits.value < 2 ^ 31 then (digits.value : ℤ) else -1) =
    digits.value ↔ _
  split
  · next h => exact ⟨fun _ => h.2, fun _ => rfl⟩
  · next h =>
    refine ⟨fun hneg => ?_, fun hint => absurd ⟨hne, hint⟩ h⟩
    omega

theorem readsBack_inner {base directory inner : Text} {digits : Digits}
    (hlen : (directory ++ innerName base digits inner).length < sizeModulus) :
    ReadsBack base directory (innerName base digits inner) ↔
      Reads (lastPiece inner) digits.value := by
  have hlen' : (innerName base digits inner).length < sizeModulus := by
    rw [List.length_append] at hlen
    omega
  obtain ⟨front, hfront⟩ := exists_lastPiece inner
  have hsplit : directory ++ innerName base digits inner =
      (directory ++ base ++ '.' :: digits.1 ++ front) ++
        '.' :: (lastPiece inner ++ '.' :: "log".toList) := by
    have : innerName base digits inner =
        base ++ '.' :: (digits.1 ++ ('.' :: inner ++ ".log".toList)) := rfl
    rw [this, hfront]
    simp
  have hlog : '.' ∉ "log".toList := by decide
  have hchecked : checkedDigits (innerName base digits inner) (base ++ ['.']) = digits.1 :=
    checkedDigits_append hlen'
  rw [hsplit] at hlen
  unfold ReadsBack
  rw [hchecked, hsplit, extractSequenceNumber_append (dot_notMem_lastPiece inner) hlog hlen]
  exact getD_stoi_eq_iff

/-- **When the number of an accepted name is read back.** -/
theorem readsBack_iff {base directory name : Text}
    (haccept : isHistoricalLogFile name (base ++ ['.']) = true)
    (hlen : (directory ++ name).length < sizeModulus) :
    ReadsBack base directory name ↔ Readable base name := by
  constructor
  · intro h
    have hlen' : name.length < sizeModulus := by
      rw [List.length_append] at hlen
      omega
    rcases (isHistoricalLogFile_iff hlen').mp haccept with
      ⟨⟨digits, hne, rfl⟩, -⟩ | ⟨⟨digits, inner, hne, rfl⟩, -⟩ | ⟨rfl, c, hc, rfl⟩
    · have hlog : '.' ∉ "log".toList := by decide
      exact .last digits "log".toList hne hlog ((readsBack_last hne hlog hlen).mp h)
    · exact .inner digits inner hne ((readsBack_inner hlen).mp h)
    · let digits : Digits := ⟨[c], by simpa using hc⟩
      have hne : digits.1 ≠ [] := List.cons_ne_nil c []
      exact .last digits [] hne (List.not_mem_nil) ((readsBack_last hne List.not_mem_nil hlen).mp h)
  · intro h
    cases h with
    | last digits ext hne hext hint => exact (readsBack_last hne hext hlen).mpr hint
    | inner digits inner hne hsame => exact (readsBack_inner hlen).mpr hsame

theorem readsBack_iff_app :
    ReadsBack "app".toList "/logs/".toList (digitsName "app".toList (.ofNat 12)) :=
  (readsBack_iff (by decide +kernel) (by decide +kernel)).mpr
    (.last (.ofNat 12) "log".toList (by decide) (by decide) (by decide))

/-- **A further piece** is read in the place of the number. -/
theorem not_readsBack_inner_piece :
    ¬ ∀ base directory name : Text, isHistoricalLogFile name (base ++ ['.']) = true →
      (directory ++ name).length < sizeModulus → ReadsBack base directory name := by
  intro h
  have hread := h "app".toList "/logs/".toList "app.1.old.log".toList (by decide +kernel)
    (by decide +kernel)
  exact absurd hread (by unfold ReadsBack; decide +kernel)

/-! ### The next number -/

/-- The highest number, and zero if there is none above it. -/
def maxSequence (names : List Text) : ℤ :=
  names.foldl (fun maxSequence file =>
    let sequence := extractSequenceNumber file
    if sequence > maxSequence then sequence else maxSequence) 0

theorem calculateNextSequenceNumber_eq (names : List Text) :
    calculateNextSequenceNumber names = maxSequence names + 1 := by
  unfold calculateNextSequenceNumber
  split
  · next h => rw [List.isEmpty_iff.mp h]; rfl
  · rfl

/-- The highest number is reached, and no number is above it. -/
theorem maxSequence_spec (names : List Text) :
    0 ≤ maxSequence names ∧ (∀ name ∈ names, extractSequenceNumber name ≤ maxSequence names) ∧
      (maxSequence names = 0 ∨ ∃ name ∈ names, maxSequence names = extractSequenceNumber name) := by
  induction names using List.reverseRecOn with
  | nil => simp [maxSequence]
  | append_singleton names name ih =>
    have hstep : maxSequence (names ++ [name]) =
        if extractSequenceNumber name > maxSequence names then extractSequenceNumber name
        else maxSequence names := by
      unfold maxSequence
      rw [List.foldl_append]
      rfl
    obtain ⟨hpos, hle, hreach⟩ := ih
    rw [hstep]
    split
    · next hgt =>
      refine ⟨by omega, fun file hfile => ?_, Or.inr ⟨name, by simp, rfl⟩⟩
      rcases List.mem_append.mp hfile with hmem | hmem
      · have := hle file hmem
        omega
      · rw [List.mem_singleton.mp hmem]
    · next hngt =>
      refine ⟨hpos, fun file hfile => ?_, hreach.imp id ?_⟩
      · rcases List.mem_append.mp hfile with hmem | hmem
        · exact hle file hmem
        · rw [List.mem_singleton.mp hmem]
          omega
      · rintro ⟨file, hmem, heq⟩
        exact ⟨file, List.mem_append_left _ hmem, heq⟩

/-- The files of the list, by their digits. -/
def digitsNames (base : Text) (numbers : List Digits) : List Text := numbers.map (digitsName base)

/-- What the next number is for. -/
structure FreshNumber (fm : FileManager) (numbers : List Digits) (next : ℤ) : Prop where
  pos : 1 ≤ next
  /-- It is an `int`: the last addition does not overflow. -/
  int : next < 2 ^ 31
  above : ∀ digits ∈ numbers, (digits.value : ℤ) < next
  /-- The rename replaces no file of the list. -/
  fresh : fm.sequenceName next ∉ digitsNames fm.baseName numbers

/-- A name with a number is that of its digits. -/
theorem sequenceName_eq_digitsName (fm : FileManager) (n : ℕ) :
    fm.sequenceName n = digitsName fm.baseName (.ofNat n) := by
  have hdec : Text.decimal n = Nat.toDigits 10 n := by
    rw [decimal, if_neg (by omega), Int.natAbs_natCast]
  rw [FileManager.sequenceName, hdec, List.append_assoc]
  rfl

/-- A number above all of the list names no file of the list. -/
theorem sequenceName_notMem {fm : FileManager} {numbers : List Digits} {next : ℤ} (hpos : 1 ≤ next)
    (habove : ∀ digits ∈ numbers, (digits.value : ℤ) < next) :
    fm.sequenceName next ∉ digitsNames fm.baseName numbers := by
  obtain ⟨n, rfl⟩ := Int.eq_ofNat_of_zero_le (show 0 ≤ next by omega)
  intro hmem
  obtain ⟨digits, hdigits, hname⟩ := List.mem_map.mp hmem
  rw [sequenceName_eq_digitsName] at hname
  have heq : digits = .ofNat n := (digits_inj hname).1
  have := habove digits hdigits
  rw [heq, Digits.value_ofNat] at this
  omega

/-- The highest number is an upper bound of the values that are an `int`. -/
theorem value_le_maxSequence {base : Text} {numbers : List Digits} {digits : Digits}
    (hmem : digits ∈ numbers) (hint : digits.value < 2 ^ 31)
    (hlen : (digitsName base digits).length < sizeModulus) :
    (digits.value : ℤ) ≤ maxSequence (digitsNames base numbers) := by
  obtain ⟨hpos, hle, -⟩ := maxSequence_spec (digitsNames base numbers)
  rcases eq_or_ne digits.1 [] with hnil | hne
  · have : digits.value = 0 := by rw [Digits.value, hnil]; rfl
    omega
  · have hlog : '.' ∉ "log".toList := by decide
    have hread : extractSequenceNumber (digitsName base digits) = digits.value := by
      refine (extractSequenceNumber_digits hlog hlen).trans (if_pos ⟨hne, hint⟩)
    exact hread ▸ hle _ (List.mem_map_of_mem hmem)

/-- The highest number is no more than a bound on the values. -/
theorem maxSequence_le {base : Text} {numbers : List Digits} {bound : ℤ} (hbound : 0 ≤ bound)
    (hle : ∀ digits ∈ numbers, (digits.value : ℤ) ≤ bound)
    (hlen : ∀ digits ∈ numbers, (digitsName base digits).length < sizeModulus) :
    maxSequence (digitsNames base numbers) ≤ bound := by
  obtain ⟨-, -, hzero | ⟨name, hname, hreach⟩⟩ := maxSequence_spec (digitsNames base numbers)
  · omega
  · obtain ⟨digits, hdigits, rfl⟩ := List.mem_map.mp hname
    have hlog : '.' ∉ "log".toList := by decide
    have hread := extractSequenceNumber_digits hlog (hlen digits hdigits)
    have := hle digits hdigits
    rw [hreach]
    refine le_of_eq_of_le hread ?_
    split <;> omega

/-- **When the next number is fresh**: no number of the list is the greatest `int` or more. -/
theorem freshNumber_iff (fm : FileManager) {numbers : List Digits}
    (hlen : ∀ digits ∈ numbers, (digitsName fm.baseName digits).length < sizeModulus) :
    FreshNumber fm numbers (calculateNextSequenceNumber (digitsNames fm.baseName numbers)) ↔
      ∀ digits ∈ numbers, digits.value < 2 ^ 31 - 1 := by
  rw [calculateNextSequenceNumber_eq]
  constructor
  · intro h digits hdigits
    have habove := h.above digits hdigits
    have hint := h.int
    omega
  · intro h
    have hpos := (maxSequence_spec (digitsNames fm.baseName numbers)).1
    have habove : ∀ digits ∈ numbers,
        (digits.value : ℤ) < maxSequence (digitsNames fm.baseName numbers) + 1 := by
      intro digits hdigits
      have hvalue := h digits hdigits
      have := value_le_maxSequence hdigits (by omega) (hlen digits hdigits)
      omega
    have hmax : maxSequence (digitsNames fm.baseName numbers) ≤ 2 ^ 31 - 2 := by
      refine maxSequence_le (by omega) (fun digits hdigits => ?_) hlen
      have := h digits hdigits
      omega
    exact ⟨by omega, by omega, habove, sequenceName_notMem (by omega) habove⟩

theorem freshNumber_iff_app :
    FreshNumber (.ofBaseName "app".toList) [.ofNat 1, .ofNat 2]
      (calculateNextSequenceNumber (digitsNames "app".toList [.ofNat 1, .ofNat 2])) :=
  (freshNumber_iff (.ofBaseName "app".toList) (by decide +kernel)).mpr (by decide +kernel)

/-- **The greatest `int`** has no next number. -/
theorem not_freshNumber_max :
    ¬ ∀ (fm : FileManager) (numbers : List Digits),
      (∀ digits ∈ numbers, (digitsName fm.baseName digits).length < sizeModulus) →
        FreshNumber fm numbers
          (calculateNextSequenceNumber (digitsNames fm.baseName numbers)) := by
  intro h
  have hint := (h (.ofBaseName "app".toList) [.ofNat 2147483647] (by decide +kernel)).int
  exact absurd hint (by decide +kernel)

end SpeckitLog
