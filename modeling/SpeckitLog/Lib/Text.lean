import SpeckitLog.Lib.SizeT
import Mathlib.Data.List.DropRight
import Mathlib.Data.List.TakeWhile
import Mathlib.Data.Nat.Digits.Defs
import Mathlib.Tactic.Common

/-!
# Bytes and text

Texts are lists of characters, one for each byte.  A *C string* starts at a
pointer and ends before the first NUL byte.  The searches of `std::string` return
a position, or `npos`, and compute with positions modulo `2 ^ 64`.

## Main definitions

* `untilNul`, `cString` — the part of a text before its first NUL.
* `StringView` — a pointer into a buffer, and a length.
* `decimal`, `padded`, `stoi` — integers and their decimal forms.
* `find`, `findLastOf`, `substr` — searches and pieces.
-/

/-- A string of bytes. -/
abbrev Text := List Char

namespace Text

/-! ### C strings -/

/-- The byte that ends a C string. -/
def nul : Char := '\x00'

/-- The bytes before the first NUL. -/
def untilNul (t : Text) : Text := t.takeWhile (· != nul)

/-- The C string that starts a piece of memory; `none` when no NUL ends it. -/
def cString (t : Text) : Option Text := if nul ∈ t then some (untilNul t) else none

theorem untilNul_of_notMem {t : Text} (h : nul ∉ t) : untilNul t = t := by
  refine List.takeWhile_eq_self_iff.mpr fun c hc => ?_
  rw [bne_iff_ne]
  rintro rfl
  exact h hc

theorem untilNul_append {t : Text} (h : nul ∉ t) (rest : Text) :
    untilNul (t ++ nul :: rest) = t := by
  have hpos : ∀ c ∈ t, (c != nul) = true := fun c hc => by
    rw [bne_iff_ne]
    rintro rfl
    exact h hc
  rw [untilNul, List.takeWhile_append_of_pos hpos, List.takeWhile_cons_of_neg (by simp),
    List.append_nil]

/-- **A C string** is what comes before the first NUL. -/
theorem cString_eq_some {t s : Text} :
    cString t = some s ↔ nul ∉ s ∧ ∃ rest, t = s ++ nul :: rest := by
  unfold cString
  constructor
  · intro h
    split at h
    · next hmem =>
      obtain ⟨a, rest, rfl, ha⟩ := List.eq_append_cons_of_mem hmem
      obtain rfl : a = s := (untilNul_append ha rest).symm.trans (Option.some.inj h)
      exact ⟨ha, rest, rfl⟩
    · contradiction
  · rintro ⟨hs, rest, rfl⟩
    rw [if_pos (by simp), untilNul_append hs]

/-- A `std::string` keeps a NUL behind its contents. -/
theorem cString_terminated (t : Text) : cString (t ++ [nul]) = some (untilNul t) := by
  unfold cString untilNul
  rw [if_pos (by simp), List.takeWhile_append]
  split
  · next h =>
    rw [show List.takeWhile (· != nul) [nul] = [] by decide, List.append_nil,
      (List.takeWhile_prefix _).eq_of_length h]
  · rfl

end Text

/-- A `std::string_view`: a place in a buffer, and a length. -/
structure StringView (β : Type*) where
  buffer : β
  offset : ℕ
  length : ℕ
  deriving DecidableEq

namespace StringView

variable {β : Type*}

/-- The view of a whole `std::string` object. -/
def ofString (b : β) (contents : Text) : StringView β := ⟨b, 0, contents.length⟩

/-- `data()`, read as a C string: it starts where the view starts, and the
length of the view does not end it. -/
def data (memory : β → Text) (v : StringView β) : Option Text :=
  Text.cString ((memory v.buffer).drop v.offset)

end StringView

namespace Text

/-! ### Decimal numbers -/

/-- `{}` of an integer. -/
def decimal (n : ℤ) : Text :=
  if n < 0 then '-' :: Nat.toDigits 10 n.natAbs else Nat.toDigits 10 n.natAbs

/-- `{:0wd}` of an integer: zeros between the sign and the digits. -/
def padded (width : ℕ) (n : ℤ) : Text :=
  if n < 0 then '-' :: (Nat.toDigits 10 n.natAbs).leftpad (width - 1) '0'
  else (Nat.toDigits 10 n.natAbs).leftpad width '0'

/-- The digits of a number name it. -/
theorem toDigits_injective : Function.Injective (Nat.toDigits 10) := by
  intro m n h
  rw [← Nat.ofDigitChars_ten_toDigits (n := m), h, Nat.ofDigitChars_ten_toDigits]

theorem minus_notMem_toDigits (n : ℕ) : '-' ∉ Nat.toDigits 10 n := fun h =>
  absurd (Nat.isDigit_of_mem_toDigits (by decide) (by decide) h) (by decide)

theorem decimal_injective : Function.Injective decimal := by
  have hsign : ∀ (k : ℕ) (t : Text), Nat.toDigits 10 k ≠ '-' :: t := fun k t h =>
    minus_notMem_toDigits k (h ▸ List.mem_cons_self)
  intro m n h
  unfold decimal at h
  split at h <;> split at h
  · have := toDigits_injective (List.cons_injective h)
    omega
  · exact absurd h.symm (hsign _ _)
  · exact absurd h (hsign _ _)
  · have := toDigits_injective h
    omega

/-- The characters of a decimal number. -/
theorem mem_decimal {n : ℤ} {c : Char} (h : c ∈ decimal n) : c = '-' ∨ c.isDigit = true := by
  have hdigit : ∀ {k : ℕ}, c ∈ Nat.toDigits 10 k → c.isDigit = true := fun hc =>
    Nat.isDigit_of_mem_toDigits (by decide) (by decide) hc
  unfold decimal at h
  split at h
  · rcases List.mem_cons.mp h with hc | hc
    · exact Or.inl hc
    · exact Or.inr (hdigit hc)
  · exact Or.inr (hdigit h)

/-- `std::isspace` in the C locale. -/
def isSpace (c : Char) : Bool := c ∈ [' ', '\t', '\n', '\x0b', '\x0c', '\r']

/-- `std::stoi`; `none` when it throws. -/
def stoi (t : Text) : Option ℤ :=
  let t := t.dropWhile isSpace
  let negative := t.head? = some '-'
  let t := if t.head? = some '-' ∨ t.head? = some '+' then t.tail else t
  let digits := t.takeWhile Char.isDigit
  let value : ℤ := Nat.ofDigitChars 10 digits 0
  let value := if negative then -value else value
  if digits ≠ [] ∧ -2 ^ 31 ≤ value ∧ value < 2 ^ 31 then some value else none

/-! ### Searches -/

/-- What a search returns that finds nothing. -/
def npos : ℕ := sizeModulus - 1

/-- The position of the first occurrence of `pattern`. -/
def firstIndex (pattern : Text) : Text → Option ℕ
  | [] => if pattern = [] then some 0 else none
  | c :: t =>
    if pattern.isPrefixOf (c :: t) then some 0 else (firstIndex pattern t).map (· + 1)

/-- `t.find(pattern)`. -/
def find (t pattern : Text) : ℕ := (firstIndex pattern t).getD npos

/-- `t.find_last_of(c, pos)`. -/
def findLastOf (t : Text) (c : Char) (pos : ℕ) : ℕ :=
  (((List.range t.length).filter fun n => n ≤ pos ∧ t[n]? = some c).getLast?).getD npos

/-- `t.substr(pos, count)`. -/
def substr (t : Text) (pos count : ℕ) : Text := (t.drop pos).take count

/-- A pattern is found at the start of what it is a prefix of. -/
theorem find_eq_zero {t pattern : Text} : find t pattern = 0 ↔ pattern <+: t := by
  cases t with
  | nil =>
    unfold find firstIndex
    split
    · next h => simp [h]
    · next h => simpa [npos, sizeModulus_eq] using h
  | cons c t =>
    unfold find firstIndex
    split
    · next h => simpa using List.isPrefixOf_iff_prefix.mp h
    · next h =>
      rw [List.isPrefixOf_iff_prefix] at h
      cases firstIndex pattern t <;> simp [npos, sizeModulus_eq, h]

end Text
