import Mathlib.Data.Nat.Basic
import Mathlib.Tactic.Common
import Mathlib.Data.Nat.ModEq

/-!
# `size_t` arithmetic and circular windows

A `size_t` is a natural number below `2 ^ 64`; its sums and differences are
taken modulo `2 ^ 64`.  A circular buffer of `cap` slots keeps ticket `t` in
slot `t % cap`, so a window of at most `cap` consecutive tickets never uses a
slot twice.
-/

/-- The number of values of a `size_t`. -/
def sizeModulus : ℕ := 2 ^ 64

/-- The `size_t` congruent to `n`. -/
@[irreducible] def wrap (n : ℕ) : ℕ := n % sizeModulus

/-- `size_t` subtraction of two values. -/
@[irreducible] def wsub (a b : ℕ) : ℕ := if b ≤ a then a - b else a + sizeModulus - b

theorem sizeModulus_eq : sizeModulus = 18446744073709551616 := rfl

theorem wrap_of_lt {n : ℕ} (h : n < sizeModulus) : wrap n = n := by
  rw [wrap, Nat.mod_eq_of_lt h]

theorem wrap_lt (n : ℕ) : wrap n < sizeModulus := by
  rw [wrap]
  exact Nat.mod_lt _ (by decide)

theorem wrap_le (n : ℕ) : wrap n ≤ n := by
  rw [wrap]
  exact Nat.mod_le _ _

/-- A summand may be wrapped before it is added. -/
theorem wrap_wrap_add (m n : ℕ) : wrap (wrap m + n) = wrap (m + n) := by
  unfold wrap
  exact Nat.mod_add_mod m _ n

/-- Equal `size_t` values have equal sums. -/
theorem wrap_add_congr {m n : ℕ} (h : wrap m = wrap n) (k : ℕ) : wrap (m + k) = wrap (n + k) := by
  rw [← wrap_wrap_add, h, wrap_wrap_add]

theorem wrap_mod_of_dvd {d n : ℕ} (h : d ∣ sizeModulus) : wrap n % d = n % d := by
  unfold wrap
  exact Nat.mod_mod_of_dvd n h

theorem wsub_of_le {a b : ℕ} (hab : b ≤ a) : wsub a b = a - b := by
  rw [wsub, if_pos hab]

theorem wsub_lt {a b : ℕ} (ha : a < sizeModulus) : wsub a b < sizeModulus := by
  rw [wsub]
  split <;> omega

/-- Consecutive numbers have different `size_t` values. -/
theorem wrap_succ_ne (n : ℕ) : wrap (n + 1) ≠ wrap n := by
  unfold wrap
  rw [sizeModulus_eq]
  omega

/-- **A window of `cap` tickets uses each slot once.** -/
theorem eq_of_mod_eq_of_window {cap lo a b : ℕ} (ha : lo ≤ a) (ha' : a < lo + cap)
    (hb : lo ≤ b) (hb' : b < lo + cap) (h : a % cap = b % cap) : a = b := by
  rcases le_total a b with hab | hab
  · have hd : cap ∣ b - a := (Nat.modEq_iff_dvd' hab).mp h
    have := Nat.eq_zero_of_dvd_of_lt hd (by omega)
    omega
  · have hd : cap ∣ a - b := (Nat.modEq_iff_dvd' hab).mp h.symm
    have := Nat.eq_zero_of_dvd_of_lt hd (by omega)
    omega
