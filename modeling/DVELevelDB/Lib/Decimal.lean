import Mathlib.Data.List.Basic
import Mathlib.Order.Basic

/-! # Decimal numerals

What the digits of a number are read back as.
-/

namespace Decimal

def digit (c : Char) : ℕ := c.toNat - 48

/-- The number that `digits` spell after the digits of `v`. -/
def read (v : ℕ) (digits : List Char) : ℕ := digits.foldl (fun v c => v * 10 + digit c) v

@[simp] theorem read_nil (v : ℕ) : read v [] = v := rfl

theorem read_cons (v : ℕ) (c : Char) (digits : List Char) :
    read v (c :: digits) = read (v * 10 + digit c) digits := by
  rw [read, List.foldl_cons, ← read]

theorem read_append (v : ℕ) (a b : List Char) : read v (a ++ b) = read (read v a) b :=
  List.foldl_append

theorem digit_digitChar {d : ℕ} (h : d < 10) : digit (Nat.digitChar d) = d := by
  rw [digit, Nat.toNat_digitChar_of_lt_ten h]
  omega

/-- Reading on makes a number no smaller. -/
theorem le_read (v : ℕ) (digits : List Char) : v ≤ read v digits := by
  induction digits generalizing v with
  | nil => exact Nat.le_refl v
  | cons c digits ih =>
    rw [read_cons]
    have := ih (v * 10 + digit c)
    omega

theorem read_toDigits (n : ℕ) : read 0 (Nat.toDigits 10 n) = n := by
  induction n using Nat.strongRecOn with
  | ind n ih =>
    rw [Nat.toDigits_eq_if (by decide)]
    by_cases h : n < 10
    · rw [if_pos h, read_cons, digit_digitChar h, read_nil]
      omega
    · rw [if_neg h, read_append, ih (n / 10) (by omega), read_cons,
        digit_digitChar (Nat.mod_lt n (by decide)), read_nil]
      omega

theorem isDigit_toDigits {n : ℕ} {c : Char} (h : c ∈ Nat.toDigits 10 n) : c.isDigit :=
  Nat.isDigit_of_mem_toDigits (by decide) (by decide) h

theorem toNat_of_isDigit {c : Char} (h : c.isDigit) : 48 ≤ c.toNat ∧ c.toNat ≤ 57 := by
  simp only [Char.isDigit, Bool.and_eq_true, decide_eq_true_eq, ge_iff_le,
    UInt32.le_iff_toNat_le] at h
  exact h

end Decimal
