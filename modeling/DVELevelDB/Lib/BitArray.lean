import Mathlib.Data.List.Basic
import Mathlib.Data.Nat.Bitwise

/-! # Byte lists as arrays of bits -/

namespace BitArray

def bit (i : ℕ) : UInt8 := UInt8.ofNat (2 ^ i)

def test (array : List UInt8) (p : ℕ) : Bool := (array.getD (p / 8) 0 &&& bit (p % 8)) != 0

def set (array : List UInt8) (p : ℕ) : List UInt8 := array.modify (p / 8) (· ||| bit (p % 8))

section Bits

variable {array : List UInt8} {p q : ℕ}

theorem toNat_bit {i : ℕ} (h : i < 8) : (bit i).toNat = 2 ^ i := by
  have hlt : 2 ^ i < 2 ^ 8 := Nat.pow_lt_pow_right (by decide) h
  rw [bit, UInt8.toNat_ofNat']
  exact Nat.mod_eq_of_lt hlt

theorem and_bit_ne_zero (x : UInt8) {i : ℕ} (h : i < 8) :
    ((x &&& bit i) != 0) = x.toNat.testBit i := by
  have hand : (x &&& bit i).toNat = (x.toNat.testBit i).toNat * 2 ^ i := by
    rw [UInt8.toNat_and, toNat_bit h, Nat.and_two_pow]
  cases hx : x.toNat.testBit i with
  | true =>
    rw [hx] at hand
    rw [bne_iff_ne]
    intro hzero
    rw [hzero] at hand
    have hpos := Nat.two_pow_pos i
    simp at hand
    omega
  | false =>
    rw [hx] at hand
    rw [bne_eq_false_iff_eq]
    apply UInt8.toNat_inj.mp
    simpa using hand

theorem test_eq : test array p = (array.getD (p / 8) 0).toNat.testBit (p % 8) :=
  and_bit_ne_zero _ (Nat.mod_lt _ (by decide))

@[simp] theorem length_set : (set array p).length = array.length := List.length_modify _ _ _

/-- Setting one bit changes no other. -/
theorem test_set (hp : p / 8 < array.length) :
    test (set array p) q = (test array q || decide (q = p)) := by
  rw [test_eq, test_eq, set]
  have hq : q % 8 < 8 := Nat.mod_lt _ (by decide)
  have hp8 : p % 8 < 8 := Nat.mod_lt _ (by decide)
  by_cases hbyte : q / 8 = p / 8
  · simp only [hbyte, List.getD_eq_getElem?_getD, List.getElem?_modify, if_true,
      List.getElem?_eq_getElem hp, Option.map_eq_map, Option.map_some, Option.getD_some,
      UInt8.toNat_or, toNat_bit hp8, Nat.testBit_or, Nat.testBit_two_pow]
    congr 1
    rw [decide_eq_decide]
    constructor
    · intro h
      rw [← Nat.div_add_mod q 8, ← Nat.div_add_mod p 8, hbyte, h]
    · intro h
      rw [h]
  · have hne : q ≠ p := by
      rintro rfl
      exact hbyte rfl
    simp [List.getD_eq_getElem?_getD, Ne.symm hbyte, hne]

end Bits

end BitArray
