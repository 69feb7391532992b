import Mathlib.Data.List.Basic
import Mathlib.Data.Nat.Bitwise
import Mathlib.Logic.Function.Iterate

/-! # Registers that are fed word by word

A word is added to the register and the sum goes through an additive map. The same value comes out
when the words are dealt out to several lanes, each of which moves on by as many turns as there are
lanes. A table of such a map doubles with each bit of its index.
-/

namespace Registers

variable {M : Type*} (op : M → M → M) (L : M → M)

/-- The register after some words. -/
def feed (l : M) (words : List M) : M := words.foldl (fun l w => L (op l w)) l

/-- The first lane takes in a word and becomes the last one. -/
def rotate (lanes : List M) (w : M) : List M :=
  lanes.tail ++ lanes.head?.toList.map fun c => op w (L^[lanes.length] c)

variable {op L} {l a b z w : M} {words lanes : List M}

theorem feed_append (words words' : List M) :
    feed op L l (words ++ words') = feed op L (feed op L l words) words' := List.foldl_append

theorem length_rotate (hne : lanes ≠ []) : (rotate op L lanes w).length = lanes.length := by
  cases lanes with
  | nil => exact absurd rfl hne
  | cons c rest => simp [rotate]

section Additive

variable (hL : ∀ a b, L (op a b) = op (L a) (L b))

include hL

theorem iterate_op (n : ℕ) : L^[n] (op a b) = op (L^[n] a) (L^[n] b) := by
  induction n with
  | zero => rfl
  | succ n ih => rw [Function.iterate_succ_apply', Function.iterate_succ_apply',
      Function.iterate_succ_apply', ih, hL]

variable [Std.Associative op] [Std.Commutative op]

/-- What is in the register already goes through the map once for each word. -/
theorem feed_op : feed op L (op a b) words = op (feed op L a words) (L^[words.length] b) := by
  induction words generalizing a b with
  | nil => rfl
  | cons w words ih =>
    have hmove : L (op (op a b) w) = op (L (op a w)) (L b) := by
      rw [← hL]
      congr 1
      ac_rfl
    have hcons : feed op L (op a b) (w :: words) = feed op L (L (op (op a b) w)) words := rfl
    rw [hcons, hmove, ih, List.length_cons, Function.iterate_succ_apply]
    rfl

variable (hz : ∀ a, op z a = a)

include hz

theorem feed_rotate (hne : lanes ≠ []) :
    feed op L z (rotate op L lanes w) = L (op (feed op L z lanes) w) := by
  cases lanes with
  | nil => exact absurd rfl hne
  | cons c rest =>
    have hfirst : feed op L z (c :: rest) = op (feed op L z rest) (L^[rest.length] (L c)) := by
      have hcons : feed op L z (c :: rest) = feed op L (op z (L c)) rest := by
        rw [hz]
        exact congrArg (fun x => feed op L (L x) rest) (hz c)
      rw [hcons, feed_op hL]
    have hrotate : rotate op L (c :: rest) w = rest ++ [op w (L^[rest.length + 1] c)] := rfl
    rw [hrotate, feed_append, hfirst, Function.iterate_succ_apply]
    exact congrArg L (by ac_rfl)

/-- The lanes, put together at the end, hold what the register would. -/
theorem foldl_rotate (hne : lanes ≠ []) (words : List M) :
    feed op L z (words.foldl (rotate op L) lanes) = feed op L (feed op L z lanes) words := by
  induction words generalizing lanes with
  | nil => rfl
  | cons w words ih =>
    have hne' : rotate op L lanes w ≠ [] := by
      rw [← List.length_pos_iff, length_rotate hne]
      exact List.length_pos_iff.mpr hne
    rw [List.foldl_cons, ih hne', feed_rotate hL hz hne]
    rfl

end Additive

section Tables

def doubled (op : M → M → M) (table values : List M) : List M :=
  values.foldl (fun table v => table ++ table.map (op v)) table

theorem two_pow_mul_xor {n i : ℕ} (a : ℕ) (h : i < 2 ^ n) : 2 ^ n * a ^^^ i = 2 ^ n * a + i := by
  rw [Nat.two_pow_add_eq_or_of_lt h a]
  refine Nat.eq_of_testBit_eq fun j => ?_
  rw [Nat.testBit_xor, Nat.testBit_or, Nat.testBit_two_pow_mul]
  by_cases hj : n ≤ j
  · simp [Nat.testBit_lt_two_pow (h.trans_le (Nat.pow_le_pow_right Nat.two_pos hj))]
  · simp [hj]

theorem map_range_two_pow {g : ℕ → M} (hg : ∀ a b, g (a ^^^ b) = op (g a) (g b)) (n : ℕ) :
    (List.range (2 ^ n)).map g =
      doubled op [g 0] ((List.range n).map fun k => g (2 ^ k)) := by
  induction n with
  | zero => rfl
  | succ n ih =>
    have hupper : (List.range (2 ^ n)).map (g ∘ fun i => 2 ^ n + i) =
        ((List.range (2 ^ n)).map g).map (op (g (2 ^ n))) := by
      rw [List.map_map]
      refine List.map_congr_left fun i hi => ?_
      have hxor := two_pow_mul_xor 1 (List.mem_range.mp hi)
      rw [mul_one] at hxor
      rw [Function.comp_apply, ← hxor, hg]
      rfl
    have hlast : doubled op [g 0] ((List.range (n + 1)).map fun k => g (2 ^ k)) =
        doubled op (doubled op [g 0] ((List.range n).map fun k => g (2 ^ k))) [g (2 ^ n)] := by
      rw [List.range_succ, List.map_append, doubled, List.foldl_append]
      rfl
    rw [hlast, ← ih, pow_succ, mul_two, List.range_add, List.map_append, List.map_map, hupper]
    rfl

end Tables

end Registers
