import DVELevelDB.Status
import Mathlib.Order.Compare
import Mathlib.Order.Basic
import Mathlib.Data.List.Lex
import Mathlib.Data.UInt

/-! # Key comparators -/

namespace DVELevelDB

open Stops (Ensures)

/-- The engine's comparator interface; a comparator written in Swift may trap. -/
structure Comparator where
  name : Bytes
  compare : Bytes → Bytes → Exec Ordering
  findShortestSeparator : Bytes → Bytes → Exec Bytes
  findShortSuccessor : Bytes → Exec Bytes

namespace Comparator

/-- On the keys in `D` the comparator orders by `rank` and keeps to its contract. -/
structure OrdersOn {κ : Type*} [LinearOrder κ] (c : Comparator) (D : Bytes → Prop)
    (rank : Bytes → κ) : Prop where
  compare_eq : ∀ a b, D a → D b → c.compare a b = .ok (cmp (rank a) (rank b))
  separator : ∀ a b, D a → D b → rank a ≤ rank b →
    ∃ s, c.findShortestSeparator a b = .ok s ∧ D s ∧ (rank s ≤ rank a ∨ rank s < rank b)
  successor : ∀ a, D a → ∃ s, c.findShortSuccessor a = .ok s ∧ D s

end Comparator

/-- A comparator with a total order over all keys, as `comparator.h` asks for. -/
structure LawfulComparator (κ : Type*) [LinearOrder κ] extends Comparator where
  rank : Bytes → κ
  rank_injective : Function.Injective rank
  orders : toComparator.OrdersOn (fun _ => True) rank

section Bytewise

/-- `Slice::compare`: byte by byte, a proper prefix first. -/
def sliceCompare : Bytes → Bytes → Ordering
  | [], [] => .eq
  | [], _ :: _ => .lt
  | _ :: _, [] => .gt
  | x :: a, y :: b => if x < y then .lt else if y < x then .gt else sliceCompare a b

def commonPrefix : Bytes → Bytes → ℕ
  | x :: a, y :: b => if x = y then commonPrefix a b + 1 else 0
  | _, _ => 0

/-- `key` up to its first byte below 255, which is increased. -/
def shortSuccessor : Bytes → Bytes
  | [] => []
  | byte :: key => if byte ≠ 255 then [byte + 1] else byte :: shortSuccessor key

def bytewiseComparator : Comparator where
  name := utf8 "leveldb.BytewiseComparator"
  compare a b := pure (sliceCompare a b)
  findShortestSeparator start limit := do
    let diffIndex := commonPrefix start limit
    match start.drop diffIndex, limit.drop diffIndex with
    | diffByte :: _, limitByte :: _ =>
      if diffByte < 255 ∧ diffByte + 1 < limitByte then
        let start' := start.take diffIndex ++ [diffByte + 1]
        assertThat (sliceCompare start' limit == .lt)
        return start'
      else
        return start
    | _, _ => return start
  findShortSuccessor key :=
    pure (if key.all (· == 255) then key else shortSuccessor key)

def byteValues (key : Bytes) : List ℕ := key.map UInt8.toNat

theorem byteValues_injective : Function.Injective byteValues :=
  List.map_injective_iff.mpr fun _ _ => UInt8.toNat_inj.mp

theorem byteValues_cons_lt {x y : UInt8} {a b : Bytes} :
    byteValues (x :: a) < byteValues (y :: b) ↔ x < y ∨ x = y ∧ byteValues a < byteValues b := by
  rw [byteValues, byteValues, List.map_cons, List.map_cons, List.cons_lt_cons_iff, UInt8.toNat_inj]
  rfl

theorem sliceCompare_self (a : Bytes) : sliceCompare a a = .eq := by
  induction a with
  | nil => rfl
  | cons x a ih => simp [sliceCompare, ih]

theorem sliceCompare_of_lt {a b : Bytes} (h : byteValues a < byteValues b) :
    sliceCompare a b = .lt ∧ sliceCompare b a = .gt := by
  induction a generalizing b with
  | nil =>
    cases b with
    | nil => exact absurd h (lt_irrefl _)
    | cons y b => exact ⟨rfl, rfl⟩
  | cons x a ih =>
    cases b with
    | nil => exact absurd h (List.not_lt_nil _)
    | cons y b =>
      rcases byteValues_cons_lt.mp h with hxy | ⟨rfl, hab⟩
      · have hyx : ¬ y < x := fun hyx => UInt8.lt_irrefl _ (UInt8.lt_trans hxy hyx)
        simp [sliceCompare, hxy, hyx]
      · simpa [sliceCompare] using ih hab

/-- What the separator search relies on: the shortened key stays below the limit. -/
theorem shortened_lt_limit (start limit : Bytes) {diffByte limitByte : UInt8} {s l : Bytes}
    (hs : start.drop (commonPrefix start limit) = diffByte :: s)
    (hl : limit.drop (commonPrefix start limit) = limitByte :: l)
    (h : diffByte + 1 < limitByte) :
    byteValues (start.take (commonPrefix start limit) ++ [diffByte + 1]) < byteValues limit := by
  induction start generalizing limit with
  | nil => simp [commonPrefix] at hs
  | cons x start ih =>
    cases limit with
    | nil => simp [commonPrefix] at hl
    | cons y limit =>
      by_cases hxy : x = y
      · subst hxy
        simp only [commonPrefix, if_true, List.drop_succ_cons, List.take_succ_cons,
          List.cons_append] at hs hl ⊢
        exact byteValues_cons_lt.mpr (Or.inr ⟨rfl, ih limit hs hl⟩)
      · simp only [commonPrefix, hxy, if_false, List.drop_zero, List.cons.injEq] at hs hl
        obtain ⟨rfl, rfl⟩ := hs
        obtain ⟨rfl, rfl⟩ := hl
        simp only [commonPrefix, hxy, if_false, List.take_zero, List.nil_append]
        exact byteValues_cons_lt.mpr (Or.inl h)

theorem bytewiseComparator_orders :
    bytewiseComparator.OrdersOn (fun _ => True) byteValues where
  compare_eq a b _ _ := by
    change Except.ok (sliceCompare a b) = _
    rcases lt_trichotomy (byteValues a) (byteValues b) with h | h | h
    · rw [(sliceCompare_of_lt h).1, (cmp_eq_lt_iff _ _).mpr h]
    · rw [(cmp_eq_eq_iff _ _).mpr h, byteValues_injective h, sliceCompare_self]
    · rw [(sliceCompare_of_lt h).2, (cmp_eq_gt_iff _ _).mpr h]
  separator a b _ _ _ := by
    simp only [bytewiseComparator]
    split
    · rename_i diffByte s limitByte l hs hl
      split_ifs with h
      · have hlt := shortened_lt_limit a b hs hl h.2
        refine ⟨_, ?_, trivial, Or.inr hlt⟩
        rw [(sliceCompare_of_lt hlt).1]
        rfl
      · exact ⟨a, rfl, trivial, Or.inl le_rfl⟩
    · exact ⟨a, rfl, trivial, Or.inl le_rfl⟩
  successor a _ := ⟨_, rfl, trivial⟩

def bytewise : LawfulComparator (List ℕ) where
  toComparator := bytewiseComparator
  rank := byteValues
  rank_injective := byteValues_injective
  orders := bytewiseComparator_orders

end Bytewise

end DVELevelDB
