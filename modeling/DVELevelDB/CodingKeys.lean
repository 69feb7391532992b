import Mathlib.Order.WithBot
import DVELevelDB.KeyRanges
import DVELevelDB.CompactionInputs

/-! # `CodingKeyComparator`

Keys are decoded and compared as values of a Swift type. The decoded keys are ordered as they
should be, but different bytes may decode to one key.
-/

namespace DVELevelDB

open Utf8

/-- A type that is `CodingKey` and `Comparable`: its name and `init?(stringValue:)`. -/
structure CodingKeyType (κ : Type*) where
  name : Bytes
  initStringValue : String → Option κ

/-- `String(data:encoding:)` for UTF-8. -/
def stringOfData (keyData : Bytes) : Option String := String.fromUTF8? (ByteArray.mk keyData.toArray)

namespace CodingKeyType

variable {κ : Type*} (key : CodingKeyType κ)

def decodeKeyData (keyData : Bytes) : Except KeyError κ :=
  match (stringOfData keyData).bind key.initStringValue with
  | some key => .ok key
  | none => .error .keyEncodingFailed

def compare [LT κ] [DecidableLT κ] (lhs rhs : Bytes) : Exec NSComparisonResult :=
  match key.decodeKeyData lhs, key.decodeKeyData rhs with
  | .ok lhsKey, .ok rhsKey =>
    if lhsKey < rhsKey then
      return .orderedAscending
    else if rhsKey < lhsKey then
      return .orderedDescending
    else
      return .orderedSame
  | _, _ => throw .fatalError

/-- `CodingKeyComparator<Key>`. -/
def codingKeyComparator [LT κ] [DecidableLT κ] : EncodingComparator where
  keyComparatorName := utf8 "DVELevelDB.CodingKeyComparator." ++ key.name
  compare := key.compare
  encodeKey string := .ok (utf8 string)

/-- The key that the bytes decode to; no key is below all others. -/
def rank (keyData : Bytes) : WithBot κ := (stringOfData keyData).bind key.initStringValue

def Decodes (keyData : Bytes) : Prop := ∃ k : κ, key.rank keyData = k

end CodingKeyType

section Specification

variable {κ : Type*} {key : CodingKeyType κ}

theorem stringOfData_utf8 (string : String) : stringOfData (utf8 string) = some string := by
  have hdata : ByteArray.mk (utf8 string).toArray = string.toByteArray := by
    rw [utf8, Array.toArray_toList]
    rfl
  rw [stringOfData, hdata, String.fromUTF8?, dif_pos string.isValidUTF8]
  rfl

namespace CodingKeyType

theorem rank_utf8 (string : String) : key.rank (utf8 string) = key.initStringValue string := by
  rw [rank, stringOfData_utf8]
  rfl

theorem decodes_utf8 (string : String) :
    key.Decodes (utf8 string) ↔ (key.initStringValue string).isSome := by
  rw [Decodes, rank_utf8, Option.isSome_iff_exists]
  rfl

theorem decodeKeyData_eq {keyData : Bytes} {k : κ} (h : key.rank keyData = k) :
    key.decodeKeyData keyData = .ok k := by
  have hsome : (stringOfData keyData).bind key.initStringValue = some k := h
  rw [decodeKeyData, hsome]

variable [LinearOrder κ]

theorem engineComparator_eq {lhs rhs : Bytes} (hl : key.Decodes lhs) (hr : key.Decodes rhs) :
    (engineComparator key.codingKeyComparator.toLevelDBKeyComparator).compare lhs rhs =
      .ok (cmp (key.rank lhs) (key.rank rhs)) := by
  obtain ⟨l, hl⟩ := hl
  obtain ⟨r, hr⟩ := hr
  rw [engineComparator_compare, hl, hr]
  generalize hcmp : cmp (l : WithBot κ) (r : WithBot κ) = order
  simp only [codingKeyComparator, compare, decodeKeyData_eq hl, decodeKeyData_eq hr]
  rcases lt_trichotomy l r with hlt | rfl | hlt
  · rw [if_pos hlt, ← hcmp, (cmp_eq_lt_iff _ _).mpr (WithBot.coe_lt_coe.mpr hlt)]
    rfl
  · rw [if_neg (lt_irrefl _), if_neg (lt_irrefl _), ← hcmp, cmp_self_eq_eq]
    rfl
  · rw [if_neg hlt.asymm, if_pos hlt, ← hcmp, (cmp_eq_gt_iff _ _).mpr (WithBot.coe_lt_coe.mpr hlt)]
    rfl

/-- The engine's comparator of a database with keys of the type. -/
def comparator (key : CodingKeyType κ) : Comparator :=
  engineComparator key.codingKeyComparator.toLevelDBKeyComparator

variable {D : Bytes → Prop}

theorem comparator_orders (hD : ∀ k, D k → key.Decodes k) : key.comparator.OrdersOn D key.rank := by
  constructor
  · intro a b ha hb
    exact engineComparator_eq (hD a ha) (hD b hb)
  · intro a b ha hb hle
    refine ⟨a, ?_, ha, Or.inl le_rfl⟩
    rw [comparator, engineComparator_separator]
    rfl
  · intro a ha
    refine ⟨a, ?_, ha⟩
    rw [comparator, engineComparator_successor]
    rfl

theorem comparator_places (hD : ∀ k, D k → key.Decodes k) {bound : Bytes}
    (hb : key.Decodes bound) : key.comparator.Places D key.rank bound := by
  intro k hk
  constructor
  · exact engineComparator_eq (hD k hk) hb
  · exact engineComparator_eq hb (hD k hk)

end CodingKeyType

end Specification

end DVELevelDB
