import DVELevelDB.KeyRanges
import DVELevelDB.DVECLevelDB

/-! # Swift's order of strings and the order of their keys

Swift compares strings by a canonical form of their scalars; `canonical` stands for that form.
-/

namespace DVELevelDB

open Utf8

namespace SwiftString

variable (canonical : List Char → List Char)

def equal (a b : String) : Prop := canonical a.toList = canonical b.toList

def less (a b : String) : Prop := scalars (canonical a.toList) < scalars (canonical b.toList)

def lessOrEqual (a b : String) : Prop := ¬ less canonical b a

instance (a b : String) : Decidable (equal canonical a b) :=
  inferInstanceAs (Decidable (canonical a.toList = canonical b.toList))

instance (a b : String) : Decidable (less canonical a b) :=
  inferInstanceAs (Decidable (scalars (canonical a.toList) < scalars (canonical b.toList)))

end SwiftString

section Ranges

variable (canonical : List Char → List Char) (keyComparator : EncodingComparator)

/-- The keys that `getApproximateSizes(forKeyRanges:)` hands on for a `Range`. -/
def rangeKeys (lower upper : String) : Exec (Except KeyError (Bytes × Bytes)) :=
  if SwiftString.equal canonical lower upper then
    return .error .invalidKeyRange
  else
    match keyComparator.encodeKey lower, keyComparator.encodeKey upper with
    | .error e, _ => return .error e
    | .ok _, .error e => return .error e
    | .ok startKeyData, .ok limitKeyData =>
      -- `range.contains(range.upperBound)`
      if ¬ SwiftString.less canonical upper lower ∧ SwiftString.less canonical upper upper then do
        return limitedRange startKeyData (← keyComparator.findShortSuccessor limitKeyData)
      else
        return .ok (startKeyData, limitKeyData)

/-- The keys that `compact(keyRange:)` hands on. -/
def compactKeys (lower upper : String) : Except KeyError (Bytes × Bytes) :=
  match keyComparator.encodeKey lower, keyComparator.encodeKey upper with
  | .error e, _ => .error e
  | .ok _, .error e => .error e
  | .ok startKeyData, .ok endKeyData => .ok (startKeyData, endKeyData)

end Ranges

def KeyLE (a b : Bytes) : Prop := byteValues a ≤ byteValues b

/-- The keys of two strings are ordered as the strings, and so are the ranges between them. -/
structure OrderedAlike (canonical : List Char → List Char) (a b : String) : Prop where
  same_key : SwiftString.equal canonical a b → utf8 a = utf8 b
  not_descending : SwiftString.lessOrEqual canonical a b → ∃ r,
    bytewiseEncodingComparator.compare (utf8 a) (utf8 b) = .ok r ∧ r ≠ .orderedDescending
  range : SwiftString.lessOrEqual canonical a b → ∀ keys,
    rangeKeys canonical bytewiseEncodingComparator a b = .ok (.ok keys) → KeyLE keys.1 keys.2
  closedRange : SwiftString.lessOrEqual canonical a b → ∀ keys,
    closedRangeKeys bytewiseEncodingComparator a b = .ok (.ok keys) → KeyLE keys.1 keys.2
  compact : SwiftString.lessOrEqual canonical a b → ∀ keys,
    compactKeys bytewiseEncodingComparator a b = .ok keys → KeyLE keys.1 keys.2
  isEmpty : SwiftString.lessOrEqual canonical a b →
    (SwiftString.equal canonical a b ↔ KeyLE (utf8 b) (utf8 a))
  found : SwiftString.equal canonical a b → ∀ files snapshot db,
    LevelDB.value bytewiseComparator files snapshot (utf8 b) db =
      LevelDB.value bytewiseComparator files snapshot (utf8 a) db

section Order

variable {canonical : List Char → List Char} {a b : String}

theorem byteValues_utf8_lt_iff :
    byteValues (utf8 a) < byteValues (utf8 b) ↔ scalars a.toList < scalars b.toList := by
  rw [utf8_eq_encode, utf8_eq_encode]
  exact encode_lt_iff

theorem utf8_inj : utf8 a = utf8 b ↔ a = b := by
  constructor
  · intro h
    rw [utf8_eq_encode, utf8_eq_encode] at h
    exact String.toList_inj.mp (encode_injective h)
  · rintro rfl
    rfl

theorem keyLE_iff : KeyLE (utf8 a) (utf8 b) ↔ scalars a.toList ≤ scalars b.toList := by
  rw [KeyLE, ← not_lt, byteValues_utf8_lt_iff, not_lt]

theorem compare_utf8 : ∃ r, bytewiseEncodingComparator.compare (utf8 a) (utf8 b) = .ok r ∧
    (r = .orderedDescending ↔ scalars b.toList < scalars a.toList) := by
  have hcmp := bytewiseComparator_orders.compare_eq (utf8 a) (utf8 b) trivial trivial
  change ∃ r, DVECLevelDBBytewiseKeyComparator.compare (utf8 a) (utf8 b) = .ok r ∧ _
  rw [DVECLevelDBBytewiseKeyComparator.compare, hcmp, Stops.ok_bind, ← byteValues_utf8_lt_iff]
  rcases lt_trichotomy (byteValues (utf8 a)) (byteValues (utf8 b)) with h | h | h
  · rw [(cmp_eq_lt_iff _ _).mpr h]
    exact ⟨_, rfl, iff_of_false (by simp) (lt_asymm h)⟩
  · rw [(cmp_eq_eq_iff _ _).mpr h, h]
    exact ⟨_, rfl, iff_of_false (by simp) (lt_irrefl _)⟩
  · rw [(cmp_eq_gt_iff _ _).mpr h]
    exact ⟨_, rfl, iff_of_true rfl h⟩

theorem le_shortSuccessor (key : Bytes) : KeyLE key (shortSuccessor key) := by
  induction key with
  | nil => exact le_rfl
  | cons byte key ih =>
    rw [shortSuccessor]
    split_ifs with h
    · apply le_of_lt
      have hadd : (byte + 1).toNat = byte.toNat + 1 := by
        have hlt : byte.toNat < 255 := by
          have := byte.toNat_lt
          rcases Nat.lt_or_ge byte.toNat 255 with hlt | hge
          · exact hlt
          · exact absurd (UInt8.toNat_inj.mp (show byte.toNat = (255 : UInt8).toNat by
              change byte.toNat = 255
              omega)) h
        rw [UInt8.toNat_add]
        change (byte.toNat + 1) % 256 = _
        omega
      apply byteValues_cons_lt.mpr
      left
      rw [UInt8.lt_iff_toNat_lt, hadd]
      omega
    · rw [KeyLE, byteValues_cons, byteValues_cons]
      rcases eq_or_lt_of_le ih with heq | hlt
      · rw [heq]
      · exact le_of_lt (List.cons_lt_cons_iff.mpr (Or.inr ⟨rfl, hlt⟩))

/-- What the canonical form must not change: the order of the scalars. -/
structure CanonicallyOrdered (canonical : List Char → List Char) (a b : String) : Prop where
  lt_iff : scalars (canonical a.toList) < scalars (canonical b.toList) ↔
    scalars a.toList < scalars b.toList
  gt_iff : scalars (canonical b.toList) < scalars (canonical a.toList) ↔
    scalars b.toList < scalars a.toList

/-- Strings in canonical form compare by their scalars. -/
theorem CanonicallyOrdered.of_canonical (ha : canonical a.toList = a.toList)
    (hb : canonical b.toList = b.toList) : CanonicallyOrdered canonical a b := by
  constructor
  · rw [ha, hb]
  · rw [ha, hb]

theorem CanonicallyOrdered.equal_iff (h : CanonicallyOrdered canonical a b) :
    SwiftString.equal canonical a b ↔ a = b := by
  constructor
  · intro heq
    have hsame : scalars (canonical a.toList) = scalars (canonical b.toList) := congrArg scalars heq
    have hlt := mt h.lt_iff.mpr (by rw [hsame]; exact lt_irrefl _)
    have hgt := mt h.gt_iff.mpr (by rw [hsame]; exact lt_irrefl _)
    exact String.toList_inj.mp (scalars_injective (le_antisymm (not_lt.mp hgt) (not_lt.mp hlt)))
  · rintro rfl
    rfl

theorem CanonicallyOrdered.symm (h : CanonicallyOrdered canonical a b) :
    CanonicallyOrdered canonical b a := ⟨h.gt_iff, h.lt_iff⟩

theorem CanonicallyOrdered.le (h : CanonicallyOrdered canonical a b)
    (hle : SwiftString.lessOrEqual canonical a b) : KeyLE (utf8 a) (utf8 b) := by
  rw [keyLE_iff, ← not_lt, ← h.gt_iff]
  exact hle

theorem CanonicallyOrdered.orderedAlike (h : CanonicallyOrdered canonical a b) :
    OrderedAlike canonical a b := by
  constructor
  · intro heq
    rw [h.equal_iff.mp heq]
  · intro hle
    obtain ⟨r, hr, hdesc⟩ := compare_utf8 (a := a) (b := b)
    refine ⟨r, hr, ?_⟩
    rw [ne_eq, hdesc, ← h.gt_iff]
    exact hle
  · intro hle keys hkeys
    rw [rangeKeys] at hkeys
    by_cases heq : SwiftString.equal canonical a b
    · rw [if_pos heq] at hkeys
      cases hkeys
    · have hcontains : ¬ (¬ SwiftString.less canonical b a ∧ SwiftString.less canonical b b) :=
        fun hc => lt_irrefl _ hc.2
      simp only [if_neg heq, if_neg hcontains, bytewiseEncodingComparator] at hkeys
      cases hkeys
      exact h.le hle
  · intro hle keys hkeys
    rw [closedRangeKeys_bytewise] at hkeys
    cases hkeys
    exact le_trans (h.le hle) (le_shortSuccessor (utf8 b))
  · intro hle keys hkeys
    cases hkeys
    exact h.le hle
  · intro hle
    rw [h.equal_iff]
    constructor
    · rintro rfl
      exact le_rfl
    · intro hge
      exact utf8_inj.mp (byteValues_injective (le_antisymm (h.le hle) hge))
  · intro heq files snapshot db
    rw [h.equal_iff.mp heq]

theorem orderedAlike_of_canonical (ha : canonical a.toList = a.toList)
    (hb : canonical b.toList = b.toList) : OrderedAlike canonical a b :=
  (CanonicallyOrdered.of_canonical ha hb).orderedAlike

end Order

/-- Two strings and their keys are ordered alike exactly when the canonical form keeps the order
of their scalars, as it does for strings that are in canonical form. -/
theorem strings_orderedAlike_iff (canonical : List Char → List Char) (a b : String) :
    (OrderedAlike canonical a b ∧ OrderedAlike canonical b a) ↔
      CanonicallyOrdered canonical a b := by
  constructor
  · rintro ⟨hab, hba⟩
    have hlt : ∀ {x y : String}, OrderedAlike canonical x y → SwiftString.less canonical x y →
        scalars x.toList < scalars y.toList := by
      intro x y hxy hl
      obtain ⟨r, hr, hne⟩ := hxy.not_descending (lt_asymm hl)
      obtain ⟨r', hr', hdesc⟩ := compare_utf8 (a := x) (b := y)
      obtain rfl : r = r' := Except.ok.inj (hr.symm.trans hr')
      have hle := not_lt.mp (mt hdesc.mpr hne)
      apply lt_of_le_of_ne hle
      intro heq
      have hsame : x = y := String.toList_inj.mp (scalars_injective heq)
      rw [hsame] at hl
      exact lt_irrefl _ hl
    have hiff : ∀ {x y : String}, OrderedAlike canonical x y → OrderedAlike canonical y x →
        (SwiftString.less canonical x y ↔ scalars x.toList < scalars y.toList) := by
      intro x y hxy hyx
      refine ⟨hlt hxy, ?_⟩
      intro hl
      by_contra hnot
      rcases lt_or_eq_of_le (not_lt.mp hnot) with hgt | heq
      · exact lt_asymm hl (hlt hyx hgt)
      · have hkey := hyx.same_key (scalars_injective heq)
        rw [utf8_inj.mp hkey] at hl
        exact lt_irrefl _ hl
    exact ⟨hiff hab hba, hiff hba hab⟩
  · intro h
    exact ⟨h.orderedAlike, h.symm.orderedAlike⟩

/-- Composition of a letter `e` with an acute accent, one of the canonical equivalences. -/
def composeAcute : List Char → List Char
  | 'e' :: '\u0301' :: text => '\u00e9' :: composeAcute text
  | c :: text => c :: composeAcute text
  | [] => []

example : OrderedAlike composeAcute "caf\u00e9" "cafe" :=
  orderedAlike_of_canonical (by decide) (by decide)

/-- Two spellings of one Swift string. -/
theorem composed_accent : ¬ OrderedAlike composeAcute "\u00e9" "e\u0301" := by
  intro h
  have hequal : SwiftString.equal composeAcute "\u00e9" "e\u0301" := by decide +kernel
  have hkey := h.same_key hequal
  revert hkey
  decide +kernel

end DVELevelDB
