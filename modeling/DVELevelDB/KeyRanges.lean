import DVELevelDB.ComparatorFacade
import DVELevelDB.StatusErrors

/-! # Ranges of string keys -/

namespace DVELevelDB

open Utf8

/-- `LevelDBError` of the Swift library, or an error that a comparator brings along. -/
inductive KeyError where
  | invalidKeyRange
  | keyEncodingFailed
  | valueConversionFailed
  | custom (description : String)
  deriving DecidableEq, Repr

/-- A Swift comparator that is a `LevelDBKeyEncoder` too. -/
structure EncodingComparator extends LevelDBKeyComparator where
  encodeKey : String → Except KeyError Bytes

def bytewiseEncodingComparator : EncodingComparator where
  toLevelDBKeyComparator := bytewiseKeyComparator
  encodeKey key := .ok (utf8 key)

section Ranges

variable (keyComparator : EncodingComparator)

def limitedRange (startKeyData : Bytes) : Option Bytes → Except KeyError (Bytes × Bytes)
  | none => .error .invalidKeyRange
  | some limitSuccessor => .ok (startKeyData, limitSuccessor)

/-- The keys that `getApproximateSizes(forKeyRanges:)` hands on for a `ClosedRange`. -/
def closedRangeKeys (lower upper : String) : Exec (Except KeyError (Bytes × Bytes)) :=
  match keyComparator.encodeKey lower, keyComparator.encodeKey upper with
  | .error e, _ => return .error e
  | .ok _, .error e => return .error e
  | .ok startKeyData, .ok limitKeyData => do
    return limitedRange startKeyData (← keyComparator.findShortSuccessor limitKeyData)

end Ranges

/-- The interval of byte keys holds the encodings of the strings from `lower` to `upper`. -/
def Measures (keys : Bytes × Bytes) (lower upper : String) : Prop :=
  ∀ s : String,
    (byteValues keys.1 ≤ byteValues (utf8 s) ∧ byteValues (utf8 s) < byteValues keys.2) ↔
      byteValues (utf8 lower) ≤ byteValues (utf8 s) ∧ byteValues (utf8 s) ≤ byteValues (utf8 upper)

/-- The first byte of `upper`, if any, is below the first byte of `lower`. -/
def StartsBelow (upper lower : String) : Prop :=
  ∃ l ∈ (utf8 lower).head?, ∀ u ∈ (utf8 upper).head?, u < l

section ClosedRange

theorem shortSuccessor_of_all {key : Bytes} (h : key.all (· == 255) = true) :
    shortSuccessor key = key := by
  induction key with
  | nil => rfl
  | cons b key ih =>
    simp only [List.all_cons, Bool.and_eq_true, beq_iff_eq] at h
    rw [shortSuccessor, if_neg (by simp [h.1]), ih h.2]

theorem bytewise_findShortSuccessor (key : Bytes) :
    bytewiseComparator.findShortSuccessor key = .ok (shortSuccessor key) := by
  simp only [bytewiseComparator, pure, Except.pure]
  split_ifs with h
  · rw [shortSuccessor_of_all h]
  · rfl

theorem findShortSuccessor_bytewise (key : Bytes) :
    DVECLevelDBBytewiseKeyComparator.findShortSuccessor key = .ok (some (shortSuccessor key)) := by
  rw [DVECLevelDBBytewiseKeyComparator.findShortSuccessor, copyDataToString_eq,
    bytewise_findShortSuccessor, Stops.ok_bind, createDataForString_eq]
  rfl

theorem closedRangeKeys_bytewise (lower upper : String) :
    closedRangeKeys bytewiseEncodingComparator lower upper =
      .ok (.ok (utf8 lower, shortSuccessor (utf8 upper))) := by
  simp only [closedRangeKeys, bytewiseEncodingComparator, bytewiseKeyComparator,
    findShortSuccessor_bytewise]
  rfl

/-- No text starts with the byte 255. -/
theorem head_utf8_lt {s : String} {b : UInt8} {rest : Bytes} (h : utf8 s = b :: rest) :
    b.toNat < 255 := by
  rw [utf8_eq_encode] at h
  cases hs : s.toList with
  | nil =>
    rw [hs] at h
    cases h
  | cons c text =>
    have hhead := octets_encode_cons c text
    rw [← hs, h] at hhead
    have hle := toNat_le c
    unfold scalarBytes at hhead
    split_ifs at hhead <;> simp only [octets, List.map_cons, List.cons_append,
      List.cons.injEq] at hhead <;> omega

theorem byteValues_cons (b : UInt8) (rest : Bytes) :
    byteValues (b :: rest) = b.toNat :: byteValues rest := rfl

theorem shortSuccessor_utf8 {s : String} {b : UInt8} {rest : Bytes} (h : utf8 s = b :: rest) :
    byteValues (shortSuccessor (utf8 s)) = [b.toNat + 1] := by
  have hlt := head_utf8_lt h
  have hne : b ≠ 255 := by
    rintro rfl
    exact absurd hlt (by decide)
  rw [h, shortSuccessor, if_pos hne]
  have hadd : (b + 1).toNat = b.toNat + 1 := by
    rw [UInt8.toNat_add]
    change (b.toNat + 1) % 256 = b.toNat + 1
    omega
  rw [byteValues_cons, hadd]
  rfl

theorem lt_singleton_iff {x : List ℕ} {n : ℕ} :
    x < [n] ↔ x = [] ∨ ∃ m rest, x = m :: rest ∧ m < n := by
  cases x with
  | nil => simp
  | cons m rest => simp [List.cons_lt_cons_iff]

theorem lt_append_zero (s : String) : byteValues (utf8 s) < byteValues (utf8 (s ++ "\x00")) := by
  have h : utf8 (s ++ "\x00") = utf8 s ++ [0] := by
    rw [utf8_eq_encode, utf8_eq_encode, String.toList_append, encode_append]
    rfl
  have happ : byteValues (utf8 s ++ [0]) = byteValues (utf8 s) ++ [0] := List.map_append
  rw [h, happ]
  conv_lhs => rw [← List.append_nil (byteValues (utf8 s))]
  exact (append_lt_append_iff _ _ _).mpr (List.nil_lt_cons _ _)

theorem not_measures_empty {lower upper : String} (hlower : utf8 lower = [])
    (hupper : utf8 upper = []) :
    ¬ Measures (utf8 lower, shortSuccessor (utf8 upper)) lower upper := by
  intro hm
  have hin := ((hm lower).mpr ⟨le_rfl, by rw [hlower, hupper]⟩).2
  rw [hupper] at hin
  exact List.not_lt_nil _ hin

/-- The upper bound itself, or a string just above it, is where the interval goes wrong. -/
theorem not_measures {lower upper : String} {u : UInt8} {us : Bytes} (hu : utf8 upper = u :: us)
    (hl : ∀ l ∈ (utf8 lower).head?, l ≤ u) :
    ¬ Measures (utf8 lower, shortSuccessor (utf8 upper)) lower upper := by
  intro hm
  have hlimit : byteValues (shortSuccessor (utf8 upper)) = [u.toNat + 1] := shortSuccessor_utf8 hu
  rcases le_or_gt (byteValues (utf8 lower)) (byteValues (utf8 upper)) with hle | hgt
  · have habove := lt_append_zero upper
    have hin : byteValues (utf8 (upper ++ "\x00")) < byteValues (shortSuccessor (utf8 upper)) := by
      rw [hlimit, lt_singleton_iff]
      refine Or.inr ⟨u.toNat, byteValues (us ++ [0]), ?_, by omega⟩
      rw [utf8_eq_encode, String.toList_append, encode_append, ← utf8_eq_encode, hu]
      rfl
    exact absurd ((hm _).mp ⟨hle.trans habove.le, hin⟩).2 (not_le.mpr habove)
  · have hin : byteValues (utf8 lower) < byteValues (shortSuccessor (utf8 upper)) := by
      rw [hlimit, lt_singleton_iff]
      cases hlow : utf8 lower with
      | nil => exact Or.inl rfl
      | cons l ls =>
        have hlu : l ≤ u := hl l (by rw [hlow]; rfl)
        exact Or.inr ⟨l.toNat, byteValues ls, rfl, Nat.lt_succ_of_le hlu⟩
    exact absurd ((hm lower).mp ⟨le_rfl, hin⟩).2 (not_le.mpr hgt)

theorem measures_of_startsBelow {lower upper : String} (h : StartsBelow upper lower) :
    Measures (utf8 lower, shortSuccessor (utf8 upper)) lower upper := by
  obtain ⟨l, hl, hlt⟩ := h
  obtain ⟨ls, hlow⟩ : ∃ ls, utf8 lower = l :: ls := List.head?_eq_some_iff.mp hl
  have habove : ∀ s : String, byteValues (utf8 lower) ≤ byteValues (utf8 s) →
      ∃ m rest, byteValues (utf8 s) = m :: rest ∧ l.toNat ≤ m := by
    intro s hs
    rw [hlow, byteValues_cons] at hs
    cases hv : byteValues (utf8 s) with
    | nil =>
      rw [hv] at hs
      exact absurd hs (not_le.mpr (List.nil_lt_cons _ _))
    | cons m rest =>
      refine ⟨m, rest, rfl, ?_⟩
      rw [hv] at hs
      by_contra hm
      exact absurd hs (not_le.mpr (List.cons_lt_cons_iff.mpr (Or.inl (by omega))))
  intro s
  refine iff_of_false ?_ ?_
  · rintro ⟨hs, hin⟩
    obtain ⟨m, rest, hv, hle⟩ := habove s hs
    cases hupper : utf8 upper with
    | nil =>
      rw [hupper] at hin
      exact absurd hin (List.not_lt_nil _)
    | cons u us =>
      have hu : u < l := hlt u (by rw [hupper]; rfl)
      rw [shortSuccessor_utf8 hupper, hv, lt_singleton_iff] at hin
      rcases hin with hnil | ⟨m', rest', heq, hm⟩
      · cases hnil
      · obtain ⟨rfl, -⟩ := List.cons.inj heq
        have : u.toNat < l.toNat := hu
        omega
  · rintro ⟨hs, hle⟩
    obtain ⟨m, rest, hv, hm⟩ := habove s hs
    rw [hv] at hle
    cases hupper : utf8 upper with
    | nil =>
      rw [hupper] at hle
      exact absurd hle (not_le.mpr (List.nil_lt_cons _ _))
    | cons u us =>
      have hu : u.toNat < l.toNat := hlt u (by rw [hupper]; rfl)
      rw [hupper, byteValues_cons] at hle
      exact absurd hle (not_le.mpr (List.cons_lt_cons_iff.mpr (Or.inl (by omega))))

theorem measures_iff_startsBelow (lower upper : String) :
    Measures (utf8 lower, shortSuccessor (utf8 upper)) lower upper ↔ StartsBelow upper lower := by
  constructor
  · intro hm
    by_contra hnot
    have hl : ∀ l ∈ (utf8 lower).head?, ∃ u ∈ (utf8 upper).head?, l ≤ u := by
      intro l hl
      by_contra hno
      apply hnot
      refine ⟨l, hl, ?_⟩
      intro u hu
      by_contra hle
      exact hno ⟨u, hu, UInt8.not_lt.mp hle⟩
    cases hupper : utf8 upper with
    | nil =>
      have hlow : utf8 lower = [] := by
        cases hlow : utf8 lower with
        | nil => rfl
        | cons l ls =>
          obtain ⟨u, hu, -⟩ := hl l (by rw [hlow]; rfl)
          rw [hupper] at hu
          cases hu
      exact not_measures_empty hlow hupper hm
    | cons u us =>
      apply not_measures hupper _ hm
      intro l hlhead
      obtain ⟨u', hu', hle⟩ := hl l hlhead
      rw [hupper] at hu'
      obtain rfl := Option.some_inj.mp hu'
      exact hle
  · exact measures_of_startsBelow

end ClosedRange

/-- A closed range of strings is measured as written only when no string lies between the bounds
or below the limit: else the limit lets strings above the upper bound in, or leaves the empty
string out. -/
theorem closedRange_measures_iff (lower upper : String) :
    ∃ keys, closedRangeKeys bytewiseEncodingComparator lower upper = .ok (.ok keys) ∧
      (Measures keys lower upper ↔ StartsBelow upper lower) :=
  ⟨_, closedRangeKeys_bytewise lower upper, measures_iff_startsBelow lower upper⟩

/-- The size of `"A1"..."A1"` counts the key `"A2"`. -/
theorem closedRange_counts_more :
    ¬ ∀ keys, closedRangeKeys bytewiseEncodingComparator "A1" "A1" = .ok (.ok keys) →
      Measures keys "A1" "A1" := by
  intro h
  have hm := h (utf8 "A1", [0x42]) (by decide +kernel) "A2"
  have hbytes : utf8 "A1" = [0x41, 0x31] ∧ utf8 "A2" = [0x41, 0x32] := by decide +kernel
  rw [hbytes.1, hbytes.2] at hm
  have := (hm.mp (by decide)).2
  revert this
  decide

end DVELevelDB
