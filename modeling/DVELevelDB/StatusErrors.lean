import DVELevelDB.Status
import DVELevelDB.Lib.Utf8

/-! # Errors for all statuses -/

namespace DVELevelDB

open Utf8

theorem utf8_eq_encode (s : String) : utf8 s = encode s.toList := toUTF8_eq s

/-- A status other than OK becomes an error with the matching code, without an exception. -/
def StatusReported (s : Status) : Prop :=
  ∃ e, createFromLevelDBStatus s = .ok e ∧ (e = none ↔ s = .ok) ∧
    ∀ code state, s = .error code state → ∃ err ∈ e, err.code = errorCode code

section Descriptions

theorem stringWithUTF8String_isSome (cstr : Bytes) :
    (∃ text, stringWithUTF8String cstr = some text) ↔ Encoded (cstr.takeWhile (· ≠ 0)) := by
  unfold stringWithUTF8String
  rw [← validateUTF8_iff]
  simp only
  split_ifs with h
  · exact iff_of_true ⟨_, rfl⟩ h
  · exact iff_of_false (by simp) h

theorem encoded_takeWhile_append (text : String) (hz : (0 : UInt8) ∉ utf8 text) (rest : Bytes) :
    Encoded ((utf8 text ++ rest).takeWhile (· ≠ 0)) ↔ Encoded (rest.takeWhile (· ≠ 0)) := by
  have hall : ∀ b ∈ utf8 text, decide (b ≠ 0) = true := by
    intro b hb
    apply decide_eq_true
    rintro rfl
    exact hz hb
  rw [List.takeWhile_append_of_pos hall, utf8_eq_encode, encoded_append_iff]

/-- The type of a status, in front of its message. -/
def typeText : Code → String
  | .notFound => "NotFound: "
  | .corruption => "Corruption: "
  | .notSupported => "Not implemented: "
  | .invalidArgument => "Invalid argument: "
  | .ioError => "IO error: "

theorem toBytes_error (code : Code) (state : Bytes) :
    (Status.error code state).toBytes = utf8 (typeText code) ++ state := by
  cases code <;> rfl

theorem zero_notMem_typeText (code : Code) : (0 : UInt8) ∉ utf8 (typeText code) := by
  cases code <;> decide +kernel

theorem createFromLevelDBStatus_error (code : Code) (state : Bytes) :
    (∃ e, createFromLevelDBStatus (.error code state) = .ok e) ↔
      Encoded (state.takeWhile (· ≠ 0)) := by
  rw [← encoded_takeWhile_append (typeText code) (zero_notMem_typeText code), ← toBytes_error,
    ← stringWithUTF8String_isSome, createFromLevelDBStatus]
  split
  · next description h => simp [h, pure, Except.pure]
  · next h => simp [h]

end Descriptions

/-- Every status is reported exactly when its message, read as a C string, is UTF-8. -/
theorem status_reported_iff (s : Status) :
    StatusReported s ↔
      ∀ code state, s = .error code state → Encoded (state.takeWhile (· ≠ 0)) := by
  cases s with
  | ok =>
    refine iff_of_true ⟨none, rfl, by simp, ?_⟩ ?_
    · intro code state h
      cases h
    · intro code state h
      cases h
  | error code state =>
    constructor
    · rintro ⟨e, he, -⟩ code' state' h
      cases h
      exact (createFromLevelDBStatus_error code state).mp ⟨e, he⟩
    · intro h
      obtain ⟨e, he⟩ := (createFromLevelDBStatus_error code state).mpr (h code state rfl)
      refine ⟨e, he, createFromLevelDBStatus_isOk he, ?_⟩
      intro code' state' heq
      cases heq
      obtain ⟨description, rfl⟩ := createFromLevelDBStatus_code he
      exact ⟨_, rfl, rfl⟩

/-- The status of a read that meets a corrupted entry of a key that is no text. -/
theorem corrupted_key_raises :
    ¬ StatusReported (.make .corruption (utf8 "corrupted key for ") [0xff]) := by
  rintro ⟨e, he, -⟩
  have : createFromLevelDBStatus (.make .corruption (utf8 "corrupted key for ") [0xff]) =
      .error .exception := by
    decide +kernel
  rw [this] at he
  cases he

end DVELevelDB
