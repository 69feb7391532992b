import Mathlib.Data.BitVec
import Mathlib.Order.Lattice
import Mathlib.Tactic.Cases

/-! # Options from the wrapper to the engine

`size_t` is 64 bits wide and `int` 32.
-/

namespace DVELevelDB

abbrev SizeT := BitVec 64

abbrev CInt := BitVec 32

inductive Compression where
  | none
  | snappy
  deriving DecidableEq, Repr

structure DVECLevelDBOptions where
  createDBIfMissing : Bool
  throwErrorIfDBExists : Bool
  useParanoidChecks : Bool
  writeBufferSize : SizeT
  maxOpenFilesCount : CInt
  blockSize : SizeT
  blockRestartInterval : CInt
  maxFileSize : SizeT
  reuseLogs : Bool
  compression : Compression
  deriving DecidableEq, Repr

namespace DVECLevelDBOptions

def defaultWriteBufferSize : SizeT := 4 * 1024 * 1024

def defaultMaxOpenFilesCount : CInt := 1000

def defaultBlockSize : SizeT := 4 * 1024

def defaultBlockRestartInterval : CInt := 16

def defaultMaxFileSize : SizeT := 2 * 1024 * 1024

def defaultCompression : Compression := .snappy

def new : DVECLevelDBOptions where
  createDBIfMissing := true
  throwErrorIfDBExists := false
  useParanoidChecks := false
  writeBufferSize := defaultWriteBufferSize
  maxOpenFilesCount := defaultMaxOpenFilesCount
  blockSize := defaultBlockSize
  blockRestartInterval := defaultBlockRestartInterval
  maxFileSize := defaultMaxFileSize
  reuseLogs := false
  compression := defaultCompression

end DVECLevelDBOptions

/-- The plain values of `leveldb::Options`. -/
structure OptionValues where
  createIfMissing : Bool
  errorIfExists : Bool
  paranoidChecks : Bool
  writeBufferSize : SizeT
  maxOpenFiles : CInt
  blockSize : SizeT
  blockRestartInterval : CInt
  maxFileSize : SizeT
  compression : Compression
  reuseLogs : Bool
  deriving DecidableEq, Repr

/-- `createLevelDBOptionsWithLogger:`. -/
def DVECLevelDBOptions.createLevelDBOptions (o : DVECLevelDBOptions) : OptionValues where
  createIfMissing := o.createDBIfMissing
  errorIfExists := o.throwErrorIfDBExists
  paranoidChecks := o.useParanoidChecks
  writeBufferSize := o.writeBufferSize
  maxOpenFiles := o.maxOpenFilesCount
  blockSize := o.blockSize
  blockRestartInterval := o.blockRestartInterval
  maxFileSize := o.maxFileSize
  compression := o.compression
  reuseLogs := o.reuseLogs

/-- `ClipToRange`: `narrow` is the cast for the comparisons, `widen` the conversion of a bound in
an assignment. -/
def clipToRange {w : ℕ} (narrow : BitVec w → CInt) (widen : CInt → BitVec w) (value : BitVec w)
    (minvalue maxvalue : CInt) : BitVec w :=
  let value := if (narrow value).toInt > maxvalue.toInt then widen maxvalue else value
  if (narrow value).toInt < minvalue.toInt then widen minvalue else value

def clipSize (value : SizeT) (minvalue maxvalue : CInt) : SizeT :=
  clipToRange (BitVec.setWidth 32) (BitVec.signExtend 64) value minvalue maxvalue

def kNumNonTableCacheFiles : CInt := 10

def sanitizeOptions (src : OptionValues) : OptionValues where
  createIfMissing := src.createIfMissing
  errorIfExists := src.errorIfExists
  paranoidChecks := src.paranoidChecks
  writeBufferSize := clipSize src.writeBufferSize (64 <<< 10) (1 <<< 30)
  maxOpenFiles := clipToRange id id src.maxOpenFiles (64 + kNumNonTableCacheFiles) 50000
  blockSize := clipSize src.blockSize (1 <<< 10) (4 <<< 20)
  blockRestartInterval := src.blockRestartInterval
  maxFileSize := clipSize src.maxFileSize (1 <<< 20) (1 <<< 30)
  compression := src.compression
  reuseLogs := src.reuseLogs

def clamp (low high n : ℕ) : ℕ := max low (min n high)

/-- What the engine is to run with for the request `o`. -/
structure SaneConfiguration (o : DVECLevelDBOptions) (config : OptionValues) : Prop where
  writeBufferSize :
    config.writeBufferSize.toNat = clamp (2 ^ 16) (2 ^ 30) o.writeBufferSize.toNat
  blockSize : config.blockSize.toNat = clamp (2 ^ 10) (2 ^ 22) o.blockSize.toNat
  maxFileSize : config.maxFileSize.toNat = clamp (2 ^ 20) (2 ^ 30) o.maxFileSize.toNat
  blockRestartInterval : 1 ≤ config.blockRestartInterval.toInt

/-- A request that the cast keeps above `high`, or leaves alone. -/
def Narrows (high : ℕ) (size : SizeT) : Prop :=
  size.toNat < 2 ^ 31 ∨ high < size.toNat % 2 ^ 32 ∧ size.toNat % 2 ^ 32 < 2 ^ 31

instance (high : ℕ) (size : SizeT) : Decidable (Narrows high size) :=
  inferInstanceAs (Decidable (_ ∨ (_ ∧ _)))

section Clip

theorem toInt_setWidth (size : SizeT) : (size.setWidth 32).toInt =
    if size.toNat % 2 ^ 32 < 2 ^ 31 then (size.toNat % 2 ^ 32 : ℤ)
    else (size.toNat % 2 ^ 32 : ℤ) - 2 ^ 32 := by
  rw [BitVec.toInt_eq_toNat_cond, BitVec.toNat_setWidth]
  split_ifs <;> omega

variable {low high : CInt}

theorem toInt_bound {bound : CInt} (h : bound.toNat < 2 ^ 31) : bound.toInt = bound.toNat := by
  rw [BitVec.toInt_eq_toNat_cond]
  split_ifs <;> omega

theorem toNat_signExtend {bound : CInt} (h : bound.toNat < 2 ^ 31) :
    (bound.signExtend 64).toNat = bound.toNat := by
  have hmsb : bound.msb = false := by
    rw [BitVec.msb_eq_false_iff_two_mul_lt]
    omega
  rw [BitVec.signExtend_eq_setWidth_of_msb_false hmsb, BitVec.toNat_setWidth]
  omega

theorem toNat_clipSize (size : SizeT) (hle : low.toNat ≤ high.toNat) (hhigh : high.toNat < 2 ^ 31) :
    (clipSize size low high).toNat =
      if (high.toNat : ℤ) < (size.setWidth 32).toInt then high.toNat
      else if (size.setWidth 32).toInt < low.toNat then low.toNat
      else size.toNat := by
  have hlow : low.toNat < 2 ^ 31 := by omega
  have hwide : ((high.signExtend 64).setWidth 32).toInt = high.toNat := by
    rw [toInt_setWidth, toNat_signExtend hhigh]
    split_ifs <;> omega
  unfold clipSize clipToRange
  simp only [toInt_bound hlow, toInt_bound hhigh]
  by_cases hgt : (high.toNat : ℤ) < (size.setWidth 32).toInt
  · rw [if_pos hgt, if_pos hgt, hwide, if_neg (by omega), toNat_signExtend hhigh]
  · rw [if_neg hgt, if_neg hgt]
    split_ifs
    · exact toNat_signExtend hlow
    · rfl

theorem clipSize_eq_clamp_iff (size : SizeT) (hlt : low.toNat < high.toNat)
    (hhigh : high.toNat < 2 ^ 31) :
    (clipSize size low high).toNat = clamp low.toNat high.toNat size.toNat ↔
      Narrows high.toNat size := by
  have hsize := size.isLt
  rw [toNat_clipSize size hlt.le hhigh, toInt_setWidth]
  unfold Narrows clamp
  constructor
  · intro h
    split_ifs at h <;> omega
  · intro h
    split_ifs <;> omega

end Clip

/-- The engine runs with the requested sizes clamped exactly when each request keeps its place
in the cast to `int`, and with a usable restart interval exactly when one was requested. -/
theorem saneConfiguration_iff (o : DVECLevelDBOptions) :
    SaneConfiguration o (sanitizeOptions o.createLevelDBOptions) ↔
      Narrows (2 ^ 30) o.writeBufferSize ∧ Narrows (2 ^ 22) o.blockSize ∧
      Narrows (2 ^ 30) o.maxFileSize ∧ 1 ≤ o.blockRestartInterval.toInt := by
  have hwrite := @clipSize_eq_clamp_iff (64 <<< 10) (1 <<< 30) o.writeBufferSize
    (by decide) (by decide)
  have hblock := @clipSize_eq_clamp_iff (1 <<< 10) (4 <<< 20) o.blockSize
    (by decide) (by decide)
  have hfile := @clipSize_eq_clamp_iff (1 <<< 20) (1 <<< 30) o.maxFileSize
    (by decide) (by decide)
  constructor
  · intro h
    exact ⟨hwrite.mp h.writeBufferSize, hblock.mp h.blockSize, hfile.mp h.maxFileSize,
      h.blockRestartInterval⟩
  · rintro ⟨h₁, h₂, h₃, h₄⟩
    constructor
    · exact hwrite.mpr h₁
    · exact hblock.mpr h₂
    · exact hfile.mpr h₃
    · exact h₄

/-- A write buffer of 4 GiB becomes the smallest one. -/
theorem sanitizeOptions_four_gigabytes :
    ¬ SaneConfiguration { DVECLevelDBOptions.new with writeBufferSize := 2 ^ 32 }
      (sanitizeOptions (DVECLevelDBOptions.createLevelDBOptions
        { DVECLevelDBOptions.new with writeBufferSize := 2 ^ 32 })) := by
  intro h
  have := h.writeBufferSize
  revert this
  decide +kernel

end DVELevelDB
