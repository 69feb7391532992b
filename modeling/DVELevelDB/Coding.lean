import Mathlib.Data.Nat.Bitwise
import Mathlib.Data.List.Basic
import Mathlib.Tactic.IntervalCases
import Mathlib.Tactic.Ring

/-! # Byte encodings of integers and slices -/

namespace DVELevelDB

abbrev Bytes := List UInt8

namespace Coding

/-- Little-endian, `n` bytes of `v`. -/
def encodeFixed : ℕ → ℕ → Bytes
  | 0, _ => []
  | n + 1, v => UInt8.ofNat v :: encodeFixed n (v >>> 8)

-- the source joins the shifted bytes with `|`; their bits are disjoint
def decodeFixed : ℕ → Bytes → ℕ
  | 0, _ => 0
  | _ + 1, [] => 0
  | n + 1, b :: p => b.toNat + 256 * decodeFixed n p

def encodeFixed32 (v : ℕ) : Bytes := encodeFixed 4 v

def decodeFixed32 (p : Bytes) : ℕ := decodeFixed 4 p

def encodeFixed64 (v : ℕ) : Bytes := encodeFixed 8 v

def decodeFixed64 (p : Bytes) : ℕ := decodeFixed 8 p

def encodeVarint32 (v : ℕ) : Bytes :=
  if v < 1 <<< 7 then
    [UInt8.ofNat v]
  else if v < 1 <<< 14 then
    [UInt8.ofNat (v ||| 128), UInt8.ofNat (v >>> 7)]
  else if v < 1 <<< 21 then
    [UInt8.ofNat (v ||| 128), UInt8.ofNat (v >>> 7 ||| 128), UInt8.ofNat (v >>> 14)]
  else if v < 1 <<< 28 then
    [UInt8.ofNat (v ||| 128), UInt8.ofNat (v >>> 7 ||| 128), UInt8.ofNat (v >>> 14 ||| 128),
      UInt8.ofNat (v >>> 21)]
  else
    [UInt8.ofNat (v ||| 128), UInt8.ofNat (v >>> 7 ||| 128), UInt8.ofNat (v >>> 14 ||| 128),
      UInt8.ofNat (v >>> 21 ||| 128), UInt8.ofNat (v >>> 28)]

def varintLength (v : ℕ) : ℕ :=
  if v ≥ 128 then varintLength (v >>> 7) + 1 else 1
  termination_by v
  decreasing_by rw [Nat.shiftRight_eq_div_pow]; omega

/-- The loop of `GetVarint32PtrFallback`: `result` holds the bits below `shift`. -/
def getVarint32Loop (shift result : ℕ) : Bytes → Option (ℕ × Bytes)
  | [] => none
  | byte :: p =>
    if shift ≤ 28 then
      if byte.toNat &&& 128 ≠ 0 then
        getVarint32Loop (shift + 7) (result ||| ((byte.toNat &&& 127) <<< shift) % 2 ^ 32) p
      else
        some (result ||| (byte.toNat <<< shift) % 2 ^ 32, p)
    else
      none

/-- A varint and the bytes after it; a single byte below 128 takes the short way. -/
def getVarint32 : Bytes → Option (ℕ × Bytes)
  | [] => none
  | byte :: p =>
    if byte.toNat &&& 128 = 0 then some (byte.toNat, p) else getVarint32Loop 0 0 (byte :: p)

def encodeVarint64 (v : ℕ) : Bytes :=
  if v ≥ 128 then UInt8.ofNat (v ||| 128) :: encodeVarint64 (v >>> 7) else [UInt8.ofNat v]
  termination_by v
  decreasing_by rw [Nat.shiftRight_eq_div_pow]; omega

/-- The loop of `GetVarint64Ptr`. -/
def getVarint64Loop (shift result : ℕ) : Bytes → Option (ℕ × Bytes)
  | [] => none
  | byte :: p =>
    if shift ≤ 63 then
      if byte.toNat &&& 128 ≠ 0 then
        getVarint64Loop (shift + 7) (result ||| ((byte.toNat &&& 127) <<< shift) % 2 ^ 64) p
      else
        some (result ||| (byte.toNat <<< shift) % 2 ^ 64, p)
    else
      none

def getVarint64 (input : Bytes) : Option (ℕ × Bytes) := getVarint64Loop 0 0 input

/-- The length is stored in 32 bits, the bytes are appended in full. -/
def putLengthPrefixedSlice (value : Bytes) : Bytes :=
  encodeVarint32 (value.length % 2 ^ 32) ++ value

def getLengthPrefixedSlice (input : Bytes) : Option (Bytes × Bytes) :=
  match getVarint32 input with
  | some (len, p) => if p.length ≥ len then some (p.take len, p.drop len) else none
  | none => none

section Fixed

@[simp] theorem encodeFixed_length (n v : ℕ) : (encodeFixed n v).length = n := by
  induction n generalizing v with
  | zero => rfl
  | succ n ih => simp [encodeFixed, ih]

theorem decodeFixed_encodeFixed (n v : ℕ) (p : Bytes) :
    decodeFixed n (encodeFixed n v ++ p) = v % 256 ^ n := by
  induction n generalizing v with
  | zero => simp [decodeFixed, Nat.mod_one]
  | succ n ih =>
    have hsplit : v % 256 ^ (n + 1) = v % 256 + 256 * (v / 256 % 256 ^ n) := by
      rw [pow_succ', Nat.mod_mul]
    simp only [encodeFixed, List.cons_append, decodeFixed, ih, hsplit, Nat.shiftRight_eq_div_pow]
    simp

theorem decodeFixed_lt (n : ℕ) (p : Bytes) : decodeFixed n p < 256 ^ n := by
  induction n generalizing p with
  | zero => simp [decodeFixed]
  | succ n ih =>
    cases p with
    | nil => simp [decodeFixed]
    | cons b p =>
      have := ih p
      have := b.toNat_lt
      simp only [decodeFixed, pow_succ']
      omega

theorem decodeFixed_append {n : ℕ} {p : Bytes} (h : n ≤ p.length) (q : Bytes) :
    decodeFixed n (p ++ q) = decodeFixed n p := by
  induction n generalizing p with
  | zero => rfl
  | succ n ih =>
    cases p with
    | nil => simp at h
    | cons b p =>
      simp only [List.cons_append, decodeFixed, ih (p := p) (by simpa using h)]

end Fixed

section Varint

private theorem high_bit (byte : UInt8) : byte.toNat &&& 128 ≠ 0 ↔ 128 ≤ byte.toNat := by
  have h := byte.toNat_lt
  generalize byte.toNat = n at h
  revert n
  decide +kernel

private theorem low_bits (n : ℕ) : n &&& 127 = n % 128 := Nat.and_two_pow_sub_one_eq_mod n 7

private theorem toNat_marked (v : ℕ) : (UInt8.ofNat (v ||| 128)).toNat = v % 128 + 128 := by
  have hmod : (v ||| 128) % 256 = v % 256 ||| 128 := Nat.or_mod_two_pow (n := 8)
  have hlow : ∀ n < 256, n ||| 128 = n % 128 + 128 := by decide +kernel
  have := hlow (v % 256) (Nat.mod_lt _ (by norm_num))
  rw [UInt8.toNat_ofNat', hmod, this]
  omega

private theorem or_shift {result shift n : ℕ} (h : result < 2 ^ shift) :
    result ||| n <<< shift = result + n * 2 ^ shift := by
  rw [Nat.lor_comm, Nat.shiftLeft_eq, Nat.mul_comm n, ← Nat.two_pow_add_eq_or_of_lt h]
  omega

/-- A byte that announces more bytes adds its low seven bits. -/
private theorem getVarint32Loop_more {shift result : ℕ} (v : ℕ) (p : Bytes)
    (h : result < 2 ^ shift) (hs : shift ≤ 21) :
    getVarint32Loop shift result (UInt8.ofNat (v ||| 128) :: p) =
      getVarint32Loop (shift + 7) (result + v % 128 * 2 ^ shift) p := by
  have hb := toNat_marked v
  have hfit : v % 128 * 2 ^ shift < 2 ^ 32 := by
    have h1 : v % 128 < 2 ^ 7 := Nat.mod_lt _ (by norm_num)
    calc v % 128 * 2 ^ shift < 2 ^ 7 * 2 ^ shift := by gcongr
      _ = 2 ^ (7 + shift) := (pow_add ..).symm
      _ ≤ 2 ^ 32 := Nat.pow_le_pow_right (by norm_num) (by omega)
  have hlow : (UInt8.ofNat (v ||| 128)).toNat &&& 127 = v % 128 := by rw [low_bits, hb]; omega
  have hmore : (UInt8.ofNat (v ||| 128)).toNat &&& 128 ≠ 0 := (high_bit _).mpr (by omega)
  rw [getVarint32Loop, if_pos (by omega), if_pos hmore, hlow, Nat.mod_eq_of_lt, or_shift h]
  rwa [Nat.shiftLeft_eq]

/-- The last byte ends the number. -/
private theorem getVarint32Loop_last {shift result c : ℕ} (p : Bytes)
    (h : result < 2 ^ shift) (hs : shift ≤ 28) (hc : c < 128) (hfit : c * 2 ^ shift < 2 ^ 32) :
    getVarint32Loop shift result (UInt8.ofNat c :: p) = some (result + c * 2 ^ shift, p) := by
  have hb : (UInt8.ofNat c).toNat = c := by rw [UInt8.toNat_ofNat']; omega
  have hend : ¬ (UInt8.ofNat c).toNat &&& 128 ≠ 0 := by rw [high_bit]; omega
  rw [getVarint32Loop, if_pos hs, if_neg hend, hb, Nat.mod_eq_of_lt, or_shift h]
  rwa [Nat.shiftLeft_eq]

theorem getVarint32_eq_loop (p : Bytes) : getVarint32 p = getVarint32Loop 0 0 p := by
  cases p with
  | nil => rfl
  | cons byte p =>
    by_cases h : byte.toNat &&& 128 = 0
    · have hlt := byte.toNat_lt
      simp only [getVarint32, getVarint32Loop, h]
      simp only [ite_true, ne_eq, not_true_eq_false, ite_false, Nat.shiftLeft_zero, Nat.zero_or]
      rw [Nat.mod_eq_of_lt (by omega)]
      simp
    · simp [getVarint32, h]

theorem getVarint32_byte {byte : UInt8} (h : byte.toNat < 128) (p : Bytes) :
    getVarint32 (byte :: p) = some (byte.toNat, p) := by
  have hend : byte.toNat &&& 128 = 0 := by
    by_contra hmore
    exact absurd ((high_bit byte).mp hmore) (Nat.not_le_of_lt h)
  rw [getVarint32, if_pos hend]

theorem getVarint32_encodeVarint32 {v : ℕ} (hv : v < 2 ^ 32) (p : Bytes) :
    getVarint32 (encodeVarint32 v ++ p) = some (v, p) := by
  have h7 : v >>> 7 = v / 128 := Nat.shiftRight_eq_div_pow v 7
  have h14 : v >>> 14 = v / 16384 := Nat.shiftRight_eq_div_pow v 14
  have h21 : v >>> 21 = v / 2097152 := Nat.shiftRight_eq_div_pow v 21
  have h28 : v >>> 28 = v / 268435456 := Nat.shiftRight_eq_div_pow v 28
  rw [getVarint32_eq_loop, encodeVarint32]
  simp only [h7, h14, h21, h28]
  split_ifs with h1 h2 h3 h4 <;> simp only [List.cons_append, List.nil_append]
  · rw [getVarint32Loop_last] <;> norm_num at * <;> omega
  · rw [getVarint32Loop_more, getVarint32Loop_last] <;> norm_num at * <;> omega
  · rw [getVarint32Loop_more, getVarint32Loop_more, getVarint32Loop_last] <;>
      norm_num at * <;> omega
  · rw [getVarint32Loop_more, getVarint32Loop_more, getVarint32Loop_more,
      getVarint32Loop_last] <;> norm_num at * <;> omega
  · rw [getVarint32Loop_more, getVarint32Loop_more, getVarint32Loop_more,
      getVarint32Loop_more, getVarint32Loop_last] <;> norm_num at * <;> omega

theorem varintLength_step {v : ℕ} (h : 128 ≤ v) : varintLength v = varintLength (v / 128) + 1 := by
  rw [varintLength, if_pos h, Nat.shiftRight_eq_div_pow]

theorem varintLength_byte {v : ℕ} (h : v < 128) : varintLength v = 1 := by
  rw [varintLength, if_neg (by omega)]

theorem encodeVarint32_length {v : ℕ} (hv : v < 2 ^ 32) :
    (encodeVarint32 v).length = varintLength v := by
  rw [encodeVarint32]
  simp only [Nat.reduceShiftLeft]
  split_ifs with h1 h2 h3 h4 <;> simp only [List.length_cons, List.length_nil]
  · rw [varintLength_byte h1]
  · rw [varintLength_step (by omega), varintLength_byte (by omega)]
  · iterate 2 rw [varintLength_step (by omega)]
    rw [varintLength_byte (by omega)]
  · iterate 3 rw [varintLength_step (by omega)]
    rw [varintLength_byte (by omega)]
  · iterate 4 rw [varintLength_step (by omega)]
    rw [varintLength_byte (by omega)]

theorem varintLength_of_large {v : ℕ} (h : 2 ^ 32 ≤ v) : 5 ≤ varintLength v := by
  iterate 4 rw [varintLength_step (by omega)]
  rw [varintLength]
  split_ifs <;> omega

theorem getVarint32Loop_rest {shift result len : ℕ} {input p : Bytes}
    (h : getVarint32Loop shift result input = some (len, p)) : p.length < input.length := by
  induction input generalizing shift result with
  | nil => simp [getVarint32Loop] at h
  | cons byte input ih =>
    rw [getVarint32Loop] at h
    split_ifs at h
    · have := ih h; simp only [List.length_cons]; omega
    · obtain ⟨-, rfl⟩ := Prod.mk.inj (Option.some.inj h)
      simp

theorem getVarint32Loop_lt {shift result len : ℕ} {input p : Bytes} (hr : result < 2 ^ 32)
    (h : getVarint32Loop shift result input = some (len, p)) : len < 2 ^ 32 := by
  induction input generalizing shift result with
  | nil => simp [getVarint32Loop] at h
  | cons byte input ih =>
    rw [getVarint32Loop] at h
    split_ifs at h
    · exact ih (Nat.or_lt_two_pow hr (Nat.mod_lt _ (by norm_num))) h
    · obtain ⟨rfl, -⟩ := Prod.mk.inj (Option.some.inj h)
      exact Nat.or_lt_two_pow hr (Nat.mod_lt _ (by norm_num))

private theorem getVarint64Loop_encode {shift result v : ℕ} (p : Bytes) (h : result < 2 ^ shift)
    (hv : v * 2 ^ shift < 2 ^ 64) (hs : shift ≤ 63) :
    getVarint64Loop shift result (encodeVarint64 v ++ p) = some (result + v * 2 ^ shift, p) := by
  induction v using Nat.strongRecOn generalizing shift result with
  | ind v ih =>
    rw [encodeVarint64]
    by_cases hmore : v ≥ 128
    · have hb := toNat_marked v
      have hlow : (UInt8.ofNat (v ||| 128)).toNat &&& 127 = v % 128 := by rw [low_bits, hb]; omega
      have hmark : (UInt8.ofNat (v ||| 128)).toNat &&& 128 ≠ 0 := (high_bit _).mpr (by omega)
      have hfit : (v % 128) <<< shift < 2 ^ 64 := by
        rw [Nat.shiftLeft_eq]
        exact (Nat.mul_le_mul_right _ (Nat.mod_le v 128)).trans_lt hv
      have hstep : v / 128 * 2 ^ (shift + 7) ≤ v * 2 ^ shift := by
        have hmul : v / 128 * 2 ^ (shift + 7) = v / 128 * 128 * 2 ^ shift := by ring
        rw [hmul]
        exact Nat.mul_le_mul_right _ (Nat.div_mul_le_self v 128)
      have hshift : shift + 7 ≤ 63 := by
        have hpow : 2 ^ (shift + 7) < 2 ^ 64 := calc
          2 ^ (shift + 7) = 128 * 2 ^ shift := by ring
          _ ≤ v * 2 ^ shift := Nat.mul_le_mul_right _ hmore
          _ < 2 ^ 64 := hv
        exact Nat.le_of_lt_succ ((Nat.pow_lt_pow_iff_right (by norm_num)).mp hpow)
      have hresult : result + v % 128 * 2 ^ shift < 2 ^ (shift + 7) := calc
        result + v % 128 * 2 ^ shift < 2 ^ shift + v % 128 * 2 ^ shift := Nat.add_lt_add_right h _
        _ = (v % 128 + 1) * 2 ^ shift := by ring
        _ ≤ 128 * 2 ^ shift := Nat.mul_le_mul_right _ (Nat.mod_lt v (by norm_num))
        _ = 2 ^ (shift + 7) := by ring
      rw [if_pos hmore, List.cons_append, getVarint64Loop, if_pos hs, if_pos hmark, hlow,
        Nat.mod_eq_of_lt hfit, or_shift h, Nat.shiftRight_eq_div_pow,
        ih (v / 2 ^ 7) (by omega) hresult (hstep.trans_lt hv) hshift]
      congr 2
      have hdiv := Nat.div_add_mod v 128
      have hseven : v / 2 ^ 7 = v / 128 := rfl
      rw [hseven]
      calc result + v % 128 * 2 ^ shift + v / 128 * 2 ^ (shift + 7)
          = result + (128 * (v / 128) + v % 128) * 2 ^ shift := by ring
        _ = result + v * 2 ^ shift := by rw [hdiv]
    · have hb : (UInt8.ofNat v).toNat = v := by rw [UInt8.toNat_ofNat']; omega
      have hend : ¬ (UInt8.ofNat v).toNat &&& 128 ≠ 0 := by rw [high_bit]; omega
      have hfit : v <<< shift < 2 ^ 64 := by rwa [Nat.shiftLeft_eq]
      rw [if_neg hmore, List.cons_append, List.nil_append, getVarint64Loop, if_pos hs, if_neg hend,
        hb, Nat.mod_eq_of_lt hfit, or_shift h]

theorem getVarint64_encodeVarint64 {v : ℕ} (hv : v < 2 ^ 64) (p : Bytes) :
    getVarint64 (encodeVarint64 v ++ p) = some (v, p) := by
  rw [getVarint64, getVarint64Loop_encode p (by norm_num) (by omega) (by norm_num), pow_zero,
    mul_one, Nat.zero_add]

theorem getVarint64Loop_rest {shift result v : ℕ} {input p : Bytes}
    (h : getVarint64Loop shift result input = some (v, p)) : p.length < input.length := by
  induction input generalizing shift result with
  | nil => simp [getVarint64Loop] at h
  | cons byte input ih =>
    rw [getVarint64Loop] at h
    split_ifs at h
    · exact (ih h).trans (Nat.lt_succ_self _)
    · obtain ⟨-, rfl⟩ := Prod.mk.inj (Option.some.inj h)
      exact Nat.lt_succ_self _

theorem getVarint64Loop_lt {shift result v : ℕ} {input p : Bytes} (hr : result < 2 ^ 64)
    (h : getVarint64Loop shift result input = some (v, p)) : v < 2 ^ 64 := by
  induction input generalizing shift result with
  | nil => simp [getVarint64Loop] at h
  | cons byte input ih =>
    rw [getVarint64Loop] at h
    split_ifs at h
    · exact ih (Nat.or_lt_two_pow hr (Nat.mod_lt _ (by norm_num))) h
    · obtain ⟨rfl, -⟩ := Prod.mk.inj (Option.some.inj h)
      exact Nat.or_lt_two_pow hr (Nat.mod_lt _ (by norm_num))

theorem encodeVarint32_ne_nil (v : ℕ) : encodeVarint32 v ≠ [] := by
  rw [encodeVarint32]; split_ifs <;> simp

end Varint

section Slice

theorem getLengthPrefixedSlice_put {value : Bytes} (h : value.length < 2 ^ 32) (p : Bytes) :
    getLengthPrefixedSlice (putLengthPrefixedSlice value ++ p) = some (value, p) := by
  have hlen : value.length % 2 ^ 32 = value.length := Nat.mod_eq_of_lt h
  rw [getLengthPrefixedSlice, putLengthPrefixedSlice, hlen, List.append_assoc,
    getVarint32_encodeVarint32 h]
  simp

theorem getLengthPrefixedSlice_rest {input value p : Bytes}
    (h : getLengthPrefixedSlice input = some (value, p)) : p.length < input.length := by
  rw [getLengthPrefixedSlice] at h
  split at h
  · rename_i len q hq
    rw [getVarint32_eq_loop] at hq
    have := getVarint32Loop_rest hq
    split_ifs at h
    obtain ⟨-, rfl⟩ := Prod.mk.inj (Option.some.inj h)
    simp only [List.length_drop]
    omega
  · simp at h

theorem getLengthPrefixedSlice_length {input value p : Bytes}
    (h : getLengthPrefixedSlice input = some (value, p)) : value.length < 2 ^ 32 := by
  rw [getLengthPrefixedSlice] at h
  split at h
  · rename_i len q hq
    rw [getVarint32_eq_loop] at hq
    have := getVarint32Loop_lt (by norm_num) hq
    split_ifs at h
    obtain ⟨rfl, -⟩ := Prod.mk.inj (Option.some.inj h)
    simp only [List.length_take]
    omega
  · simp at h

end Slice

end Coding

end DVELevelDB
