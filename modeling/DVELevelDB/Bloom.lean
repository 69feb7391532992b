import Mathlib.Algebra.Order.Ring.Int
import Mathlib.Algebra.Order.Ring.Abs
import DVELevelDB.Coding
import DVELevelDB.Lib.Ensures
import DVELevelDB.OptionValues
import DVELevelDB.Lib.BitArray

/-! # Bloom filters -/

namespace DVELevelDB

open Coding

/-- What a computation on memory may end with instead of a result. -/
inductive MemoryFault where
  | divisionByZero
  | outOfBounds
  | outOfMemory
  | assertionFailed
  deriving DecidableEq, Repr

abbrev Raw := Except MemoryFault

section Hash

def hashMultiplier : UInt32 := 0xc6a4a793

/-- The last one to three bytes, most significant first. -/
def hashTail (h : UInt32) (tail : List UInt32) : UInt32 :=
  let h := tail.foldl (· + ·) h * hashMultiplier
  h ^^^ (h >>> 24)

def hashWords (h : UInt32) : Bytes → UInt32
  | a :: b :: c :: d :: rest =>
    let h := (h + UInt32.ofNat (decodeFixed32 [a, b, c, d])) * hashMultiplier
    hashWords (h ^^^ (h >>> 16)) rest
  | [a, b, c] => hashTail h [c.toUInt32 <<< 16, b.toUInt32 <<< 8, a.toUInt32]
  | [a, b] => hashTail h [b.toUInt32 <<< 8, a.toUInt32]
  | [a] => hashTail h [a.toUInt32]
  | [] => h

def hash (data : Bytes) (seed : UInt32) : UInt32 :=
  hashWords (seed ^^^ (UInt32.ofNat data.length * hashMultiplier)) data

def bloomHash (key : Bytes) : UInt32 := hash key 0xbc9f1d34

/-- Rotate right 17 bits. -/
def bloomDelta (h : UInt32) : UInt32 := (h >>> 17) ||| (h <<< 15)

end Hash

structure BloomFilterPolicy where
  bitsPerKey : SizeT
  k : ℕ

/-- `bits_per_key * 0.69` as a `size_t`, kept from 1 to 30. A negative product cannot be
converted; `undefined` stands for whatever comes out then. -/
def probeCount (undefined : ℕ) (bitsPerKey : CInt) : ℕ :=
  let k := if bitsPerKey.toInt < -1 then undefined else (bitsPerKey.toInt * 69).tdiv 100 |>.toNat
  let k := if k < 1 then 1 else k
  if k > 30 then 30 else k

def newBloomFilterPolicy (undefined : ℕ) (bitsPerKey : CInt) : BloomFilterPolicy :=
  ⟨bitsPerKey.signExtend 64, probeCount undefined bitsPerKey⟩

namespace BloomFilterPolicy

variable (p : BloomFilterPolicy)

/-- The size of a filter of `n` keys, without the byte for the number of probes. -/
def filterBytes (n : CInt) : ℕ :=
  let bits := n.signExtend 64 * p.bitsPerKey
  let bits := if bits < 64 then 64 else bits
  ((bits + 7) / 8).toNat

/-- One `array[bitpos / 8] |= 1 << (bitpos % 8)` for each probe. -/
def setProbes (bits : ℕ) (delta : UInt32) : ℕ → UInt32 → Bytes → Raw Bytes
  | 0, _, array => return array
  | j + 1, h, array =>
    if bits = 0 then
      throw .divisionByZero
    else
      let bitpos := h.toNat % bits
      if bitpos / 8 < array.length then
        setProbes bits delta j (h + delta) (BitArray.set array bitpos)
      else
        throw .outOfBounds

def addKeys (bits : ℕ) : List Bytes → Bytes → Raw Bytes
  | [], array => return array
  | key :: keys, array => do
    let h := bloomHash key
    addKeys bits keys (← setProbes bits (bloomDelta h) p.k h array)

/-- `CreateFilter`; a string of more than `available` bytes cannot be allocated. -/
def createFilter (available : ℕ) (keys : List Bytes) (n : CInt) (dst : Bytes) : Raw Bytes :=
  let bytes := p.filterBytes n
  if available < dst.length + bytes + 1 then
    throw .outOfMemory
  else do
    let array := List.replicate bytes 0 ++ [UInt8.ofNat p.k]
    return dst ++ (← p.addKeys (bytes * 8) (keys.take n.toInt.toNat) array)

def testProbes (bits : ℕ) (array : Bytes) (delta : UInt32) : ℕ → UInt32 → Bool
  | 0, _ => true
  | j + 1, h =>
    if BitArray.test array (h.toNat % bits) then testProbes bits array delta j (h + delta) else false

end BloomFilterPolicy

/-- `KeyMayMatch`, which takes the number of probes from the filter. -/
def bloomKeyMayMatch (key filter : Bytes) : Bool :=
  if filter.length < 2 then
    false
  else
    let bits := (filter.length - 1) * 8
    let k := (filter.getLastD 0).toNat
    if k > 30 then
      true
    else
      let h := bloomHash key
      BloomFilterPolicy.testProbes bits filter (bloomDelta h) k h

namespace DVECLevelDBNewBloomFilterPolicy

def createFilterForKeys (filterPolicy : BloomFilterPolicy) (available : ℕ) (keys : List Bytes)
    (currentFilter : Bytes) : Raw Bytes := do
  let dst ← filterPolicy.createFilter available keys (BitVec.ofNat 32 keys.length) currentFilter
  if currentFilter.length < dst.length then
    return (dst.drop currentFilter.length).take (dst.length - currentFilter.length)
  else
    return currentFilter

def keyMayMatch (key filter : Bytes) : Bool := bloomKeyMayMatch key filter

end DVECLevelDBNewBloomFilterPolicy

section Probes

def probes (bits : ℕ) (delta : UInt32) : ℕ → UInt32 → List ℕ
  | 0, _ => []
  | j + 1, h => h.toNat % bits :: probes bits delta j (h + delta)

def keyProbes (bits k : ℕ) (key : Bytes) : List ℕ :=
  probes bits (bloomDelta (bloomHash key)) k (bloomHash key)

variable {bits k : ℕ} {delta h : UInt32} {array : Bytes}

theorem probes_lt (hb : 0 < bits) : ∀ q ∈ probes bits delta k h, q < bits := by
  induction k generalizing h with
  | zero => simp [probes]
  | succ k ih =>
    intro q hq
    rcases List.mem_cons.mp hq with rfl | hq
    · exact Nat.mod_lt _ hb
    · exact ih q hq

theorem testProbes_iff : BloomFilterPolicy.testProbes bits array delta k h = true ↔
    ∀ q ∈ probes bits delta k h, BitArray.test array q = true := by
  induction k generalizing h with
  | zero => simp [BloomFilterPolicy.testProbes, probes]
  | succ k ih =>
    rw [BloomFilterPolicy.testProbes, probes, List.forall_mem_cons]
    split_ifs with ht
    · rw [ih]
      simp [ht]
    · simp [ht]

/-- What an array holds after some probes were set in `array`. -/
structure SetProbes (bits : ℕ) (array : Bytes) (qs : List ℕ) (array' : Bytes) : Prop where
  length : array'.length = array.length
  test : ∀ q, BitArray.test array' q = true ↔ BitArray.test array q = true ∨ q ∈ qs
  rest : ∀ i, bits ≤ i * 8 → array'[i]? = array[i]?

theorem SetProbes.refl : SetProbes bits array [] array := by
  constructor
  · rfl
  · simp
  · intro i _
    rfl

theorem SetProbes.trans {array' array'' : Bytes} {qs qs' : List ℕ}
    (h : SetProbes bits array qs array') (h' : SetProbes bits array' qs' array'') :
    SetProbes bits array (qs ++ qs') array'' := by
  constructor
  · exact h'.length.trans h.length
  · intro q
    rw [h'.test, h.test, List.mem_append, or_assoc]
  · intro i hi
    exact (h'.rest i hi).trans (h.rest i hi)

theorem SetProbes.single {p : ℕ} (hp : p < bits) (hlen : bits ≤ array.length * 8) :
    SetProbes bits array [p] (BitArray.set array p) := by
  constructor
  · exact BitArray.length_set
  · intro q
    rw [BitArray.test_set (by omega)]
    simp
  · intro i hi
    rw [BitArray.set, List.getElem?_modify]
    have hne : p / 8 ≠ i := by omega
    simp [hne]

theorem setProbes_spec (hb : 0 < bits) (hlen : bits ≤ array.length * 8) :
    ∃ array', BloomFilterPolicy.setProbes bits delta k h array = .ok array' ∧
      SetProbes bits array (probes bits delta k h) array' := by
  induction k generalizing h array with
  | zero => exact ⟨array, rfl, SetProbes.refl⟩
  | succ k ih =>
    have hp := Nat.mod_lt h.toNat hb
    have hstep : SetProbes bits array _ _ := SetProbes.single hp hlen
    have hlen' : bits ≤ (BitArray.set array (h.toNat % bits)).length * 8 := by
      rw [BitArray.length_set]
      exact hlen
    obtain ⟨array', heq, hset⟩ := ih (h := h + delta) hlen'
    refine ⟨array', ?_, hstep.trans hset⟩
    rw [BloomFilterPolicy.setProbes, if_neg (by omega), if_pos (by omega), heq]

variable {p : BloomFilterPolicy} {keys : List Bytes}

theorem addKeys_spec (hb : 0 < bits) (hlen : bits ≤ array.length * 8) :
    ∃ array', p.addKeys bits keys array = .ok array' ∧
      SetProbes bits array (keys.flatMap (keyProbes bits p.k)) array' := by
  induction keys generalizing array with
  | nil => exact ⟨array, rfl, SetProbes.refl⟩
  | cons key keys ih =>
    obtain ⟨array₁, heq₁, hset₁⟩ :=
      @setProbes_spec bits p.k (bloomDelta (bloomHash key)) (bloomHash key) array hb hlen
    have hlen₁ : bits ≤ array₁.length * 8 := by
      rw [hset₁.length]
      exact hlen
    obtain ⟨array₂, heq₂, hset₂⟩ := ih hlen₁
    refine ⟨array₂, ?_, hset₁.trans hset₂⟩
    rw [BloomFilterPolicy.addKeys, heq₁, Stops.ok_bind, heq₂]

theorem setProbes_length {array' : Bytes}
    (hs : BloomFilterPolicy.setProbes bits delta k h array = .ok array') :
    array'.length = array.length := by
  induction k generalizing h array with
  | zero =>
    injection hs with hs
    rw [hs]
  | succ k ih =>
    rw [BloomFilterPolicy.setProbes] at hs
    simp only at hs
    split_ifs at hs
    · rw [ih hs, BitArray.length_set]

theorem addKeys_length {array' : Bytes} (hs : p.addKeys bits keys array = .ok array') :
    array'.length = array.length := by
  induction keys generalizing array with
  | nil =>
    injection hs with hs
    rw [hs]
  | cons key keys ih =>
    rw [BloomFilterPolicy.addKeys] at hs
    obtain ⟨array₁, hs₁, hs₂⟩ := Stops.bind_eq_ok.mp hs
    rw [ih hs₂, setProbes_length hs₁]

theorem addKeys_zero (hk : 0 < p.k) (hkeys : keys ≠ []) :
    p.addKeys 0 keys array = .error .divisionByZero := by
  obtain ⟨key, rest, rfl⟩ := List.exists_cons_of_ne_nil hkeys
  obtain ⟨k, hk⟩ := Nat.exists_eq_succ_of_ne_zero (by omega : p.k ≠ 0)
  rw [BloomFilterPolicy.addKeys]
  simp only [hk, BloomFilterPolicy.setProbes, if_true]
  rfl

end Probes

section Sizes

variable (undefined : ℕ) (bitsPerKey n : CInt)

theorem probeCount_bounds : 1 ≤ probeCount undefined bitsPerKey ∧
    probeCount undefined bitsPerKey ≤ 30 := by
  unfold probeCount
  simp only
  split_ifs <;> omega

theorem toInt_signExtend (x : CInt) : (x.signExtend 64).toInt = x.toInt :=
  BitVec.toInt_signExtend_of_le (by decide)

theorem toInt_abs_le (x : CInt) : |x.toInt| ≤ 2 ^ 31 := by
  have h₁ := BitVec.le_toInt x
  have h₂ := BitVec.toInt_lt (x := x)
  rw [abs_le]
  omega

theorem product_abs_le (x y : CInt) : |x.toInt * y.toInt| ≤ 2 ^ 62 := by
  rw [abs_mul]
  calc |x.toInt| * |y.toInt| ≤ 2 ^ 31 * 2 ^ 31 :=
        mul_le_mul (toInt_abs_le x) (toInt_abs_le y) (abs_nonneg _) (by decide)
    _ = 2 ^ 62 := by decide

theorem toInt_product (x y : CInt) :
    (x.signExtend 64 * y.signExtend 64).toInt = x.toInt * y.toInt := by
  have hle := product_abs_le x y
  rw [abs_le] at hle
  rw [BitVec.toInt_mul, toInt_signExtend, toInt_signExtend]
  exact Int.bmod_eq_of_le (by omega) (by omega)

theorem toNat_product (x y : CInt) : ((x.signExtend 64 * y.signExtend 64).toNat : ℤ) =
    if 0 ≤ x.toInt * y.toInt then x.toInt * y.toInt else x.toInt * y.toInt + 2 ^ 64 := by
  have hprod := toInt_product x y
  have hlt := (x.signExtend 64 * y.signExtend 64).isLt
  rw [BitVec.toInt_eq_toNat_cond] at hprod
  split_ifs at hprod ⊢ <;> omega

theorem toNat_roundUp (bits : SizeT) : ((bits + 7) / 8).toNat = (bits.toNat + 7) % 2 ^ 64 / 8 := by
  rw [BitVec.toNat_udiv, BitVec.toNat_add]
  rfl

theorem toNat_filterBytes : (newBloomFilterPolicy undefined bitsPerKey).filterBytes n =
    if (n.signExtend 64 * bitsPerKey.signExtend 64).toNat < 64 then 8
    else ((n.signExtend 64 * bitsPerKey.signExtend 64).toNat + 7) % 2 ^ 64 / 8 := by
  change (((if n.signExtend 64 * bitsPerKey.signExtend 64 < 64 then 64 else _ : SizeT) + 7) /
    8).toNat = _
  rw [toNat_roundUp]
  by_cases hsmall : (n.signExtend 64 * bitsPerKey.signExtend 64).toNat < 64
  · rw [if_pos (BitVec.lt_def.mpr hsmall), if_pos hsmall]
    rfl
  · rw [if_neg fun h => hsmall (BitVec.lt_def.mp h), if_neg hsmall]
    rfl

theorem filterBytes_of_nonneg (h : 0 ≤ n.toInt * bitsPerKey.toInt) :
    (newBloomFilterPolicy undefined bitsPerKey).filterBytes n =
      (max 64 (n.toInt * bitsPerKey.toInt).toNat + 7) / 8 := by
  have hprod := toNat_product n bitsPerKey
  have hle := product_abs_le n bitsPerKey
  rw [if_pos h] at hprod
  rw [abs_le] at hle
  rw [toNat_filterBytes]
  split_ifs with hsmall <;> omega

/-- A negative product wraps around: to nothing, or to more than any memory. -/
theorem filterBytes_of_neg (h : n.toInt * bitsPerKey.toInt < 0) :
    (newBloomFilterPolicy undefined bitsPerKey).filterBytes n = 0 ∨
      2 ^ 60 ≤ (newBloomFilterPolicy undefined bitsPerKey).filterBytes n := by
  have hprod := toNat_product n bitsPerKey
  have hle := product_abs_le n bitsPerKey
  rw [if_neg (by omega)] at hprod
  rw [abs_le] at hle
  rw [toNat_filterBytes]
  split_ifs with hsmall <;> omega

end Sizes

section Filters

variable {p : BloomFilterPolicy} {available : ℕ} {keys : List Bytes} {n : CInt} {dst f : Bytes}

/-- The part that `CreateFilter` appends. -/
structure IsFilter (p : BloomFilterPolicy) (bytes : ℕ) (keys : List Bytes) (f : Bytes) : Prop where
  length : f.length = bytes + 1
  last : f.getLastD 0 = UInt8.ofNat p.k
  test : ∀ q, q < bytes * 8 →
    (BitArray.test f q = true ↔ q ∈ keys.flatMap (keyProbes (bytes * 8) p.k))

theorem getLastD_eq (f : Bytes) (m : ℕ) (hlen : f.length = m + 1) (b : UInt8)
    (h : f[m]? = some b) : f.getLastD 0 = b := by
  rw [List.getLastD_eq_getLast?, List.getLast?_eq_getElem?, hlen, Nat.add_sub_cancel, h]
  rfl

theorem addKeys_isFilter {bytes : ℕ} (hb : 0 < bytes) :
    ∃ f, p.addKeys (bytes * 8) keys (List.replicate bytes 0 ++ [UInt8.ofNat p.k]) = .ok f ∧
      IsFilter p bytes keys f := by
  obtain ⟨f, heq, hset⟩ := @addKeys_spec (bytes * 8) (List.replicate bytes 0 ++ [UInt8.ofNat p.k])
    p keys (by omega) (by simp)
  have hlen : f.length = bytes + 1 := by simp [hset.length]
  refine ⟨f, heq, hlen, ?_, ?_⟩
  · apply getLastD_eq f bytes hlen
    rw [hset.rest bytes le_rfl]
    simp
  · intro q hq
    rw [hset.test]
    have hzero : BitArray.test (List.replicate bytes 0 ++ [UInt8.ofNat p.k]) q = false := by
      have hbyte : q / 8 < bytes := by omega
      rw [BitArray.test, List.getD_eq_getElem?_getD, List.getElem?_append_left (by simpa using hbyte),
        List.getElem?_replicate, if_pos hbyte]
      simp
    simp [hzero]

theorem IsFilter.keyMayMatch {bytes : ℕ} (hf : IsFilter p bytes keys f) (hb : 0 < bytes)
    (hk : p.k ≤ 30) (key : Bytes) : bloomKeyMayMatch key f = true ↔
      ∀ q ∈ keyProbes (bytes * 8) p.k key, q ∈ keys.flatMap (keyProbes (bytes * 8) p.k) := by
  have hlen : f.length - 1 = bytes := by rw [hf.length, Nat.add_sub_cancel]
  have hkeq : (UInt8.ofNat p.k).toNat = p.k := by
    rw [UInt8.toNat_ofNat']
    omega
  have hbound : ∀ q ∈ keyProbes (bytes * 8) p.k key, q < bytes * 8 := probes_lt (by omega)
  rw [bloomKeyMayMatch, if_neg (by rw [hf.length]; omega)]
  simp only [hlen, hf.last, hkeq]
  rw [if_neg (by omega), testProbes_iff]
  constructor
  · intro h q hq
    exact (hf.test q (hbound q hq)).mp (h q hq)
  · intro h q hq
    exact (hf.test q (hbound q hq)).mpr (h q hq)

theorem createFilter_ok (hb : 0 < p.filterBytes n)
    (hfit : dst.length + p.filterBytes n + 1 ≤ available) :
    ∃ f, p.createFilter available keys n dst = .ok (dst ++ f) ∧
      IsFilter p (p.filterBytes n) (keys.take n.toInt.toNat) f := by
  obtain ⟨f, heq, hf⟩ := @addKeys_isFilter p (keys.take n.toInt.toNat) _ hb
  refine ⟨f, ?_, hf⟩
  rw [BloomFilterPolicy.createFilter]
  simp only
  rw [if_neg (by omega), heq]
  rfl

theorem createFilter_of_empty (hb : p.filterBytes n = 0) (hk : 0 < p.k) :
    (∃ e, p.createFilter available keys n dst = .error e) ∨ keys.take n.toInt.toNat = [] ∧
      p.createFilter available keys n dst = .ok (dst ++ [UInt8.ofNat p.k]) := by
  rw [BloomFilterPolicy.createFilter]
  simp only [hb, Nat.zero_mul, List.replicate_zero, List.nil_append]
  split_ifs with hfit
  · exact .inl ⟨_, rfl⟩
  · by_cases hkeys : keys.take n.toInt.toNat = []
    · right
      rw [hkeys]
      exact ⟨rfl, rfl⟩
    · left
      rw [addKeys_zero hk hkeys]
      exact ⟨_, rfl⟩

theorem createFilter_not_fit (hfit : ¬ dst.length + p.filterBytes n + 1 ≤ available) :
    p.createFilter available keys n dst = .error .outOfMemory := by
  rw [BloomFilterPolicy.createFilter]
  simp only
  rw [if_pos (by omega)]
  rfl

theorem createFilter_take : p.createFilter available (keys.take n.toInt.toNat) n dst =
    p.createFilter available keys n dst := by
  simp only [BloomFilterPolicy.createFilter, List.take_take, Nat.min_self]

theorem createFilter_appends {dst' : Bytes}
    (hc : p.createFilter available keys n dst = .ok dst') :
    ∃ f, f ≠ [] ∧ dst' = dst ++ f := by
  rw [BloomFilterPolicy.createFilter] at hc
  simp only at hc
  split_ifs at hc
  obtain ⟨f, hf, hdst⟩ := Stops.bind_eq_ok.mp hc
  injection hdst with hdst
  refine ⟨f, ?_, hdst.symm⟩
  rw [← List.length_pos_iff, addKeys_length hf]
  simp

end Filters

namespace DVECLevelDBNewBloomFilterPolicy

variable {p : BloomFilterPolicy} {available : ℕ} {keys : List Bytes} {currentFilter f : Bytes}

/-- The part that is returned is what the engine appended. -/
theorem createFilterForKeys_of_ok (hf : f ≠ [])
    (h : p.createFilter available keys (BitVec.ofNat 32 keys.length) currentFilter =
      .ok (currentFilter ++ f)) :
    createFilterForKeys p available keys currentFilter = .ok f := by
  have hpos := List.length_pos_iff.mpr hf
  rw [createFilterForKeys, h, Stops.ok_bind, if_pos (by rw [List.length_append]; omega),
    List.drop_left, List.length_append, Nat.add_sub_cancel_left, List.take_length]
  rfl

theorem createFilterForKeys_of_error {e : MemoryFault}
    (h : p.createFilter available keys (BitVec.ofNat 32 keys.length) currentFilter = .error e) :
    createFilterForKeys p available keys currentFilter = .error e := by
  rw [createFilterForKeys, h]
  rfl

/-- A filter is built, and no key of the list is missing from it. -/
def Usable (p : BloomFilterPolicy) (available : ℕ) (keys : List Bytes) (currentFilter : Bytes) :
    Prop :=
  ∃ f, createFilterForKeys p available keys currentFilter = .ok f ∧
    ∀ key ∈ keys, keyMayMatch key f = true

/-- What the engine is told to be the number of keys. -/
def keyCount (keys : List Bytes) : CInt := BitVec.ofNat 32 keys.length

/-- All bits of `key` are set by other keys. -/
def Covered (p : BloomFilterPolicy) (keys : List Bytes) (key : Bytes) : Prop :=
  let bits := p.filterBytes (keyCount keys) * 8
  ∀ q ∈ keyProbes bits p.k key,
    q ∈ (keys.take (keyCount keys).toInt.toNat).flatMap (keyProbes bits p.k)

theorem covered_of_mem_take {key : Bytes} (h : key ∈ keys.take (keyCount keys).toInt.toNat) :
    Covered p keys key :=
  fun _ hq => List.mem_flatMap.mpr ⟨key, h, hq⟩

theorem usable_iff_covered (hk : 0 < p.k) (hk30 : p.k ≤ 30) (hkeys : keys ≠ []) :
    Usable p available keys currentFilter ↔ 0 < p.filterBytes (keyCount keys) ∧
      currentFilter.length + p.filterBytes (keyCount keys) + 1 ≤ available ∧
      ∀ key ∈ keys.drop (keyCount keys).toInt.toNat, Covered p keys key := by
  rcases Nat.eq_zero_or_pos (p.filterBytes (keyCount keys)) with hb | hb
  · refine iff_of_false ?_ fun h => by omega
    rintro ⟨f, hf, hall⟩
    rcases @createFilter_of_empty p available keys _ currentFilter hb hk with ⟨e, he⟩ | ⟨-, hc⟩
    · rw [createFilterForKeys_of_error he] at hf
      contradiction
    · rw [createFilterForKeys_of_ok (List.cons_ne_nil _ _) hc] at hf
      obtain ⟨key, hkey⟩ := List.exists_mem_of_ne_nil keys hkeys
      have hmatch := hall key hkey
      injection hf with hf
      rw [← hf] at hmatch
      contradiction
  · by_cases hfit : currentFilter.length + p.filterBytes (keyCount keys) + 1 ≤ available
    · obtain ⟨f, hc, hf⟩ := @createFilter_ok p available keys _ _ hb hfit
      have hne : f ≠ [] := by
        rw [← List.length_pos_iff, hf.length]
        omega
      have hcreate := createFilterForKeys_of_ok hne hc
      constructor
      · rintro ⟨f', hf', hall⟩
        rw [hcreate] at hf'
        injection hf' with hf'
        refine ⟨hb, hfit, ?_⟩
        intro key hkey
        rw [← hf'] at hall
        exact (hf.keyMayMatch hb hk30 key).mp (hall key (List.mem_of_mem_drop hkey))
      · rintro ⟨-, -, hrest⟩
        refine ⟨f, hcreate, ?_⟩
        intro key hkey
        apply (hf.keyMayMatch hb hk30 key).mpr
        rw [← List.take_append_drop (keyCount keys).toInt.toNat keys] at hkey
        rcases List.mem_append.mp hkey with hkey | hkey
        · exact covered_of_mem_take hkey
        · exact hrest key hkey
    · refine iff_of_false ?_ fun h => hfit h.2.1
      rintro ⟨f, hf, -⟩
      rw [createFilterForKeys_of_error (createFilter_not_fit hfit)] at hf
      contradiction

/-- Keys that the engine never sees are missing. -/
theorem not_covered_of_nonpos (hk : 0 < p.k) (hn : (keyCount keys).toInt ≤ 0) (key : Bytes) :
    ¬ Covered p keys key := by
  intro h
  have hzero : (keyCount keys).toInt.toNat = 0 := by omega
  obtain ⟨k, hk⟩ := Nat.exists_eq_succ_of_ne_zero (by omega : p.k ≠ 0)
  rw [Covered] at h
  simp only [hzero, List.take_zero, List.flatMap_nil, keyProbes, hk, probes] at h
  exact List.not_mem_nil (h _ List.mem_cons_self)

/-- A filter policy is usable where `bitsPerKey` is not negative, the filter fits into memory
and the number of keys fits into an `int`, so that the engine sees all of them; of more keys,
the first have to set the bits of the others. -/
theorem bloom_usable_iff (undefined : ℕ) (bitsPerKey : CInt) (available : ℕ)
    (havailable : available < 2 ^ 60) (keys : List Bytes) (hkeys : keys ≠ [])
    (currentFilter : Bytes) :
    Usable (newBloomFilterPolicy undefined bitsPerKey) available keys currentFilter ↔
      0 ≤ bitsPerKey.toInt ∧
      currentFilter.length + (max 64 ((keyCount keys).toInt * bitsPerKey.toInt).toNat + 7) / 8 + 1 ≤
        available ∧
      ∀ key ∈ keys.drop (keyCount keys).toInt.toNat,
        Covered (newBloomFilterPolicy undefined bitsPerKey) keys key := by
  obtain ⟨hk, hk30⟩ := probeCount_bounds undefined bitsPerKey
  rw [usable_iff_covered (p := newBloomFilterPolicy undefined bitsPerKey) hk hk30 hkeys]
  by_cases hn : (keyCount keys).toInt ≤ 0
  · have hdrop : keys.drop (keyCount keys).toInt.toNat = keys := by
      rw [Int.toNat_of_nonpos hn, List.drop_zero]
    obtain ⟨key, hkey⟩ := List.exists_mem_of_ne_nil keys hkeys
    have hfalse := not_covered_of_nonpos (p := newBloomFilterPolicy undefined bitsPerKey) hk hn key
    rw [hdrop]
    constructor
    · rintro ⟨-, -, hall⟩
      exact absurd (hall key hkey) hfalse
    · rintro ⟨-, -, hall⟩
      exact absurd (hall key hkey) hfalse
  · by_cases hb : 0 ≤ bitsPerKey.toInt
    · -- The engine's arithmetic agrees with that of the integers.
      have hbytes := filterBytes_of_nonneg undefined bitsPerKey (keyCount keys)
        (Int.mul_nonneg (by omega) hb)
      rw [hbytes]
      constructor
      · rintro ⟨-, hfit, hall⟩
        exact ⟨hb, hfit, hall⟩
      · rintro ⟨-, hfit, hall⟩
        exact ⟨by omega, hfit, hall⟩
    · -- The number of bits wraps around.
      have hneg : (keyCount keys).toInt * bitsPerKey.toInt < 0 :=
        Int.mul_neg_of_pos_of_neg (by omega) (by omega)
      refine iff_of_false ?_ fun h => hb h.1
      rintro ⟨hpos, hfit, -⟩
      rcases filterBytes_of_neg undefined bitsPerKey (keyCount keys) hneg with h | h <;> omega

theorem bloom_usable_ten_bits :
    Usable (newBloomFilterPolicy 0 10) 4096 [[0x61], [0x62]] [] :=
  (bloom_usable_iff 0 10 4096 (by decide) [[0x61], [0x62]] (by decide) []).mpr
    ⟨by decide, by decide, by
      have hdrop : ([[0x61], [0x62]] : List Bytes).drop
          (keyCount [[0x61], [0x62]]).toInt.toNat = [] := by decide
      rw [hdrop]
      exact fun _ h => absurd h List.not_mem_nil⟩

/-- One key and `bitsPerKey = -1`: a filter of no bits. -/
theorem bloom_negative_bits :
    createFilterForKeys (newBloomFilterPolicy 0 (-1)) 4096 [[0x61]] [] = .error .divisionByZero ∧
      ¬ Usable (newBloomFilterPolicy 0 (-1)) 4096 [[0x61]] [] := by
  have h : createFilterForKeys (newBloomFilterPolicy 0 (-1)) 4096 [[0x61]] [] =
      .error .divisionByZero := by decide +kernel
  refine ⟨h, ?_⟩
  rintro ⟨f, hf, -⟩
  rw [h] at hf
  contradiction

end DVECLevelDBNewBloomFilterPolicy

end DVELevelDB
