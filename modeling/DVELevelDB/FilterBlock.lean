import DVELevelDB.Bloom
import DVELevelDB.Lib.Slices

/-! # Filter blocks -/

namespace DVELevelDB

open Coding Slices

namespace FilterBlock

/-- `leveldb::FilterPolicy`; `createFilter` returns the string it was to append to. -/
structure EngineFilterPolicy where
  createFilter : List Bytes → CInt → Bytes → Raw Bytes
  keyMayMatch : Bytes → Bytes → Bool

/-- The protocol of the wrapper's policies. -/
structure DVECLevelDBFilterPolicy where
  createFilterForKeys : List Bytes → Bytes → Raw Bytes
  keyMayMatch : Bytes → Bytes → Bool

/-- `DVECLevelDBFilterPolicyFacade`. A negative `n` asks for an array of more than 2 ^ 63
objects. -/
def filterPolicyFacade (filterPolicy : DVECLevelDBFilterPolicy) : EngineFilterPolicy where
  createFilter keys n dst :=
    if n.toInt < 0 then
      throw .outOfMemory
    else do
      let newFilter ← filterPolicy.createFilterForKeys (keys.take n.toInt.toNat) dst
      return dst ++ newFilter
  keyMayMatch := filterPolicy.keyMayMatch

def bloomFilterPolicy (p : BloomFilterPolicy) (available : ℕ) : EngineFilterPolicy where
  createFilter := p.createFilter available
  keyMayMatch := bloomKeyMayMatch

def dveBloomFilterPolicy (p : BloomFilterPolicy) (available : ℕ) : DVECLevelDBFilterPolicy where
  createFilterForKeys := DVECLevelDBNewBloomFilterPolicy.createFilterForKeys p available
  keyMayMatch := DVECLevelDBNewBloomFilterPolicy.keyMayMatch

def filterBaseLg : ℕ := 11

def filterBase : ℕ := 1 <<< filterBaseLg

structure FilterBlockBuilder where
  keys : Bytes
  start : List ℕ
  result : Bytes
  filterOffsets : List UInt32
  deriving DecidableEq, Repr

namespace FilterBlockBuilder

variable (policy : EngineFilterPolicy)

def empty : FilterBlockBuilder := ⟨[], [], [], []⟩

def generateFilter (b : FilterBlockBuilder) : Raw FilterBlockBuilder :=
  let filterOffsets := b.filterOffsets ++ [UInt32.ofNat b.result.length]
  if b.start = [] then
    return { b with filterOffsets := filterOffsets }
  else do
    let tmpKeys := slices b.keys (b.start ++ [b.keys.length])
    let result ← policy.createFilter tmpKeys (BitVec.ofNat 32 b.start.length) b.result
    return { keys := [], start := [], result := result, filterOffsets := filterOffsets }

/-- The loop of `StartBlock`, each pass of which adds an offset. -/
def generateFilters : ℕ → FilterBlockBuilder → Raw FilterBlockBuilder
  | 0, b => return b
  | count + 1, b => do generateFilters count (← b.generateFilter policy)

def startBlock (b : FilterBlockBuilder) (blockOffset : ℕ) : Raw FilterBlockBuilder :=
  let filterIndex := blockOffset / filterBase
  if b.filterOffsets.length ≤ filterIndex then
    generateFilters policy (filterIndex - b.filterOffsets.length) b
  else
    throw .assertionFailed

def addKey (b : FilterBlockBuilder) (key : Bytes) : FilterBlockBuilder :=
  { b with start := b.start ++ [b.keys.length], keys := b.keys ++ key }

def putOffset (offset : UInt32) : Bytes := encodeFixed32 offset.toNat

/-- The keys that are left get a filter. -/
def lastFilter (b : FilterBlockBuilder) : Raw FilterBlockBuilder :=
  if b.start = [] then return b else b.generateFilter policy

/-- The block that `Finish` returns is `result` afterwards. -/
def finish (b : FilterBlockBuilder) : Raw FilterBlockBuilder := do
  let b ← b.lastFilter policy
  let arrayOffset := UInt32.ofNat b.result.length
  return { b with
    result := b.result ++ b.filterOffsets.flatMap putOffset ++ putOffset arrayOffset ++
      [UInt8.ofNat filterBaseLg] }

inductive Call where
  | startBlock (blockOffset : ℕ)
  | addKey (key : Bytes)
  | finish
  deriving DecidableEq, Repr

def call (b : FilterBlockBuilder) : Call → Raw FilterBlockBuilder
  | .startBlock blockOffset => b.startBlock policy blockOffset
  | .addKey key => return b.addKey key
  | .finish => b.finish policy

def run (b : FilterBlockBuilder) : List Call → Raw FilterBlockBuilder
  | [] => return b
  | c :: calls => do run (← b.call policy c) calls

end FilterBlockBuilder

structure FilterBlockReader where
  data : Bytes
  offset : ℕ
  num : ℕ
  baseLg : ℕ

namespace FilterBlockReader

def ofContents (contents : Bytes) : FilterBlockReader :=
  let n := contents.length
  if n < 5 then
    ⟨[], 0, 0, 0⟩
  else
    let baseLg := (contents.getLastD 0).toNat
    let lastWord := decodeFixed32 (contents.drop (n - 5))
    if n - 5 < lastWord then
      ⟨[], 0, 0, baseLg⟩
    else
      ⟨contents, lastWord, (n - 5 - lastWord) / 4, baseLg⟩

def keyMayMatch (policy : EngineFilterPolicy) (r : FilterBlockReader) (blockOffset : ℕ)
    (key : Bytes) : Bool :=
  let index := blockOffset >>> r.baseLg
  if index < r.num then
    let start := decodeFixed32 (r.data.drop (r.offset + index * 4))
    let limit := decodeFixed32 (r.data.drop (r.offset + index * 4 + 4))
    if start ≤ limit ∧ limit ≤ r.offset then
      policy.keyMayMatch key ((r.data.drop start).take (limit - start))
    else if start = limit then
      false
    else
      true
  else
    true

/-- Two keys that the policy does not tell apart. -/
theorem keyMayMatch_of_key {policy : EngineFilterPolicy} {r : FilterBlockReader} {blockOffset : ℕ}
    {key key' : Bytes} (hkey : ∀ filter, policy.keyMayMatch key filter = true →
      policy.keyMayMatch key' filter = true)
    (h : r.keyMayMatch policy blockOffset key = true) :
    r.keyMayMatch policy blockOffset key' = true := by
  simp only [keyMayMatch] at h ⊢
  split_ifs at h ⊢
  · exact hkey _ h
  · rfl
  · rfl

theorem ofContents_data (contents : Bytes) :
    (ofContents contents).data = contents ∨ (ofContents contents).num = 0 := by
  simp only [ofContents]
  split_ifs
  · exact Or.inr rfl
  · exact Or.inr rfl
  · exact Or.inl rfl

theorem keyMayMatch_of_empty {policy : EngineFilterPolicy} {r : FilterBlockReader}
    (h : r.num = 0) (blockOffset : ℕ) (key : Bytes) :
    r.keyMayMatch policy blockOffset key = true := by
  simp only [keyMayMatch, h, Nat.not_lt_zero, if_false]

end FilterBlockReader

section Transparency

variable {p : BloomFilterPolicy} {available : ℕ}

theorem keyCount_take {n : ℕ} (hn : 0 ≤ (BitVec.ofNat 32 n : CInt).toInt) :
    BitVec.ofNat 32 (min (BitVec.ofNat 32 n : CInt).toInt.toNat n) =
      (BitVec.ofNat 32 n : CInt) := by
  have h := BitVec.toInt_eq_toNat_cond (BitVec.ofNat 32 n)
  have hmod := Nat.mod_le n (2 ^ 32)
  rw [BitVec.toNat_ofNat] at h
  split_ifs at h with hlt
  · rw [h, Int.toNat_natCast, Nat.min_eq_left hmod]
    apply BitVec.eq_of_toNat_eq
    simp
  · omega

/-- Through the wrapper the engine's policy receives the same keys and the same string. -/
theorem facade_createFilter {keys : List Bytes} {dst : Bytes}
    (hn : 0 ≤ (BitVec.ofNat 32 keys.length : CInt).toInt) :
    (filterPolicyFacade (dveBloomFilterPolicy p available)).createFilter keys
        (BitVec.ofNat 32 keys.length) dst =
      (bloomFilterPolicy p available).createFilter keys (BitVec.ofNat 32 keys.length) dst := by
  have htake := @createFilter_take p available keys (BitVec.ofNat 32 keys.length) dst
  have hlen : (keys.take (BitVec.ofNat 32 keys.length : CInt).toInt.toNat).length =
      min (BitVec.ofNat 32 keys.length : CInt).toInt.toNat keys.length := List.length_take
  simp only [filterPolicyFacade, dveBloomFilterPolicy, bloomFilterPolicy,
    DVECLevelDBNewBloomFilterPolicy.createFilterForKeys]
  rw [if_neg (by omega), hlen, keyCount_take hn, htake]
  cases hc : p.createFilter available keys (BitVec.ofNat 32 keys.length) dst with
  | error e => rfl
  | ok dst' =>
    obtain ⟨f, hf, rfl⟩ := createFilter_appends hc
    have hpos := List.length_pos_iff.mpr hf
    rw [Stops.ok_bind, if_pos (by rw [List.length_append]; omega), List.drop_left,
      List.length_append, Nat.add_sub_cancel_left, List.take_length]
    rfl

end Transparency

section SameBlocks

variable {policy policy' : EngineFilterPolicy} {b : FilterBlockBuilder}

/-- Two policies agree on lists whose length an `int` shows as not negative. -/
def AgreeOnCounts (policy policy' : EngineFilterPolicy) : Prop :=
  ∀ keys dst, 0 ≤ (BitVec.ofNat 32 keys.length : CInt).toInt →
    policy.createFilter keys (BitVec.ofNat 32 keys.length) dst =
      policy'.createFilter keys (BitVec.ofNat 32 keys.length) dst

/-- The numbers of keys of the filters that calls generate, where `pending` keys wait and there
are `filters` filters. -/
def filterCounts : ℕ → ℕ → List FilterBlockBuilder.Call → List ℕ
  | _, _, [] => []
  | pending, filters, .startBlock blockOffset :: calls =>
    if filters < blockOffset / filterBase then
      pending :: filterCounts 0 (blockOffset / filterBase) calls
    else
      filterCounts pending filters calls
  | pending, filters, .addKey _ :: calls => filterCounts (pending + 1) filters calls
  | pending, filters, .finish :: calls =>
    if pending = 0 then
      filterCounts 0 filters calls
    else
      pending :: filterCounts 0 (filters + 1) calls

open FilterBlockBuilder

theorem length_tmpKeys : (slices b.keys (b.start ++ [b.keys.length])).length = b.start.length := by
  rw [length_slices, List.length_append]
  rfl

theorem generateFilter_agree (h : AgreeOnCounts policy policy')
    (hn : 0 ≤ (BitVec.ofNat 32 b.start.length : CInt).toInt) :
    b.generateFilter policy = b.generateFilter policy' := by
  rw [generateFilter, generateFilter]
  by_cases hstart : b.start = []
  · simp only [if_pos hstart]
  · simp only [if_neg hstart]
    have hkeys := h (slices b.keys (b.start ++ [b.keys.length])) b.result
      (by rw [length_tmpKeys]; exact hn)
    rw [length_tmpKeys] at hkeys
    rw [hkeys]

theorem generateFilter_counts {b' : FilterBlockBuilder} (h : b.generateFilter policy = .ok b') :
    b'.start.length = 0 ∧ b'.filterOffsets.length = b.filterOffsets.length + 1 := by
  rw [generateFilter] at h
  simp only at h
  split_ifs at h with hstart
  · injection h with h
    rw [← h]
    simp [hstart]
  · obtain ⟨result, -, h⟩ := Stops.bind_eq_ok.mp h
    injection h with h
    rw [← h]
    simp

theorem generateFilters_counts {count : ℕ} {b' : FilterBlockBuilder}
    (h : generateFilters policy count b = .ok b') :
    (0 < count → b'.start.length = 0) ∧ (count = 0 → b' = b) ∧
      b'.filterOffsets.length = b.filterOffsets.length + count := by
  induction count generalizing b with
  | zero =>
    injection h with h
    simp [h]
  | succ count ih =>
    rw [generateFilters] at h
    obtain ⟨b₁, h₁, h₂⟩ := Stops.bind_eq_ok.mp h
    obtain ⟨hstart, hoffsets⟩ := generateFilter_counts h₁
    obtain ⟨hpos, hzero, hlen⟩ := ih h₂
    refine ⟨fun _ => ?_, by omega, by omega⟩
    rcases Nat.eq_zero_or_pos count with hc | hc
    · rw [hzero hc, hstart]
    · exact hpos hc

theorem generateFilters_agree (h : AgreeOnCounts policy policy') {count : ℕ}
    (hn : 0 < count → 0 ≤ (BitVec.ofNat 32 b.start.length : CInt).toInt) :
    generateFilters policy count b = generateFilters policy' count b := by
  induction count generalizing b with
  | zero => rfl
  | succ count ih =>
    rw [generateFilters, generateFilters, generateFilter_agree h (hn (by omega))]
    cases hb : b.generateFilter policy' with
    | error e => rfl
    | ok b₁ =>
      rw [Stops.ok_bind, Stops.ok_bind]
      apply ih
      intro _
      rw [(generateFilter_counts hb).1]
      decide

theorem startBlock_agree (h : AgreeOnCounts policy policy') {blockOffset : ℕ}
    (hn : b.filterOffsets.length < blockOffset / filterBase →
      0 ≤ (BitVec.ofNat 32 b.start.length : CInt).toInt) :
    b.startBlock policy blockOffset = b.startBlock policy' blockOffset := by
  simp only [startBlock]
  rw [generateFilters_agree h fun hpos => hn (by omega)]

theorem startBlock_counts {blockOffset : ℕ} {b' : FilterBlockBuilder}
    (h : b.startBlock policy blockOffset = .ok b') :
    (b.filterOffsets.length < blockOffset / filterBase → b'.start.length = 0) ∧
      (¬ b.filterOffsets.length < blockOffset / filterBase → b' = b) ∧
      b'.filterOffsets.length = blockOffset / filterBase := by
  simp only [startBlock] at h
  split_ifs at h with hle
  obtain ⟨hpos, hzero, hlen⟩ := generateFilters_counts h
  exact ⟨fun _ => hpos (by omega), fun _ => hzero (by omega), by omega⟩

theorem finish_agree (h : AgreeOnCounts policy policy')
    (hn : b.start.length ≠ 0 → 0 ≤ (BitVec.ofNat 32 b.start.length : CInt).toInt) :
    b.finish policy = b.finish policy' := by
  simp only [finish, lastFilter]
  by_cases hstart : b.start = []
  · rw [if_pos hstart, if_pos hstart]
  · rw [if_neg hstart, if_neg hstart,
      generateFilter_agree h (hn fun h0 => hstart (List.length_eq_zero_iff.mp h0))]

theorem finish_counts {b' : FilterBlockBuilder} (h : b.finish policy = .ok b') :
    b'.start.length = 0 ∧ b'.filterOffsets.length =
      if b.start.length = 0 then b.filterOffsets.length else b.filterOffsets.length + 1 := by
  obtain ⟨b₁, h₁, h₂⟩ := Stops.bind_eq_ok.mp h
  injection h₂ with h₂
  rw [← h₂]
  rw [lastFilter] at h₁
  by_cases hstart : b.start = []
  · rw [if_pos hstart] at h₁
    injection h₁ with h₁
    simp [← h₁, hstart]
  · rw [if_neg hstart] at h₁
    rw [if_neg fun h0 => hstart (List.length_eq_zero_iff.mp h0)]
    obtain ⟨hzero, hlen⟩ := generateFilter_counts h₁
    exact ⟨hzero, hlen⟩

theorem run_agree (h : AgreeOnCounts policy policy') (calls : List Call)
    (hn : ∀ count ∈ filterCounts b.start.length b.filterOffsets.length calls,
      0 ≤ (BitVec.ofNat 32 count : CInt).toInt) :
    b.run policy calls = b.run policy' calls := by
  induction calls generalizing b with
  | nil => rfl
  | cons c calls ih =>
    rw [run, run]
    cases c with
    | startBlock blockOffset =>
      rw [filterCounts] at hn
      simp only [call]
      rw [startBlock_agree h fun hlt => hn _ (by rw [if_pos hlt]; exact List.mem_cons_self)]
      cases hb : b.startBlock policy' blockOffset with
      | error e => rfl
      | ok b₁ =>
        obtain ⟨hstart, hsame, hoffsets⟩ := startBlock_counts hb
        apply ih
        intro count hcount
        apply hn
        by_cases hlt : b.filterOffsets.length < blockOffset / filterBase
        · rw [if_pos hlt]
          rw [hstart hlt, hoffsets] at hcount
          exact List.mem_cons_of_mem _ hcount
        · rw [if_neg hlt]
          rwa [hsame hlt] at hcount
    | addKey key =>
      apply ih
      simpa [addKey, filterCounts] using hn
    | finish =>
      rw [filterCounts] at hn
      simp only [call]
      rw [finish_agree h fun h0 => hn _ (by rw [if_neg h0]; exact List.mem_cons_self)]
      cases hb : b.finish policy' with
      | error e => rfl
      | ok b₁ =>
        obtain ⟨hstart, hoffsets⟩ := finish_counts hb
        apply ih
        intro count hcount
        apply hn
        rw [hstart, hoffsets] at hcount
        by_cases h0 : b.start.length = 0
        · rwa [if_pos h0] at hcount ⊢
        · rw [if_neg h0] at hcount ⊢
          exact List.mem_cons_of_mem _ hcount

end SameBlocks

section NoKeyLost

open FilterBlockBuilder

variable {policy : EngineFilterPolicy} {b b' : FilterBlockBuilder}
  {groups : List (List Bytes × Bytes)} {pending : List Bytes} {added : List (ℕ × Bytes)}

/-- Filters match the keys they are created for. -/
def Keeps (policy : EngineFilterPolicy) : Prop :=
  ∀ keys dst dst', keys.length < 2 ^ 31 →
    policy.createFilter keys (BitVec.ofNat 32 keys.length) dst = .ok dst' →
      ∃ f, dst' = dst ++ f ∧ ∀ key ∈ keys, policy.keyMayMatch key f = true

/-- A key added at a block offset is in the filter of that offset, or waits for it. -/
def Located (groups : List (List Bytes × Bytes)) (pending : List Bytes) (a : ℕ × Bytes) : Prop :=
  (∃ g, groups[a.1 / filterBase]? = some g ∧ a.2 ∈ g.1) ∨
    a.1 / filterBase = groups.length ∧ a.2 ∈ pending

/-- A builder that has created a filter for each list of `groups`. -/
structure Builds (policy : EngineFilterPolicy) (b : FilterBlockBuilder)
    (groups : List (List Bytes × Bytes)) (pending : List Bytes) (added : List (ℕ × Bytes)) :
    Prop where
  keys : b.keys = pending.flatten
  start : b.start = starts 0 pending
  result : b.result = (groups.map Prod.snd).flatten
  offsets : b.filterOffsets = (starts 0 (groups.map Prod.snd)).map UInt32.ofNat
  matching : ∀ g ∈ groups, ∀ key ∈ g.1, policy.keyMayMatch key g.2 = true
  located : ∀ a ∈ added, Located groups pending a

theorem Builds.empty : Builds policy empty [] [] [] := by
  constructor <;> simp [FilterBlockBuilder.empty, starts]

theorem Builds.start_length (h : Builds policy b groups pending added) :
    b.start.length = pending.length := by
  rw [h.start, length_starts]

theorem Builds.offsets_length (h : Builds policy b groups pending added) :
    b.filterOffsets.length = groups.length := by
  rw [h.offsets, List.length_map, length_starts, List.length_map]

theorem Builds.tmpKeys (h : Builds policy b groups pending added) :
    slices b.keys (b.start ++ [b.keys.length]) = pending := by
  rw [h.keys, h.start]
  exact slices_starts [] pending

theorem Located.close {a : ℕ × Bytes} (h : Located groups pending a) (f : Bytes) :
    Located (groups ++ [(pending, f)]) [] a := by
  left
  rcases h with ⟨g, hg, hmem⟩ | ⟨hlen, hmem⟩
  · refine ⟨g, ?_, hmem⟩
    rw [List.getElem?_append_left (List.getElem?_eq_some_iff.mp hg).1]
    exact hg
  · refine ⟨(pending, f), ?_, hmem⟩
    rw [hlen, List.getElem?_concat_length]

theorem Builds.close (h : Builds policy b groups pending added) {f : Bytes}
    (hf : ∀ key ∈ pending, policy.keyMayMatch key f = true) :
    Builds policy ⟨[], [], b.result ++ f, b.filterOffsets ++ [UInt32.ofNat b.result.length]⟩
      (groups ++ [(pending, f)]) [] added := by
  constructor
  · rfl
  · rfl
  · simp [h.result]
  · rw [List.map_append, List.map_singleton, starts_concat, List.map_append, ← h.offsets,
      ← h.result, Nat.zero_add]
    rfl
  · intro g hg key hkey
    rcases List.mem_append.mp hg with hg | hg
    · exact h.matching g hg key hkey
    · obtain rfl := List.mem_singleton.mp hg
      exact hf key hkey
  · exact fun a ha => (h.located a ha).close f

theorem Builds.generateFilter (hk : Keeps policy) (h : Builds policy b groups pending added)
    (hn : b.start.length < 2 ^ 31) (hb : b.generateFilter policy = .ok b') :
    ∃ groups', Builds policy b' groups' [] added := by
  rw [FilterBlockBuilder.generateFilter] at hb
  simp only at hb
  split_ifs at hb with hstart
  · injection hb with hb
    have hnil : pending = [] := by
      rw [← List.length_eq_zero_iff, ← h.start_length, hstart, List.length_nil]
    have hclose := h.close (f := []) (by simp [hnil])
    rw [List.append_nil, ← hstart] at hclose
    have hkeys : b.keys = [] := by rw [h.keys, hnil, List.flatten_nil]
    rw [← hb, hkeys]
    exact ⟨_, hclose⟩
  · rw [h.tmpKeys, h.start_length] at hb
    rw [h.start_length] at hn
    obtain ⟨result, hresult, hb⟩ := Stops.bind_eq_ok.mp hb
    obtain ⟨f, rfl, hf⟩ := hk pending b.result result hn hresult
    injection hb with hb
    rw [← hb]
    exact ⟨_, h.close hf⟩

theorem Builds.generateFilters (hk : Keeps policy) {count : ℕ}
    (h : Builds policy b groups pending added) (hn : 0 < count → b.start.length < 2 ^ 31)
    (hb : FilterBlockBuilder.generateFilters policy count b = .ok b') :
    ∃ groups' pending', Builds policy b' groups' pending' added := by
  induction count generalizing b groups pending with
  | zero =>
    injection hb with hb
    rw [← hb]
    exact ⟨groups, pending, h⟩
  | succ count ih =>
    obtain ⟨b₁, h₁, h₂⟩ := Stops.bind_eq_ok.mp hb
    obtain ⟨groups₁, hbuilds⟩ := h.generateFilter hk (hn (by omega)) h₁
    apply ih hbuilds _ h₂
    intro _
    rw [(generateFilter_counts h₁).1]
    decide

theorem Builds.startBlock (hk : Keeps policy) {blockOffset : ℕ}
    (h : Builds policy b groups pending added)
    (hn : b.filterOffsets.length < blockOffset / filterBase → b.start.length < 2 ^ 31)
    (hb : b.startBlock policy blockOffset = .ok b') :
    ∃ groups' pending', Builds policy b' groups' pending' added := by
  simp only [FilterBlockBuilder.startBlock] at hb
  split_ifs at hb with hle
  exact h.generateFilters hk (fun hpos => hn (by omega)) hb

theorem Builds.addKey (h : Builds policy b groups pending added) {blockOffset : ℕ}
    (ho : blockOffset / filterBase = b.filterOffsets.length) (key : Bytes) :
    Builds policy (b.addKey key) groups (pending ++ [key]) (added ++ [(blockOffset, key)]) := by
  constructor
  · simp [FilterBlockBuilder.addKey, h.keys]
  · rw [FilterBlockBuilder.addKey, starts_concat, h.start, h.keys, Nat.zero_add]
  · exact h.result
  · exact h.offsets
  · exact h.matching
  · intro a ha
    rcases List.mem_append.mp ha with ha | ha
    · rcases h.located a ha with hg | ⟨hlen, hmem⟩
      · exact .inl hg
      · exact .inr ⟨hlen, List.mem_append_left _ hmem⟩
    · obtain rfl := List.mem_singleton.mp ha
      exact .inr ⟨ho.trans h.offsets_length, by simp⟩

/-- A block whose filters match the keys added at their offsets. -/
structure Finished (policy : EngineFilterPolicy) (contents : Bytes)
    (groups : List (List Bytes × Bytes)) (added : List (ℕ × Bytes)) : Prop where
  contents : contents = (groups.map Prod.snd).flatten ++
    ((starts 0 (groups.map Prod.snd) ++ [(groups.map Prod.snd).flatten.length]).map
      UInt32.ofNat).flatMap putOffset ++ [UInt8.ofNat filterBaseLg]
  matching : ∀ g ∈ groups, ∀ key ∈ g.1, policy.keyMayMatch key g.2 = true
  located : ∀ a ∈ added, ∃ g, groups[a.1 / filterBase]? = some g ∧ a.2 ∈ g.1

theorem Builds.lastFilter (hk : Keeps policy) (h : Builds policy b groups pending added)
    (hn : b.start.length ≠ 0 → b.start.length < 2 ^ 31) (hb : b.lastFilter policy = .ok b') :
    ∃ groups', Builds policy b' groups' [] added := by
  rw [FilterBlockBuilder.lastFilter] at hb
  split_ifs at hb with hstart
  · injection hb with hb
    have hnil : pending = [] := by
      rw [← List.length_eq_zero_iff, ← h.start_length, hstart, List.length_nil]
    rw [← hb, ← hnil]
    exact ⟨groups, h⟩
  · exact h.generateFilter hk (hn fun h0 => hstart (List.length_eq_zero_iff.mp h0)) hb

theorem Builds.finish (hk : Keeps policy) (h : Builds policy b groups pending added)
    (hn : b.start.length ≠ 0 → b.start.length < 2 ^ 31) (hb : b.finish policy = .ok b') :
    ∃ groups', Finished policy b'.result groups' added := by
  obtain ⟨b₁, h₁, h₂⟩ := Stops.bind_eq_ok.mp hb
  obtain ⟨groups', hbuilds⟩ := h.lastFilter hk hn h₁
  injection h₂ with h₂
  rw [← h₂]
  refine ⟨groups', ?_, hbuilds.matching, ?_⟩
  · rw [List.map_append, ← hbuilds.offsets, ← hbuilds.result, List.flatMap_append]
    simp
  · intro a ha
    rcases hbuilds.located a ha with hg | ⟨-, hmem⟩
    · exact hg
    · exact absurd hmem List.not_mem_nil

/-- The keys that calls add, each with the block offset it is added at. -/
def additions : ℕ → List Call → List (ℕ × Bytes)
  | _, [] => []
  | _, .startBlock blockOffset :: calls => additions blockOffset calls
  | blockOffset, .addKey key :: calls => (blockOffset, key) :: additions blockOffset calls
  | blockOffset, .finish :: calls => additions blockOffset calls

theorem Builds.run (hk : Keeps policy) {calls : List Call} {blockOffset : ℕ}
    (h : Builds policy b groups pending added)
    (ho : blockOffset / filterBase = b.filterOffsets.length) (hcalls : .finish ∉ calls)
    (hn : ∀ count ∈ filterCounts b.start.length b.filterOffsets.length (calls ++ [.finish]),
      count < 2 ^ 31)
    (hb : b.run policy (calls ++ [.finish]) = .ok b') :
    ∃ groups', Finished policy b'.result groups' (added ++ additions blockOffset calls) := by
  induction calls generalizing b groups pending added blockOffset with
  | nil =>
    obtain ⟨b₁, h₁, h₂⟩ := Stops.bind_eq_ok.mp hb
    injection h₂ with h₂
    rw [additions, List.append_nil, ← h₂]
    refine h.finish hk ?_ h₁
    intro h0
    apply hn
    rw [List.nil_append, filterCounts, if_neg h0]
    exact List.mem_cons_self
  | cons c calls ih =>
    obtain ⟨b₁, h₁, h₂⟩ := Stops.bind_eq_ok.mp hb
    have hrest : .finish ∉ calls := fun hmem => hcalls (List.mem_cons_of_mem _ hmem)
    cases c with
    | startBlock offset =>
      obtain ⟨hstart, hsame, hoffsets⟩ := startBlock_counts h₁
      rw [List.cons_append, filterCounts] at hn
      have hnow : b.filterOffsets.length < offset / filterBase → b.start.length < 2 ^ 31 := by
        intro hlt
        apply hn
        rw [if_pos hlt]
        exact List.mem_cons_self
      obtain ⟨groups₁, pending₁, hbuilds⟩ := h.startBlock hk hnow h₁
      refine ih hbuilds hoffsets.symm hrest ?_ h₂
      intro count hcount
      apply hn
      by_cases hlt : b.filterOffsets.length < offset / filterBase
      · rw [if_pos hlt]
        rw [hstart hlt, hoffsets] at hcount
        exact List.mem_cons_of_mem _ hcount
      · rw [if_neg hlt]
        rwa [hsame hlt] at hcount
    | addKey key =>
      injection h₁ with h₁
      rw [← h₁] at h₂
      have hrun := ih (h.addKey ho key) ho hrest (by simpa [filterCounts,
        FilterBlockBuilder.addKey] using hn) h₂
      rwa [List.append_assoc] at hrun
    | finish => exact absurd List.mem_cons_self hcalls

@[simp] theorem putOffset_length (offset : UInt32) : (putOffset offset).length = 4 :=
  encodeFixed_length 4 offset.toNat

theorem decode_putOffset (offset : UInt32) (tail : Bytes) :
    decodeFixed32 (putOffset offset ++ tail) = offset.toNat := by
  have hlt := offset.toNat_lt
  rw [putOffset, encodeFixed32, decodeFixed32, decodeFixed_encodeFixed]
  exact Nat.mod_eq_of_lt hlt

section Reading

variable {contents : Bytes}

theorem Finished.length (h : Finished policy contents groups added) :
    contents.length = (groups.map Prod.snd).flatten.length + groups.length * 4 + 5 := by
  rw [h.contents, List.length_append, List.length_append, Slices.length_flatMap putOffset_length]
  simp only [List.length_map, List.length_append, length_starts, List.length_cons, List.length_nil]
  omega

theorem Finished.word (h : Finished policy contents groups added) (hlen : contents.length < 2 ^ 32)
    {i : ℕ} (hi : i ≤ groups.length) :
    decodeFixed32 (contents.drop ((groups.map Prod.snd).flatten.length + i * 4)) =
      ((groups.map Prod.snd).take i).flatten.length := by
  have hpos := @positions_getElem? _ 0 (groups.map Prod.snd) i
    (by rw [List.length_map]; exact hi)
  rw [Nat.zero_add, Nat.zero_add] at hpos
  have hword := congrArg (Option.map UInt32.ofNat) hpos
  rw [← List.getElem?_map, Option.map_some] at hword
  obtain ⟨rest, hrest⟩ := drop_flatMap putOffset_length hword [UInt8.ofNat filterBaseLg]
  have hle := length_take_flatten_le (groups.map Prod.snd) i
  have hsize := h.length
  rw [h.contents, List.append_assoc, ← List.drop_drop, List.drop_left, hrest, decode_putOffset,
    UInt32.toNat_ofNat']
  exact Nat.mod_eq_of_lt (by omega)

theorem Finished.ofContents (h : Finished policy contents groups added)
    (hlen : contents.length < 2 ^ 32) : FilterBlockReader.ofContents contents =
      ⟨contents, (groups.map Prod.snd).flatten.length, groups.length, filterBaseLg⟩ := by
  have hword := h.word hlen (le_refl groups.length)
  have hlast : (contents.getLastD 0).toNat = filterBaseLg := by
    rw [h.contents, List.getLastD_eq_getLast?, List.getLast?_concat]
    rfl
  rw [List.take_of_length_le (List.length_map _).le] at hword
  have hsize : contents.length - 5 =
      (groups.map Prod.snd).flatten.length + groups.length * 4 := by
    rw [h.length, Nat.add_sub_cancel]
  simp only [FilterBlockReader.ofContents]
  rw [if_neg (by rw [h.length]; omega), hsize, hword, if_neg (by omega), hlast,
    Nat.add_sub_cancel_left, Nat.mul_div_cancel _ (by decide)]

theorem Finished.keyMayMatch (h : Finished policy contents groups added)
    (hlen : contents.length < 2 ^ 32) {a : ℕ × Bytes} (ha : a ∈ added) :
    (FilterBlockReader.ofContents contents).keyMayMatch policy a.1 a.2 = true := by
  obtain ⟨g, hg, hmem⟩ := h.located a ha
  have hi := (List.getElem?_eq_some_iff.mp hg).1
  have hindex : a.1 >>> filterBaseLg = a.1 / filterBase := Nat.shiftRight_eq_div_pow _ _
  have hstart := h.word hlen hi.le
  have hlimit := h.word hlen (i := a.1 / filterBase + 1) hi
  have hpart : (groups.map Prod.snd)[a.1 / filterBase]? = some g.2 := by
    rw [List.getElem?_map, hg, Option.map_some]
  rw [Nat.succ_mul, ← Nat.add_assoc] at hlimit
  obtain ⟨htake, hnext⟩ := drop_take_flatten hpart
    (((starts 0 (groups.map Prod.snd) ++ [(groups.map Prod.snd).flatten.length]).map
      UInt32.ofNat).flatMap putOffset ++ [UInt8.ofNat filterBaseLg])
  have hend := length_take_flatten_le (groups.map Prod.snd) (a.1 / filterBase + 1)
  rw [← List.append_assoc, ← h.contents] at htake
  rw [h.ofContents hlen, FilterBlockReader.keyMayMatch]
  simp only [hindex, hstart, hlimit]
  rw [if_pos hi, if_pos ⟨by omega, hend⟩, hnext, Nat.add_sub_cancel_left, htake]
  exact h.matching g (List.mem_of_getElem? hg) a.2 hmem

end Reading

end NoKeyLost

section Following

open FilterBlockBuilder
open Stops (Ensures)

variable {policy : EngineFilterPolicy} {b : FilterBlockBuilder} {added : List (ℕ × Bytes)}
  {offset : ℕ}

def addedKey : Call → Option Bytes
  | .addKey key => some key
  | _ => none

/-- After calls that add the keys, the policy fails to create a filter for those that wait. -/
def Refuses (policy : EngineFilterPolicy) (keys : List Bytes) (f : MemoryFault) : Prop :=
  ∃ calls b, calls.filterMap addedKey = keys ∧ FilterBlockBuilder.empty.run policy calls = .ok b ∧
    b.generateFilter policy = .error f

/-- A builder at a block offset, with the keys that have been added at this one and before. -/
structure Follows (policy : EngineFilterPolicy) (b : FilterBlockBuilder)
    (added : List (ℕ × Bytes)) (offset : ℕ) : Prop where
  filters : b.filterOffsets.length = offset / filterBase
  waiting : b.start.length ≤ added.length
  called : ∃ calls, calls.filterMap addedKey = added.map Prod.snd ∧
    FilterBlockBuilder.empty.run policy calls = .ok b
  builds : Keeps policy → added.length < 2 ^ 31 →
    ∃ groups pending, Builds policy b groups pending added

theorem follows_empty (policy : EngineFilterPolicy) : Follows policy .empty [] 0 :=
  ⟨rfl, le_rfl, ⟨[], rfl, rfl⟩, fun _ _ => ⟨[], [], .empty⟩⟩

theorem run_concat (calls : List Call) (c : Call) :
    b.run policy (calls ++ [c]) = b.run policy calls >>= fun b' => b'.call policy c := by
  induction calls generalizing b with
  | nil => exact bind_pure _
  | cons c' calls ih =>
    rw [List.cons_append, FilterBlockBuilder.run, FilterBlockBuilder.run, bind_assoc]
    exact congrArg _ (funext fun b' => ih)

theorem generateFilters_idle (hstart : b.start = []) (count : ℕ) :
    ∃ b', FilterBlockBuilder.generateFilters policy count b = .ok b' := by
  induction count generalizing b with
  | zero => exact ⟨b, rfl⟩
  | succ count ih =>
    rw [FilterBlockBuilder.generateFilters, FilterBlockBuilder.generateFilter]
    simp only [if_pos hstart]
    exact ih hstart

/-- Only the first of several filters has keys. -/
theorem generateFilters_error {count : ℕ} {f : MemoryFault}
    (h : FilterBlockBuilder.generateFilters policy count b = .error f) :
    b.generateFilter policy = .error f := by
  cases count with
  | zero => cases h
  | succ count =>
    rw [FilterBlockBuilder.generateFilters] at h
    cases hb : b.generateFilter policy with
    | error f' =>
      rw [hb] at h
      exact h
    | ok b₁ =>
      have hstart : b₁.start = [] := List.length_eq_zero_iff.mp (generateFilter_counts hb).1
      obtain ⟨b', hb'⟩ : ∃ b', FilterBlockBuilder.generateFilters policy count b₁ = .ok b' :=
        generateFilters_idle hstart count
      rw [hb, Stops.ok_bind, hb'] at h
      cases h

/-- A block that starts at a later offset. -/
theorem Follows.startBlock (h : Follows policy b added offset) {blockOffset : ℕ}
    (hle : offset ≤ blockOffset) :
    Ensures (Refuses policy (added.map Prod.snd)) (b.startBlock policy blockOffset)
      fun b' => Follows policy b' added blockOffset := by
  obtain ⟨calls, hkeys, hrun⟩ := h.called
  cases hb : b.startBlock policy blockOffset with
  | error f =>
    have hindex : b.filterOffsets.length ≤ blockOffset / filterBase :=
      h.filters.trans_le (Nat.div_le_div_right hle)
    simp only [FilterBlockBuilder.startBlock, if_pos hindex] at hb
    exact ⟨calls, b, hkeys, hrun, generateFilters_error hb⟩
  | ok b' =>
    obtain ⟨hstart, hsame, hoffsets⟩ := startBlock_counts hb
    refine ⟨hoffsets, ?_, ⟨calls ++ [.startBlock blockOffset], ?_, ?_⟩, fun hk hn => ?_⟩
    · by_cases hlt : b.filterOffsets.length < blockOffset / filterBase
      · rw [hstart hlt]
        exact Nat.zero_le _
      · rw [hsame hlt]
        exact h.waiting
    · rw [List.filterMap_append, hkeys]
      exact List.append_nil _
    · rw [run_concat, hrun]
      exact hb
    · obtain ⟨groups, pending, hbuilds⟩ := h.builds hk hn
      exact hbuilds.startBlock hk (fun _ => h.waiting.trans_lt hn) hb

theorem Follows.addKey (h : Follows policy b added offset) (key : Bytes) :
    Follows policy (b.addKey key) (added ++ [(offset, key)]) offset := by
  obtain ⟨calls, hkeys, hrun⟩ := h.called
  refine ⟨h.filters, ?_, ⟨calls ++ [.addKey key], ?_, ?_⟩, fun hk hn => ?_⟩
  · simpa [FilterBlockBuilder.addKey] using h.waiting
  · rw [List.filterMap_append, hkeys, List.map_append]
    rfl
  · rw [run_concat, hrun]
    rfl
  · rw [List.length_append, List.length_singleton] at hn
    obtain ⟨groups, pending, hbuilds⟩ := h.builds hk (by omega)
    exact ⟨groups, pending ++ [key], hbuilds.addKey h.filters.symm key⟩

theorem Follows.finish (h : Follows policy b added offset) :
    Ensures (Refuses policy (added.map Prod.snd)) (b.finish policy) fun b' =>
      Keeps policy → added.length < 2 ^ 31 → ∃ groups, Finished policy b'.result groups added := by
  cases hb : b.finish policy with
  | error f =>
    obtain ⟨calls, hkeys, hrun⟩ := h.called
    refine ⟨calls, b, hkeys, hrun, ?_⟩
    rw [FilterBlockBuilder.finish, FilterBlockBuilder.lastFilter] at hb
    split_ifs at hb
    · cases hb
    · cases hg : b.generateFilter policy with
      | ok b' =>
        rw [hg] at hb
        cases hb
      | error f' =>
        rw [hg] at hb
        exact hb
  | ok b' =>
    intro hk hn
    obtain ⟨groups, pending, hbuilds⟩ := h.builds hk hn
    exact hbuilds.finish hk (fun _ => h.waiting.trans_lt hn) hb

end Following

section Bloom

variable {p : BloomFilterPolicy} {available : ℕ}

theorem toNat_keyCount {n : ℕ} (hn : n < 2 ^ 31) : (BitVec.ofNat 32 n : CInt).toInt.toNat = n := by
  rw [BitVec.toInt_eq_toNat_cond, BitVec.toNat_ofNat, Nat.mod_eq_of_lt (by omega),
    if_pos (by omega), Int.toNat_natCast]

theorem keyCount_nonneg {n : ℕ} (hn : n < 2 ^ 31) : 0 ≤ (BitVec.ofNat 32 n : CInt).toInt := by
  rw [BitVec.toInt_eq_toNat_cond, BitVec.toNat_ofNat, Nat.mod_eq_of_lt (by omega),
    if_pos (by omega)]
  exact Int.natCast_nonneg n

theorem bloom_keeps (hk : 0 < p.k) (hk30 : p.k ≤ 30) : Keeps (bloomFilterPolicy p available) := by
  intro keys dst dst' hlen hcreate
  have hall : keys.take (BitVec.ofNat 32 keys.length : CInt).toInt.toNat = keys := by
    rw [toNat_keyCount hlen, List.take_length]
  simp only [bloomFilterPolicy] at hcreate
  obtain ⟨f, -, rfl⟩ := createFilter_appends hcreate
  refine ⟨f, rfl, ?_⟩
  intro key hkey
  rcases Nat.eq_zero_or_pos (p.filterBytes (BitVec.ofNat 32 keys.length)) with hb | hb
  · rcases @createFilter_of_empty p available keys _ dst hb hk with ⟨e, he⟩ | ⟨hnil, -⟩
    · rw [he] at hcreate
      contradiction
    · rw [hall] at hnil
      rw [hnil] at hkey
      exact absurd hkey List.not_mem_nil
  · by_cases hfit : dst.length + p.filterBytes (BitVec.ofNat 32 keys.length) + 1 ≤ available
    · obtain ⟨g, hg, hf⟩ := @createFilter_ok p available keys _ _ hb hfit
      rw [hcreate] at hg
      injection hg with hg
      obtain rfl := List.append_cancel_left hg
      rw [hall] at hf
      exact (hf.keyMayMatch hb hk30 key).mpr fun q hq => List.mem_flatMap.mpr ⟨key, hkey, hq⟩
    · rw [createFilter_not_fit hfit] at hcreate
      contradiction

theorem facade_keeps (hk : 0 < p.k) (hk30 : p.k ≤ 30) :
    Keeps (filterPolicyFacade (dveBloomFilterPolicy p available)) := by
  intro keys dst dst' hlen hcreate
  rw [facade_createFilter (keyCount_nonneg hlen)] at hcreate
  exact bloom_keeps hk hk30 keys dst dst' hlen hcreate

/-- Filter blocks are the same through the wrapper and without it, where the engine passes no
negative number of keys; and no key is lost, where these numbers and the offsets are not cut
off. -/
theorem wrapped_filter_block (undefined : ℕ) (bitsPerKey : CInt) (available : ℕ) :
    let direct := bloomFilterPolicy (newBloomFilterPolicy undefined bitsPerKey) available
    let wrapped := filterPolicyFacade
      (dveBloomFilterPolicy (newBloomFilterPolicy undefined bitsPerKey) available)
    (∀ calls, (∀ count ∈ filterCounts 0 0 calls, 0 ≤ (BitVec.ofNat 32 count : CInt).toInt) →
      FilterBlockBuilder.empty.run wrapped calls = FilterBlockBuilder.empty.run direct calls) ∧
    (∀ key filter, wrapped.keyMayMatch key filter = direct.keyMayMatch key filter) ∧
    ∀ calls b, .finish ∉ calls →
      (∀ count ∈ filterCounts 0 0 (calls ++ [.finish]), count < 2 ^ 31) →
      FilterBlockBuilder.empty.run wrapped (calls ++ [.finish]) = .ok b →
      b.result.length < 2 ^ 32 → ∀ a ∈ additions 0 calls,
        (FilterBlockReader.ofContents b.result).keyMayMatch wrapped a.1 a.2 = true := by
  intro direct wrapped
  obtain ⟨hk, hk30⟩ := probeCount_bounds undefined bitsPerKey
  refine ⟨?_, fun _ _ => rfl, ?_⟩
  · intro calls hn
    exact run_agree (fun _ _ => facade_createFilter) calls hn
  · intro calls b hcalls hn hb hlen a ha
    have hkeeps : Keeps wrapped := facade_keeps (p := newBloomFilterPolicy undefined bitsPerKey)
      hk hk30
    obtain ⟨groups, hfinished⟩ := Builds.empty.run hkeeps
      (show 0 / filterBase = FilterBlockBuilder.empty.filterOffsets.length from rfl) hcalls hn hb
    exact hfinished.keyMayMatch hlen ha

theorem wrapped_filter_block_two_keys :
    let wrapped := filterPolicyFacade (dveBloomFilterPolicy (newBloomFilterPolicy 0 10) 4096)
    let direct := bloomFilterPolicy (newBloomFilterPolicy 0 10) 4096
    let calls : List FilterBlockBuilder.Call :=
      [.startBlock 0, .addKey [0x61], .startBlock 5000, .addKey [0x62]]
    FilterBlockBuilder.empty.run wrapped calls = FilterBlockBuilder.empty.run direct calls ∧
      ∃ b, FilterBlockBuilder.empty.run wrapped (calls ++ [.finish]) = .ok b ∧
        (FilterBlockReader.ofContents b.result).keyMayMatch wrapped 5000 [0x62] = true := by
  intro wrapped direct calls
  obtain ⟨hsame, -, hkept⟩ := wrapped_filter_block 0 10 4096
  let b : FilterBlockBuilder := ⟨[], [], [8, 16, 32, 64, 128, 0, 1, 0, 6, 16, 32, 64, 128, 0, 1, 2,
    0, 6, 0, 0, 0, 0, 9, 0, 0, 0, 9, 0, 0, 0, 18, 0, 0, 0, 11], [0, 9, 9]⟩
  have hb : FilterBlockBuilder.empty.run wrapped (calls ++ [.finish]) = .ok b := by
    decide +kernel
  refine ⟨hsame calls (by decide), b, hb, ?_⟩
  exact hkept calls b (by decide) (by decide) hb (by decide) (5000, [0x62]) (by decide)

section ManyKeys

open FilterBlockBuilder

variable {policy : EngineFilterPolicy} {b : FilterBlockBuilder}

theorem run_empty_keys (calls : List Call) (n : ℕ) :
    b.run policy (List.replicate n (.addKey []) ++ calls) =
      run policy { b with start := b.start ++ List.replicate n b.keys.length } calls := by
  induction n generalizing b with
  | zero =>
    rw [List.replicate_zero, List.replicate_zero, List.append_nil]
    rfl
  | succ n ih =>
    rw [List.replicate_succ, List.cons_append, run]
    change run policy (b.addKey []) _ = _
    rw [ih, addKey, List.append_nil, List.append_assoc, List.replicate_succ]
    rfl

theorem finish_of_keys (hstart : b.start ≠ []) {result : Bytes}
    (hc : policy.createFilter (slices b.keys (b.start ++ [b.keys.length]))
      (BitVec.ofNat 32 b.start.length) b.result = .ok result) :
    b.finish policy = .ok ⟨[], [], result ++
      (b.filterOffsets ++ [UInt32.ofNat b.result.length]).flatMap putOffset ++
        putOffset (UInt32.ofNat result.length) ++ [UInt8.ofNat filterBaseLg],
      b.filterOffsets ++ [UInt32.ofNat b.result.length]⟩ := by
  have hlast : b.lastFilter policy =
      .ok ⟨[], [], result, b.filterOffsets ++ [UInt32.ofNat b.result.length]⟩ := by
    rw [lastFilter, if_neg hstart, FilterBlockBuilder.generateFilter]
    simp only
    rw [if_neg hstart, hc]
    rfl
  rw [FilterBlockBuilder.finish, hlast]
  rfl

/-- A number of keys that an `int` shows as zero gets the filter of no keys. -/
theorem run_cut_off {n : ℕ} (hpos : 0 < n) (hn : (BitVec.ofNat 32 n : CInt) = 0) {f : Bytes}
    (hf : ∀ keys, policy.createFilter keys 0 [] = .ok f) :
    FilterBlockBuilder.empty.run policy
        (.startBlock 0 :: List.replicate n (.addKey []) ++ [.finish]) =
      .ok ⟨[], [], f ++ ([0] : List UInt32).flatMap putOffset ++
        putOffset (UInt32.ofNat f.length) ++ [UInt8.ofNat filterBaseLg], [0]⟩ := by
  rw [List.cons_append, run]
  change run policy FilterBlockBuilder.empty _ = _
  rw [run_empty_keys]
  have hlen : (([] : List ℕ) ++ List.replicate n 0).length = n := by simp
  have hstart : ([] : List ℕ) ++ List.replicate n 0 ≠ [] := by
    rw [← List.length_pos_iff, hlen]
    exact hpos
  have hc : ∀ keys, policy.createFilter keys
      (BitVec.ofNat 32 (([] : List ℕ) ++ List.replicate n 0).length) [] = .ok f := by
    rw [hlen, hn]
    exact hf
  rw [run, call, finish_of_keys hstart (hc _)]
  rfl

theorem mem_additions_replicate {n : ℕ} (hpos : 0 < n) :
    (0, []) ∈ additions 0 (.startBlock 0 :: List.replicate n (.addKey [])) := by
  obtain ⟨n, rfl⟩ := Nat.exists_eq_succ_of_ne_zero hpos.ne'
  rw [additions, List.replicate_succ, additions]
  exact List.mem_cons_self

/-- Of four billion keys in one filter, an `int` shows none, and all of them are ruled out. -/
theorem filter_block_loses_keys :
    let wrapped := filterPolicyFacade (dveBloomFilterPolicy (newBloomFilterPolicy 0 10) 4096)
    let calls := .startBlock 0 :: List.replicate (2 ^ 32) (.addKey [])
    ∃ b, FilterBlockBuilder.empty.run wrapped (calls ++ [.finish]) = .ok b ∧
      (0, []) ∈ additions 0 calls ∧
      (FilterBlockReader.ofContents b.result).keyMayMatch wrapped 0 [] = false := by
  intro wrapped calls
  have hempty : ∀ keys, wrapped.createFilter keys 0 [] = .ok [0, 0, 0, 0, 0, 0, 0, 0, 6] := by
    intro keys
    have htake : keys.take (0 : CInt).toInt.toNat = [] := List.take_zero
    simp only [wrapped, filterPolicyFacade, htake]
    decide +kernel
  refine ⟨_, run_cut_off (by decide) (by decide) hempty, mem_additions_replicate (by decide), ?_⟩
  decide +kernel

end ManyKeys

end Bloom

end FilterBlock

end DVELevelDB
