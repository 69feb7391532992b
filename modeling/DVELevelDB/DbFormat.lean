import DVELevelDB.Comparator
import DVELevelDB.Lib.VersionStore

/-! # Internal keys -/

namespace DVELevelDB

open VersionStore Coding

def kTypeDeletion : ℕ := 0

def kTypeValue : ℕ := 1

def kValueTypeForSeek : ℕ := kTypeValue

def kMaxSequenceNumber : ℕ := (1 <<< 56) - 1

/-- A user key and the number that packs its sequence number and value type. -/
structure InternalKey where
  userKey : Bytes
  tag : ℕ
  deriving DecidableEq, Repr

namespace InternalKey

def sequence (key : InternalKey) : ℕ := key.tag >>> 8

def type (key : InternalKey) : ℕ := key.tag &&& 0xff

def encode (key : InternalKey) : Bytes := key.userKey ++ encodeFixed64 key.tag

/-- `ExtractUserKey` asserts that there is room for the tag. -/
def decode (rep : Bytes) : Exec InternalKey := do
  assertThat (rep.length ≥ 8)
  return ⟨rep.take (rep.length - 8), decodeFixed64 (rep.drop (rep.length - 8))⟩

end InternalKey

def packSequenceAndType (seq t : ℕ) : Exec ℕ := do
  assertThat (seq ≤ kMaxSequenceNumber)
  assertThat (t ≤ kValueTypeForSeek)
  return seq <<< 8 ||| t

structure ParsedInternalKey where
  userKey : Bytes
  sequence : ℕ
  type : ℕ

/-- `ParseInternalKey` on a key that is long enough. -/
def parseInternalKey (key : InternalKey) : Option ParsedInternalKey :=
  if key.type ≤ kTypeValue then some ⟨key.userKey, key.sequence, key.type⟩ else none

structure Entry where
  key : InternalKey
  value : Bytes
  deriving DecidableEq, Repr

namespace InternalKeyComparator

variable (c : Comparator)

/-- Ascending user keys, then descending tags. -/
def compare (a b : InternalKey) : Exec Ordering := do
  let r ← c.compare a.userKey b.userKey
  return if r = .eq then
      if a.tag > b.tag then .lt else if a.tag < b.tag then .gt else .eq
    else r

def findShortestSeparator (start limit : InternalKey) : Exec InternalKey := do
  let tmp ← c.findShortestSeparator start.userKey limit.userKey
  if tmp.length < start.userKey.length then
    if (← c.compare start.userKey tmp) = .lt then
      let tmp : InternalKey := ⟨tmp, ← packSequenceAndType kMaxSequenceNumber kValueTypeForSeek⟩
      assertThat ((← compare c start tmp) = .lt)
      assertThat ((← compare c tmp limit) = .lt)
      return tmp
    else
      return start
  else
    return start

def findShortSuccessor (key : InternalKey) : Exec InternalKey := do
  let tmp ← c.findShortSuccessor key.userKey
  if tmp.length < key.userKey.length then
    if (← c.compare key.userKey tmp) = .lt then
      let tmp : InternalKey := ⟨tmp, ← packSequenceAndType kMaxSequenceNumber kValueTypeForSeek⟩
      assertThat ((← compare c key tmp) = .lt)
      return tmp
    else
      return key
  else
    return key

end InternalKeyComparator

/-- The key of a search: the newest entry of `userKey` at `sequence` or older. -/
structure LookupKey where
  userKey : Bytes
  tag : ℕ

namespace LookupKey

def make (userKey : Bytes) (s : ℕ) : Exec LookupKey := do
  return ⟨userKey, ← packSequenceAndType s kValueTypeForSeek⟩

def internalKey (key : LookupKey) : InternalKey := ⟨key.userKey, key.tag⟩

/-- What the memtable reads back: the length goes through a varint32. -/
def memtableKey (key : LookupKey) : Exec InternalKey :=
  let internal := key.internalKey.encode
  InternalKey.decode (internal.take ((key.userKey.length + 8) % 2 ^ 32))

end LookupKey

section Versions

variable {κ : Type*} (rank : Bytes → κ)

/-- Entries as versions of the key's place in the comparator's order. -/
def schema : Schema Entry κ Bytes where
  key e := rank e.key.userKey
  seq e := e.key.sequence
  val e := if e.key.type = kTypeValue then some e.value else none

@[simp] theorem schema_key (e : Entry) : (schema rank).key e = rank e.key.userKey := rfl

@[simp] theorem schema_seq (e : Entry) : (schema rank).seq e = e.key.sequence := rfl

theorem schema_val_of_value {e : Entry} (h : e.key.type = kTypeValue) :
    (schema rank).val e = some e.value := if_pos h

theorem schema_val_of_deletion {e : Entry} (h : e.key.type = kTypeDeletion) :
    (schema rank).val e = none := by
  simp [schema, h, kTypeDeletion, kTypeValue]

end Versions

section Tags

theorem InternalKey.sequence_eq (key : InternalKey) : key.sequence = key.tag / 256 :=
  Nat.shiftRight_eq_div_pow _ 8

theorem InternalKey.type_eq (key : InternalKey) : key.type = key.tag % 256 :=
  Nat.and_two_pow_sub_one_eq_mod key.tag 8

theorem kMaxSequenceNumber_eq : kMaxSequenceNumber = 2 ^ 56 - 1 := rfl

theorem pack_eq {seq t : ℕ} (ht : t < 256) : seq <<< 8 ||| t = seq * 256 + t := by
  have : seq <<< 8 = 2 ^ 8 * seq := by rw [Nat.shiftLeft_eq, Nat.mul_comm]
  rw [this, ← Nat.two_pow_add_eq_or_of_lt ht]
  omega

theorem packSequenceAndType_eq {seq t : ℕ} (hs : seq ≤ kMaxSequenceNumber)
    (ht : t ≤ kValueTypeForSeek) : packSequenceAndType seq t = .ok (seq * 256 + t) := by
  have ht' : t < 256 := lt_of_le_of_lt ht (by decide)
  simp [packSequenceAndType, hs, ht, pack_eq ht', pure, Except.pure]

theorem seekTag_lt {s : ℕ} (hs : s ≤ kMaxSequenceNumber) :
    s * 256 + kValueTypeForSeek < 2 ^ 64 := by
  rw [kMaxSequenceNumber_eq] at hs
  rw [kValueTypeForSeek, kTypeValue]
  omega

theorem LookupKey.make_eq {k : Bytes} {s : ℕ} (hs : s ≤ kMaxSequenceNumber) :
    LookupKey.make k s = .ok ⟨k, s * 256 + 1⟩ := by
  rw [make, packSequenceAndType_eq hs le_rfl]
  rfl

theorem InternalKey.length_encode (key : InternalKey) :
    key.encode.length = key.userKey.length + 8 := by
  simp [encode, encodeFixed64]

theorem InternalKey.decode_encode {k : InternalKey} (h : k.tag < 2 ^ 64) :
    InternalKey.decode k.encode = .ok k := by
  have hdec : decodeFixed64 (encodeFixed64 k.tag) = k.tag := by
    have := decodeFixed_encodeFixed 8 k.tag []
    rw [List.append_nil] at this
    rw [decodeFixed64, encodeFixed64, this, Nat.mod_eq_of_lt (by simpa using h)]
  simp only [decode, length_encode, Nat.le_add_left, decide_true, assertThat_true, Stops.ok_bind,
    Nat.add_sub_cancel]
  simp [encode, hdec, pure, Except.pure]

/-- Keys whose length fits its varint32 reach the memtable unchanged. -/
theorem LookupKey.memtableKey_eq (key : LookupKey) (hk : key.userKey.length + 8 < 2 ^ 32)
    (ht : key.tag < 2 ^ 64) : key.memtableKey = .ok key.internalKey := by
  have hlen : key.internalKey.encode.length = key.userKey.length + 8 :=
    key.internalKey.length_encode
  rw [memtableKey, Nat.mod_eq_of_lt hk, ← hlen, List.take_length]
  exact InternalKey.decode_encode ht

theorem LookupKey.memtableKey_isOk (key : LookupKey)
    (hk : 8 ≤ (key.userKey.length + 8) % 2 ^ 32) : ∃ k, key.memtableKey = .ok k := by
  have hlen : key.internalKey.encode.length = key.userKey.length + 8 :=
    key.internalKey.length_encode
  have hle : (key.userKey.length + 8) % 2 ^ 32 ≤ key.userKey.length + 8 := Nat.mod_le _ _
  rw [memtableKey, InternalKey.decode, List.length_take, hlen, Nat.min_eq_left hle]
  simp only [ge_iff_le, hk, decide_true, assertThat_true, Stops.ok_bind]
  exact ⟨_, rfl⟩

end Tags

section Order

variable {κ : Type*} [LinearOrder κ] {c : Comparator} {D : Bytes → Prop} {rank : Bytes → κ}
  {a b : InternalKey}

/-- The place of an internal key in the order of `InternalKeyComparator`. -/
def KeyBefore (rank : Bytes → κ) (a b : InternalKey) : Prop :=
  rank a.userKey < rank b.userKey ∨ rank a.userKey = rank b.userKey ∧ b.tag < a.tag

instance (rank : Bytes → κ) (a b : InternalKey) : Decidable (KeyBefore rank a b) :=
  inferInstanceAs (Decidable (_ ∨ (_ ∧ _)))

theorem KeyBefore.trans {d : InternalKey} (h : KeyBefore rank a b) (h' : KeyBefore rank b d) :
    KeyBefore rank a d := by
  rcases h with h | ⟨h, hs⟩ <;> rcases h' with h' | ⟨h', hs'⟩
  · exact Or.inl (lt_trans h h')
  · exact Or.inl (h' ▸ h)
  · exact Or.inl (h ▸ h')
  · exact Or.inr ⟨h.trans h', by omega⟩

theorem KeyBefore.asymm (h : KeyBefore rank a b) : ¬ KeyBefore rank b a := by
  rintro (h' | ⟨h', hs'⟩) <;> rcases h with h | ⟨h, hs⟩
  · exact lt_asymm h h'
  · exact (ne_of_lt h') h.symm
  · exact (ne_of_lt h) h'.symm
  · omega

variable (rank) in
theorem KeyBefore.total (a b : InternalKey) : KeyBefore rank a b ∨ KeyBefore rank b a ∨
    rank a.userKey = rank b.userKey ∧ a.tag = b.tag := by
  unfold KeyBefore
  rcases lt_trichotomy (rank a.userKey) (rank b.userKey) with h | h | h
  · exact Or.inl (Or.inl h)
  · rcases lt_trichotomy a.tag b.tag with ht | ht | ht
    · exact Or.inr (Or.inl (Or.inr ⟨h.symm, ht⟩))
    · exact Or.inr (Or.inr ⟨h, ht⟩)
    · exact Or.inl (Or.inr ⟨h, ht⟩)
  · exact Or.inr (Or.inl (Or.inl h))

theorem KeyBefore.of_not_before {d : InternalKey} (hab : ¬ KeyBefore rank b a)
    (hbd : KeyBefore rank b d) : KeyBefore rank a d := by
  rcases KeyBefore.total rank a b with h | h | ⟨hr, ht⟩
  · exact h.trans hbd
  · exact absurd h hab
  · rcases hbd with hlt | ⟨heq, hlt⟩
    · exact Or.inl (hr ▸ hlt)
    · exact Or.inr ⟨hr.trans heq, ht ▸ hlt⟩

theorem InternalKeyComparator.compare_eq (ho : c.OrdersOn D rank) (ha : D a.userKey)
    (hb : D b.userKey) : InternalKeyComparator.compare c a b =
      .ok (if KeyBefore rank a b then .lt else if KeyBefore rank b a then .gt else .eq) := by
  rw [InternalKeyComparator.compare, ho.compare_eq _ _ ha hb, Stops.ok_bind]
  unfold KeyBefore
  rcases lt_trichotomy (rank a.userKey) (rank b.userKey) with h | h | h
  · rw [(cmp_eq_lt_iff _ _).mpr h]
    simp [h, pure, Except.pure]
  · rw [(cmp_eq_eq_iff _ _).mpr h]
    simp [h, pure, Except.pure]
  · rw [(cmp_eq_gt_iff _ _).mpr h]
    simp [h, (ne_of_gt h), lt_asymm h, pure, Except.pure]

theorem InternalKeyComparator.compare_lt (ho : c.OrdersOn D rank) (ha : D a.userKey)
    (hb : D b.userKey) :
    InternalKeyComparator.compare c a b = .ok .lt ↔ KeyBefore rank a b := by
  rw [InternalKeyComparator.compare_eq ho ha hb]
  split_ifs with h h' <;> simp [h]

theorem InternalKeyComparator.compare_gt (ho : c.OrdersOn D rank) (ha : D a.userKey)
    (hb : D b.userKey) (h : KeyBefore rank b a) :
    InternalKeyComparator.compare c a b = .ok .gt := by
  rw [InternalKeyComparator.compare_eq ho ha hb, if_neg h.asymm, if_pos h]

variable (rank) in
/-- With two value types, an entry comes before a search key exactly when it is passed over. -/
theorem keyBefore_lookup_iff {e : Entry} {k : Bytes} {s : ℕ} (ht : e.key.type ≤ kTypeValue) :
    KeyBefore rank e.key ⟨k, s * 256 + 1⟩ ↔ (schema rank).Passed (rank k) s e := by
  have h1 := e.key.sequence_eq
  have h2 := e.key.type_eq
  simp only [kTypeValue] at ht
  simp only [KeyBefore, Schema.Passed, schema_key, schema_seq]
  have : s * 256 + 1 < e.key.tag ↔ s < e.key.sequence := by omega
  rw [this]

theorem keyBefore_of_before {e e' : Entry} (h : (schema rank).Before e e') :
    KeyBefore rank e.key e'.key := by
  rcases h with h | ⟨h, hs⟩
  · exact Or.inl h
  · simp only [schema_seq, InternalKey.sequence_eq] at hs
    exact Or.inr ⟨h, by omega⟩

end Order

section Separators

variable {κ : Type*} [LinearOrder κ] {c : Comparator} {D : Bytes → Prop} {rank : Bytes → κ}

/-- A separator is the start key itself, or a key strictly between the two user keys. -/
theorem InternalKeyComparator.findShortestSeparator_eq (ho : c.OrdersOn D rank)
    {start limit : InternalKey} (hs : D start.userKey) (hl : D limit.userKey)
    (hle : rank start.userKey ≤ rank limit.userKey) :
    ∃ k, InternalKeyComparator.findShortestSeparator c start limit = .ok k ∧ D k.userKey ∧
      (start.tag < 2 ^ 64 → k.tag < 2 ^ 64) ∧
      (k = start ∨ rank start.userKey < rank k.userKey ∧ rank k.userKey < rank limit.userKey) := by
  obtain ⟨tmp, htmp, hD, hlt⟩ := ho.separator _ _ hs hl hle
  rw [findShortestSeparator, htmp, Stops.ok_bind]
  split_ifs with hlen
  · rw [ho.compare_eq _ _ hs hD, Stops.ok_bind]
    by_cases hlt' : rank start.userKey < rank tmp
    · have hlim : rank tmp < rank limit.userKey := hlt.resolve_left (not_le_of_gt hlt')
      have hpack := packSequenceAndType_eq (le_refl kMaxSequenceNumber) (le_refl kValueTypeForSeek)
      let sep : InternalKey := ⟨tmp, kMaxSequenceNumber * 256 + kValueTypeForSeek⟩
      have h1 := (InternalKeyComparator.compare_lt ho (b := sep) hs hD).mpr (Or.inl hlt')
      have h2 := (InternalKeyComparator.compare_lt ho (a := sep) hD hl).mpr (Or.inl hlim)
      refine ⟨sep, ?_, hD, fun _ => seekTag_lt le_rfl, Or.inr ⟨hlt', hlim⟩⟩
      rw [if_pos ((cmp_eq_lt_iff _ _).mpr hlt'), hpack, Stops.ok_bind]
      simp only [sep] at h1 h2
      simp only [h1, h2, Stops.ok_bind]
      rfl
    · refine ⟨start, ?_, hs, id, Or.inl rfl⟩
      rw [if_neg (by rw [cmp_eq_lt_iff]; exact hlt')]
      rfl
  · exact ⟨start, rfl, hs, id, Or.inl rfl⟩

theorem InternalKeyComparator.findShortSuccessor_eq (ho : c.OrdersOn D rank)
    {key : InternalKey} (hk : D key.userKey) :
    ∃ k, InternalKeyComparator.findShortSuccessor c key = .ok k ∧ D k.userKey ∧
      (key.tag < 2 ^ 64 → k.tag < 2 ^ 64) ∧ (k = key ∨ rank key.userKey < rank k.userKey) := by
  obtain ⟨tmp, htmp, hD⟩ := ho.successor _ hk
  rw [findShortSuccessor, htmp, Stops.ok_bind]
  split_ifs with hlen
  · rw [ho.compare_eq _ _ hk hD, Stops.ok_bind]
    by_cases hlt : rank key.userKey < rank tmp
    · have hpack := packSequenceAndType_eq (le_refl kMaxSequenceNumber) (le_refl kValueTypeForSeek)
      let succ : InternalKey := ⟨tmp, kMaxSequenceNumber * 256 + kValueTypeForSeek⟩
      have h1 := (InternalKeyComparator.compare_lt ho (b := succ) hk hD).mpr (Or.inl hlt)
      refine ⟨succ, ?_, hD, fun _ => seekTag_lt le_rfl, Or.inr hlt⟩
      rw [if_pos ((cmp_eq_lt_iff _ _).mpr hlt), hpack, Stops.ok_bind]
      simp only [succ] at h1
      simp only [h1, Stops.ok_bind]
      rfl
    · refine ⟨key, ?_, hk, id, Or.inl rfl⟩
      rw [if_neg (by rw [cmp_eq_lt_iff]; exact hlt)]
      rfl
  · exact ⟨key, rfl, hk, id, Or.inl rfl⟩

end Separators

end DVELevelDB
