import DVELevelDB.DbFormat

/-! # Write batches -/

namespace DVELevelDB

open Coding

def kHeader : ℕ := 12

/-- A batch is its bytes: sequence number, record count, records. -/
structure WriteBatch where
  rep : Bytes
  header : kHeader ≤ rep.length

inductive Record where
  | put (key value : Bytes)
  | delete (key : Bytes)
  deriving DecidableEq, Repr

namespace Record

def key : Record → Bytes
  | put key _ => key
  | delete key => key

def value : Record → Option Bytes
  | put _ value => some value
  | delete _ => none

def type : Record → ℕ
  | put _ _ => kTypeValue
  | delete _ => kTypeDeletion

theorem type_le (record : Record) : record.type ≤ kTypeValue := by
  cases record
  · exact le_rfl
  · exact Nat.zero_le _

def encode : Record → Bytes
  | put key value => 1 :: putLengthPrefixedSlice key ++ putLengthPrefixedSlice value
  | delete key => 0 :: putLengthPrefixedSlice key

/-- The record as an update of the key's place in the comparator's order. -/
def update {κ : Type*} (rank : Bytes → κ) (record : Record) : VersionStore.Update κ Bytes :=
  (rank record.key, record.value)

/-- Both lengths fit the 32 bits they are stored in. -/
def Fits : Record → Prop
  | put key value => key.length < 2 ^ 32 ∧ value.length < 2 ^ 32
  | delete key => key.length < 2 ^ 32

end Record

/-- The value of 32 bits read as an `int`. -/
def toInt (n : ℕ) : ℤ := if n < 2 ^ 31 then n else n - 2 ^ 32

namespace WriteBatch

def clear : WriteBatch := ⟨List.replicate kHeader 0, by simp⟩

def count (b : WriteBatch) : ℤ := toInt (decodeFixed32 (b.rep.drop 8))

def setCount (b : WriteBatch) (n : ℤ) : WriteBatch where
  rep := b.rep.take 8 ++ encodeFixed32 (n % 2 ^ 32).toNat ++ b.rep.drop 12
  header := by have := b.header; simp [encodeFixed32, kHeader] at *; omega

def sequence (b : WriteBatch) : ℕ := decodeFixed64 b.rep

theorem header_setSequence (b : WriteBatch) (seq : ℕ) :
    kHeader ≤ (encodeFixed64 seq ++ b.rep.drop 8).length := by
  have := b.header
  simp [encodeFixed64, kHeader] at *
  omega

def setSequence (b : WriteBatch) (seq : ℕ) : WriteBatch where
  rep := encodeFixed64 seq ++ b.rep.drop 8
  header := header_setSequence b seq

/-- `rep_.append`. -/
def extend (b : WriteBatch) (bytes : Bytes) : WriteBatch where
  rep := b.rep ++ bytes
  header := by have := b.header; simp; omega

def put (b : WriteBatch) (key value : Bytes) : WriteBatch :=
  (((b.setCount (b.count + 1)).extend [1]).extend (putLengthPrefixedSlice key)).extend
    (putLengthPrefixedSlice value)

def delete (b : WriteBatch) (key : Bytes) : WriteBatch :=
  ((b.setCount (b.count + 1)).extend [0]).extend (putLengthPrefixedSlice key)

/-- The records of `src` follow those of `dst`; when both are one batch, `src` is read after
its count has changed, which its records do not depend on. -/
def append (dst src : WriteBatch) : WriteBatch :=
  (dst.setCount (dst.count + src.count)).extend (src.rep.drop kHeader)

def setContents (contents : Bytes) : Exec WriteBatch :=
  if h : kHeader ≤ contents.length then pure ⟨contents, h⟩ else throw .assertion

/-- One turn of the loop of `Iterate`: a record and the bytes after it. -/
def readRecord (tag : UInt8) (input : Bytes) : Except Status (Record × Bytes) :=
  if tag = 1 then
    match getLengthPrefixedSlice input with
    | some (key, input) =>
      match getLengthPrefixedSlice input with
      | some (value, input) => .ok (.put key value, input)
      | none => .error (.make .corruption (utf8 "bad WriteBatch Put") [])
    | none => .error (.make .corruption (utf8 "bad WriteBatch Put") [])
  else if tag = 0 then
    match getLengthPrefixedSlice input with
    | some (key, input) => .ok (.delete key, input)
    | none => .error (.make .corruption (utf8 "bad WriteBatch Delete") [])
  else
    .error (.make .corruption (utf8 "unknown WriteBatch tag") [])

theorem readRecord_rest {tag : UInt8} {input rest : Bytes} {record : Record}
    (h : readRecord tag input = .ok (record, rest)) : rest.length < (tag :: input).length := by
  unfold readRecord at h
  simp only [List.length_cons]
  split_ifs at h
  · split at h
    · rename_i key input' hk
      have := getLengthPrefixedSlice_rest hk
      split at h
      · rename_i value input'' hv
        have := getLengthPrefixedSlice_rest hv
        obtain ⟨-, rfl⟩ := Prod.mk.inj (Except.ok.inj h)
        omega
      · cases h
    · cases h
  · split at h
    · rename_i key input' hk
      have := getLengthPrefixedSlice_rest hk
      obtain ⟨-, rfl⟩ := Prod.mk.inj (Except.ok.inj h)
      omega
    · cases h

section Iterate

variable {σ : Type} (put : σ → Bytes → Bytes → Exec σ) (delete : σ → Bytes → Exec σ)

def handle (s : σ) : Record → Exec σ
  | .put key value => put s key value
  | .delete key => delete s key

/-- The handler sees each record before the next one is decoded; `found` is an `int` of 32 bits. -/
def iterateLoop (found : ℤ) (s : σ) (count : ℤ) (input : Bytes) : Exec (Status × σ) :=
  match input with
  | [] =>
    if found ≠ count then
      pure (.make .corruption (utf8 "WriteBatch has wrong count") [], s)
    else
      pure (.ok, s)
  | tag :: input =>
    match hr : readRecord tag input with
    | .ok (record, input') => do
      iterateLoop ((found + 1).bmod (2 ^ 32)) (← handle put delete s record) count input'
    | .error status => pure (status, s)
  termination_by input.length
  decreasing_by exact readRecord_rest hr

def iterate (b : WriteBatch) (s : σ) : Exec (Status × σ) :=
  if b.rep.length < kHeader then
    pure (.make .corruption (utf8 "malformed WriteBatch (too small)") [], s)
  else
    iterateLoop put delete 0 s b.count (b.rep.drop kHeader)

end Iterate

/-- The records the loop reads, and the error it stops at if there is one. -/
def parse (input : Bytes) : List Record × Option Status :=
  match input with
  | [] => ([], none)
  | tag :: input =>
    match _hr : readRecord tag input with
    | .ok (record, input') => (record :: (parse input').1, (parse input').2)
    | .error status => ([], some status)
  termination_by input.length
  decreasing_by all_goals exact readRecord_rest _hr

def records (b : WriteBatch) : List Record := (parse (b.rep.drop kHeader)).1

/-- The status of a complete pass over the batch. -/
def parseStatus (b : WriteBatch) : Status :=
  match (parse (b.rep.drop kHeader)).2 with
  | some status => status
  | none =>
    if (b.records.length : ℤ).bmod (2 ^ 32) ≠ b.count then
      .make .corruption (utf8 "WriteBatch has wrong count") []
    else
      .ok

theorem parse_nil : parse [] = ([], none) := by rw [parse]

theorem parse_ok {tag : UInt8} {input rest : Bytes} {record : Record}
    (h : readRecord tag input = .ok (record, rest)) :
    parse (tag :: input) = (record :: (parse rest).1, (parse rest).2) := by
  rw [parse]
  split <;> simp_all

theorem parse_error {tag : UInt8} {input : Bytes} {status : Status}
    (h : readRecord tag input = .error status) : parse (tag :: input) = ([], some status) := by
  rw [parse]
  split <;> simp_all

theorem readRecord_fits {tag : UInt8} {input rest : Bytes} {record : Record}
    (h : readRecord tag input = .ok (record, rest)) : record.Fits := by
  unfold readRecord at h
  split_ifs at h
  · split at h
    · rename_i key input' hk
      split at h
      · rename_i value input'' hv
        obtain ⟨rfl, -⟩ := Prod.mk.inj (Except.ok.inj h)
        exact ⟨getLengthPrefixedSlice_length hk, getLengthPrefixedSlice_length hv⟩
      · cases h
    · cases h
  · split at h
    · rename_i key input' hk
      obtain ⟨rfl, -⟩ := Prod.mk.inj (Except.ok.inj h)
      exact getLengthPrefixedSlice_length hk
    · cases h

/-- Whatever was written, the lengths that are read fit 32 bits. -/
theorem parse_fits (input : Bytes) : ∀ record ∈ (parse input).1, record.Fits := by
  induction input using parse.induct with
  | case1 => simp [parse_nil]
  | case2 tag input record input' hr ih =>
    rw [parse_ok hr]
    intro r hmem
    rcases List.mem_cons.mp hmem with rfl | hmem
    · exact readRecord_fits hr
    · exact ih r hmem
  | case3 tag input status hr => simp [parse_error hr]

theorem iterateLoop_eq {σ : Type} (put : σ → Bytes → Bytes → Exec σ)
    (delete : σ → Bytes → Exec σ) (found : ℤ) (s : σ) (count : ℤ) (input : Bytes) :
    iterateLoop put delete (found.bmod (2 ^ 32)) s count input = do
      let s' ← (parse input).1.foldlM (handle put delete) s
      return (match (parse input).2 with
        | some status => status
        | none => if (found + ((parse input).1.length : ℤ)).bmod (2 ^ 32) ≠ count then
            .make .corruption (utf8 "WriteBatch has wrong count") [] else .ok, s') := by
  induction input using parse.induct generalizing found s with
  | case1 =>
    rw [iterateLoop, parse_nil]
    simp only [List.length_nil, Nat.cast_zero, add_zero, List.foldlM_nil, pure_bind]
    split_ifs <;> rfl
  | case2 tag input record input' hr ih =>
    rw [iterateLoop, parse_ok hr]
    split
    · rename_i record' input'' hr'
      obtain ⟨rfl, rfl⟩ := Prod.mk.inj (Except.ok.inj (hr'.symm.trans hr))
      rw [Int.bmod_add_bmod]
      simp only [List.foldlM_cons, bind_assoc, List.length_cons, ih]
      push_cast
      simp only [add_assoc, add_comm (1 : ℤ)]
    · simp_all
  | case3 tag input status hr =>
    rw [iterateLoop, parse_error hr]
    split <;> simp_all

/-- `Iterate` hands over the records it can read and then reports on the whole batch. -/
theorem iterate_eq {σ : Type} (put : σ → Bytes → Bytes → Exec σ)
    (delete : σ → Bytes → Exec σ) (b : WriteBatch) (s : σ) :
    b.iterate put delete s = do
      let s' ← b.records.foldlM (handle put delete) s
      return (b.parseStatus, s') := by
  have hloop := iterateLoop_eq put delete 0 s b.count (b.rep.drop kHeader)
  rw [Int.zero_bmod] at hloop
  rw [iterate, if_neg (not_lt.mpr b.header), hloop]
  simp only [zero_add]
  rfl

section Denotes

variable {b b' src : WriteBatch} {ops ops' : List Record}

/-- The bytes of a batch spell `ops` and its count is their number. -/
structure Denotes (b : WriteBatch) (ops : List Record) : Prop where
  data : b.rep.drop kHeader = ops.flatMap Record.encode
  count : decodeFixed32 (b.rep.drop 8) = ops.length % 2 ^ 32
  fits : ∀ op ∈ ops, op.Fits

theorem parse_encode {op : Record} (h : op.Fits) (input : Bytes) :
    parse (op.encode ++ input) = (op :: (parse input).1, (parse input).2) := by
  cases op with
  | put key value =>
    have hv := getLengthPrefixedSlice_put h.2 input
    have hk := getLengthPrefixedSlice_put h.1 (putLengthPrefixedSlice value ++ input)
    simp only [Record.encode, List.cons_append, List.append_assoc]
    exact parse_ok (by simp only [readRecord, if_true, hk, hv])
  | delete key =>
    have hk : getLengthPrefixedSlice (putLengthPrefixedSlice key ++ input) = some (key, input) :=
      getLengthPrefixedSlice_put h input
    simp only [Record.encode, List.cons_append]
    exact parse_ok (by simp only [readRecord, if_neg (by decide : ¬ (0 : UInt8) = 1), if_true, hk])

theorem parse_encode_all (h : ∀ op ∈ ops, op.Fits) :
    parse (ops.flatMap Record.encode) = (ops, none) := by
  induction ops with
  | nil => exact parse_nil
  | cons op ops ih =>
    rw [List.flatMap_cons, parse_encode (h op List.mem_cons_self),
      ih fun op' h' => h op' (List.mem_cons_of_mem _ h')]

theorem Denotes.records_eq (h : b.Denotes ops) : b.records = ops := by
  rw [records, h.data, parse_encode_all h.fits]

theorem Denotes.unique (h : b.Denotes ops) (h' : b.Denotes ops') : ops = ops' :=
  h.records_eq.symm.trans h'.records_eq

theorem Denotes.count_eq (h : b.Denotes ops) (hn : ops.length < 2 ^ 31) :
    b.count = ops.length := by
  have hmod : ops.length % 2 ^ 32 = ops.length := Nat.mod_eq_of_lt (by omega)
  rw [WriteBatch.count, h.count, hmod, toInt, if_pos hn]

theorem Denotes.parseStatus_ok (h : b.Denotes ops) (hn : ops.length < 2 ^ 31) :
    b.parseStatus = .ok := by
  have hcount : (ops.length : ℤ).bmod (2 ^ 32) = ops.length :=
    Int.bmod_eq_of_le (by omega) (by omega)
  rw [parseStatus, h.data, parse_encode_all h.fits, h.records_eq, h.count_eq hn, hcount]
  simp

theorem drop_kHeader_setCount (n : ℤ) : (b.setCount n).rep.drop kHeader = b.rep.drop kHeader := by
  have hb := b.header
  simp only [kHeader] at hb ⊢
  have hlen : (b.rep.take 8 ++ encodeFixed32 (n % 2 ^ 32).toNat).length = 12 := by
    simp [encodeFixed32]; omega
  rw [setCount, List.drop_append_of_le_length hlen.ge, List.drop_eq_nil_of_le hlen.le,
    List.nil_append]

theorem count_setCount (n : ℤ) :
    decodeFixed32 ((b.setCount n).rep.drop 8) = (n % 2 ^ 32).toNat := by
  have hb := b.header
  simp only [kHeader] at hb
  have hlen : (b.rep.take 8).length = 8 := by simp; omega
  have hdrop : (b.setCount n).rep.drop 8 = encodeFixed32 (n % 2 ^ 32).toNat ++ b.rep.drop 12 := by
    simp only [setCount, List.append_assoc]
    rw [List.drop_append_of_le_length hlen.ge, List.drop_eq_nil_of_le hlen.le, List.nil_append]
  rw [hdrop, decodeFixed32, encodeFixed32, decodeFixed_encodeFixed]
  omega

theorem drop_setSequence {n : ℕ} (hn : 8 ≤ n) (seq : ℕ) :
    (b.setSequence seq).rep.drop n = b.rep.drop n := by
  have hlen : (encodeFixed64 seq).length = 8 := by simp [encodeFixed64]
  rw [setSequence, List.drop_append, List.drop_eq_nil_of_le (by omega), List.nil_append, hlen,
    List.drop_drop]
  congr 1
  omega

theorem sequence_setSequence (seq : ℕ) : (b.setSequence seq).sequence = seq % 2 ^ 64 := by
  exact decodeFixed_encodeFixed 8 seq (b.rep.drop 8)

theorem drop_extend {n : ℕ} (hn : n ≤ kHeader) (bytes : Bytes) :
    (b.extend bytes).rep.drop n = b.rep.drop n ++ bytes := by
  have := b.header
  rw [extend, List.drop_append_of_le_length (by omega)]

theorem count_extend (bytes : Bytes) :
    decodeFixed32 ((b.extend bytes).rep.drop 8) = decodeFixed32 (b.rep.drop 8) := by
  have hb := b.header
  simp only [kHeader] at hb
  rw [drop_extend (by decide), decodeFixed32, decodeFixed32, decodeFixed_append]
  simp
  omega

private theorem toInt_mod (n : ℕ) (k : ℤ) : ((toInt (n % 2 ^ 32) + k) % 2 ^ 32) = (n + k) % 2 ^ 32 := by
  unfold toInt
  split_ifs <;> omega

theorem Denotes.clear : WriteBatch.clear.Denotes [] where
  data := by rfl
  count := by rfl
  fits := by simp

private theorem Denotes.extend_count {n : ℤ} (h : b.Denotes ops) (ops' : List Record)
    (hn : (b.count + n) % 2 ^ 32 = ((ops.length + ops'.length : ℕ) : ℤ) % 2 ^ 32)
    (hf : ∀ op ∈ ops', op.Fits) :
    ((b.setCount (b.count + n)).extend (ops'.flatMap Record.encode)).Denotes (ops ++ ops') where
  data := by
    rw [drop_extend le_rfl, drop_kHeader_setCount, h.data, List.flatMap_append]
  count := by
    rw [count_extend, count_setCount, hn, List.length_append]
    omega
  fits op hop := (List.mem_append.mp hop).elim (h.fits op) (hf op)

theorem Denotes.put (h : b.Denotes ops) {key value : Bytes} (hk : key.length < 2 ^ 32)
    (hv : value.length < 2 ^ 32) : (b.put key value).Denotes (ops ++ [.put key value]) := by
  have hcount : (b.count + 1) % 2 ^ 32 = ((ops.length + 1 : ℕ) : ℤ) % 2 ^ 32 := by
    rw [WriteBatch.count, h.count, toInt_mod]; push_cast; rfl
  have := h.extend_count [.put key value] hcount (by simpa [Record.Fits] using ⟨hk, hv⟩)
  simpa [WriteBatch.put, extend, Record.encode] using this

theorem Denotes.delete (h : b.Denotes ops) {key : Bytes} (hk : key.length < 2 ^ 32) :
    (b.delete key).Denotes (ops ++ [.delete key]) := by
  have hcount : (b.count + 1) % 2 ^ 32 = ((ops.length + 1 : ℕ) : ℤ) % 2 ^ 32 := by
    rw [WriteBatch.count, h.count, toInt_mod]; push_cast; rfl
  have := h.extend_count [.delete key] hcount (by simpa [Record.Fits] using hk)
  simpa [WriteBatch.delete, extend, Record.encode] using this

theorem Denotes.append (h : b.Denotes ops) (h' : src.Denotes ops') :
    (b.append src).Denotes (ops ++ ops') := by
  have hcount : (b.count + src.count) % 2 ^ 32 =
      ((ops.length + ops'.length : ℕ) : ℤ) % 2 ^ 32 := by
    rw [WriteBatch.count, h.count, toInt_mod, WriteBatch.count, h'.count, add_comm, toInt_mod]
    push_cast
    rw [add_comm]
  have := h.extend_count ops' hcount h'.fits
  rwa [← h'.data] at this

theorem Denotes.setSequence (h : b.Denotes ops) (seq : ℕ) :
    (b.setSequence seq).Denotes ops where
  data := by rw [drop_setSequence (by decide), h.data]
  count := by rw [drop_setSequence le_rfl, h.count]
  fits := h.fits

theorem records_setSequence (seq : ℕ) : (b.setSequence seq).records = b.records := by
  rw [records, records, drop_setSequence (by decide)]

theorem count_setSequence (seq : ℕ) : (b.setSequence seq).count = b.count := by
  rw [count, count, drop_setSequence le_rfl]

theorem parseStatus_setSequence (seq : ℕ) : (b.setSequence seq).parseStatus = b.parseStatus := by
  rw [parseStatus, parseStatus, records_setSequence, count_setSequence,
    drop_setSequence (by decide)]

end Denotes

section AnyLength

variable {key value input : Bytes} {status : Status}

end AnyLength

end WriteBatch

end DVELevelDB
