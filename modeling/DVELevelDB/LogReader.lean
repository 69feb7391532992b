import DVELevelDB.LogWriter

/-! # `db/log_reader.cc`

A log is read block by block. What cannot be read is reported, except for a record at the end of the
file that has not been written in full.
-/

namespace DVELevelDB

namespace Log

/-- What a call of `ReadPhysicalRecord` comes to, beyond the types of records. -/
def kEof : UInt32 := UInt32.ofNat (kMaxRecordType + 1)

def kBadRecord : UInt32 := UInt32.ofNat (kMaxRecordType + 2)

def RecordType.value (t : RecordType) : UInt32 := UInt32.ofNat t.code

/-- The rest of the file, how the next reads of it end, and what has been reported. -/
structure Reader where
  file : Bytes
  results : List Status
  checksum : Bool
  buffer : Bytes
  eof : Bool
  lastRecordOffset : UInt64
  endOfBufferOffset : UInt64
  initialOffset : UInt64
  resyncing : Bool
  reports : List (UInt64 × Status)

namespace Reader

def make (file : Bytes) (results : List Status) (checksum : Bool) (initialOffset : UInt64) :
    Reader where
  file := file
  results := results
  checksum := checksum
  buffer := []
  eof := false
  lastRecordOffset := 0
  endOfBufferOffset := 0
  initialOffset := initialOffset
  resyncing := initialOffset > 0
  reports := []

def reportDrop (bytes : UInt64) (reason : Status) (r : Reader) : Reader :=
  if r.endOfBufferOffset - UInt64.ofNat r.buffer.length - bytes ≥ r.initialOffset then
    { r with reports := r.reports ++ [(bytes, reason)] }
  else
    r

def reportCorruption (bytes : ℕ) (reason : String) (r : Reader) : Reader :=
  r.reportDrop (UInt64.ofNat bytes) (.make .corruption (utf8 reason) [])

def nextResult (r : Reader) : Status × Reader :=
  (r.results.headD .ok, { r with results := r.results.tail })

/-- The start of the block that an offset is in, or the next block if it is in a trailer. -/
def initialBlock (initialOffset : UInt64) : UInt64 :=
  let offsetInBlock := initialOffset % UInt64.ofNat kBlockSize
  if offsetInBlock > UInt64.ofNat (kBlockSize - 6) then
    initialOffset - offsetInBlock + UInt64.ofNat kBlockSize
  else
    initialOffset - offsetInBlock

def skipToInitialBlock (r : Reader) : Bool × Reader :=
  let start := initialBlock r.initialOffset
  let r := { r with endOfBufferOffset := start }
  if start > 0 then
    if r.nextResult.1.isOk then
      (true, { r.nextResult.2 with file := r.file.drop start.toNat })
    else
      (false, r.nextResult.2.reportDrop start r.nextResult.1)
  else
    (true, r)

/-- The header at the start of the buffer and what is behind it. -/
def parseHeader (r : Reader) : UInt32 × Bytes × Reader :=
  let a := (r.buffer.getD 4 0).toNat
  let b := (r.buffer.getD 5 0).toNat
  -- a `char`, which has a sign
  let type := (r.buffer.getD 6 0).toInt8.toInt32.toUInt32
  let length := a ||| (b <<< 8)
  let dropSize := r.buffer.length
  let emptied := { r with buffer := [] }
  if kHeaderSize + length > r.buffer.length then
    if r.eof then
      -- the writer died in the middle of this record
      (kEof, [], emptied)
    else
      (kBadRecord, [], emptied.reportCorruption dropSize "bad record length")
  else if type = RecordType.zero.value ∧ length = 0 then
    (kBadRecord, [], emptied)
  else if r.checksum ∧ Crc32c.value 0 ((r.buffer.drop 6).take (1 + length)) ≠
      Crc32c.unmask (UInt32.ofNat (Coding.decodeFixed32 r.buffer)) then
    (kBadRecord, [], emptied.reportCorruption dropSize "checksum mismatch")
  else
    let payload := (r.buffer.drop kHeaderSize).take length
    let r := { r with buffer := r.buffer.drop (kHeaderSize + length) }
    if r.endOfBufferOffset - UInt64.ofNat r.buffer.length - UInt64.ofNat kHeaderSize -
        UInt64.ofNat length < r.initialOffset then
      (kBadRecord, [], r)
    else
      (type, payload, r)

/-- `Read` of the next block, at the end of the file of what there is. -/
def readBlock (r : Reader) : Status × Reader :=
  let (s, r) := r.nextResult
  let data := if s.isOk then r.file.take kBlockSize else []
  let r := { r with
    buffer := data
    file := r.file.drop data.length
    endOfBufferOffset := r.endOfBufferOffset + UInt64.ofNat data.length
    eof := !s.isOk || data.length < kBlockSize }
  if s.isOk then (s, r) else (s, r.reportDrop (UInt64.ofNat kBlockSize) s)

/-- `ReadPhysicalRecord`: what is left of a block is skipped when it is too short for a header. The
loop comes back to its first test once at most, and then at the end of the file. -/
def readPhysicalRecord (r : Reader) : UInt32 × Bytes × Reader :=
  if r.buffer.length < kHeaderSize then
    if r.eof then
      (kEof, [], { r with buffer := [] })
    else if r.readBlock.2.buffer.length < kHeaderSize then
      (kEof, [], { r.readBlock.2 with buffer := [] })
    else
      r.readBlock.2.parseHeader
  else
    r.parseHeader

/-- What has not been looked at yet. -/
def remaining (r : Reader) : ℕ := r.buffer.length + r.file.length

@[simp] theorem remaining_reportDrop (bytes : UInt64) (reason : Status) (r : Reader) :
    (r.reportDrop bytes reason).remaining = r.remaining := by
  rw [reportDrop]
  split_ifs <;> rfl

@[simp] theorem remaining_reportCorruption (bytes : ℕ) (reason : String) (r : Reader) :
    (r.reportCorruption bytes reason).remaining = r.remaining := remaining_reportDrop _ _ r

theorem remaining_parseHeader {r : Reader} (h : kHeaderSize ≤ r.buffer.length) :
    r.parseHeader.2.2.remaining < r.remaining := by
  have hpos : 0 < r.buffer.length := (by decide : 0 < kHeaderSize).trans_le h
  have hemptied : ({ r with buffer := [] } : Reader).remaining < r.remaining :=
    Nat.add_lt_add_right hpos _
  have hdropped : ∀ n, ({ r with buffer := r.buffer.drop (kHeaderSize + n) } : Reader).remaining <
      r.remaining := by
    intro n
    have hlt : (r.buffer.drop (kHeaderSize + n)).length < r.buffer.length := by
      rw [List.length_drop]
      simp only [kHeaderSize]
      omega
    exact Nat.add_lt_add_right hlt _
  rw [parseHeader]
  dsimp only
  split_ifs
  · exact hemptied
  · rw [remaining_reportCorruption]
    exact hemptied
  · exact hemptied
  · rw [remaining_reportCorruption]
    exact hemptied
  · exact hdropped _
  · exact hdropped _

theorem remaining_readBlock (r : Reader) : r.readBlock.2.remaining ≤ r.file.length := by
  have hdata : ∀ data : Bytes, data.length ≤ r.file.length →
      data.length + (r.file.drop data.length).length ≤ r.file.length := by
    intro data hdata
    rw [List.length_drop]
    omega
  rw [readBlock]
  dsimp only [nextResult]
  split_ifs
  · exact hdata _ (List.length_take_le' _ _)
  · rw [remaining_reportDrop]
    exact hdata [] (Nat.zero_le _)

theorem remaining_readPhysicalRecord {r : Reader} (h : r.readPhysicalRecord.1 ≠ kEof) :
    r.readPhysicalRecord.2.2.remaining < r.remaining := by
  unfold readPhysicalRecord at h ⊢
  split_ifs at h ⊢ with hshort heof hend
  · exact absurd rfl h
  · exact absurd rfl h
  · refine (remaining_parseHeader (not_lt.mp hend)).trans_le ?_
    exact (remaining_readBlock r).trans (Nat.le_add_left _ _)
  · exact remaining_parseHeader (not_lt.mp hshort)

/-- The local variables of `ReadRecord`: the fragments so far. -/
structure Assembly where
  inFragmentedRecord : Bool
  scratch : Bytes
  prospectiveRecordOffset : UInt64

/-- The `switch` of `ReadRecord`, up to the end of the file: the record, if it is complete. -/
def switchType (type : UInt32) (fragment : Bytes) (offset : UInt64) (st : Assembly) (r : Reader) :
    Option Bytes × Assembly × Reader :=
  let partialRecord := st.inFragmentedRecord && !st.scratch.isEmpty
  if type = RecordType.full.value then
    let r := if partialRecord then
      r.reportCorruption st.scratch.length "partial record without end(1)" else r
    (some fragment, ⟨st.inFragmentedRecord, [], offset⟩, { r with lastRecordOffset := offset })
  else if type = RecordType.first.value then
    let r := if partialRecord then
      r.reportCorruption st.scratch.length "partial record without end(2)" else r
    (none, ⟨true, fragment, offset⟩, r)
  else if type = RecordType.middle.value then
    if st.inFragmentedRecord then
      (none, { st with scratch := st.scratch ++ fragment }, r)
    else
      (none, st, r.reportCorruption fragment.length "missing start of fragmented record(1)")
  else if type = RecordType.last.value then
    if st.inFragmentedRecord then
      (some (st.scratch ++ fragment), { st with scratch := st.scratch ++ fragment },
        { r with lastRecordOffset := st.prospectiveRecordOffset })
    else
      (none, st, r.reportCorruption fragment.length "missing start of fragmented record(2)")
  else if type = kBadRecord then
    if st.inFragmentedRecord then
      (none, ⟨false, [], st.prospectiveRecordOffset⟩,
        r.reportCorruption st.scratch.length "error in middle of record")
    else
      (none, st, r)
  else
    (none, ⟨false, [], st.prospectiveRecordOffset⟩, r.reportCorruption
      (fragment.length + if st.inFragmentedRecord then st.scratch.length else 0)
      ("unknown record type " ++ toString type.toNat))

/-- What a physical record becomes; after a seek into the middle of a record its rest is skipped. -/
def receive (type : UInt32) (fragment : Bytes) (st : Assembly) (r : Reader) :
    Option Bytes × Assembly × Reader :=
  let offset := r.endOfBufferOffset - UInt64.ofNat r.buffer.length - UInt64.ofNat kHeaderSize -
    UInt64.ofNat fragment.length
  if r.resyncing ∧ type = RecordType.middle.value then
    (none, st, r)
  else if r.resyncing ∧ type = RecordType.last.value then
    (none, st, { r with resyncing := false })
  else
    switchType type fragment offset st { r with resyncing := false }

theorem remaining_receive (type : UInt32) (fragment : Bytes) (st : Assembly) (r : Reader) :
    (receive type fragment st r).2.2.remaining = r.remaining := by
  rw [receive]
  split_ifs
  · rfl
  · rfl
  · rw [switchType]
    split_ifs <;> first | exact remaining_reportCorruption _ _ _ | rfl

def readRecordLoop (st : Assembly) (r : Reader) : Option Bytes × Reader :=
  if r.readPhysicalRecord.1 = kEof then
    (none, { r.readPhysicalRecord.2.2 with resyncing := false })
  else
    let received := receive r.readPhysicalRecord.1 r.readPhysicalRecord.2.1 st
      r.readPhysicalRecord.2.2
    if received.1.isSome then
      (received.1, received.2.2)
    else
      readRecordLoop received.2.1 received.2.2
  termination_by r.remaining
  decreasing_by
    rename_i heof _
    rw [remaining_receive]
    exact remaining_readPhysicalRecord heof

def readRecord (r : Reader) : Option Bytes × Reader :=
  if r.lastRecordOffset < r.initialOffset then
    if r.skipToInitialBlock.1 then
      readRecordLoop ⟨false, [], 0⟩ r.skipToInitialBlock.2
    else
      (none, r.skipToInitialBlock.2)
  else
    readRecordLoop ⟨false, [], 0⟩ r

theorem remaining_readRecordLoop {st : Assembly} {r : Reader}
    (h : (readRecordLoop st r).1.isSome) : (readRecordLoop st r).2.remaining < r.remaining := by
  fun_induction readRecordLoop st r with
  | case1 st r heof => exact absurd h Bool.false_ne_true
  | case2 st r heof received hsome =>
    rw [remaining_receive]
    exact remaining_readPhysicalRecord heof
  | case3 st r heof received hsome ih =>
    refine (ih h).trans ?_
    rw [remaining_receive]
    exact remaining_readPhysicalRecord heof

theorem remaining_skipToInitialBlock (r : Reader) :
    r.skipToInitialBlock.2.remaining ≤ r.remaining := by
  have hdrop : ∀ n, r.buffer.length + (r.file.drop n).length ≤ r.remaining := by
    intro n
    rw [List.length_drop, remaining]
    omega
  rw [skipToInitialBlock]
  split_ifs
  · exact hdrop _
  · rw [remaining_reportDrop]
    rfl
  · exact le_rfl

theorem remaining_readRecord {r : Reader} (h : r.readRecord.1.isSome) :
    r.readRecord.2.remaining < r.remaining := by
  unfold readRecord at h ⊢
  split_ifs at h ⊢
  · exact (remaining_readRecordLoop h).trans_le (remaining_skipToInitialBlock r)
  · exact absurd h Bool.false_ne_true
  · exact remaining_readRecordLoop h

/-- The loop of those who read a log: all records up to the end. -/
def readAll (r : Reader) : List Bytes × Reader :=
  if h : r.readRecord.1.isSome then
    (r.readRecord.1.get h :: r.readRecord.2.readAll.1, r.readRecord.2.readAll.2)
  else
    ([], r.readRecord.2)
  termination_by r.remaining
  decreasing_by all_goals exact remaining_readRecord h

section Stands

variable {r : Reader} {o : ℕ} {data rest bytes : Bytes} {t : RecordType}

/-- No fault so far, and `rest` is what comes from offset `o` of a block on. -/
structure Stands (o : ℕ) (rest : Bytes) (r : Reader) : Prop where
  buffer : r.buffer = rest.take (kBlockSize - o)
  file : r.file = rest.drop (kBlockSize - o)
  offset_le : o ≤ kBlockSize
  eof : r.eof = true ↔ rest.length < kBlockSize - o
  results : ∀ s ∈ r.results, s.isOk = true
  initialOffset : r.initialOffset = 0
  resyncing : r.resyncing = false
  reports : r.reports = []

theorem stands_make (file : Bytes) {results : List Status} (hr : ∀ s ∈ results, s.isOk = true)
    (checksum : Bool) : Stands kBlockSize file (make file results checksum 0) := by
  refine ⟨?_, ?_, le_rfl, ?_, hr, rfl, rfl, rfl⟩
  · rw [Nat.sub_self]
    rfl
  · rw [Nat.sub_self]
    rfl
  · rw [Nat.sub_self]
    exact ⟨fun h => absurd h Bool.false_ne_true, fun h => absurd h (Nat.not_lt_zero _)⟩

theorem drop_length_take (n : ℕ) (l : Bytes) : l.drop (l.take n).length = l.drop n := by
  rw [List.length_take]
  rcases le_total n l.length with hle | hle
  · rw [min_eq_left hle]
  · rw [min_eq_right hle, List.drop_length, List.drop_of_length_le hle]

theorem Stands.readBlock (h : Stands o rest r) :
    Stands 0 (rest.drop (kBlockSize - o)) r.readBlock.2 := by
  have hok : (r.results.headD .ok).isOk = true := by
    cases hr : r.results with
    | nil => rfl
    | cons s results => exact h.results s (by rw [hr]; exact List.mem_cons_self)
  have htail : ∀ s ∈ r.results.tail, s.isOk = true := fun s hs =>
    h.results s (List.mem_of_mem_tail hs)
  rw [Reader.readBlock]
  simp only [nextResult, hok, if_true, Bool.not_true, Bool.false_or]
  refine ⟨?_, ?_, Nat.zero_le _, ?_, htail, h.initialOffset, h.resyncing, h.reports⟩
  · rw [h.file, Nat.sub_zero]
  · rw [drop_length_take, h.file, Nat.sub_zero]
  · rw [decide_eq_true_iff, List.length_take, h.file, Nat.sub_zero]
    omega

theorem length_bytes {n : ℕ} (h : n ≤ 0xffff) :
    (UInt8.ofNat (n &&& 0xff)).toNat ||| ((UInt8.ofNat (n >>> 8)).toNat <<< 8) = n := by
  have hlow : (UInt8.ofNat (n &&& 0xff)).toNat = n % 2 ^ 8 := by
    have hmod : n &&& 0xff = n % 2 ^ 8 := Nat.and_two_pow_sub_one_eq_mod n 8
    rw [UInt8.toNat_ofNat', hmod, Nat.mod_mod]
  have hhigh : (UInt8.ofNat (n >>> 8)).toNat = n / 2 ^ 8 := by
    rw [UInt8.toNat_ofNat', Nat.shiftRight_eq_div_pow]
    exact Nat.mod_eq_of_lt (by omega)
  have hor := Nat.two_pow_add_eq_or_of_lt (Nat.mod_lt n (by decide : 0 < 2 ^ 8)) (n / 2 ^ 8)
  rw [hlow, hhigh, Nat.shiftLeft_eq, Nat.or_comm, mul_comm, ← hor]
  exact Nat.div_add_mod n _

theorem signed_type (t : RecordType) : (UInt8.ofNat t.code).toInt8.toInt32.toUInt32 = t.value := by
  cases t <;> decide

theorem header_crc (t : RecordType) (data rest : Bytes) :
    Crc32c.value 0 ((header t data ++ (data ++ rest)).drop 6 |>.take (1 + data.length)) =
      Crc32c.unmask (UInt32.ofNat (Coding.decodeFixed32 (header t data ++ (data ++ rest)))) := by
  have hdata : ((header t data ++ (data ++ rest)).drop 6).take (1 + data.length) =
      UInt8.ofNat t.code :: data := by
    have hdrop : (header t data ++ (data ++ rest)).drop 6 =
        UInt8.ofNat t.code :: (data ++ rest) := rfl
    rw [hdrop, Nat.add_comm, List.take_succ_cons, List.take_left]
  have hcrc : Crc32c.value 0 (UInt8.ofNat t.code :: data) =
      Crc32c.extend 0 (typeCrc t) data :=
    (Crc32c.extend_extend 0 0 0 0 [UInt8.ofNat t.code] data).symm
  have hword : Coding.decodeFixed32 (header t data ++ (data ++ rest)) =
      (Crc32c.mask (Crc32c.extend 0 (typeCrc t) data)).toNat := by
    rw [header, List.append_assoc, Coding.decodeFixed32, Coding.encodeFixed32,
      Coding.decodeFixed_encodeFixed]
    exact Nat.mod_eq_of_lt (UInt32.toNat_lt _)
  rw [hdata, hcrc, hword, UInt32.ofNat_toNat, Crc32c.unmask_mask]

theorem parseHeader_eq (h : Stands o (header t data ++ (data ++ rest)) r)
    (ho : o + kHeaderSize + data.length ≤ kBlockSize) (ht : t ≠ .zero) :
    ∃ r', r.parseHeader = (t.value, data, r') ∧
      Stands (o + kHeaderSize + data.length) rest r' := by
  have hlen : (header t data ++ data).length = kHeaderSize + data.length := by
    rw [List.length_append, length_header]
  have hle : (header t data ++ data).length ≤ kBlockSize - o := by omega
  have hleft : kBlockSize - o - (header t data ++ data).length =
      kBlockSize - (o + kHeaderSize + data.length) := by omega
  have hsplit : header t data ++ (data ++ rest) = (header t data ++ data) ++ rest :=
    (List.append_assoc _ _ _).symm
  have hbuffer : r.buffer = header t data ++
      (data ++ rest.take (kBlockSize - (o + kHeaderSize + data.length))) := by
    rw [h.buffer, hsplit, List.take_append, List.take_of_length_le hle, hleft, List.append_assoc]
  have hfile : r.file = rest.drop (kBlockSize - (o + kHeaderSize + data.length)) := by
    rw [h.file, hsplit, List.drop_append, List.drop_of_length_le hle, hleft, List.nil_append]
  have hshort : data.length ≤ 0xffff := by
    simp only [kBlockSize] at ho
    omega
  have ha : r.buffer.getD 4 0 = UInt8.ofNat (data.length &&& 0xff) := by
    rw [hbuffer]
    rfl
  have hb : r.buffer.getD 5 0 = UInt8.ofNat (data.length >>> 8) := by
    rw [hbuffer]
    rfl
  have htype : r.buffer.getD 6 0 = UInt8.ofNat t.code := by
    rw [hbuffer]
    rfl
  have hfits : ¬ kHeaderSize + data.length > r.buffer.length := by
    rw [hbuffer, List.length_append, List.length_append, length_header]
    omega
  have hzero : ¬ (t.value = RecordType.zero.value ∧ data.length = 0) := by
    rintro ⟨hvalue, -⟩
    cases t <;> first | exact ht rfl | exact absurd hvalue (by decide)
  have hcrc := header_crc t data (rest.take (kBlockSize - (o + kHeaderSize + data.length)))
  rw [← hbuffer] at hcrc
  have hpayload : (r.buffer.drop kHeaderSize).take data.length = data := by
    have hdrop : r.buffer.drop kHeaderSize =
        data ++ rest.take (kBlockSize - (o + kHeaderSize + data.length)) := by
      rw [hbuffer]
      rfl
    rw [hdrop, List.take_left]
  have hrest : r.buffer.drop (kHeaderSize + data.length) =
      rest.take (kBlockSize - (o + kHeaderSize + data.length)) := by
    rw [hbuffer, ← List.append_assoc, ← hlen, List.drop_left]
  have hinitial : ∀ x : UInt64, ¬ x < r.initialOffset := by
    intro x
    rw [h.initialOffset]
    exact UInt64.not_lt_zero
  rw [parseHeader]
  simp only [ha, hb, htype, length_bytes hshort, signed_type]
  rw [if_neg hfits, if_neg hzero, if_neg (fun hbad => hbad.2 hcrc), if_neg (hinitial _), hpayload]
  refine ⟨_, rfl, hrest, hfile, ho, ?_, h.results, h.initialOffset, h.resyncing, h.reports⟩
  rw [h.eof, List.length_append, List.length_append, length_header]
  omega

/-- A record that has not been written in full is the end of the file. -/
theorem parseHeader_torn (h : Stands o rest r) (hp : rest <+: header t data ++ data)
    (hlt : rest.length < kHeaderSize + data.length) (hlong : kHeaderSize ≤ r.buffer.length)
    (ho : o + kHeaderSize + data.length ≤ kBlockSize) :
    ∃ r', r.parseHeader = (kEof, [], r') ∧ r'.reports = [] := by
  have hle : rest.length ≤ kBlockSize - o := by omega
  have hbuffer : r.buffer = rest := by rw [h.buffer, List.take_of_length_le hle]
  have heof : r.eof = true := h.eof.mpr (by omega)
  obtain ⟨more, hmore⟩ : header t data <+: rest :=
    List.prefix_of_prefix_length_le (List.prefix_append _ _) hp (by
      rw [length_header, ← hbuffer]
      exact hlong)
  have hshort : data.length ≤ 0xffff := by
    simp only [kBlockSize] at ho
    omega
  have ha : r.buffer.getD 4 0 = UInt8.ofNat (data.length &&& 0xff) := by
    rw [hbuffer, ← hmore]
    rfl
  have hb : r.buffer.getD 5 0 = UInt8.ofNat (data.length >>> 8) := by
    rw [hbuffer, ← hmore]
    rfl
  have htorn : kHeaderSize + data.length > r.buffer.length := by
    rw [hbuffer]
    exact hlt
  rw [parseHeader]
  simp only [ha, hb, length_bytes hshort]
  rw [if_pos htorn, if_pos heof]
  exact ⟨_, rfl, h.reports⟩

theorem readPhysicalRecord_eq (h : Stands o (trailer o ++ (header t data ++ (data ++ rest))) r)
    (hfits : headerOffset o + kHeaderSize + data.length ≤ kBlockSize) (ht : t ≠ .zero) :
    ∃ r', r.readPhysicalRecord = (t.value, data, r') ∧
      Stands (nextOffset o data.length) rest r' := by
  have hheader : kHeaderSize ≤ (header t data ++ (data ++ rest)).length := by
    rw [List.length_append, length_header]
    exact Nat.le_add_right _ _
  by_cases hshort : kBlockSize - o < kHeaderSize
  · have hoffset : headerOffset o = 0 := if_pos hshort
    have htrailer : (trailer o).length = kBlockSize - o := by
      rw [trailer, if_pos hshort, List.length_replicate]
    have hbuffer : r.buffer.length < kHeaderSize := by
      rw [h.buffer, List.length_take]
      exact (min_le_left _ _).trans_lt hshort
    have heof : ¬ r.eof = true := by
      rw [h.eof, List.length_append, htrailer]
      omega
    have hblock := h.readBlock
    rw [← htrailer, List.drop_left] at hblock
    have hlong : ¬ r.readBlock.2.buffer.length < kHeaderSize := by
      rw [hblock.buffer, List.length_take, not_lt]
      exact le_min (by decide) hheader
    rw [readPhysicalRecord, if_pos hbuffer, if_neg heof, if_neg hlong, nextOffset, hoffset]
    rw [hoffset] at hfits
    exact parseHeader_eq hblock hfits ht
  · have hoffset : headerOffset o = o := if_neg hshort
    have htrailer : trailer o = [] := if_neg hshort
    rw [htrailer, List.nil_append] at h
    have hlong : ¬ r.buffer.length < kHeaderSize := by
      rw [h.buffer, List.length_take, not_lt]
      exact le_min (not_lt.mp hshort) hheader
    rw [readPhysicalRecord, if_neg hlong, nextOffset, hoffset]
    rw [hoffset] at hfits
    exact parseHeader_eq h hfits ht

theorem readPhysicalRecord_torn (h : Stands o rest r)
    (hp : rest <+: trailer o ++ (header t data ++ data))
    (hlt : rest.length < (trailer o ++ (header t data ++ data)).length)
    (hfits : headerOffset o + kHeaderSize + data.length ≤ kBlockSize) :
    ∃ r', r.readPhysicalRecord = (kEof, [], r') ∧ r'.reports = [] := by
  rw [List.length_append, List.length_append, length_header] at hlt
  by_cases hshort : kBlockSize - o < kHeaderSize
  · have hoffset : headerOffset o = 0 := if_pos hshort
    have htrailer : (trailer o).length = kBlockSize - o := by
      rw [trailer, if_pos hshort, List.length_replicate]
    have hbuffer : r.buffer.length < kHeaderSize := by
      rw [h.buffer, List.length_take]
      exact (min_le_left _ _).trans_lt hshort
    rw [readPhysicalRecord, if_pos hbuffer]
    by_cases heof : r.eof = true
    · rw [if_pos heof]
      exact ⟨_, rfl, h.reports⟩
    rw [if_neg heof]
    have hblock := h.readBlock
    by_cases hend : r.readBlock.2.buffer.length < kHeaderSize
    · rw [if_pos hend]
      exact ⟨_, rfl, hblock.reports⟩
    · rw [h.eof, not_lt] at heof
      rw [if_neg hend]
      rw [hoffset] at hfits
      obtain ⟨after, rfl⟩ : trailer o <+: rest :=
        List.prefix_of_prefix_length_le (List.prefix_append _ _) hp (htrailer.trans_le heof)
      rw [← htrailer, List.drop_left] at hblock
      rw [List.length_append] at hlt
      exact parseHeader_torn hblock ((List.prefix_append_right_inj _).mp hp) (by omega)
        (not_lt.mp hend) hfits
  · have hoffset : headerOffset o = o := if_neg hshort
    have htrailer : trailer o = [] := if_neg hshort
    rw [htrailer, List.nil_append] at hp
    rw [htrailer, List.length_nil, Nat.zero_add] at hlt
    rw [hoffset] at hfits
    rw [readPhysicalRecord]
    by_cases hbuffer : r.buffer.length < kHeaderSize
    · have heof : r.eof = true := by
        rw [h.buffer, List.length_take] at hbuffer
        rw [h.eof]
        omega
      rw [if_pos hbuffer, if_pos heof]
      exact ⟨_, rfl, h.reports⟩
    · rw [if_neg hbuffer]
      exact parseHeader_torn h hp hlt (not_lt.mp hbuffer) hfits

theorem Stands.at_record (h : Stands o rest r) (offset : UInt64) :
    Stands o rest { r with resyncing := false, lastRecordOffset := offset } :=
  ⟨h.buffer, h.file, h.offset_le, h.eof, h.results, h.initialOffset, rfl, h.reports⟩

theorem fragmentType_ne (begin last : Bool) : fragmentType begin last ≠ .zero := by
  cases begin <;> cases last <;> nofun

variable {begin : Bool} {st : Assembly} {o' : ℕ}

theorem value_ne_kEof (t : RecordType) : t.value ≠ kEof := by
  cases t <;> decide

theorem receive_eq (hsync : r.resyncing = false) (hst : st.inFragmentedRecord = !begin)
    (hscratch : begin = true → st.scratch = []) (data : Bytes) (last : Bool) :
    ∃ st' offset, receive (fragmentType begin last).value data st r =
        (if last then some (st.scratch ++ data) else none, st',
          { r with resyncing := false, lastRecordOffset := offset }) ∧
      (last = false → st'.inFragmentedRecord = true ∧ st'.scratch = st.scratch ++ data) := by
  have hswitch : ∀ type, ∃ offset, receive type data st r =
      switchType type data offset st { r with resyncing := false } := by
    intro type
    rw [receive, if_neg (fun h => absurd (hsync.symm.trans h.1) Bool.false_ne_true),
      if_neg (fun h => absurd (hsync.symm.trans h.1) Bool.false_ne_true)]
    exact ⟨_, rfl⟩
  obtain ⟨offset, hreceive⟩ := hswitch (fragmentType begin last).value
  obtain ⟨inFragmentedRecord, scratch, prospective⟩ := st
  dsimp only at hst hscratch
  subst hst
  rw [hreceive]
  cases begin with
  | true =>
    obtain rfl := hscratch rfl
    cases last with
    | true =>
      refine ⟨⟨false, [], offset⟩, offset, ?_, fun h => absurd h.symm Bool.false_ne_true⟩
      rw [switchType, if_pos (by decide)]
      rfl
    | false =>
      refine ⟨⟨true, data, offset⟩, r.lastRecordOffset, ?_, fun _ => ⟨rfl, rfl⟩⟩
      rw [switchType, if_neg (by decide), if_pos (by decide)]
      rfl
  | false =>
    cases last with
    | true =>
      refine ⟨⟨true, scratch ++ data, prospective⟩, prospective, ?_,
        fun h => absurd h.symm Bool.false_ne_true⟩
      rw [switchType, if_neg (by decide), if_neg (by decide), if_neg (by decide),
        if_pos (by decide)]
      rfl
    | false =>
      refine ⟨⟨true, scratch ++ data, prospective⟩, r.lastRecordOffset, ?_, fun _ => ⟨rfl, rfl⟩⟩
      rw [switchType, if_neg (by decide), if_neg (by decide), if_pos (by decide)]
      rfl

/-- A record that is complete is read, with what has been read of it before. -/
theorem readRecordLoop_eq (st : Assembly) (hl : Layout begin data o bytes o') (h : Stands o (bytes ++ rest) r)
    (hst : st.inFragmentedRecord = !begin) (hscratch : begin = true → st.scratch = []) :
    ∃ r', readRecordLoop st r = (some (st.scratch ++ data), r') ∧ Stands o' rest r' := by
  induction hl generalizing st r with
  | @last begin data o hlast =>
    rw [List.append_assoc, List.append_assoc] at h
    obtain ⟨r₁, hread, h₁⟩ := readPhysicalRecord_eq h (nextOffset_le hlast) (fragmentType_ne _ _)
    obtain ⟨st', offset, hreceive, -⟩ := receive_eq h₁.resyncing hst hscratch data true
    rw [readRecordLoop]
    simp only [hread, hreceive, if_neg (value_ne_kEof _), if_true, Option.isSome_some]
    exact ⟨_, rfl, h₁.at_record offset⟩
  | @more begin data bytes o o' hmore hrest ih =>
    have hfits : headerOffset o + kHeaderSize + (data.take (avail o)).length ≤ kBlockSize :=
      nextOffset_le (List.length_take_le _ _)
    simp only [List.append_assoc] at h
    obtain ⟨r₁, hread, h₁⟩ := readPhysicalRecord_eq h hfits (fragmentType_ne _ _)
    rw [List.length_take_of_le hmore.le] at h₁
    obtain ⟨st', offset, hreceive, hkept⟩ :=
      receive_eq h₁.resyncing hst hscratch (data.take (avail o)) false
    obtain ⟨hin, hscratch'⟩ := hkept rfl
    obtain ⟨r', heq, h'⟩ := ih st' (h₁.at_record offset) hin (fun hno => absurd hno Bool.false_ne_true)
    refine ⟨r', ?_, h'⟩
    rw [readRecordLoop]
    simp only [hread, hreceive, if_neg (value_ne_kEof _), Bool.false_eq_true, if_false,
      Option.isSome_none]
    rw [heq, hscratch', List.append_assoc, List.take_append_drop]

theorem readRecordLoop_end {r' : Reader} (st : Assembly)
    (h : r.readPhysicalRecord = (kEof, [], r')) (hreports : r'.reports = []) :
    ∃ r', readRecordLoop st r = (none, r') ∧ r'.reports = [] := by
  rw [readRecordLoop]
  simp only [h, if_true]
  exact ⟨_, rfl, hreports⟩

/-- A record that is not complete is not read, nor reported. -/
theorem readRecordLoop_torn (st : Assembly) (hl : Layout begin data o bytes o') (h : Stands o rest r)
    (hst : st.inFragmentedRecord = !begin) (hscratch : begin = true → st.scratch = [])
    (hp : rest <+: bytes) (hlt : rest.length < bytes.length) :
    ∃ r', readRecordLoop st r = (none, r') ∧ r'.reports = [] := by
  induction hl generalizing st r rest with
  | @last begin data o hlast =>
    obtain ⟨r', hread, hreports⟩ := readPhysicalRecord_torn h hp hlt (nextOffset_le hlast)
    exact readRecordLoop_end st hread hreports
  | @more begin data bytes o o' hmore hrest ih =>
    have hfits : headerOffset o + kHeaderSize + (data.take (avail o)).length ≤ kBlockSize :=
      nextOffset_le (List.length_take_le _ _)
    rcases Nat.lt_or_ge rest.length (trailer o ++ (header (fragmentType begin false)
      (data.take (avail o)) ++ data.take (avail o))).length with hshort | hlong
    · obtain ⟨r', hread, hreports⟩ := readPhysicalRecord_torn h
        (List.prefix_of_prefix_length_le hp (List.prefix_append _ _) hshort.le) hshort hfits
      exact readRecordLoop_end st hread hreports
    · obtain ⟨after, rfl⟩ := List.prefix_of_prefix_length_le (List.prefix_append _ _) hp hlong
      have hp' : after <+: bytes := (List.prefix_append_right_inj _).mp hp
      have hlt' : after.length < bytes.length := by
        rw [List.length_append] at hlt
        exact Nat.lt_of_add_lt_add_left (hlt.trans_eq List.length_append)
      simp only [List.append_assoc] at h
      obtain ⟨r₁, hread, h₁⟩ := readPhysicalRecord_eq h hfits (fragmentType_ne _ _)
      rw [List.length_take_of_le hmore.le] at h₁
      obtain ⟨st', offset, hreceive, hkept⟩ :=
        receive_eq h₁.resyncing hst hscratch (data.take (avail o)) false
      obtain ⟨hin, -⟩ := hkept rfl
      obtain ⟨r', heq, h'⟩ := ih st' (h₁.at_record offset) hin
        (fun hno => absurd hno Bool.false_ne_true) hp' hlt'
      refine ⟨r', ?_, h'⟩
      rw [readRecordLoop]
      simp only [hread, hreceive, if_neg (value_ne_kEof _), Bool.false_eq_true, if_false,
        Option.isSome_none]
      exact heq

theorem Stands.readRecord (h : Stands o rest r) :
    r.readRecord = readRecordLoop ⟨false, [], 0⟩ r := by
  rw [Reader.readRecord, h.initialOffset, if_neg UInt64.not_lt_zero]

theorem readAll_cons {r' : Reader} (h : r.readRecord = (some data, r')) :
    r.readAll = (data :: r'.readAll.1, r'.readAll.2) := by
  have hsome : r.readRecord.1.isSome := by rw [h, Option.isSome_some]
  rw [readAll, dif_pos hsome]
  simp only [h, Option.get_some]

theorem readAll_end {r' : Reader} (h : r.readRecord = (none, r')) : r.readAll = ([], r') := by
  have hnone : ¬ r.readRecord.1.isSome := by rw [h]; exact Bool.false_ne_true
  rw [readAll, dif_neg hnone, h]

theorem readAll_empty (h : Stands o [] r) : ∃ r', r.readAll = ([], r') ∧ r'.reports = [] := by
  have hlayout : Layout true [] o _ _ := .last (Nat.zero_le _)
  obtain ⟨r', heq, hreports⟩ := readRecordLoop_torn ⟨false, [], 0⟩ hlayout h rfl
    (fun _ => rfl) List.nil_prefix (by
      rw [List.length_append, List.length_append, length_header]
      exact Nat.lt_of_lt_of_le (by decide : 0 < kHeaderSize)
        ((Nat.le_add_right _ _).trans (Nat.le_add_left _ _)))
  exact ⟨r', readAll_end (h.readRecord.trans heq), hreports⟩

/-- What is read of the beginning of a log is the records that are complete there. -/
theorem readAll_records {records : List Bytes} (hl : Records o records bytes o')
    (h : Stands o rest r) (hp : rest <+: bytes) :
    ∃ k r', r.readAll = (records.take k, r') ∧ r'.reports = [] ∧
      ∀ j ≤ records.length, ∀ {bytes' o₁}, Records o (records.take j) bytes' o₁ →
        (j ≤ k ↔ bytes'.length ≤ rest.length) := by
  induction hl generalizing r rest with
  | nil =>
    obtain rfl := List.prefix_nil.mp hp
    obtain ⟨r', heq, hreports⟩ := readAll_empty h
    refine ⟨0, r', heq, hreports, ?_⟩
    intro j hj bytes' o₁ hrecords
    obtain rfl := Nat.le_zero.mp hj
    rw [hrecords.eq_nil]
    exact iff_of_true le_rfl (Nat.zero_le _)
  | @cons o o₁ o' data bytes bytes' records hfirst hrest ih =>
    rcases Nat.lt_or_ge rest.length bytes.length with hshort | hlong
    · obtain ⟨r', heq, hreports⟩ := readRecordLoop_torn ⟨false, [], 0⟩ hfirst h rfl
        (fun _ => rfl) (List.prefix_of_prefix_length_le hp (List.prefix_append _ _) hshort.le) hshort
      refine ⟨0, r', readAll_end (h.readRecord.trans heq), hreports, ?_⟩
      intro j hj bytes₂ o₂ hrecords
      cases j with
      | zero =>
        rw [Records.eq_nil hrecords]
        exact iff_of_true le_rfl (Nat.zero_le _)
      | succ j =>
        cases hrecords with
        | cons hfirst' =>
          obtain ⟨rfl, -⟩ := hfirst.unique hfirst'
          refine iff_of_false (Nat.not_succ_le_zero j) ?_
          rw [List.length_append, not_le]
          exact hshort.trans_le (Nat.le_add_right _ _)
    · obtain ⟨after, rfl⟩ := List.prefix_of_prefix_length_le (List.prefix_append _ _) hp hlong
      obtain ⟨r₁, heq, h₁⟩ := readRecordLoop_eq ⟨false, [], 0⟩ hfirst h rfl (fun _ => rfl)
      obtain ⟨k, r', hall, hreports, hcomplete⟩ :=
        ih h₁ ((List.prefix_append_right_inj _).mp hp)
      refine ⟨k + 1, r', ?_, hreports, ?_⟩
      · rw [readAll_cons (h.readRecord.trans heq), hall]
        rfl
      · intro j hj bytes₂ o₂ hrecords
        cases j with
        | zero =>
          rw [Records.eq_nil hrecords]
          exact iff_of_true (Nat.zero_le _) (Nat.zero_le _)
        | succ j =>
          cases hrecords with
          | cons hfirst' hrest' =>
            obtain ⟨rfl, rfl⟩ := hfirst.unique hfirst'
            rw [List.length_append, List.length_append, Nat.succ_le_succ_iff,
              hcomplete j (Nat.le_of_succ_le_succ hj) hrest']
            exact Nat.add_le_add_iff_left.symm

end Stands

end Reader

/-- A log is written, closed and continued; then a crash leaves its first `n` bytes. The records that
are complete in these bytes are read, in order, and nothing is reported. -/
theorem records_read_after_crash (first second : List Bytes) (n : ℕ) {results : List Status}
    (hr : ∀ s ∈ results, s.isOk = true) (checksum : Bool) :
    ∃ w₁ w₂, (Writer.make ⟨[], []⟩ 0).addRecords first = .ok (.ok, w₁) ∧
      (Writer.make w₁.dest w₁.dest.contents.length).addRecords second = .ok (.ok, w₂) ∧
      ∃ k r, (Reader.make (w₂.dest.contents.take n) results checksum 0).readAll =
          ((first ++ second).take k, r) ∧ r.reports = [] ∧
        ∀ j ≤ (first ++ second).length, ∃ w,
          (Writer.make ⟨[], []⟩ 0).addRecords ((first ++ second).take j) = .ok (.ok, w) ∧
          (j ≤ k ↔ w.dest.contents.length ≤ n) := by
  obtain ⟨bytes, o', hfirst, ho, heq⟩ := addRecords_spec first [] (Nat.zero_le kBlockSize)
  obtain ⟨bytes', o₂, w₂, hsecond, hcontents, heq'⟩ := addRecords_resumed hfirst ho second
  have hrecords : Records 0 (first ++ second) w₂.dest.contents o₂ :=
    hcontents ▸ hfirst.append hsecond
  obtain ⟨o₃, hreset⟩ := hrecords.reset
  refine ⟨_, w₂, heq, heq', ?_⟩
  obtain ⟨k, r, hall, hreports, hcomplete⟩ :=
    Reader.readAll_records hreset (Reader.stands_make _ hr checksum) (List.take_prefix n _)
  refine ⟨k, r, hall, hreports, ?_⟩
  intro j hj
  obtain ⟨bytes₁, o₁, hwritten, -, hadd⟩ :=
    addRecords_spec ((first ++ second).take j) [] (Nat.zero_le kBlockSize)
  obtain ⟨bytes₂, o₄, hprefix, hp⟩ := hrecords.take j
  obtain ⟨rfl, -⟩ := hwritten.unique hprefix
  obtain ⟨o₅, hwritten⟩ := hwritten.reset
  refine ⟨_, hadd, ?_⟩
  rw [hcomplete j hj hwritten, List.length_take, List.nil_append]
  exact ⟨fun hle => hle.trans (min_le_left _ _), fun hle => le_min hle hp.length_le⟩

theorem records_read_after_crash_torn : (∀ s ∈ [Status.ok, .ok], s.isOk = true) ∧
    ∃ w₁ w₂, (Writer.make ⟨[], []⟩ 0).addRecords [List.replicate 70000 1, []] = .ok (.ok, w₁) ∧
      (Writer.make w₁.dest w₁.dest.contents.length).addRecords [[2, 3]] = .ok (.ok, w₂) ∧
      ∃ k r, (Reader.make (w₂.dest.contents.take 70030) [.ok, .ok] true 0).readAll =
          (([List.replicate 70000 1, []] ++ [[2, 3]] : List Bytes).take k, r) ∧ r.reports = [] ∧
        ∀ j ≤ ([List.replicate 70000 1, []] ++ [[2, 3]] : List Bytes).length, ∃ w,
          (Writer.make ⟨[], []⟩ 0).addRecords
            (([List.replicate 70000 1, []] ++ [[2, 3]] : List Bytes).take j) = .ok (.ok, w) ∧
          (j ≤ k ↔ w.dest.contents.length ≤ 70030) := by
  have hok : ∀ s ∈ [Status.ok, .ok], s.isOk = true := by decide
  exact ⟨hok, records_read_after_crash _ _ 70030 hok true⟩

end Log

end DVELevelDB
