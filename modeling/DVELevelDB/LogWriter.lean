import DVELevelDB.Crc32c
import DVELevelDB.Status

/-! # `db/log_writer.cc`

A log is a sequence of blocks. A record that does not fit into what is left of a block goes on in
the next one.
-/

namespace DVELevelDB

namespace Log

inductive RecordType where
  | zero
  | full
  | first
  | middle
  | last

def RecordType.code : RecordType → ℕ
  | zero => 0
  | full => 1
  | first => 2
  | middle => 3
  | last => 4

def kMaxRecordType : ℕ := 4

def kBlockSize : ℕ := 32768

/-- Checksum (4 bytes), length (2 bytes), type (1 byte). -/
def kHeaderSize : ℕ := 4 + 2 + 1

/-- A file that is written to, and how the next operations on it end. -/
structure WritableFile where
  contents : Bytes
  results : List Status

namespace WritableFile

def append (data : Bytes) (file : WritableFile) : Status × WritableFile :=
  match file.results with
  | [] => (.ok, ⟨file.contents ++ data, []⟩)
  | s :: results => if s.isOk then (s, ⟨file.contents ++ data, results⟩) else (s, ⟨file.contents, results⟩)

def flush (file : WritableFile) : Status × WritableFile :=
  match file.results with
  | [] => (.ok, file)
  | s :: results => (s, ⟨file.contents, results⟩)

end WritableFile

structure Writer where
  dest : WritableFile
  blockOffset : ℕ

def Writer.make (dest : WritableFile) (destLength : ℕ) : Writer := ⟨dest, destLength % kBlockSize⟩

/-- The checksum starts with the type; where the data is does not matter for it. -/
def typeCrc (t : RecordType) : UInt32 := Crc32c.value 0 [UInt8.ofNat t.code]

def header (t : RecordType) (data : Bytes) : Bytes :=
  Coding.encodeFixed32 (Crc32c.mask (Crc32c.extend 0 (typeCrc t) data)).toNat ++
    [UInt8.ofNat (data.length &&& 0xff), UInt8.ofNat (data.length >>> 8), UInt8.ofNat t.code]

/-- `EmitPhysicalRecord`; the caller moves the block offset on. -/
def emitPhysicalRecord (t : RecordType) (data : Bytes) (blockOffset : ℕ) (dest : WritableFile) :
    Exec (Status × WritableFile) := do
  assertThat (data.length ≤ 0xffff)
  assertThat (blockOffset + kHeaderSize + data.length ≤ kBlockSize)
  let (s, dest) := dest.append (header t data)
  if s.isOk then
    let (s, dest) := dest.append data
    if s.isOk then return dest.flush else return (s, dest)
  else
    return (s, dest)

/-- Where in a block the next header begins; a header is not split. -/
def headerOffset (blockOffset : ℕ) : ℕ :=
  if kBlockSize - blockOffset < kHeaderSize then 0 else blockOffset

/-- How many bytes of a record fit behind this header. -/
def avail (blockOffset : ℕ) : ℕ := kBlockSize - headerOffset blockOffset - kHeaderSize

def nextOffset (blockOffset length : ℕ) : ℕ := headerOffset blockOffset + kHeaderSize + length

/-- The trailer of a block is filled; nobody asks how that ends. -/
def fillTrailer (leftover : ℕ) (dest : WritableFile) : WritableFile :=
  if 0 < leftover ∧ leftover < kHeaderSize then
    (dest.append (List.replicate leftover 0)).2
  else
    dest

def fragmentType (begin last : Bool) : RecordType :=
  if begin && last then .full else if begin then .first else if last then .last else .middle

theorem headerOffset_le (blockOffset : ℕ) : headerOffset blockOffset + kHeaderSize ≤ kBlockSize := by
  rw [headerOffset]
  split_ifs with h
  · decide
  · simp only [kBlockSize, kHeaderSize] at h ⊢
    omega

/-- The most rounds that the loop of `AddRecord` may make, twice. -/
def rounds (length blockOffset : ℕ) : ℕ :=
  2 * length + if kBlockSize - blockOffset = kHeaderSize then 1 else 0

theorem rounds_lt {length blockOffset : ℕ} (h : avail blockOffset < length) :
    rounds (length - avail blockOffset) (nextOffset blockOffset (avail blockOffset)) <
      rounds length blockOffset := by
  have hoffset := headerOffset_le blockOffset
  have hnext : kBlockSize - nextOffset blockOffset (avail blockOffset) = 0 := by
    rw [nextOffset, avail]
    omega
  have hzero : kBlockSize - nextOffset blockOffset (avail blockOffset) ≠ kHeaderSize := by
    rw [hnext]
    decide
  rw [rounds, rounds, if_neg hzero]
  by_cases hfull : avail blockOffset = 0
  · have hleft : kBlockSize - blockOffset = kHeaderSize := by
      rw [avail, headerOffset] at hfull
      split_ifs at hfull with hshort
      · exact absurd hfull (by decide)
      · omega
    rw [if_pos hleft]
    omega
  · omega

def addRecordLoop (begin : Bool) (left : Bytes) (blockOffset : ℕ) (dest : WritableFile) :
    Exec (Status × Writer) := do
  assertThat (blockOffset ≤ kBlockSize)
  let dest := fillTrailer (kBlockSize - blockOffset) dest
  let last : Bool := left.length ≤ avail blockOffset
  let (s, dest) ← emitPhysicalRecord (fragmentType begin last) (left.take (avail blockOffset))
    (headerOffset blockOffset) dest
  if s.isOk ∧ avail blockOffset < left.length then
    addRecordLoop false (left.drop (avail blockOffset))
      (nextOffset blockOffset (avail blockOffset)) dest
  else
    return (s, ⟨dest, nextOffset blockOffset (min (avail blockOffset) left.length)⟩)
  termination_by rounds left.length blockOffset
  decreasing_by
    rename_i hmore
    rw [List.length_drop]
    exact rounds_lt hmore.2

def Writer.addRecord (slice : Bytes) (w : Writer) : Exec (Status × Writer) :=
  addRecordLoop true slice w.blockOffset w.dest

/-- Several records, up to the first failure. -/
def Writer.addRecords (w : Writer) : List Bytes → Exec (Status × Writer)
  | [] => return (.ok, w)
  | slice :: slices => do
    let (s, w) ← w.addRecord slice
    if s.isOk then w.addRecords slices else return (s, w)

section Layout

def trailer (blockOffset : ℕ) : Bytes :=
  if kBlockSize - blockOffset < kHeaderSize then List.replicate (kBlockSize - blockOffset) 0 else []

/-- A record from some offset in a block on, or what is left of one that began before. -/
inductive Layout : Bool → Bytes → ℕ → Bytes → ℕ → Prop where
  | last {begin : Bool} {data : Bytes} {o : ℕ} : data.length ≤ avail o →
      Layout begin data o (trailer o ++ (header (fragmentType begin true) data ++ data))
        (nextOffset o data.length)
  | more {begin : Bool} {data bytes : Bytes} {o o' : ℕ} : avail o < data.length →
      Layout false (data.drop (avail o)) (nextOffset o (avail o)) bytes o' →
      Layout begin data o (trailer o ++ (header (fragmentType begin false) (data.take (avail o)) ++
        data.take (avail o)) ++ bytes) o'

/-- The records of a log one after the other. -/
inductive Records : ℕ → List Bytes → Bytes → ℕ → Prop where
  | nil {o : ℕ} : Records o [] [] o
  | cons {o o₁ o' : ℕ} {data bytes bytes' : Bytes} {records : List Bytes} :
      Layout true data o bytes o₁ → Records o₁ records bytes' o' →
      Records o (data :: records) (bytes ++ bytes') o'

variable {begin : Bool} {data bytes bytes' : Bytes} {o o' o₁ o₂ : ℕ} {records more : List Bytes}

theorem length_header (t : RecordType) (data : Bytes) : (header t data).length = kHeaderSize := rfl

theorem nextOffset_le {n : ℕ} (h : n ≤ avail o) : nextOffset o n ≤ kBlockSize := by
  have hoffset := headerOffset_le o
  rw [nextOffset]
  rw [avail] at h
  omega

theorem Layout.offset_le (h : Layout begin data o bytes o') : o' ≤ kBlockSize := by
  induction h with
  | last hlast => exact nextOffset_le hlast
  | more _ _ ih => exact ih

theorem Layout.unique (h : Layout begin data o bytes o₁) (h' : Layout begin data o bytes' o₂) :
    bytes = bytes' ∧ o₁ = o₂ := by
  induction h generalizing bytes' o₂ with
  | last hlast =>
    cases h' with
    | last => exact ⟨rfl, rfl⟩
    | more hmore => exact absurd hlast (not_le.mpr hmore)
  | more hmore _ ih =>
    cases h' with
    | last hlast => exact absurd hlast (not_le.mpr hmore)
    | more _ hrest =>
      obtain ⟨rfl, rfl⟩ := ih hrest
      exact ⟨rfl, rfl⟩

theorem Records.unique (h : Records o records bytes o₁) (h' : Records o records bytes' o₂) :
    bytes = bytes' ∧ o₁ = o₂ := by
  induction h generalizing bytes' o₂ with
  | nil =>
    cases h'
    exact ⟨rfl, rfl⟩
  | cons hfirst _ ih =>
    cases h' with
    | cons hfirst' hrest' =>
      obtain ⟨rfl, rfl⟩ := hfirst.unique hfirst'
      obtain ⟨rfl, rfl⟩ := ih hrest'
      exact ⟨rfl, rfl⟩

theorem Records.eq_nil (h : Records o [] bytes o') : bytes = [] := by
  cases h
  rfl

theorem Records.append (h : Records o records bytes o₁) (h' : Records o₁ more bytes' o') :
    Records o (records ++ more) (bytes ++ bytes') o' := by
  induction h with
  | nil => exact h'
  | cons hfirst _ ih =>
    rw [List.cons_append, List.append_assoc]
    exact .cons hfirst (ih h')

theorem Records.take (h : Records o records bytes o') (j : ℕ) :
    ∃ bytes' o₁, Records o (records.take j) bytes' o₁ ∧ bytes' <+: bytes := by
  induction h generalizing j with
  | @nil o =>
    rw [List.take_nil]
    exact ⟨[], o, .nil, List.nil_prefix⟩
  | @cons o _ _ _ _ _ _ hfirst _ ih =>
    cases j with
    | zero => exact ⟨[], o, .nil, List.nil_prefix⟩
    | succ j =>
      obtain ⟨bytes', o₁, hrecords, hp⟩ := ih j
      exact ⟨_, o₁, .cons hfirst hrecords, (List.prefix_append_right_inj _).mpr hp⟩

theorem Layout.reset (h : Layout begin data 0 bytes o') : Layout begin data kBlockSize bytes o' := by
  generalize hzero : 0 = o at h
  cases h with
  | last hlast =>
    subst hzero
    exact .last hlast
  | more hmore hrest =>
    subst hzero
    exact .more hmore hrest

theorem Records.reset (h : Records 0 records bytes o') :
    ∃ o', Records kBlockSize records bytes o' := by
  cases h with
  | nil => exact ⟨kBlockSize, .nil⟩
  | cons hfirst hrest => exact ⟨o', .cons hfirst.reset hrest⟩

theorem headerOffset_mod (ho : o ≤ kBlockSize) :
    headerOffset o % kBlockSize = (o + (trailer o).length) % kBlockSize := by
  rw [headerOffset, trailer]
  split_ifs
  · rw [List.length_replicate, Nat.add_sub_cancel' ho, Nat.zero_mod, Nat.mod_self]
  · rfl

theorem Layout.length (h : Layout begin data o bytes o') (ho : o ≤ kBlockSize) :
    o' % kBlockSize = (o + bytes.length) % kBlockSize := by
  have hnext : ∀ {o : ℕ} (n : ℕ), o ≤ kBlockSize → nextOffset o n % kBlockSize =
      (o + ((trailer o).length + (kHeaderSize + n))) % kBlockSize := by
    intro o n ho
    rw [nextOffset, add_assoc, Nat.add_mod, headerOffset_mod ho, ← Nat.add_mod, add_assoc]
  induction h with
  | @last _ data o _ =>
    rw [hnext data.length ho, List.length_append, List.length_append, length_header]
  | @more _ data bytes o o' hmore _ ih =>
    have htake : (data.take (avail o)).length = avail o := List.length_take_of_le hmore.le
    rw [ih (nextOffset_le le_rfl), Nat.add_mod, hnext (avail o) ho, ← Nat.add_mod,
      List.length_append, List.length_append, List.length_append, length_header, htake, add_assoc]

theorem Records.length (h : Records o records bytes o') (ho : o ≤ kBlockSize) :
    o' % kBlockSize = (o + bytes.length) % kBlockSize := by
  induction h with
  | nil => rfl
  | cons hfirst _ ih =>
    rw [ih hfirst.offset_le, Nat.add_mod, hfirst.length ho, ← Nat.add_mod, List.length_append,
      add_assoc]

end Layout

section Writer

variable {begin : Bool} {data contents : Bytes} {o : ℕ} {records : List Bytes}
  {results : List Status}

theorem append_ok (hr : ∀ s ∈ results, s.isOk = true) (data contents : Bytes) :
    ∃ results', results' <:+ results ∧
      WritableFile.append data ⟨contents, results⟩ = (.ok, ⟨contents ++ data, results'⟩) := by
  cases results with
  | nil => exact ⟨[], List.suffix_refl _, rfl⟩
  | cons s results =>
    have hs := (Status.isOk_iff s).mp (hr s List.mem_cons_self)
    subst hs
    exact ⟨results, List.suffix_cons _ _, rfl⟩

theorem flush_ok (hr : ∀ s ∈ results, s.isOk = true) (contents : Bytes) :
    ∃ results', results' <:+ results ∧
      WritableFile.flush ⟨contents, results⟩ = (.ok, ⟨contents, results'⟩) := by
  cases results with
  | nil => exact ⟨[], List.suffix_refl _, rfl⟩
  | cons s results =>
    have hs := (Status.isOk_iff s).mp (hr s List.mem_cons_self)
    subst hs
    exact ⟨results, List.suffix_cons _ _, rfl⟩

theorem fillTrailer_ok (hr : ∀ s ∈ results, s.isOk = true) (contents : Bytes) (o : ℕ) :
    ∃ results', results' <:+ results ∧
      fillTrailer (kBlockSize - o) ⟨contents, results⟩ = ⟨contents ++ trailer o, results'⟩ := by
  rw [fillTrailer, trailer]
  by_cases hshort : kBlockSize - o < kHeaderSize
  · by_cases hpos : 0 < kBlockSize - o
    · obtain ⟨results', hsuffix, heq⟩ := append_ok hr (List.replicate (kBlockSize - o) 0) contents
      refine ⟨results', hsuffix, ?_⟩
      rw [if_pos ⟨hpos, hshort⟩, if_pos hshort, heq]
    · have hzero : kBlockSize - o = 0 := Nat.eq_zero_of_not_pos hpos
      exact ⟨results, List.suffix_refl _, by simp [hzero]⟩
  · refine ⟨results, List.suffix_refl _, ?_⟩
    rw [if_neg (fun h => hshort h.2), if_neg hshort, List.append_nil]

theorem Writer.make_of_end {bytes : Bytes} {o' : ℕ} (h : Records 0 records bytes o')
    (ho : o' ≤ kBlockSize) (dest : WritableFile) :
    (Writer.make dest bytes.length).blockOffset = if o' = kBlockSize then 0 else o' := by
  have hend := h.length (Nat.zero_le _)
  rw [Nat.zero_add] at hend
  rw [Writer.make]
  dsimp only
  rw [← hend]
  split_ifs with hfull
  · rw [hfull, Nat.mod_self]
  · exact Nat.mod_eq_of_lt (lt_of_le_of_ne ho hfull)

theorem emitPhysicalRecord_ok (hr : ∀ s ∈ results, s.isOk = true) (t : RecordType)
    (contents : Bytes) (h : o + kHeaderSize + data.length ≤ kBlockSize) :
    ∃ results', results' <:+ results ∧ emitPhysicalRecord t data o ⟨contents, results⟩ =
      .ok (.ok, ⟨contents ++ (header t data ++ data), results'⟩) := by
  have hshort : data.length ≤ 0xffff := by
    simp only [kBlockSize] at h
    omega
  obtain ⟨results₁, hsuffix₁, hheader⟩ := append_ok hr (header t data) contents
  have hr₁ : ∀ s ∈ results₁, s.isOk = true := fun s hs => hr s (hsuffix₁.subset hs)
  obtain ⟨results₂, hsuffix₂, hdata⟩ := append_ok hr₁ data (contents ++ header t data)
  have hr₂ : ∀ s ∈ results₂, s.isOk = true := fun s hs => hr₁ s (hsuffix₂.subset hs)
  obtain ⟨results₃, hsuffix₃, hflush⟩ := flush_ok hr₂ (contents ++ header t data ++ data)
  refine ⟨results₃, (hsuffix₃.trans hsuffix₂).trans hsuffix₁, ?_⟩
  rw [emitPhysicalRecord, decide_eq_true hshort, decide_eq_true h]
  simp only [assertThat_true, Stops.ok_bind, hheader, hdata, hflush, Status.isOk_ok, if_true,
    ← List.append_assoc]
  rfl

/-- A record is written as the format says, and no assertion fails. -/
theorem addRecordLoop_ok (hr : ∀ s ∈ results, s.isOk = true) (begin : Bool) (data contents : Bytes)
    (ho : o ≤ kBlockSize) :
    ∃ bytes o' results', Layout begin data o bytes o' ∧ results' <:+ results ∧
      addRecordLoop begin data o ⟨contents, results⟩ =
        .ok (.ok, ⟨⟨contents ++ bytes, results'⟩, o'⟩) := by
  induction hn : rounds data.length o using Nat.strong_induction_on
    generalizing begin data contents o results with
  | h n ih =>
    subst hn
    have hfits : headerOffset o + kHeaderSize + (data.take (avail o)).length ≤ kBlockSize :=
      nextOffset_le (List.length_take_le _ _)
    obtain ⟨results₁, hsuffix₁, htrailer⟩ := fillTrailer_ok hr contents o
    have hr₁ : ∀ s ∈ results₁, s.isOk = true := fun s hs => hr s (hsuffix₁.subset hs)
    rw [addRecordLoop, decide_eq_true ho, assertThat_true, Stops.ok_bind, htrailer]
    dsimp only
    obtain ⟨results₂, hsuffix₂, hemit⟩ := emitPhysicalRecord_ok hr₁
      (fragmentType begin (decide (data.length ≤ avail o))) (contents ++ trailer o) hfits
    have hr₂ : ∀ s ∈ results₂, s.isOk = true := fun s hs => hr₁ s (hsuffix₂.subset hs)
    rw [hemit, Stops.ok_bind]
    dsimp only
    by_cases hmore : avail o < data.length
    · have hlt := rounds_lt hmore
      rw [← List.length_drop] at hlt
      obtain ⟨bytes, o', results₃, hlayout, hsuffix₃, heq⟩ := ih _ hlt hr₂ false
        (data.drop (avail o)) (contents ++ trailer o ++
          (header (fragmentType begin false) (data.take (avail o)) ++ data.take (avail o)))
        (nextOffset_le le_rfl) rfl
      refine ⟨_, o', results₃, .more hmore hlayout,
        (hsuffix₃.trans hsuffix₂).trans hsuffix₁, ?_⟩
      rw [if_pos ⟨rfl, hmore⟩, decide_eq_false (not_le.mpr hmore), heq]
      simp only [List.append_assoc]
    · refine ⟨_, _, results₂, .last (not_lt.mp hmore), hsuffix₂.trans hsuffix₁, ?_⟩
      rw [if_neg (fun h => hmore h.2), decide_eq_true (not_lt.mp hmore),
        List.take_of_length_le (not_lt.mp hmore), min_eq_right (not_lt.mp hmore), List.append_assoc]
      rfl

theorem addRecords_spec (records : List Bytes) (contents : Bytes) (ho : o ≤ kBlockSize) :
    ∃ bytes o', Records o records bytes o' ∧ o' ≤ kBlockSize ∧
      Writer.addRecords ⟨⟨contents, []⟩, o⟩ records = .ok (.ok, ⟨⟨contents ++ bytes, []⟩, o'⟩) := by
  induction records generalizing contents o with
  | nil => exact ⟨[], o, .nil, ho, by rw [List.append_nil]; rfl⟩
  | cons data records ih =>
    obtain ⟨bytes, o₁, results, hlayout, hsuffix, heq⟩ :=
      addRecordLoop_ok (fun s hs => absurd hs List.not_mem_nil) true data contents ho
    obtain rfl := List.suffix_nil.mp hsuffix
    obtain ⟨bytes', o', hrecords, hle, heq'⟩ := ih (contents ++ bytes) hlayout.offset_le
    refine ⟨bytes ++ bytes', o', .cons hlayout hrecords, hle, ?_⟩
    rw [Writer.addRecords, Writer.addRecord, heq, Stops.ok_bind]
    simp only [Status.isOk_ok, if_true]
    rw [heq', List.append_assoc]

/-- Who goes on with a log that was closed writes what would have been written without that. -/
theorem addRecords_resumed {bytes : Bytes} {o' : ℕ} (h : Records 0 records bytes o')
    (ho : o' ≤ kBlockSize) (more : List Bytes) :
    ∃ bytes' o₂ w, Records o' more bytes' o₂ ∧ w.dest.contents = bytes ++ bytes' ∧
      (Writer.make ⟨bytes, []⟩ bytes.length).addRecords more = .ok (.ok, w) := by
  have hoffset := Writer.make_of_end h ho ⟨bytes, []⟩
  have hwriter : Writer.make ⟨bytes, []⟩ bytes.length =
      ⟨⟨bytes, []⟩, (Writer.make ⟨bytes, []⟩ bytes.length).blockOffset⟩ := rfl
  split_ifs at hoffset with hfull
  · obtain ⟨bytes', o₂, hrecords, -, heq⟩ := addRecords_spec more bytes (Nat.zero_le _)
    obtain ⟨o₃, hreset⟩ := hrecords.reset
    rw [hwriter, hoffset]
    exact ⟨bytes', o₃, _, hfull ▸ hreset, rfl, heq⟩
  · obtain ⟨bytes', o₂, hrecords, -, heq⟩ := addRecords_spec more bytes ho
    rw [hwriter, hoffset]
    exact ⟨bytes', o₂, _, hrecords, rfl, heq⟩

end Writer

end Log

end DVELevelDB
