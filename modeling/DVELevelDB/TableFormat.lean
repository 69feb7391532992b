import DVELevelDB.Crc32c
import DVELevelDB.FilterBlock
import DVELevelDB.StringOrder
import DVELevelDB.TwoLevel

/-! # The bytes of a table

Blocks with a type and a checksum behind each of them, and a footer that leads to the index block
and, through the metaindex block, to the filter block.
-/

namespace DVELevelDB

namespace TableFormat

open Coding Positions BlockFormat
open FilterBlock (EngineFilterPolicy FilterBlockBuilder FilterBlockReader)
open Stops (Ensures)

structure BlockHandle where
  offset : ℕ
  size : ℕ

namespace BlockHandle

def encodeTo (h : BlockHandle) : Bytes := encodeVarint64 h.offset ++ encodeVarint64 h.size

def decodeFrom (input : Bytes) : Option (BlockHandle × Bytes) := do
  let (offset, input) ← getVarint64 input
  let (size, input) ← getVarint64 input
  return (⟨offset, size⟩, input)

end BlockHandle

inductive CompressionType where
  | kNoCompression
  | kSnappyCompression

def CompressionType.code : CompressionType → UInt8
  | .kNoCompression => 0
  | .kSnappyCompression => 1

/-- `port::Snappy_Compress` and `port::Snappy_Uncompress`; they may fail. -/
structure Snappy where
  compress : Bytes → Option Bytes
  uncompress : Bytes → Option Bytes

def Snappy.Lossless (z : Snappy) : Prop :=
  ∀ raw compressed, z.compress raw = some compressed → z.uncompress compressed = some raw

structure FilterPolicy extends EngineFilterPolicy where
  name : Bytes

/-- The key of the filter block in the metaindex block. -/
def FilterPolicy.metaKey (policy : FilterPolicy) : Bytes := utf8 "filter." ++ policy.name

/-- The options that shape a table. -/
structure Options where
  comparator : Comparator
  blockSize : ℕ
  blockRestartInterval : ℕ
  compression : CompressionType
  filterPolicy : Option FilterPolicy

/-- `kBlockTrailerSize` bytes: the type and the checksum of the block with its type. -/
def trailer (contents : Bytes) (type : CompressionType) : Bytes :=
  type.code ::
    encodeFixed32 (Crc32c.mask (Crc32c.extend 0 (Crc32c.value 0 contents) [type.code])).toNat

def kEncodedLength : ℕ := 48

def kTableMagicNumber : ℕ := 0xdb4775248b80fb57

structure Footer where
  metaindexHandle : BlockHandle
  indexHandle : BlockHandle

namespace Footer

def encodeTo (f : Footer) : Bytes :=
  let handles := f.metaindexHandle.encodeTo ++ f.indexHandle.encodeTo
  (handles ++ List.replicate (40 - handles.length) 0).take 40 ++
    encodeFixed32 (kTableMagicNumber % 2 ^ 32) ++ encodeFixed32 (kTableMagicNumber / 2 ^ 32)

def decodeFrom (input : Bytes) : Status ⊕ Footer :=
  let low := decodeFixed32 (input.drop (kEncodedLength - 8))
  let high := decodeFixed32 (input.drop (kEncodedLength - 4))
  if high * 2 ^ 32 + low ≠ kTableMagicNumber then
    .inl (.make .corruption (utf8 "not an sstable (bad magic number)") [])
  else
    match BlockHandle.decodeFrom input with
    | none => .inl (.make .corruption (utf8 "bad block handle") [])
    | some (metaindexHandle, rest) =>
      match BlockHandle.decodeFrom rest with
      | none => .inl (.make .corruption (utf8 "bad block handle") [])
      | some (indexHandle, _) => .inr ⟨metaindexHandle, indexHandle⟩

end Footer

section Read

variable (z : Snappy) (paranoidChecks verifyChecksums : Bool)

def readBlock (file : Bytes) (h : BlockHandle) : Status ⊕ Bytes :=
  let contents := (file.drop h.offset).take (h.size + 5)
  let data := contents.take h.size
  if contents.length ≠ h.size + 5 then
    .inl (.make .corruption (utf8 "truncated block read") [])
  else if verifyChecksums ∧ Crc32c.value 0 (contents.take (h.size + 1)) ≠
      Crc32c.unmask (UInt32.ofNat (decodeFixed32 (contents.drop (h.size + 1)))) then
    .inl (.make .corruption (utf8 "block checksum mismatch") [])
  else if contents[h.size]? = some CompressionType.kNoCompression.code then
    .inr data
  else if contents[h.size]? = some CompressionType.kSnappyCompression.code then
    match z.uncompress data with
    | none => .inl (.make .corruption (utf8 "corrupted compressed block contents") [])
    | some raw => .inr raw
  else
    .inl (.make .corruption (utf8 "bad block type") [])

structure OpenedTable where
  indexBlock : BlockFormat.Block
  filter : Option (FilterPolicy × FilterBlockReader)

def readFilter (policy : FilterPolicy) (file filterHandleValue : Bytes) :
    Option (FilterPolicy × FilterBlockReader) :=
  match BlockHandle.decodeFrom filterHandleValue with
  | none => none
  | some (filterHandle, _) =>
    match readBlock z paranoidChecks file filterHandle with
    | .inl _ => none
    | .inr contents => some (policy, .ofContents contents)

/-- The filter; where it cannot be read, the table does without. -/
def readMeta (filterPolicy : Option FilterPolicy) (file : Bytes) (metaindexHandle : BlockHandle) :
    Exec (Option (FilterPolicy × FilterBlockReader)) :=
  match filterPolicy with
  | none => return none
  | some policy =>
    match readBlock z paranoidChecks file metaindexHandle with
    | .inl _ => return none
    | .inr contents => do
      let iterator := Block.engineIterator bytewiseComparator
      let iter ← iterator.seek policy.metaKey (Block.make contents).newIterator
      match ← iterator.current iter with
      | none => return none
      | some (key, value) =>
        return if key = policy.metaKey then readFilter z paranoidChecks policy file value else none

/-- `Table::Open`, where a filter policy is among the options or not. -/
def openTable (filterPolicy : Option FilterPolicy) (file : Bytes) : Exec (Status ⊕ OpenedTable) :=
  if file.length < kEncodedLength then
    return .inl (.make .corruption (utf8 "file is too short to be an sstable") [])
  else
    match Footer.decodeFrom (file.drop (file.length - kEncodedLength)) with
    | .inl s => return .inl s
    | .inr footer =>
      match readBlock z paranoidChecks file footer.indexHandle with
      | .inl s => return .inl s
      | .inr contents => do
        let filter ← readMeta z paranoidChecks filterPolicy file footer.metaindexHandle
        return .inr ⟨.make contents, filter⟩

/-- `Table::BlockReader` without a block cache. -/
def blockReader (file : Bytes) (indexValue : Bytes) : Status ⊕ Iter :=
  match BlockHandle.decodeFrom indexValue with
  | none => .inl (.make .corruption (utf8 "bad block handle") [])
  | some (h, _) =>
    match readBlock z verifyChecksums file h with
    | .inl s => .inl s
    | .inr contents => (Block.make contents).newIterator

end Read

/-- Why a call of the table builder does not return. -/
inductive Stop where
  | trap (t : Trap)
  | fault (f : MemoryFault)

abbrev Building := Except Stop

def ofExec {α : Type} (x : Exec α) : Building α := x.mapError .trap

def ofRaw {α : Type} (x : Raw α) : Building α := x.mapError .fault

@[simp] theorem ofExec_ok {α : Type} (a : α) : ofExec (.ok a) = .ok a := rfl

theorem ensures_ofRaw {α : Type} {permitted : MemoryFault → Prop} {permitted' : Stop → Prop}
    {x : Raw α} {Q : α → Prop} (h : Ensures permitted x Q)
    (hstop : ∀ f, permitted f → permitted' (.fault f)) : Ensures permitted' (ofRaw x) Q := by
  cases x with
  | ok a => exact h
  | error f => exact hstop f h

structure Rep where
  file : Bytes
  calls : ℕ
  offset : ℕ
  status : Status
  dataBlock : BlockBuilder
  indexBlock : BlockBuilder
  lastKey : Bytes
  numEntries : ℕ
  closed : Bool
  filterBlock : Option (FilterPolicy × FilterBlockBuilder)
  pendingIndexEntry : Bool
  pendingHandle : BlockHandle

namespace Rep

def make (o : Options) : Rep where
  file := []
  calls := 0
  offset := 0
  status := .ok
  dataBlock := .empty
  indexBlock := .empty
  lastKey := []
  numEntries := 0
  closed := false
  filterBlock := o.filterPolicy.map (·, .empty)
  pendingIndexEntry := false
  pendingHandle := ⟨0, 0⟩

variable (io : ℕ → Status) (z : Snappy) (o : Options)

/-- An append to the file; `io` has the outcomes of the calls. -/
def append (data : Bytes) (r : Rep) : Rep :=
  { r with
    file := if (io r.calls).isOk then r.file ++ data else r.file
    calls := r.calls + 1
    status := io r.calls }

def flushFile (r : Rep) : Rep := { r with calls := r.calls + 1, status := io r.calls }

def writeRawBlock (contents : Bytes) (type : CompressionType) (r : Rep) : Rep × BlockHandle :=
  let h : BlockHandle := ⟨r.offset, contents.length⟩
  let r := r.append io contents
  if r.status.isOk then
    let r := r.append io (trailer contents type)
    if r.status.isOk then ({ r with offset := r.offset + (contents.length + 5) }, h) else (r, h)
  else
    (r, h)

/-- What is stored of a block: it is compressed if that saves an eighth. -/
def stored (raw : Bytes) : Bytes × CompressionType :=
  match o.compression with
  | .kNoCompression => (raw, .kNoCompression)
  | .kSnappyCompression =>
    match z.compress raw with
    | none => (raw, .kNoCompression)
    | some compressed =>
      if compressed.length < raw.length - raw.length / 8 then
        (compressed, .kSnappyCompression)
      else
        (raw, .kNoCompression)

def writeBlock (b : BlockBuilder) (r : Rep) : Rep × BlockHandle :=
  let contents := stored z o b.finish.buffer
  r.writeRawBlock io contents.1 contents.2

/-- A call of the filter block, if there is one. -/
def callFilter (call : FilterBlockBuilder.Call) (r : Rep) : Building Rep :=
  match r.filterBlock with
  | none => return r
  | some (policy, b) => do
    let b ← ofRaw (b.call policy.toEngineFilterPolicy call)
    return { r with filterBlock := some (policy, b) }

def flushData (r : Rep) : Rep :=
  let (r, pendingHandle) := r.writeBlock io z o r.dataBlock
  let r := { r with dataBlock := .empty, pendingHandle }
  if r.status.isOk then { r with pendingIndexEntry := true }.flushFile io else r

def flush (r : Rep) : Building Rep := do
  ofExec (assertThat !r.closed)
  if !r.status.isOk || r.dataBlock.buffer.isEmpty then
    return r
  else
    ofExec (assertThat !r.pendingIndexEntry)
    let r := r.flushData io z o
    r.callFilter (.startBlock r.offset)

/-- The index entry of the last block, under a key that `shorten` chooses. -/
def addPending (shorten : Bytes → Exec Bytes) (r : Rep) : Exec Rep := do
  if r.pendingIndexEntry then
    let lastKey ← shorten r.lastKey
    let indexBlock ← r.indexBlock.add o.comparator 1 lastKey r.pendingHandle.encodeTo
    return { r with lastKey, indexBlock, pendingIndexEntry := false }
  else
    return r

def assertAfter (key : Bytes) (r : Rep) : Exec Unit := do
  if r.numEntries > 0 then
    assertThat ((← o.comparator.compare key r.lastKey) == .gt)

def addEntry (key value : Bytes) (r : Rep) : Exec Rep := do
  let dataBlock ← r.dataBlock.add o.comparator o.blockRestartInterval key value
  return { r with dataBlock, lastKey := key, numEntries := r.numEntries + 1 }

def add (r : Rep) (e : Bytes × Bytes) : Building Rep := do
  ofExec (assertThat !r.closed)
  if !r.status.isOk then
    return r
  else
    ofExec (r.assertAfter o e.1)
    ofExec (assertThat (!r.pendingIndexEntry || r.dataBlock.buffer.isEmpty))
    let r ← ofExec (r.addPending o fun lastKey =>
      o.comparator.findShortestSeparator lastKey e.1)
    let r ← r.callFilter (.addKey e.1)
    let r ← ofExec (r.addEntry o e.1 e.2)
    if r.dataBlock.currentSizeEstimate ≥ o.blockSize then
      r.flush io z o
    else
      return r

/-- The filter block, if there is one, and the entries of the metaindex block. -/
def writeFilterBlock (r : Rep) : Building (Rep × List (Bytes × Bytes)) := do
  let r ← r.callFilter .finish
  match r.filterBlock with
  | none => return (r, [])
  | some (policy, b) =>
    let (r, filterHandle) := r.writeRawBlock io b.result .kNoCompression
    return (r, [(policy.metaKey, filterHandle.encodeTo)])

/-- The metaindex block, the index block and the footer. -/
def finishBlocks (metaEntries : List (Bytes × Bytes)) (r : Rep) : Exec Rep := do
  let metaIndexBlock ← BlockBuilder.empty.addAll o.comparator o.blockRestartInterval metaEntries
  let (r, metaindexHandle) := r.writeBlock io z o metaIndexBlock
  if r.status.isOk then
    let r ← r.addPending o o.comparator.findShortSuccessor
    let (r, indexHandle) := r.writeBlock io z o r.indexBlock
    let r := { r with indexBlock := .empty }
    if r.status.isOk then
      let footer : Footer := ⟨metaindexHandle, indexHandle⟩
      let r := r.append io footer.encodeTo
      return if r.status.isOk then { r with offset := r.offset + footer.encodeTo.length } else r
    else
      return r
  else
    return r

def finish (r : Rep) : Building Rep := do
  let r ← r.flush io z o
  ofExec (assertThat !r.closed)
  let r := { r with closed := true }
  if r.status.isOk then
    let (r, metaEntries) ← r.writeFilterBlock io
    if r.status.isOk then
      ofExec (r.finishBlocks io z o metaEntries)
    else
      return r
  else
    return r

end Rep

def build (io : ℕ → Status) (z : Snappy) (o : Options) (es : List (Bytes × Bytes)) :
    Building Rep := do
  let r ← (Rep.make o).callFilter (.startBlock 0)
  (← es.foldlM (Rep.add io z o) r).finish io z o

section Handles

variable {h : BlockHandle} {file more p raw : Bytes} {z : Snappy} {o : Options}

def BlockHandle.Fits (h : BlockHandle) : Prop := h.offset < 2 ^ 64 ∧ h.size < 2 ^ 64

theorem BlockHandle.decodeFrom_encodeTo (hfits : h.Fits) (p : Bytes) :
    BlockHandle.decodeFrom (h.encodeTo ++ p) = some (h, p) := by
  rw [BlockHandle.decodeFrom, BlockHandle.encodeTo, List.append_assoc,
    getVarint64_encodeVarint64 hfits.1, Option.bind_eq_bind, Option.bind_some]
  simp only [getVarint64_encodeVarint64 hfits.2]
  rfl

/-- What stands at `h` in the file. -/
def StoredAt (z : Snappy) (file : Bytes) (h : BlockHandle) (raw : Bytes) : Prop :=
  ∃ pre contents type post, file = pre ++ (contents ++ trailer contents type ++ post) ∧
    h = ⟨pre.length, contents.length⟩ ∧
    (type = .kNoCompression ∧ contents = raw ∨
      type = .kSnappyCompression ∧ z.uncompress contents = some raw)

theorem trailer_length (contents : Bytes) (type : CompressionType) :
    (trailer contents type).length = 5 := by
  rw [trailer, List.length_cons, encodeFixed32, encodeFixed_length]

theorem StoredAt.append (hs : StoredAt z file h raw) (more : Bytes) :
    StoredAt z (file ++ more) h raw := by
  obtain ⟨pre, contents, type, post, rfl, hh, htype⟩ := hs
  exact ⟨pre, contents, type, post ++ more, by simp only [List.append_assoc], hh, htype⟩

theorem StoredAt.fits (hs : StoredAt z file h raw) (hfile : file.length < 2 ^ 64) : h.Fits := by
  obtain ⟨pre, contents, type, post, rfl, rfl, -⟩ := hs
  simp only [List.length_append] at hfile
  exact ⟨by dsimp only; omega, by dsimp only; omega⟩

theorem checksum_trailer (contents : Bytes) (type : CompressionType) :
    Crc32c.value 0 (contents ++ [type.code]) =
      Crc32c.unmask (UInt32.ofNat (decodeFixed32 ((trailer contents type).drop 1))) := by
  have hdecode := decodeFixed_encodeFixed 4
    (Crc32c.mask (Crc32c.extend 0 (Crc32c.value 0 contents) [type.code])).toNat []
  rw [List.append_nil, Nat.mod_eq_of_lt (by exact UInt32.toNat_lt _)] at hdecode
  rw [trailer, List.drop_one, List.tail_cons, decodeFixed32, encodeFixed32, hdecode,
    UInt32.ofNat_toNat, Crc32c.unmask_mask]
  exact (Crc32c.extend_extend 0 0 0 0 contents [type.code]).symm

/-- A stored block is read, with its checksum verified or not. -/
theorem StoredAt.read (hs : StoredAt z file h raw) (verifyChecksums : Bool) :
    readBlock z verifyChecksums file h = .inr raw := by
  obtain ⟨pre, contents, type, post, rfl, rfl, htype⟩ := hs
  have htake : ((pre ++ (contents ++ trailer contents type ++ post)).drop pre.length).take
      (contents.length + 5) = contents ++ trailer contents type := by
    rw [List.drop_left, List.take_left' (by rw [List.length_append, trailer_length])]
  have hcrc : Crc32c.value 0 ((contents ++ trailer contents type).take (contents.length + 1)) =
      Crc32c.unmask (UInt32.ofNat (decodeFixed32
        ((contents ++ trailer contents type).drop (contents.length + 1)))) := by
    rw [List.take_length_add_append, List.drop_length_add_append, ← checksum_trailer]
    rfl
  have hcode : (contents ++ trailer contents type)[contents.length]? = some type.code := by
    rw [List.getElem?_append_right le_rfl, Nat.sub_self]
    rfl
  simp only [readBlock, htake, hcrc, hcode, List.length_append, trailer_length, ne_eq,
    not_true_eq_false, and_false, if_false, List.take_left]
  rcases htype with ⟨rfl, rfl⟩ | ⟨rfl, hraw⟩
  · rfl
  · rw [if_neg (by decide), if_pos rfl, hraw]

end Handles

section Blocks

variable {κ : Type*} [LinearOrder κ] {c : Comparator} {D : Bytes → Prop} {rank : Bytes → κ}
  {interval : ℕ} {es : List (Bytes × Bytes)} {e : Bytes × Bytes} {b b' : BlockBuilder}

theorem addAll_concat (hb : BlockBuilder.empty.addAll c interval es = .ok b) :
    BlockBuilder.empty.addAll c interval (es ++ [e]) = b.add c interval e.1 e.2 := by
  rw [BlockBuilder.addAll, List.foldlM_append]
  rw [BlockBuilder.addAll] at hb
  rw [hb, Stops.ok_bind]
  exact bind_pure _

theorem add_buffer {key value : Bytes} (hb : b.add c interval key value = .ok b') :
    b'.buffer ≠ [] := by
  have hentry : ∀ shared, b.buffer ++ BlockBuilder.encodeEntry shared key value ≠ [] := fun _ =>
    List.append_ne_nil_of_right_ne_nil _ (List.length_pos_iff.mp (length_encodeEntry_pos ..))
  have hall : Stops.Ensures (fun _ => True) (b.add c interval key value)
      fun b' => b'.buffer ≠ [] := by
    rw [BlockBuilder.add]
    refine .bind Stops.ensures_true fun _ _ => .bind Stops.ensures_true fun _ _ => ?_
    dsimp only
    by_cases hempty : b.buffer.isEmpty = true
    · rw [if_pos hempty]
      exact .bind Stops.ensures_true fun _ _ => hentry _
    · rw [if_neg hempty]
      exact .bind Stops.ensures_true fun _ _ => .bind Stops.ensures_true fun _ _ =>
        .bind Stops.ensures_true fun _ _ => hentry _
  exact hall.elim hb

theorem addAll_isEmpty (hb : BlockBuilder.empty.addAll c interval es = .ok b) :
    b.buffer.isEmpty = es.isEmpty := by
  rcases List.eq_nil_or_concat es with rfl | ⟨es', e, rfl⟩
  · obtain rfl := Except.ok.inj hb
    rfl
  · rw [List.concat_eq_append] at hb ⊢
    rw [BlockBuilder.addAll, List.foldlM_append] at hb
    obtain ⟨b₀, hb₀, hb⟩ := Stops.bind_eq_ok.mp hb
    have hadd : b₀.add c interval e.1 e.2 = .ok b := (bind_pure _).symm.trans hb
    rw [List.isEmpty_eq_false_iff.mpr (add_buffer hadd),
      List.isEmpty_eq_false_iff.mpr (List.concat_ne_nil _ _)]

theorem add_greater (ho : c.OrdersOn D rank) (hpos : 0 < interval)
    (hb : BlockBuilder.empty.addAll c interval es = .ok b) (hD : ∀ x ∈ es ++ [e], D x.1)
    (hsorted : (es ++ [e]).Pairwise fun x x' => rank x.1 < rank x'.1) :
    ∃ b', b.add c interval e.1 e.2 = .ok b' ∧
      BlockBuilder.empty.addAll c interval (es ++ [e]) = .ok b' := by
  obtain ⟨b', hb', -⟩ := finished_block ho hpos hD hsorted
  exact ⟨b', (addAll_concat hb).symm.trans hb', hb'⟩

end Blocks

/-- What `comparator.h` promises of the keys that are made for an index. -/
structure Shortens {κ : Type*} [LinearOrder κ] (c : Comparator) (D : Bytes → Prop)
    (rank : Bytes → κ) : Prop where
  separator : ∀ a b, D a → D b → rank a < rank b →
    ∃ s, c.findShortestSeparator a b = .ok s ∧ D s ∧ rank a ≤ rank s ∧ rank s < rank b
  successor : ∀ a, D a → ∃ s, c.findShortSuccessor a = .ok s ∧ D s ∧ rank a ≤ rank s

end TableFormat

end DVELevelDB
