import DVELevelDB.CompactionOutputs
import DVELevelDB.DBImpl
import DVELevelDB.Lib.Cursor

/-! # Iterators

The engine's iterators, as far as a scan from the first entry uses them, and the Swift iterator.
-/

namespace DVELevelDB

open Cursors VersionStore

class Iterator (σ : Type) extends Cursor σ Entry where
  status : σ → Status

/-- The iterator of a block, or the one that only has an error. -/
structure BlockIterator where
  entries : List Entry
  /-- From the current entry on. -/
  rest : List Entry
  status : Status

instance : Iterator BlockIterator where
  current it := it.rest.head?
  seekToFirst it := { it with rest := it.entries }
  next it := { it with rest := it.rest.tail }
  status it := it.status

/-- `TwoLevelIterator`: the iterator of an index entry goes through its part of the data. -/
structure TwoLevelIterator (ι δ : Type) where
  blockFunction : ι → δ
  indexEntries : List ι
  /-- From the current index entry on. -/
  index : List ι
  dataIter : Option δ
  status : Status

namespace TwoLevelIterator

variable {ι δ : Type} [Iterator δ]

def ofIndex (indexEntries : List ι) (blockFunction : ι → δ) : TwoLevelIterator ι δ :=
  ⟨blockFunction, indexEntries, [], none, .ok⟩

/-- `NewErrorIterator`. -/
def ofError (blockFunction : ι → δ) (s : Status) : TwoLevelIterator ι δ :=
  ⟨blockFunction, [], [], none, s⟩

/-- The status of the old data iterator is saved, unless there has been an error before. -/
def setDataIterator (dataIter : Option δ) (it : TwoLevelIterator ι δ) : TwoLevelIterator ι δ :=
  let s := match it.dataIter with
    | some old => Iterator.status old
    | none => .ok
  { it with dataIter, status := if it.status.isOk && !s.isOk then s else it.status }

-- a scan meets each handle once, so the comparison with the last one is left out
def initDataBlock (it : TwoLevelIterator ι δ) : TwoLevelIterator ι δ :=
  match it.index with
  | [] => it.setDataIterator none
  | handle :: _ => it.setDataIterator (some (it.blockFunction handle))

def dataCurrent (it : TwoLevelIterator ι δ) : Option Entry := it.dataIter.bind Cursor.current

def dataSeekToFirst (it : TwoLevelIterator ι δ) : TwoLevelIterator ι δ :=
  { it with dataIter := it.dataIter.map Cursor.seekToFirst }

/-- The loop of `SkipEmptyDataBlocksForward`, with the index from its current entry on. -/
def skipBlocks : List ι → TwoLevelIterator ι δ → TwoLevelIterator ι δ
  | [], it => if it.dataCurrent.isSome then it else it.setDataIterator none
  | _ :: index, it =>
    if it.dataCurrent.isSome then
      it
    else
      skipBlocks index ({ it with index }.initDataBlock.dataSeekToFirst)

def skipEmptyDataBlocksForward (it : TwoLevelIterator ι δ) : TwoLevelIterator ι δ :=
  skipBlocks it.index it

instance : Iterator (TwoLevelIterator ι δ) where
  current := dataCurrent
  seekToFirst it :=
    { it with index := it.indexEntries }.initDataBlock.dataSeekToFirst.skipEmptyDataBlocksForward
  next it := { it with dataIter := it.dataIter.map Cursor.next }.skipEmptyDataBlocksForward
  status it :=
    match it.dataIter with
    | some dataIter => if (Iterator.status dataIter).isOk then it.status else Iterator.status dataIter
    | none => it.status

end TwoLevelIterator

def Table.blockIterator (io : FileAccess) (number : ℕ) (ie : IndexEntry) : BlockIterator :=
  if (io.blockReader number ie).isOk then
    ⟨ie.block.entries, [], .ok⟩
  else
    ⟨[], [], io.blockReader number ie⟩

abbrev TableIterator := TwoLevelIterator IndexEntry BlockIterator

def FileMetaData.newIterator (io : FileAccess) (f : FileMetaData) : TableIterator :=
  if (io.findTable f.number).isOk then
    .ofIndex f.table.index.entries (Table.blockIterator io f.number)
  else
    .ofError (Table.blockIterator io f.number) (io.findTable f.number)

abbrev LevelIterator := TwoLevelIterator FileMetaData TableIterator

def Version.newConcatenatingIterator (io : FileAccess) (v : Version) (level : ℕ) : LevelIterator :=
  .ofIndex (v.files level) (FileMetaData.newIterator io)

/-- The iterator of a memtable, whose list may grow under it. -/
structure MemTableIterator where
  mem : MemTable
  node : Option Entry

instance : Iterator MemTableIterator where
  current it := it.node
  seekToFirst it := { it with node := it.mem.entries.head? }
  next it :=
    { it with node := it.node.bind fun e => (it.mem.entries.dropWhile (· ≠ e)).tail.head? }
  status _ := .ok

inductive InternalIterator where
  | memTable (it : MemTableIterator)
  | table (it : TableIterator)
  | level (it : LevelIterator)

instance : Iterator InternalIterator where
  current
    | .memTable it => Cursor.current it
    | .table it => Cursor.current it
    | .level it => Cursor.current it
  seekToFirst
    | .memTable it => .memTable (Cursor.seekToFirst it)
    | .table it => .table (Cursor.seekToFirst it)
    | .level it => .level (Cursor.seekToFirst it)
  next
    | .memTable it => .memTable (Cursor.next it)
    | .table it => .table (Cursor.next it)
    | .level it => .level (Cursor.next it)
  status
    | .memTable it => Iterator.status it
    | .table it => Iterator.status it
    | .level it => Iterator.status it

def InternalIterator.entryCount : InternalIterator → ℕ
  | .memTable it => it.mem.entries.length
  | .table it => (it.indexEntries.map fun ie => ie.block.entries.length).sum
  | .level it => (it.indexEntries.map fun f => f.entries.length).sum

def Version.addIterators (io : FileAccess) (v : Version) : List InternalIterator :=
  (v.files 0).map (fun f => .table (f.newIterator io)) ++
    (deepLevels.filter fun level => !(v.files level).isEmpty).map fun level =>
      .level (v.newConcatenatingIterator io level)

/-- `MergingIterator`; `current` is the child it stands at, with the child's entry. -/
structure MergingIterator where
  children : List InternalIterator
  current : Option (ℕ × Entry)

namespace MergingIterator

variable (c : Comparator)

def findSmallest (children : List InternalIterator) : Exec MergingIterator := do
  return ⟨children, ← Merge.findSmallest (entryBefore c) 0 none (heads children)⟩

def seekToFirst (it : MergingIterator) : Exec MergingIterator :=
  findSmallest c (it.children.map Cursor.seekToFirst)

def next (it : MergingIterator) : Exec MergingIterator :=
  match it.current with
  | some (i, _) => findSmallest c (advance i it.children)
  | none => throw .assertion

def status (it : MergingIterator) : Status :=
  ((it.children.map Iterator.status).find? fun s => !s.isOk).getD .ok

end MergingIterator

/-- `NewInternalIterator`. A single child is not merged, which makes no difference. -/
def DB.newInternalIterator (io : FileAccess) (db : DB) : MergingIterator :=
  let mems := db.mem :: db.imm.toList
  ⟨mems.map (fun mem => .memTable ⟨mem, none⟩) ++ db.version.addIterators io, none⟩

structure DBIter where
  iter : MergingIterator
  sequence : ℕ
  valid : Bool
  status : Status

def DB.newIterator (io : FileAccess) (snapshot : Option ℕ) (db : DB) : DBIter :=
  ⟨db.newInternalIterator io, snapshot.getD db.lastSequence, false, .ok⟩

namespace DBIter

/-- What `FindNextUserEntry` does at an entry: it stops, or goes on with the key to skip. -/
inductive Decision where
  | accept
  | pass (skip : Option Bytes)
  | corrupt

section Definitions

variable (c : Comparator)

/-- `skip` is the key that is skipped, while `skipping`. Read sampling, which may schedule a
compaction, is left out. -/
def examine (sequence : ℕ) (skip : Option Bytes) (key : InternalKey) : Exec Decision :=
  match parseInternalKey key with
  | none => return .corrupt
  | some ikey =>
    if ikey.sequence ≤ sequence then
      if ikey.type = kTypeDeletion then
        return .pass (some ikey.userKey)
      else
        match skip with
        | some hidden => do
          return if (← c.compare ikey.userKey hidden) ≠ .gt then .pass skip else .accept
        | none => return .accept
    else
      return .pass skip

/-- The loop of `FindNextUserEntry`, for at most `n` entries. -/
def findNextUserEntry : ℕ → Option Bytes → DBIter → Exec DBIter
  | 0, _, _ => throw .assertion
  | n + 1, skip, it =>
    match it.iter.current with
    | none => throw .assertion
    | some (_, e) => do
      match ← examine c it.sequence skip e.key with
      | .accept => return { it with valid := true }
      | .pass skip =>
        let iter ← it.iter.next c
        if iter.current.isSome then
          findNextUserEntry n skip { it with iter }
        else
          return { it with iter, valid := false }
      | .corrupt =>
        let status : Status := .make .corruption (utf8 "corrupted internal key in DBIter") []
        let iter ← it.iter.next c
        if iter.current.isSome then
          findNextUserEntry n skip { it with iter, status }
        else
          return { it with iter, status, valid := false }

/-- More than the entries that a loop can meet. -/
def bound (it : DBIter) : ℕ := (it.iter.children.map (·.entryCount)).sum + 1

def seekToFirst (it : DBIter) : Exec DBIter := do
  let iter ← it.iter.seekToFirst c
  if iter.current.isSome then
    findNextUserEntry c it.bound none { it with iter }
  else
    return { it with iter, valid := false }

def next (it : DBIter) : Exec DBIter := do
  assertThat it.valid
  match it.iter.current with
  | some (_, e) =>
    let iter ← it.iter.next c
    if iter.current.isSome then
      findNextUserEntry c it.bound (some e.key.userKey) { it with iter }
    else
      return { it with iter, valid := false }
  | none => throw .assertion

end Definitions

/-- The first child reads the memtable that writes go to while they go to the same log file. -/
def follow (logNumber : ℕ) (db : DB) (it : DBIter) : DBIter :=
  match it.iter.children with
  | .memTable m :: children =>
    if db.log.number = logNumber then
      { it with iter := { it.iter with children := .memTable { m with mem := db.mem } :: children } }
    else
      it
  | _ => it

end DBIter

namespace LevelDB.Iterator

variable (c : Comparator)

def init (io : FileAccess) (snapshot : Option ℕ) (db : DB) : Exec DBIter :=
  (db.newIterator io snapshot).seekToFirst c

/-- `LevelDB.Iterator.next`; the status of the engine's iterator is not asked for. -/
def next (iterator : DBIter) : Exec (Option (Bytes × Bytes) × DBIter) :=
  if iterator.valid then
    match iterator.iter.current with
    | some (_, e) => do return (some (e.key.userKey, e.value), ← iterator.next c)
    | none => throw .assertion
  else
    return (none, iterator)

end LevelDB.Iterator

section Delivery

variable {ι δ : Type} [Iterator δ]

theorem BlockIterator.delivers (it : BlockIterator) : Delivers it it.rest := by
  obtain ⟨entries, rest, status⟩ := it
  induction rest with
  | nil => exact .nil rfl
  | cons e rest ih => exact .cons rfl ih

namespace TwoLevelIterator

variable {content : ι → List Entry} {it : TwoLevelIterator ι δ} {data : List Entry}
  {index : List ι}

/-- The data iterator is at the first of these entries. -/
def DataDelivers (it : TwoLevelIterator ι δ) (data : List Entry) : Prop :=
  match it.dataIter with
  | some dataIter => Delivers dataIter data
  | none => data = []

/-- An iterator with `data` left in its part of the data, and with whole parts behind it. -/
structure Ahead (content : ι → List Entry) (it : TwoLevelIterator ι δ) (data : List Entry) :
    Prop where
  reads : ∀ i, Delivers (Cursor.seekToFirst (it.blockFunction i)) (content i)
  delivers : it.DataDelivers data

theorem DataDelivers.dataCurrent_eq (h : it.DataDelivers data) : it.dataCurrent = data.head? := by
  unfold DataDelivers at h
  unfold dataCurrent
  cases hd : it.dataIter with
  | none =>
    rw [hd] at h
    rw [show data = [] from h]
    rfl
  | some dataIter =>
    rw [hd] at h
    exact h.current_eq

theorem DataDelivers.next {e : Entry} (h : it.DataDelivers (e :: data)) :
    { it with dataIter := it.dataIter.map Cursor.next }.DataDelivers data := by
  unfold DataDelivers at h ⊢
  cases hd : it.dataIter with
  | none =>
    rw [hd] at h
    cases h
  | some dataIter =>
    rw [hd] at h
    exact h.next

@[simp] theorem initDataBlock_index (it : TwoLevelIterator ι δ) :
    it.initDataBlock.index = it.index := by
  unfold initDataBlock
  split <;> rfl

@[simp] theorem initDataBlock_indexEntries (it : TwoLevelIterator ι δ) :
    it.initDataBlock.indexEntries = it.indexEntries := by
  unfold initDataBlock
  split <;> rfl

@[simp] theorem dataSeekToFirst_index (it : TwoLevelIterator ι δ) :
    it.dataSeekToFirst.index = it.index := rfl

theorem flatMap_head_tail (content : ι → List Entry) (index : List ι) :
    index.head?.toList.flatMap content ++ index.tail.flatMap content = index.flatMap content := by
  cases index <;> simp

theorem ahead_initDataBlock (it : TwoLevelIterator ι δ)
    (hreads : ∀ i, Delivers (Cursor.seekToFirst (it.blockFunction i)) (content i)) :
    it.initDataBlock.dataSeekToFirst.Ahead content (it.index.head?.toList.flatMap content) := by
  unfold initDataBlock
  split
  · rename_i hindex
    rw [hindex]
    exact ⟨hreads, rfl⟩
  · rename_i i index hindex
    rw [hindex, List.head?_cons, Option.toList_some, List.flatMap_singleton]
    exact ⟨hreads, hreads i⟩

/-- What `SkipEmptyDataBlocksForward` reaches: a data iterator at an entry, or the end. -/
theorem Ahead.skipBlocks (h : it.Ahead content data) :
    ∃ data', (skipBlocks it.index it).Ahead content data' ∧
      data' ++ (skipBlocks it.index it).index.tail.flatMap content =
        data ++ it.index.tail.flatMap content ∧
      (data' = [] → data ++ it.index.tail.flatMap content = []) := by
  generalize hindex : it.index = index
  induction index generalizing it data with
  | nil =>
    rw [TwoLevelIterator.skipBlocks, h.delivers.dataCurrent_eq]
    cases data with
    | nil => exact ⟨[], ⟨h.reads, rfl⟩, by simp [setDataIterator, hindex], fun _ => rfl⟩
    | cons e data => exact ⟨e :: data, h, by simp [hindex], by simp⟩
  | cons i index ih =>
    rw [TwoLevelIterator.skipBlocks, h.delivers.dataCurrent_eq]
    cases data with
    | nil =>
      have hnext := ahead_initDataBlock { it with index } h.reads
      have hrest := ih hnext (by simp)
      dsimp only at hrest
      rw [flatMap_head_tail] at hrest
      exact hrest
    | cons e data => exact ⟨e :: data, h, by simp [hindex], by simp⟩

theorem Ahead.delivers_skip {l : List Entry} (h : it.Ahead content data)
    (hl : data ++ it.index.tail.flatMap content = l) : Delivers it.skipEmptyDataBlocksForward l := by
  induction l generalizing it data with
  | nil =>
    obtain ⟨data', ha, heq, -⟩ := h.skipBlocks
    rw [hl] at heq
    refine .nil (ha.delivers.dataCurrent_eq.trans ?_)
    rw [(List.append_eq_nil_iff.mp heq).1]
    rfl
  | cons e l ih =>
    obtain ⟨data', ha, heq, hnil⟩ := h.skipBlocks
    rw [hl] at heq hnil
    cases data' with
    | nil => exact absurd (hnil rfl) (List.cons_ne_nil _ _)
    | cons e' data' =>
      rw [List.cons_append, List.cons_eq_cons] at heq
      obtain ⟨rfl, heq⟩ := heq
      exact .cons ha.delivers.dataCurrent_eq (ih ⟨ha.reads, ha.delivers.next⟩ heq)

theorem delivers_seekToFirst (it : TwoLevelIterator ι δ)
    (hreads : ∀ i, Delivers (Cursor.seekToFirst (it.blockFunction i)) (content i)) :
    Delivers (Cursor.seekToFirst it) (it.indexEntries.flatMap content) := by
  have hstart := ahead_initDataBlock { it with index := it.indexEntries } hreads
  refine hstart.delivers_skip ?_
  rw [dataSeekToFirst_index, initDataBlock_index, flatMap_head_tail]

theorem skipBlocks_indexEntries (index : List ι) (it : TwoLevelIterator ι δ) :
    (skipBlocks index it).indexEntries = it.indexEntries := by
  induction index generalizing it with
  | nil =>
    rw [skipBlocks]
    split_ifs <;> rfl
  | cons i index ih =>
    rw [skipBlocks]
    split_ifs
    · rfl
    · rw [ih]
      exact initDataBlock_indexEntries _

theorem seekToFirst_indexEntries (it : TwoLevelIterator ι δ) :
    (Cursor.seekToFirst it).indexEntries = it.indexEntries :=
  (skipBlocks_indexEntries _ _).trans (initDataBlock_indexEntries _)

end TwoLevelIterator

end Delivery

section Readable

variable (io : FileAccess)

def FileAccess.blockEntries (number : ℕ) (ie : IndexEntry) : List Entry :=
  if (io.blockReader number ie).isOk then ie.block.entries else []

def FileMetaData.readableEntries (f : FileMetaData) : List Entry :=
  if (io.findTable f.number).isOk then
    f.table.index.entries.flatMap (io.blockEntries f.number)
  else
    []

def Version.readableLevel (v : Version) (level : ℕ) : List Entry :=
  (v.files level).flatMap (·.readableEntries io)

def Version.readableEntries (v : Version) : List Entry :=
  v.readableLevel io 0 ++ deepLevels.flatMap (v.readableLevel io)

def DB.readableEntries (db : DB) : List Entry :=
  db.mem.entries ++ (db.immEntries ++ db.version.readableEntries io)

theorem Table.blockIterator_delivers (number : ℕ) (ie : IndexEntry) :
    Delivers (Cursor.seekToFirst (Table.blockIterator io number ie)) (io.blockEntries number ie) := by
  unfold Table.blockIterator FileAccess.blockEntries
  split_ifs
  · exact BlockIterator.delivers _
  · exact BlockIterator.delivers _

theorem FileMetaData.newIterator_delivers (f : FileMetaData) :
    Delivers (Cursor.seekToFirst (f.newIterator io)) (f.readableEntries io) := by
  unfold newIterator readableEntries
  split_ifs
  · exact TwoLevelIterator.delivers_seekToFirst _ (Table.blockIterator_delivers io f.number)
  · exact TwoLevelIterator.delivers_seekToFirst (.ofError _ _)
      (Table.blockIterator_delivers io f.number)

theorem Version.newConcatenatingIterator_delivers (v : Version) (level : ℕ) :
    Delivers (Cursor.seekToFirst (v.newConcatenatingIterator io level)) (v.readableLevel io level) :=
  TwoLevelIterator.delivers_seekToFirst _ (FileMetaData.newIterator_delivers io)

theorem FileAccess.blockEntries_sublist (number : ℕ) (ie : IndexEntry) :
    (io.blockEntries number ie).Sublist ie.block.entries := by
  unfold blockEntries
  split_ifs
  · exact List.Sublist.refl _
  · exact List.nil_sublist _

theorem FileMetaData.readableEntries_sublist (f : FileMetaData) :
    (f.readableEntries io).Sublist f.entries := by
  unfold readableEntries
  split_ifs
  · exact List.Sublist.flatMap_right _ fun ie _ => io.blockEntries_sublist f.number ie
  · exact List.nil_sublist _

theorem Version.readableLevel_sublist (v : Version) (level : ℕ) :
    (v.readableLevel io level).Sublist (v.levelEntries level) :=
  List.Sublist.flatMap_right _ fun f _ => f.readableEntries_sublist io

theorem Version.readableEntries_sublist (v : Version) :
    (v.readableEntries io).Sublist v.entries :=
  (v.readableLevel_sublist io 0).append
    (List.Sublist.flatMap_right _ fun level _ => v.readableLevel_sublist io level)

theorem DB.readableEntries_sublist (db : DB) : (db.readableEntries io).Sublist db.entries :=
  (List.Sublist.refl _).append ((List.Sublist.refl _).append (db.version.readableEntries_sublist io))

theorem DB.readableEntries_healthy (hio : io.Healthy) (db : DB) :
    db.readableEntries io = db.entries := by
  have hblock : ∀ number, io.blockEntries number = fun ie => ie.block.entries := by
    intro number
    funext ie
    rw [FileAccess.blockEntries, hio.2, Status.isOk_ok, if_pos rfl]
  have hfile : ∀ f : FileMetaData, f.readableEntries io = f.entries := by
    intro f
    rw [FileMetaData.readableEntries, hio.1, Status.isOk_ok, if_pos rfl, hblock]
    rfl
  have hlevel : db.version.readableLevel io = db.version.levelEntries := by
    funext level
    simp only [Version.readableLevel, hfile]
    rfl
  rw [readableEntries, Version.readableEntries, hlevel]
  rfl

end Readable

section Standing

theorem MemTableIterator.next_eq {mem : MemTable} {e : Entry} {l : List Entry}
    (hn : mem.entries.Nodup) (h : e :: l <:+ mem.entries) :
    Cursor.next (MemTableIterator.mk mem (some e)) = ⟨mem, l.head?⟩ := by
  obtain ⟨before, hsplit⟩ := h
  rw [← hsplit, List.nodup_append] at hn
  have hskip : mem.entries.dropWhile (· ≠ e) = e :: l := by
    rw [← hsplit, List.dropWhile_append_of_pos]
    · simp
    · intro a ha
      exact decide_eq_true (hn.2.2 a ha e List.mem_cons_self)
  exact congrArg (MemTableIterator.mk mem) (by rw [Option.bind_some, hskip, List.tail_cons])

theorem MemTableIterator.delivers {mem : MemTable} {l : List Entry} (hn : mem.entries.Nodup)
    (h : l <:+ mem.entries) : Delivers (MemTableIterator.mk mem l.head?) l := by
  induction l with
  | nil => exact .nil rfl
  | cons e l ih =>
    refine .cons rfl ?_
    rw [List.head?_cons, next_eq hn h]
    exact ih (List.IsSuffix.trans (List.suffix_cons e l) h)

namespace InternalIterator

theorem entryCount_next (it : InternalIterator) : (Cursor.next it).entryCount = it.entryCount := by
  cases it with
  | memTable it => rfl
  | table it =>
    exact congrArg (fun l => (List.map _ l).sum) (TwoLevelIterator.skipBlocks_indexEntries _ _)
  | level it =>
    exact congrArg (fun l => (List.map _ l).sum) (TwoLevelIterator.skipBlocks_indexEntries _ _)

theorem entryCount_seekToFirst (it : InternalIterator) :
    (Cursor.seekToFirst it).entryCount = it.entryCount := by
  cases it with
  | memTable it => rfl
  | table it =>
    exact congrArg (fun l => (List.map _ l).sum) (TwoLevelIterator.seekToFirst_indexEntries it)
  | level it =>
    exact congrArg (fun l => (List.map _ l).sum) (TwoLevelIterator.seekToFirst_indexEntries it)

/-- An iterator with these entries ahead, no more than it counts. -/
structure Stands (it : InternalIterator) (l : List Entry) : Prop where
  delivers : Delivers it l
  length_le : l.length ≤ it.entryCount

theorem Stands.next {it : InternalIterator} {e : Entry} {l : List Entry} (h : it.Stands (e :: l)) :
    (Cursor.next it).Stands l := by
  refine ⟨h.delivers.next, ?_⟩
  have hlen := h.length_le
  rw [List.length_cons] at hlen
  rw [entryCount_next]
  omega

theorem memTable_stands {mem : MemTable} {l : List Entry} (hn : mem.entries.Nodup)
    (h : l <:+ mem.entries) : (memTable ⟨mem, l.head?⟩).Stands l :=
  ⟨(MemTableIterator.delivers hn h).map (f := memTable) (fun _ => rfl) fun _ => rfl, h.length_le⟩

theorem table_stands (io : FileAccess) (f : FileMetaData) :
    (Cursor.seekToFirst (table (f.newIterator io))).Stands (f.readableEntries io) := by
  refine ⟨(f.newIterator_delivers io).map (f := table) (fun _ => rfl) fun _ => rfl, ?_⟩
  have hlen := (f.readableEntries_sublist io).length_le
  rw [entryCount_seekToFirst, entryCount]
  by_cases hopen : (io.findTable f.number).isOk
  · rw [FileMetaData.newIterator, if_pos hopen]
    exact hlen.trans List.length_flatMap.le
  · rw [FileMetaData.readableEntries, if_neg hopen]
    exact Nat.zero_le _

theorem level_stands (io : FileAccess) (v : Version) (level : ℕ) :
    (Cursor.seekToFirst (InternalIterator.level (v.newConcatenatingIterator io level))).Stands
      (v.readableLevel io level) := by
  refine ⟨(v.newConcatenatingIterator_delivers io level).map (f := InternalIterator.level)
    (fun _ => rfl) fun _ => rfl, ?_⟩
  rw [entryCount_seekToFirst, entryCount]
  exact (v.readableLevel_sublist io level).length_le.trans List.length_flatMap.le

end InternalIterator

end Standing

end DVELevelDB
