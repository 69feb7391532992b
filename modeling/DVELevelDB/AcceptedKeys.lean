import DVELevelDB.BackgroundCompaction
import DVELevelDB.DVECLevelDB

/-! # The keys a comparator is asked to compare

Whatever happens to the files, the engine compares keys that it stores and keys that a call
hands it, and no others.
-/

namespace DVELevelDB

open VersionStore
open Stops (Ensures)

/-- A call ends in some way other than `fatalError`. -/
def NotFatal (t : Trap) : Prop := t ≠ .fatalError

/-- The comparator accepts the keys in `D`, and makes keys in `D` of them. -/
structure Comparator.AcceptsOn (c : Comparator) (D : Bytes → Prop) : Prop where
  compare : ∀ a b, D a → D b → Ensures NotFatal (c.compare a b) fun _ => True
  separator : ∀ a b, D a → D b → Ensures NotFatal (c.findShortestSeparator a b) D
  successor : ∀ a, D a → Ensures NotFatal (c.findShortSuccessor a) D

/-- All user keys of the entries are in `D`. -/
def KeysIn (D : Bytes → Prop) (entries : List Entry) : Prop := ∀ e ∈ entries, D e.key.userKey

structure FileMetaData.KeysIn (D : Bytes → Prop) (f : FileMetaData) : Prop where
  smallest : D f.smallest.userKey
  largest : D f.largest.userKey
  entries : DVELevelDB.KeysIn D f.entries
  index : ∀ ie ∈ f.table.index.entries, D ie.key.userKey

def FilesIn (D : Bytes → Prop) (files : List FileMetaData) : Prop := ∀ f ∈ files, f.KeysIn D

def Version.KeysIn (D : Bytes → Prop) (v : Version) : Prop := ∀ level, FilesIn D (v.files level)

/-- The records of a log record that is long enough for a batch. -/
def RecordIn (D : Bytes → Prop) (record : Bytes) : Prop :=
  ∀ r ∈ (WriteBatch.parse (record.drop kHeader)).1, D r.key

def LogFile.KeysIn (D : Bytes → Prop) (log : LogFile) : Prop :=
  ∀ record ∈ log.records, RecordIn D record

structure VersionEdit.KeysIn (D : Bytes → Prop) (edit : VersionEdit) : Prop where
  pointers : ∀ p ∈ edit.compactPointers, D p.2.userKey
  newFiles : ∀ x ∈ edit.newFiles, x.2.KeysIn D

def Manifest.KeysIn (D : Bytes → Prop) (manifest : Manifest) : Prop :=
  ∀ edit ∈ manifest.edits, edit.KeysIn D

/-- All keys of the database, those in its logs and its manifest included. -/
structure DB.KeysIn (D : Bytes → Prop) (db : DB) : Prop where
  mem : DVELevelDB.KeysIn D db.mem.entries
  imm : DVELevelDB.KeysIn D db.immEntries
  version : db.version.KeysIn D
  pointers : PointersIn D db.compactPointers
  log : db.log.KeysIn D
  oldLogs : ∀ log ∈ db.oldLogs, log.KeysIn D
  manifest : db.manifest.KeysIn D

/-- The keys that a search for `key` compares are in `D`. -/
def LooksUp (D : Bytes → Prop) (key : Bytes) : Prop :=
  ∀ s, Ensures NotFatal (LookupKey.make key s) fun lkey =>
    D lkey.userKey ∧ Ensures NotFatal lkey.memtableKey fun k => D k.userKey

section Lists

variable {D : Bytes → Prop}

theorem FilesIn.nil : FilesIn D [] := fun _ hf => absurd hf List.not_mem_nil

theorem FilesIn.cons {f : FileMetaData} {files : List FileMetaData} (hf : f.KeysIn D)
    (h : FilesIn D files) : FilesIn D (f :: files) := by
  intro g hg
  rcases List.mem_cons.mp hg with rfl | hg
  · exact hf
  · exact h g hg

theorem FilesIn.append {files files' : List FileMetaData} (h : FilesIn D files)
    (h' : FilesIn D files') : FilesIn D (files ++ files') := by
  intro g hg
  rcases List.mem_append.mp hg with hg | hg
  · exact h g hg
  · exact h' g hg

theorem FilesIn.subset {files files' : List FileMetaData} (h : FilesIn D files)
    (hsub : ∀ f ∈ files', f ∈ files) : FilesIn D files' :=
  fun f hf => h f (hsub f hf)

theorem FilesIn.head {f : FileMetaData} {files : List FileMetaData} (h : FilesIn D (f :: files)) :
    f.KeysIn D :=
  h f List.mem_cons_self

theorem FilesIn.tail {f : FileMetaData} {files : List FileMetaData} (h : FilesIn D (f :: files)) :
    FilesIn D files :=
  fun g hg => h g (List.mem_cons_of_mem _ hg)

theorem FilesIn.entries {files : List FileMetaData} (h : FilesIn D files) :
    KeysIn D (files.flatMap (·.entries)) := by
  intro e he
  obtain ⟨f, hf, hef⟩ := List.mem_flatMap.mp he
  exact (h f hf).entries e hef

theorem VersionEdit.KeysIn.empty : ({} : VersionEdit).KeysIn D :=
  ⟨fun _ hp => absurd hp List.not_mem_nil, fun _ hx => absurd hx List.not_mem_nil⟩

theorem Manifest.KeysIn.append {manifest : Manifest} (h : manifest.KeysIn D) {edit : VersionEdit}
    (he : edit.KeysIn D) {nextFileNumber lastSequence : ℕ} :
    Manifest.KeysIn D ⟨manifest.edits ++ [edit], nextFileNumber, lastSequence⟩ := by
  intro x hx
  rcases List.mem_append.mp hx with hx | hx
  · exact h x hx
  · obtain rfl := List.mem_singleton.mp hx
    exact he

theorem assertThat_notFatal (b : Bool) : Ensures NotFatal (assertThat b) fun _ => True := by
  cases b
  · intro h
    cases h
  · trivial

end Lists

section Search

variable {c : Comparator} {D : Bytes → Prop} (hc : c.AcceptsOn D)

include hc

theorem InternalKeyComparator.compare_accepts {a b : InternalKey} (ha : D a.userKey)
    (hb : D b.userKey) : Ensures NotFatal (compare c a b) fun _ => True :=
  (hc.compare _ _ ha hb).bind fun _ _ => trivial

theorem beforeKey_accepts {k key : InternalKey} (hk : D k.userKey) (hkey : D key.userKey) :
    Ensures NotFatal (beforeKey c k key) fun _ => True :=
  (InternalKeyComparator.compare_accepts hc hkey hk).bind fun _ _ => trivial

theorem findFile_accepts {files : List FileMetaData} (h : FilesIn D files) {key : InternalKey}
    (hk : D key.userKey) : Ensures NotFatal (findFile c files key) (FilesIn D) := by
  refine (BinarySearch.ensures_search fun f hf => ?_).mono fun rest hrest => h.subset hrest
  exact beforeKey_accepts hc hk (h f hf).largest

theorem afterFile_accepts {f : FileMetaData} (hf : f.KeysIn D) {userKey : Option Bytes}
    (hk : ∀ k ∈ userKey, D k) : Ensures NotFatal (afterFile c userKey f) fun _ => True := by
  cases userKey with
  | none => trivial
  | some k => exact (hc.compare _ _ (hk k rfl) hf.largest).bind fun _ _ => trivial

theorem beforeFile_accepts {f : FileMetaData} (hf : f.KeysIn D) {userKey : Option Bytes}
    (hk : ∀ k ∈ userKey, D k) : Ensures NotFatal (beforeFile c userKey f) fun _ => True := by
  cases userKey with
  | none => trivial
  | some k => exact (hc.compare _ _ (hk k rfl) hf.smallest).bind fun _ _ => trivial

theorem overlapsAny_accepts {files : List FileMetaData} (h : FilesIn D files)
    {smallest largest : Option Bytes} (hs : ∀ k ∈ smallest, D k) (hl : ∀ k ∈ largest, D k) :
    Ensures NotFatal (overlapsAny c smallest largest files) fun _ => True := by
  induction files with
  | nil => trivial
  | cons f files ih =>
    refine (afterFile_accepts hc h.head hs).bind fun after _ => ?_
    cases after
    · refine (beforeFile_accepts hc h.head hl).bind fun before _ => ?_
      cases before
      · trivial
      · exact ih h.tail
    · exact ih h.tail

theorem someFileOverlapsRange_accepts (disjoint : Bool) {files : List FileMetaData}
    (h : FilesIn D files) {smallest largest : Option Bytes} (hs : ∀ k ∈ smallest, D k)
    (hl : ∀ k ∈ largest, D k) :
    Ensures NotFatal (someFileOverlapsRange c disjoint files smallest largest) fun _ => True := by
  rw [someFileOverlapsRange]
  cases disjoint
  · exact overlapsAny_accepts hc h hs hl
  · have hrest : ∀ rest : List FileMetaData, FilesIn D rest →
        Ensures NotFatal (someFileOverlapsRange c true rest none largest) fun _ => True := by
      intro rest hr
      cases rest with
      | nil => trivial
      | cons f rest => exact (beforeFile_accepts hc hr.head hl).bind fun _ _ => trivial
    cases smallest with
    | none => exact hrest files h
    | some k =>
      have hpack : Ensures NotFatal (packSequenceAndType kMaxSequenceNumber kValueTypeForSeek)
          fun _ => True := by
        exact trivial
      refine Ensures.bind (Q := FilesIn D) ?_ hrest
      exact hpack.bind fun tag _ => findFile_accepts hc h (hs k rfl)

theorem withinFile_accepts {f : FileMetaData} (hf : f.KeysIn D) {userKey : Bytes}
    (hk : D userKey) : Ensures NotFatal (withinFile c userKey f) fun _ => True := by
  refine (hc.compare _ _ hk hf.smallest).bind fun o _ => ?_
  split_ifs
  · exact (hc.compare _ _ hk hf.largest).bind fun _ _ => trivial
  · trivial

section Overlapping

variable {ρ : Type} {func : FileMetaData → Exec (Option ρ)}
  (hfunc : ∀ f, f.KeysIn D → Ensures NotFatal (func f) fun _ => True)

include hfunc

omit hc in
theorem firstMatch_accepts {files : List FileMetaData} (h : FilesIn D files) :
    Ensures NotFatal (firstMatch func files) fun _ => True := by
  induction files with
  | nil => trivial
  | cons f files ih =>
    refine (hfunc f h.head).bind fun r _ => ?_
    cases r with
    | none => exact ih h.tail
    | some r => trivial

variable {v : Version} {userKey : Bytes} {key : InternalKey}

theorem searchLevel_accepts (h : v.KeysIn D) (hk : D userKey) (hkey : D key.userKey) (level : ℕ) :
    Ensures NotFatal (v.searchLevel c userKey key func level) fun _ => True := by
  refine (findFile_accepts hc (h level) hkey).bind fun rest hrest => ?_
  cases rest with
  | nil => trivial
  | cons f rest =>
    refine (hc.compare _ _ hk hrest.head.smallest).bind fun o _ => ?_
    split_ifs
    · trivial
    · exact hfunc f hrest.head

theorem searchLevels_accepts (h : v.KeysIn D) (hk : D userKey) (hkey : D key.userKey)
    (levels : List ℕ) :
    Ensures NotFatal (v.searchLevels c userKey key func levels) fun _ => True := by
  induction levels with
  | nil => trivial
  | cons level levels ih =>
    refine (searchLevel_accepts hc hfunc h hk hkey level).bind fun r _ => ?_
    cases r with
    | none => exact ih
    | some r => trivial

theorem forEachOverlapping_accepts (h : v.KeysIn D) (hk : D userKey) (hkey : D key.userKey) :
    Ensures NotFatal (v.forEachOverlapping c userKey key func) fun _ => True := by
  have hkeep : Ensures NotFatal (Stops.keep (withinFile c userKey) (v.files 0))
      fun tmp => ∀ f ∈ tmp, f ∈ v.files 0 :=
    Stops.ensures_keep fun f hf => withinFile_accepts hc (h 0 f hf) hk
  refine hkeep.bind fun tmp htmp => ?_
  have hsorted : FilesIn D (tmp.mergeSort newestFirst) := by
    apply (h 0).subset
    intro f hf
    exact htmp f ((List.mergeSort_perm _ _).mem_iff.mp hf)
  refine (firstMatch_accepts hfunc hsorted).bind fun r _ => ?_
  cases r with
  | none => exact searchLevels_accepts hc hfunc h hk hkey Version.deepLevels
  | some r => trivial

end Overlapping

theorem saveValue_accepts {userKey : Bytes} {e : Entry} (hk : D userKey) (he : D e.key.userKey) :
    Ensures NotFatal (saveValue c userKey e) fun _ => True := by
  rw [saveValue, parseInternalKey]
  split_ifs
  · refine (hc.compare _ _ he hk).bind fun o _ => ?_
    split_ifs <;> trivial
  · trivial

theorem Table.internalGet_accepts {f : FileMetaData} (hf : f.KeysIn D) (io : FileAccess)
    (number : ℕ) {key : InternalKey} (hk : D key.userKey) :
    Ensures NotFatal (Table.internalGet c io number f.table key) fun _ => True := by
  have hindex : Ensures NotFatal (f.table.seekIndex c key)
      fun ie => ∀ x ∈ ie, x ∈ f.table.index.entries := by
    refine (BinarySearch.ensures_searchRestarts fun ie hie => ?_).bind fun rest hrest => ?_
    · exact beforeKey_accepts hc hk (hf.index ie hie)
    · intro ie hie
      exact hrest ie (List.mem_of_mem_head? hie)
  refine hindex.bind fun ie hie => ?_
  cases ie with
  | none => trivial
  | some ie =>
    have hentries : KeysIn D ie.block.entries := by
      intro e he
      exact hf.entries e (List.mem_flatMap.mpr ⟨ie, hie ie rfl, he⟩)
    have hblock : Ensures NotFatal (Table.seekBlock c ie.block key)
        fun e => ∀ x ∈ e, D x.key.userKey := by
      refine (BinarySearch.ensures_searchRestarts fun e he => ?_).bind fun rest hrest => ?_
      · exact beforeKey_accepts hc hk (hentries e he)
      · intro e he
        exact hentries e (hrest e (List.mem_of_mem_head? he))
    dsimp only
    split_ifs
    · refine hblock.bind fun e he => ?_
      cases e with
      | none => trivial
      | some e => exact (saveValue_accepts hc hk (he e rfl)).bind fun _ _ => trivial
    · trivial
    · trivial

theorem Version.get_accepts {v : Version} (h : v.KeysIn D) (io : FileAccess) {key : LookupKey}
    (hk : D key.userKey) : Ensures NotFatal (v.get c io key) fun _ => True := by
  have hmatch : ∀ f : FileMetaData, f.KeysIn D →
      Ensures NotFatal (matchFile c io key f) fun _ => True := by
    intro f hf
    have hget : Ensures NotFatal (f.table.get c io f.number key.internalKey) fun _ => True := by
      rw [Table.get]
      split_ifs
      · exact Table.internalGet_accepts hc hf io f.number hk
      · trivial
    refine hget.bind fun r _ => ?_
    obtain ⟨s, saver⟩ := r
    dsimp only
    split_ifs
    · cases saver <;> trivial
    · trivial
  refine (forEachOverlapping_accepts hc hmatch h hk hk).bind fun r _ => ?_
  cases r <;> trivial

theorem MemTable.get_accepts {mem : MemTable} (h : KeysIn D mem.entries) {key : LookupKey}
    (hk : D key.userKey) (hmem : Ensures NotFatal key.memtableKey fun k => D k.userKey) :
    Ensures NotFatal (mem.get c key) fun _ => True := by
  have hseek : Ensures NotFatal (mem.seek c key) fun e => ∀ x ∈ e, D x.key.userKey := by
    have hafter : ∀ e ∈ mem.table.keys, Ensures NotFatal (do
        return (← InternalKeyComparator.compare c e.key (← key.memtableKey)) == .lt)
        fun _ => True := by
      intro e he
      refine hmem.bind fun k hk => ?_
      exact (InternalKeyComparator.compare_accepts hc (h e he) hk).bind fun _ _ => trivial
    refine (SkipList.ensures_findGreaterOrEqual hafter).bind fun rest hrest => ?_
    intro e he
    obtain ⟨n, hn, rfl⟩ := Option.map_eq_some_iff.mp he
    exact h n.key (List.mem_map_of_mem (hrest n (List.mem_of_mem_head? hn)))
  refine hseek.bind fun e he => ?_
  cases e with
  | none => trivial
  | some e =>
    refine (hc.compare _ _ (he e rfl) hk).bind fun o _ => ?_
    split_ifs <;> trivial

omit hc in
/-- A key of a length that the memtable reads back as it is. -/
theorem LooksUp.of_storable {key : Bytes} (hk : D key) (hs : StorableKey key) : LooksUp D key := by
  intro s
  by_cases hmax : s ≤ kMaxSequenceNumber
  · rw [LookupKey.make_eq hmax]
    refine ⟨hk, ?_⟩
    have htag : s * 256 + 1 < 2 ^ 64 := seekTag_lt hmax
    rw [LookupKey.memtableKey_eq ⟨key, s * 256 + 1⟩ hs htag]
    exact hk
  · rw [LookupKey.make, packSequenceAndType, decide_eq_false hmax]
    intro h
    cases h

theorem DB.get_accepts {db : DB} (h : db.KeysIn D) (io : FileAccess) (snapshot : Option ℕ)
    {key : Bytes} (hk : LooksUp D key) :
    Ensures NotFatal (db.get c io snapshot key) fun _ => True := by
  refine (hk _).bind fun lkey hlkey => ?_
  have hversion := Version.get_accepts hc h.version io hlkey.1
  refine (MemTable.get_accepts hc h.mem hlkey.1 hlkey.2).bind fun r _ => ?_
  cases r with
  | some r => trivial
  | none =>
    have himm := h.imm
    unfold immEntries at himm
    cases hi : db.imm with
    | none => exact hversion
    | some imm =>
      rw [hi] at himm
      refine (MemTable.get_accepts hc himm hlkey.1 hlkey.2).bind fun r _ => ?_
      cases r with
      | some r => trivial
      | none => exact hversion

omit hc in
theorem createFromLevelDBStatus_notFatal (s : Status) :
    Ensures NotFatal (createFromLevelDBStatus s) fun _ => True := by
  cases s with
  | ok => trivial
  | error code state =>
    rw [createFromLevelDBStatus]
    split
    · trivial
    · intro h
      cases h

theorem LevelDB.value_accepts {db : DB} (h : db.KeysIn D) (io : FileAccess) (snapshot : Option ℕ)
    {key : Bytes} (hk : LooksUp D key) :
    Ensures NotFatal (LevelDB.value c io snapshot key db) fun _ => True := by
  have hdata : Ensures NotFatal (DVECLevelDB.dataForKey c io snapshot key db) fun _ => True := by
    refine (DB.get_accepts hc h io snapshot hk).bind fun r _ => ?_
    cases r with
    | ok value => trivial
    | error s =>
      refine (createFromLevelDBStatus_notFatal s).bind fun e _ => ?_
      cases e <;> trivial
  refine hdata.bind fun r _ => ?_
  cases r with
  | ok data => trivial
  | error e =>
    dsimp only
    split_ifs <;> trivial

end Search

section Building

variable {o : Options} {D : Bytes → Prop} (hc : o.comparator.AcceptsOn D)

/-- All keys that a table builder has got so far. -/
structure TableBuilder.KeysIn (D : Bytes → Prop) (b : TableBuilder) : Prop where
  data : DVELevelDB.KeysIn D b.dataBlock
  index : ∀ ie ∈ b.indexBlock, D ie.key.userKey ∧ DVELevelDB.KeysIn D ie.block.entries
  lastKey : ∀ key ∈ b.lastKey, D key.userKey
  pending : ∀ p ∈ b.pending, DVELevelDB.KeysIn D p.2.entries

theorem TableBuilder.KeysIn.empty : TableBuilder.empty.KeysIn D := by
  constructor <;> simp [TableBuilder.empty, DVELevelDB.KeysIn]

theorem TableBuilder.KeysIn.flush {b : TableBuilder} (h : b.KeysIn D) : (b.flush o).KeysIn D := by
  unfold TableBuilder.flush
  split_ifs
  · exact h
  · refine ⟨fun e he => absurd he List.not_mem_nil, h.index, h.lastKey, ?_⟩
    intro p hp
    obtain rfl := Option.some.inj hp
    exact h.data

include hc

theorem InternalKeyComparator.findShortestSeparator_accepts {start limit : InternalKey}
    (hs : D start.userKey) (hl : D limit.userKey) :
    Ensures NotFatal (findShortestSeparator o.comparator start limit) fun key => D key.userKey := by
  refine (hc.separator _ _ hs hl).bind fun tmp htmp => ?_
  split_ifs
  · refine (hc.compare _ _ hs htmp).bind fun r _ => ?_
    split_ifs
    · have hpack : Ensures NotFatal (packSequenceAndType kMaxSequenceNumber kValueTypeForSeek)
          fun _ => True := trivial
      refine hpack.bind fun tag _ => ?_
      refine (compare_accepts hc hs htmp).bind fun r _ => ?_
      refine (assertThat_notFatal _).bind fun _ _ => ?_
      refine (compare_accepts hc htmp hl).bind fun r _ => ?_
      exact (assertThat_notFatal _).bind fun _ _ => htmp
    · exact hs
  · exact hs

theorem InternalKeyComparator.findShortSuccessor_accepts {key : InternalKey}
    (hk : D key.userKey) :
    Ensures NotFatal (findShortSuccessor o.comparator key) fun key => D key.userKey := by
  refine (hc.successor _ hk).bind fun tmp htmp => ?_
  split_ifs
  · refine (hc.compare _ _ hk htmp).bind fun r _ => ?_
    split_ifs
    · have hpack : Ensures NotFatal (packSequenceAndType kMaxSequenceNumber kValueTypeForSeek)
          fun _ => True := trivial
      refine hpack.bind fun tag _ => ?_
      refine (compare_accepts hc hk htmp).bind fun r _ => ?_
      exact (assertThat_notFatal _).bind fun _ _ => htmp
    · exact hk
  · exact hk

theorem assertAscending_accepts {last : Option InternalKey} {key : InternalKey}
    (hl : ∀ k ∈ last, D k.userKey) (hk : D key.userKey) :
    Ensures NotFatal (assertAscending o.comparator last key) fun _ => True := by
  cases last with
  | none => trivial
  | some last =>
    refine (InternalKeyComparator.compare_accepts hc hk (hl last rfl)).bind fun r _ => ?_
    exact assertThat_notFatal _

theorem blockBuilderAdd_accepts {α : Type} {key : α → InternalKey} {block : List α} {a : α}
    (hb : ∀ x ∈ block, D (key x).userKey) (ha : D (key a).userKey) :
    Ensures NotFatal (blockBuilderAdd o.comparator key block a) fun block' =>
      block' = block ++ [a] := by
  have hlast : ∀ k ∈ block.getLast?.map key, D k.userKey := by
    intro k hk
    obtain ⟨x, hx, rfl⟩ := Option.map_eq_some_iff.mp hk
    exact hb x (List.mem_of_getLast? hx)
  exact (assertAscending_accepts hc hlast ha).bind fun _ _ => rfl

namespace TableBuilder

theorem addPending_accepts {b : TableBuilder} (h : b.KeysIn D)
    {shorten : InternalKey → Exec InternalKey}
    (hs : ∀ key : InternalKey, D key.userKey →
      Ensures NotFatal (shorten key) fun key => D key.userKey) :
    Ensures NotFatal (b.addPending o shorten) (KeysIn D) := by
  unfold addPending
  split
  · rename_i offset block lastKey hp hl
    have hblock := h.pending _ hp
    refine (hs lastKey (h.lastKey _ hl)).bind fun key hkey => ?_
    refine (blockBuilderAdd_accepts hc (fun ie hie => (h.index ie hie).1) hkey).bind ?_
    rintro index rfl
    refine ⟨h.data, ?_, h.lastKey, fun p hp => by cases hp⟩
    intro ie hie
    rcases List.mem_append.mp hie with hie | hie
    · exact h.index ie hie
    · obtain rfl := List.mem_singleton.mp hie
      exact ⟨hkey, hblock⟩
  · exact h

theorem add_accepts {b : TableBuilder} (h : b.KeysIn D) {e : Entry} (he : D e.key.userKey) :
    Ensures NotFatal (b.add o e) (KeysIn D) := by
  refine (assertAscending_accepts hc h.lastKey he).bind fun _ _ => ?_
  have hpending := addPending_accepts hc h fun last hl =>
    InternalKeyComparator.findShortestSeparator_accepts hc hl he
  refine hpending.bind fun b' h' => ?_
  refine (blockBuilderAdd_accepts hc h'.data he).bind ?_
  rintro data rfl
  have hadded : KeysIn D { b' with lastKey := some e.key, dataBlock := b'.dataBlock ++ [e] } := by
    refine ⟨?_, h'.index, ?_, h'.pending⟩
    · intro x hx
      rcases List.mem_append.mp hx with hx | hx
      · exact h'.data x hx
      · obtain rfl := List.mem_singleton.mp hx
        exact he
    · intro key hkey
      obtain rfl := Option.some.inj hkey
      exact he
  dsimp only
  split_ifs
  · exact hadded.flush
  · exact hadded

end TableBuilder

theorem buildTable_accepts (number : ℕ) {first : Entry} {rest : List Entry}
    (h : KeysIn D (first :: rest)) :
    Ensures NotFatal (buildTable o number first rest) (FileMetaData.KeysIn D) := by
  have hfold : Ensures NotFatal ((first :: rest).foldlM (TableBuilder.add o) .empty)
      (TableBuilder.KeysIn D) :=
    Stops.ensures_foldlM TableBuilder.KeysIn.empty
      fun b hb e he => TableBuilder.add_accepts hc hb (h e he)
  refine hfold.bind fun b hb => ?_
  have hfinish : Ensures NotFatal (b.finish o) fun table => KeysIn D table.entries ∧
      ∀ ie ∈ table.index.entries, D ie.key.userKey := by
    have hpending := TableBuilder.addPending_accepts hc (hb.flush (o := o)) fun last hl =>
      InternalKeyComparator.findShortSuccessor_accepts hc hl
    refine hpending.bind fun b' h' => ⟨?_, fun ie hie => (h'.index ie hie).1⟩
    intro e he
    obtain ⟨ie, hie, hei⟩ := List.mem_flatMap.mp he
    exact (h'.index ie hie).2 e hei
  refine hfinish.bind fun table ht => ?_
  exact ⟨h first List.mem_cons_self, h _ (List.getLast_mem _), ht.1, ht.2⟩

end Building

section Versions

variable {c : Comparator} {D : Bytes → Prop} (hc : c.AcceptsOn D) {v : Version}
  {files : List FileMetaData}

include hc

section Overlaps

variable {userBegin userEnd : Option Bytes}

theorem overlappingPass_test_accepts {bound : Option Bytes} (hb : ∀ k ∈ bound, D k) {key : Bytes}
    (hk : D key) (o : Ordering) :
    Ensures NotFatal (overlappingPass.test c bound key o) fun _ => True := by
  cases bound with
  | none => trivial
  | some k => exact (hc.compare _ _ hk (hb k rfl)).bind fun _ _ => trivial

theorem overlappingPass_accepts (level : ℕ) {inputs : List FileMetaData} (hi : FilesIn D inputs)
    (h : FilesIn D files) (hb : ∀ k ∈ userBegin, D k) (he : ∀ k ∈ userEnd, D k) :
    Ensures NotFatal (overlappingPass c level userBegin userEnd inputs files) fun r =>
      match r with
      | .inl inputs => FilesIn D inputs
      | .inr (userBegin, userEnd) => (∀ k ∈ userBegin, D k) ∧ ∀ k ∈ userEnd, D k := by
  induction files generalizing inputs with
  | nil => exact hi
  | cons f files ih =>
    have hf := h.head
    have hskip := ih hi h.tail
    have htake := ih (hi.append (FilesIn.nil.cons hf)) h.tail
    refine (overlappingPass_test_accepts hc hb hf.largest .lt).bind fun b _ => ?_
    cases b
    · refine (overlappingPass_test_accepts hc he hf.smallest .gt).bind fun b _ => ?_
      cases b
      · simp only [Bool.false_eq_true, if_false]
        split_ifs
        · refine (overlappingPass_test_accepts hc hb hf.smallest .lt).bind fun b _ => ?_
          cases b
          · refine (overlappingPass_test_accepts hc he hf.largest .gt).bind fun b _ => ?_
            cases b
            · exact htake
            · refine ⟨hb, ?_⟩
              rintro k ⟨⟩
              exact hf.largest
          · refine ⟨?_, he⟩
            rintro k ⟨⟩
            exact hf.smallest
        · exact htake
      · exact hskip
    · exact hskip

theorem overlappingPasses_accepts (level n : ℕ) (h : FilesIn D files) (hb : ∀ k ∈ userBegin, D k)
    (he : ∀ k ∈ userEnd, D k) :
    Ensures NotFatal (overlappingPasses c level files n userBegin userEnd) (FilesIn D) := by
  induction n generalizing userBegin userEnd with
  | zero => exact h
  | succ n ih =>
    refine (overlappingPass_accepts hc level FilesIn.nil h hb he).bind fun r hr => ?_
    match r, hr with
    | .inl inputs, hr => exact hr
    | .inr (userBegin, userEnd), hr => exact ih hr.1 hr.2

theorem Version.getOverlappingInputs_accepts (h : v.KeysIn D) (level : ℕ)
    (hb : ∀ k ∈ userBegin, D k) (he : ∀ k ∈ userEnd, D k) :
    Ensures NotFatal (v.getOverlappingInputs c level userBegin userEnd) (FilesIn D) :=
  (assertThat_notFatal _).bind fun _ _ => overlappingPasses_accepts hc level _ (h level) hb he

theorem Version.overlapInLevel_accepts (h : v.KeysIn D) (level : ℕ)
    (hb : ∀ k ∈ userBegin, D k) (he : ∀ k ∈ userEnd, D k) :
    Ensures NotFatal (v.overlapInLevel c level userBegin userEnd) fun _ => True :=
  someFileOverlapsRange_accepts hc _ (h level) hb he

end Overlaps

section Save

variable {f g : FileMetaData}

theorem bySmallestKey_accepts (hf : f.KeysIn D) (hg : g.KeysIn D) :
    Ensures NotFatal (bySmallestKey c f g) fun _ => True :=
  (InternalKeyComparator.compare_accepts hc hf.smallest hg.smallest).bind fun _ _ => trivial

theorem insertFile_accepts (hf : f.KeysIn D) (h : FilesIn D files) :
    Ensures NotFatal (insertFile c f files) (FilesIn D) := by
  induction files with
  | nil => exact FilesIn.nil.cons hf
  | cons g files ih =>
    refine (bySmallestKey_accepts hc hf h.head).bind fun b _ => ?_
    cases b
    · refine (bySmallestKey_accepts hc h.head hf).bind fun b _ => ?_
      cases b
      · exact h
      · exact (ih h.tail).bind fun files' h' => h'.cons h.head
    · exact h.cons hf

theorem maybeAddFile_accepts (level : ℕ) (deleted : List ℕ) (h : FilesIn D files)
    (hf : f.KeysIn D) :
    Ensures NotFatal (maybeAddFile c level deleted files f) (FilesIn D) := by
  have hadded : FilesIn D (files ++ [f]) := h.append (FilesIn.nil.cons hf)
  rw [maybeAddFile]
  split_ifs
  · exact h
  · cases hl : files.getLast? with
    | none => exact hadded
    | some last =>
      have hlast := h last (List.mem_of_getLast? hl)
      refine (InternalKeyComparator.compare_accepts hc hlast.largest hf.smallest).bind fun r _ => ?_
      exact (assertThat_notFatal _).bind fun _ _ => hadded
  · exact hadded

theorem saveLevel_accepts (level : ℕ) (deleted : List ℕ) {base added : List FileMetaData}
    (h : FilesIn D files) (hb : FilesIn D base) (ha : FilesIn D added) :
    Ensures NotFatal (saveLevel c level deleted files base added) (FilesIn D) := by
  have hfold : ∀ {files base : List FileMetaData}, FilesIn D files → FilesIn D base →
      Ensures NotFatal (base.foldlM (maybeAddFile c level deleted) files) (FilesIn D) :=
    fun h hb => Stops.ensures_foldlM h fun files' h' f hf =>
      maybeAddFile_accepts hc level deleted h' (hb f hf)
  induction added generalizing files base with
  | nil => exact hfold h hb
  | cons f added ih =>
    have hsearch : Ensures NotFatal
        (BinarySearch.search (fun g => do return !(← bySmallestKey c f g)) base)
        fun rest => ∀ g ∈ rest, g ∈ base :=
      BinarySearch.ensures_search fun g hg =>
        (bySmallestKey_accepts hc ha.head (hb g hg)).bind fun _ _ => trivial
    refine hsearch.bind fun rest hrest => ?_
    have htaken : FilesIn D (base.take (base.length - rest.length)) :=
      hb.subset fun g hg => List.mem_of_mem_take hg
    refine (hfold h htaken).bind fun files₁ h₁ => ?_
    refine (maybeAddFile_accepts hc level deleted h₁ ha.head).bind fun files₂ h₂ => ?_
    exact ih h₂ (hb.subset hrest) ha.tail

theorem checkDisjoint_accepts (h : FilesIn D files) :
    Ensures NotFatal (checkDisjoint c files) fun _ => True := by
  induction files with
  | nil => trivial
  | cons f files ih =>
    cases files with
    | nil => trivial
    | cons g files =>
      refine (InternalKeyComparator.compare_accepts hc h.head.largest h.tail.head.smallest).bind
        fun r _ => ?_
      exact (assertThat_notFatal _).bind fun _ _ => ih h.tail

variable {edit : VersionEdit}

theorem saveLevelTo_accepts (he : edit.KeysIn D) (h : v.KeysIn D)
    (level : ℕ) : Ensures NotFatal (saveLevelTo c edit v level) (FilesIn D) := by
  have hadded : Ensures NotFatal ((edit.newFiles.filter (·.1 = level)).foldlM
      (fun set f => insertFile c f.2 set) []) (FilesIn D) :=
    Stops.ensures_foldlM FilesIn.nil fun files' h' x hx =>
      insertFile_accepts hc (he.newFiles x (List.mem_of_mem_filter hx)) h'
  refine hadded.bind fun added ha => ?_
  refine (saveLevel_accepts hc level _ FilesIn.nil (h level) ha).bind fun files hf => ?_
  split_ifs
  · exact (checkDisjoint_accepts hc hf).bind fun _ _ => hf
  · exact hf

theorem saveTo_accepts (he : edit.KeysIn D) (h : v.KeysIn D) :
    Ensures NotFatal (saveTo c edit v) (Version.KeysIn D) := by
  have hlevels : ∀ levels : List ℕ, Ensures NotFatal (saveLevels c edit v levels)
      fun l => ∀ files ∈ l, FilesIn D files := by
    intro levels
    induction levels with
    | nil => exact fun files hf => absurd hf List.not_mem_nil
    | cons level levels ih =>
      refine (saveLevelTo_accepts hc he h level).bind fun files hf => ?_
      refine ih.bind fun rest hrest => ?_
      intro files' hf'
      rcases List.mem_cons.mp hf' with rfl | hf'
      · exact hf
      · exact hrest files' hf'
  refine (hlevels _).bind fun levels hl => ?_
  intro level
  change FilesIn D (levels.getD level [])
  rw [List.getD_eq_getElem?_getD]
  cases hget : levels[level]? with
  | none => exact FilesIn.nil
  | some files => exact hl files (List.mem_of_getElem? hget)

end Save

end Versions

section Write

variable {o : Options} {D : Bytes → Prop} (hc : o.comparator.AcceptsOn D) {db : DB}

theorem KeysIn.nil : KeysIn D [] := fun _ he => absurd he List.not_mem_nil

include hc

theorem pickLevel_accepts {v : Version} (h : v.KeysIn D) {smallest largest : Bytes}
    (hs : D smallest) (hl : D largest) :
    Ensures NotFatal (v.pickLevelForMemTableOutput o smallest largest) fun _ => True := by
  have hsmallest : ∀ k ∈ some smallest, D k := by
    rintro k ⟨⟩
    exact hs
  have hlargest : ∀ k ∈ some largest, D k := by
    rintro k ⟨⟩
    exact hl
  have hloop : ∀ n level, Ensures NotFatal (pickLevelLoop o v smallest largest n level)
      fun _ => True := by
    intro n
    induction n with
    | zero => exact fun level => trivial
    | succ n ih =>
      intro level
      have hoverlap := Version.overlapInLevel_accepts hc h (level + 1) hsmallest hlargest
      refine hoverlap.bind fun b _ => ?_
      split_ifs
      · trivial
      · have hinputs := Version.getOverlappingInputs_accepts hc h (level + 2) hsmallest hlargest
        refine hinputs.bind fun overlaps _ => ?_
        split_ifs
        · trivial
        · exact ih (level + 1)
      · exact ih (level + 1)
  refine (Version.overlapInLevel_accepts hc h 0 hsmallest hlargest).bind fun b _ => ?_
  split_ifs
  · trivial
  · exact hloop _ _

theorem MemTable.add_accepts {mem : MemTable} (h : KeysIn D mem.entries) (s type : ℕ)
    {key : Bytes} (hk : D key) (value : Bytes) :
    Ensures NotFatal (mem.add o.comparator s type key value) fun mem' => KeysIn D mem'.entries := by
  refine (assertThat_notFatal _).bind fun _ _ => ?_
  obtain ⟨height, rnd⟩ := randomHeight (kMaxHeight - 1) ⟨1, Nat.one_pos⟩ mem.rnd
  let entry : Entry := ⟨⟨key, (s <<< 8 ||| type) % 2 ^ 64⟩, value⟩
  have hinsert : Ensures NotFatal
      (mem.table.insert (compareEntries o.comparator) .assertion entry height)
      fun table => ∀ k ∈ table.keys, k = entry ∨ k ∈ mem.table.keys := by
    refine SkipList.ensures_insert nofun ?_ ?_
    · exact fun e he => InternalKeyComparator.compare_accepts hc (h e he) hk
    · exact fun e he => InternalKeyComparator.compare_accepts hc hk (h e he)
  refine hinsert.bind fun table htable => ?_
  intro e he
  rcases htable e he with rfl | he
  · exact hk
  · exact h e he

theorem insertInto_accepts {b : WriteBatch} (hb : ∀ r ∈ b.records, D r.key) {mem : MemTable}
    (h : KeysIn D mem.entries) :
    Ensures NotFatal (b.insertInto o.comparator mem) fun r => KeysIn D r.2.entries := by
  have hhandle : ∀ s : ℕ × MemTable, KeysIn D s.2.entries → ∀ r ∈ b.records,
      Ensures NotFatal (WriteBatch.handle (MemTable.inserterPut o.comparator)
        (MemTable.inserterDelete o.comparator) s r) fun s' => KeysIn D s'.2.entries := by
    intro s hs r hr
    cases r with
    | put key value =>
      exact (MemTable.add_accepts hc hs _ _ (hb _ hr) value).bind fun _ hmem => hmem
    | delete key => exact (MemTable.add_accepts hc hs _ _ (hb _ hr) []).bind fun _ hmem => hmem
  rw [MemTable.insertInto_eq_fold]
  refine (Stops.ensures_foldlM (I := fun s => KeysIn D s.2.entries) h hhandle).bind fun s hs => ?_
  exact hs

theorem writeLevel0Table_accepts (io : DB.FlushEvent) (number : ℕ) {imm : MemTable}
    (h : KeysIn D imm.entries) {base : Version} (hbase : base.KeysIn D) :
    Ensures NotFatal (DB.writeLevel0Table o io number imm base) fun r => r.1.KeysIn D := by
  unfold DB.writeLevel0Table
  cases hl : imm.entries with
  | nil => exact .empty
  | cons first rest =>
    refine (buildTable_accepts hc number (hl ▸ h)).bind fun f hf => ?_
    split_ifs
    · refine (pickLevel_accepts hc hbase hf.smallest hf.largest).bind fun level _ => ?_
      refine ⟨fun _ hp => absurd hp List.not_mem_nil, fun x hx => ?_⟩
      obtain rfl := List.mem_singleton.mp hx
      exact hf
    · exact .empty

omit hc in
theorem DB.KeysIn.recordBackgroundError (h : db.KeysIn D) (s : Status) :
    (db.recordBackgroundError s).KeysIn D := by
  unfold DB.recordBackgroundError
  split_ifs
  · exact ⟨h.mem, h.imm, h.version, h.pointers, h.log, h.oldLogs, h.manifest⟩
  · exact h

theorem compactImm_accepts (h : db.KeysIn D) (io : DB.FlushEvent) {imm : MemTable}
    (himm : db.imm = some imm) : Ensures NotFatal (DB.compactImm o io imm db) (DB.KeysIn D) := by
  have hentries : KeysIn D imm.entries := by
    have := h.imm
    rwa [DB.immEntries, himm] at this
  have hnumber : ({ db with nextFileNumber := db.nextFileNumber + 1 } : DB).KeysIn D :=
    ⟨h.mem, h.imm, h.version, h.pointers, h.log, h.oldLogs, h.manifest⟩
  refine (writeLevel0Table_accepts hc io _ hentries h.version).bind fun r hr => ?_
  obtain ⟨edit, s⟩ := r
  dsimp only
  by_cases hs : s.isOk
  · rw [if_pos hs]
    refine (assertThat_notFatal _).bind fun _ _ => ?_
    refine (assertThat_notFatal _).bind fun _ _ => ?_
    refine (saveTo_accepts hc hr h.version).bind fun version hv => ?_
    by_cases ha : io.apply.isOk
    · rw [if_pos ha]
      exact ⟨h.mem, KeysIn.nil, hv, h.pointers, h.log, fun log hlog => absurd hlog List.not_mem_nil,
        h.manifest.append hr⟩
    · rw [if_neg ha]
      exact hnumber.recordBackgroundError _
  · rw [if_neg hs]
    exact hnumber.recordBackgroundError _

end Write

end DVELevelDB
