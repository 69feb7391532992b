import DVELevelDB.VersionEdit

/-! # The engine database: reads, writes and memtable compactions -/

namespace DVELevelDB

open VersionStore

structure LogFile where
  number : ℕ
  records : List Bytes
  deriving DecidableEq, Repr

/-- The records of the manifest, and the counters in the last of them. -/
structure Manifest where
  edits : List VersionEdit
  nextFileNumber : ℕ
  lastSequence : ℕ

/-- The state of `DBImpl`; `logNumber` is the oldest log a recovery replays. The oldest snapshot
comes first. -/
structure DB where
  mem : MemTable
  imm : Option MemTable
  version : Version
  compactPointers : ℕ → Option InternalKey
  lastSequence : ℕ
  snapshots : List ℕ
  bgError : Status
  nextFileNumber : ℕ
  log : LogFile
  oldLogs : List LogFile
  logNumber : ℕ
  manifest : Manifest

namespace DB

/-- The oldest sequence number that a reader may ask for. -/
def smallestSnapshot (db : DB) : ℕ := db.snapshots.head?.getD db.lastSequence

def getSnapshot (db : DB) : DB := { db with snapshots := db.snapshots ++ [db.lastSequence] }

def releaseSnapshot (snapshot : ℕ) (db : DB) : DB :=
  { db with snapshots := db.snapshots.erase snapshot }

def recordEdit (edit : VersionEdit) (db : DB) : Manifest :=
  ⟨db.manifest.edits ++ [edit], db.nextFileNumber, db.lastSequence⟩

def immEntries (db : DB) : List Entry :=
  match db.imm with
  | some imm => imm.entries
  | none => []

def entries (db : DB) : List Entry := db.mem.entries ++ (db.immEntries ++ db.version.entries)

section Get

variable (c : Comparator)

def get (io : FileAccess) (db : DB) (snapshot : Option ℕ) (key : Bytes) :
    Exec (Except Status Bytes) := do
  let lkey ← LookupKey.make key (snapshot.getD db.lastSequence)
  match ← db.mem.get c lkey with
  | some r => return r
  | none =>
    match db.imm with
    | some imm =>
      match ← imm.get c lkey with
      | some r => return r
      | none => db.version.get c io lkey
    | none => db.version.get c io lkey

end Get

/-- How the file operations of a memtable compaction end. -/
structure FlushEvent where
  build : Status
  apply : Status

def FlushEvent.Healthy (io : FlushEvent) : Prop := io.build.isOk = true ∧ io.apply.isOk = true

section Background

variable (o : Options)

def recordBackgroundError (s : Status) (db : DB) : DB :=
  if db.bgError.isOk then { db with bgError := s } else db

/-- `WriteLevel0Table`: the edit that adds the table, and the status of building it. -/
def writeLevel0Table (io : FlushEvent) (number : ℕ) (imm : MemTable) (base : Version) :
    Exec (VersionEdit × Status) :=
  match imm.entries with
  | [] => return ({}, .ok)
  | first :: rest => do
    let f ← buildTable o number first rest
    if io.build.isOk then
      let level ← base.pickLevelForMemTableOutput o f.smallest.userKey f.largest.userKey
      return ({ newFiles := [(level, f)] }, .ok)
    else
      return ({}, io.build)

def compactImm (io : FlushEvent) (imm : MemTable) (db : DB) : Exec DB := do
  let (edit, s) ← writeLevel0Table o io db.nextFileNumber imm db.version
  let db := { db with nextFileNumber := db.nextFileNumber + 1 }
  if s.isOk then
    assertThat (db.log.number ≥ db.logNumber)
    assertThat (db.log.number < db.nextFileNumber)
    let version ← saveTo o.comparator edit db.version
    if io.apply.isOk then
      let manifest := db.recordEdit edit
      return { db with version, imm := none, logNumber := db.log.number, oldLogs := [], manifest }
    else
      return db.recordBackgroundError io.apply
  else
    return db.recordBackgroundError s

end Background

section WellFormed

variable {κ : Type*} [LinearOrder κ]

/-- The memtables and the files hold sorted entries, the newer ones of a key above the older. -/
structure Layered (D : Bytes → Prop) (rank : Bytes → κ) (db : DB) : Prop where
  mem : Sorted D rank db.mem.entries
  imm : Sorted D rank db.immEntries
  version : db.version.WellFormed D rank
  mem_above : (schema rank).Above db.mem.entries (db.immEntries ++ db.version.entries)
  imm_above : (schema rank).Above db.immEntries db.version.entries

/-- The shape of every state the engine keeps. -/
structure WellFormed (D : Bytes → Prop) (rank : Bytes → κ) (db : DB) : Prop where
  layered : db.Layered D rank
  sequence_le : ∀ e ∈ db.entries, e.key.sequence ≤ db.lastSequence
  last_le : db.lastSequence ≤ kMaxSequenceNumber
  file_number : ∀ level, ∀ f ∈ db.version.files level, f.number < db.nextFileNumber
  log_number : db.logNumber ≤ db.log.number ∧ db.log.number < db.nextFileNumber

variable {c : Comparator} {o : Options} {D : Bytes → Prop} {rank : Bytes → κ} {db : DB}
  {k : Bytes} {s : ℕ}

theorem WellFormed.mono {D' : Bytes → Prop} (h : db.WellFormed D rank) (hD : ∀ k, D k → D' k) :
    db.WellFormed D' rank := by
  have hl := h.layered
  exact ⟨⟨hl.mem.mono hD, hl.imm.mono hD, hl.version.mono hD, hl.mem_above, hl.imm_above⟩,
    h.sequence_le, h.last_le, h.file_number, h.log_number⟩

theorem WellFormed.mem_sequence_le (h : db.WellFormed D rank) :
    ∀ e ∈ db.mem.entries, e.key.sequence ≤ db.lastSequence :=
  fun e he => h.sequence_le e (List.mem_append_left _ he)

theorem Layered.below_uniqueSeqs (h : db.Layered D rank) :
    (schema rank).UniqueSeqs (db.immEntries ++ db.version.entries) :=
  Schema.UniqueSeqs.append _ h.imm.uniqueSeqs h.version.uniqueSeqs h.imm_above

theorem Layered.uniqueSeqs (h : db.Layered D rank) : (schema rank).UniqueSeqs db.entries :=
  Schema.UniqueSeqs.append _ h.mem.uniqueSeqs h.below_uniqueSeqs h.mem_above

theorem Layered.lookup_eq (h : db.Layered D rank) :
    (schema rank).lookup db.entries (rank k) s =
      ((schema rank).lookup db.mem.entries (rank k) s).or
        (((schema rank).lookup db.immEntries (rank k) s).or
          ((schema rank).lookup db.version.entries (rank k) s)) := by
  rw [entries, (schema rank).lookup_append h.mem_above h.mem.uniqueSeqs h.below_uniqueSeqs,
    (schema rank).lookup_append h.imm_above h.imm.uniqueSeqs h.version.uniqueSeqs]

theorem WellFormed.bounded (h : db.WellFormed D rank) : db.version.Bounded := fun e he =>
  (h.sequence_le e (by simp [entries, he])).trans h.last_le

theorem Layered.valid (h : db.Layered D rank) : ∀ e ∈ db.entries, e.Valid D := by
  intro e he
  rcases List.mem_append.mp he with he | he
  · exact h.mem.valid e he
  rcases List.mem_append.mp he with he | he
  · exact h.imm.valid e he
  · obtain ⟨level, _, he⟩ := mem_entries.mp he
    obtain ⟨f, hf, he⟩ := mem_levelEntries.mp he
    exact (h.version.file level f hf).table.sorted.valid e he

def filesAnswer (rank : Bytes → κ) (io : FileAccess) (db : DB) (k : Bytes) (s : ℕ) :
    Except Status Bytes :=
  ((db.version.candidates rank k s).findSome? (Version.fileAnswer rank io k s)).getD
    (.error (.make .notFound [] []))

/-- What a read of `k` at `s` relies on. A filter is asked for the bytes of the key, so it must not
be asked for a key that only compares equal to a stored one. -/
structure Searchable (c : Comparator) (D : Bytes → Prop) (rank : Bytes → κ) (db : DB) (k : Bytes)
    (s : ℕ) : Prop where
  key_mem : D k
  sequence_le : s ≤ kMaxSequenceNumber
  identifies : ∀ level, ∀ f ∈ db.version.files level, f.table.filter.isSome →
    Identifies rank f.entries k
  mem_get : ∀ mem : MemTable, Sorted D rank mem.entries → mem.get c ⟨k, s * 256 + 1⟩ =
    .ok (((schema rank).lookup mem.entries (rank k) s).map MemTable.answer)

theorem Searchable.of_injective (ho : c.OrdersOn D rank) (hinj : Function.Injective rank)
    (hall : ∀ k, D k) (hread : ReadableKey k) (hmax : s ≤ kMaxSequenceNumber) :
    Searchable c D rank db k s := by
  refine ⟨hall k, hmax, fun _ _ _ _ => Identifies.of_injective hinj _ k, ?_⟩
  intro mem hsorted
  by_cases hlen : StorableKey k
  · exact MemTable.get_eq_lookup ho hsorted (hall k) hlen hmax
  · rw [MemTable.get_of_not_storable ho hall hinj hsorted hlen hread,
      MemTable.lookup_of_not_storable hinj hsorted.valid hlen]
    rfl

theorem Searchable.of_storable (ho : c.OrdersOn D rank) (hk : D k) (hlen : StorableKey k)
    (hid : ∀ level, ∀ f ∈ db.version.files level, f.table.filter.isSome →
      Identifies rank f.entries k) (hmax : s ≤ kMaxSequenceNumber) :
    Searchable c D rank db k s :=
  ⟨hk, hmax, hid, fun _ hsorted => MemTable.get_eq_lookup ho hsorted hk hlen hmax⟩

theorem get_eq (ho : c.OrdersOn D rank) {io : FileAccess} (h : db.Layered D rank)
    {snapshot : Option ℕ} (hs : snapshot.getD db.lastSequence = s)
    (hsr : Searchable c D rank db k s) :
    db.get c io snapshot k =
      .ok (match ((schema rank).lookup db.mem.entries (rank k) s).or
          ((schema rank).lookup db.immEntries (rank k) s) with
        | some e => MemTable.answer e
        | none => filesAnswer rank io db k s) := by
  have hversion : db.version.get c io ⟨k, s * 256 + 1⟩ = .ok (filesAnswer rank io db k s) :=
    Version.get_eq ho hsr.identifies h.version hsr.key_mem
  rw [get, hs, LookupKey.make_eq hsr.sequence_le, Stops.ok_bind, hsr.mem_get db.mem h.mem,
    Stops.ok_bind]
  cases (schema rank).lookup db.mem.entries (rank k) s with
  | some e => rfl
  | none =>
    simp only [Option.map_none, Option.none_or]
    have himm := h.imm
    unfold immEntries at himm ⊢
    cases hi : db.imm with
    | none => exact hversion
    | some imm =>
      rw [hi] at himm
      simp only [hsr.mem_get imm himm, Stops.ok_bind]
      cases (schema rank).lookup imm.entries (rank k) s with
      | some e => rfl
      | none => exact hversion

theorem get_healthy (ho : c.OrdersOn D rank) {io : FileAccess} (hio : io.Healthy)
    (h : db.Layered D rank) {snapshot : Option ℕ} (hs : snapshot.getD db.lastSequence = s)
    (hsr : Searchable c D rank db k s) :
    db.get c io snapshot k =
      .ok ((((schema rank).lookup db.entries (rank k) s).map MemTable.answer).getD
        (.error (.make .notFound [] []))) := by
  have hfiles : filesAnswer rank io db k s =
      (((schema rank).lookup db.version.entries (rank k) s).map MemTable.answer).getD
        (.error (.make .notFound [] [])) := by
    have hget : db.version.get c io ⟨k, s * 256 + 1⟩ = .ok (filesAnswer rank io db k s) :=
      Version.get_eq ho hsr.identifies h.version hsr.key_mem
    exact Except.ok.inj (hget.symm.trans
      (Version.get_healthy ho hsr.identifies hio h.version hsr.key_mem))
  rw [get_eq ho h hs hsr, hfiles, h.lookup_eq]
  cases (schema rank).lookup db.mem.entries (rank k) s <;>
    cases (schema rank).lookup db.immEntries (rank k) s <;> rfl

/-- The contents as of sequence number `s`. -/
def viewAt (rank : Bytes → κ) (db : DB) (s : ℕ) : κ → Option Bytes :=
  fun x => (schema rank).read db.entries x s

def view (rank : Bytes → κ) (db : DB) : κ → Option Bytes := db.viewAt rank db.lastSequence

def readAnswer : Option Bytes → Except Status Bytes
  | some value => .ok value
  | none => .error (.make .notFound [] [])

theorem Layered.answer_eq (h : db.Layered D rank) :
    (((schema rank).lookup db.entries (rank k) s).map MemTable.answer).getD
      (.error (.make .notFound [] [])) = readAnswer (db.viewAt rank s (rank k)) := by
  rw [viewAt, Schema.read]
  cases hl : (schema rank).lookup db.entries (rank k) s with
  | none => rfl
  | some e =>
    have hmem := ((schema rank).newest_of_lookup hl).mem
    rcases Entry.type_cases (h.valid e hmem).type_le with ht | ht
    · simp [MemTable.answer, readAnswer, schema, ht]
    · simp [MemTable.answer, readAnswer, schema, ht, kTypeDeletion, kTypeValue]

theorem get_viewAt (ho : c.OrdersOn D rank) {io : FileAccess} (hio : io.Healthy)
    (h : db.Layered D rank) {snapshot : Option ℕ} (hs : snapshot.getD db.lastSequence = s)
    (hsr : Searchable c D rank db k s) :
    db.get c io snapshot k = .ok (readAnswer (db.viewAt rank s (rank k))) := by
  rw [get_healthy ho hio h hs hsr, h.answer_eq]

/-- The same entries under the same last sequence number: nothing a read can tell apart. -/
structure SameContents (db db' : DB) : Prop where
  entries : ∀ e, e ∈ db'.entries ↔ e ∈ db.entries
  lastSequence : db'.lastSequence = db.lastSequence

theorem SameContents.refl (db : DB) : SameContents db db := ⟨fun _ => Iff.rfl, rfl⟩

theorem SameContents.trans {db db' db'' : DB} (h : SameContents db db')
    (h' : SameContents db' db'') : SameContents db db'' :=
  ⟨fun e => (h'.entries e).trans (h.entries e), h'.lastSequence.trans h.lastSequence⟩

theorem SameContents.viewAt_eq {db' : DB} (hs : SameContents db db') (h : db.Layered D rank)
    (s : ℕ) : db'.viewAt rank s = db.viewAt rank s := by
  funext x
  rw [viewAt, viewAt, Schema.read, Schema.read,
    (schema rank).lookup_congr h.uniqueSeqs fun e => (hs.entries e).symm]

@[simp] theorem recordBackgroundError_version (s : Status) (db : DB) :
    (db.recordBackgroundError s).version = db.version := by
  unfold DB.recordBackgroundError
  split_ifs <;> rfl

theorem WellFormed.recordBackgroundError (h : db.WellFormed D rank) (s : Status) :
    (db.recordBackgroundError s).WellFormed D rank ∧
      SameContents db (db.recordBackgroundError s) := by
  unfold DB.recordBackgroundError
  split_ifs
  · have hl := h.layered
    exact ⟨⟨⟨hl.mem, hl.imm, hl.version, hl.mem_above, hl.imm_above⟩, h.sequence_le, h.last_le,
      h.file_number, h.log_number⟩, ⟨fun _ => Iff.rfl, rfl⟩⟩
  · exact ⟨h, SameContents.refl db⟩

theorem WellFormed.nextFileNumber (h : db.WellFormed D rank) (n : ℕ) :
    ({ db with nextFileNumber := db.nextFileNumber + n } : DB).WellFormed D rank :=
  have hl := h.layered
  ⟨⟨hl.mem, hl.imm, hl.version, hl.mem_above, hl.imm_above⟩, h.sequence_le, h.last_le,
    fun level f hf => (h.file_number level f hf).trans_le (Nat.le_add_right _ _),
    ⟨h.log_number.1, h.log_number.2.trans_le (Nat.le_add_right _ _)⟩⟩

section Flush

variable (ho : o.comparator.OrdersOn D rank) (hp : ∀ p ∈ o.filterPolicy, p.Lawful)

include ho in
theorem saveTo_empty {v : Version} (h : v.WellFormed D rank) :
    ∃ v', saveTo o.comparator {} v = .ok v' ∧ v'.WellFormed D rank ∧
      (∀ i, ∀ g ∈ v'.files i, g ∈ v.files i) ∧ ∀ e, e ∈ v'.entries ↔ e ∈ v.entries := by
  have hsave := saveLevels_eq v.files (List.range kNumLevels)
    fun _ _ => saveLevelTo_unchanged ho h {} rfl rfl
  have hfiles : (fun level => ((List.range kNumLevels).map v.files).getD level []) = v.files := by
    funext level
    rw [List.getD_eq_getElem?_getD, List.getElem?_map]
    by_cases hl : level < kNumLevels
    · rw [List.getElem?_range hl]
      rfl
    · rw [List.getElem?_eq_none (by simpa using hl), h.levels level hl]
      rfl
  refine ⟨v, ?_, h, fun i g hg => hg, fun e => Iff.rfl⟩
  rw [saveTo, hsave, Stops.ok_bind, hfiles]
  rfl

include ho hp in
theorem flush_eq (h : db.WellFormed D rank) {imm : MemTable} (himm : db.imm = some imm)
    (io : FlushEvent) :
    ∃ edit s, writeLevel0Table o io db.nextFileNumber imm db.version = .ok (edit, s) ∧
      (s.isOk = true → ∃ v', saveTo o.comparator edit db.version = .ok v' ∧
        v'.WellFormed D rank ∧ (∀ i, ∀ g ∈ v'.files i, g.number < db.nextFileNumber + 1) ∧
        (db.version.Tidy rank → v'.Tidy rank) ∧
        ∀ e, e ∈ v'.entries ↔ e ∈ imm.entries ∨ e ∈ db.version.entries) := by
  have hent : db.immEntries = imm.entries := by rw [immEntries, himm]
  have hsorted := h.layered.imm
  have habove := h.layered.imm_above
  rw [hent] at hsorted habove
  unfold writeLevel0Table
  cases hl : imm.entries with
  | nil =>
    obtain ⟨v', hv', hw, hsub, hmem⟩ := saveTo_empty ho h.layered.version
    refine ⟨{}, .ok, rfl, fun _ => ⟨v', hv', hw, fun i g hg => ?_, fun ht => ?_, fun e => ?_⟩⟩
    · exact (h.file_number i g (hsub i g hg)).trans (Nat.lt_succ_self _)
    · exact ht.of_files hsub
    · simpa using hmem e
  | cons first rest =>
    rw [hl] at hsorted habove
    obtain ⟨f, hf, hfw, hfe, hfn⟩ := buildTable_eq ho hp db.nextFileNumber hsorted
    simp only [hf, Stops.ok_bind]
    by_cases hb : io.build.isOk
    · obtain ⟨level, hlevel, hle, hout⟩ := pickLevel_eq ho h.layered.version h.bounded
        hfw.smallest_mem hfw.largest_mem
      simp only [hb, if_true, hlevel, Stops.ok_bind]
      refine ⟨_, _, rfl, fun _ => ?_⟩
      obtain ⟨v', hv', hw, hfiles, hmem⟩ := saveTo_add ho h.layered.version hfw
        (by simp only [kMaxMemCompactLevel, kNumLevels] at *; omega)
        (fun g hg => hfn ▸ h.file_number 0 g hg) (hfe ▸ habove) hout
      refine ⟨v', hv', hw, fun i g hg => ?_, fun ht => ?_, fun e => hfe ▸ hmem e⟩
      · rcases hfiles i g hg with ⟨-, rfl⟩ | hg
        · rw [hfn]
          exact Nat.lt_succ_self _
        · exact (h.file_number i g hg).trans (Nat.lt_succ_self _)
      · refine ht.add (fun i g hg => ?_) (fun hpos => hout hpos level le_rfl) hfiles
        rw [hfn]
        exact (h.file_number i g hg).ne
    · simp only [hb]
      exact ⟨_, _, rfl, fun h' => absurd h' hb⟩

include ho hp in
theorem compactImm_eq (h : db.WellFormed D rank) {imm : MemTable} (himm : db.imm = some imm)
    (io : FlushEvent) : ∃ db', compactImm o io imm db = .ok db' ∧ db'.WellFormed D rank ∧
      SameContents db db' ∧ (db.version.Tidy rank → db'.version.Tidy rank) := by
  have hent : db.immEntries = imm.entries := by rw [immEntries, himm]
  obtain ⟨edit, s, hw, hsave⟩ := flush_eq ho hp h himm io
  have hlog := h.log_number
  have hlog' := hlog.2.trans (Nat.lt_succ_self _)
  have hsame : SameContents db { db with nextFileNumber := db.nextFileNumber + 1 } :=
    ⟨fun _ => Iff.rfl, rfl⟩
  rw [compactImm, hw, Stops.ok_bind]
  by_cases hs : s.isOk
  · obtain ⟨v', hv', hvw, hnum, htidy, hmem⟩ := hsave hs
    have h1 : decide (db.log.number ≥ db.logNumber) = true := decide_eq_true hlog.1
    have h2 : decide (db.log.number < db.nextFileNumber + 1) = true := decide_eq_true hlog'
    simp only [hs, if_true, h1, h2, assertThat_true, Stops.ok_bind, hv']
    by_cases ha : io.apply.isOk
    · rw [if_pos ha]
      -- the entries of the memtable are those of the new table
      have hall : ∀ e, e ∈ db.mem.entries ++ ([] ++ v'.entries) ↔ e ∈ db.entries := by
        intro e
        simp only [entries, List.nil_append, List.mem_append, hmem, hent]
      refine ⟨_, rfl, ⟨⟨h.layered.mem, Sorted.nil, hvw, ?_, ?_⟩, ?_, h.last_le, hnum, ⟨le_rfl, hlog'⟩⟩,
        ⟨hall, rfl⟩, htidy⟩
      · intro a ha' b hb hk
        refine h.layered.mem_above a ha' b ?_ hk
        rw [hent, List.mem_append, ← hmem]
        exact hb
      · intro a ha'
        exact absurd ha' (List.not_mem_nil)
      · exact fun e he => h.sequence_le e ((hall e).mp he)
    · rw [if_neg ha]
      obtain ⟨hw', hsame'⟩ := (h.nextFileNumber 1).recordBackgroundError io.apply
      exact ⟨_, rfl, hw', hsame.trans hsame', fun ht => by rwa [recordBackgroundError_version]⟩
  · simp only [hs, Bool.false_eq_true, if_false]
    obtain ⟨hw', hsame'⟩ := (h.nextFileNumber 1).recordBackgroundError s
    exact ⟨_, rfl, hw', hsame.trans hsame', fun ht => by rwa [recordBackgroundError_version]⟩

end Flush

theorem writeLevel0Table_status (io : FlushEvent) (number : ℕ) (imm : MemTable) (base : Version) :
    Stops.Ensures (fun _ => True) (writeLevel0Table o io number imm base)
      fun r => io.Healthy → r.2.isOk = true := by
  unfold writeLevel0Table
  split
  · simp
  · refine Stops.ensures_true.bind fun f _ => ?_
    split_ifs with hb
    · exact Stops.ensures_true.bind fun level _ => by simp
    · intro h
      exact absurd h.1 hb

/-- The background error is the only thing that background work changes besides the files. -/
structure KeepsReaders (healthy : Prop) (db db' : DB) : Prop where
  lastSequence : db'.lastSequence = db.lastSequence
  snapshots : db'.snapshots = db.snapshots
  bgError : healthy → db'.bgError = db.bgError

theorem recordBackgroundError_keeps {healthy : Prop} (hbad : ¬ healthy) (s : Status) (db : DB) :
    KeepsReaders healthy db (db.recordBackgroundError s) := by
  unfold recordBackgroundError
  split_ifs <;> exact ⟨rfl, rfl, fun h => absurd h hbad⟩

theorem compactImm_keeps (io : FlushEvent) (imm : MemTable) (db : DB) :
    Stops.Ensures (fun _ => True) (compactImm o io imm db) fun db' =>
      KeepsReaders io.Healthy db db' ∧ db'.compactPointers = db.compactPointers := by
  have hrecord : ∀ s : Status,
      (recordBackgroundError s { db with nextFileNumber := db.nextFileNumber + 1 }).compactPointers =
        db.compactPointers := by
    intro s
    unfold recordBackgroundError
    split_ifs <;> rfl
  unfold compactImm
  refine (writeLevel0Table_status io _ _ _).bind fun r hr => ?_
  obtain ⟨edit, s⟩ := r
  by_cases hs : s.isOk
  · simp only [hs, if_true]
    refine Stops.ensures_true.bind fun _ _ => Stops.ensures_true.bind fun _ _ =>
      Stops.ensures_true.bind fun v _ => ?_
    split_ifs with ha
    · exact ⟨⟨rfl, rfl, fun _ => rfl⟩, rfl⟩
    · have hkeeps := recordBackgroundError_keeps (fun h : io.Healthy => ha h.2) io.apply
        { db with nextFileNumber := db.nextFileNumber + 1 }
      exact ⟨⟨hkeeps.lastSequence, hkeeps.snapshots, hkeeps.bgError⟩, hrecord _⟩
  · simp only [hs, Bool.false_eq_true, if_false]
    have hkeeps := recordBackgroundError_keeps (fun h : io.Healthy => hs (hr h)) s
      { db with nextFileNumber := db.nextFileNumber + 1 }
    exact ⟨⟨hkeeps.lastSequence, hkeeps.snapshots, hkeeps.bgError⟩, hrecord _⟩

end WellFormed

end DB

end DVELevelDB
