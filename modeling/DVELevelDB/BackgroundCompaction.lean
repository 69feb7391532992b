import DVELevelDB.CompactionResults
import DVELevelDB.DBImpl

/-! # The work of the background thread

Memtable compactions and automatic table compactions, and that readers notice none of them as long
as no two tables of a level share a key.
-/

namespace DVELevelDB

open VersionStore

namespace DB

/-- How the file operations of a table compaction end. A failure of its work comes with the
number of entries that were read before it. -/
structure CompactionEvent where
  work : Option (ℕ × Status)
  apply : Status

/-- What the background thread meets in one call, and why it compacts tables if it does. -/
structure BackgroundEvent where
  flush : FlushEvent
  reason : CompactionReason
  compaction : CompactionEvent

section Definitions

variable (o : Options)

/-- `LogAndApply` with the edit of a compaction. -/
def logAndApply (io : CompactionEvent) (edit : VersionEdit) (db : DB) : Exec (Status × DB) := do
  let db := { db with compactPointers := edit.setCompactPointers db.compactPointers }
  let version ← saveTo o.comparator edit db.version
  if io.apply.isOk then
    return (io.apply, { db with version, manifest := db.recordEdit edit })
  else
    return (io.apply, db.recordBackgroundError io.apply)

def compactEntries (level : ℕ) (files : CompactionFiles) (input : List Entry) (db : DB) :
    Exec (List (List Entry)) :=
  outputLoop o.comparator o.outputFull o.maxGrandParentOverlapBytes db.smallestSnapshot input
    (Compaction.start ⟨level, db.version⟩) ⟨files.grandparents, false, 0⟩ ⟨[], []⟩

/-- `DoCompactionWork` from the choice of the files to `InstallCompactionResults`. -/
def compactFiles (io : CompactionEvent) (level : ℕ) (files : CompactionFiles) (db : DB) :
    Exec (Status × DB) := do
  assertThat (!(db.version.files level).isEmpty)
  let input ← makeInputIterator o.comparator level files
  match io.work with
  | some (read, s) =>
    let groups ← compactEntries o level files (input.take read) db
    let db := { db with nextFileNumber := db.nextFileNumber + groups.length }
    return (s, db.recordBackgroundError s)
  | none =>
    let groups ← compactEntries o level files input db
    let outputs ← buildOutputs o db.nextFileNumber groups
    let db := { db with nextFileNumber := db.nextFileNumber + groups.length }
    logAndApply o io (compactionEdit level files outputs) db

def moveEdit (level : ℕ) (files : CompactionFiles) (f : FileMetaData) : VersionEdit where
  compactPointers := [(level, files.compactPointer)]
  newFiles := [(level + 1, f)]
  deletedFiles := [(level, f.number)]

def automaticWork (io : CompactionEvent) (level : ℕ) (files : CompactionFiles) (db : DB) :
    Exec (Status × DB) :=
  if isTrivialMove o files then
    match files.inputs with
    | [f] => logAndApply o io (moveEdit level files f) db
    | _ => throw .assertion
  else
    compactFiles o io level files db

/-- `SetupOtherInputs` moves the compaction pointer on, whether or not the compaction succeeds. -/
def setCompactPointer (level : ℕ) (files : CompactionFiles) (db : DB) : DB :=
  { db with
    compactPointers := Function.update db.compactPointers level (some files.compactPointer) }

def automaticCompaction (io : BackgroundEvent) (db : DB) : Exec DB := do
  match ← pickCompaction o db.version db.compactPointers io.reason with
  | none => return db
  | some files =>
    let level := io.reason.level
    return (← automaticWork o io.compaction level files (db.setCompactPointer level files)).2

/-- `BackgroundCall` without a manual compaction. -/
def backgroundCall (io : BackgroundEvent) (db : DB) : Exec DB :=
  if db.bgError.isOk then
    match db.imm with
    | some imm => compactImm o io.flush imm db
    | none => automaticCompaction o io db
  else
    return db

def backgroundCalls (ios : List BackgroundEvent) (db : DB) : Exec DB :=
  ios.foldlM (fun db io => backgroundCall o io db) db

end Definitions

section Correctness

variable {κ : Type*} [LinearOrder κ] {D : Bytes → Prop} {rank : Bytes → κ}

def CompactionEvent.Healthy (io : CompactionEvent) : Prop :=
  io.work = none ∧ io.apply.isOk = true

def BackgroundEvent.Healthy (io : BackgroundEvent) : Prop := io.flush.Healthy ∧ io.compaction.Healthy

/-- A database whose levels are in the state that compactions rely on. -/
structure Arranged (D : Bytes → Prop) (rank : Bytes → κ) (db : DB) : Prop where
  wellFormed : db.WellFormed D rank
  tidy : db.version.Tidy rank
  pointers : PointersIn D db.compactPointers
  snapshots : db.snapshots.Pairwise (· ≤ ·)
  snapshots_le : ∀ s ∈ db.snapshots, s ≤ db.lastSequence

/-- An arranged database without snapshots. -/
structure Settled (D : Bytes → Prop) (rank : Bytes → κ) (db : DB) : Prop
    extends Arranged D rank db where
  unheld : db.snapshots = []

/-- Nobody who reads at a sequence number that is still in use sees a difference, and there is no
new background error while all is `healthy`. -/
structure Rearranged (D : Bytes → Prop) (rank : Bytes → κ) (healthy : Prop) (db db' : DB) : Prop
    extends KeepsReaders healthy db db' where
  arranged : db'.Arranged D rank
  viewAt : ∀ s, db.smallestSnapshot ≤ s → db'.viewAt rank s = db.viewAt rank s

/-- No two outputs of a compaction of these files share a key. -/
def KeepsKeysWhole (rank : Bytes → κ) (o : Options) (level : ℕ) (files : CompactionFiles)
    (db : DB) : Prop :=
  ∀ input groups, makeInputIterator o.comparator level files = .ok input →
    compactEntries o level files input db = .ok groups → KeysWhole rank groups

/-- If the call of the background thread compacts tables, no key gets into two of its outputs. -/
def BackgroundEvent.KeepsKeysWhole (rank : Bytes → κ) (o : Options) (io : BackgroundEvent)
    (db : DB) : Prop :=
  db.imm = none → io.compaction.work = none → ∀ files,
    pickCompaction o db.version db.compactPointers io.reason = .ok (some files) →
      isTrivialMove o files = false → db.KeepsKeysWhole rank o io.reason.level files

/-- The same of some calls, each in the state that those before it lead to. -/
def CallsKeepKeysWhole (rank : Bytes → κ) (o : Options) : List BackgroundEvent → DB → Prop
  | [], _ => True
  | io :: ios, db => io.KeepsKeysWhole rank o db ∧
      ∀ db', backgroundCall o io db = .ok db' → CallsKeepKeysWhole rank o ios db'

section Keeps

variable {o : Options} {db db₁ db₂ : DB} {p q : Prop}

theorem KeepsReaders.refl (db : DB) : KeepsReaders p db db := ⟨rfl, rfl, fun _ => rfl⟩

theorem KeepsReaders.trans (h : KeepsReaders p db db₁) (h' : KeepsReaders q db₁ db₂) :
    KeepsReaders (p ∧ q) db db₂ where
  lastSequence := h'.lastSequence.trans h.lastSequence
  snapshots := h'.snapshots.trans h.snapshots
  bgError hpq := (h'.bgError hpq.2).trans (h.bgError hpq.1)

theorem KeepsReaders.imp (h : KeepsReaders p db db₁) (hqp : q → p) : KeepsReaders q db db₁ :=
  ⟨h.lastSequence, h.snapshots, fun hq => h.bgError (hqp hq)⟩

theorem logAndApply_keeps (io : CompactionEvent) (edit : VersionEdit) (db : DB) :
    Stops.Ensures (fun _ => True) (logAndApply o io edit db)
      fun r => KeepsReaders io.Healthy db r.2 := by
  refine Stops.ensures_true.bind fun v _ => ?_
  split_ifs with ha
  · exact ⟨rfl, rfl, fun _ => rfl⟩
  · have hkeeps := recordBackgroundError_keeps (fun h : io.Healthy => ha h.2) io.apply
      { db with compactPointers := edit.setCompactPointers db.compactPointers }
    exact ⟨hkeeps.lastSequence, hkeeps.snapshots, hkeeps.bgError⟩

theorem compactFiles_keeps (io : CompactionEvent) (level : ℕ) (files : CompactionFiles) (db : DB) :
    Stops.Ensures (fun _ => True) (compactFiles o io level files db)
      fun r => KeepsReaders io.Healthy db r.2 := by
  unfold compactFiles
  refine Stops.ensures_true.bind fun _ _ => Stops.ensures_true.bind fun input _ => ?_
  cases hwork : io.work with
  | some failure =>
    refine Stops.ensures_true.bind fun groups _ => ?_
    have hbad : ¬ io.Healthy := fun h => by simp [h.1] at hwork
    have hkeeps := recordBackgroundError_keeps hbad failure.2
      { db with nextFileNumber := db.nextFileNumber + groups.length }
    exact ⟨hkeeps.lastSequence, hkeeps.snapshots, hkeeps.bgError⟩
  | none =>
    refine Stops.ensures_true.bind fun groups _ => Stops.ensures_true.bind fun outputs _ => ?_
    exact (logAndApply_keeps io _ _).mono fun r hr => ⟨hr.lastSequence, hr.snapshots, hr.bgError⟩

theorem backgroundCall_keeps (io : BackgroundEvent) (db : DB) :
    Stops.Ensures (fun _ => True) (backgroundCall o io db) (KeepsReaders io.Healthy db) := by
  unfold backgroundCall
  split_ifs
  · split
    · exact (compactImm_keeps io.flush _ db).mono fun _ h => h.1.imp fun hio => hio.1
    · refine Stops.ensures_true.bind fun r _ => ?_
      cases r with
      | none => exact KeepsReaders.refl db
      | some files =>
        have hwork : Stops.Ensures (fun _ => True) (automaticWork o io.compaction io.reason.level
            files (db.setCompactPointer io.reason.level files))
            fun r => KeepsReaders io.compaction.Healthy db r.2 := by
          unfold automaticWork
          split_ifs
          · split
            · exact (logAndApply_keeps io.compaction _ _).mono fun r hr =>
                ⟨hr.lastSequence, hr.snapshots, hr.bgError⟩
            · trivial
          · exact (compactFiles_keeps io.compaction _ files _).mono fun r hr =>
              ⟨hr.lastSequence, hr.snapshots, hr.bgError⟩
        exact hwork.bind fun r hr => hr.imp fun hio => hio.2
  · exact KeepsReaders.refl db

theorem backgroundCalls_keeps (ios : List BackgroundEvent) (db : DB) :
    Stops.Ensures (fun _ => True) (backgroundCalls o ios db)
      (KeepsReaders (∀ io ∈ ios, io.Healthy) db) := by
  unfold backgroundCalls
  induction ios generalizing db with
  | nil => exact KeepsReaders.refl db
  | cons io ios ih =>
    rw [List.foldlM_cons]
    refine (backgroundCall_keeps io db).bind fun db₁ h₁ => (ih db₁).mono fun db₂ h₂ => ?_
    refine (h₁.trans h₂).imp fun hio => ⟨hio io List.mem_cons_self, fun io' h' => ?_⟩
    exact hio io' (List.mem_cons_of_mem _ h')

end Keeps

section Rearranged

variable {db db₁ db₂ : DB} {p q : Prop}

theorem smallestSnapshot_of_unheld (h : db.snapshots = []) :
    db.smallestSnapshot = db.lastSequence := by
  rw [smallestSnapshot, h]
  rfl

theorem Arranged.smallest_le (h : db.Arranged D rank) : db.smallestSnapshot ≤ db.lastSequence := by
  rw [smallestSnapshot]
  cases hs : db.snapshots with
  | nil => exact le_rfl
  | cons s rest => exact h.snapshots_le s (hs ▸ List.mem_cons_self)

theorem Arranged.smallest_le_of_mem (h : db.Arranged D rank) {s : ℕ} (hs : s ∈ db.snapshots) :
    db.smallestSnapshot ≤ s := by
  have hpair := h.snapshots
  rw [smallestSnapshot]
  cases hl : db.snapshots with
  | nil =>
    rw [hl] at hs
    exact absurd hs List.not_mem_nil
  | cons first rest =>
    rw [hl] at hs hpair
    rcases List.mem_cons.mp hs with rfl | hs
    · exact le_rfl
    · exact (List.pairwise_cons.mp hpair).1 s hs

theorem Arranged.withSnapshots (h : db.Arranged D rank) {snapshots : List ℕ}
    (hp : snapshots.Pairwise (· ≤ ·)) (hle : ∀ s ∈ snapshots, s ≤ db.lastSequence) :
    ({ db with snapshots } : DB).Arranged D rank := by
  have hw := h.wellFormed
  have hl := hw.layered
  exact ⟨⟨⟨hl.mem, hl.imm, hl.version, hl.mem_above, hl.imm_above⟩, hw.sequence_le, hw.last_le,
    hw.file_number, hw.log_number⟩, h.tidy, h.pointers, hp, hle⟩

theorem Arranged.mono {D' : Bytes → Prop} (h : db.Arranged D rank) (hD : ∀ k, D k → D' k) :
    db.Arranged D' rank :=
  ⟨h.wellFormed.mono hD, h.tidy, h.pointers.mono hD, h.snapshots, h.snapshots_le⟩

theorem Arranged.getSnapshot (h : db.Arranged D rank) : db.getSnapshot.Arranged D rank := by
  apply h.withSnapshots
  · rw [List.pairwise_append]
    refine ⟨h.snapshots, List.pairwise_singleton _ _, fun s hs last hlast => ?_⟩
    rw [List.mem_singleton.mp hlast]
    exact h.snapshots_le s hs
  · intro s hs
    rcases List.mem_append.mp hs with hs | hs
    · exact h.snapshots_le s hs
    · exact (List.mem_singleton.mp hs).le

theorem Arranged.releaseSnapshot (h : db.Arranged D rank) (s : ℕ) :
    (db.releaseSnapshot s).Arranged D rank :=
  h.withSnapshots (h.snapshots.sublist List.erase_sublist) fun s' hs' =>
    h.snapshots_le s' (List.mem_of_mem_erase hs')

theorem KeepsReaders.smallestSnapshot (h : KeepsReaders p db db₁) :
    db₁.smallestSnapshot = db.smallestSnapshot := by
  rw [DB.smallestSnapshot, DB.smallestSnapshot, h.snapshots, h.lastSequence]

theorem Rearranged.refl (h : db.Arranged D rank) : Rearranged D rank p db db :=
  ⟨⟨rfl, rfl, fun _ => rfl⟩, h, fun _ _ => rfl⟩

theorem Rearranged.trans (h : Rearranged D rank p db db₁) (h' : Rearranged D rank q db₁ db₂) :
    Rearranged D rank (p ∧ q) db db₂ where
  toKeepsReaders := h.toKeepsReaders.trans h'.toKeepsReaders
  arranged := h'.arranged
  viewAt s hs := (h'.viewAt s (by rwa [h.smallestSnapshot])).trans (h.viewAt s hs)

theorem Rearranged.imp (h : Rearranged D rank p db db₁) (hqp : q → p) :
    Rearranged D rank q db db₁ :=
  ⟨h.toKeepsReaders.imp hqp, h.arranged, h.viewAt⟩

theorem Rearranged.view (h : Rearranged D rank p db db₁) : db₁.view rank = db.view rank := by
  rw [DB.view, DB.view, h.lastSequence]
  apply h.viewAt
  rw [← h.lastSequence, ← h.smallestSnapshot]
  exact h.arranged.smallest_le

theorem Rearranged.settled (h : Rearranged D rank p db db₁) (hs : db.Settled D rank) :
    db₁.Settled D rank :=
  ⟨h.arranged, h.snapshots.trans hs.unheld⟩

theorem Rearranged.withRecords (h : Rearranged D rank p db db₁) {pointers : ℕ → Option InternalKey}
    (hp : PointersIn D pointers) (manifest : Manifest) :
    Rearranged D rank p db { db₁ with compactPointers := pointers, manifest } := by
  have hw := h.arranged.wellFormed
  have hl := hw.layered
  exact ⟨⟨h.lastSequence, h.snapshots, h.bgError⟩, ⟨⟨⟨hl.mem, hl.imm, hl.version, hl.mem_above,
    hl.imm_above⟩, hw.sequence_le, hw.last_le, hw.file_number, hw.log_number⟩, h.arranged.tidy, hp,
    h.arranged.snapshots, h.arranged.snapshots_le⟩, h.viewAt⟩

theorem Rearranged.of_sameContents (h : db.Arranged D rank) (hk : KeepsReaders p db db₁)
    (hw : db₁.WellFormed D rank) (hs : SameContents db db₁) (ht : db₁.version.Tidy rank)
    (hp : db₁.compactPointers = db.compactPointers) : Rearranged D rank p db db₁ := by
  refine ⟨hk, ⟨hw, ht, hp ▸ h.pointers, ?_, ?_⟩, fun s _ => hs.viewAt_eq h.wellFormed.layered s⟩
  · rw [hk.snapshots]
    exact h.snapshots
  · rw [hk.snapshots, hk.lastSequence]
    exact h.snapshots_le

theorem Arranged.raiseFileNumber (h : db.Arranged D rank) (n : ℕ) :
    ({ db with nextFileNumber := db.nextFileNumber + n } : DB).Arranged D rank :=
  ⟨h.wellFormed.nextFileNumber n, h.tidy, h.pointers, h.snapshots, h.snapshots_le⟩

theorem Arranged.withPointers (h : db.Arranged D rank) {pointers : ℕ → Option InternalKey}
    (hp : PointersIn D pointers) :
    Rearranged D rank p db { db with compactPointers := pointers } :=
  (Rearranged.refl h).withRecords hp db.manifest

theorem Arranged.recordBackgroundError (h : db.Arranged D rank) {s : Status}
    (hs : p → s.isOk = true) : Rearranged D rank p db (db.recordBackgroundError s) := by
  obtain ⟨hw, hsame⟩ := h.wellFormed.recordBackgroundError s
  refine .of_sameContents h ⟨hsame.lastSequence, ?_, ?_⟩ hw hsame ?_ ?_
  · unfold DB.recordBackgroundError
    split_ifs <;> rfl
  · intro hp
    rw [(Status.isOk_iff s).mp (hs hp)]
    unfold DB.recordBackgroundError
    split_ifs with hbg
    · exact ((Status.isOk_iff _).mp hbg).symm
    · rfl
  · rw [recordBackgroundError_version]
    exact h.tidy
  · unfold DB.recordBackgroundError
    split_ifs <;> rfl

end Rearranged

section Install

variable {db : DB} {level : ℕ} {files : CompactionFiles} {outputs : List FileMetaData} {v' : Version}

theorem WellFormed.installed (h : db.WellFormed D rank) (hv : v'.WellFormed D rank)
    (hsub : ∀ e ∈ v'.entries, e ∈ db.version.entries)
    (hnumber : ∀ i, ∀ f ∈ v'.files i, f.number < db.nextFileNumber) :
    ({ db with version := v' } : DB).WellFormed D rank := by
  have hl := h.layered
  refine ⟨⟨hl.mem, hl.imm, hv, ?_, ?_⟩, ?_, h.last_le, hnumber, h.log_number⟩
  · intro a ha b hb
    apply hl.mem_above a ha b
    rcases List.mem_append.mp hb with hb | hb
    · exact List.mem_append_left _ hb
    · exact List.mem_append_right _ (hsub b hb)
  · intro a ha b hb
    exact hl.imm_above a ha b (hsub b hb)
  · intro e he
    apply h.sequence_le e
    rcases List.mem_append.mp he with he | he
    · exact List.mem_append_left _ he
    rcases List.mem_append.mp he with he | he
    · exact List.mem_append_right _ (List.mem_append_left _ he)
    · exact List.mem_append_right _ (List.mem_append_right _ (hsub e he))

/-- What the outputs of a compaction are to readers. -/
structure Compacted (rank : Bytes → κ) (db : DB) (level : ℕ) (files : CompactionFiles)
    (outputs : List FileMetaData) (m : ℕ) (input kept : List Entry) : Prop where
  inputs : ∀ e, e ∈ input ↔ ∃ g ∈ files.inputs ++ files.parents, e ∈ g.entries
  discards : (schema rank).Discards input (entriesOf (Compaction.deeperFiles ⟨level, db.version⟩)) m
    input kept
  entries : ∀ e, e ∈ kept ↔ ∃ f ∈ outputs, e ∈ f.entries
  smallest : m ≤ db.smallestSnapshot
  number : ∀ f ∈ outputs, f.number < db.nextFileNumber

theorem Layered.upper_uniqueSeqs (h : db.Layered D rank) :
    (schema rank).UniqueSeqs (db.mem.entries ++ db.immEntries) := by
  refine Schema.UniqueSeqs.append _ h.mem.uniqueSeqs h.imm.uniqueSeqs ?_
  intro a ha b hb
  exact h.mem_above a ha b (List.mem_append_left _ hb)

theorem Layered.upper_above (h : db.Layered D rank) :
    (schema rank).Above (db.mem.entries ++ db.immEntries) db.version.entries := by
  intro a ha b hb
  rcases List.mem_append.mp ha with ha | ha
  · exact h.mem_above a ha b (List.mem_append_right _ hb)
  · exact h.imm_above a ha b hb

theorem Arranged.install (h : db.Arranged D rank) {o : Options}
    (ho : o.comparator.OrdersOn D rank) {input kept : List Entry} {m : ℕ}
    (hch : Chosen rank db.version level files) (hout : Outputs D rank db.version level files outputs)
    (hsorted : Sorted D rank input) (hc : Compacted rank db level files outputs m input kept) :
    ∃ v', saveTo o.comparator (compactionEdit level files outputs) db.version = .ok v' ∧
      Rearranged D rank True db { db with version := v' } := by
  have hw := h.wellFormed
  have hl := hw.layered
  obtain ⟨v', hsave, hi⟩ := saveTo_compaction ho hl.version h.tidy hch hout
  have hv' := hi.wellFormed hl.version hch hout
  have hsub : ∀ e ∈ v'.entries, e ∈ db.version.entries := by
    intro e he
    obtain ⟨i, -, hei⟩ := mem_entries.mp he
    obtain ⟨x, hx, hex⟩ := mem_levelEntries.mp hei
    rcases hi.mem_cases hx with ⟨-, hx⟩ | ⟨hx, -, -⟩
    · obtain ⟨g, hg, heg⟩ := hout.entries x hx e hex
      rcases List.mem_append.mp hg with hg | hg
      · exact hl.version.mem_entries_of_file (hch.matched.inputs_closed.sublist.subset hg) heg
      · exact hl.version.mem_entries_of_file (hch.matched.parents_closed.sublist.subset hg) heg
    · exact hl.version.mem_entries_of_file hx hex
  have hnumber : ∀ i, ∀ f ∈ v'.files i, f.number < db.nextFileNumber := by
    intro i f hf
    rcases hi.mem_cases hf with ⟨-, hf⟩ | ⟨hf, -, -⟩
    · exact hc.number f hf
    · exact hw.file_number i f hf
  refine ⟨v', hsave, ⟨⟨rfl, rfl, fun _ => rfl⟩, ⟨hw.installed hv' hsub hnumber,
    hi.tidy h.tidy hout, h.pointers, h.snapshots, h.snapshots_le⟩, ?_⟩⟩
  intro s hs
  funext k
  have hread := hi.read_eq hl.version hch hsorted hc.inputs hc.discards hc.entries
    hl.upper_uniqueSeqs hl.upper_above k (hc.smallest.trans hs)
  simp only [List.append_assoc] at hread
  exact hread

end Install

section Compact

variable {o : Options} {db : DB} {level : ℕ} {files : CompactionFiles}
  (ho : o.comparator.OrdersOn D rank) (hp : ∀ p ∈ o.filterPolicy, p.Lawful)

theorem Arranged.logAndApply (h : db.Arranged D rank) (io : CompactionEvent) {edit : VersionEdit}
    (hp : ∀ p ∈ edit.compactPointers, D p.2.userKey) {v' : Version}
    (hsave : saveTo o.comparator edit db.version = .ok v')
    (hr : Rearranged D rank True db { db with version := v' }) :
    Stops.Ensures (· = .blocked) (logAndApply o io edit db)
      fun r => Rearranged D rank io.Healthy db r.2 := by
  have hpointers := h.pointers.setCompactPointers hp
  rw [DB.logAndApply, hsave, Stops.ok_bind]
  split_ifs with ha
  · exact (hr.imp fun _ => trivial).withRecords hpointers _
  · have hset : Rearranged D rank True db _ := h.withPointers hpointers
    have hfailed := hset.arranged.recordBackgroundError (p := io.Healthy) fun hio => hio.2
    exact (hset.trans hfailed).imp fun hio => ⟨trivial, hio⟩

theorem Arranged.pointer_mem (h : db.Arranged D rank) (hch : Chosen rank db.version level files) :
    D files.compactPointer.userKey := by
  obtain ⟨f, hf, hkey⟩ := hch.pointer
  rw [← hkey]
  exact (hch.matched.inputs_closed.wellFormed h.wellFormed.layered.version f hf).largest_mem

theorem Arranged.pointers_compactionEdit (h : db.Arranged D rank)
    (hch : Chosen rank db.version level files) {outputs : List FileMetaData} :
    ∀ p ∈ (compactionEdit level files outputs).compactPointers, D p.2.userKey := by
  intro p hmem
  obtain rfl := List.mem_singleton.mp hmem
  exact h.pointer_mem hch

theorem Arranged.pointers_moveEdit (h : db.Arranged D rank)
    (hch : Chosen rank db.version level files) (f : FileMetaData) :
    ∀ p ∈ (moveEdit level files f).compactPointers, D p.2.userKey := by
  intro p hmem
  obtain rfl := List.mem_singleton.mp hmem
  exact h.pointer_mem hch

theorem Arranged.setCompactPointer (h : db.Arranged D rank)
    (hch : Chosen rank db.version level files) :
    Rearranged D rank True db (db.setCompactPointer level files) :=
  h.withPointers (h.pointers.update _ (h.pointer_mem hch))

theorem Settled.setCompactPointer (h : db.Settled D rank)
    (hch : Chosen rank db.version level files) : (db.setCompactPointer level files).Settled D rank :=
  (h.toArranged.setCompactPointer hch).settled h

include ho in
theorem compactEntries_spec (h : db.Arranged D rank) (hch : Chosen rank db.version level files)
    {input : List Entry} (hs : Sorted D rank input) (hm : db.lastSequence < kMaxSequenceNumber) :
    ∃ groups, compactEntries o level files input db = .ok groups ∧
      (∀ group ∈ groups, group ≠ []) ∧
      (schema rank).Discards input (entriesOf (Compaction.deeperFiles ⟨level, db.version⟩))
        db.smallestSnapshot input groups.flatten := by
  have hsmall := h.smallest_le.trans_lt hm
  have hv : (Compaction.inputVersion ⟨level, db.version⟩).WellFormed D rank :=
    h.wellFormed.layered.version
  obtain ⟨kept, hkept, hdis⟩ := Compaction.doCompactionWork_discards ho hv hs hsmall
  have hgrand : ∀ f ∈ (GrandparentState.mk files.grandparents false 0).rest,
      D f.largest.userKey := by
    intro f hf
    exact (hv.file _ f (hch.grandparents f hf)).largest_mem
  have hempty : Holds ⟨[], []⟩ [] := ⟨rfl, by simp⟩
  obtain ⟨groups, hgroups, hflat, hne⟩ : ∃ groups, compactEntries o level files input db =
      .ok groups ∧ groups.flatten = [] ++ kept ∧ ∀ group ∈ groups, group ≠ [] :=
    outputLoop_spec ho (fun e he => (hs.valid e he).key_mem) hkept hgrand hempty
  exact ⟨groups, hgroups, hne, by rw [hflat]; exact hdis⟩

theorem Arranged.sequence_le (h : db.Arranged D rank) (hch : Chosen rank db.version level files)
    {g : FileMetaData} (hg : g ∈ files.inputs ++ files.parents) {e : Entry} (he : e ∈ g.entries) :
    e.key.sequence ≤ db.lastSequence := by
  have hv := h.wellFormed.layered.version
  have hmem : e ∈ db.version.entries := by
    rcases List.mem_append.mp hg with hg | hg
    · exact hv.mem_entries_of_file (hch.matched.inputs_closed.sublist.subset hg) he
    · exact hv.mem_entries_of_file (hch.matched.parents_closed.sublist.subset hg) he
  exact h.wellFormed.sequence_le e (List.mem_append_right _ (List.mem_append_right _ hmem))

include ho hp in
theorem outputs_spec (h : db.Arranged D rank) {input : List Entry} {groups : List (List Entry)}
    (hsorted : Sorted D rank input)
    (hin : ∀ e, e ∈ input ↔ ∃ g ∈ files.inputs ++ files.parents, e ∈ g.entries)
    (hne : ∀ group ∈ groups, group ≠ [])
    (hdis : (schema rank).Discards input (entriesOf (Compaction.deeperFiles ⟨level, db.version⟩))
      db.smallestSnapshot input groups.flatten) (hwhole : KeysWhole rank groups) :
    ∃ outputs, buildOutputs o db.nextFileNumber groups = .ok outputs ∧
      Outputs D rank db.version level files outputs ∧
      Compacted rank { db with nextFileNumber := db.nextFileNumber + groups.length } level files
        outputs db.smallestSnapshot input groups.flatten ∧
      ∀ f ∈ outputs, db.nextFileNumber ≤ f.number := by
  obtain ⟨outputs, hbuild, hws, hes, hns, hpair⟩ :=
    buildOutputs_spec ho hp db.nextFileNumber (hsorted.sublist hdis.sublist) hne
  have hentries : ∀ e, e ∈ groups.flatten ↔ ∃ f ∈ outputs, e ∈ f.entries := by
    intro e
    rw [← hes, List.mem_flatten]
    simp
  have hnodup : (outputs.map (·.number)).Nodup := List.pairwise_map.mpr (hpair.imp fun hlt => hlt.ne)
  refine ⟨outputs, hbuild, ⟨hws, ?_, ?_, ?_, ?_⟩, ⟨hin, hdis, hentries, le_rfl, ?_⟩,
    fun f hf => (hns f hf).1⟩
  · apply strictChain_of_keysWhole hws
    · rw [hes]
      exact hsorted.sublist hdis.sublist
    · rwa [hes]
  · intro f hf e he
    exact (hin e).mp (hdis.subset e ((hentries e).mpr ⟨f, hf, he⟩))
  · intro f hf g hg hn
    exact List.inj_on_of_nodup_map hnodup hf hg hn
  · intro f hf i g hg hn
    have hold := h.wellFormed.file_number i g hg
    have hnew := (hns f hf).1
    omega
  · intro f hf
    exact (hns f hf).2

include ho in
/-- While no snapshot is held, one version of a key is left. -/
theorem Settled.keepsKeysWhole (h : db.Settled D rank) (hch : Chosen rank db.version level files)
    (hm : db.lastSequence < kMaxSequenceNumber) : db.KeepsKeysWhole rank o level files := by
  intro input groups hinput hgroups
  obtain ⟨input', hinput', hsorted, hin⟩ :=
    makeInputIterator_spec ho h.wellFormed.layered.version hch.matched
  obtain rfl := Except.ok.inj (hinput.symm.trans hinput')
  obtain ⟨groups', hgroups', -, hdis⟩ := compactEntries_spec ho h.toArranged hch hsorted hm
  obtain rfl := Except.ok.inj (hgroups.symm.trans hgroups')
  rw [smallestSnapshot_of_unheld h.unheld] at hdis
  apply keysWhole_of_discards hsorted _ hdis
  intro e he
  obtain ⟨g, hg, heg⟩ := (hin e).mp he
  exact h.toArranged.sequence_le hch hg heg

/-- How the work of a compaction ends: it fails, or its outputs are to go into effect. -/
inductive Worked (D : Bytes → Prop) (rank : Bytes → κ) (o : Options)
    (io : CompactionEvent) (level : ℕ) (files : CompactionFiles) (db : DB) :
    Exec (Status × DB) → Prop where
  | failed {s : Status} {n : ℕ} : ¬ io.Healthy → Worked D rank o io level files db
      (.ok (s, DB.recordBackgroundError s { db with nextFileNumber := db.nextFileNumber + n }))
  | finished {outputs : List FileMetaData} {n m : ℕ} {input kept : List Entry} :
      Outputs D rank db.version level files outputs → Sorted D rank input →
      Compacted rank { db with nextFileNumber := db.nextFileNumber + n } level files outputs m
        input kept → (∀ f ∈ outputs, db.nextFileNumber ≤ f.number) →
      Worked D rank o io level files db (logAndApply o io (compactionEdit level files outputs)
        { db with nextFileNumber := db.nextFileNumber + n })

include ho hp in
theorem compactFiles_worked (h : db.Arranged D rank) (hch : Chosen rank db.version level files)
    (hm : db.lastSequence < kMaxSequenceNumber) (io : CompactionEvent)
    (hwhole : io.work = none → db.KeepsKeysWhole rank o level files) :
    Worked D rank o io level files db (compactFiles o io level files db) := by
  obtain ⟨f, hf⟩ := List.exists_mem_of_ne_nil _ hch.matched.nonempty
  have hfv : f ∈ db.version.files level := hch.matched.inputs_closed.sublist.subset hf
  have hassert : (!(db.version.files level).isEmpty) = true := by
    simpa using List.ne_nil_of_mem hfv
  obtain ⟨input, hinput, hsorted, hin⟩ :=
    makeInputIterator_spec ho h.wellFormed.layered.version hch.matched
  rw [compactFiles, hassert, assertThat_true, Stops.ok_bind, hinput, Stops.ok_bind]
  cases hwork : io.work with
  | some failure =>
    obtain ⟨read, s⟩ := failure
    obtain ⟨groups, hgroups, -⟩ :=
      compactEntries_spec ho h hch (hsorted.sublist (List.take_sublist read input)) hm
    simp only [hgroups, Stops.ok_bind]
    exact Worked.failed fun hio => by simp [hio.1] at hwork
  | none =>
    obtain ⟨groups, hgroups, hne, hdis⟩ := compactEntries_spec ho h hch hsorted hm
    obtain ⟨outputs, hbuild, hout, hc, hnumber⟩ :=
      outputs_spec ho hp h hsorted hin hne hdis (hwhole hwork input groups hinput hgroups)
    simp only [hgroups, hbuild, Stops.ok_bind]
    exact Worked.finished hout hsorted hc hnumber

include ho hp in
theorem compactFiles_spec (h : db.Arranged D rank) (hch : Chosen rank db.version level files)
    (hm : db.lastSequence < kMaxSequenceNumber) (io : CompactionEvent)
    (hwhole : io.work = none → db.KeepsKeysWhole rank o level files) :
    Stops.Ensures (· = .blocked) (compactFiles o io level files db)
      fun r => Rearranged D rank io.Healthy db r.2 := by
  have hworked := compactFiles_worked ho hp h hch hm io hwhole
  generalize compactFiles o io level files db = r at hworked ⊢
  cases hworked with
  | @failed s n hio =>
    have hr : Rearranged D rank io.Healthy _ (DB.recordBackgroundError s _) :=
      (h.raiseFileNumber n).recordBackgroundError fun hhealthy => absurd hhealthy hio
    exact ⟨⟨hr.lastSequence, hr.snapshots, hr.bgError⟩, hr.arranged, hr.viewAt⟩
  | @finished outputs n m input kept hout hsorted hc hnumber =>
    have hraised := h.raiseFileNumber n
    obtain ⟨v', hsave, hinstall⟩ := hraised.install ho hch hout hsorted hc
    have hpointers := @Arranged.pointers_compactionEdit _ _ _ _ _ _ _ h hch outputs
    refine (hraised.logAndApply io hpointers hsave hinstall).mono fun r hr => ?_
    exact ⟨⟨hr.lastSequence, hr.snapshots, hr.bgError⟩, hr.arranged, hr.viewAt⟩

include ho in
theorem move_spec (h : db.Arranged D rank) (hch : Chosen rank db.version level files)
    {f : FileMetaData} (hf : files.inputs = [f]) (hparents : files.parents = [])
    (io : CompactionEvent) :
    Stops.Ensures (· = .blocked) (logAndApply o io (moveEdit level files f) db)
      fun r => Rearranged D rank io.Healthy db r.2 := by
  have hv := h.wellFormed.layered.version
  have hfv : f ∈ db.version.files level :=
    hch.matched.inputs_closed.sublist.subset (by rw [hf]; exact List.mem_cons_self)
  have hedit : moveEdit level files f = compactionEdit level files [f] := by
    simp [moveEdit, compactionEdit, hf, hparents]
  have hfiles : ∀ e, e ∈ f.entries ↔ ∃ g ∈ files.inputs ++ files.parents, e ∈ g.entries := by
    intro e
    simp [hf, hparents]
  have hout : Outputs D rank db.version level files [f] := by
    refine ⟨?_, List.pairwise_singleton _ _, ?_, ?_, ?_⟩
    · intro g hg
      rw [List.mem_singleton.mp hg]
      exact hv.file level f hfv
    · intro g hg e he
      rw [List.mem_singleton.mp hg] at he
      exact (hfiles e).mp he
    · intro g hg g' hg' _
      rw [List.mem_singleton.mp hg, List.mem_singleton.mp hg']
    · intro g hg i g' hg' hn
      rw [List.mem_singleton.mp hg] at hn
      obtain ⟨hi, heq⟩ := h.tidy.number level f hfv i g' hg' hn
      exact ⟨hi.symm, by rw [hf, ← heq]; exact List.mem_cons_self⟩
  have hc : Compacted rank db level files [f] 0 f.entries f.entries := by
    refine ⟨hfiles, Schema.Discards.refl _ _ _, by simp, Nat.zero_le _, ?_⟩
    intro g hg
    rw [List.mem_singleton.mp hg]
    exact h.wellFormed.file_number level f hfv
  obtain ⟨v', hsave, hinstall⟩ :=
    h.install ho hch hout (hv.file level f hfv).table.sorted hc
  exact h.logAndApply io (h.pointers_moveEdit hch f) (hedit ▸ hsave) hinstall

include ho hp in
theorem automaticWork_spec (h : db.Arranged D rank) (hch : Chosen rank db.version level files)
    (hm : db.lastSequence < kMaxSequenceNumber) (io : CompactionEvent)
    (hwhole : io.work = none → isTrivialMove o files = false →
      db.KeepsKeysWhole rank o level files) :
    Stops.Ensures (· = .blocked) (automaticWork o io level files db)
      fun r => Rearranged D rank io.Healthy db r.2 := by
  rw [automaticWork]
  split_ifs with hmove
  · simp only [isTrivialMove, decide_eq_true_eq] at hmove
    obtain ⟨hone, hnone, -⟩ := hmove
    obtain ⟨f, hf⟩ := List.length_eq_one_iff.mp hone
    simp only [hf]
    exact move_spec ho h hch hf (List.length_eq_zero_iff.mp hnone) io
  · apply compactFiles_spec ho hp h hch hm io
    exact fun hwork => hwhole hwork (by simpa using hmove)

include ho hp in
theorem automaticCompaction_spec (h : db.Arranged D rank) (hm : db.lastSequence < kMaxSequenceNumber)
    (io : BackgroundEvent) (himm : db.imm = none) (hwhole : io.KeepsKeysWhole rank o db) :
    Stops.Ensures (· = .blocked) (automaticCompaction o io db)
      fun db' => Rearranged D rank io.Healthy db db' := by
  obtain ⟨r, hr, hch⟩ :=
    pickCompaction_spec ho h.wellFormed.layered.version h.tidy h.pointers io.reason
  rw [automaticCompaction, hr, Stops.ok_bind]
  cases r with
  | none => exact Rearranged.refl h
  | some files =>
    have hchosen := hch files rfl
    have hset := h.setCompactPointer hchosen
    have hwork := automaticWork_spec ho hp hset.arranged hchosen hm io.compaction
      fun hwork hmove => hwhole himm hwork files hr hmove
    exact hwork.bind fun r hr => (hset.trans hr).imp fun hio => ⟨trivial, hio.2⟩

include ho hp in
theorem backgroundCall_spec (h : db.Arranged D rank) (hm : db.lastSequence < kMaxSequenceNumber)
    (io : BackgroundEvent) (hwhole : io.KeepsKeysWhole rank o db) :
    Stops.Ensures (· = .blocked) (backgroundCall o io db)
      fun db' => Rearranged D rank io.Healthy db db' := by
  rw [backgroundCall]
  split_ifs with hbg
  · cases himm : db.imm with
    | none => exact automaticCompaction_spec ho hp h hm io himm hwhole
    | some imm =>
      obtain ⟨db', hdb', hw, hsame, ht⟩ := compactImm_eq ho hp h.wellFormed himm io.flush
      obtain ⟨hkeeps, hpointers⟩ := (compactImm_keeps io.flush imm db).elim hdb'
      dsimp only
      rw [hdb']
      exact (Rearranged.of_sameContents h hkeeps hw hsame (ht h.tidy) hpointers).imp
        fun hio => hio.1
  · exact Rearranged.refl h

include ho hp in
theorem backgroundCalls_spec (ios : List BackgroundEvent) (h : db.Arranged D rank)
    (hm : db.lastSequence < kMaxSequenceNumber) (hwhole : CallsKeepKeysWhole rank o ios db) :
    Stops.Ensures (· = .blocked) (backgroundCalls o ios db)
      fun db' => Rearranged D rank (∀ io ∈ ios, io.Healthy) db db' := by
  unfold backgroundCalls
  induction ios generalizing db with
  | nil => exact Rearranged.refl h
  | cons io ios ih =>
    rw [List.foldlM_cons]
    have hcall := (backgroundCall_spec ho hp h hm io hwhole.1).with_outcome
    refine (hcall.imp fun _ ht => ht.1).bind fun db₁ hdb₁ => ?_
    obtain ⟨h₁, hreached⟩ := hdb₁
    refine (ih h₁.arranged (h₁.lastSequence ▸ hm) (hwhole.2 db₁ hreached)).mono fun db₂ h₂ => ?_
    refine (h₁.trans h₂).imp fun hio => ⟨hio io List.mem_cons_self, fun io' h' => ?_⟩
    exact hio io' (List.mem_cons_of_mem _ h')

include ho in
theorem Settled.backgroundKeepsKeysWhole (h : db.Settled D rank)
    (hm : db.lastSequence < kMaxSequenceNumber) (io : BackgroundEvent) :
    io.KeepsKeysWhole rank o db := by
  intro _ _ files hpick _
  obtain ⟨r, hr, hch⟩ :=
    pickCompaction_spec ho h.wellFormed.layered.version h.tidy h.pointers io.reason
  obtain rfl := Except.ok.inj (hpick.symm.trans hr)
  exact h.keepsKeysWhole ho (hch files rfl) hm

include ho hp in
theorem Settled.callsKeepKeysWhole (ios : List BackgroundEvent) (h : db.Settled D rank)
    (hm : db.lastSequence < kMaxSequenceNumber) : CallsKeepKeysWhole rank o ios db := by
  induction ios generalizing db with
  | nil => trivial
  | cons io ios ih =>
    have hwhole := h.backgroundKeepsKeysWhole ho hm io
    refine ⟨hwhole, fun db' hdb' => ?_⟩
    have hr := (backgroundCall_spec ho hp h.toArranged hm io hwhole).elim hdb'
    exact ih (hr.settled h) (hr.lastSequence ▸ hm)

end Compact

end Correctness

end DB

end DVELevelDB
