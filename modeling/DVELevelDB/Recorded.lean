import DVELevelDB.BackgroundCompaction
import DVELevelDB.RecoveredLogs

/-! # What a database has recorded

At all times the manifest describes the version, and the logs hold what comes after it.
-/

namespace DVELevelDB

open VersionStore EditLog
open Stops (Ensures)

namespace DB

/-- The tables go up to `m`, the old logs up to `m₁`, and the log to the end. -/
structure Sequences (D : Bytes → Prop) (m m₁ : ℕ) (db : DB) : Prop where
  version : ∀ e ∈ db.version.entries, e.key.sequence ≤ m
  manifest : m ≤ db.manifest.lastSequence ∧ db.manifest.lastSequence ≤ db.lastSequence
  imm : ∀ e ∈ db.immEntries, e.key.sequence ≤ m₁
  oldLogs : Logged D m (db.oldLogs.flatMap (·.records)) m₁
  log : Logged D m₁ db.log.records db.lastSequence

/-- What opening the directory of the database relies on. -/
structure Recorded (D : Bytes → Prop) (db : DB) : Prop where
  describes : Describes D db.manifest.edits db.manifest.nextFileNumber db.version
  next_le : db.manifest.nextFileNumber ≤ db.nextFileNumber
  logNumber_le : db.logNumber ≤ db.manifest.nextFileNumber
  logs : (db.oldLogs ++ [db.log]).Pairwise fun log log' => log.number < log'.number
  active : ∀ log ∈ db.oldLogs ++ [db.log], db.logNumber ≤ log.number
  sequences : ∃ m m₁, db.Sequences D m m₁

variable {κ : Type*} [LinearOrder κ] {D : Bytes → Prop} {rank : Bytes → κ} {db : DB} {n : ℕ}
  {o : Options} {c : Comparator} {edit : VersionEdit} {v' : Version}

namespace Recorded

theorem old_lt (h : db.Recorded D) : ∀ log ∈ db.oldLogs, log.number < db.log.number :=
  fun log hlog => (List.pairwise_append.mp h.logs).2.2 log hlog db.log (by simp)

theorem log_last (h : db.Recorded D) :
    ∀ log ∈ db.oldLogs ++ [db.log], log.number ≤ db.log.number := by
  intro log hlog
  rcases List.mem_append.mp hlog with hlog | hlog
  · exact (h.old_lt log hlog).le
  · rw [List.mem_singleton.mp hlog]

theorem raiseFileNumber (h : db.Recorded D) (n : ℕ) :
    ({ db with nextFileNumber := db.nextFileNumber + n } : DB).Recorded D := by
  obtain ⟨m, m₁, hs⟩ := h.sequences
  exact ⟨h.describes, h.next_le.trans (Nat.le_add_right _ _), h.logNumber_le, h.logs, h.active,
    m, m₁, hs.version, hs.manifest, hs.imm, hs.oldLogs, hs.log⟩

theorem withPointers (h : db.Recorded D) (pointers : ℕ → Option InternalKey) :
    ({ db with compactPointers := pointers } : DB).Recorded D := by
  obtain ⟨m, m₁, hs⟩ := h.sequences
  exact ⟨h.describes, h.next_le, h.logNumber_le, h.logs, h.active, m, m₁, hs.version, hs.manifest,
    hs.imm, hs.oldLogs, hs.log⟩

/-- A record follows the others of the log; how the write went on is not recorded. -/
theorem append (h : db.Recorded D) {records : List Bytes} (hl : Logged D db.lastSequence records n)
    (mem : MemTable) (bgError : Status) :
    ({ db with
      mem, bgError
      log := ⟨db.log.number, db.log.records ++ records⟩
      lastSequence := n } : DB).Recorded D := by
  obtain ⟨m, m₁, hs⟩ := h.sequences
  have hnumber : ∀ log ∈ db.oldLogs ++ [⟨db.log.number, db.log.records ++ records⟩],
      ∃ log' ∈ db.oldLogs ++ [db.log], log'.number = log.number := by
    intro log hlog
    rcases List.mem_append.mp hlog with hlog | hlog
    · exact ⟨log, List.mem_append_left _ hlog, rfl⟩
    · exact ⟨db.log, by simp, by rw [List.mem_singleton.mp hlog]⟩
  refine ⟨h.describes, h.next_le, h.logNumber_le, ?_, ?_, m, m₁, hs.version,
    ⟨hs.manifest.1, hs.manifest.2.trans hl.le⟩, hs.imm, hs.oldLogs, hs.log.append hl⟩
  · have hold := List.pairwise_append.mp h.logs
    refine List.pairwise_append.mpr ⟨hold.1, List.pairwise_singleton _ _, ?_⟩
    intro log hlog log' hlog'
    rw [List.mem_singleton.mp hlog']
    exact hold.2.2 log hlog db.log (by simp)
  · intro log hlog
    obtain ⟨log', hlog', heq⟩ := hnumber log hlog
    exact heq ▸ h.active log' hlog'

theorem recordBackgroundError (h : db.Recorded D) (s : Status) :
    (db.recordBackgroundError s).Recorded D := by
  unfold DB.recordBackgroundError
  split_ifs
  · simpa using h.append (.nil le_rfl) db.mem s
  · exact h

theorem switchMemTable (h : db.Recorded D) (hw : db.WellFormed D rank) :
    db.switchMemTable.Recorded D := by
  obtain ⟨m, m₁, hs⟩ := h.sequences
  have hlt : ∀ log ∈ db.oldLogs ++ [db.log], log.number < db.nextFileNumber := fun log hlog =>
    (h.log_last log hlog).trans_lt hw.log_number.2
  refine ⟨h.describes, h.next_le.trans (Nat.le_succ _), h.logNumber_le, ?_, ?_, m,
    db.lastSequence, hs.version, hs.manifest, ?_, ?_, .nil le_rfl⟩
  · refine List.pairwise_append.mpr ⟨h.logs, List.pairwise_singleton _ _, ?_⟩
    intro log hlog log' hlog'
    rw [List.mem_singleton.mp hlog']
    exact hlt log hlog
  · intro log hlog
    rcases List.mem_append.mp hlog with hlog | hlog
    · exact h.active log hlog
    · rw [List.mem_singleton.mp hlog]
      exact hw.log_number.1.trans hw.log_number.2.le
  · exact fun e he => hw.sequence_le e (List.mem_append_left _ he)
  · simp only [DB.switchMemTable, List.flatMap_append, List.flatMap_cons, List.flatMap_nil,
      List.append_nil]
    exact hs.oldLogs.append hs.log

/-- The edit of a compaction has been applied and recorded. -/
theorem applied (h : db.Recorded D) (ho : c.OrdersOn D rank) (hw : db.WellFormed D rank)
    (ha : edit.Adds D db.version db.manifest.nextFileNumber db.nextFileNumber)
    (hsub : ∀ f ∈ addedFiles [edit], ∀ e ∈ f.entries, e ∈ db.version.entries)
    (hsave : saveTo c edit db.version = .ok v') :
    ({ db with version := v', manifest := db.recordEdit edit } : DB).Recorded D := by
  obtain ⟨m, m₁, hs⟩ := h.sequences
  have hv := hw.layered.version
  refine ⟨h.describes.append ho hv hsave ha h.next_le, le_rfl, h.logNumber_le.trans h.next_le,
    h.logs, h.active, m, m₁, ?_, ⟨hs.manifest.1.trans hs.manifest.2, le_rfl⟩, hs.imm, hs.oldLogs,
    hs.log⟩
  intro e he
  rcases h.describes.entries_append ho hv ha hsave he with he | ⟨f, hf, he⟩
  · exact hs.version e he
  · exact hs.version e (hsub f hf e he)

/-- The memtable has become a table, and its logs are not needed any more. -/
theorem flushed (h : db.Recorded D) (ho : c.OrdersOn D rank) (hw : db.WellFormed D rank)
    (ha : edit.Adds D db.version db.manifest.nextFileNumber db.nextFileNumber)
    (hsub : ∀ f ∈ addedFiles [edit], ∀ e ∈ f.entries, e ∈ db.immEntries)
    (hsave : saveTo c edit db.version = .ok v') :
    ({ db with
      version := v', imm := none, logNumber := db.log.number, oldLogs := []
      manifest := db.recordEdit edit } : DB).Recorded D := by
  obtain ⟨m, m₁, hs⟩ := h.sequences
  have hv := hw.layered.version
  refine ⟨h.describes.append ho hv hsave ha h.next_le, le_rfl, hw.log_number.2.le,
    List.pairwise_singleton _ _, ?_, m₁, m₁, ?_, ⟨hs.log.le, le_rfl⟩, ?_, .nil le_rfl, hs.log⟩
  · intro log hlog
    rw [List.mem_singleton.mp hlog]
  · intro e he
    rcases h.describes.entries_append ho hv ha hsave he with he | ⟨f, hf, he⟩
    · exact (hs.version e he).trans hs.oldLogs.le
    · exact hs.imm e (hsub f hf e he)
  · exact fun e he => absurd he List.not_mem_nil

end Recorded

section Steps

variable {o : Options} (ho : o.comparator.OrdersOn D rank)
  (hp : ∀ p ∈ o.filterPolicy, p.Lawful)

include ho hp in
theorem writeLevel0Table_adds {v : Version} (hv : v.WellFormed D rank) (hb : v.Bounded)
    {imm : MemTable} (hs : Sorted D rank imm.entries) (number : ℕ) (io : FlushEvent) :
    Ensures (fun _ => True) (writeLevel0Table o io number imm v) fun r =>
      r.1.Adds D v number (number + 1) ∧
        ∀ f ∈ addedFiles [r.1], ∀ e ∈ f.entries, e ∈ imm.entries := by
  have hnone : ∀ entries : List Entry, VersionEdit.Adds D v number (number + 1) {} ∧
      ∀ f ∈ addedFiles [({} : VersionEdit)], ∀ e ∈ f.entries, e ∈ entries :=
    fun _ => ⟨.empty, by simp [addedFiles]⟩
  unfold writeLevel0Table
  cases hl : imm.entries with
  | nil => exact hnone _
  | cons first rest =>
    rw [hl] at hs
    obtain ⟨f, hf, hfw, hfe, hfn⟩ := buildTable_eq ho hp number hs
    simp only [hf, Stops.ok_bind]
    split_ifs
    · obtain ⟨level, hlevel, hle, -⟩ := pickLevel_eq ho hv hb hfw.smallest_mem hfw.largest_mem
      rw [hlevel, Stops.ok_bind]
      have hnew : ({ newFiles := [(level, f)] } : VersionEdit).newFiles =
          [f].map fun f => (level, f) := rfl
      refine ⟨.of_newFiles (fun _ hp => absurd hp List.not_mem_nil) hnew ?_ ?_ ?_ ?_, ?_⟩
      · simp only [kMaxMemCompactLevel, kNumLevels] at *
        omega
      · simpa using hfw.smallest_mem
      · simp [Named]
      · simp [hfn]
      · simp [addedFiles_of_newFiles hnew, hfe]
    · exact hnone _

include ho hp in
theorem compactImm_recorded (h : db.Recorded D) (hw : db.WellFormed D rank) {imm : MemTable}
    (himm : db.imm = some imm) (io : FlushEvent) :
    Ensures (fun _ => True) (compactImm o io imm db) (Recorded D) := by
  have hent : db.immEntries = imm.entries := by rw [immEntries, himm]
  have hraised := h.raiseFileNumber 1
  have hadds := writeLevel0Table_adds ho hp hw.layered.version hw.bounded (hent ▸ hw.layered.imm)
    db.nextFileNumber io
  refine hadds.bind fun r hr => ?_
  obtain ⟨edit, s⟩ := r
  obtain ⟨ha, hsub⟩ := hr
  dsimp only at ha hsub ⊢
  by_cases hs : s.isOk
  · rw [if_pos hs]
    refine Stops.ensures_true.bind fun _ _ => Stops.ensures_true.bind fun _ _ => ?_
    refine (Stops.ensures_true.with_outcome.imp fun _ _ => trivial).bind fun v' hv' => ?_
    split_ifs
    · exact hraised.flushed ho (hw.nextFileNumber 1) (ha.weaken h.next_le)
        (fun f hf e he => by rw [immEntries, himm]; exact hsub f hf e he) hv'.2
    · exact hraised.recordBackgroundError _
  · rw [if_neg hs]
    exact hraised.recordBackgroundError _

include ho in
theorem logAndApply_recorded (h : db.Recorded D) (hw : db.WellFormed D rank)
    (ha : edit.Adds D db.version db.manifest.nextFileNumber db.nextFileNumber)
    (hsub : ∀ f ∈ addedFiles [edit], ∀ e ∈ f.entries, e ∈ db.version.entries)
    (io : CompactionEvent) :
    Ensures (fun _ => True) (logAndApply o io edit db) fun r => r.2.Recorded D := by
  refine (Stops.ensures_true.with_outcome.imp fun _ _ => trivial).bind fun v' hv' => ?_
  split_ifs
  · exact (h.applied ho hw ha hsub hv'.2).withPointers _
  · exact (h.withPointers _).recordBackgroundError _

variable {level : ℕ} {files : CompactionFiles}

include ho hp in
theorem compactFiles_recorded (h : db.Recorded D) (hsettled : db.Settled D rank)
    (hch : Chosen rank db.version level files) (hm : db.lastSequence < kMaxSequenceNumber)
    (io : CompactionEvent) :
    Ensures (fun _ => True) (compactFiles o io level files db) fun r => r.2.Recorded D := by
  have hv := hsettled.wellFormed.layered.version
  have hworked := compactFiles_worked ho hp hsettled.toArranged hch hm io
    fun _ => hsettled.keepsKeysWhole ho hch hm
  generalize compactFiles o io level files db = r at hworked ⊢
  cases hworked with
  | @failed s n hio => exact (h.raiseFileNumber n).recordBackgroundError s
  | @finished outputs n m input kept hout hsorted hc hnumber =>
    refine logAndApply_recorded ho (h.raiseFileNumber n) (hsettled.wellFormed.nextFileNumber n) ?_
      ?_ io
    · refine .of_newFiles (hsettled.toArranged.pointers_compactionEdit hch) rfl hch.level_lt (fun f hf => (hout.wellFormed f hf).smallest_mem)
        hout.number fun f hf => ⟨hc.number f hf, Or.inl (h.next_le.trans (hnumber f hf))⟩
    · have hadded : addedFiles [compactionEdit level files outputs] = outputs :=
        addedFiles_of_newFiles rfl
      rw [hadded]
      intro f hf e he
      obtain ⟨g, hg, heg⟩ := hout.entries f hf e he
      rcases List.mem_append.mp hg with hg | hg
      · exact hv.mem_entries_of_file (hch.matched.inputs_closed.sublist.subset hg) heg
      · exact hv.mem_entries_of_file (hch.matched.parents_closed.sublist.subset hg) heg

include ho in
theorem move_recorded (h : db.Recorded D) (hs : db.Settled D rank)
    (hch : Chosen rank db.version level files) {f : FileMetaData} (hf : files.inputs = [f])
    (io : CompactionEvent) :
    Ensures (fun _ => True) (logAndApply o io (moveEdit level files f) db)
      fun r => r.2.Recorded D := by
  have hw := hs.wellFormed
  have hv := hw.layered.version
  have hfv : f ∈ db.version.files level :=
    hch.matched.inputs_closed.sublist.subset (by rw [hf]; exact List.mem_cons_self)
  have hnew : (moveEdit level files f).newFiles = [f].map fun f => (level + 1, f) := rfl
  have hp := hs.toArranged.pointers_moveEdit hch f
  refine logAndApply_recorded ho h hw (.of_newFiles hp hnew hch.level_lt ?_ ?_ ?_) ?_ io
  · simpa using (hv.file level f hfv).smallest_mem
  · simp [Named]
  · simpa using ⟨hw.file_number level f hfv, Or.inr ⟨level, hfv⟩⟩
  · rw [addedFiles_of_newFiles hnew]
    intro g hg e he
    rw [List.mem_singleton.mp hg] at he
    exact hv.mem_entries_of_file hfv he

include ho hp in
theorem automaticCompaction_recorded (h : db.Recorded D) (hsettled : db.Settled D rank)
    (hm : db.lastSequence < kMaxSequenceNumber) (io : BackgroundEvent) :
    Ensures (fun _ => True) (automaticCompaction o io db) (Recorded D) := by
  have hv := hsettled.wellFormed.layered.version
  obtain ⟨r, hr, hch⟩ := pickCompaction_spec ho hv hsettled.tidy hsettled.pointers io.reason
  rw [automaticCompaction, hr, Stops.ok_bind]
  cases r with
  | none => exact h
  | some files =>
    have hchosen := hch files rfl
    have hset := h.withPointers
      (Function.update db.compactPointers io.reason.level (some files.compactPointer))
    have hsettled' := hsettled.setCompactPointer hchosen
    refine Ensures.bind (Q := fun r : Status × DB => r.2.Recorded D) ?_ fun r hr => hr
    rw [automaticWork]
    split_ifs with hmove
    · simp only [isTrivialMove, decide_eq_true_eq] at hmove
      obtain ⟨f, hf⟩ := List.length_eq_one_iff.mp hmove.1
      simp only [hf]
      exact move_recorded ho hset hsettled' hchosen hf io.compaction
    · exact compactFiles_recorded ho hp hset hsettled' hchosen hm io.compaction

end Steps

end DB

end DVELevelDB
