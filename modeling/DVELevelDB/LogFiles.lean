import DVELevelDB.LogReader
import DVELevelDB.StoredLogs

/-! # The log files of a database

The logs of a database are lists of records. What is on disk are the bytes that the log writer makes
of them, and whoever opens the directory has only what the log reader finds there.
-/

namespace DVELevelDB

open VersionStore
open Stops (Ensures)

namespace Log

/-- These are the records that `RecoverLogFile` reads from a file. -/
def Holds (records : List Bytes) (file : Bytes) : Prop :=
  (Reader.make file [] true 0).readAll.1 = records

/-- A file that does not end in the middle of a record. -/
def Whole (file : Bytes) : Prop := ∃ records o, o ≤ kBlockSize ∧ Records 0 records file o

/-- A file with these records, and where a writer stands at its end. -/
def Continues (records : List Bytes) (file : Bytes) (blockOffset : ℕ) : Prop :=
  ∃ o, o ≤ kBlockSize ∧ Records 0 records file o ∧
    (blockOffset = o ∨ o = kBlockSize ∧ blockOffset = 0)

variable {records : List Bytes} {data file bytes : Bytes} {o o' blockOffset : ℕ}

theorem stands_healthy (file : Bytes) :
    Reader.Stands kBlockSize file (Reader.make file [] true 0) :=
  Reader.stands_make file (fun _ hs => absurd hs List.not_mem_nil) true

theorem Records.snoc (h : Records 0 records file o) (hl : Layout true data o bytes o') :
    Records 0 (records ++ [data]) (file ++ bytes) o' := by
  apply h.append
  rw [← List.append_nil bytes]
  exact .cons hl .nil

/-- What is read of the beginning of a log whose records are all there but for the last one. -/
theorem holds_torn (h : Records 0 records file o) (hl : Layout true data o bytes o') (n : ℕ) :
    Holds (if bytes.length ≤ n then records ++ [data] else records) (file ++ bytes.take n) := by
  have hall := h.snoc hl
  obtain ⟨o₁, hreset⟩ := hall.reset
  have hprefix : file ++ bytes.take n <+: file ++ bytes :=
    (List.prefix_append_right_inj _).mpr (List.take_prefix n bytes)
  obtain ⟨k, r, hread, -, hcomplete⟩ := Reader.readAll_records hreset
    (stands_healthy _) hprefix
  obtain ⟨o₂, hold⟩ := h.reset
  have hlength : (records ++ [data]).length = records.length + 1 := by simp
  have hfirst : records.length ≤ k := by
    rw [hcomplete records.length (by simp) (by rw [List.take_left]; exact hold)]
    simp
  have hlast : records.length + 1 ≤ k ↔ bytes.length ≤ n := by
    rw [hcomplete (records.length + 1) hlength.ge (by rw [List.take_of_length_le hlength.le]; exact hreset)]
    simp
  rw [Holds, hread]
  dsimp only
  split_ifs with hn
  · exact List.take_of_length_le (hlength ▸ hlast.mpr hn)
  · have hk : k = records.length := by
      have := mt hlast.mp hn
      omega
    rw [hk, List.take_left]

theorem Records.holds (h : Records 0 records file o) : Holds records file := by
  obtain ⟨o₁, hreset⟩ := h.reset
  obtain ⟨k, r, hread, -, hcomplete⟩ := Reader.readAll_records hreset
    (stands_healthy _) (List.prefix_refl file)
  have hk : records.length ≤ k := by
    rw [hcomplete records.length le_rfl (by rw [List.take_length]; exact hreset)]
  rw [Holds, hread]
  exact List.take_of_length_le hk

theorem Continues.whole (h : Continues records file blockOffset) : Whole file := by
  obtain ⟨o, ho, hrecords, -⟩ := h
  exact ⟨records, o, ho, hrecords⟩

theorem Continues.holds (h : Continues records file blockOffset) : Holds records file := by
  obtain ⟨o, -, hrecords, -⟩ := h
  exact hrecords.holds

theorem continues_new : Continues [] [] 0 := ⟨0, Nat.zero_le _, .nil, Or.inl rfl⟩

/-- A record that is added; whoever stops in the middle has left the others. -/
theorem Continues.addRecord (h : Continues records file blockOffset) {results : List Status}
    (hr : ∀ s ∈ results, s.isOk = true) (data : Bytes) :
    ∃ bytes w, Writer.addRecord data ⟨⟨file, results⟩, blockOffset⟩ = .ok (.ok, w) ∧
      w.dest.contents = file ++ bytes ∧
      Continues (records ++ [data]) (file ++ bytes) w.blockOffset ∧
      ∀ n, Holds (if bytes.length ≤ n then records ++ [data] else records)
        (file ++ bytes.take n) := by
  obtain ⟨o, ho, hrecords, hoffset⟩ := h
  have hle : blockOffset ≤ kBlockSize := by
    rcases hoffset with rfl | ⟨-, rfl⟩
    · exact ho
    · exact Nat.zero_le _
  obtain ⟨bytes, o', results', hlayout, -, hadd⟩ := addRecordLoop_ok hr true data file hle
  have hend : Layout true data o bytes o' := by
    rcases hoffset with rfl | ⟨rfl, rfl⟩
    · exact hlayout
    · exact hlayout.reset
  exact ⟨bytes, _, hadd, rfl, ⟨o', hlayout.offset_le, hrecords.snoc hend, Or.inl rfl⟩,
    holds_torn hrecords hend⟩

end Log

namespace DB

/-- Since `db`, logs were created and removed, but nothing was written to any. -/
structure LogsAfter (db db' : DB) : Prop where
  log : db'.log = db.log ∨ db'.log.records = [] ∧ db.log.number < db'.log.number
  old : ∀ log ∈ db'.oldLogs, log ∈ db.oldLogs ++ [db.log] ∨
    log.records = [] ∧ db.log.number < log.number

section LogsAfter

variable {o : Options} {db₀ db db' : DB}

theorem LogsAfter.refl (db : DB) : LogsAfter db db :=
  ⟨Or.inl rfl, fun _ hlog => Or.inl (List.mem_append_left _ hlog)⟩

theorem LogsAfter.number_le (h : LogsAfter db₀ db) : db₀.log.number ≤ db.log.number := by
  rcases h.log with hlog | ⟨-, hlog⟩
  · rw [hlog]
  · exact hlog.le

theorem LogsAfter.of_sameLogs (h : LogsAfter db₀ db) (hs : SameLogs db db') :
    LogsAfter db₀ db' := by
  constructor
  · rw [hs.log]
    exact h.log
  · rw [hs.oldLogs]
    exact h.old

theorem LogsAfter.switchMemTable (h : LogsAfter db₀ db)
    (hnumber : db.log.number < db.nextFileNumber) : LogsAfter db₀ db.switchMemTable := by
  refine ⟨Or.inr ⟨rfl, h.number_le.trans_lt hnumber⟩, fun log hlog => ?_⟩
  rcases List.mem_append.mp hlog with hlog | hlog
  · exact h.old log hlog
  · rw [List.mem_singleton.mp hlog]
    exact h.log.imp_left fun heq => by simp [heq]

theorem compactImm_logsAfter (h : LogsAfter db₀ db) (io : FlushEvent) (imm : MemTable) :
    Ensures (fun _ => True) (compactImm o io imm db) (LogsAfter db₀) := by
  have hraised : SameLogs db { db with nextFileNumber := db.nextFileNumber + 1 } :=
    ⟨rfl, rfl, rfl, rfl, id⟩
  refine Stops.ensures_true.bind fun r _ => ?_
  obtain ⟨edit, s⟩ := r
  by_cases hs : s.isOk
  · simp only [hs, if_true]
    refine Stops.ensures_true.bind fun _ _ => Stops.ensures_true.bind fun _ _ =>
      Stops.ensures_true.bind fun v _ => ?_
    by_cases ha : io.apply.isOk
    · simp only [ha, if_true]
      exact ⟨h.log, fun _ hlog => absurd hlog List.not_mem_nil⟩
    · simp only [ha, Bool.false_eq_true, if_false]
      exact h.of_sameLogs (recordBackgroundError_sameLogs io.apply hraised)
  · simp only [hs, Bool.false_eq_true, if_false]
    exact h.of_sameLogs (recordBackgroundError_sameLogs s hraised)

theorem logsAfter_stable {κ : Type*} [LinearOrder κ] {D : Bytes → Prop} {rank : Bytes → κ} {n : ℕ}
    (db₀ : DB) (ho : o.comparator.OrdersOn D rank) (hp : ∀ p ∈ o.filterPolicy, p.Lawful)
    (hn : n < kMaxSequenceNumber) :
    Stable o (o.comparator.Places D rank)
      fun db => db.Restorable D rank n ∧ LogsAfter db₀ db := by
  have hs := restorable_stable ho hp hn
  refine ⟨fun {db} h imm himm io => ?_, fun {db} h himm => ?_, fun {db} h himm io => ?_,
    fun {db} h level hl userBegin userEnd hb he io => ?_⟩
  · exact (hs.flush h.1 himm io).and (compactImm_logsAfter h.2 io imm)
  · exact ⟨hs.switch h.1 himm, h.2.switchMemTable h.1.settled.wellFormed.log_number.2⟩
  · exact ((hs.automatic h.1 himm io).and (automaticCompaction_sameLogs io db)).mono
      fun db' hr => ⟨hr.1, h.2.of_sameLogs hr.2⟩
  · refine ((hs.manual h.1 hl hb he io).and
      (manualCompaction_sameLogs io level userBegin userEnd db)).mono fun r hr => ?_
    exact ⟨⟨hr.1.1, h.2.of_sameLogs hr.2⟩, hr.1.2⟩

theorem commit_logs {append : Status} (happend : append.isOk = true) (syncFile : Status)
    (sync : Bool) (b : WriteBatch) (db : DB) :
    Ensures (fun _ => True) (commit o append syncFile sync b db) fun r =>
      r.2.oldLogs = db.oldLogs ∧ r.2.log =
        ⟨db.log.number, db.log.records ++ [(b.setSequence (db.lastSequence + 1)).rep]⟩ := by
  unfold commit
  dsimp only
  split_ifs
  · refine Stops.ensures_true.bind fun _ _ => ?_
    unfold recordBackgroundError
    split_ifs <;> exact ⟨rfl, rfl⟩
  · exact Stops.ensures_true.bind fun r _ => Stops.ensures_true.bind fun _ _ => ⟨rfl, rfl⟩

end LogsAfter

end DB

/-- The log files that a process has written, and where in its block the writer of the last one
stands. -/
structure LogFiles where
  file : ℕ → Bytes
  blockOffset : ℕ

/-- What `RecoverLogFile` finds in the log files. -/
def Directory.readLogs (file : ℕ → Bytes) (dir : Directory) : Directory :=
  { dir with logs := dir.logs.map fun log =>
      ⟨log.number, (Log.Reader.make (file log.number) [] true 0).readAll.1⟩ }

theorem Directory.readLogs_eq {dir : Directory} {file : ℕ → Bytes}
    (h : ∀ log ∈ dir.logs, Log.Holds log.records (file log.number)) : dir.readLogs file = dir := by
  have hlogs : (dir.logs.map fun log : LogFile => (⟨log.number,
      (Log.Reader.make (file log.number) [] true 0).readAll.1⟩ : LogFile)) = dir.logs := by
    conv_rhs => rw [← List.map_id dir.logs]
    refine List.map_congr_left fun log hlog => ?_
    rw [h log hlog]
    rfl
  rw [Directory.readLogs, hlogs]

namespace LogFiles

/-- A log that is created has a higher number than the others, and it is empty. -/
def follow (db db' : DB) (logs : LogFiles) : LogFiles where
  file n := if n ≤ db.log.number then logs.file n else []
  blockOffset := if db'.log.number = db.log.number then logs.blockOffset else 0

def wrote (number : ℕ) (w : Log.Writer) (logs : LogFiles) : LogFiles :=
  ⟨Function.update logs.file number w.dest.contents, w.blockOffset⟩

def writer (number : ℕ) (results : List Status) (logs : LogFiles) : Log.Writer :=
  ⟨⟨logs.file number, results⟩, logs.blockOffset⟩

/-- The log files hold the records of the logs; unless a process was killed in the middle of one, they
hold nothing else. -/
structure Keep (torn : Prop) (db : DB) (logs : LogFiles) : Prop where
  old : ∀ log ∈ db.oldLogs, Log.Holds log.records (logs.file log.number)
  whole : ¬ torn → ∀ log ∈ db.oldLogs, Log.Whole (logs.file log.number)
  log : Log.Continues db.log.records (logs.file db.log.number) logs.blockOffset

variable {torn : Prop} {db db' : DB} {logs : LogFiles}

theorem Keep.readLogs (h : Keep torn db logs) (c : Comparator) :
    (db.directory c).readLogs logs.file = db.directory c := by
  refine Directory.readLogs_eq fun log hlog => ?_
  rcases List.mem_append.mp hlog with hlog | hlog
  · exact h.old log hlog
  · rw [List.mem_singleton.mp hlog]
    exact h.log.holds

theorem Keep.follow (h : Keep torn db logs) (ha : DB.LogsAfter db db')
    (hlast : ∀ log ∈ db.oldLogs, log.number < db.log.number) :
    Keep torn db' (logs.follow db db') := by
  have hfile : ∀ {n}, n ≤ db.log.number → (logs.follow db db').file n = logs.file n :=
    fun hn => if_pos hn
  have hnew : ∀ {n}, db.log.number < n → (logs.follow db db').file n = [] :=
    fun hn => if_neg (not_le.mpr hn)
  refine ⟨fun log hlog => ?_, fun htorn log hlog => ?_, ?_⟩
  · rcases ha.old log hlog with hold | ⟨hnone, hlt⟩
    · rcases List.mem_append.mp hold with hold | hold
      · rw [hfile (hlast log hold).le]
        exact h.old log hold
      · rw [List.mem_singleton.mp hold, hfile le_rfl]
        exact h.log.holds
    · rw [hnew hlt, hnone]
      exact Log.continues_new.holds
  · rcases ha.old log hlog with hold | ⟨-, hlt⟩
    · rcases List.mem_append.mp hold with hold | hold
      · rw [hfile (hlast log hold).le]
        exact h.whole htorn log hold
      · rw [List.mem_singleton.mp hold, hfile le_rfl]
        exact h.log.whole
    · rw [hnew hlt]
      exact Log.continues_new.whole
  · rcases ha.log with hsame | ⟨hnone, hlt⟩
    · have hoffset : (logs.follow db db').blockOffset = logs.blockOffset := if_pos (by rw [hsame])
      rw [hsame, hfile le_rfl, hoffset]
      exact h.log
    · have hoffset : (logs.follow db db').blockOffset = 0 := if_neg hlt.ne'
      rw [hnone, hnew hlt, hoffset]
      exact Log.continues_new

theorem Keep.addRecord (h : Keep torn db logs)
    (hlast : ∀ log ∈ db.oldLogs, log.number < db.log.number) {w : Log.Writer} {record : Bytes}
    (hw : Log.Continues (db.log.records ++ [record]) w.dest.contents w.blockOffset)
    (hold : db'.oldLogs = db.oldLogs)
    (hlog : db'.log = ⟨db.log.number, db.log.records ++ [record]⟩) :
    Keep torn db' (logs.wrote db.log.number w) := by
  have hfile : ∀ log ∈ db.oldLogs, (logs.wrote db.log.number w).file log.number =
      logs.file log.number := fun log hmem => Function.update_of_ne (hlast log hmem).ne _ _
  refine ⟨?_, fun htorn => ?_, ?_⟩
  · rw [hold]
    intro log hmem
    rw [hfile log hmem]
    exact h.old log hmem
  · rw [hold]
    intro log hmem
    rw [hfile log hmem]
    exact h.whole htorn log hmem
  · have hself : (logs.wrote db.log.number w).file db.log.number = w.dest.contents :=
      Function.update_self _ _ _
    rw [hlog]
    dsimp only
    rw [hself]
    exact hw

end LogFiles

end DVELevelDB
