import DVELevelDB.DVECLevelDB

/-! # Opening a database

The manifest is replayed into a version, the logs into memtables and level-0 tables.
-/

namespace DVELevelDB

section Manifest

variable (c : Comparator)

/-- `Builder::Apply` for one level: the deleted numbers and the added files. -/
def applyEdit (level : ℕ) (state : List ℕ × List FileMetaData) (edit : VersionEdit) :
    Exec (List ℕ × List FileMetaData) :=
  (edit.newFiles.filter (·.1 = level)).foldlM (fun state f => do
    return (state.1.filter (· ≠ f.2.number), ← insertFile c f.2 state.2))
    (state.1 ++ (edit.deletedFiles.filter (·.1 = level)).map (·.2), state.2)

/-- `Builder::SaveTo` for one level without files. -/
def recoverLevel (edits : List VersionEdit) (level : ℕ) : Exec (List FileMetaData) := do
  let (deleted, added) ← edits.foldlM (applyEdit c level) ([], [])
  let files ← saveLevel c level deleted [] [] added
  if level > 0 then checkDisjoint c files
  return files

def recoverLevels (edits : List VersionEdit) : List ℕ → Exec (List (List FileMetaData))
  | [] => return []
  | level :: levels => do
    return (← recoverLevel c edits level) :: (← recoverLevels edits levels)

def recoverVersion (edits : List VersionEdit) : Exec Version := do
  let levels ← recoverLevels c edits (List.range kNumLevels)
  return ⟨fun level => levels.getD level []⟩

def recoverPointers (edits : List VersionEdit) : ℕ → Option InternalKey :=
  edits.foldl (fun pointers edit => edit.setCompactPointers pointers) fun _ => none

/-- The edit that `WriteSnapshot` writes. -/
def snapshotEdit (pointers : ℕ → Option InternalKey) (v : Version) : VersionEdit where
  compactPointers := (List.range kNumLevels).filterMap fun level => (pointers level).map (level, ·)
  newFiles := (List.range kNumLevels).flatMap fun level => (v.files level).map (level, ·)

end Manifest

/-- What a database leaves in its directory, besides the table files. -/
structure Directory where
  comparatorName : Bytes
  manifest : Manifest
  logNumber : ℕ
  logs : List LogFile

/-- `NewDB`. -/
def Directory.new (c : Comparator) : Directory := ⟨c.name, ⟨[{}], 2, 0⟩, 0, []⟩

def DB.directory (c : Comparator) (db : DB) : Directory :=
  ⟨c.name, db.manifest, db.logNumber, db.oldLogs ++ [db.log]⟩

/-- The options that only opening reads. -/
structure OpenOptions where
  createIfMissing : Bool
  errorIfExists : Bool
  paranoidChecks : Bool
  reuseLogs : Bool

structure OpenEvents where
  dbname : Bytes
  lockFile : Status
  newDB : Status
  manifest : Status
  getChildren : Status
  tableFileExists : ℕ → Bool
  newSequentialFile : ℕ → Status
  readRecord : ℕ → ℕ → Status
  build : ℕ → Status
  reuseManifest : Bool
  reuseLog : Bool
  newLogFile : Status
  apply : Status

namespace Recovery

/-- What replaying the logs has come to; `kept` is the memtable of a log that stays in use. -/
structure Recovering where
  edit : VersionEdit
  saveManifest : Bool
  maxSequence : ℕ
  nextFileNumber : ℕ
  kept : Option MemTable

structure Replay where
  recovering : Recovering
  mem : Option MemTable
  compactions : ℕ

section Definitions

variable (o : Options) (options : OpenOptions) (io : OpenEvents)

def maybeIgnoreError (s : Status) : Status :=
  if s.isOk || options.paranoidChecks then s else .ok

/-- `WriteLevel0Table` without a base version. -/
def writeLevel0Table (mem : MemTable) (st : Recovering) : Exec (Status × Recovering) :=
  let number := st.nextFileNumber
  let st := { st with nextFileNumber := number + 1, saveManifest := true }
  match mem.entries with
  | [] => return (.ok, st)
  | first :: rest => do
    let f ← buildTable o number first rest
    if (io.build number).isOk then
      return (.ok, { st with edit := { st.edit with newFiles := st.edit.newFiles ++ [(0, f)] } })
    else
      return (io.build number, st)

def flushIfFull (mem : MemTable) (r : Replay) : Exec (Status × Replay) :=
  if o.memTableFull mem then do
    let (status, recovering) ← writeLevel0Table o io mem r.recovering
    return (status, ⟨recovering, none, r.compactions + 1⟩)
  else
    return (.ok, { r with mem := some mem })

def lastSequenceOf (batch : WriteBatch) : ℕ :=
  ((batch.sequence + batch.count - 1) % 2 ^ 64).toNat

/-- One turn of the loop of `RecoverLogFile`. -/
def replayRecord (record : Bytes) (r : Replay) : Exec (Status × Replay) :=
  if record.length < kHeader then
    return (if options.paranoidChecks then
      .make .corruption (utf8 "log record too small") [] else .ok, r)
  else do
    let batch ← WriteBatch.setContents record
    let (status, mem) ← batch.insertInto o.comparator (r.mem.getD .empty)
    if (maybeIgnoreError options status).isOk then
      let maxSequence := max r.recovering.maxSequence (lastSequenceOf batch)
      flushIfFull o io mem { r with recovering := { r.recovering with maxSequence } }
    else
      return (maybeIgnoreError options status, { r with mem := some mem })

def replayUndamaged (read : Status) (record : Bytes) (r : Replay) : Exec (Status × Replay) :=
  if read.isOk then
    replayRecord o options io record r
  else
    return (if options.paranoidChecks then read else .ok, r)

def replayRecords (number : ℕ) : ℕ → List Bytes → Replay → Exec (Status × Replay)
  | _, [], r => return (.ok, r)
  | i, record :: records, r => do
    let (status, r) ← replayUndamaged o options io (io.readRecord number i) record r
    if status.isOk then replayRecords number (i + 1) records r else return (status, r)

/-- The end of `RecoverLogFile`: the last log may stay in use, else what is left is written. -/
def finishLog (lastLog : Bool) (status : Status) (r : Replay) : Exec (Status × Recovering) :=
  if status.isOk && options.reuseLogs && lastLog && r.compactions = 0 && io.reuseLog then
    return (status, { r.recovering with kept := some (r.mem.getD .empty) })
  else
    match r.mem with
    | some mem =>
      if status.isOk then writeLevel0Table o io mem r.recovering else return (status, r.recovering)
    | none => return (status, r.recovering)

def recoverLogFile (log : LogFile) (lastLog : Bool) (st : Recovering) :
    Exec (Status × Recovering) :=
  if (io.newSequentialFile log.number).isOk then do
    let (status, r) ← replayRecords o options io log.number 0 log.records ⟨st, none, 0⟩
    finishLog o options io lastLog status r
  else
    return (maybeIgnoreError options (io.newSequentialFile log.number), st)

def recoverLogFiles : List LogFile → Recovering → Exec (Status × Recovering)
  | [], st => return (.ok, st)
  | log :: logs, st => do
    let (status, st) ← recoverLogFile o options io log logs.isEmpty st
    if status.isOk then
      -- `MarkFileNumberUsed`
      recoverLogFiles logs { st with nextFileNumber := max st.nextFileNumber (log.number + 1) }
    else
      return (status, st)

def openLog (logs : List LogFile) (st : Recovering) : LogFile × MemTable × ℕ :=
  match st.kept, logs.getLast? with
  | some mem, some log => (log, mem, st.nextFileNumber)
  | _, _ => (⟨st.nextFileNumber, []⟩, .empty, st.nextFileNumber + 1)

/-- The first record of a new manifest; an old one that stays in use goes on. -/
def manifestEdits (dir : Directory) (pointers : ℕ → Option InternalKey) (v : Version) :
    List VersionEdit :=
  if options.reuseLogs && io.reuseManifest then dir.manifest.edits else [snapshotEdit pointers v]

/-- What is in the directory after a failure; a log that was created stays. -/
def leftBehind (dir : Directory) (st : Recovering) (log : LogFile) : Directory :=
  if st.kept.isSome then dir else { dir with logs := dir.logs ++ [log] }

/-- The end of `Open`: the log, and what `LogAndApply` makes of the edit. -/
def finishOpen (dir : Directory) (v : Version) (logs : List LogFile) (st : Recovering) :
    Exec (Except (Status × Option Directory) DB) := do
  let lastSequence := max dir.manifest.lastSequence st.maxSequence
  let (log, mem, nextFileNumber) := openLog logs st
  let compactPointers := recoverPointers dir.manifest.edits
  if st.kept.isNone && !io.newLogFile.isOk then
    return .error (io.newLogFile, some dir)
  else if st.saveManifest then
    assertThat (log.number ≥ dir.logNumber)
    assertThat (log.number < nextFileNumber)
    let compactPointers := st.edit.setCompactPointers compactPointers
    let version ← saveTo o.comparator st.edit v
    if io.apply.isOk then
      return .ok {
        mem, imm := none, version, compactPointers, lastSequence, snapshots := [], bgError := .ok
        nextFileNumber, log, oldLogs := [], logNumber := log.number
        manifest := ⟨manifestEdits options io dir compactPointers v ++ [st.edit], nextFileNumber,
          lastSequence⟩ }
    else
      return .error (io.apply, some (leftBehind dir st log))
  else
    let oldLogs := if st.kept.isSome then logs.dropLast else logs
    return .ok {
      mem, imm := none, version := v, compactPointers, lastSequence, snapshots := [], bgError := .ok
      nextFileNumber, log, oldLogs, logNumber := dir.logNumber, manifest := dir.manifest }

def missingFiles (v : Version) : List ℕ :=
  (((List.range kNumLevels).flatMap v.files).map (·.number)).dedup.filter
    fun number => !io.tableFileExists number

def recoverLogs (dir : Directory) (v : Version) : Exec (Except (Status × Option Directory) DB) :=
  if !io.getChildren.isOk then
    return .error (io.getChildren, some dir)
  else
    match (missingFiles io v).min? with
    | some number =>
      let text := utf8 (toString (missingFiles io v).length ++ " missing files; e.g.")
      return .error (.make .corruption text (FileAccess.makeFileName io.dbname number "ldb"), some dir)
    | none => do
      let logs := (dir.logs.filter fun log => dir.logNumber ≤ log.number).mergeSort
        fun log log' => log.number ≤ log'.number
      let (status, st) ← recoverLogFiles o options io logs
        ⟨{}, !(options.reuseLogs && io.reuseManifest), 0, dir.manifest.nextFileNumber + 1, none⟩
      if status.isOk then
        finishOpen o options io dir v logs st
      else
        return .error (status, some dir)

/-- `VersionSet::Recover`, which checks the name of the comparator, and what follows it. -/
def recover (dir : Directory) : Exec (Except (Status × Option Directory) DB) :=
  if !io.manifest.isOk then
    return .error (io.manifest, some dir)
  else if dir.comparatorName ≠ o.comparator.name then
    return .error (.make .invalidArgument
      (dir.comparatorName ++ utf8 " does not match existing comparator ") o.comparator.name, some dir)
  else do
    recoverLogs o options io dir (← recoverVersion o.comparator dir.manifest.edits)

end Definitions

end Recovery

/-- `DB::Open`: the database, or the status and the directory as it is then. -/
def DB.openAt (o : Options) (options : OpenOptions) (io : OpenEvents) :
    Option Directory → Exec (Except (Status × Option Directory) DB)
  | none =>
    if !io.lockFile.isOk then
      return .error (io.lockFile, none)
    else if options.createIfMissing then
      if io.newDB.isOk then
        Recovery.recover o options io (.new o.comparator)
      else
        return .error (io.newDB, none)
    else
      return .error (.make .invalidArgument io.dbname
        (utf8 "does not exist (create_if_missing is false)"), none)
  | some dir =>
    if !io.lockFile.isOk then
      return .error (io.lockFile, some dir)
    else if options.errorIfExists then
      return .error (.make .invalidArgument io.dbname (utf8 "exists (error_if_exists is true)"),
        some dir)
    else
      Recovery.recover o options io dir

section Created

def OpenOptions.default : OpenOptions := ⟨true, false, false, false⟩

def OpenEvents.healthy : OpenEvents where
  dbname := []
  lockFile := .ok
  newDB := .ok
  manifest := .ok
  getChildren := .ok
  tableFileExists _ := true
  newSequentialFile _ := .ok
  readRecord _ _ := .ok
  build _ := .ok
  reuseManifest := true
  reuseLog := true
  newLogFile := .ok
  apply := .ok

theorem levels_empty :
    (⟨fun level => ((List.range kNumLevels).map fun _ => []).getD level []⟩ : Version) =
      ⟨fun _ => []⟩ := by
  congr 1
  funext level
  rw [List.getD_eq_getElem?_getD, List.getElem?_map]
  cases (List.range kNumLevels)[level]? <;> rfl

theorem recoverVersion_empty (c : Comparator) : recoverVersion c [{}] = .ok ⟨fun _ => []⟩ := by
  have hlevels : ∀ levels : List ℕ,
      recoverLevels c [{}] levels = .ok (levels.map fun _ => []) := by
    intro levels
    induction levels with
    | nil => rfl
    | cons level levels ih =>
      rw [recoverLevels, ih]
      by_cases hl : level > 0
      · simp only [recoverLevel, if_pos hl]
        rfl
      · simp only [recoverLevel, if_neg hl]
        rfl
  rw [recoverVersion, hlevels, Stops.ok_bind, ← levels_empty]
  rfl

/-- A database that did not exist is empty. -/
theorem DB.openAt_none (o : Options) :
    DB.openAt o .default .healthy none = .ok (.ok DB.fresh) := by
  have hlevels : saveLevels o.comparator {} ⟨fun _ => []⟩ (List.range kNumLevels) =
      .ok ((List.range kNumLevels).map fun _ => []) := by
    refine saveLevels_eq (fun _ => []) _ fun level _ => ?_
    by_cases hl : level > 0
    · simp only [saveLevelTo, if_pos hl]
      rfl
    · simp only [saveLevelTo, if_neg hl]
      rfl
  have hsave : saveTo o.comparator {} ⟨fun _ => []⟩ = .ok ⟨fun _ => []⟩ := by
    rw [saveTo, hlevels, Stops.ok_bind, ← levels_empty]
    rfl
  have hrecover : Recovery.recover o .default .healthy (.new o.comparator) =
      Recovery.finishOpen o .default .healthy (.new o.comparator) ⟨fun _ => []⟩ []
        ⟨{}, true, 0, 3, none⟩ := by
    have hmissing : Recovery.missingFiles .healthy ⟨fun _ => []⟩ = [] := by
      simp [Recovery.missingFiles, OpenEvents.healthy]
    have hread : OpenEvents.healthy.manifest.isOk = true := rfl
    have hchildren : OpenEvents.healthy.getChildren.isOk = true := rfl
    rw [Recovery.recover, hread]
    simp only [Directory.new, Bool.not_true, Bool.false_eq_true, if_false, ne_eq,
      not_true_eq_false, recoverVersion_empty, Stops.ok_bind, Recovery.recoverLogs, hmissing,
      hchildren, List.min?_nil, List.filter_nil, List.mergeSort_nil]
    rfl
  have hopen : DB.openAt o .default .healthy none =
      Recovery.recover o .default .healthy (.new o.comparator) := rfl
  rw [hopen, hrecover, Recovery.finishOpen]
  simp only [Recovery.openLog, hsave]
  rfl

end Created

end DVELevelDB
