import DVELevelDB.AcceptedCompactions
import DVELevelDB.Recovery

/-! # The keys that opening a database compares -/

namespace DVELevelDB

open VersionStore
open Stops (Ensures)

section Manifest

variable {c : Comparator} {D : Bytes → Prop} (hc : c.AcceptsOn D) {edits : List VersionEdit}

include hc

theorem applyEdit_accepts (level : ℕ) {state : List ℕ × List FileMetaData}
    (h : FilesIn D state.2) {edit : VersionEdit} (he : edit.KeysIn D) :
    Ensures NotFatal (applyEdit c level state edit) fun state' => FilesIn D state'.2 := by
  refine Stops.ensures_foldlM (I := fun state : List ℕ × List FileMetaData => FilesIn D state.2) h
    fun state h x hx => ?_
  exact (insertFile_accepts hc (he.newFiles x (List.mem_of_mem_filter hx)) h).bind fun _ h' => h'

theorem recoverLevel_accepts (he : ∀ edit ∈ edits, edit.KeysIn D) (level : ℕ) :
    Ensures NotFatal (recoverLevel c edits level) (FilesIn D) := by
  have hadded : Ensures NotFatal (edits.foldlM (applyEdit c level) ([], []))
      fun state => FilesIn D state.2 :=
    Stops.ensures_foldlM (I := fun state : List ℕ × List FileMetaData => FilesIn D state.2)
      FilesIn.nil fun state h edit hedit => applyEdit_accepts hc level h (he edit hedit)
  refine hadded.bind fun state h => ?_
  obtain ⟨deleted, added⟩ := state
  refine (saveLevel_accepts hc level deleted FilesIn.nil FilesIn.nil h).bind fun files hf => ?_
  split_ifs
  · exact (checkDisjoint_accepts hc hf).bind fun _ _ => hf
  · exact hf

theorem recoverVersion_accepts (he : ∀ edit ∈ edits, edit.KeysIn D) :
    Ensures NotFatal (recoverVersion c edits) (Version.KeysIn D) := by
  have hlevels : ∀ levels : List ℕ, Ensures NotFatal (recoverLevels c edits levels)
      fun l => ∀ files ∈ l, FilesIn D files := by
    intro levels
    induction levels with
    | nil => exact fun files hf => absurd hf List.not_mem_nil
    | cons level levels ih =>
      refine (recoverLevel_accepts hc he level).bind fun files hf => ?_
      refine ih.bind fun rest hrest => ?_
      intro files' hf'
      rcases List.mem_cons.mp hf' with rfl | hf'
      · exact hf
      · exact hrest files' hf'
  refine (hlevels _).bind fun levels hl => ?_
  intro level
  change FilesIn D (levels.getD level [])
  rw [List.getD_eq_getElem?_getD]
  cases hget : levels[level]? with
  | none => exact FilesIn.nil
  | some files => exact hl files (List.mem_of_getElem? hget)

omit hc in
theorem recoverPointers_in (he : ∀ edit ∈ edits, ∀ p ∈ edit.compactPointers, D p.2.userKey) :
    PointersIn D (recoverPointers edits) := by
  have hfold : ∀ {pointers : ℕ → Option InternalKey}, PointersIn D pointers →
      PointersIn D (edits.foldl (fun pointers edit => edit.setCompactPointers pointers)
        pointers) := by
    induction edits with
    | nil => exact fun h => h
    | cons edit edits ih =>
      intro pointers h
      apply ih fun edit' h' => he edit' (List.mem_cons_of_mem _ h')
      exact h.setCompactPointers (he edit List.mem_cons_self)
  exact hfold fun _ _ hkey => by cases hkey

omit hc in
theorem snapshotEdit_keysIn {pointers : ℕ → Option InternalKey} (hp : PointersIn D pointers)
    {v : Version} (h : v.KeysIn D) : (snapshotEdit pointers v).KeysIn D := by
  refine ⟨fun p hmem => ?_, fun x hx => ?_⟩
  · obtain ⟨level, -, hlevel⟩ := List.mem_filterMap.mp hmem
    obtain ⟨key, hkey, rfl⟩ := Option.map_eq_some_iff.mp hlevel
    exact hp level key hkey
  · obtain ⟨level, -, hx⟩ := List.mem_flatMap.mp hx
    obtain ⟨f, hf, rfl⟩ := List.mem_map.mp hx
    exact h level f hf

end Manifest

/-- All keys of the files that a directory refers to. -/
structure Directory.KeysIn (D : Bytes → Prop) (dir : Directory) : Prop where
  manifest : dir.manifest.KeysIn D
  logs : ∀ log ∈ dir.logs, log.KeysIn D

theorem Directory.new_keysIn (c : Comparator) (D : Bytes → Prop) : (new c).KeysIn D := by
  constructor
  · intro edit he
    obtain rfl := List.mem_singleton.mp he
    exact .empty
  · exact fun log hlog => absurd hlog List.not_mem_nil

theorem DB.KeysIn.directory {D : Bytes → Prop} {db : DB} (h : db.KeysIn D) (c : Comparator) :
    (db.directory c).KeysIn D := by
  refine ⟨h.manifest, ?_⟩
  intro log hlog
  rcases List.mem_append.mp hlog with hlog | hlog
  · exact h.oldLogs log hlog
  · obtain rfl := List.mem_singleton.mp hlog
    exact h.log

namespace Recovery

structure Recovering.KeysIn (D : Bytes → Prop) (st : Recovering) : Prop where
  edit : st.edit.KeysIn D
  kept : ∀ mem ∈ st.kept, DVELevelDB.KeysIn D mem.entries

structure Replay.KeysIn (D : Bytes → Prop) (r : Replay) : Prop where
  recovering : r.recovering.KeysIn D
  mem : ∀ mem ∈ r.mem, DVELevelDB.KeysIn D mem.entries

section Logs

variable {o : Options} {options : OpenOptions} {D : Bytes → Prop} (hc : o.comparator.AcceptsOn D)
  (io : OpenEvents)

include hc

theorem writeLevel0Table_accepts {mem : MemTable} (hm : KeysIn D mem.entries) {st : Recovering}
    (h : st.KeysIn D) : Ensures NotFatal (writeLevel0Table o io mem st) fun r => r.2.KeysIn D := by
  unfold writeLevel0Table
  cases hl : mem.entries with
  | nil => exact ⟨h.edit, h.kept⟩
  | cons first rest =>
    refine (buildTable_accepts hc _ (hl ▸ hm)).bind fun f hf => ?_
    split_ifs
    · refine ⟨⟨h.edit.pointers, fun x hx => ?_⟩, h.kept⟩
      rcases List.mem_append.mp hx with hx | hx
      · exact h.edit.newFiles x hx
      · obtain rfl := List.mem_singleton.mp hx
        exact hf
    · exact ⟨h.edit, h.kept⟩

theorem flushIfFull_accepts {mem : MemTable} (hm : KeysIn D mem.entries) {r : Replay}
    (h : r.KeysIn D) : Ensures NotFatal (flushIfFull o io mem r) fun r' => r'.2.KeysIn D := by
  unfold flushIfFull
  split_ifs
  · refine (writeLevel0Table_accepts hc io hm h.recovering).bind fun r' hr' => ?_
    exact ⟨hr', fun mem hmem => by cases hmem⟩
  · refine ⟨h.recovering, ?_⟩
    rintro mem' ⟨⟩
    exact hm

theorem replayRecord_accepts {record : Bytes} (hr : RecordIn D record) {r : Replay}
    (h : r.KeysIn D) :
    Ensures NotFatal (replayRecord o options io record r) fun r' => r'.2.KeysIn D := by
  unfold replayRecord
  by_cases hshort : record.length < kHeader
  · rw [if_pos hshort]
    exact h
  · rw [if_neg hshort]
    have hbatch : Ensures NotFatal (WriteBatch.setContents record)
        fun b => ∀ r ∈ b.records, D r.key := by
      unfold WriteBatch.setContents
      split_ifs
      · exact hr
      · intro h
        cases h
    refine hbatch.bind fun batch hb => ?_
    have hmem : KeysIn D (r.mem.getD .empty).entries := by
      cases hm : r.mem with
      | none => exact DVELevelDB.KeysIn.nil
      | some mem => exact h.mem mem hm
    refine (insertInto_accepts hc hb hmem).bind fun s hs => ?_
    obtain ⟨status, mem⟩ := s
    dsimp only
    split_ifs
    · exact flushIfFull_accepts hc io hs ⟨⟨h.recovering.edit, h.recovering.kept⟩, h.mem⟩
    · refine ⟨h.recovering, ?_⟩
      rintro mem' ⟨⟩
      exact hs

theorem replayRecords_accepts (number i : ℕ) {records : List Bytes}
    (hr : ∀ record ∈ records, RecordIn D record) {r : Replay} (h : r.KeysIn D) :
    Ensures NotFatal (replayRecords o options io number i records r) fun r' => r'.2.KeysIn D := by
  induction records generalizing i r with
  | nil => exact h
  | cons record records ih =>
    have hone : Ensures NotFatal (replayUndamaged o options io (io.readRecord number i) record r)
        fun r' => r'.2.KeysIn D := by
      unfold replayUndamaged
      by_cases hread : (io.readRecord number i).isOk
      · rw [if_pos hread]
        exact replayRecord_accepts hc io (hr record List.mem_cons_self) h
      · rw [if_neg hread]
        exact h
    refine hone.bind fun r' hr' => ?_
    obtain ⟨status, r'⟩ := r'
    dsimp only
    split_ifs
    · exact ih _ (fun record hmem => hr record (List.mem_cons_of_mem _ hmem)) hr'
    · exact hr'

theorem finishLog_accepts (lastLog : Bool) (status : Status) {r : Replay} (h : r.KeysIn D) :
    Ensures NotFatal (finishLog o options io lastLog status r) fun r' => r'.2.KeysIn D := by
  unfold finishLog
  by_cases hkeep : status.isOk && options.reuseLogs && lastLog && r.compactions = 0 && io.reuseLog
  · rw [if_pos hkeep]
    refine ⟨h.recovering.edit, ?_⟩
    rintro mem ⟨⟩
    cases hm : r.mem with
    | none => exact DVELevelDB.KeysIn.nil
    | some mem => exact h.mem mem hm
  · rw [if_neg hkeep]
    cases hm : r.mem with
    | none => exact h.recovering
    | some mem =>
      by_cases hs : status.isOk
      · simp only [if_pos hs]
        exact writeLevel0Table_accepts hc io (h.mem mem hm) h.recovering
      · simp only [if_neg hs]
        exact h.recovering

theorem recoverLogFile_accepts {log : LogFile} (hl : log.KeysIn D) (lastLog : Bool)
    {st : Recovering} (h : st.KeysIn D) :
    Ensures NotFatal (recoverLogFile o options io log lastLog st) fun r => r.2.KeysIn D := by
  unfold recoverLogFile
  split_ifs
  · have hstart : (Replay.mk st none 0).KeysIn D := ⟨h, fun mem hmem => by cases hmem⟩
    refine (replayRecords_accepts hc io log.number 0 hl hstart).bind fun r hr => ?_
    exact finishLog_accepts hc io lastLog r.1 hr
  · exact h

theorem recoverLogFiles_accepts {logs : List LogFile} (hl : ∀ log ∈ logs, log.KeysIn D)
    {st : Recovering} (h : st.KeysIn D) :
    Ensures NotFatal (recoverLogFiles o options io logs st) fun r => r.2.KeysIn D := by
  induction logs generalizing st with
  | nil => exact h
  | cons log logs ih =>
    refine (recoverLogFile_accepts hc io (hl log List.mem_cons_self) _ h).bind fun r hr => ?_
    obtain ⟨status, st'⟩ := r
    dsimp only
    split_ifs
    · exact ih (fun log hmem => hl log (List.mem_cons_of_mem _ hmem)) ⟨hr.edit, hr.kept⟩
    · exact hr

end Logs

/-- The keys of a database, or of the directory of one that could not be opened. -/
def OutcomeIn (D : Bytes → Prop) : Except (Status × Option Directory) DB → Prop
  | .ok db => db.KeysIn D
  | .error (_, dir) => ∀ dir' ∈ dir, dir'.KeysIn D

section Open

variable {o : Options} {options : OpenOptions} {D : Bytes → Prop} (hc : o.comparator.AcceptsOn D)
  (io : OpenEvents) {dir : Option Directory} {v : Version} {logs : List LogFile} {st : Recovering}

theorem failed_accepts {s : Status} (h : ∀ d ∈ dir, d.KeysIn D) :
    Ensures NotFatal (pure (.error (s, dir))) (OutcomeIn D) := h

theorem failedAt_accepts {s : Status} {dir : Directory} (h : dir.KeysIn D) :
    Ensures NotFatal (pure (.error (s, some dir))) (OutcomeIn D) := by
  rintro d ⟨⟩
  exact h

theorem openLog_keysIn (h : st.KeysIn D) (hl : ∀ log ∈ logs, log.KeysIn D) :
    (openLog logs st).1.KeysIn D ∧ DVELevelDB.KeysIn D (openLog logs st).2.1.entries := by
  unfold openLog
  split
  · rename_i mem log hkept hlast
    exact ⟨hl log (List.mem_of_getLast? hlast), h.kept mem hkept⟩
  · exact ⟨fun record hr => absurd hr List.not_mem_nil, DVELevelDB.KeysIn.nil⟩

theorem leftBehind_keysIn {dir : Directory} (h : dir.KeysIn D) {log : LogFile} (hl : log.KeysIn D) :
    (leftBehind dir st log).KeysIn D := by
  unfold leftBehind
  split_ifs
  · exact h
  · refine ⟨h.manifest, ?_⟩
    intro log' hlog
    rcases List.mem_append.mp hlog with hlog | hlog
    · exact h.logs log' hlog
    · obtain rfl := List.mem_singleton.mp hlog
      exact hl

include hc

theorem finishOpen_accepts {dir : Directory} (hd : dir.KeysIn D) (hv : v.KeysIn D)
    (hl : ∀ log ∈ logs, log.KeysIn D) (h : st.KeysIn D) :
    Ensures NotFatal (finishOpen o options io dir v logs st) (OutcomeIn D) := by
  obtain ⟨hlog, hmem⟩ := openLog_keysIn h hl
  have hpointers := recoverPointers_in fun edit hedit => (hd.manifest edit hedit).pointers
  have hset := hpointers.setCompactPointers h.edit.pointers
  unfold finishOpen
  dsimp only
  by_cases hlogFile : st.kept.isNone && !io.newLogFile.isOk
  · rw [if_pos hlogFile]
    exact failedAt_accepts hd
  rw [if_neg hlogFile]
  by_cases hsave : st.saveManifest
  · rw [if_pos hsave]
    refine (assertThat_notFatal _).bind fun _ _ => ?_
    refine (assertThat_notFatal _).bind fun _ _ => ?_
    refine (saveTo_accepts hc h.edit hv).bind fun version hversion => ?_
    split_ifs
    · refine ⟨hmem, DVELevelDB.KeysIn.nil, hversion, hset, hlog,
        fun l hl => absurd hl List.not_mem_nil, ?_⟩
      intro edit hedit
      rcases List.mem_append.mp hedit with hedit | hedit
      · unfold manifestEdits at hedit
        split_ifs at hedit
        · exact hd.manifest edit hedit
        · obtain rfl := List.mem_singleton.mp hedit
          exact snapshotEdit_keysIn hset hv
      · obtain rfl := List.mem_singleton.mp hedit
        exact h.edit
    · exact failedAt_accepts (leftBehind_keysIn hd hlog)
  · rw [if_neg hsave]
    refine ⟨hmem, DVELevelDB.KeysIn.nil, hv, hpointers, hlog, ?_, hd.manifest⟩
    split_ifs
    · exact fun log hmem => hl log (List.dropLast_subset _ hmem)
    · exact hl

theorem recover_accepts {dir : Directory} (hd : dir.KeysIn D) :
    Ensures NotFatal (recover o options io dir) (OutcomeIn D) := by
  unfold recover
  by_cases hread : (!io.manifest.isOk) = true
  · rw [if_pos hread]
    exact failedAt_accepts hd
  rw [if_neg hread]
  by_cases hname : dir.comparatorName ≠ o.comparator.name
  · rw [if_pos hname]
    exact failedAt_accepts hd
  rw [if_neg hname]
  refine (recoverVersion_accepts hc hd.manifest).bind fun v hv => ?_
  unfold recoverLogs
  by_cases hchildren : (!io.getChildren.isOk) = true
  · rw [if_pos hchildren]
    exact failedAt_accepts hd
  rw [if_neg hchildren]
  split
  · exact failedAt_accepts hd
  · have hlogs : ∀ log ∈ (dir.logs.filter fun log => dir.logNumber ≤ log.number).mergeSort
        fun log log' => log.number ≤ log'.number, log.KeysIn D := by
      intro log hlog
      exact hd.logs log (List.mem_of_mem_filter ((List.mergeSort_perm _ _).mem_iff.mp hlog))
    have hstart : Recovering.KeysIn D ⟨{}, !(options.reuseLogs && io.reuseManifest), 0,
        dir.manifest.nextFileNumber + 1, none⟩ :=
      ⟨.empty, fun mem hmem => by cases hmem⟩
    refine (recoverLogFiles_accepts hc io hlogs hstart).bind fun r hr => ?_
    obtain ⟨status, st⟩ := r
    dsimp only
    by_cases hs : status.isOk
    · rw [if_pos hs]
      exact finishOpen_accepts hc io hd hv hlogs hr
    · rw [if_neg hs]
      exact failedAt_accepts hd

/-- Opening compares the keys of the manifest and the logs. -/
theorem openAt_accepts (hd : ∀ d ∈ dir, d.KeysIn D) :
    Ensures NotFatal (DB.openAt o options io dir) (OutcomeIn D) := by
  unfold DB.openAt
  cases dir with
  | none =>
    dsimp only
    split_ifs
    · exact failed_accepts hd
    · exact recover_accepts hc io (Directory.new_keysIn _ _)
    · exact failed_accepts hd
    · exact failed_accepts hd
  | some dir =>
    dsimp only
    split_ifs
    · exact failed_accepts hd
    · exact failed_accepts hd
    · exact recover_accepts hc io (hd dir rfl)

end Open

end Recovery

end DVELevelDB
