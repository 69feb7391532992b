import DVELevelDB.Reopening
import DVELevelDB.StoredLogs

/-! # Writes survive the end of the process

Replaying the logs brings back what the memtables held. So a database that is opened again has
all writes that succeeded, in their order, and of those that failed some as a whole.
-/

namespace DVELevelDB

open VersionStore
open Stops (Ensures)

variable {κ : Type*} [LinearOrder κ] {D : Bytes → Prop} {rank : Bytes → κ}

namespace Recovery

section Replay

variable {o : Options} {options : OpenOptions} {io : OpenEvents} {records before : List Bytes}
  {st : Recovering} {mem : MemTable} {r : Replay} {lo m used t k n n' s : ℕ}
  {fs : List FileMetaData} {b : WriteBatch} {ops : List Record}

omit [LinearOrder κ] in
variable (rank) in
/-- The tables and the memtable hold what has been replayed. -/
def Contains (records : List Bytes) (st : Recovering) (mem : Option MemTable) : Prop :=
  ∃ es, Stored rank records es ∧ ∀ e, e ∈ es ↔
    (∃ f ∈ addedFiles [st.edit], e ∈ f.entries) ∨ ∃ mt ∈ mem, e ∈ mt.entries

omit [LinearOrder κ] in
variable (rank) in
/-- In the middle of a log: until there is a table, the memtable has what is from this log. -/
structure Replay.Contains (before records : List Bytes) (r : Replay) : Prop where
  all : Recovery.Contains rank (before ++ records) r.recovering r.mem
  separate : r.compactions = 0 → Recovery.Contains rank before r.recovering none ∧
    ∃ es, Stored rank records es ∧ ∀ e, e ∈ es ↔ ∃ mt ∈ r.mem, e ∈ mt.entries
  unsaved : r.recovering.saveManifest = false → before = [] ∧ (r.mem = none → records = [])

omit [LinearOrder κ] in
variable (rank) in
/-- At the end of a log, which may be kept with its memtable. -/
structure Finished (before records : List Bytes) (st : Recovering) : Prop where
  written : st.kept = none → Contains rank (before ++ records) st none
  kept : ∀ mt ∈ st.kept, Contains rank before st none ∧
    ∃ es, Stored rank records es ∧ ∀ e, e ∈ es ↔ e ∈ mt.entries
  unsaved : st.saveManifest = false → before = [] ∧ (st.kept = none → records = [])

variable (ho : o.comparator.OrdersOn D rank) (hp : ∀ p ∈ o.filterPolicy, p.Lawful)

include ho hp

theorem writeLevel0Table_contains (hs : Sorted D rank mem.entries)
    (h : Contains rank records st (some mem)) :
    Ensures (fun _ => True) (writeLevel0Table o io mem st) fun r => r.1.isOk = true →
      Contains rank records r.2 none ∧ r.2.saveManifest = true ∧ r.2.kept = st.kept := by
  obtain ⟨es, hst, hmem⟩ := h
  unfold writeLevel0Table
  cases hl : mem.entries with
  | nil =>
    refine fun _ => ⟨⟨es, hst, fun e => ?_⟩, rfl, rfl⟩
    rw [hmem]
    simp [hl]
  | cons first rest =>
    rw [hl] at hs
    obtain ⟨f, hf, -, hfe, -⟩ := buildTable_eq ho hp st.nextFileNumber hs
    simp only [hf, Stops.ok_bind]
    split_ifs with hbuild
    · refine fun _ => ⟨⟨es, hst, fun e => ?_⟩, rfl, rfl⟩
      rw [hmem]
      simp [addedFiles, or_and_right, exists_or, hl, hfe]
    · exact fun hok => absurd hok hbuild

theorem flushIfFull_contains (hs : Sorted D rank mem.entries)
    (h : Replay.Contains rank before records { r with mem := some mem }) :
    Ensures (fun _ => True) (flushIfFull o io mem r) fun r' => r'.1.isOk = true →
      r'.2.Contains rank before records := by
  rw [flushIfFull]
  split_ifs
  · refine (writeLevel0Table_contains ho hp hs h.all).bind fun r' hr' hok => ?_
    obtain ⟨hall, hsaved, -⟩ := hr' hok
    refine ⟨hall, fun hzero => absurd hzero (Nat.succ_ne_zero _), fun hunsaved => ?_⟩
    exact absurd (hsaved.symm.trans hunsaved) (by decide)
  · exact fun _ => h

theorem replayRecord_contains (h : Replaying D rank options io lo m used k n r)
    (hc : r.Contains rank before records) (hs : n ≤ s) (hb : b.Denotes ops)
    (hlen : ops.length < 2 ^ 31) (hops : ∀ r ∈ ops, D r.key ∧ StorableKey r.key)
    (hseq : b.sequence = s + 1) (hmax : s + ops.length ≤ kMaxSequenceNumber) :
    Ensures (fun _ => True) (replayRecord o options io b.rep r) fun r' => r'.1.isOk = true →
      r'.2.Contains rank before (records ++ [b.rep]) := by
  obtain ⟨-, t, fs, hrec, hmem, -⟩ := h
  have hold : Sorted D rank (r.mem.getD .empty).entries ∧
      ∀ e ∈ (r.mem.getD .empty).entries, e.key.sequence ≤ s := by
    cases hm : r.mem with
    | none => exact ⟨Sorted.nil, fun e he => absurd he List.not_mem_nil⟩
    | some mem =>
      have hb := hmem mem hm
      exact ⟨hb.sorted, fun e he => ((hb.upTo e he).trans (min_le_left _ _)).trans hs⟩
  have hentries : ∀ e, e ∈ (r.mem.getD .empty).entries ↔ ∃ mt ∈ r.mem, e ∈ mt.entries := by
    intro e
    cases hm : r.mem with
    | none => simpa using fun he : e ∈ MemTable.empty.entries => absurd he List.not_mem_nil
    | some mem => simp
  have hfits := hb.fits
  obtain ⟨mem, es, hfold, hsorted, hperm, hst⟩ := MemTable.insertRecords (n := s) ho hold.1
    (fun r hr => ⟨(hops r hr).1, (hops r hr).2, hfits r hr⟩) hmax hold.2
  have hset : WriteBatch.setContents b.rep = .ok b := by
    rw [WriteBatch.setContents, dif_pos b.header]
    rfl
  have hinsert : b.insertInto o.comparator (r.mem.getD .empty) = .ok (.ok, mem) := by
    rw [MemTable.insertInto_eq_fold, hb.records_eq, hseq, hfold, hb.parseStatus_ok hlen]
    rfl
  have hok : maybeIgnoreError options .ok = .ok := rfl
  rw [← hseq] at hst
  rw [replayRecord, if_neg (not_lt.mpr b.header), hset, Stops.ok_bind, hinsert, Stops.ok_bind]
  simp only [hok, Status.isOk_ok, if_true]
  have hnew : ∀ e, (∃ mt ∈ some mem, e ∈ mt.entries) ↔ e ∈ es ∨ ∃ mt ∈ r.mem, e ∈ mt.entries := by
    intro e
    simp [hperm.mem_iff, hentries]
  refine flushIfFull_contains ho hp hsorted ⟨?_, fun hzero => ?_, fun hunsaved => ?_⟩
  · obtain ⟨es', hst', hall⟩ := hc.all
    refine ⟨es' ++ es, ?_, fun e => ?_⟩
    · rw [← List.append_assoc]
      exact hst'.append (.single hb hst)
    · rw [List.mem_append, hall, or_assoc]
      exact or_congr_right ((hnew e).trans or_comm).symm
  · obtain ⟨htables, es', hst', hall⟩ := hc.separate hzero
    refine ⟨htables, es' ++ es, hst'.append (.single hb hst), fun e => ?_⟩
    rw [List.mem_append, hall]
    exact ((hnew e).trans or_comm).symm
  · exact ⟨(hc.unsaved hunsaved).1, by simp⟩

theorem replayRecords_contains (hreads : io.Reads) (number i : ℕ) {more : List Bytes}
    (h : Replaying D rank options io lo m used k n r) (hc : r.Contains rank before records)
    (hl : Logged D n more n') (hmax : n' ≤ kMaxSequenceNumber) :
    Ensures (fun _ => True) (replayRecords o options io number i more r) fun r' =>
      r'.1.isOk = true → r'.2.Contains rank before (records ++ more) := by
  induction more generalizing i n r records with
  | nil =>
    intro _
    rw [List.append_nil]
    exact hc
  | cons record more ih =>
    cases hl with
    | @cons _ _ s b ops _ hs hb hlen hops hseq hrest =>
      have hundamaged : replayUndamaged o options io (io.readRecord number i) b.rep r =
          replayRecord o options io b.rep r := if_pos (hreads.2 number i)
      have hle := hrest.le.trans hmax
      have hspec := replayRecord_spec ho hp h hs hb hlen hops hseq hle
      have hcontains := replayRecord_contains ho hp h hc hs hb hlen hops hseq hle
      rw [replayRecords, hundamaged]
      refine ((hspec.imp fun _ _ => trivial).and hcontains).bind fun r₁ h₁ => ?_
      obtain ⟨status, r₁⟩ := r₁
      dsimp only at h₁ ⊢
      split_ifs with hok
      · have hall := ih (i + 1) h₁.1 (h₁.2 hok) hrest
        rw [List.append_assoc] at hall
        exact hall
      · exact fun hok' => absurd hok' hok

theorem finishLog_finished (lastLog : Bool) {status : Status}
    (h : Replaying D rank options io lo m used k n r) (hc : r.Contains rank before records) :
    Ensures (fun _ => True) (finishLog o options io lastLog status r) fun r' =>
      r'.1.isOk = true → Finished rank before records r'.2 := by
  obtain ⟨hkept, t, fs, -, hmem, -⟩ := h
  rw [finishLog]
  by_cases hreuse : (status.isOk && options.reuseLogs && lastLog && r.compactions = 0 &&
      io.reuseLog) = true
  · rw [if_pos hreuse]
    simp only [Bool.and_eq_true, decide_eq_true_eq] at hreuse
    obtain ⟨htables, es, hst, hall⟩ := hc.separate hreuse.1.2
    refine fun _ => ⟨fun hnone => absurd hnone (Option.some_ne_none _), ?_, fun hunsaved => ?_⟩
    · rintro mt ⟨⟩
      refine ⟨htables, es, hst, fun e => ?_⟩
      rw [hall]
      cases hm : r.mem with
      | none => simpa using fun he : e ∈ MemTable.empty.entries => absurd he List.not_mem_nil
      | some mem => simp
    · exact ⟨(hc.unsaved hunsaved).1, fun hnone => absurd hnone (Option.some_ne_none _)⟩
  · rw [if_neg hreuse]
    cases hm : r.mem with
    | none =>
      have hall := hc.all
      rw [hm] at hall
      refine fun _ => ⟨fun _ => hall, ?_, fun hunsaved => ?_⟩
      · intro mt hmt
        rw [hkept] at hmt
        cases hmt
      · exact ⟨(hc.unsaved hunsaved).1, fun _ => (hc.unsaved hunsaved).2 hm⟩
    | some mem =>
      have hall := hc.all
      rw [hm] at hall
      dsimp only
      split_ifs with hok
      · refine (writeLevel0Table_contains ho hp (hmem mem hm).sorted hall).mono fun r' hr' hok' => ?_
        obtain ⟨htables, hsaved, hkept'⟩ := hr' hok'
        refine ⟨fun _ => htables, ?_, fun hunsaved => absurd (hsaved.symm.trans hunsaved) (by decide)⟩
        intro mt hmt
        rw [hkept', hkept] at hmt
        cases hmt
      · exact fun hok' => absurd hok' hok

theorem recoverLogFile_finished (hreads : io.Reads) {log : LogFile} (lastLog : Bool)
    (h : st.Holds D rank options io lo m used t n fs) (hkept : st.kept = none)
    (hc : Contains rank before st none) (hunsaved : st.saveManifest = false → before = [])
    (hl : Logged D n log.records n') (hmax : n' ≤ kMaxSequenceNumber) :
    Ensures (fun _ => True) (recoverLogFile o options io log lastLog st) fun r =>
      r.1.isOk = true → Finished rank before log.records r.2 := by
  have hstart : Replaying D rank options io lo m used n n ⟨st, none, 0⟩ := by
    refine ⟨hkept, t, fs, h, ?_, fun _ => h.le.2⟩
    rintro mem ⟨⟩
  have hcstart : Replay.Contains rank before [] ⟨st, none, 0⟩ := by
    refine ⟨?_, fun _ => ⟨hc, [], .nil, by simp⟩, fun hu => ⟨hunsaved hu, fun _ => rfl⟩⟩
    rw [List.append_nil]
    exact hc
  have hspec := replayRecords_spec ho hp log.number 0 hstart hl hmax
  have hcontains := replayRecords_contains ho hp hreads log.number 0 hstart hcstart hl hmax
  rw [recoverLogFile, if_pos (hreads.1 log.number)]
  refine ((hspec.imp fun _ _ => trivial).and hcontains).bind fun r hr => ?_
  obtain ⟨status, r⟩ := r
  dsimp only at hr ⊢
  by_cases hok : status.isOk = true
  · obtain ⟨n'', -, -, hreplaying⟩ := hr.1 hok
    exact finishLog_finished ho hp lastLog hreplaying (hr.2 hok)
  · have hfailed : finishLog o options io lastLog status r = .ok (status, r.recovering) := by
      have hfalse : status.isOk = false := by simpa using hok
      rw [finishLog]
      simp only [hfalse, Bool.false_and, Bool.false_eq_true, if_false]
      cases r.mem <;> rfl
    rw [hfailed]
    exact fun hok' => absurd hok' hok

theorem recoverLogFiles_finished (hreads : io.Reads) {logs : List LogFile}
    (h : st.Holds D rank options io lo m used t n fs) (hkept : st.kept = none)
    (hc : Contains rank before st none) (hunsaved : st.saveManifest = false → before = [])
    (hl : Logged D n (logs.flatMap (·.records)) n') (hmax : n' ≤ kMaxSequenceNumber) :
    Ensures (fun _ => True) (recoverLogFiles o options io logs st) fun r => r.1.isOk = true →
      Finished rank (before ++ logs.dropLast.flatMap (·.records))
        (logs.getLast?.toList.flatMap (·.records)) r.2 := by
  induction logs generalizing n t fs used st before with
  | nil =>
    refine fun _ => ⟨fun _ => by simpa using hc, ?_, fun hu => ⟨by simpa using hunsaved hu, by simp⟩⟩
    intro mt hmt
    rw [hkept] at hmt
    cases hmt
  | cons log logs ih =>
    rw [List.flatMap_cons] at hl
    obtain ⟨k, hlog, hlogs⟩ := hl.split
    have hspec := recoverLogFile_spec ho hp logs.isEmpty h hkept hlog (hlogs.le.trans hmax)
    have hfinished := recoverLogFile_finished ho hp hreads logs.isEmpty h hkept hc hunsaved hlog
      (hlogs.le.trans hmax)
    rw [recoverLogFiles]
    refine ((hspec.imp fun _ _ => trivial).and hfinished).bind fun r hr => ?_
    obtain ⟨status, st₁⟩ := r
    dsimp only at hr ⊢
    split_ifs with hok
    · obtain ⟨k', hk', hlogged, ⟨t₁, fs₁, hholds, -⟩, hnone⟩ := hr.1 hok
      have hfin := hr.2 hok
      cases logs with
      | nil =>
        have hlast : Finished rank (before ++ []) (log.records ++ []) st₁ := by
          simpa using hfin
        exact fun _ => ⟨hlast.written, hlast.kept, hlast.unsaved⟩
      | cons log₂ logs =>
        have hkept₁ := hnone rfl
        -- `MarkFileNumberUsed`
        have hmarked : Recovering.Holds D rank options io lo m (max used (log.number + 1)) t₁ k' fs₁
            { st₁ with nextFileNumber := max st₁.nextFileNumber (log.number + 1) } := by
          have hnext := hholds.next_le
          refine ⟨hholds.edit, hholds.wellFormed, hholds.successive, ?_, hholds.sequence, ?_,
            hholds.le, hholds.max_le, hholds.complete, hholds.saved⟩
          · intro f hf
            have := hholds.number f hf
            dsimp only
            omega
          · dsimp only
            omega
        have hrest := ih hmarked hkept₁ (hfin.written hkept₁)
          (fun hu => by simp [(hfin.unsaved hu).1, (hfin.unsaved hu).2 hkept₁]) (hlogs.weaken hk')
        refine hrest.mono fun r hr hok' => ?_
        simpa using hr hok'
    · exact fun hok' => absurd hok' hok

end Replay

end Recovery

section Contents

variable {dir dir' : Directory} {db : DB} {c : Comparator} {v : Version} {m n : ℕ}
  {lost : List Bytes}

/-- What is in a directory: a version, and the logs on top of it. -/
def Directory.contents (rank : Bytes → κ) (v : Version) (m : ℕ) (dir : Directory) :
    κ → Option Bytes :=
  applyUpdates (fun k => (schema rank).read v.entries k m)
    (loggedUpdates rank (dir.logs.flatMap (·.records)))

theorem Directory.Kept.contents_eq (h : dir.Kept dir') :
    dir'.contents rank v m = dir.contents rank v m := by
  obtain ⟨more, hlogs, hempty⟩ := h.logs
  have hnone : more.flatMap (·.records) = [] := List.flatMap_eq_nil_iff.mpr hempty
  rw [contents, contents, hlogs, List.flatMap_append, hnone, List.append_nil]

theorem Directory.Replays.view_eq (h : dir.Replays D rank v m n) {n' : ℕ}
    (hl : Logged D m (dir.logs.flatMap (·.records)) n') {es : List Entry}
    (hst : Stored rank (dir.logs.flatMap (·.records)) es)
    (hentries : ∀ e, e ∈ db.entries ↔ e ∈ es ∨ e ∈ v.entries) (hlast : n' ≤ db.lastSequence) :
    db.view rank = dir.contents rank v m := by
  obtain ⟨-, hunique, hread⟩ := hst.read_eq hl h.upTo h.wellFormed.uniqueSeqs
  funext k
  rw [DB.view, DB.viewAt, contents, ← hread _ hlast k]
  refine ((schema rank).read_congr hunique fun e => ?_).symm
  rw [hentries, List.mem_append]

/-- The directory of a database has what the database has, and the records that it lost. -/
theorem DB.Restorable.directory_contents (h : db.Restorable D rank n) (hd : db.Durable rank lost)
    (c : Comparator) :
    ∃ v m, (db.directory c).Replays D rank v m n ∧ (db.directory c).contents rank v m =
      applyUpdates (db.view rank) (loggedUpdates rank lost) := by
  obtain ⟨m, m₁, hs⟩ := h.recorded.sequences
  obtain ⟨old, hold, himm⟩ := hd.imm
  obtain ⟨records, es, hlog, hst, hmem⟩ := hd.mem
  have hlogged := hs.oldLogs.append hs.log
  rw [hlog, ← List.append_assoc] at hlogged
  obtain ⟨k, hkept, hrest⟩ := hlogged.split
  have hversion := h.settled.wellFormed.layered.version
  obtain ⟨-, hunique, hread⟩ := (hold.append hst).read_eq hkept hs.version hversion.uniqueSeqs
  have hview : db.view rank = applyUpdates (fun k => (schema rank).read db.version.entries k m)
      (loggedUpdates rank (db.oldLogs.flatMap (·.records) ++ records)) := by
    funext x
    rw [← hread _ hrest.le x]
    refine ((schema rank).read_congr hunique fun e => ?_).symm
    simp only [DB.entries, List.mem_append, hmem, himm]
    tauto
  refine ⟨db.version, m, h.replays c hs, ?_⟩
  rw [Directory.contents, hview, ← applyUpdates_append, ← loggedUpdates_append, List.append_assoc,
    ← hlog]
  simp [DB.directory]

end Contents

namespace Recovery

section Opening

variable {o : Options} {options : OpenOptions} {io : OpenEvents} {dir : Directory}
  {v v₁ : Version} {m n n' t used next : ℕ} {st : Recovering} {fs : List FileMetaData}
  {log : LogFile} {mem : MemTable}

omit [LinearOrder κ] in
theorem addedFiles_level0Edit (fs : List FileMetaData) : addedFiles [level0Edit fs] = fs := by
  simp [addedFiles, level0Edit, Function.comp_def]

omit [LinearOrder κ] in
variable (rank) in
/-- What the tables and the memtable of a database that is being opened hold. -/
structure Opened (logs : List LogFile) (fs : List FileMetaData) (st : Recovering) (log : LogFile)
    (mem : MemTable) : Prop where
  all : ∃ es, Stored rank (logs.flatMap (·.records)) es ∧
    ∀ e, e ∈ es ↔ (∃ f ∈ fs, e ∈ f.entries) ∨ e ∈ mem.entries
  mem : ∃ es, Stored rank log.records es ∧ ∀ e, e ∈ es ↔ e ∈ mem.entries
  unsaved : st.saveManifest = false → (oldLogs logs st).flatMap (·.records) = [] ∧
    ∀ f ∈ fs, ∀ e, e ∉ f.entries

omit [LinearOrder κ] in
theorem Finished.opened {logs : List LogFile}
    (h : Finished rank (logs.dropLast.flatMap (·.records))
      (logs.getLast?.toList.flatMap (·.records)) st) (hedit : st.edit = level0Edit fs)
    (hopen : openLog logs st = (log, mem, next)) (hlast : st.kept.isSome → logs.getLast?.isSome) :
    Opened rank logs fs st log mem := by
  have hsplit : logs.dropLast.flatMap (·.records) ++
      logs.getLast?.toList.flatMap (·.records) = logs.flatMap (·.records) := by
    rw [← List.flatMap_append]
    cases hl : logs.getLast? with
    | none => simp [List.getLast?_eq_none_iff.mp hl]
    | some log => rw [Option.toList_some, List.dropLast_append_getLast? log hl]
  cases hk : st.kept with
  | none =>
    have hall := h.written hk
    rw [hsplit] at hall
    obtain ⟨es, hst, hes⟩ := hall
    rw [hedit, addedFiles_level0Edit] at hes
    rw [openLog, hk] at hopen
    obtain ⟨rfl, rfl, rfl⟩ := hopen
    refine ⟨⟨es, hst, fun e => ?_⟩, ⟨[], .nil, fun e => Iff.rfl⟩, fun hunsaved => ?_⟩
    · rw [hes]
      refine or_congr_right ⟨fun he => by simp at he, fun he => absurd he List.not_mem_nil⟩
    · obtain ⟨hbefore, hrecords⟩ := h.unsaved hunsaved
      have hnone : logs.flatMap (·.records) = [] := by
        rw [← hsplit, hbefore, hrecords hk, List.append_nil]
      rw [hnone] at hst
      obtain rfl := hst.eq_nil
      refine ⟨by simpa [oldLogs, hk] using hnone, fun f hf e he => ?_⟩
      exact absurd ((hes e).mpr (Or.inl ⟨f, hf, he⟩)) List.not_mem_nil
  | some mt =>
    obtain ⟨⟨es, hst, hes⟩, es', hst', hes'⟩ := h.kept mt hk
    obtain ⟨last, hl⟩ := Option.isSome_iff_exists.mp (hlast (by rw [hk]; rfl))
    rw [openLog, hk, hl] at hopen
    obtain ⟨rfl, rfl, rfl⟩ := hopen
    rw [hedit, addedFiles_level0Edit] at hes
    have hrecords : logs.getLast?.toList.flatMap (·.records) = log.records := by simp [hl]
    refine ⟨⟨es ++ es', hsplit ▸ hst.append hst', fun e => ?_⟩, ⟨es', hrecords ▸ hst', hes'⟩,
      fun hunsaved => ?_⟩
    · rw [List.mem_append, hes, hes']
      simp
    · have hbefore := (h.unsaved hunsaved).1
      rw [hbefore] at hst
      obtain rfl := hst.eq_nil
      refine ⟨by simpa [oldLogs, hk] using hbefore, fun f hf e he => ?_⟩
      exact absurd ((hes e).mpr (Or.inl ⟨f, hf, he⟩)) List.not_mem_nil

/-- How opening a directory ends when all of its logs can be read. -/
def Restores (rank : Bytes → κ) (dir : Directory) (v : Version) (m : ℕ) :
    Except (Status × Option Directory) DB → Prop
  | .ok db => db.Durable rank [] ∧ db.view rank = dir.contents rank v m
  | .error _ => True

omit [LinearOrder κ] in
theorem mem_entries_saved {v' : Version}
    (hfiles : ∀ i f, f ∈ v'.files i ↔ f ∈ v₁.files i ∨ i = 0 ∧ f ∈ fs) (e : Entry) :
    e ∈ v'.entries ↔ (∃ f ∈ fs, e ∈ f.entries) ∨ e ∈ v₁.entries := by
  simp only [mem_entries, mem_levelEntries, hfiles]
  constructor
  · rintro ⟨i, hi, f, hf | ⟨-, hf⟩, he⟩
    · exact Or.inr ⟨i, hi, f, hf, he⟩
    · exact Or.inl ⟨f, hf, he⟩
  · rintro (⟨f, hf, he⟩ | ⟨i, hi, f, hf, he⟩)
    · exact ⟨0, by decide, f, Or.inr ⟨rfl, hf⟩, he⟩
    · exact ⟨i, hi, f, Or.inl hf, he⟩

theorem finishOpen_restores (h : Reopened D rank options io dir v m n t used n' fs st)
    (ho : o.comparator.OrdersOn D rank) (hreads : io.Reads)
    (hopen : openLog dir.logs st = (log, mem, next)) (hopened : Opened rank dir.logs fs st log mem)
    (hsame : v.SameFiles v₁) (hv : v₁.WellFormed D rank) (ht : v₁.Tidy rank) :
    Ensures (fun _ => True) (finishOpen o options io dir v₁ dir.logs st)
      (Restores rank dir v m) := by
  obtain ⟨es, hst, hes⟩ := hopened.all
  have hcomplete := h.complete hreads
  rw [finishOpen]
  simp only [hopen]
  by_cases hlogFile : (st.kept.isNone && !io.newLogFile.isOk) = true
  · rw [if_pos hlogFile]
    trivial
  rw [if_neg hlogFile]
  by_cases hsaved : st.saveManifest = true
  · obtain ⟨v', hsave, hv', -, hfiles⟩ := (h.newTables hsame).saveTo ho hv ht
    rw [← h.holds.edit] at hsave
    rw [if_pos hsaved]
    refine Stops.ensures_true.bind fun _ _ => Stops.ensures_true.bind fun _ _ => ?_
    rw [hsave, Stops.ok_bind]
    by_cases happly : io.apply.isOk = true
    · rw [if_pos happly]
      obtain ⟨esm, hstm, hesm⟩ := hopened.mem
      refine ⟨⟨⟨[], .nil, fun e => Iff.rfl⟩, ⟨log.records, esm, by simp, hstm, hesm⟩, fun _ => rfl⟩,
        h.replays.view_eq h.logged hst (fun e => ?_) hcomplete⟩
      have hversion := mem_entries_saved hfiles e
      rw [DB.entries, List.mem_append, List.mem_append, hversion, hes, hsame.entries, or_assoc]
      simp only [DB.immEntries, List.not_mem_nil, false_or]
      exact or_left_comm
    · rw [if_neg happly]
      trivial
  · rw [if_neg hsaved]
    obtain ⟨esm, hstm, hesm⟩ := hopened.mem
    obtain ⟨hold, hnone⟩ := hopened.unsaved (by simpa using hsaved)
    refine ⟨⟨⟨[], ?_, fun e => Iff.rfl⟩, ⟨log.records, esm, by simp, hstm, hesm⟩, fun _ => rfl⟩,
      h.replays.view_eq h.logged hst (fun e => ?_) hcomplete⟩
    · change Stored rank ((oldLogs dir.logs st).flatMap (·.records)) []
      rw [hold]
      exact .nil
    · have hno : ¬ ∃ f ∈ fs, e ∈ f.entries := by
        rintro ⟨f, hf, he⟩
        exact hnone f hf e he
      rw [DB.entries, List.mem_append, List.mem_append, hes, hsame.entries]
      simp [DB.immEntries, hno]

variable (ho : o.comparator.OrdersOn D rank) (hp : ∀ p ∈ o.filterPolicy, p.Lawful)
  (h : dir.Replays D rank v m n) (hn : n ≤ kMaxSequenceNumber) (hreads : io.Reads)

include ho hp h hn hreads

theorem recoverLogs_restores (hsame : v.SameFiles v₁) (hv : v₁.WellFormed D rank)
    (ht : v₁.Tidy rank) :
    Ensures (fun _ => True) (recoverLogs o options io dir v₁) (Restores rank dir v m) := by
  rw [recoverLogs]
  by_cases hchildren : (!io.getChildren.isOk) = true
  · rw [if_pos hchildren]
    trivial
  rw [if_neg hchildren]
  split
  · trivial
  · rw [logs_eq h]
    have hstart : Recovering.Holds D rank options io (dir.manifest.nextFileNumber + 1) m
        (dir.manifest.nextFileNumber + 1) m m [] ⟨{}, !(options.reuseLogs && io.reuseManifest), 0,
          dir.manifest.nextFileNumber + 1, none⟩ := by
      refine ⟨rfl, by simp, List.Pairwise.nil, by simp, by simp, ⟨le_rfl, le_rfl⟩, ⟨le_rfl, le_rfl⟩,
        Nat.zero_le _, fun _ => le_max_left _ _, fun hreuse => by simp [hreuse]⟩
    have hcontains : Contains rank [] ⟨{}, !(options.reuseLogs && io.reuseManifest), 0,
        dir.manifest.nextFileNumber + 1, none⟩ none := ⟨[], .nil, by simp [addedFiles]⟩
    have hspec := recoverLogFiles_spec ho hp hstart rfl h.logged hn
    have hfinished := recoverLogFiles_finished ho hp hreads hstart rfl hcontains (fun _ => rfl)
      h.logged hn
    refine ((hspec.imp fun _ _ => trivial).and hfinished).bind fun r hr => ?_
    obtain ⟨status, st⟩ := r
    dsimp only at hr ⊢
    by_cases hs : status.isOk = true
    · rw [if_pos hs]
      obtain ⟨n', hle, hlogged, ⟨t, fs, hholds, hkept⟩, hnumber⟩ := hr.1 hs
      have hfin := hr.2 hs
      rw [List.nil_append] at hfin
      obtain ⟨log, mem, next, hlog⟩ := openedLog h hholds hkept hnumber
      have hopened := hfin.opened hholds.edit hlog.eq fun hsome => by
        obtain ⟨mt, hmt⟩ := Option.isSome_iff_exists.mp hsome
        obtain ⟨-, -, log, hlast, -⟩ := hkept mt hmt
        exact Option.isSome_of_mem hlast
      exact finishOpen_restores ⟨h, hholds, hlogged, hle, hn⟩ ho hreads hlog.eq hopened hsame hv ht
    · rw [if_neg hs]
      trivial

theorem recover_restores : Ensures (fun _ => True) (recover o options io dir)
    (Restores rank dir v m) := by
  rw [recover]
  by_cases hread : (!io.manifest.isOk) = true
  · rw [if_pos hread]
    trivial
  rw [if_neg hread]
  by_cases hname : dir.comparatorName ≠ o.comparator.name
  · rw [if_pos hname]
    trivial
  rw [if_neg hname]
  obtain ⟨v₁, hv₁, hsame, hw, ht⟩ := recoverVersion_spec ho h.describes h.wellFormed h.tidy
  rw [hv₁, Stops.ok_bind]
  exact recoverLogs_restores ho hp h hn hreads hsame hw ht

/-- Opening a directory brings back what is in it. -/
theorem openAt_restores : Ensures (fun _ => True) (DB.openAt o options io (some dir))
    (Restores rank dir v m) := by
  rw [DB.openAt]
  split_ifs
  · trivial
  · trivial
  · exact recover_restores ho hp h hn hreads

end Opening

end Recovery

end DVELevelDB
