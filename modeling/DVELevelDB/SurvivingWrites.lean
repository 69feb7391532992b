import DVELevelDB.AcceptedRuns
import DVELevelDB.Durability
import DVELevelDB.LogFiles

/-! # Runs in which the process may end

A process may end at any time, also in the middle of a write, and another one opens the directory
that is left, with nothing but bytes in its log files. All batches that were written are still there,
in their order; of the others some, each as a whole.
-/

namespace DVELevelDB

open VersionStore
open Stops (Ensures)

namespace ProcessRuns

/-- The outcome of the file operations of one write; those on the log come one after the other. -/
structure WriteEvents where
  room : List DB.RoomEvent
  log : List Status
  sync : Status

/-- What a process does with a database. When it is killed in the middle of a write, the log has the
first bytes of the record, or all. -/
inductive Step where
  | write (b : WriteBatch) (sync : Bool) (io : WriteEvents)
  | background (io : DB.BackgroundEvent)
  | compactRange (userBegin userEnd : Option Bytes) (io : DB.RangeEvents)
  | exit
  | killed (b : WriteBatch) (kept : Option ℕ) (room : List DB.RoomEvent)
  | reopen (options : OpenOptions) (io : OpenEvents)

/-- A database with its log files, or what is left of it; the records of a closed log are in its file
only. -/
inductive Site where
  | database (db : DB) (logs : LogFiles)
  | directory (dir : Option Directory) (file : ℕ → Bytes)

abbrev Trace := List (WriteBatch × Bool)

section Steps

variable (o : Options)

/-- `DBImpl::Write`, down to the bytes of the log. -/
def write (b : WriteBatch) (sync : Bool) (io : WriteEvents) (db : DB) (logs : LogFiles) :
    Exec (Status × DB × LogFiles) := do
  let (status, db₁) ← DB.makeRoomForWrite o false true io.room db
  let logs := logs.follow db db₁
  if status.isOk then
    let record := (b.setSequence (db₁.lastSequence + 1)).rep
    let (append, w) ← (logs.writer db₁.log.number io.log).addRecord record
    let (status, db₂) ← DB.commit o append io.sync sync b db₁
    return (status, db₂, logs.wrote db₁.log.number w)
  else
    return (status, db₁, logs)

def killedIn (b : WriteBatch) (kept : Option ℕ) (room : List DB.RoomEvent) (db : DB)
    (logs : LogFiles) : Exec (Directory × (ℕ → Bytes)) := do
  let (status, db₁) ← DB.makeRoomForWrite o false true room db
  let logs := logs.follow db db₁
  let dir := db₁.directory o.comparator
  if status.isOk then
    let record := (b.setSequence (db₁.lastSequence + 1)).rep
    let (_, w) ← (logs.writer db₁.log.number []).addRecord record
    let size := (logs.file db₁.log.number).length
    let file := w.dest.contents.take ((kept.map (size + ·)).getD w.dest.contents.length)
    return (dir, Function.update logs.file db₁.log.number file)
  else
    return (dir, logs.file)

/-- The log files when a directory has been opened; a log that was created is empty. -/
def openedFile (dir : Option Directory) (file : ℕ → Bytes) (n : ℕ) : Bytes :=
  if n ∈ (dir.elim [] Directory.logs).map (·.number) then file n else []

def reopen (options : OpenOptions) (io : OpenEvents) (dir : Option Directory) (file : ℕ → Bytes) :
    Exec Site := do
  match ← DB.openAt o options io (dir.map (·.readLogs file)) with
  | .ok db =>
    let log := openedFile dir file db.log.number
    return .database db
      ⟨openedFile dir file, (Log.Writer.make ⟨log, []⟩ log.length).blockOffset⟩
  | .error (_, dir') => return .directory dir' (openedFile dir file)

/-- A step that the state does not allow has no effect. -/
def step : Site × Trace → Step → Exec (Site × Trace)
  | (.database db logs, trace), .write b sync io => do
    let (status, db, logs) ← write o b sync io db logs
    return (.database db logs, trace ++ [(b, status.isOk)])
  | (.database db logs, trace), .background io => do
    let db' ← DB.backgroundCall o io db
    return (.database db' (logs.follow db db'), trace)
  | (.database db logs, trace), .compactRange userBegin userEnd io => do
    let db' ← DB.compactRange o io userBegin userEnd db
    return (.database db' (logs.follow db db'), trace)
  | (.database db logs, trace), .exit =>
    return (.directory (some (db.directory o.comparator)) logs.file, trace)
  | (.database db logs, trace), .killed b kept room => do
    let (dir, file) ← killedIn o b kept room db logs
    return (.directory (some dir) file, trace ++ [(b, false)])
  | (.directory dir file, trace), .reopen options io => do
    return (← reopen o options io dir file, trace)
  | state, _ => return state

def run (steps : List Step) (state : Site × Trace) : Exec (Site × Trace) :=
  steps.foldlM (step o) state

end Steps

section Survives

variable {κ : Type*} (rank : Bytes → κ)

/-- The updates of the batches that are still there: all that succeeded, and some of the others. -/
inductive Survives : Trace → List (Update κ Bytes) → Prop where
  | nil : Survives [] []
  | kept {trace us} (b : WriteBatch) (ok : Bool) : Survives trace us →
      Survives (trace ++ [(b, ok)]) (us ++ b.records.map (Record.update rank))
  | dropped {trace us} (b : WriteBatch) : Survives trace us → Survives (trace ++ [(b, false)]) us

def Writable (D : Bytes → Prop) (b : WriteBatch) : Prop :=
  ∃ ops, b.Denotes ops ∧ ops.length < 2 ^ 31 ∧ ∀ r ∈ ops, D r.key ∧ StorableKey r.key

/-- What a step needs: batches and bounds that the comparator can deal with, and logs that can be
written and read. After a failure the log writer is not where the file ends, and what it writes is
lost. -/
def Step.Allowed (D : Bytes → Prop) (c : Comparator) [LinearOrder κ] : Step → Prop
  | .write b _ io => Writable D b ∧ ∀ s ∈ io.log, s.isOk = true
  | .killed b _ _ => Writable D b
  | .background _ | .exit => True
  | .compactRange userBegin userEnd _ =>
      (∀ k ∈ userBegin, c.Places D rank k) ∧ ∀ k ∈ userEnd, c.Places D rank k
  | .reopen _ io => io.Reads

def Step.size : Step → ℕ
  | .write b _ _ | .killed b _ _ => b.records.length
  | _ => 0

end Survives

variable {κ : Type*} [LinearOrder κ] {D : Bytes → Prop} {rank : Bytes → κ} {n : ℕ}
  {o : Options} {db : DB} {logs : LogFiles} {trace : Trace} {torn : Prop}

/-- At most `n` sequence numbers have been used; records that were `lost` are in the log only. -/
def DatabaseHolds (D : Bytes → Prop) (rank : Bytes → κ) (n : ℕ) (trace : Trace) (db : DB) : Prop :=
  ∃ lost us, db.Restorable D rank n ∧ db.Durable rank lost ∧
    db.view rank = applyUpdates (fun _ => none) us ∧ Survives rank trace us ∧
    Survives rank trace (us ++ loggedUpdates rank lost)

def DirectoryHolds (D : Bytes → Prop) (rank : Bytes → κ) (n : ℕ) (trace : Trace) :
    Option Directory → Prop
  | none => Survives rank trace []
  | some dir => ∃ v m us, dir.Replays D rank v m n ∧
      dir.contents rank v m = applyUpdates (fun _ => none) us ∧ Survives rank trace us

/-- The invariant of a run. A file may be `torn` at its end only if no process goes on with it. -/
def Holds (D : Bytes → Prop) (rank : Bytes → κ) (torn : Prop) (n : ℕ) (trace : Trace) :
    Site → Prop
  | .database db logs => DatabaseHolds D rank n trace db ∧ logs.Keep torn db
  | .directory dir file => DirectoryHolds D rank n trace (dir.map (·.readLogs file)) ∧
      (¬ torn → ∀ d ∈ dir, ∀ log ∈ d.logs, Log.Whole (file log.number))

section Invariant

variable (ho : o.comparator.OrdersOn D rank) (hp : ∀ p ∈ o.filterPolicy, p.Lawful)

theorem DatabaseHolds.restorable (h : DatabaseHolds D rank n trace db) : db.Restorable D rank n := by
  obtain ⟨-, -, hrest, -⟩ := h
  exact hrest

theorem DatabaseHolds.directory (h : DatabaseHolds D rank n trace db) (c : Comparator) :
    DirectoryHolds D rank n trace (some (db.directory c)) := by
  obtain ⟨lost, us, hrest, hdurable, hview, -, hall⟩ := h
  obtain ⟨v, m, hreplays, hcontents⟩ := hrest.directory_contents hdurable c
  refine ⟨v, m, us ++ loggedUpdates rank lost, hreplays, ?_, hall⟩
  rw [hcontents, hview, applyUpdates_append]

theorem Holds.weaken {n' : ℕ} {site : Site} (h : Holds D rank torn n trace site) (hn : n ≤ n') :
    Holds D rank torn n' trace site := by
  cases site with
  | database db logs =>
    obtain ⟨⟨lost, us, hrest, hkept⟩, hlogs⟩ := h
    exact ⟨⟨lost, us, hrest.weaken hn, hkept⟩, hlogs⟩
  | directory dir file =>
    cases dir with
    | none => exact h
    | some dir =>
      obtain ⟨⟨v, m, us, hreplays, hkept⟩, hwhole⟩ := h
      exact ⟨⟨v, m, us, hreplays.weaken hn, hkept⟩, hwhole⟩

include ho hp

theorem DatabaseHolds.write (h : DatabaseHolds D rank n trace db) {b : WriteBatch} {ops : List Record}
    (hb : b.Denotes ops) (hlen : ops.length < 2 ^ 31)
    (hops : ∀ r ∈ ops, D r.key ∧ StorableKey r.key) (hn : n + ops.length < kMaxSequenceNumber)
    (sync : Bool) (io : DB.WriteEvents) :
    Ensures (· = .blocked) (db.write o io sync (some b)) fun r =>
      DatabaseHolds D rank (n + ops.length) (trace ++ [(b, r.1.isOk)]) r.2.2 := by
  obtain ⟨lost, us, hrest, hdurable, hview, hkept, hall⟩ := h
  have hlast := hrest.last_le
  have hmax : db.lastSequence < kMaxSequenceNumber := by omega
  have hwhole := hrest.settled.keepsKeysWhole_write ho hp hmax io
  have hout := DB.write_outcome ho hp hrest.settled.toArranged hmax io sync hwhole hb hlen
    (fun r hr => (hops r hr).1) (by omega)
  have hrecords := hb.records_eq
  have hends : Ensures (· = .blocked) (db.write o io sync (some b)) fun _ => True := by
    have hw := DB.write_eq ho hp hrest.settled.toArranged hmax io sync hwhole
      (hrecords.symm ▸ fun r hr => (hops r hr).1) (hrecords.symm ▸ by omega) (hb.count_eq hlen)
      (by omega)
    refine (hw.imp fun t ht => ?_).mono fun _ _ => trivial
    rcases ht with ⟨hblocked, -⟩ | ⟨-, r, hr, hlong⟩
    · exact hblocked
    · exact absurd (hops r (hrecords ▸ hr)).2 hlong
  have hwritten := DB.write_durable ho hp hrest hdurable io sync hb hops hn
  refine (hends.and ((hout.and (DB.write_restorable ho hp hrest io sync hb hlen hops hn)).and
    hwritten)).mono fun r hr => ?_
  obtain ⟨-, ⟨⟨-, hview', -⟩, hrest'⟩, lost', hdurable', hok, hlost⟩ := hr
  cases hs : r.1.isOk with
  | true =>
    obtain ⟨rfl, rfl⟩ := hok hs
    rw [hs, if_pos rfl, hview, ← applyUpdates_append] at hview'
    have hnow : Survives rank (trace ++ [(b, true)]) (us ++ ops.map (Record.update rank)) :=
      hrecords ▸ hkept.kept b true
    exact ⟨[], _, hrest', hdurable', hview', hnow, by simpa [loggedUpdates] using hnow⟩
  | false =>
    rw [hs, if_neg Bool.false_ne_true, hview] at hview'
    refine ⟨lost', us, hrest', hdurable', hview', hkept.dropped b, ?_⟩
    rcases hlost with rfl | ⟨rfl, hlost⟩
    · exact hall.dropped b
    · rw [hlost, ← hrecords]
      exact hkept.kept b false

def fault : Status := .make .ioError [] []

section Writes

variable (h : DatabaseHolds D rank n trace db) (hlogs : logs.Keep torn db) {b : WriteBatch}
  {ops : List Record} (hb : b.Denotes ops) (hlen : ops.length < 2 ^ 31)
  (hops : ∀ r ∈ ops, D r.key ∧ StorableKey r.key) (hn : n + ops.length < kMaxSequenceNumber)

include h hlogs hn in
theorem room_keeps (room : List DB.RoomEvent) {status : Status} {db₁ : DB}
    (hroom : DB.makeRoomForWrite o false true room db = .ok (status, db₁)) :
    db₁.Restorable D rank n ∧ (logs.follow db db₁).Keep torn db₁ := by
  have hmax : n < kMaxSequenceNumber := (Nat.le_add_right _ _).trans_lt hn
  have hstable := DB.logsAfter_stable db ho hp hmax
  obtain ⟨hrest₁, hafter⟩ :=
    (hstable.makeRoom false true room ⟨h.restorable, .refl db⟩).elim hroom
  exact ⟨hrest₁, hlogs.follow hafter h.restorable.recorded.old_lt⟩

include h hlogs hb hlen hops hn

theorem write_holds (sync : Bool) (io : WriteEvents) (hlog : ∀ s ∈ io.log, s.isOk = true) :
    Ensures (· = .blocked) (write o b sync io db logs) fun r =>
      DatabaseHolds D rank (n + ops.length) (trace ++ [(b, r.1.isOk)]) r.2.1 ∧
        r.2.2.Keep torn r.2.1 := by
  have hwrite := h.write ho hp hb hlen hops hn sync ⟨io.room, .ok, io.sync⟩
  rw [DB.write, Option.isNone_some, Option.isSome_some] at hwrite
  rw [write]
  cases hroom : DB.makeRoomForWrite o false true io.room db with
  | error t =>
    rw [hroom] at hwrite
    exact hwrite
  | ok r =>
    obtain ⟨status, db₁⟩ := r
    obtain ⟨hrest₁, hkeep⟩ := room_keeps ho hp h hlogs hn io.room hroom
    rw [hroom, Stops.ok_bind] at hwrite
    rw [Stops.ok_bind]
    dsimp only at hwrite ⊢
    by_cases hs : status.isOk
    · obtain ⟨bytes, w, hadd, hcontents, hcontinues, -⟩ := hkeep.log.addRecord hlog
        (b.setSequence (db₁.lastSequence + 1)).rep
      rw [if_pos hs] at hwrite ⊢
      rw [LogFiles.writer, hadd, Stops.ok_bind]
      dsimp only
      cases hcommit : DB.commit o .ok io.sync sync b db₁ with
      | error t =>
        rw [hcommit] at hwrite
        exact hwrite
      | ok r =>
        obtain ⟨hold, hlast⟩ := (DB.commit_logs rfl io.sync sync b db₁).elim hcommit
        rw [hcommit] at hwrite
        rw [← hcontents] at hcontinues
        exact ⟨hwrite, hkeep.addRecord hrest₁.recorded.old_lt hcontinues hold hlast⟩
    · rw [if_neg hs] at hwrite ⊢
      exact ⟨hwrite, hkeep⟩

end Writes

section Opening

def OpenedFrom (D : Bytes → Prop) (rank : Bytes → κ) (options : OpenOptions) (n : ℕ) (trace : Trace)
    (dir : Directory) : Except (Status × Option Directory) DB → Prop
  | .ok db => DatabaseHolds D rank n trace db ∧ Recovery.LogsFrom options dir db
  | .error (_, dir') => DirectoryHolds D rank n trace dir' ∧ ∀ d ∈ dir', ∀ log ∈ d.logs,
      log ∈ dir.logs ∨ log.records = [] ∧ ∀ log' ∈ dir.logs, log'.number < log.number

variable {options : OpenOptions} {io : OpenEvents} {dir : Directory} {v : Version} {m : ℕ}
  {us : List (Update κ Bytes)}

omit ho hp in
theorem openedFrom_of_opens (hreads : io.Reads)
    (hcontents : dir.contents rank v m = applyUpdates (fun _ => none) us)
    (hkept : Survives rank trace us) {r : Except (Status × Option Directory) DB}
    (hopens : Recovery.Opens D rank options io dir v m n r)
    (hrestores : Recovery.Restores rank dir v m r) : OpenedFrom D rank options n trace dir r := by
  cases r with
  | ok db =>
    obtain ⟨hlogs, hopened⟩ := hopens
    obtain ⟨hdurable, hview⟩ := hrestores
    refine ⟨⟨[], us, hopened fun _ => hreads, hdurable, hview.trans hcontents, hkept, ?_⟩, hlogs⟩
    simpa [loggedUpdates] using hkept
  | error e =>
    obtain ⟨s, dir'⟩ := e
    obtain ⟨-, d, hd, hsame, hreplays⟩ := hopens
    obtain rfl := Option.mem_def.mp hd
    refine ⟨⟨v, m, us, hreplays, hsame.contents_eq.trans hcontents, hkept⟩, fun d' hd' => ?_⟩
    rw [← Option.mem_some.mp hd']
    obtain ⟨more, hmore, hnone⟩ := hsame.logs
    have hpair := hreplays.logs
    rw [hmore] at hpair ⊢
    intro log hlog
    refine (List.mem_append.mp hlog).imp_right fun hlog => ⟨hnone log hlog, fun log' hlog' => ?_⟩
    exact (List.pairwise_append.mp hpair).2.2 log' hlog' log hlog

theorem DirectoryHolds.openAt {dir : Option Directory} (h : DirectoryHolds D rank n trace dir)
    (hmax : n < kMaxSequenceNumber) (hreads : io.Reads) :
    Ensures (· = .blocked) (DB.openAt o options io dir)
      (OpenedFrom D rank options n trace (dir.getD (.new o.comparator))) := by
  cases dir with
  | none =>
    have hreplays : (Directory.new o.comparator).Replays D rank ⟨fun _ => []⟩ 0 n :=
      Directory.new_replays o.comparator n
    have hopens : Ensures (· = .blocked) (Recovery.recover o options io _)
        (Recovery.Opens D rank options io _ _ _ _) :=
      (Recovery.recover_spec ho hp hreplays hmax.le).imp fun _ hf => hf.elim
    have hrestores : Ensures (fun _ => True) (Recovery.recover o options io _)
        (Recovery.Restores rank _ _ _) :=
      Recovery.recover_restores ho hp hreplays hmax.le hreads
    have hempty : (Directory.new o.comparator).contents rank ⟨fun _ => []⟩ 0 =
        applyUpdates (fun _ => none) [] := rfl
    rw [DB.openAt, Option.getD_none]
    split_ifs
    · exact ⟨h, fun d hd => absurd hd (Option.not_mem_none d)⟩
    · exact (hopens.and hrestores).mono fun r hr => openedFrom_of_opens hreads hempty h hr.1 hr.2
    · exact ⟨h, fun d hd => absurd hd (Option.not_mem_none d)⟩
    · exact ⟨h, fun d hd => absurd hd (Option.not_mem_none d)⟩
  | some dir =>
    obtain ⟨v, m, us, hreplays, hcontents, hkept⟩ := h
    have hopens : Ensures (· = .blocked) (DB.openAt o options io (some dir))
        (Recovery.Opens D rank options io dir v m n) :=
      (Recovery.openAt_spec ho hp hreplays hmax.le).imp fun _ hf => hf.elim
    have hrestores : Ensures (fun _ => True) (DB.openAt o options io (some dir))
        (Recovery.Restores rank dir v m) :=
      Recovery.openAt_restores ho hp hreplays hmax.le hreads
    exact (hopens.and hrestores).mono fun r hr =>
      openedFrom_of_opens hreads hcontents hkept hr.1 hr.2

end Opening

end Invariant

section Survival

end Survival

end ProcessRuns

end DVELevelDB
