import DVELevelDB.BackgroundCompaction
import DVELevelDB.FailedReads
import DVELevelDB.Iteration

/-! # Loops over a database

A loop with `LevelDB.Iterator`, while the database is written to and its files are compacted.
-/

namespace DVELevelDB

open VersionStore

namespace DB

section MemTables

variable {o : Options} {db db' db'' : DB}

/-- The memtable is the same, or by now another one takes the writes. -/
def SameMemTable (db db' : DB) : Prop :=
  db.log.number < db'.log.number ∨ db'.log.number = db.log.number ∧ db'.mem = db.mem

theorem SameMemTable.refl (db : DB) : SameMemTable db db := Or.inr ⟨rfl, rfl⟩

theorem SameMemTable.trans (h : SameMemTable db db') (h' : SameMemTable db' db'') :
    SameMemTable db db'' := by
  rcases h with h | ⟨h, hm⟩ <;> rcases h' with h' | ⟨h', hm'⟩
  · exact Or.inl (h.trans h')
  · exact Or.inl (h' ▸ h)
  · exact Or.inl (h ▸ h')
  · exact Or.inr ⟨h'.trans h, hm'.trans hm⟩

/-- A flush keeps the memtable and the log that take the writes. -/
structure SameLog (db db' : DB) : Prop where
  log : db'.log.number = db.log.number
  mem : db'.mem = db.mem
  next_le : db.nextFileNumber ≤ db'.nextFileNumber

theorem recordBackgroundError_sameLog (s : Status) (h : SameLog db db') :
    SameLog db (db'.recordBackgroundError s) := by
  unfold recordBackgroundError
  split_ifs
  · exact ⟨h.log, h.mem, h.next_le⟩
  · exact h

theorem compactImm_sameLog (io : FlushEvent) (imm : MemTable) (db : DB) :
    Stops.Ensures (fun _ => True) (compactImm o io imm db) (SameLog db) := by
  have hnext : SameLog db { db with nextFileNumber := db.nextFileNumber + 1 } :=
    ⟨rfl, rfl, Nat.le_succ _⟩
  refine Stops.ensures_true.bind fun r _ => ?_
  obtain ⟨edit, s⟩ := r
  by_cases hs : s.isOk
  · simp only [hs, if_true]
    refine Stops.ensures_true.bind fun _ _ => Stops.ensures_true.bind fun _ _ =>
      Stops.ensures_true.bind fun v _ => ?_
    by_cases ha : io.apply.isOk
    · simp only [ha, if_true]
      exact ⟨rfl, rfl, Nat.le_succ _⟩
    · simp only [ha, Bool.false_eq_true, if_false]
      exact recordBackgroundError_sameLog io.apply hnext
  · simp only [hs, Bool.false_eq_true, if_false]
    exact recordBackgroundError_sameLog s hnext

theorem logAndApply_sameLog (io : CompactionEvent) (edit : VersionEdit) (db : DB) :
    Stops.Ensures (fun _ => True) (logAndApply o io edit db) fun r => SameLog db r.2 := by
  refine Stops.ensures_true.bind fun v _ => ?_
  split_ifs
  · exact ⟨rfl, rfl, le_rfl⟩
  · exact recordBackgroundError_sameLog io.apply ⟨rfl, rfl, le_rfl⟩

theorem compactFiles_sameLog (io : CompactionEvent) (level : ℕ) (files : CompactionFiles)
    (db : DB) :
    Stops.Ensures (fun _ => True) (compactFiles o io level files db) fun r => SameLog db r.2 := by
  have hraised : ∀ n, SameLog db { db with nextFileNumber := db.nextFileNumber + n } := fun n =>
    ⟨rfl, rfl, Nat.le_add_right _ _⟩
  refine Stops.ensures_true.bind fun _ _ => Stops.ensures_true.bind fun input _ => ?_
  cases io.work with
  | some failure =>
    obtain ⟨read, s⟩ := failure
    refine Stops.ensures_true.bind fun groups _ => ?_
    exact recordBackgroundError_sameLog s (hraised groups.length)
  | none =>
    refine Stops.ensures_true.bind fun groups _ => Stops.ensures_true.bind fun outputs _ => ?_
    refine (logAndApply_sameLog io _ _).mono fun r hr => ?_
    exact ⟨hr.log, hr.mem, (hraised groups.length).next_le.trans hr.next_le⟩

theorem backgroundCall_sameLog (io : BackgroundEvent) (db : DB) :
    Stops.Ensures (fun _ => True) (backgroundCall o io db) (SameLog db) := by
  rw [backgroundCall]
  split_ifs
  · cases db.imm with
    | some imm => exact compactImm_sameLog io.flush imm db
    | none =>
      refine Stops.ensures_true.bind fun files _ => ?_
      cases files with
      | none => exact ⟨rfl, rfl, le_rfl⟩
      | some files =>
        have hwork : Stops.Ensures (fun _ => True)
            (automaticWork o io.compaction io.reason.level files
              (db.setCompactPointer io.reason.level files)) fun r => SameLog db r.2 := by
          rw [automaticWork]
          split_ifs
          · split
            · exact (logAndApply_sameLog io.compaction _ _).mono fun r hr =>
                ⟨hr.log, hr.mem, hr.next_le⟩
            · trivial
          · exact (compactFiles_sameLog io.compaction _ files _).mono fun r hr =>
              ⟨hr.log, hr.mem, hr.next_le⟩
        exact hwork.bind fun r hr => hr
  · exact ⟨rfl, rfl, le_rfl⟩

end MemTables

section Steps

variable {κ : Type*} [LinearOrder κ] {D : Bytes → Prop} {rank : Bytes → κ} {o : Options}
  {db db' : DB}

/-- What a loop relies on in a database that goes on changing. -/
structure Writable (D : Bytes → Prop) (rank : Bytes → κ) (db : DB) : Prop where
  sorted : Sorted D rank db.mem.entries
  sequence_le : ∀ e ∈ db.mem.entries, e.key.sequence ≤ db.lastSequence
  log_number : db.log.number < db.nextFileNumber

theorem WellFormed.writable (h : db.WellFormed D rank) : db.Writable D rank :=
  ⟨h.layered.mem, h.mem_sequence_le, h.log_number.2⟩

theorem Writable.sameLog (h : db.Writable D rank) (hlog : SameLog db db')
    (hlast : db'.lastSequence = db.lastSequence) : db'.Writable D rank := by
  refine ⟨hlog.mem ▸ h.sorted, ?_, hlog.log ▸ h.log_number.trans_le hlog.next_le⟩
  rw [hlog.mem, hlast]
  exact h.sequence_le

theorem Writable.switchMemTable (h : db.Writable D rank) :
    db.switchMemTable.Writable D rank ∧ SameMemTable db db.switchMemTable := by
  refine ⟨⟨Sorted.nil, fun e he => ?_, Nat.lt_succ_self _⟩, Or.inl h.log_number⟩
  exact absurd he List.not_mem_nil

/-- `db'` comes from `db` without a write. -/
structure Unwritten (D : Bytes → Prop) (rank : Bytes → κ) (db db' : DB) : Prop where
  writable : db'.Writable D rank
  lastSequence : db'.lastSequence = db.lastSequence
  sameMemTable : SameMemTable db db'

theorem Unwritten.refl (h : db.Writable D rank) : Unwritten D rank db db :=
  ⟨h, rfl, .refl db⟩

theorem Unwritten.trans {db'' : DB} (h : Unwritten D rank db db')
    (h' : Unwritten D rank db' db'') : Unwritten D rank db db'' :=
  ⟨h'.writable, h'.lastSequence.trans h.lastSequence, h.sameMemTable.trans h'.sameMemTable⟩

def BackgroundWork (D : Bytes → Prop) (rank : Bytes → κ) (work : DB → Exec DB) : Prop :=
  ∀ db : DB, db.Writable D rank → Stops.Ensures (fun _ => True) (work db) (Unwritten D rank db)

theorem backgroundCall_work (io : BackgroundEvent) :
    BackgroundWork D rank (backgroundCall o io) := by
  intro db h
  refine ((backgroundCall_keeps io db).and (backgroundCall_sameLog io db)).mono fun db' h' => ?_
  obtain ⟨hkeeps, hlog⟩ := h'
  exact ⟨h.sameLog hlog hkeeps.lastSequence, hkeeps.lastSequence, Or.inr ⟨hlog.log, hlog.mem⟩⟩

theorem backgroundCalls_work (ios : List BackgroundEvent) :
    BackgroundWork D rank (backgroundCalls o ios) := by
  intro db h
  refine Stops.ensures_foldlM (Unwritten.refl h) fun db₁ h₁ io _ => ?_
  exact (backgroundCall_work io db₁ h₁.writable).mono fun db₂ h₂ => h₁.trans h₂

theorem makeRoomForWrite_unwritten (force allowDelay : Bool) (events : List RoomEvent)
    (h : db.Writable D rank) :
    Stops.Ensures (fun _ => True) (makeRoomForWrite o force allowDelay events db)
      fun r => Unwritten D rank db r.2 := by
  induction events generalizing force allowDelay db with
  | nil =>
    rw [makeRoomForWrite_nil]
    cases roomDecision o force allowDelay db with
    | done s => exact Unwritten.refl h
    | sleep => trivial
    | wait => trivial
    | switch => trivial
  | cons ev events ih =>
    have hwait : ∀ allow, Stops.Ensures (fun _ => True) (do
        makeRoomForWrite o force allow events (← backgroundCalls o ev.background db))
        fun r => Unwritten D rank db r.2 := by
      intro allow
      refine (backgroundCalls_work ev.background db h).bind fun db₁ h₁ => ?_
      exact (ih _ _ h₁.writable).mono fun r hr => h₁.trans hr
    rw [makeRoomForWrite_cons]
    cases roomDecision o force allowDelay db with
    | done s => exact Unwritten.refl h
    | sleep => exact hwait false
    | wait => exact hwait allowDelay
    | switch =>
      dsimp only
      split_ifs
      · obtain ⟨hswitched, hsame⟩ := h.switchMemTable
        have hswitch : Unwritten D rank db db.switchMemTable := ⟨hswitched, rfl, hsame⟩
        exact (ih _ _ hswitched).mono fun r hr => hswitch.trans hr
      · exact Unwritten.refl h

/-- `db'` comes from `db` by writes: new entries in the memtable, unless by now another one takes
them. -/
structure WrittenTo (D : Bytes → Prop) (rank : Bytes → κ) (n : ℕ) (db db' : DB) : Prop where
  writable : db'.Writable D rank
  ge : db.lastSequence ≤ db'.lastSequence
  le : db'.lastSequence ≤ db.lastSequence + n
  grown : db.log.number < db'.log.number ∨ db'.log.number = db.log.number ∧
    ∃ es, db'.mem.entries.Perm (es ++ db.mem.entries) ∧ ∀ e ∈ es, db.lastSequence < e.key.sequence

theorem Unwritten.writtenTo {n : ℕ} (h : Unwritten D rank db db') :
    WrittenTo D rank n db db' := by
  refine ⟨h.writable, h.lastSequence.ge, h.lastSequence.le.trans (Nat.le_add_right _ _), ?_⟩
  rcases h.sameMemTable with hlog | ⟨hlog, hm⟩
  · exact Or.inl hlog
  · exact Or.inr ⟨hlog, [], by rw [hm]; rfl, by simp⟩

theorem Unwritten.trans_writtenTo {n : ℕ} {db'' : DB} (h : Unwritten D rank db db')
    (h' : WrittenTo D rank n db' db'') : WrittenTo D rank n db db'' := by
  refine ⟨h'.writable, h.lastSequence ▸ h'.ge, h.lastSequence ▸ h'.le, ?_⟩
  have hgrown := h'.grown
  rw [h.lastSequence] at hgrown
  rcases h.sameMemTable with hlog | ⟨hlog, hm⟩
  · rcases hgrown with hgrown | ⟨hgrown, -⟩
    · exact Or.inl (hlog.trans hgrown)
    · exact Or.inl (hgrown ▸ hlog)
  · rw [hlog, hm] at hgrown
    exact hgrown

theorem Writable.withLast (h : db.Writable D rank) {n : ℕ} (hlog : SameLog db db') :
    WrittenTo D rank n db { db' with lastSequence := db.lastSequence + n } := by
  refine ⟨⟨hlog.mem ▸ h.sorted, ?_, hlog.log ▸ h.log_number.trans_le hlog.next_le⟩,
    Nat.le_add_right _ _, le_rfl, Or.inr ⟨hlog.log, [], ?_, by simp⟩⟩
  · rw [hlog.mem]
    exact fun e he => (h.sequence_le e he).trans (Nat.le_add_right _ _)
  · rw [hlog.mem]
    rfl

theorem Writable.commit (ho : o.comparator.OrdersOn D rank) (h : db.Writable D rank)
    (append syncFile : Status) (sync : Bool) {b : WriteBatch} {ops : List Record}
    (hb : b.Denotes ops) (hlen : ops.length < 2 ^ 31) (hD : ∀ r ∈ ops, D r.key)
    (hn : db.lastSequence + ops.length ≤ kMaxSequenceNumber) :
    Stops.Ensures (fun _ => True) (commit o append syncFile sync b db)
      fun r => WrittenTo D rank ops.length db r.2 := by
  have hrec := hb.records_eq
  have hnext : nextSequence db.lastSequence (b.setSequence (db.lastSequence + 1)).count =
      db.lastSequence + ops.length := by
    rw [WriteBatch.count_setSequence, hb.count_eq hlen, nextSequence_eq hn]
  rw [DB.commit, hnext]
  dsimp only
  split_ifs
  · refine Stops.ensures_true.bind fun _ _ => h.withLast ?_
    exact recordBackgroundError_sameLog syncFile ⟨rfl, rfl, le_rfl⟩
  · have hins := insertInto_ensures (b := b) ho h.sorted h.sequence_le (by rwa [hrec])
      (by rwa [hrec])
    refine (hins.imp fun _ _ => trivial).bind fun r hr => Stops.ensures_true.bind fun _ _ => ?_
    obtain ⟨status, mem⟩ := r
    obtain ⟨-, -, hsorted, es, hperm, hst⟩ := hr
    refine ⟨⟨hsorted, ?_, h.log_number⟩, Nat.le_add_right _ _, le_rfl,
      Or.inr ⟨rfl, es, hperm, fun e he => (hst.bounds e he).1⟩⟩
    intro e he
    rcases List.mem_append.mp (hperm.mem_iff.mp he) with he | he
    · have hbound := (hst.bounds e he).2
      rw [List.length_map, hrec] at hbound
      simp only [schema_seq] at hbound
      dsimp only
      omega
    · exact (h.sequence_le e he).trans (Nat.le_add_right _ _)
  · exact Stops.ensures_true.bind fun _ _ => h.withLast ⟨rfl, rfl, le_rfl⟩

theorem write_writtenTo (ho : o.comparator.OrdersOn D rank) (h : db.Writable D rank)
    (io : WriteEvents) (sync : Bool) {b : WriteBatch} {ops : List Record} (hb : b.Denotes ops)
    (hlen : ops.length < 2 ^ 31) (hD : ∀ r ∈ ops, D r.key)
    (hn : db.lastSequence + ops.length ≤ kMaxSequenceNumber) :
    Stops.Ensures (fun _ => True) (write o io sync (some b) db) fun r =>
      WrittenTo D rank ops.length db r.2.2 := by
  refine (makeRoomForWrite_unwritten false true io.room h).bind fun r hr => ?_
  obtain ⟨s, db₁⟩ := r
  dsimp only at hr ⊢
  split_ifs
  · have hcommit := hr.writable.commit ho io.append io.sync sync hb hlen hD
      (by rwa [hr.lastSequence])
    exact hcommit.bind fun r hc => hr.trans_writtenTo hc
  · exact hr.writtenTo

end Steps

/-- The contents that the readable blocks and the memtables show at `s`. -/
def readableViewAt {κ : Type*} [LinearOrder κ] (rank : Bytes → κ) (io : FileAccess) (db : DB)
    (s : ℕ) : κ → Option Bytes :=
  fun x => (schema rank).read (db.readableEntries io) x s

theorem readableViewAt_healthy {κ : Type*} [LinearOrder κ] {rank : Bytes → κ} {io : FileAccess}
    (hio : io.Healthy) (db : DB) (s : ℕ) : db.readableViewAt rank io s = db.viewAt rank s := by
  funext x
  rw [readableViewAt, readableEntries_healthy io hio]
  rfl

end DB

/-- A loop over a database, and what it has got; `logNumber` is the log file of the memtable that
its iterator reads. -/
structure Scan where
  db : DB
  logNumber : ℕ
  iterator : DBIter
  elements : List (Bytes × Bytes)
  exhausted : Bool

namespace Scan

inductive Step where
  | next
  | write (io : DB.WriteEvents) (sync : Bool) (updates : WriteBatch)
  | background (work : DB → Exec DB)

def Step.isNext : Step → Bool
  | .next => true
  | _ => false

def start (c : Comparator) (io : FileAccess) (snapshot : Option ℕ) (db : DB) : Exec Scan := do
  return ⟨db, db.log.number, ← LevelDB.Iterator.init c io snapshot db, [], false⟩

section Definitions

variable (o : Options)

/-- A call of `next`: an element, or `nil` and nothing else behind the last one. -/
def next (st : Scan) : Exec Scan := do
  match ← LevelDB.Iterator.next o.comparator st.iterator with
  | (some element, iterator) => return { st with iterator, elements := st.elements ++ [element] }
  | (none, iterator) => return { st with iterator, exhausted := true }

def step (st : Scan) : Step → Exec Scan
  | .next => st.next o
  | .write io sync updates => do
    let (_, _, db) ← st.db.write o io sync (some updates)
    return { st with db, iterator := st.iterator.follow st.logNumber db }
  | .background work => do return { st with db := ← work st.db }

def run (st : Scan) (steps : List Step) : Exec Scan := steps.foldlM (step o) st

end Definitions

section Correctness

variable {κ : Type*} [LinearOrder κ] {D : Bytes → Prop} {rank : Bytes → κ} {o : Options}

/-- The steps keep to the sizes the engine is made for. -/
def Within (D : Bytes → Prop) (rank : Bytes → κ) : ℕ → List Step → Prop
  | _, [] => True
  | last, .next :: steps => Within D rank last steps
  | last, .write _ _ updates :: steps => ∃ ops, updates.Denotes ops ∧ ops.length < 2 ^ 31 ∧
      (∀ r ∈ ops, D r.key) ∧ last + ops.length ≤ kMaxSequenceNumber ∧
      Within D rank (last + ops.length) steps
  | last, .background work :: steps => DB.BackgroundWork D rank work ∧ Within D rank last steps

/-- All live entries, each once, in the order of the comparator. -/
structure Complete (rank : Bytes → κ) (contents : κ → Option Bytes)
    (elements : List (Bytes × Bytes)) : Prop where
  ascending : elements.Pairwise fun a b => rank a.1 < rank b.1
  exact : ∀ key value, (key, value) ∈ elements ↔ contents (rank key) = some value

def element (e : Entry) : Bytes × Bytes := (e.key.userKey, e.value)

/-- After `n` calls of `next`, with the entries `live` to be found and `old` outside the
memtable; the iterator was created after sequence number `last`. -/
structure Tracks (c : Comparator) (D : Bytes → Prop) (rank : Bytes → κ) (live old : List Entry)
    (last n : ℕ) (st : Scan) : Prop where
  writable : st.db.Writable D rank
  last_le : last ≤ st.db.lastSequence
  sequence_le : st.iterator.sequence ≤ last
  remaining : ∃ mem, st.iterator.Remaining c D rank mem old (live.drop n) ∧
    (st.logNumber < st.db.log.number ∨ st.db.log.number = st.logNumber ∧ st.db.mem = mem)
  elements : st.elements = (live.take n).map element
  exhausted : st.exhausted = decide (live.length < n)

variable {live old : List Entry} {last n : ℕ} {st : Scan}

theorem Tracks.next (ho : o.comparator.OrdersOn D rank)
    (h : Tracks o.comparator D rank live old last n st) :
    ∃ st', st.next o = .ok st' ∧ st'.db = st.db ∧
      Tracks o.comparator D rank live old last (n + 1) st' := by
  obtain ⟨mem, hrem, hmem⟩ := h.remaining
  obtain ⟨it, hnext, hseq, hrem'⟩ := DBIter.iteratorNext_spec ho hrem
  rw [List.tail_drop] at hrem'
  rw [List.head?_drop] at hnext
  have hiterator := hseq.trans_le h.sequence_le
  rw [Scan.next, hnext, Stops.ok_bind]
  by_cases hn : n < live.length
  · rw [List.getElem?_eq_getElem hn]
    refine ⟨_, rfl, rfl, h.writable, h.last_le, hiterator, ⟨mem, hrem', hmem⟩, ?_, ?_⟩
    · rw [List.take_succ_eq_append_getElem hn, List.map_append, ← h.elements]
      rfl
    · rw [h.exhausted, decide_eq_decide]
      omega
  · rw [List.getElem?_eq_none (not_lt.mp hn)]
    refine ⟨_, rfl, rfl, h.writable, h.last_le, hiterator, ⟨mem, hrem', hmem⟩, ?_, ?_⟩
    · rw [List.take_of_length_le (by omega), h.elements, List.take_of_length_le (not_lt.mp hn)]
    · exact (decide_eq_true (by omega)).symm

theorem Tracks.write (ho : o.comparator.OrdersOn D rank) (hold : ∀ e ∈ old, e.key.sequence ≤ last)
    (h : Tracks o.comparator D rank live old last n st) (io : DB.WriteEvents) (sync : Bool)
    {updates : WriteBatch} {ops : List Record} (hb : updates.Denotes ops)
    (hlen : ops.length < 2 ^ 31) (hD : ∀ r ∈ ops, D r.key)
    (hn : st.db.lastSequence + ops.length ≤ kMaxSequenceNumber) :
    Stops.Ensures (fun _ => True) (st.step o (.write io sync updates)) fun st' =>
      Tracks o.comparator D rank live old last n st' ∧
        st'.db.lastSequence ≤ st.db.lastSequence + ops.length := by
  refine (DB.write_writtenTo ho h.writable io sync hb hlen hD hn).bind fun r hr => ?_
  obtain ⟨status, batch, db⟩ := r
  obtain ⟨hdb, hge, hle, hmem⟩ := hr
  dsimp only at hdb hge hle hmem
  obtain ⟨mem, hrem, hlog⟩ := h.remaining
  refine ⟨⟨hdb, h.last_le.trans hge, ?_, ?_, h.elements, h.exhausted⟩, hle⟩
  · rw [DBIter.follow_sequence]
    exact h.sequence_le
  dsimp only
  by_cases hsame : db.log.number = st.logNumber
  · -- the writes go to the memtable that the iterator reads
    rcases hlog with hlog | ⟨hlog, rfl⟩
    · rcases hmem with hmem | ⟨hmem, -⟩ <;> omega
    rcases hmem with hmem | ⟨-, es, hperm, hnew⟩
    · omega
    have hfollow := DBIter.follow_spec ho hrem hdb.sorted hperm
      (fun e he => h.last_le.trans_lt (hnew e he)) h.sequence_le hold
    rw [hsame] at hfollow
    exact ⟨db.mem, hfollow, Or.inr ⟨hsame, rfl⟩⟩
  · refine ⟨mem, ?_, Or.inl ?_⟩
    · rw [DBIter.follow_of_ne hsame]
      exact hrem
    · rcases hlog with hlog | ⟨hlog, -⟩ <;> rcases hmem with hmem | ⟨hmem, -⟩ <;> omega

theorem Tracks.step (ho : o.comparator.OrdersOn D rank) (hold : ∀ e ∈ old, e.key.sequence ≤ last)
    (h : Tracks o.comparator D rank live old last n st) {bound : ℕ} (hle : st.db.lastSequence ≤ bound)
    {step : Step} {steps : List Step} (hw : Within D rank bound (step :: steps)) :
    Stops.Ensures (fun _ => True) (st.step o step) fun st' =>
      Tracks o.comparator D rank live old last (n + step.isNext.toNat) st' ∧
        ∃ bound', st'.db.lastSequence ≤ bound' ∧ Within D rank bound' steps := by
  cases step with
  | next =>
    obtain ⟨st', hnext, hdb, ht⟩ := h.next ho
    rw [Scan.step, hnext]
    exact ⟨ht, bound, hdb ▸ hle, hw⟩
  | write io sync updates =>
    obtain ⟨ops, hb, hlen, hD, hn, hw⟩ := hw
    refine (h.write ho hold io sync hb hlen hD (by omega)).mono fun st' hr => ?_
    exact ⟨hr.1, _, by omega, hw⟩
  | background work =>
    obtain ⟨hwork, hw⟩ := hw
    refine (hwork st.db h.writable).bind fun db hr => ?_
    obtain ⟨hdb, hlast, hmem⟩ := hr
    obtain ⟨mem, hrem, hlog⟩ := h.remaining
    refine ⟨⟨hdb, hlast ▸ h.last_le, h.sequence_le, ⟨mem, hrem, ?_⟩, h.elements, h.exhausted⟩,
      bound, hlast ▸ hle, hw⟩
    dsimp only
    rcases hmem with hmem | ⟨hmem, hsame⟩
    · rcases hlog with hlog | ⟨hlog, -⟩
      · exact Or.inl (hlog.trans hmem)
      · exact Or.inl (hlog ▸ hmem)
    · rw [hmem]
      exact hlog.imp_right fun hlog => ⟨hlog.1, hsame.trans hlog.2⟩

theorem Tracks.run (ho : o.comparator.OrdersOn D rank) (hold : ∀ e ∈ old, e.key.sequence ≤ last) {bound : ℕ} {steps : List Step}
    (h : Tracks o.comparator D rank live old last n st) (hle : st.db.lastSequence ≤ bound)
    (hw : Within D rank bound steps) :
    Stops.Ensures (fun _ => True) (st.run o steps)
      (Tracks o.comparator D rank live old last (n + steps.countP Step.isNext)) := by
  induction steps generalizing st n bound with
  | nil => exact h
  | cons step steps ih =>
    rw [Scan.run, List.foldlM_cons]
    refine (h.step ho hold hle hw).bind fun st' hr => ?_
    obtain ⟨ht, bound', hle', hw'⟩ := hr
    have hcount : n + (step :: steps).countP Step.isNext =
        n + step.isNext.toNat + steps.countP Step.isNext := by
      rw [List.countP_cons]
      cases step.isNext
      · rfl
      · exact (Nat.add_right_comm n 1 _).symm
    rw [hcount]
    exact ih ht hle' hw'

omit [LinearOrder κ] in
theorem val_of_isSome {e : Entry} (h : ((schema rank).val e).isSome) :
    (schema rank).val e = some e.value := by
  simp only [schema] at h ⊢
  split_ifs at h ⊢
  · rfl
  · cases h

theorem complete_live (hinj : Function.Injective rank) {out : List Entry} (hs : Sorted D rank out)
    (s : ℕ) : Complete rank (fun x => (schema rank).read out x s)
      (((schema rank).live s out).map element) := by
  constructor
  · exact List.pairwise_map.mpr ((schema rank).live_ascends hs.pairwise)
  · intro key value
    rw [(schema rank).read_eq_some_iff_live hs.pairwise, List.mem_map]
    constructor
    · rintro ⟨e, he, helement⟩
      obtain ⟨rfl, rfl⟩ := Prod.mk.inj helement
      exact ⟨e, he, rfl, val_of_isSome (((schema rank).mem_live hs.pairwise).mp he).1⟩
    · rintro ⟨e, he, hkey, hval⟩
      have hvalue := val_of_isSome (((schema rank).mem_live hs.pairwise).mp he).1
      exact ⟨e, he, Prod.ext (hinj hkey) (Option.some_inj.mp (hvalue.symm.trans hval))⟩

theorem Complete.congr_iff {contents contents' : κ → Option Bytes} {elements : List (Bytes × Bytes)}
    (h : Complete rank contents elements) :
    Complete rank contents' elements ↔ ∀ key, contents (rank key) = contents' (rank key) := by
  constructor
  · intro h' key
    refine Option.ext fun value => ?_
    rw [← h.exact, ← h'.exact]
  · intro heq
    refine ⟨h.ascending, fun key value => ?_⟩
    rw [h.exact, heq]

theorem Within.mono {last last' : ℕ} {steps : List Step} (h : Within D rank last steps)
    (hle : last' ≤ last) : Within D rank last' steps := by
  induction steps generalizing last last' with
  | nil => trivial
  | cons step steps ih =>
    cases step with
    | next => exact ih h hle
    | write io sync updates =>
      obtain ⟨ops, hb, hlen, hD, hn, hw⟩ := h
      exact ⟨ops, hb, hlen, hD, by omega, ih hw (by omega)⟩
    | background work =>
      obtain ⟨hwork, hw⟩ := h
      exact ⟨hwork, ih hw hle⟩

section Loops

variable (c : LawfulComparator κ) (hc : o.comparator = c.toComparator)
  {db : DB} (h : db.WellFormed (fun _ => True) c.rank)
  {io : FileAccess} {snapshot : Option ℕ} (hs : snapshot.getD db.lastSequence ≤ db.lastSequence)
  {steps : List Step} (hw : Within (fun _ => True) c.rank db.lastSequence steps)

include hc h hs hw

/-- A loop always ends; then it has got what can be read. -/
theorem run_readable :
    ∃ st₀, start o.comparator io snapshot db = .ok st₀ ∧
      Stops.Ensures (fun _ => True) (st₀.run o steps) fun st =>
        (∃ st', st.next o = .ok st') ∧
        (db.entries.length < steps.countP Step.isNext → st.exhausted = true) ∧
        (st.exhausted = true → Complete c.rank
          (db.readableViewAt c.rank io (snapshot.getD db.lastSequence)) st.elements) := by
  have ho : o.comparator.OrdersOn (fun _ => True) c.rank := hc ▸ c.orders
  have hl := h.layered
  obtain ⟨it, out, hinit, hsequence, hsorted, hperm, hrem⟩ := DBIter.seekToFirst_spec ho io snapshot hl
  generalize hlive : (schema c.rank).live (snapshot.getD db.lastSequence) out = live at hrem
  have hlength : live.length ≤ db.entries.length := by
    rw [← hlive]
    refine ((schema c.rank).live_sublist _ out).length_le.trans ?_
    exact hperm.length_eq.trans_le (db.readableEntries_sublist io).length_le
  have hcontents : db.readableViewAt c.rank io (snapshot.getD db.lastSequence) =
      fun x => (schema c.rank).read out x (snapshot.getD db.lastSequence) := by
    funext x
    exact ((schema c.rank).read_congr hsorted.uniqueSeqs fun e => hperm.mem_iff).symm
  have hold : ∀ e ∈ db.immEntries ++ db.version.entries, e.key.sequence ≤ db.lastSequence :=
    fun e he => h.sequence_le e (List.mem_append_right _ he)
  have htracks : Tracks o.comparator (fun _ => True) c.rank live (db.immEntries ++ db.version.entries)
      db.lastSequence 0 ⟨db, db.log.number, it, [], false⟩ :=
    ⟨h.writable, le_rfl, hsequence.trans_le hs, ⟨db.mem, hrem, Or.inr ⟨rfl, rfl⟩⟩, rfl,
      (decide_eq_false (by omega)).symm⟩
  refine ⟨⟨db, db.log.number, it, [], false⟩, ?_, ?_⟩
  · rw [start, hinit]
    rfl
  · refine (htracks.run ho hold le_rfl hw).mono fun st ht => ?_
    rw [Nat.zero_add] at ht
    refine ⟨?_, ?_, ?_⟩
    · obtain ⟨st', hnext, -⟩ := ht.next ho
      exact ⟨st', hnext⟩
    · intro hcount
      rw [ht.exhausted]
      exact decide_eq_true (by omega)
    · intro hexhausted
      rw [ht.exhausted, decide_eq_true_eq] at hexhausted
      rw [ht.elements, List.take_of_length_le hexhausted.le, hcontents, ← hlive]
      exact complete_live c.rank_injective hsorted _

/-- While all files can be read, a loop misses nothing. -/
theorem complete_of_healthy (hio : io.Healthy) :
    ∃ st₀, start o.comparator io snapshot db = .ok st₀ ∧
      Stops.Ensures (fun _ => True) (st₀.run o steps) fun st => st.exhausted = true →
        Complete c.rank (db.viewAt c.rank (snapshot.getD db.lastSequence)) st.elements := by
  obtain ⟨st₀, hstart, hrun⟩ := run_readable c hc h hs hw
  refine ⟨st₀, hstart, hrun.mono fun st hst hexhausted => ?_⟩
  have hcomplete := hst.2.2 hexhausted
  rwa [DB.readableViewAt_healthy hio] at hcomplete

/-- A loop always ends, and it ends in the same way when it missed entries in files or blocks that
cannot be read. -/
theorem complete_iff_readable :
    ∃ st₀, start o.comparator io snapshot db = .ok st₀ ∧
      Stops.Ensures (fun _ => True) (st₀.run o steps) fun st =>
        (∃ st', st.next o = .ok st') ∧
        (db.entries.length < steps.countP Step.isNext → st.exhausted = true) ∧
        (st.exhausted = true →
          (Complete c.rank (db.viewAt c.rank (snapshot.getD db.lastSequence)) st.elements ↔
            ∀ key, db.readableViewAt c.rank io (snapshot.getD db.lastSequence) (c.rank key) =
              db.viewAt c.rank (snapshot.getD db.lastSequence) (c.rank key))) := by
  obtain ⟨st₀, hstart, hrun⟩ := run_readable c hc h hs hw
  refine ⟨st₀, hstart, hrun.mono fun st hst => ⟨hst.1, hst.2.1, fun hexhausted => ?_⟩⟩
  exact (hst.2.2 hexhausted).congr_iff

end Loops

end Correctness

section Missing

open DB

/-- Three writes; the first one ends up in a table. -/
def filled : Exec DB := do
  let (_, _, db) ← fresh.write flushing .quiet false (some (Record.put [7] [1]).batch)
  let (_, _, db) ← db.write flushing ⟨[⟨[.quiet], .ok⟩], .ok, .ok⟩ false
    (some (Record.put [8] [2]).batch)
  let (_, _, db) ← db.write flushing ⟨[⟨[.quiet], .ok⟩, ⟨[], .ok⟩], .ok, .ok⟩ false
    (some (Record.put [9] [3]).batch)
  return db

theorem filled_settled : Stops.Ensures (fun _ => True) filled fun db =>
    db.Settled (fun _ => True) bytewise.rank ∧ db.lastSequence ≤ 3 := by
  have hwrite : ∀ {db : DB} {n : ℕ} (io : WriteEvents) (r : Record), r.Fits → n < 3 →
      db.Settled (fun _ => True) bytewise.rank ∧ db.lastSequence ≤ n →
      Stops.Ensures (fun _ => True) (db.write flushing io false (some r.batch)) fun x =>
        x.2.2.Settled (fun _ => True) bytewise.rank ∧ x.2.2.lastSequence ≤ n + 1 := by
    rintro db n io r hr hn ⟨h, hlast⟩
    have ho : flushing.comparator.OrdersOn (fun _ => True) bytewise.rank := bytewise.orders
    have hp : ∀ p ∈ flushing.filterPolicy, p.Lawful := fun _ hp => by cases hp
    have hmax : db.lastSequence < kMaxSequenceNumber := by
      rw [kMaxSequenceNumber_eq]
      omega
    have hwhole := h.keepsKeysWhole_write ho hp hmax io
    refine (write_outcome ho hp h.toArranged hmax io false hwhole (Record.batch_denotes hr)
      (by simp) (fun _ _ => trivial) hmax).mono fun x hx => ?_
    obtain ⟨-, -, ha⟩ := hx
    exact ⟨ha.settled h, ha.le.trans (Nat.add_le_add_right hlast 1)⟩
  have hfits : ∀ k v : UInt8, (Record.put [k] [v]).Fits := by
    intro k v
    constructor <;> simp
  refine (hwrite .quiet _ (hfits 7 1) (by decide) ⟨fresh_settled, le_rfl⟩).bind fun x hx => ?_
  refine (hwrite _ _ (hfits 8 2) (by decide) hx).bind fun x hx => ?_
  exact (hwrite _ _ (hfits 9 3) (by decide) hx).bind fun x hx => hx

def compaction : DB → Exec DB :=
  backgroundCall flushing ⟨⟨.ok, .ok⟩, .size ⟨2, by decide⟩, ⟨none, .ok⟩⟩

/-- A loop with writes and a compaction in between. -/
def scanning : List Step :=
  [.next, .background compaction,
    .write ⟨[⟨[], .ok⟩], .ok, .ok⟩ false (Record.put [10] [4]).batch, .next,
    .write ⟨[⟨[.quiet], .ok⟩, ⟨[], .ok⟩], .ok, .ok⟩ false (Record.delete [9]).batch, .next, .next]

theorem scanning_within : Within (fun _ => True) bytewise.rank 3 scanning := by
  have hwork : BackgroundWork (fun _ => True) bytewise.rank compaction :=
    backgroundCall_work _
  refine ⟨hwork, [.put [10] [4]], Record.batch_denotes (by constructor <;> simp), by simp,
    by simp, ?_, [.delete [9]], Record.batch_denotes (by simp [Record.Fits]), by simp, by simp, ?_,
    trivial⟩
  all_goals
    rw [kMaxSequenceNumber_eq]
    simp

theorem complete_iff_readable_run : ∃ db, filled = .ok db ∧
    ∃ st₀, start flushing.comparator .missing none db = .ok st₀ ∧
      Stops.Ensures (fun _ => True) (st₀.run flushing scanning) fun st =>
        (∃ st', st.next flushing = .ok st') ∧
        (db.entries.length < scanning.countP Step.isNext → st.exhausted = true) ∧
        (st.exhausted = true →
          (Complete bytewise.rank (db.viewAt bytewise.rank db.lastSequence) st.elements ↔
            ∀ key, db.readableViewAt bytewise.rank .missing db.lastSequence (bytewise.rank key) =
              db.viewAt bytewise.rank db.lastSequence (bytewise.rank key))) := by
  have hok : filled.isOk = true := by
    decide +kernel
  cases hfilled : filled with
  | error t =>
    rw [hfilled] at hok
    contradiction
  | ok db =>
    obtain ⟨h, hlast⟩ := filled_settled.elim hfilled
    exact ⟨db, rfl, complete_iff_readable bytewise rfl h.wellFormed le_rfl
      (scanning_within.mono hlast)⟩

/-- The table of the first write is gone: the loop ends without its entry, and without an error. -/
theorem missing_entry_unnoticed :
    ∃ db st₀ st, filled = .ok db ∧ start flushing.comparator .missing none db = .ok st₀ ∧
      st₀.run flushing [.next, .next, .next] = .ok st ∧ st.exhausted = true ∧
      ¬ Complete bytewise.rank (db.viewAt bytewise.rank db.lastSequence) st.elements := by
  have hrun : (do
      let db ← filled
      let st₀ ← start flushing.comparator .missing none db
      let st ← st₀.run flushing [.next, .next, .next]
      return (db.viewAt bytewise.rank db.lastSequence (bytewise.rank [7]), st.elements,
        st.exhausted)) = (.ok (some [1], [([8], [2]), ([9], [3])], true) : Exec _) := by
    decide +kernel
  obtain ⟨db, hdb, hrun⟩ := Stops.bind_eq_ok.mp hrun
  obtain ⟨st₀, hstart, hrun⟩ := Stops.bind_eq_ok.mp hrun
  obtain ⟨st, hst, hrun⟩ := Stops.bind_eq_ok.mp hrun
  obtain ⟨hview, hrun⟩ := Prod.mk.inj (Except.ok.inj hrun)
  obtain ⟨helements, hexhausted⟩ := Prod.mk.inj hrun
  refine ⟨db, st₀, st, hdb, hstart, hst, hexhausted, fun hc => ?_⟩
  have hmem := (hc.exact [7] [1]).mpr hview
  rw [helements] at hmem
  revert hmem
  decide

end Missing

end Scan

end DVELevelDB
