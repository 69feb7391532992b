import DVELevelDB.BackgroundCompaction

/-! # What a write does

A writer waits until there is room; that changes no contents. A write that succeeds stamps the
records of its batch with the next sequence numbers.
-/

namespace DVELevelDB

open VersionStore

def kL0_SlowdownWritesTrigger : ℕ := 8

def kL0_StopWritesTrigger : ℕ := 12

namespace DB

/-- What the environment does while a writer waits for room. -/
structure RoomEvent where
  background : List BackgroundEvent
  newLogFile : Status

structure WriteEvents where
  room : List RoomEvent
  append : Status
  sync : Status

section Definitions

variable (o : Options)

inductive RoomDecision where
  | done (s : Status)
  | sleep
  | wait
  | switch

def roomDecision (force allowDelay : Bool) (db : DB) : RoomDecision :=
  if !db.bgError.isOk then
    .done db.bgError
  else if allowDelay && (db.version.files 0).length ≥ kL0_SlowdownWritesTrigger then
    .sleep
  else if !force && !o.memTableFull db.mem then
    .done .ok
  else if db.imm.isSome then
    .wait
  else if (db.version.files 0).length ≥ kL0_StopWritesTrigger then
    .wait
  else
    .switch

def switchMemTable (db : DB) : DB :=
  { db with
    nextFileNumber := db.nextFileNumber + 1
    oldLogs := db.oldLogs ++ [db.log]
    log := ⟨db.nextFileNumber, []⟩
    imm := some db.mem
    mem := .empty }

/-- The loop of `MakeRoomForWrite`; each turn that does not end it takes one event. -/
def makeRoomForWrite (force allowDelay : Bool) : List RoomEvent → DB → Exec (Status × DB)
  | events, db =>
    match roomDecision o force allowDelay db, events with
    | .done s, _ => return (s, db)
    | _, [] => throw .blocked
    | .sleep, ev :: events => do
      makeRoomForWrite force false events (← backgroundCalls o ev.background db)
    | .wait, ev :: events => do
      makeRoomForWrite force allowDelay events (← backgroundCalls o ev.background db)
    | .switch, ev :: events =>
      if ev.newLogFile.isOk then
        makeRoomForWrite false allowDelay events db.switchMemTable
      else
        return (ev.newLogFile, db)
  termination_by events => events.length

def addRecord (record : Bytes) (db : DB) : DB :=
  { db with log := { db.log with records := db.log.records ++ [record] } }

/-- `last_sequence + Count`, in 64 bits. -/
def nextSequence (lastSequence : ℕ) (count : ℤ) : ℕ := ((lastSequence + count) % 2 ^ 64).toNat

/-- What `Write` does when there is room: the mutex is free while the log and the memtable are
written, but nobody else writes to them or takes sequence numbers. -/
def commit (append syncFile : Status) (sync : Bool) (batch : WriteBatch) (db : DB) :
    Exec (Status × DB) := do
  let batch := batch.setSequence (db.lastSequence + 1)
  let lastSequence := nextSequence db.lastSequence batch.count
  if append.isOk then
    let db := db.addRecord batch.rep
    if sync && !syncFile.isOk then
      let db := db.recordBackgroundError syncFile
      assertThat (lastSequence ≥ db.lastSequence)
      return (syncFile, { db with lastSequence })
    else
      let (status, mem) ← batch.insertInto o.comparator db.mem
      assertThat (lastSequence ≥ db.lastSequence)
      return (status, { db with mem, lastSequence })
  else
    assertThat (lastSequence ≥ db.lastSequence)
    return (append, { db with lastSequence })

/-- `DBImpl::Write` with no other writer in the queue; without a batch it only makes room. The
batch keeps the sequence number it was written with. -/
def write (io : WriteEvents) (sync : Bool) (updates : Option WriteBatch) (db : DB) :
    Exec (Status × Option WriteBatch × DB) := do
  let (status, db) ← makeRoomForWrite o updates.isNone updates.isSome io.room db
  match updates with
  | none => return (status, none, db)
  | some batch =>
    if status.isOk then
      let (status, db') ← commit o io.append io.sync sync batch db
      return (status, some (batch.setSequence (db.lastSequence + 1)), db')
    else
      return (status, some batch, db)

end Definitions

def RoomEvent.Healthy (ev : RoomEvent) : Prop :=
  ev.newLogFile.isOk = true ∧ ∀ io ∈ ev.background, io.Healthy

def WriteEvents.Logs (io : WriteEvents) (sync : Bool) : Prop :=
  io.append.isOk = true ∧ (sync = true → io.sync.isOk = true)

def WriteEvents.Healthy (io : WriteEvents) (sync : Bool) : Prop :=
  (∀ ev ∈ io.room, ev.Healthy) ∧ io.Logs sync

/-- No compaction that a writer waits for splits a key. -/
def RoomKeepsKeysWhole {κ : Type*} (rank : Bytes → κ) (o : Options) :
    Bool → Bool → List RoomEvent → DB → Prop
  | _, _, [], _ => True
  | force, allowDelay, ev :: events, db =>
    match roomDecision o force allowDelay db with
    | .done _ => True
    | .sleep => CallsKeepKeysWhole rank o ev.background db ∧
      ∀ db', backgroundCalls o ev.background db = .ok db' →
        RoomKeepsKeysWhole rank o force false events db'
    | .wait => CallsKeepKeysWhole rank o ev.background db ∧
      ∀ db', backgroundCalls o ev.background db = .ok db' →
        RoomKeepsKeysWhole rank o force allowDelay events db'
    | .switch => RoomKeepsKeysWhole rank o false allowDelay events db.switchMemTable

def WriteEvents.KeepsKeysWhole {κ : Type*} (rank : Bytes → κ) (o : Options) (io : WriteEvents)
    (db : DB) : Prop :=
  RoomKeepsKeysWhole rank o false true io.room db

section Room

variable {o : Options} {force allowDelay : Bool} {db : DB}

theorem makeRoomForWrite_nil : makeRoomForWrite o force allowDelay [] db =
    match roomDecision o force allowDelay db with
    | .done s => .ok (s, db)
    | _ => .error .blocked := by
  rw [makeRoomForWrite.eq_def]
  dsimp only
  cases roomDecision o force allowDelay db <;> rfl

theorem makeRoomForWrite_cons (ev : RoomEvent) (events : List RoomEvent) :
    makeRoomForWrite o force allowDelay (ev :: events) db =
      match roomDecision o force allowDelay db with
      | .done s => .ok (s, db)
      | .sleep => do
        makeRoomForWrite o force false events (← backgroundCalls o ev.background db)
      | .wait => do
        makeRoomForWrite o force allowDelay events (← backgroundCalls o ev.background db)
      | .switch =>
        if ev.newLogFile.isOk then
          makeRoomForWrite o false allowDelay events db.switchMemTable
        else
          .ok (ev.newLogFile, db) := by
  rw [makeRoomForWrite.eq_def]
  dsimp only
  cases roomDecision o force allowDelay db <;> rfl

theorem roomDecision_switch (h : roomDecision o force allowDelay db = .switch) : db.imm = none := by
  unfold roomDecision at h
  split_ifs at h with _ _ _ hi
  simpa using hi

theorem roomDecision_done {s : Status} (h : roomDecision o force allowDelay db = .done s) :
    s = db.bgError := by
  unfold roomDecision at h
  split_ifs at h with hb
  · exact (RoomDecision.done.inj h).symm
  · rw [← RoomDecision.done.inj h]
    exact ((Status.isOk_iff _).mp (by simpa using hb)).symm

theorem makeRoomForWrite_keeps (force allowDelay : Bool) (events : List RoomEvent) (db : DB) :
    Stops.Ensures (fun _ => True) (makeRoomForWrite o force allowDelay events db) fun r =>
      KeepsReaders (∀ ev ∈ events, ev.Healthy) db r.2 ∧
        ((∀ ev ∈ events, ev.Healthy) → r.1 = db.bgError) := by
  induction events generalizing force allowDelay db with
  | nil =>
    rw [makeRoomForWrite_nil]
    cases hd : roomDecision o force allowDelay db with
    | done s => exact ⟨.refl db, fun _ => roomDecision_done hd⟩
    | sleep => trivial
    | wait => trivial
    | switch => trivial
  | cons ev events ih =>
    have hwait : ∀ allow, Stops.Ensures (fun _ => True) (do
        makeRoomForWrite o force allow events (← backgroundCalls o ev.background db)) fun r =>
        KeepsReaders (∀ e ∈ ev :: events, e.Healthy) db r.2 ∧
          ((∀ e ∈ ev :: events, e.Healthy) → r.1 = db.bgError) := by
      intro allow
      refine (backgroundCalls_keeps _ db).bind fun db₁ h₁ => (ih _ _ db₁).mono fun r hr => ?_
      have hrest : (∀ e ∈ ev :: events, e.Healthy) → ∀ e ∈ events, e.Healthy :=
        fun hev e he => hev e (List.mem_cons_of_mem _ he)
      refine ⟨(h₁.trans hr.1).imp fun hev => ⟨(hev ev List.mem_cons_self).2, hrest hev⟩, ?_⟩
      intro hev
      rw [hr.2 (hrest hev), h₁.bgError (hev ev List.mem_cons_self).2]
    rw [makeRoomForWrite_cons]
    cases hd : roomDecision o force allowDelay db with
    | done s => exact ⟨.refl db, fun _ => roomDecision_done hd⟩
    | sleep => exact hwait false
    | wait => exact hwait allowDelay
    | switch =>
      dsimp only
      split_ifs with hlog
      · have hswitch : KeepsReaders True db db.switchMemTable := ⟨rfl, rfl, fun _ => rfl⟩
        refine (ih _ _ _).mono fun r hr => ⟨(hswitch.trans hr.1).imp fun hev => ⟨trivial, ?_⟩, ?_⟩
        · exact fun e he => hev e (List.mem_cons_of_mem _ he)
        · exact fun hev => hr.2 fun e he => hev e (List.mem_cons_of_mem _ he)
      · refine ⟨.refl db, fun hev => absurd (hev ev List.mem_cons_self).1 hlog⟩

section Contents

variable {κ : Type*} [LinearOrder κ] {D : Bytes → Prop} {rank : Bytes → κ}

theorem WellFormed.switchMemTable (h : db.WellFormed D rank) (himm : db.imm = none) :
    db.switchMemTable.WellFormed D rank ∧ SameContents db db.switchMemTable := by
  have hl := h.layered
  have hnone : db.immEntries = [] := by rw [immEntries, himm]
  have hent : db.switchMemTable.entries = db.entries := by
    simp [entries, immEntries, DB.switchMemTable, himm, MemTable.empty, MemTable.entries,
      SkipList.keys, SkipList.empty]
  have habove := hl.mem_above
  rw [hnone, List.nil_append] at habove
  refine ⟨⟨⟨Sorted.nil, hl.mem, hl.version, ?_, habove⟩, ?_, h.last_le, ?_, ?_⟩, ?_, rfl⟩
  · intro a ha
    exact absurd ha List.not_mem_nil
  · rw [hent]
    exact h.sequence_le
  · intro level f hf
    exact (h.file_number level f hf).trans (Nat.lt_succ_self _)
  · have := h.log_number
    simp only [DB.switchMemTable]
    omega
  · intro e
    rw [hent]

theorem Arranged.switchMemTable {healthy : Prop} (h : db.Arranged D rank) (himm : db.imm = none) :
    Rearranged D rank healthy db db.switchMemTable := by
  obtain ⟨hw, hsame⟩ := h.wellFormed.switchMemTable himm
  exact .of_sameContents h ⟨rfl, rfl, fun _ => rfl⟩ hw hsame h.tidy rfl

variable (ho : o.comparator.OrdersOn D rank) (hp : ∀ p ∈ o.filterPolicy, p.Lawful)

include ho hp

theorem makeRoomForWrite_spec (force allowDelay : Bool) (events : List RoomEvent)
    (h : db.Arranged D rank) (hm : db.lastSequence < kMaxSequenceNumber)
    (hwhole : RoomKeepsKeysWhole rank o force allowDelay events db) :
    Stops.Ensures (· = .blocked) (makeRoomForWrite o force allowDelay events db)
      fun r => Rearranged D rank (∀ ev ∈ events, ev.Healthy) db r.2 := by
  induction events generalizing force allowDelay db with
  | nil =>
    rw [makeRoomForWrite_nil]
    cases roomDecision o force allowDelay db with
    | done s => exact Rearranged.refl h
    | sleep => rfl
    | wait => rfl
    | switch => rfl
  | cons ev events ih =>
    have hwait : ∀ allow, CallsKeepKeysWhole rank o ev.background db →
        (∀ db', backgroundCalls o ev.background db = .ok db' →
          RoomKeepsKeysWhole rank o force allow events db') →
        Stops.Ensures (· = .blocked) (do
          makeRoomForWrite o force allow events (← backgroundCalls o ev.background db))
          fun r => Rearranged D rank (∀ e ∈ ev :: events, e.Healthy) db r.2 := by
      intro allow hcalls hrest
      have hback := (backgroundCalls_spec ho hp ev.background h hm hcalls).with_outcome
      refine (hback.imp fun _ ht => ht.1).bind fun db₁ hdb₁ => ?_
      obtain ⟨h₁, hreached⟩ := hdb₁
      refine (ih _ _ h₁.arranged (h₁.lastSequence ▸ hm) (hrest db₁ hreached)).mono fun r hr => ?_
      refine (h₁.trans hr).imp fun hev => ⟨(hev ev List.mem_cons_self).2, fun e he => ?_⟩
      exact hev e (List.mem_cons_of_mem _ he)
    rw [RoomKeepsKeysWhole] at hwhole
    rw [makeRoomForWrite_cons]
    cases hd : roomDecision o force allowDelay db with
    | done s => exact Rearranged.refl h
    | sleep =>
      rw [hd] at hwhole
      exact hwait false hwhole.1 hwhole.2
    | wait =>
      rw [hd] at hwhole
      exact hwait allowDelay hwhole.1 hwhole.2
    | switch =>
      rw [hd] at hwhole
      dsimp only
      split_ifs
      · have hswitch : Rearranged D rank True db db.switchMemTable :=
          h.switchMemTable (roomDecision_switch hd)
        refine (ih _ _ hswitch.arranged hm hwhole).mono fun r hr => (hswitch.trans hr).imp ?_
        exact fun hev => ⟨trivial, fun e he => hev e (List.mem_cons_of_mem _ he)⟩
      · exact Rearranged.refl h

/-- Without snapshots nothing that a writer waits for splits a key. -/
theorem Settled.roomKeepsKeysWhole (force allowDelay : Bool) (events : List RoomEvent)
    (h : db.Settled D rank) (hm : db.lastSequence < kMaxSequenceNumber) :
    RoomKeepsKeysWhole rank o force allowDelay events db := by
  induction events generalizing force allowDelay db with
  | nil => trivial
  | cons ev events ih =>
    have hcalls := h.callsKeepKeysWhole ho hp ev.background hm
    have hrest : ∀ allow db', backgroundCalls o ev.background db = .ok db' →
        RoomKeepsKeysWhole rank o force allow events db' := by
      intro allow db' hdb'
      have hr := (backgroundCalls_spec ho hp ev.background h.toArranged hm hcalls).elim hdb'
      exact ih _ _ (hr.settled h) (hr.lastSequence ▸ hm)
    rw [RoomKeepsKeysWhole]
    cases hd : roomDecision o force allowDelay db with
    | done s => trivial
    | sleep => exact ⟨hcalls, hrest false⟩
    | wait => exact ⟨hcalls, hrest allowDelay⟩
    | switch =>
      have hswitch : Rearranged D rank True db db.switchMemTable :=
        h.toArranged.switchMemTable (roomDecision_switch hd)
      exact ih _ _ (hswitch.settled h) hm

theorem Settled.keepsKeysWhole_write (h : db.Settled D rank)
    (hm : db.lastSequence < kMaxSequenceNumber) (io : WriteEvents) :
    io.KeepsKeysWhole rank o db :=
  h.roomKeepsKeysWhole ho hp false true io.room hm

end Contents

end Room

section Write

variable {κ : Type*} [LinearOrder κ] {D : Bytes → Prop} {rank : Bytes → κ} {o : Options}
  {db db' : DB} {es : List Entry} {n : ℕ}

/-- `db'` is `db` with the entries `es` on top, and `n` as its last sequence number. -/
structure Grown (D : Bytes → Prop) (rank : Bytes → κ) (es : List Entry) (n : ℕ) (db db' : DB) :
    Prop where
  layered : db'.Layered D rank
  entries : ∀ e, e ∈ db'.entries ↔ e ∈ es ++ db.entries
  lastSequence : db'.lastSequence = n
  file_number : ∀ level, ∀ f ∈ db'.version.files level, f.number < db'.nextFileNumber
  log_number : db'.logNumber ≤ db'.log.number ∧ db'.log.number < db'.nextFileNumber
  version : db'.version = db.version
  compactPointers : db'.compactPointers = db.compactPointers
  snapshots : db'.snapshots = db.snapshots

theorem Grown.wellFormed (hg : Grown D rank es n db db') (h : db.WellFormed D rank)
    (hes : ∀ e ∈ es, e.key.sequence ≤ n) (hle : db.lastSequence ≤ n)
    (hn : n ≤ kMaxSequenceNumber) : db'.WellFormed D rank := by
  refine ⟨hg.layered, ?_, hg.lastSequence ▸ hn, hg.file_number, hg.log_number⟩
  intro e he
  rw [hg.lastSequence]
  rcases List.mem_append.mp ((hg.entries e).mp he) with he | he
  · exact hes e he
  · exact (h.sequence_le e he).trans hle

theorem Grown.arranged {us} (hg : Grown D rank es n db db') (h : db.Arranged D rank)
    (hst : Stamped (schema rank) (db.lastSequence + 1) us es) (hle : db.lastSequence + us.length ≤ n)
    (hn : n ≤ kMaxSequenceNumber) : db'.Arranged D rank := by
  have hlast : db.lastSequence ≤ n := (Nat.le_add_right _ _).trans hle
  refine ⟨hg.wellFormed h.wellFormed (fun e he => ?_) hlast hn, ?_, ?_, ?_, ?_⟩
  · have hbound := (hst.bounds e he).2
    simp only [schema_seq] at hbound
    omega
  · rw [hg.version]
    exact h.tidy
  · rw [hg.compactPointers]
    exact h.pointers
  · rw [hg.snapshots]
    exact h.snapshots
  · rw [hg.snapshots, hg.lastSequence]
    exact fun s hs => (h.snapshots_le s hs).trans hlast

theorem Grown.viewAt_take {us} (hg : Grown D rank es n db db') (h : db.WellFormed D rank)
    (hst : Stamped (schema rank) (db.lastSequence + 1) us es) (j : ℕ) :
    db'.viewAt rank (db.lastSequence + j) = applyUpdates (db.view rank) (us.take j) := by
  funext x
  rw [viewAt, Schema.read, (schema rank).lookup_congr hg.layered.uniqueSeqs hg.entries,
    ← Schema.read, read_stamped_take hst h.sequence_le h.layered.uniqueSeqs]
  rfl

theorem Grown.viewAt_eq {us} (hg : Grown D rank es n db db') (h : db.WellFormed D rank)
    (hst : Stamped (schema rank) (db.lastSequence + 1) us es) :
    db'.viewAt rank (db.lastSequence + us.length) = applyUpdates (db.view rank) us := by
  have hall := hg.viewAt_take h hst us.length
  rwa [List.take_length] at hall

theorem Grown.viewAt_below {us} (hg : Grown D rank es n db db')
    (hst : Stamped (schema rank) (db.lastSequence + 1) us es) {s : ℕ} (hs : s ≤ db.lastSequence) :
    db'.viewAt rank s = db.viewAt rank s := by
  funext x
  have habsent : (schema rank).Absent es x s := by
    intro e he hv
    have hnew := (hst.bounds e he).1
    have hold := hv.2
    omega
  rw [viewAt, Schema.read, (schema rank).lookup_congr hg.layered.uniqueSeqs hg.entries,
    (schema rank).lookup_of_absent_left habsent]
  rfl

theorem nextSequence_eq {m : ℕ} (h : n + m ≤ kMaxSequenceNumber) : nextSequence n m = n + m := by
  rw [kMaxSequenceNumber_eq] at h
  rw [nextSequence]
  omega

theorem WellFormed.insert (h : db.WellFormed D rank) {mem : MemTable} {us} (last : ℕ)
    (hsorted : Sorted D rank mem.entries) (hperm : mem.entries.Perm (es ++ db.mem.entries))
    (hst : Stamped (schema rank) (db.lastSequence + 1) us es) (record : Bytes) :
    Grown D rank es last db { db.addRecord record with mem := mem, lastSequence := last } := by
  have hl := h.layered
  refine ⟨⟨hsorted, hl.imm, hl.version, ?_, hl.imm_above⟩, ?_, rfl, h.file_number, h.log_number,
    rfl, rfl, rfl⟩
  · intro a ha b hb hk
    rcases List.mem_append.mp (hperm.mem_iff.mp ha) with ha | ha
    · have hnew := (hst.bounds a ha).1
      have hold := h.sequence_le b (List.mem_append_right _ hb)
      exact lt_of_lt_of_le (Nat.lt_succ_of_le hold) hnew
    · exact hl.mem_above a ha b hb hk
  · intro e
    have hmem := hperm.mem_iff (a := e)
    simp only [DB.entries, DB.addRecord, immEntries, List.mem_append] at hmem ⊢
    rw [hmem, or_assoc]

theorem WellFormed.grown (h : db.WellFormed D rank) (last : ℕ) :
    Grown D rank [] last db { db with lastSequence := last } := by
  have hl := h.layered
  exact ⟨⟨hl.mem, hl.imm, hl.version, hl.mem_above, hl.imm_above⟩, fun _ => Iff.rfl, rfl,
    h.file_number, h.log_number, rfl, rfl, rfl⟩

theorem WellFormed.grown_unsynced (h : db.WellFormed D rank) (record : Bytes) (s : Status)
    (last : ℕ) : Grown D rank [] last db
      { (db.addRecord record).recordBackgroundError s with lastSequence := last } := by
  have hl := h.layered
  unfold DB.recordBackgroundError
  split_ifs <;> exact ⟨⟨hl.mem, hl.imm, hl.version, hl.mem_above, hl.imm_above⟩,
    fun _ => Iff.rfl, rfl, h.file_number, h.log_number, rfl, rfl, rfl⟩

/-- The records of a batch either all enter the memtable, or one of them stops the process. -/
theorem insertInto_ensures (ho : o.comparator.OrdersOn D rank)
    (hs : Sorted D rank db.mem.entries)
    (hold : ∀ e ∈ db.mem.entries, e.key.sequence ≤ db.lastSequence)
    {b : WriteBatch} (hD : ∀ r ∈ b.records, D r.key)
    (hn : db.lastSequence + b.records.length ≤ kMaxSequenceNumber) :
    Stops.Ensures (fun t => t = .assertion ∧ ∃ r ∈ b.records, ¬ StorableKey r.key)
      ((b.setSequence (db.lastSequence + 1)).insertInto o.comparator db.mem)
      fun r => r.1 = b.parseStatus ∧ (∀ r ∈ b.records, StorableKey r.key) ∧
        Sorted D rank r.2.entries ∧ ∃ es, r.2.entries.Perm (es ++ db.mem.entries) ∧
          Stamped (schema rank) (db.lastSequence + 1) (b.records.map (Record.update rank)) es := by
  have hfits : ∀ r ∈ b.records, r.Fits := WriteBatch.parse_fits _
  have hlt : db.lastSequence + 1 < 2 ^ 64 := by
    rw [kMaxSequenceNumber_eq] at hn
    omega
  rw [MemTable.insertInto_eq_fold, WriteBatch.records_setSequence,
    WriteBatch.sequence_setSequence, Nat.mod_eq_of_lt hlt, WriteBatch.parseStatus_setSequence]
  by_cases hk : ∀ r ∈ b.records, StorableKey r.key
  · obtain ⟨mem, es, hfold, hsorted, hperm, hst⟩ := MemTable.insertRecords ho hs
      (fun r hr => ⟨hD r hr, hk r hr, hfits r hr⟩) hn hold
    rw [hfold]
    exact ⟨rfl, hk, hsorted, es, hperm, hst⟩
  · push Not at hk
    rw [MemTable.insertRecords_assertion ho hs
      (fun r hr => ⟨hD r hr, hfits r hr⟩) hk hn hold]
    exact ⟨rfl, hk⟩

/-- How the commit of a batch ends, if it returns. -/
inductive Committed (D : Bytes → Prop) (rank : Bytes → κ) (logs : Prop) (b : WriteBatch) (db : DB) :
    Status × DB → Prop where
  | lost {s : Status} {new : DB} : s.isOk = false → ¬ logs →
      Grown D rank [] (nextSequence db.lastSequence b.count) db new →
      Committed D rank logs b db (s, new)
  | inserted {fresh : List Entry} {new : DB} : (∀ r ∈ b.records, StorableKey r.key) →
      Stamped (schema rank) (db.lastSequence + 1) (b.records.map (Record.update rank)) fresh →
      Grown D rank fresh (nextSequence db.lastSequence b.count) db new →
      Committed D rank logs b db (b.parseStatus, new)

theorem commit_eq (ho : o.comparator.OrdersOn D rank) (h : db.WellFormed D rank)
    (append syncFile : Status) (sync : Bool) {b : WriteBatch} {m : ℕ}
    (hD : ∀ r ∈ b.records, D r.key) (hn : db.lastSequence + b.records.length ≤ kMaxSequenceNumber)
    (hcount : b.count = m) (hm : db.lastSequence + m ≤ kMaxSequenceNumber) :
    Stops.Ensures (fun t => t = .assertion ∧ ∃ r ∈ b.records, ¬ StorableKey r.key)
      (commit o append syncFile sync b db)
      (Committed D rank (append.isOk = true ∧ (sync = true → syncFile.isOk = true)) b db) := by
  have hnext : nextSequence db.lastSequence m = db.lastSequence + m := nextSequence_eq hm
  have hcs : (b.setSequence (db.lastSequence + 1)).count = m := by
    rw [WriteBatch.count_setSequence, hcount]
  have hge : decide (db.lastSequence + m ≥ db.lastSequence) = true := by simp
  have hkept : ∀ s : Status, ((db.addRecord (b.setSequence (db.lastSequence + 1)).rep)
      |>.recordBackgroundError s).lastSequence = db.lastSequence := by
    intro s
    unfold recordBackgroundError
    split_ifs <;> rfl
  simp only [commit, hcs, hnext]
  split_ifs with happ hsync
  · -- the record is in the log, but the sync failed
    rw [hkept, hge]
    refine Committed.lost (by simp_all) (fun hlogs => by simp_all) ?_
    rw [hcount, hnext]
    exact h.grown_unsynced _ _ _
  · refine (insertInto_ensures (b := b) ho h.layered.mem h.mem_sequence_le hD hn).bind fun r hr => ?_
    obtain ⟨status, mem⟩ := r
    obtain ⟨hstatus, hk, hsorted, es, hperm, hst⟩ := hr
    have hlast : (db.addRecord (b.setSequence (db.lastSequence + 1)).rep).lastSequence =
        db.lastSequence := rfl
    dsimp only at hstatus hsorted hperm ⊢
    rw [hlast, hge, hstatus]
    refine Committed.inserted hk hst ?_
    rw [hcount, hnext]
    exact h.insert _ hsorted hperm hst _
  · rw [hge]
    refine Committed.lost (by simpa using happ) (fun hlogs => happ hlogs.1) ?_
    rw [hcount, hnext]
    exact h.grown _

def Admits (o : Options) (io : WriteEvents) (db : DB) : Prop :=
  ∃ db₁, makeRoomForWrite o false true io.room db = .ok (.ok, db₁)

/-- `db'` comes after `db`: at most `n` sequence numbers are used up, and nobody who reads at an old
one that is still in use sees a difference. -/
structure Advanced (D : Bytes → Prop) (rank : Bytes → κ) (n : ℕ) (db db' : DB) : Prop where
  arranged : db'.Arranged D rank
  snapshots : db'.snapshots = db.snapshots
  ge : db.lastSequence ≤ db'.lastSequence
  le : db'.lastSequence ≤ db.lastSequence + n
  viewAt : ∀ s, db.smallestSnapshot ≤ s → s ≤ db.lastSequence →
    db'.viewAt rank s = db.viewAt rank s

theorem Advanced.refl (h : db.Arranged D rank) : Advanced D rank n db db :=
  ⟨h, rfl, le_rfl, Nat.le_add_right _ _, fun _ _ _ => rfl⟩

theorem Advanced.settled (ha : Advanced D rank n db db') (h : db.Settled D rank) :
    db'.Settled D rank :=
  ⟨ha.arranged, ha.snapshots.trans h.unheld⟩

theorem Advanced.of_rearranged {p : Prop} (hr : Rearranged D rank p db db') :
    Advanced D rank n db db' :=
  ⟨hr.arranged, hr.snapshots, hr.lastSequence.ge, hr.lastSequence ▸ Nat.le_add_right _ _,
    fun s hle _ => hr.viewAt s hle⟩

theorem Rearranged.advanced {p : Prop} {db₁ : DB} (hr : Rearranged D rank p db db₁)
    (h : Advanced D rank n db₁ db') : Advanced D rank n db db' := by
  refine ⟨h.arranged, h.snapshots.trans hr.snapshots, hr.lastSequence ▸ h.ge,
    hr.lastSequence ▸ h.le, fun s hle hs => ?_⟩
  rw [← hr.viewAt s hle]
  exact h.viewAt s (by rwa [hr.smallestSnapshot]) (hr.lastSequence ▸ hs)

theorem Grown.advanced {us} (hg : Grown D rank es (db.lastSequence + n) db db')
    (h : db.Arranged D rank) (hst : Stamped (schema rank) (db.lastSequence + 1) us es)
    (hus : us.length ≤ n) (hn : db.lastSequence + n ≤ kMaxSequenceNumber) :
    Advanced D rank n db db' := by
  refine ⟨hg.arranged h hst (by omega) hn, hg.snapshots, ?_, hg.lastSequence.le,
    fun s _ hs => hg.viewAt_below hst hs⟩
  rw [hg.lastSequence]
  exact Nat.le_add_right _ _

theorem Committed.outcome {logs : Prop} {b : WriteBatch} {r : Status × DB}
    (hc : Committed D rank logs b db r) (h : db.Arranged D rank) {ops : List Record}
    (hb : b.Denotes ops) (hlen : ops.length < 2 ^ 31)
    (hn : db.lastSequence + ops.length ≤ kMaxSequenceNumber) :
    r.2.view rank = (if r.1.isOk then
      applyUpdates (db.view rank) (ops.map (Record.update rank)) else db.view rank) ∧
      r.2.lastSequence = db.lastSequence + ops.length ∧
      Advanced D rank ops.length db r.2 := by
  have hnext : nextSequence db.lastSequence b.count = db.lastSequence + ops.length := by
    rw [hb.count_eq hlen, nextSequence_eq hn]
  cases hc with
  | lost hs _ hg =>
    rw [hnext] at hg
    have hst : Stamped (schema rank) (db.lastSequence + 1) [] [] := Stamped.nil _
    have hview := hg.viewAt_take h.wellFormed hst ops.length
    rw [List.take_nil, applyUpdates_nil] at hview
    refine ⟨?_, hg.lastSequence, hg.advanced h hst (Nat.zero_le _) hn⟩
    rw [hs, if_neg Bool.false_ne_true, DB.view, hg.lastSequence, hview]
  | inserted _ hst hg =>
    rw [hb.records_eq] at hst
    rw [hnext] at hg
    have hview := hg.viewAt_eq h.wellFormed hst
    rw [List.length_map] at hview
    refine ⟨?_, hg.lastSequence, hg.advanced h hst (List.length_map _).le hn⟩
    rw [hb.parseStatus_ok hlen, Status.isOk_ok, if_pos rfl, DB.view, hg.lastSequence, hview]

/-- How a write with a batch ends, if it returns. -/
inductive Written (D : Bytes → Prop) (rank : Bytes → κ) (o : Options) (io : WriteEvents) (sync : Bool)
    (b : WriteBatch) (db : DB) : Status × Option WriteBatch × DB → Prop where
  | refused {s : Status} {new : DB} : ¬ Admits o io db → s.isOk = false →
      ((∀ ev ∈ io.room, ev.Healthy) → s = db.bgError) →
      Rearranged D rank (∀ ev ∈ io.room, ev.Healthy) db new →
      Written D rank o io sync b db (s, some b, new)
  | committed {db₁ : DB} {r : Status × DB} : Admits o io db →
      Rearranged D rank (∀ ev ∈ io.room, ev.Healthy) db db₁ →
      Committed D rank (io.Logs sync) b db₁ r →
      Written D rank o io sync b db (r.1, some (b.setSequence (db.lastSequence + 1)), r.2)

section Cases

variable (ho : o.comparator.OrdersOn D rank) (hp : ∀ p ∈ o.filterPolicy, p.Lawful)
  (h : db.Arranged D rank) (hm : db.lastSequence < kMaxSequenceNumber) (io : WriteEvents)
  (sync : Bool) {b : WriteBatch} (hwhole : io.KeepsKeysWhole rank o db)

include ho hp h hm hwhole

theorem write_eq {m : ℕ} (hD : ∀ r ∈ b.records, D r.key)
    (hn : db.lastSequence + b.records.length ≤ kMaxSequenceNumber) (hcount : b.count = m)
    (hmax : db.lastSequence + m ≤ kMaxSequenceNumber) :
    Stops.Ensures (fun t => t = .blocked ∧ ¬ Admits o io db ∨
        t = .assertion ∧ ∃ r ∈ b.records, ¬ StorableKey r.key)
      (write o io sync (some b) db) (Written D rank o io sync b db) := by
  have hroom := ((makeRoomForWrite_spec ho hp false true io.room h hm hwhole).and
    (makeRoomForWrite_keeps false true io.room db)).with_outcome
  refine Stops.Ensures.bind (hroom.imp ?_) fun r hr => ?_
  · rintro t ⟨rfl, hblocked⟩
    refine Or.inl ⟨rfl, ?_⟩
    rintro ⟨db₁, hdone⟩
    rw [hdone] at hblocked
    cases hblocked
  obtain ⟨s, db₁⟩ := r
  obtain ⟨⟨hr, -, hstatus⟩, hmade⟩ := hr
  dsimp only at hr hstatus ⊢
  by_cases hs : s.isOk
  · have hadmits : Admits o io db := ⟨db₁, by rw [hmade, (Status.isOk_iff s).mp hs]⟩
    have hcommit := commit_eq ho hr.arranged.wellFormed io.append io.sync sync hD
      (by rwa [hr.lastSequence]) hcount (by rwa [hr.lastSequence])
    rw [if_pos hs, hr.lastSequence]
    refine (hcommit.imp fun t ht => Or.inr ht).bind fun r hc => ?_
    exact Written.committed hadmits hr hc
  · rw [if_neg hs]
    refine Written.refused ?_ (by simpa using hs) hstatus hr
    rintro ⟨db₂, hdone⟩
    rw [hmade] at hdone
    cases hdone
    exact hs rfl

/-- Whatever a write of a batch with known records meets: it applies them all and says so, or it
changes nothing a read can see. The batch keeps its records. -/
theorem write_outcome {ops : List Record} (hb : b.Denotes ops) (hlen : ops.length < 2 ^ 31)
    (hD : ∀ r ∈ ops, D r.key) (hn : db.lastSequence + ops.length ≤ kMaxSequenceNumber) :
    Stops.Ensures (fun _ => True) (write o io sync (some b) db) fun r =>
      (∃ b', r.2.1 = some b' ∧ b'.Denotes ops) ∧ (r.2.2.view rank = if r.1.isOk then
        applyUpdates (db.view rank) (ops.map (Record.update rank)) else db.view rank) ∧
      Advanced D rank ops.length db r.2.2 := by
  have hrec := hb.records_eq
  have hcount := hb.count_eq hlen
  have hw := write_eq ho hp h hm io sync hwhole (b := b) (by rwa [hrec]) (by rwa [hrec]) hcount hn
  refine (hw.imp fun _ _ => trivial).mono fun r hr => ?_
  cases hr with
  | refused _ hs _ hr =>
    rw [hs, if_neg Bool.false_ne_true]
    exact ⟨⟨b, rfl, hb⟩, hr.view, .of_rearranged hr⟩
  | committed _ hr hc =>
    have hmax := hn
    rw [← hr.lastSequence] at hmax
    obtain ⟨hview, -, hadvanced⟩ := hc.outcome hr.arranged hb hlen hmax
    rw [← hr.view]
    exact ⟨⟨_, rfl, hb.setSequence _⟩, hview, hr.advanced hadvanced⟩

end Cases

theorem write_keeps {io : WriteEvents} {sync : Bool} (hio : io.Healthy sync)
    (hbg : db.bgError.isOk = true) (b : WriteBatch) :
    Stops.Ensures (fun _ => True) (write o io sync (some b) db) fun r =>
      r.1 = b.parseStatus ∧ r.2.1 = some (b.setSequence (db.lastSequence + 1)) ∧
        r.2.2.lastSequence = nextSequence db.lastSequence b.count ∧
        r.2.2.bgError = db.bgError := by
  refine (makeRoomForWrite_keeps false true io.room db).bind fun r hr => ?_
  obtain ⟨s, db₁⟩ := r
  obtain ⟨hkeeps, hstatus⟩ := hr
  have hlast := hkeeps.lastSequence
  have hbg₁ := hkeeps.bgError hio.1
  obtain rfl := hstatus hio.1
  have hsync : (sync && !io.sync.isOk) = false := by
    cases sync
    · rfl
    · simp [hio.2.2 rfl]
  dsimp only at hlast hbg₁ ⊢
  simp only [hbg, if_true, commit, hio.2.1, hsync, Bool.false_eq_true, if_false, hlast,
    MemTable.insertInto_eq_fold, WriteBatch.count_setSequence, WriteBatch.parseStatus_setSequence,
    bind_assoc, pure_bind]
  exact Stops.ensures_true.bind fun _ _ => Stops.ensures_true.bind fun _ _ =>
    ⟨rfl, rfl, rfl, hbg₁⟩

/-- Without faults, a write of a batch with known records applies them all. -/
theorem write_denoted (ho : o.comparator.OrdersOn D rank) (hp : ∀ p ∈ o.filterPolicy, p.Lawful)
    (h : db.Arranged D rank) (hm : db.lastSequence < kMaxSequenceNumber) {io : WriteEvents}
    {sync : Bool} (hwhole : io.KeepsKeysWhole rank o db) (hio : io.Healthy sync)
    (hbg : db.bgError.isOk = true) {b : WriteBatch} {ops : List Record} (hb : b.Denotes ops)
    (hlen : ops.length < 2 ^ 31) (hD : ∀ r ∈ ops, D r.key)
    (hn : db.lastSequence + ops.length ≤ kMaxSequenceNumber) :
    Stops.Ensures (fun t => t = .blocked ∧ ¬ Admits o io db ∨
        t = .assertion ∧ ∃ r ∈ ops, ¬ StorableKey r.key)
      (write o io sync (some b) db) fun r =>
        r.1 = .ok ∧ r.2.2.bgError.isOk = true ∧ (∀ r ∈ ops, StorableKey r.key) ∧
          Advanced D rank ops.length db r.2.2 ∧
          r.2.2.lastSequence = db.lastSequence + ops.length ∧
          r.2.2.view rank = applyUpdates (db.view rank) (ops.map (Record.update rank)) := by
  have hrec := hb.records_eq
  have hcount := hb.count_eq hlen
  have hw := write_eq ho hp h hm io sync hwhole (b := b) (by rwa [hrec]) (by rwa [hrec]) hcount hn
  have hout := write_outcome ho hp h hm io sync hwhole hb hlen hD hn
  rw [hrec] at hw
  refine ((hw.and hout).and (write_keeps hio hbg b)).mono ?_
  rintro r ⟨⟨hr, -, hview, hadv⟩, hstatus, -, hlast, hbg'⟩
  rw [hb.parseStatus_ok hlen] at hstatus
  rw [hstatus, Status.isOk_ok, if_pos rfl] at hview
  refine ⟨hstatus, hbg' ▸ hbg, ?_, hadv, ?_, hview⟩
  · cases hr with
    | refused _ hs =>
      dsimp only at hstatus
      rw [hstatus] at hs
      cases hs
    | committed _ _ hc =>
      cases hc with
      | lost _ hlogs => exact absurd hio.2 hlogs
      | inserted hk => rwa [hrec] at hk
  · rw [hlast, hcount, nextSequence_eq hn]

end Write

end DB

end DVELevelDB
