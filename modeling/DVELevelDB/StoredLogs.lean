import DVELevelDB.Restorable

/-! # What the logs hold

The entries of a memtable are those of the records in its log. A record that could not be synced
is in the log all the same, but then there are no more writes.
-/

namespace DVELevelDB

open VersionStore
open Stops (Ensures)

variable {κ : Type*} {rank : Bytes → κ}

section Stored

def loggedUpdates (rank : Bytes → κ) (records : List Bytes) : List (Update κ Bytes) :=
  records.flatMap fun record => (WriteBatch.parse (record.drop kHeader)).1.map (Record.update rank)

variable (rank) in
/-- The entries that the batches of a log become. -/
inductive Stored : List Bytes → List Entry → Prop where
  | nil : Stored [] []
  | cons {b : WriteBatch} {ops : List Record} {es rest : List Entry} {records : List Bytes} :
      b.Denotes ops → Stamped (schema rank) b.sequence (ops.map (Record.update rank)) es →
      Stored records rest → Stored (b.rep :: records) (es ++ rest)

variable {records more : List Bytes} {es es' L : List Entry} {b : WriteBatch} {ops : List Record}

theorem loggedUpdates_append (records more : List Bytes) :
    loggedUpdates rank (records ++ more) = loggedUpdates rank records ++ loggedUpdates rank more :=
  List.flatMap_append

theorem loggedUpdates_cons (hb : b.Denotes ops) (records : List Bytes) :
    loggedUpdates rank (b.rep :: records) =
      ops.map (Record.update rank) ++ loggedUpdates rank records := by
  rw [loggedUpdates, List.flatMap_cons, ← WriteBatch.records, hb.records_eq]
  rfl

theorem Stored.append (h : Stored rank records es) (h' : Stored rank more es') :
    Stored rank (records ++ more) (es ++ es') := by
  induction h with
  | nil => exact h'
  | cons hb hst _ ih =>
    rw [List.cons_append, List.append_assoc]
    exact .cons hb hst ih

theorem Stored.eq_nil (h : Stored rank [] es) : es = [] := by
  cases h
  rfl

theorem Stored.single (hb : b.Denotes ops)
    (hst : Stamped (schema rank) b.sequence (ops.map (Record.update rank)) es) :
    Stored rank [b.rep] es := by
  simpa using Stored.cons hb hst .nil

variable [LinearOrder κ] {D : Bytes → Prop} {m n s : ℕ}

/-- Whoever reads after all entries reads the same. -/
theorem read_after (hL : ∀ e ∈ L, e.key.sequence ≤ m) (hs : m ≤ s) (k : κ) :
    (schema rank).read L k s = (schema rank).read L k m := by
  have hfilter : L.filter (fun e => (schema rank).Visible k s e) =
      L.filter (fun e => (schema rank).Visible k m e) := by
    refine List.filter_congr fun e he => ?_
    have hle := hL e he
    refine decide_eq_decide.mpr (and_congr_right fun _ => ⟨fun _ => hle, fun _ => hle.trans hs⟩)
  rw [Schema.read, Schema.read, Schema.lookup, Schema.lookup, hfilter]

theorem Logged.of_cons (hb : b.Denotes ops) (h : Logged D m (b.rep :: records) n) :
    ∃ s, m ≤ s ∧ b.sequence = s + 1 ∧ Logged D (s + ops.length) records n := by
  generalize hrep : b.rep :: records = all at h
  cases h with
  | nil => cases hrep
  | @cons m n s b' ops' records' hs hb' _ _ hseq hrest =>
    obtain ⟨hreps, rfl⟩ := List.cons.inj hrep
    obtain rfl : b = b' := by
      cases b
      cases hreps
      rfl
    obtain rfl := hb.unique hb'
    exact ⟨s, hs, hseq, hrest⟩

/-- Entries of a log on top of older ones act as the updates of its batches. -/
theorem Stored.read_eq (h : Stored rank records es) (hl : Logged D m records n)
    (hL : ∀ e ∈ L, e.key.sequence ≤ m) (hu : (schema rank).UniqueSeqs L) :
    (∀ e ∈ es, m < e.key.sequence ∧ e.key.sequence ≤ n) ∧ (schema rank).UniqueSeqs (es ++ L) ∧
      ∀ s, n ≤ s → ∀ k, (schema rank).read (es ++ L) k s =
        applyUpdates (fun k => (schema rank).read L k m) (loggedUpdates rank records) k := by
  induction h generalizing m L with
  | nil =>
    refine ⟨fun e he => absurd he List.not_mem_nil, hu, fun s hs k => ?_⟩
    exact read_after hL (hl.le.trans hs) k
  | @cons b ops es₁ rest records hb hst _ ih =>
    obtain ⟨s, hs, hseq, hrest⟩ := hl.of_cons hb
    rw [hseq] at hst
    have hbounds : ∀ e ∈ es₁, s < e.key.sequence ∧ e.key.sequence ≤ s + ops.length := by
      intro e he
      have := hst.bounds e he
      simp only [schema_seq, List.length_map] at this
      omega
    have habove : (schema rank).Above es₁ L := fun a ha b hb _ =>
      ((hL b hb).trans hs).trans_lt (hbounds a ha).1
    have hu₁ := Schema.UniqueSeqs.append _ hst.uniqueSeqs hu habove
    have hL₁ : ∀ e ∈ es₁ ++ L, e.key.sequence ≤ s + ops.length := by
      intro e he
      rcases List.mem_append.mp he with he | he
      · exact (hbounds e he).2
      · exact ((hL e he).trans hs).trans (Nat.le_add_right _ _)
    obtain ⟨hrange, hunique, hread⟩ := ih hrest hL₁ hu₁
    have hperm : ∀ e, e ∈ rest ++ (es₁ ++ L) ↔ e ∈ es₁ ++ rest ++ L := by
      intro e
      simp only [List.mem_append]
      tauto
    refine ⟨?_, hunique.of_subset _ fun e he => (hperm e).mpr he, fun t ht k => ?_⟩
    · intro e he
      rcases List.mem_append.mp he with he | he
      · have := hbounds e he
        have := hrest.le
        omega
      · have := hrange e he
        omega
    · have hfirst : (fun k => (schema rank).read (es₁ ++ L) k (s + ops.length)) =
          applyUpdates (fun k => (schema rank).read L k m) (ops.map (Record.update rank)) := by
        funext k
        have hold : ∀ e ∈ L, (schema rank).seq e ≤ s := fun e he => (hL e he).trans hs
        have hstamped := read_stamped hst hold hu k
        rw [List.length_map] at hstamped
        rw [hstamped]
        congr 1
        funext k
        exact read_after hL hs k
      rw [loggedUpdates_cons hb, applyUpdates_append, ← hfirst, ← hread t ht k, Schema.read,
        Schema.read, (schema rank).lookup_congr hunique hperm]

end Stored

namespace DB

/-- Work on the tables leaves the memtables and the logs as they are. -/
structure SameLogs (db db' : DB) : Prop where
  mem : db'.mem = db.mem
  imm : db'.imm = db.imm
  log : db'.log = db.log
  oldLogs : db'.oldLogs = db.oldLogs
  bgError : db'.bgError.isOk = true → db.bgError.isOk = true

section Tables

variable {o : Options} {db db' : DB}

theorem SameLogs.refl (db : DB) : SameLogs db db := ⟨rfl, rfl, rfl, rfl, id⟩

theorem recordBackgroundError_sameLogs (s : Status) (h : SameLogs db db') :
    SameLogs db (db'.recordBackgroundError s) := by
  unfold recordBackgroundError
  split_ifs with hbg
  · exact ⟨h.mem, h.imm, h.log, h.oldLogs, fun _ => h.bgError hbg⟩
  · exact h

theorem logAndApply_sameLogs (io : CompactionEvent) (edit : VersionEdit) (h : SameLogs db db') :
    Ensures (fun _ => True) (logAndApply o io edit db') fun r => SameLogs db r.2 := by
  have hset : SameLogs db { db' with
      compactPointers := edit.setCompactPointers db'.compactPointers } :=
    ⟨h.mem, h.imm, h.log, h.oldLogs, h.bgError⟩
  refine Stops.ensures_true.bind fun v _ => ?_
  split_ifs
  · exact ⟨h.mem, h.imm, h.log, h.oldLogs, h.bgError⟩
  · exact recordBackgroundError_sameLogs io.apply hset

theorem compactFiles_sameLogs (io : CompactionEvent) (level : ℕ) (files : CompactionFiles)
    (db : DB) :
    Ensures (fun _ => True) (compactFiles o io level files (db.setCompactPointer level files))
      fun r => SameLogs db r.2 := by
  have hraised : ∀ n, SameLogs db { db.setCompactPointer level files with
      nextFileNumber := db.nextFileNumber + n } := fun n => ⟨rfl, rfl, rfl, rfl, id⟩
  refine Stops.ensures_true.bind fun _ _ => Stops.ensures_true.bind fun input _ => ?_
  cases io.work with
  | some failure =>
    obtain ⟨read, s⟩ := failure
    refine Stops.ensures_true.bind fun groups _ => ?_
    exact recordBackgroundError_sameLogs s (hraised groups.length)
  | none =>
    refine Stops.ensures_true.bind fun groups _ => Stops.ensures_true.bind fun outputs _ => ?_
    exact logAndApply_sameLogs io _ (hraised groups.length)

theorem automaticCompaction_sameLogs (io : BackgroundEvent) (db : DB) :
    Ensures (fun _ => True) (automaticCompaction o io db) (SameLogs db) := by
  refine Stops.ensures_true.bind fun files _ => ?_
  cases files with
  | none => exact SameLogs.refl db
  | some files =>
    have hset : SameLogs db (db.setCompactPointer io.reason.level files) :=
      ⟨rfl, rfl, rfl, rfl, id⟩
    have hwork : Ensures (fun _ => True) (automaticWork o io.compaction io.reason.level files
        (db.setCompactPointer io.reason.level files)) fun r => SameLogs db r.2 := by
      rw [automaticWork]
      split_ifs
      · split
        · exact logAndApply_sameLogs io.compaction _ hset
        · trivial
      · exact compactFiles_sameLogs io.compaction io.reason.level files db
    exact hwork.bind fun r hr => hr

theorem manualCompaction_sameLogs (io : CompactionEvent) (level : ℕ)
    (userBegin userEnd : Option Bytes) (db : DB) :
    Ensures (fun _ => True) (manualCompaction o io level userBegin userEnd db)
      fun r => SameLogs db r.2 := by
  refine Stops.ensures_true.bind fun files _ => ?_
  cases files with
  | none => exact SameLogs.refl db
  | some files =>
    refine (compactFiles_sameLogs io level files db).bind fun r hr => ?_
    obtain ⟨s, db'⟩ := r
    dsimp only
    split_ifs
    · exact hr
    · exact hr

end Tables

/-- The memtables hold what is in the logs, but for the records that were `lost` at the end. -/
structure Durable (rank : Bytes → κ) (lost : List Bytes) (db : DB) : Prop where
  imm : ∃ es, Stored rank (db.oldLogs.flatMap (·.records)) es ∧ ∀ e, e ∈ es ↔ e ∈ db.immEntries
  mem : ∃ records es, db.log.records = records ++ lost ∧ Stored rank records es ∧
    ∀ e, e ∈ es ↔ e ∈ db.mem.entries
  lost : db.bgError.isOk = true → lost = []

section Durable

variable {o : Options} {db db' : DB} {lost : List Bytes}

theorem Durable.of_sameLogs (h : db.Durable rank lost) (hs : SameLogs db db') :
    db'.Durable rank lost := by
  refine ⟨?_, ?_, fun hbg => h.lost (hs.bgError hbg)⟩
  · rw [hs.oldLogs, immEntries, hs.imm]
    exact h.imm
  · rw [hs.log, hs.mem]
    exact h.mem

theorem compactImm_durable (h : db.Durable rank lost) (io : FlushEvent) (imm : MemTable) :
    Ensures (fun _ => True) (compactImm o io imm db) (Durable rank lost) := by
  have hraised : SameLogs db { db with nextFileNumber := db.nextFileNumber + 1 } :=
    ⟨rfl, rfl, rfl, rfl, id⟩
  refine Stops.ensures_true.bind fun r _ => ?_
  obtain ⟨edit, s⟩ := r
  by_cases hs : s.isOk
  · simp only [hs, if_true]
    refine Stops.ensures_true.bind fun _ _ => Stops.ensures_true.bind fun _ _ =>
      Stops.ensures_true.bind fun v _ => ?_
    by_cases ha : io.apply.isOk
    · simp only [ha, if_true]
      exact ⟨⟨[], .nil, fun e => Iff.rfl⟩, h.mem, h.lost⟩
    · simp only [ha, Bool.false_eq_true, if_false]
      exact h.of_sameLogs (recordBackgroundError_sameLogs io.apply hraised)
  · simp only [hs, Bool.false_eq_true, if_false]
    exact h.of_sameLogs (recordBackgroundError_sameLogs s hraised)

theorem Durable.switchMemTable (h : db.Durable rank []) (himm : db.imm = none) :
    db.switchMemTable.Durable rank [] := by
  obtain ⟨old, hold, hall⟩ := h.imm
  obtain ⟨records, es, hlog, hst, hmem⟩ := h.mem
  rw [List.append_nil] at hlog
  refine ⟨⟨old ++ es, ?_, fun e => ?_⟩, ⟨[], [], rfl, .nil, fun e => Iff.rfl⟩, fun _ => rfl⟩
  · simp only [DB.switchMemTable, List.flatMap_append, List.flatMap_cons, List.flatMap_nil,
      List.append_nil, hlog]
    exact hold.append hst
  · rw [List.mem_append, hall, hmem, immEntries, himm]
    simp [DB.switchMemTable, immEntries]

theorem Durable.sync_failed (h : db.Durable rank []) (record : Bytes) {s : Status}
    (hs : s.isOk = false) : ((db.addRecord record).recordBackgroundError s).Durable rank [record] := by
  obtain ⟨records, es, hlog, hst, hmem⟩ := h.mem
  rw [List.append_nil] at hlog
  have hlost : (db.addRecord record).log.records = records ++ [record] := by
    rw [← hlog]
    rfl
  unfold DB.recordBackgroundError
  split_ifs with hbg
  · exact ⟨h.imm, ⟨records, es, hlost, hst, hmem⟩, fun hok => absurd (hs.symm.trans hok) (by decide)⟩
  · exact ⟨h.imm, ⟨records, es, hlost, hst, hmem⟩, fun hok => absurd hok hbg⟩

theorem Durable.inserted (h : db.Durable rank []) {b : WriteBatch} {ops : List Record}
    (hb : b.Denotes ops) {es : List Entry} {mem : MemTable}
    (hst : Stamped (schema rank) b.sequence (ops.map (Record.update rank)) es)
    (hperm : mem.entries.Perm (es ++ db.mem.entries)) (lastSequence : ℕ) :
    ({ db.addRecord b.rep with mem, lastSequence } : DB).Durable rank [] := by
  obtain ⟨records, es', hlog, hst', hmem⟩ := h.mem
  rw [List.append_nil] at hlog
  refine ⟨h.imm, ⟨records ++ [b.rep], es' ++ es, ?_, hst'.append (.single hb hst), fun e => ?_⟩,
    h.lost⟩
  · rw [List.append_nil, ← hlog]
    rfl
  · rw [hperm.mem_iff, List.mem_append, List.mem_append, hmem, or_comm]

end Durable

section Stuck

variable {o : Options} {db : DB} (hbg : db.bgError.isOk = false)

include hbg

theorem makeRoomForWrite_stuck (force allowDelay : Bool) (events : List RoomEvent) :
    makeRoomForWrite o force allowDelay events db = .ok (db.bgError, db) := by
  have hdone : roomDecision o force allowDelay db = .done db.bgError := by
    rw [roomDecision, hbg]
    rfl
  cases events with
  | nil => rw [makeRoomForWrite_nil, hdone]
  | cons ev events => rw [makeRoomForWrite_cons, hdone]

end Stuck

section Operations

variable [LinearOrder κ] {D : Bytes → Prop} {n : ℕ} {o : Options} {db : DB}
  {lost : List Bytes} (ho : o.comparator.OrdersOn D rank) (hp : ∀ p ∈ o.filterPolicy, p.Lawful)

include ho hp

theorem durable_stable (hn : n < kMaxSequenceNumber) :
    Stable o (o.comparator.Places D rank)
      fun db => db.Restorable D rank n ∧ db.Durable rank [] := by
  have hs := restorable_stable ho hp hn
  refine ⟨fun {db} h imm himm io => ?_, fun {db} h himm => ?_, fun {db} h himm io => ?_,
    fun {db} h level hl userBegin userEnd hb he io => ?_⟩
  · exact (hs.flush h.1 himm io).and (compactImm_durable h.2 io imm)
  · exact ⟨hs.switch h.1 himm, h.2.switchMemTable himm⟩
  · exact ((hs.automatic h.1 himm io).and (automaticCompaction_sameLogs io db)).mono
      fun db' hr => ⟨hr.1, h.2.of_sameLogs hr.2⟩
  · refine ((hs.manual h.1 hl hb he io).and
      (manualCompaction_sameLogs io level userBegin userEnd db)).mono fun r hr => ?_
    exact ⟨⟨hr.1.1, h.2.of_sameLogs hr.2⟩, hr.1.2⟩

omit hp in
theorem commit_durable (h : db.WellFormed D rank) (hd : db.Durable rank [])
    (append syncFile : Status) (sync : Bool) {b : WriteBatch} {ops : List Record}
    (hb : b.Denotes ops) (hops : ∀ r ∈ ops, D r.key ∧ StorableKey r.key)
    (hmax : db.lastSequence + ops.length < kMaxSequenceNumber) :
    Ensures (fun _ => True) (commit o append syncFile sync b db) fun r =>
      ∃ lost, r.2.Durable rank lost ∧ (r.1.isOk = true → lost = []) ∧
        (lost = [] ∨ loggedUpdates rank lost = ops.map (Record.update rank)) := by
  have hrec := hb.records_eq
  have hseq : (b.setSequence (db.lastSequence + 1)).Denotes ops := hb.setSequence _
  have hsequence : (b.setSequence (db.lastSequence + 1)).sequence = db.lastSequence + 1 := by
    rw [kMaxSequenceNumber_eq] at hmax
    rw [WriteBatch.sequence_setSequence, Nat.mod_eq_of_lt (by omega)]
  unfold commit
  dsimp only
  split_ifs with happ hsync
  · refine Stops.ensures_true.bind fun _ _ => ?_
    have hfailed : syncFile.isOk = false := by simp_all
    have hlost := hd.sync_failed (b.setSequence (db.lastSequence + 1)).rep hfailed
    refine ⟨_, hlost.of_sameLogs ⟨rfl, rfl, rfl, rfl, id⟩, fun hok => ?_, Or.inr ?_⟩
    · exact absurd (hfailed.symm.trans hok) (by decide)
    · rw [loggedUpdates_cons hseq]
      exact List.append_nil _
  · have hins := insertInto_ensures (b := b) ho h.layered.mem h.mem_sequence_le
      (by rw [hrec]; exact fun r hr => (hops r hr).1) (by rw [hrec]; exact hmax.le)
    refine (hins.imp fun _ _ => trivial).bind fun r hr => Stops.ensures_true.bind fun _ _ => ?_
    obtain ⟨status, mem⟩ := r
    obtain ⟨-, -, -, es, hperm, hst⟩ := hr
    refine ⟨[], hd.inserted hseq ?_ hperm _, fun _ => rfl, Or.inl rfl⟩
    rw [hsequence, ← hrec]
    exact hst
  · refine Stops.ensures_true.bind fun _ _ => ?_
    exact ⟨[], hd.of_sameLogs ⟨rfl, rfl, rfl, rfl, id⟩, fun hok => absurd hok happ, Or.inl rfl⟩

/-- What a write leaves in the log, on top of what an earlier one could not sync. -/
theorem write_durable (h : db.Restorable D rank n) (hd : db.Durable rank lost) (io : WriteEvents)
    (sync : Bool) {b : WriteBatch} {ops : List Record} (hb : b.Denotes ops)
    (hops : ∀ r ∈ ops, D r.key ∧ StorableKey r.key) (hn : n + ops.length < kMaxSequenceNumber) :
    Ensures (fun _ => True) (db.write o io sync (some b)) fun r =>
      ∃ lost', r.2.2.Durable rank lost' ∧ (r.1.isOk = true → lost = [] ∧ lost' = []) ∧
        (lost' = lost ∨ lost = [] ∧
          loggedUpdates rank lost' = ops.map (Record.update rank)) := by
  by_cases hbg : db.bgError.isOk = true
  · obtain rfl := hd.lost hbg
    have hstable := durable_stable ho hp (n := n) ((Nat.le_add_right _ _).trans_lt hn)
    refine (hstable.makeRoom false true io.room ⟨h, hd⟩).bind fun r hr => ?_
    obtain ⟨s, db₁⟩ := r
    obtain ⟨h₁, hd₁⟩ := hr
    have hmax : db₁.lastSequence + ops.length < kMaxSequenceNumber :=
      (Nat.add_le_add_right h₁.last_le _).trans_lt hn
    dsimp only at h₁ hd₁ ⊢
    by_cases hs : s.isOk
    · rw [if_pos hs]
      have hcommit := commit_durable ho h₁.settled.wellFormed hd₁ io.append io.sync sync hb hops
        hmax
      refine hcommit.bind fun r hr => ?_
      obtain ⟨lost', hd', hok, hlost⟩ := hr
      exact ⟨lost', hd', fun hr => ⟨rfl, hok hr⟩, hlost.imp_right fun hlost => ⟨rfl, hlost⟩⟩
    · rw [if_neg hs]
      exact ⟨[], hd₁, fun hok => absurd hok hs, Or.inl rfl⟩
  · have hbg' : db.bgError.isOk = false := by simpa using hbg
    rw [write, makeRoomForWrite_stuck hbg', Stops.ok_bind]
    simp only [hbg', Bool.false_eq_true, if_false]
    exact ⟨lost, hd, fun hok => absurd hok hbg, Or.inl rfl⟩

end Operations

end DB

end DVELevelDB
