import DVELevelDB.Recorded

/-! # Databases that can be opened again

What every step of the engine keeps is kept by all its operations. A database can be closed after
any of them, and what is in its directory then can be replayed.
-/

namespace DVELevelDB

open VersionStore
open Stops (Ensures)

namespace DB

variable {o : Options} {bound : Bytes → Prop} {I : DB → Prop} {db : DB}

/-- A property that the single steps keep, as long as manual compactions have proper bounds. -/
structure Stable (o : Options) (bound : Bytes → Prop) (I : DB → Prop) : Prop where
  flush : ∀ {db}, I db → ∀ {imm}, db.imm = some imm → ∀ io,
    Ensures (fun _ => True) (compactImm o io imm db) I
  switch : ∀ {db}, I db → db.imm = none → I db.switchMemTable
  automatic : ∀ {db}, I db → db.imm = none → ∀ io,
    Ensures (fun _ => True) (automaticCompaction o io db) I
  manual : ∀ {db}, I db → ∀ {level}, level + 1 < kNumLevels → ∀ {userBegin userEnd},
    (∀ k ∈ userBegin, bound k) → (∀ k ∈ userEnd, bound k) → ∀ io,
    Ensures (fun _ => True) (manualCompaction o io level userBegin userEnd db)
      fun r => I r.2 ∧ ∀ userBegin' ∈ r.1, ∀ k ∈ userBegin', bound k

namespace Stable

variable (hs : Stable o bound I) {userBegin userEnd : Option Bytes}

include hs

theorem backgroundCall (h : I db) (io : BackgroundEvent) :
    Ensures (fun _ => True) (backgroundCall o io db) I := by
  unfold DB.backgroundCall
  split_ifs
  · cases himm : db.imm with
    | none => exact hs.automatic h himm io
    | some imm => exact hs.flush h himm io.flush
  · exact h

theorem backgroundCalls (h : I db) (ios : List BackgroundEvent) :
    Ensures (fun _ => True) (backgroundCalls o ios db) I :=
  Stops.ensures_foldlM h fun _ h₁ io _ => hs.backgroundCall h₁ io

theorem makeRoom (force allowDelay : Bool) (events : List RoomEvent) (h : I db) :
    Ensures (fun _ => True) (makeRoomForWrite o force allowDelay events db)
      fun r => I r.2 := by
  induction events generalizing force allowDelay db with
  | nil =>
    rw [makeRoomForWrite_nil]
    cases roomDecision o force allowDelay db with
    | done s => exact h
    | sleep => trivial
    | wait => trivial
    | switch => trivial
  | cons ev events ih =>
    have hback := hs.backgroundCalls h ev.background
    rw [makeRoomForWrite_cons]
    cases hd : roomDecision o force allowDelay db with
    | done s => exact h
    | sleep => exact hback.bind fun db₁ h₁ => ih _ _ h₁
    | wait => exact hback.bind fun db₁ h₁ => ih _ _ h₁
    | switch =>
      dsimp only
      split_ifs
      · exact ih _ _ (hs.switch h (roomDecision_switch hd))
      · exact h

theorem manualCall (h : I db) (ev : ManualEvent) {level : ℕ} (hl : level + 1 < kNumLevels)
    (hb : ∀ k ∈ userBegin, bound k) (he : ∀ k ∈ userEnd, bound k) :
    Ensures (fun _ => True) (manualCall o ev level userBegin userEnd db)
      fun r => I r.2 ∧ ∀ userBegin' ∈ r.1, ∀ k ∈ userBegin', bound k := by
  unfold DB.manualCall
  split_ifs
  · exact hs.manual h hl hb he ev.io.compaction
  · refine (hs.backgroundCall h ev.io).bind fun db₁ h₁ => ⟨h₁, ?_⟩
    rintro _ ⟨⟩
    exact hb

theorem manualLoop (events : List ManualEvent) (h : I db) {level : ℕ} (hl : level + 1 < kNumLevels)
    (hb : ∀ k ∈ userBegin, bound k) (he : ∀ k ∈ userEnd, bound k) :
    Ensures (fun _ => True) (manualLoop o level userEnd events userBegin db) I := by
  induction events generalizing db userBegin with
  | nil =>
    rw [DB.manualLoop]
    split_ifs
    · trivial
    · exact h
  | cons ev events ih =>
    rw [DB.manualLoop]
    split_ifs
    · refine (hs.manualCall h ev hl hb he).bind fun r hr => ?_
      obtain ⟨next, db₁⟩ := r
      obtain ⟨h₁, hnext⟩ := hr
      cases next with
      | none => exact h₁
      | some userBegin' => exact ih h₁ (hnext userBegin' rfl)
    · exact h

theorem waitForFlush (events : List BackgroundEvent) (h : I db) :
    Ensures (fun _ => True) (waitForFlush o events db) I := by
  induction events generalizing db with
  | nil =>
    rw [DB.waitForFlush]
    split_ifs
    · trivial
    · exact h
  | cons ev events ih =>
    rw [DB.waitForFlush]
    split_ifs
    · exact (hs.backgroundCall h ev).bind fun db₁ h₁ => ih h₁
    · exact h

theorem compactRange (h : I db) (io : RangeEvents) (hb : ∀ k ∈ userBegin, bound k)
    (he : ∀ k ∈ userEnd, bound k) :
    Ensures (fun _ => True) (compactRange o io userBegin userEnd db) I := by
  have hwrite : Ensures (fun _ => True) (db.write o io.write false none)
      fun r => I r.2.2 := (hs.makeRoom true false io.write.room h).bind fun r hr => hr
  have hmem : Ensures (fun _ => True) (testCompactMemTable o io db) I := by
    refine hwrite.bind fun r hr => ?_
    obtain ⟨s, b, db₁⟩ := r
    dsimp only
    split_ifs
    · exact hs.waitForFlush io.background hr
    · exact hr
  refine Stops.ensures_true.bind fun maxLevel _ => hmem.bind fun db₁ h₁ => ?_
  refine Stops.ensures_foldlM h₁ fun db₂ h₂ level _ => ?_
  by_cases hl : level + 1 < kNumLevels
  · rw [testCompactRange, decide_eq_true hl, assertThat_true, Stops.ok_bind]
    exact hs.manualLoop (io.levels level) h₂ hl hb he
  · rw [testCompactRange, decide_eq_false hl]
    trivial

end Stable

variable {κ : Type*} [LinearOrder κ] {D : Bytes → Prop} {rank : Bytes → κ} {n n' : ℕ}

/-- A database that can be opened again, with sequence numbers up to `n`. -/
structure Restorable (D : Bytes → Prop) (rank : Bytes → κ) (n : ℕ) (db : DB) : Prop where
  settled : db.Settled D rank
  recorded : db.Recorded D
  last_le : db.lastSequence ≤ n

theorem Restorable.weaken (h : db.Restorable D rank n) (hn : n ≤ n') : db.Restorable D rank n' :=
  ⟨h.settled, h.recorded, h.last_le.trans hn⟩

theorem Rearranged.restorable {db' : DB} {healthy : Prop} (hr : Rearranged D rank healthy db db')
    (h : db.Restorable D rank n) (hrec : db'.Recorded D) : db'.Restorable D rank n :=
  ⟨hr.settled h.settled, hrec, hr.lastSequence ▸ h.last_le⟩

section Operations

variable (ho : o.comparator.OrdersOn D rank) (hp : ∀ p ∈ o.filterPolicy, p.Lawful)

include ho hp

theorem restorable_flush (h : db.Restorable D rank n) {imm : MemTable} (himm : db.imm = some imm)
    (io : FlushEvent) :
    Ensures (fun _ => True) (compactImm o io imm db) (Restorable D rank n) := by
  have hw := h.settled.wellFormed
  obtain ⟨db', hdb', hw', hsame, ht⟩ := compactImm_eq ho hp hw himm io
  have hrec := (compactImm_recorded ho hp h.recorded hw himm io).elim hdb'
  obtain ⟨hkeeps, hpointers⟩ := (compactImm_keeps io imm db).elim hdb'
  rw [hdb']
  exact (Rearranged.of_sameContents h.settled.toArranged hkeeps hw' hsame (ht h.settled.tidy)
    hpointers).restorable h hrec

variable (hn : n < kMaxSequenceNumber)

include hn

theorem restorable_manual (h : db.Restorable D rank n) {level : ℕ} (hl : level + 1 < kNumLevels)
    {userBegin userEnd : Option Bytes} (hb : ∀ k ∈ userBegin, o.comparator.Places D rank k)
    (he : ∀ k ∈ userEnd, o.comparator.Places D rank k) (io : CompactionEvent) :
    Ensures (fun _ => True) (manualCompaction o io level userBegin userEnd db) fun r =>
      r.2.Restorable D rank n ∧
        ∀ userBegin' ∈ r.1, ∀ k ∈ userBegin', o.comparator.Places D rank k := by
  have hv := h.settled.wellFormed.layered.version
  have hm := h.last_le.trans_lt hn
  obtain ⟨r, hr, hch⟩ := compactRangeInputs_spec ho hv h.settled.tidy hl hb he
  rw [manualCompaction, hr, Stops.ok_bind]
  cases r with
  | none => exact ⟨h, by simp⟩
  | some files =>
    have hchosen := hch files rfl
    have hset := h.settled.setCompactPointer hchosen
    have hspec := compactFiles_spec ho hp hset.toArranged hchosen hm io
      fun _ => hset.keepsKeysWhole ho hchosen hm
    have hrec := compactFiles_recorded ho hp (h.recorded.withPointers _) hset hchosen hm io
    refine ((hspec.imp fun _ _ => trivial).and hrec).bind fun r hr => ?_
    obtain ⟨s, db'⟩ := r
    have hkept : db'.Restorable D rank n :=
      ((h.settled.toArranged.setCompactPointer hchosen).trans hr.1).restorable h hr.2
    dsimp only
    split_ifs
    · refine ⟨hkept, ?_⟩
      rintro _ ⟨⟩
      exact nextBegin_places ho hv hchosen
    · exact ⟨hkept, by simp⟩

theorem restorable_stable :
    Stable o (o.comparator.Places D rank) (Restorable D rank n) where
  flush h _ himm io := restorable_flush ho hp h himm io
  switch h himm := by
    have hswitch := @Arranged.switchMemTable _ _ _ _ _ True h.settled.toArranged himm
    exact hswitch.restorable h (h.recorded.switchMemTable h.settled.wellFormed)
  automatic h himm io := by
    have hm := h.last_le.trans_lt hn
    have hspec := automaticCompaction_spec ho hp h.settled.toArranged hm io himm
      (h.settled.backgroundKeepsKeysWhole ho hm io)
    refine ((hspec.imp fun _ _ => trivial).and (automaticCompaction_recorded ho hp h.recorded h.settled hm io)).mono ?_
    exact fun db' hr => hr.1.restorable h hr.2
  manual h _ hl _ _ hb he io := restorable_manual ho hp hn h hl hb he io

omit ho hp hn in
/-- The log record of a batch that is about to be inserted. -/
theorem logged_setSequence {b : WriteBatch} {ops : List Record} (hb : b.Denotes ops)
    (hlen : ops.length < 2 ^ 31) (hops : ∀ r ∈ ops, D r.key ∧ StorableKey r.key) {s : ℕ}
    (hs : s + ops.length ≤ kMaxSequenceNumber) :
    Logged D s [(b.setSequence (s + 1)).rep] (s + ops.length) := by
  refine .cons le_rfl (hb.setSequence _) hlen hops ?_ (.nil le_rfl)
  rw [kMaxSequenceNumber_eq] at hs
  rw [WriteBatch.sequence_setSequence, Nat.mod_eq_of_lt (by omega)]

omit ho hp hn in
/-- However the log and the memtable are written. -/
theorem commit_recorded (h : db.Recorded D) (append syncFile : Status) (sync : Bool)
    {b : WriteBatch} {ops : List Record} (hb : b.Denotes ops) (hlen : ops.length < 2 ^ 31)
    (hops : ∀ r ∈ ops, D r.key ∧ StorableKey r.key)
    (hmax : db.lastSequence + ops.length ≤ kMaxSequenceNumber) :
    Ensures (fun _ => True) (commit o append syncFile sync b db) fun r => r.2.Recorded D := by
  have hnext : nextSequence db.lastSequence (b.setSequence (db.lastSequence + 1)).count =
      db.lastSequence + ops.length := by
    rw [WriteBatch.count_setSequence, hb.count_eq hlen, nextSequence_eq hmax]
  have hlogged := logged_setSequence hb hlen hops hmax
  unfold commit
  dsimp only
  rw [hnext]
  split_ifs
  · refine Stops.ensures_true.bind fun _ _ => ?_
    unfold DB.recordBackgroundError
    split_ifs
    · exact h.append hlogged db.mem syncFile
    · exact h.append hlogged db.mem db.bgError
  · refine Stops.ensures_true.bind fun r _ => Stops.ensures_true.bind fun _ _ => ?_
    exact h.append hlogged r.2 db.bgError
  · refine Stops.ensures_true.bind fun _ _ => ?_
    have hnone : Logged D db.lastSequence [] (db.lastSequence + ops.length) :=
      .nil (Nat.le_add_right _ _)
    have hlost := h.append hnone db.mem db.bgError
    rw [List.append_nil] at hlost
    exact hlost

omit hn in
theorem write_recorded (h : db.Restorable D rank n) (io : WriteEvents) (sync : Bool)
    {b : WriteBatch} {ops : List Record} (hb : b.Denotes ops) (hlen : ops.length < 2 ^ 31)
    (hops : ∀ r ∈ ops, D r.key ∧ StorableKey r.key) (hn : n + ops.length < kMaxSequenceNumber) :
    Ensures (fun _ => True) (db.write o io sync (some b)) fun r => r.2.2.Recorded D := by
  have hstable := restorable_stable ho hp (n := n) ((Nat.le_add_right _ _).trans_lt hn)
  refine (hstable.makeRoom false true io.room h).bind fun r hr => ?_
  obtain ⟨s, db₁⟩ := r
  have hmax : db₁.lastSequence + ops.length ≤ kMaxSequenceNumber :=
    (Nat.add_le_add_right hr.last_le _).trans hn.le
  dsimp only
  split_ifs
  · have hcommit := commit_recorded (o := o) hr.recorded io.append io.sync sync hb hlen hops hmax
    exact hcommit.bind fun r hr => hr
  · exact hr.recorded

omit hn in
/-- However a write ends, the database can be opened again. -/
theorem write_restorable (h : db.Restorable D rank n) (io : WriteEvents) (sync : Bool)
    {b : WriteBatch} {ops : List Record} (hb : b.Denotes ops) (hlen : ops.length < 2 ^ 31)
    (hops : ∀ r ∈ ops, D r.key ∧ StorableKey r.key) (hn : n + ops.length < kMaxSequenceNumber) :
    Ensures (fun _ => True) (db.write o io sync (some b)) fun r =>
      r.2.2.Restorable D rank (n + ops.length) := by
  have hlast := h.last_le
  have hm : db.lastSequence < kMaxSequenceNumber := by omega
  have hwhole := h.settled.keepsKeysWhole_write ho hp hm io
  have hout := write_outcome ho hp h.settled.toArranged hm io sync hwhole hb hlen
    (fun r hr => (hops r hr).1) (by omega)
  refine (hout.and (write_recorded ho hp h io sync hb hlen hops hn)).mono fun r hr => ?_
  obtain ⟨⟨-, -, hadv⟩, hrec⟩ := hr
  exact ⟨hadv.settled h.settled, hrec, hadv.le.trans (Nat.add_le_add_right hlast _)⟩

end Operations

end DB

end DVELevelDB
