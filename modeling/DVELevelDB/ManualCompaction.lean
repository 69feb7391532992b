import DVELevelDB.DBWrite

/-! # Manual compactions

`CompactRange` flushes the memtable and compacts every level that holds files of the range, while
the background thread may do other work in between.
-/

namespace DVELevelDB

open VersionStore

namespace DB

/-- One call of the background thread while a caller waits for a manual compaction. -/
structure ManualEvent where
  manual : Bool
  io : BackgroundEvent

/-- What the environment does during `CompactRange`. -/
structure RangeEvents where
  write : WriteEvents
  background : List BackgroundEvent
  levels : ℕ → List ManualEvent

section Definitions

variable (o : Options)

/-- One part of a manual compaction: where the rest of the range begins, if there is one. -/
def manualCompaction (io : CompactionEvent) (level : ℕ) (userBegin userEnd : Option Bytes)
    (db : DB) : Exec (Option (Option Bytes) × DB) := do
  match ← compactRangeInputs o db.version level userBegin userEnd with
  | none => return (none, db)
  | some files =>
    let (s, db) ← compactFiles o io level files (db.setCompactPointer level files)
    if s.isOk then
      return (some (files.inputs.getLast?.map (·.largest.userKey)), db)
    else
      return (none, db)

/-- `BackgroundCall` while a manual compaction is wanted; the memtable goes first. -/
def manualCall (ev : ManualEvent) (level : ℕ) (userBegin userEnd : Option Bytes) (db : DB) :
    Exec (Option (Option Bytes) × DB) := do
  if ev.manual && db.imm.isNone then
    manualCompaction o ev.io.compaction level userBegin userEnd db
  else
    return (some userBegin, ← backgroundCall o ev.io db)

def manualLoop (level : ℕ) (userEnd : Option Bytes) :
    List ManualEvent → Option Bytes → DB → Exec DB
  | events, userBegin, db =>
    if db.bgError.isOk then
      match events with
      | [] => throw .blocked
      | ev :: events => do
        match ← manualCall o ev level userBegin userEnd db with
        | (none, db) => return db
        | (some userBegin, db) => manualLoop level userEnd events userBegin db
    else
      return db

/-- `TEST_CompactRange`. -/
def testCompactRange (events : List ManualEvent) (level : ℕ) (userBegin userEnd : Option Bytes)
    (db : DB) : Exec DB := do
  assertThat (level + 1 < kNumLevels)
  manualLoop o level userEnd events userBegin db

def waitForFlush : List BackgroundEvent → DB → Exec DB
  | events, db =>
    if db.imm.isSome && db.bgError.isOk then
      match events with
      | [] => throw .blocked
      | io :: events => do waitForFlush events (← backgroundCall o io db)
    else
      return db

/-- `TEST_CompactMemTable`. -/
def testCompactMemTable (io : RangeEvents) (db : DB) : Exec DB := do
  let (s, _, db) ← db.write o io.write false none
  if s.isOk then waitForFlush o io.background db else return db

def maxLevelWithFiles (v : Version) (userBegin userEnd : Option Bytes) : Exec ℕ :=
  (List.range' 1 (kNumLevels - 1)).foldlM (fun maxLevel level => do
    return if ← v.overlapInLevel o.comparator level userBegin userEnd then level else maxLevel) 1

def compactRange (io : RangeEvents) (userBegin userEnd : Option Bytes) (db : DB) : Exec DB := do
  let maxLevel ← maxLevelWithFiles o db.version userBegin userEnd
  let db ← testCompactMemTable o io db
  (List.range maxLevel).foldlM (fun db level =>
    testCompactRange o (io.levels level) level userBegin userEnd db) db

end Definitions

structure RangeEvents.Healthy (io : RangeEvents) : Prop where
  write : io.write.Healthy false
  background : ∀ ev ∈ io.background, ev.Healthy
  levels : ∀ level, ∀ ev ∈ io.levels level, ev.io.Healthy

section Manual

variable {κ : Type*} [LinearOrder κ] {D : Bytes → Prop} {rank : Bytes → κ}
variable {o : Options} {db : DB} {userBegin userEnd : Option Bytes}
  (ho : o.comparator.OrdersOn D rank) (hp : ∀ p ∈ o.filterPolicy, p.Lawful)

include ho in
theorem nextBegin_places {v : Version} {level : ℕ} {files : CompactionFiles}
    (h : v.WellFormed D rank) (hch : Chosen rank v level files) :
    ∀ k ∈ files.inputs.getLast?.map (·.largest.userKey), o.comparator.Places D rank k := by
  intro k hk
  obtain ⟨f, hf, rfl⟩ := Option.map_eq_some_iff.mp hk
  have hmem : f ∈ v.files level :=
    hch.matched.inputs_closed.sublist.subset (List.mem_of_getLast? hf)
  exact ho.places (h.file level f hmem).largest_mem

include ho hp in
theorem manualCall_spec (h : db.Settled D rank) (hm : db.lastSequence < kMaxSequenceNumber)
    (ev : ManualEvent) {level : ℕ} (hl : level + 1 < kNumLevels)
    (hb : ∀ k ∈ userBegin, o.comparator.Places D rank k)
    (he : ∀ k ∈ userEnd, o.comparator.Places D rank k) :
    Stops.Ensures (· = .blocked) (manualCall o ev level userBegin userEnd db)
      fun r => Rearranged D rank ev.io.Healthy db r.2 ∧
        ∀ userBegin' ∈ r.1, ∀ k ∈ userBegin', o.comparator.Places D rank k := by
  rw [manualCall]
  split_ifs with hmanual
  · have hv := h.wellFormed.layered.version
    obtain ⟨r, hr, hch⟩ := compactRangeInputs_spec ho hv h.tidy hl hb he
    rw [manualCompaction, hr, Stops.ok_bind]
    cases r with
    | none => exact ⟨Rearranged.refl h.toArranged, by simp⟩
    | some files =>
      have hchosen := hch files rfl
      have hset : Rearranged D rank True db (db.setCompactPointer level files) :=
        h.withPointers (h.pointers.update _ (h.pointer_mem hchosen))
      have hwhole := (hset.settled h).keepsKeysWhole ho hchosen hm
      have hwork := compactFiles_spec ho hp hset.arranged hchosen hm ev.io.compaction
        fun _ => hwhole
      refine hwork.bind fun r hr => ?_
      obtain ⟨s, db'⟩ := r
      have hkept : Rearranged D rank ev.io.Healthy db db' :=
        (hset.trans hr).imp fun hio => ⟨trivial, hio.2⟩
      dsimp only
      split_ifs
      · refine ⟨hkept, ?_⟩
        rintro _ ⟨⟩
        exact nextBegin_places ho hv hchosen
      · exact ⟨hkept, by simp⟩
  · have hwhole := h.backgroundKeepsKeysWhole ho hm ev.io
    refine (backgroundCall_spec ho hp h.toArranged hm ev.io hwhole).bind fun db' hr => ⟨hr, ?_⟩
    rintro _ ⟨⟩
    exact hb

include ho hp in
theorem manualLoop_spec (events : List ManualEvent) (h : db.Settled D rank)
    (hm : db.lastSequence < kMaxSequenceNumber) {level : ℕ} (hl : level + 1 < kNumLevels)
    (hb : ∀ k ∈ userBegin, o.comparator.Places D rank k)
    (he : ∀ k ∈ userEnd, o.comparator.Places D rank k) :
    Stops.Ensures (· = .blocked) (manualLoop o level userEnd events userBegin db)
      fun db' => Rearranged D rank (∀ ev ∈ events, ev.io.Healthy) db db' := by
  induction events generalizing db userBegin with
  | nil =>
    rw [manualLoop]
    split_ifs
    · rfl
    · exact Rearranged.refl h.toArranged
  | cons ev events ih =>
    rw [manualLoop]
    split_ifs
    · refine (manualCall_spec ho hp h hm ev hl hb he).bind fun r hr => ?_
      obtain ⟨next, db₁⟩ := r
      obtain ⟨hr, hnext⟩ := hr
      dsimp only at hr hnext
      cases next with
      | none => exact hr.imp fun hio => hio ev List.mem_cons_self
      | some userBegin' =>
        have hrest := ih (hr.settled h) (hr.lastSequence ▸ hm) (hnext userBegin' rfl)
        refine hrest.mono fun db₂ hr₂ => (hr.trans hr₂).imp fun hio => ?_
        exact ⟨hio ev List.mem_cons_self, fun ev' h' => hio ev' (List.mem_cons_of_mem _ h')⟩
    · exact Rearranged.refl h.toArranged

include ho hp in
theorem waitForFlush_spec (events : List BackgroundEvent) (h : db.Settled D rank)
    (hm : db.lastSequence < kMaxSequenceNumber) :
    Stops.Ensures (· = .blocked) (waitForFlush o events db)
      fun db' => Rearranged D rank (∀ ev ∈ events, ev.Healthy) db db' := by
  induction events generalizing db with
  | nil =>
    rw [waitForFlush]
    split_ifs
    · rfl
    · exact Rearranged.refl h.toArranged
  | cons ev events ih =>
    rw [waitForFlush]
    split_ifs
    · have hwhole := h.backgroundKeepsKeysWhole ho hm ev
      refine (backgroundCall_spec ho hp h.toArranged hm ev hwhole).bind fun db₁ hr => ?_
      refine (ih (hr.settled h) (hr.lastSequence ▸ hm)).mono fun db₂ hr₂ => ?_
      refine (hr.trans hr₂).imp fun hio => ?_
      exact ⟨hio ev List.mem_cons_self, fun ev' h' => hio ev' (List.mem_cons_of_mem _ h')⟩
    · exact Rearranged.refl h.toArranged

include ho hp in
theorem testCompactMemTable_spec (h : db.Settled D rank) (hm : db.lastSequence < kMaxSequenceNumber)
    (io : RangeEvents) :
    Stops.Ensures (· = .blocked) (testCompactMemTable o io db)
      fun db' => Rearranged D rank io.Healthy db db' := by
  have hwrite : Stops.Ensures (· = .blocked) (db.write o io.write false none)
      fun r => Rearranged D rank (∀ ev ∈ io.write.room, ev.Healthy) db r.2.2 := by
    have hwhole := h.roomKeepsKeysWhole ho hp true false io.write.room hm
    have hroom := makeRoomForWrite_spec ho hp true false io.write.room h.toArranged hm hwhole
    rw [DB.write]
    exact hroom.bind fun r hr => hr
  refine hwrite.bind fun r hr => ?_
  obtain ⟨s, b, db₁⟩ := r
  dsimp only at hr ⊢
  split_ifs
  · refine (waitForFlush_spec ho hp io.background (hr.settled h) (hr.lastSequence ▸ hm)).mono ?_
    exact fun db₂ hr₂ => (hr.trans hr₂).imp fun hio => ⟨hio.write.1, hio.background⟩
  · exact hr.imp fun hio => hio.write.1

theorem overlapInLevel_ok {c : Comparator} {v : Version} (h : v.WellFormed D rank) {level : ℕ}
    (hl : 0 < level) (hb : ∀ k ∈ userBegin, c.Places D rank k)
    (he : ∀ k ∈ userEnd, c.Places D rank k) :
    ∃ b, v.overlapInLevel c level userBegin userEnd = .ok b := by
  have hbefore : ∀ f ∈ v.files level, ∃ b, beforeFile c userEnd f = .ok b := by
    intro f hf
    cases userEnd with
    | none => exact ⟨false, rfl⟩
    | some k =>
      rw [beforeFile, ((he k rfl) _ (h.file level f hf).smallest_mem).2]
      exact ⟨_, rfl⟩
  have hfirst : ∀ rest, rest <:+ v.files level →
      ∃ b, someFileOverlapsRange c true rest none userEnd = .ok b := by
    intro rest hsuffix
    cases rest with
    | nil => exact ⟨false, rfl⟩
    | cons f rest =>
      obtain ⟨b, hb⟩ := hbefore f (hsuffix.subset List.mem_cons_self)
      refine ⟨!b, ?_⟩
      simp only [someFileOverlapsRange, if_true, Stops.ok_bind, pure_bind, hb]
      rfl
  rw [Version.overlapInLevel, someFileOverlapsRange, decide_eq_true hl, if_pos rfl]
  cases userBegin with
  | none => exact hfirst _ List.suffix_rfl
  | some k =>
    have hpack : packSequenceAndType kMaxSequenceNumber kValueTypeForSeek =
        .ok (kMaxSequenceNumber * 256 + kValueTypeForSeek) := by
      decide +kernel
    have htest : ∀ f ∈ v.files level, ∃ b, beforeKey c
        ⟨k, kMaxSequenceNumber * 256 + kValueTypeForSeek⟩ f.largest = .ok b := by
      intro f hf
      rw [beforeKey, InternalKeyComparator.compare,
        ((hb k rfl) _ (h.file level f hf).largest_mem).1]
      exact ⟨_, rfl⟩
    obtain ⟨rest, hsearch, hsuffix⟩ := BinarySearch.search_suffix htest
    simp only [hpack, Stops.ok_bind, findFile, hsearch]
    exact hfirst rest hsuffix

theorem maxLevelWithFiles_spec {v : Version}
    (h : v.WellFormed D rank) (hb : ∀ k ∈ userBegin, o.comparator.Places D rank k)
    (he : ∀ k ∈ userEnd, o.comparator.Places D rank k) :
    Stops.Ensures (· = .blocked) (maxLevelWithFiles o v userBegin userEnd)
      fun maxLevel => maxLevel < kNumLevels := by
  refine Stops.ensures_foldlM (by decide) fun maxLevel hmax level hlevel => ?_
  rw [List.mem_range'_1] at hlevel
  have hpos : 0 < level := hlevel.1
  obtain ⟨b, hb⟩ := overlapInLevel_ok h hpos hb he
  rw [hb, Stops.ok_bind]
  cases b
  · exact hmax
  · have hlt := hlevel.2
    simp only [kNumLevels] at hlt ⊢
    exact hlt

include ho hp in
/-- A manual compaction returns with the same contents, or waits for ever. -/
theorem compactRange_spec (h : db.Settled D rank) (hm : db.lastSequence < kMaxSequenceNumber)
    (io : RangeEvents) (hb : ∀ k ∈ userBegin, o.comparator.Places D rank k)
    (he : ∀ k ∈ userEnd, o.comparator.Places D rank k) :
    Stops.Ensures (· = .blocked) (compactRange o io userBegin userEnd db)
      fun db' => Rearranged D rank io.Healthy db db' := by
  rw [compactRange]
  refine (maxLevelWithFiles_spec h.wellFormed.layered.version hb he).bind fun maxLevel hmax => ?_
  refine (testCompactMemTable_spec ho hp h hm io).bind fun db₁ hr => ?_
  refine Stops.ensures_foldlM hr fun db₂ hr₂ level hlevel => ?_
  have hl : level + 1 < kNumLevels := by
    rw [List.mem_range] at hlevel
    omega
  rw [testCompactRange, decide_eq_true hl, assertThat_true, Stops.ok_bind]
  have hloop := manualLoop_spec ho hp (io.levels level) (hr₂.settled h) (hr₂.lastSequence ▸ hm) hl hb
    he
  exact hloop.mono fun db₃ hr₃ => (hr₂.trans hr₃).imp fun hio => ⟨hio, hio.levels level⟩

end Manual

end DB

end DVELevelDB
