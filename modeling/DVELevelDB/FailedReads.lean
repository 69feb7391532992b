import DVELevelDB.DefaultOptions
import DVELevelDB.StatusErrors

/-! # Reads from table files that cannot be read -/

namespace DVELevelDB

open VersionStore Utf8

section Failure

variable {κ : Type*} [LinearOrder κ] (rank : Bytes → κ) (io : FileAccess) (k : Bytes) (s : ℕ)

/-- The failure that ends a search of the files for `k`, if it comes before a visible entry. -/
def Version.firstFailure : List FileMetaData → Option Status
  | [] => none
  | f :: files =>
    match Table.readFault rank io f.number f.table ⟨k, s * 256 + 1⟩ with
    | some fault => some fault
    | none =>
      if ((schema rank).lookup f.entries (rank k) s).isSome then none else firstFailure files

/-- The failure that a read of `k` at `s` meets; the files are asked after the memtables. -/
def DB.readFailure (db : DB) : Option Status :=
  if (((schema rank).lookup db.mem.entries (rank k) s).or
      ((schema rank).lookup db.immEntries (rank k) s)).isSome then
    none
  else
    Version.firstFailure rank io k s (db.version.candidates rank k s)

end Failure

section Reads

variable {κ : Type*} [LinearOrder κ] {c : Comparator} {D : Bytes → Prop} {rank : Bytes → κ}
  {io : FileAccess} {db : DB} {k key : Bytes} {s : ℕ}

theorem Version.firstFailure_not_ok {files : List FileMetaData} {fault : Status}
    (h : firstFailure rank io k s files = some fault) : fault.isOk = false := by
  induction files with
  | nil => cases h
  | cons f files ih =>
    rw [firstFailure] at h
    cases hf : Table.readFault rank io f.number f.table ⟨k, s * 256 + 1⟩ with
    | some fault' =>
      rw [hf] at h
      cases h
      exact Table.readFault_not_ok hf
    | none =>
      rw [hf] at h
      simp only at h
      split_ifs at h
      exact ih h

theorem Version.findSome_fileAnswer (files : List FileMetaData) :
    files.findSome? (fileAnswer rank io k s) =
      match firstFailure rank io k s files with
      | some fault => some (.error fault)
      | none => (files.findSome? fun f => (schema rank).lookup f.entries (rank k) s).map
          MemTable.answer := by
  induction files with
  | nil => rfl
  | cons f files ih =>
    rw [List.findSome?_cons, List.findSome?_cons, fileAnswer, firstFailure]
    cases Table.readFault rank io f.number f.table ⟨k, s * 256 + 1⟩ with
    | some fault => rfl
    | none =>
      cases (schema rank).lookup f.entries (rank k) s with
      | some e => rfl
      | none => exact ih

theorem DB.readFailure_not_ok {fault : Status} (h : db.readFailure rank io k s = some fault) :
    fault.isOk = false := by
  unfold readFailure at h
  split_ifs at h
  exact Version.firstFailure_not_ok h

theorem DB.get_readFailure (io : FileAccess) (ho : c.OrdersOn D rank) (h : db.Layered D rank)
    {snapshot : Option ℕ} (hs : snapshot.getD db.lastSequence = s)
    (hsr : Searchable c D rank db k s) :
    db.get c io snapshot k =
      .ok (match db.readFailure rank io k s with
        | some fault => .error fault
        | none => readAnswer (db.viewAt rank s (rank k))) := by
  rw [get_eq ho h hs hsr, readFailure, ← h.answer_eq, h.lookup_eq, ← Option.or_assoc]
  cases ((schema rank).lookup db.mem.entries (rank k) s).or
      ((schema rank).lookup db.immEntries (rank k) s) with
  | some e => rfl
  | none =>
    simp only [filesAnswer, Version.findSome_fileAnswer, Option.isSome_none, Bool.false_eq_true,
      if_false, Option.none_or, Version.lookup_candidates h.version]
    cases Version.firstFailure rank io k s (db.version.candidates rank k s) <;> rfl

/-- A live entry is returned as it is or the call throws, and `nil` is not returned for it. -/
structure NilMeansAbsent (c : Comparator) (rank : Bytes → κ) (io : FileAccess)
    (snapshot : Option ℕ) (key : Bytes) (db : DB) : Prop where
  absent : LevelDB.value c io snapshot key db = .ok (.ok none) →
    db.viewAt rank (snapshot.getD db.lastSequence) (rank key) = none
  exact : ∀ value, db.viewAt rank (snapshot.getD db.lastSequence) (rank key) = some value →
    LevelDB.value c io snapshot key db = .ok (.ok (some value)) ∨
      ∃ e, LevelDB.value c io snapshot key db = .ok (.error e)

/-- The failure a read meets, if any, is none of a missing file, and its text can be shown. -/
def Thrown (failure : Option Status) : Prop :=
  ∀ code state, failure = some (.error code state) →
    code ≠ .notFound ∧ Encoded (state.takeWhile (· ≠ 0))

/-- A failure never becomes a value; it is thrown unless it counts as a missing key. -/
theorem LevelDB.value_of_failure {snapshot : Option ℕ} {code : Code} {state : Bytes}
    (h : db.get c io snapshot key = .ok (.error (.error code state))) :
    (∀ data, LevelDB.value c io snapshot key db ≠ .ok (.ok (some data))) ∧
      ((∃ e, LevelDB.value c io snapshot key db = .ok (.error e)) ↔
        code ≠ .notFound ∧ Encoded (state.takeWhile (· ≠ 0))) := by
  rw [← createFromLevelDBStatus_error code, value, DVECLevelDB.dataForKey, sliceForData,
    Option.getD_some, h, Stops.ok_bind]
  simp only
  cases hcreate : createFromLevelDBStatus (.error code state) with
  | error t => simp
  | ok e =>
    obtain ⟨description, rfl⟩ := createFromLevelDBStatus_code hcreate
    simp only [Stops.ok_bind]
    by_cases hcode : code = .notFound
    · simp [hcode, errorCode, pure, Except.pure]
    · simp [hcode, errorCode_eq_notFound, pure, Except.pure]

theorem LevelDB.value_of_answer {snapshot : Option ℕ} {contents : Option Bytes}
    (h : db.get c io snapshot key = .ok (DB.readAnswer contents)) :
    LevelDB.value c io snapshot key db = .ok (.ok contents) := by
  rw [value, DVECLevelDB.dataForKey, sliceForData, Option.getD_some, h, Stops.ok_bind]
  cases contents with
  | some value => rfl
  | none =>
    simp only [DB.readAnswer, createFromLevelDBStatus_notFound, Stops.ok_bind]
    rfl

theorem nilMeansAbsent_of_none {snapshot : Option ℕ}
    (hview : db.viewAt rank (snapshot.getD db.lastSequence) (rank key) = none) :
    NilMeansAbsent c rank io snapshot key db := by
  refine ⟨fun _ => hview, ?_⟩
  intro value hvalue
  rw [hview] at hvalue
  contradiction

theorem nilMeansAbsent_iff_thrown (ho : c.OrdersOn D rank) (h : db.Layered D rank)
    {snapshot : Option ℕ} (hs : snapshot.getD db.lastSequence = s)
    (hsr : DB.Searchable c D rank db key s) {value : Bytes}
    (hview : db.viewAt rank s (rank key) = some value) :
    NilMeansAbsent c rank io snapshot key db ↔ Thrown (db.readFailure rank io key s) := by
  have hget := DB.get_readFailure io ho h hs hsr
  rw [hview] at hget
  cases hfail : db.readFailure rank io key s with
  | none =>
    rw [hfail] at hget
    have hvalue := LevelDB.value_of_answer hget
    refine iff_of_true ⟨?_, ?_⟩ (by simp [Thrown])
    · rw [hvalue]
      nofun
    · intro value' hvalue'
      rw [hs, hview] at hvalue'
      exact Or.inl (hvalue' ▸ hvalue)
  | some fault =>
    rw [hfail] at hget
    cases fault with
    | ok => exact absurd (DB.readFailure_not_ok hfail) (by simp)
    | error code state =>
      obtain ⟨hnever, hthrows⟩ := LevelDB.value_of_failure hget
      have hthrown : Thrown (some (.error code state)) ↔
          code ≠ .notFound ∧ Encoded (state.takeWhile (· ≠ 0)) := by
        simp [Thrown]
      rw [hthrown, ← hthrows]
      constructor
      · intro hp
        exact (hp.exact value (hs ▸ hview)).resolve_left (hnever value)
      · rintro ⟨e, he⟩
        refine ⟨?_, fun value' _ => Or.inr ⟨e, he⟩⟩
        rw [he]
        nofun

/-- `nil` stands for an absent key unless a live entry is behind a table file that is missing, or
behind one whose failure has no text. -/
theorem nil_means_absent_iff (c : LawfulComparator κ) (h : db.WellFormed (fun _ => True) c.rank)
    (io : FileAccess) {snapshot : Option ℕ}
    (hs : snapshot.getD db.lastSequence ≤ kMaxSequenceNumber) :
    NilMeansAbsent c.toComparator c.rank io snapshot key db ↔
      ((db.viewAt c.rank (snapshot.getD db.lastSequence) (c.rank key)).isSome →
        Thrown (db.readFailure c.rank io key (snapshot.getD db.lastSequence))) := by
  cases hview : db.viewAt c.rank (snapshot.getD db.lastSequence) (c.rank key) with
  | none => exact iff_of_true (nilMeansAbsent_of_none hview) (by simp)
  | some value =>
    have hstorable : StorableKey key := by
      by_contra hlong
      have hmiss := MemTable.lookup_of_not_storable (s := snapshot.getD db.lastSequence)
        c.rank_injective h.layered.valid hlong
      rw [DB.viewAt, Schema.read, hmiss] at hview
      contradiction
    have hsr : DB.Searchable c.toComparator (fun _ => True) c.rank db key
        (snapshot.getD db.lastSequence) :=
      .of_injective c.orders c.rank_injective (fun _ => trivial) hstorable.readable hs
    simpa using nilMeansAbsent_iff_thrown c.orders h.layered rfl hsr hview

end Reads

section Missing

open DB Process

/-- A memtable is full when it is not empty. -/
def flushing : Options :=
  { Options.unlimited bytewiseComparator with memTableFull := fun mem => !mem.entries.isEmpty }

def flushedWrites : List Call :=
  let switch : RoomEvent := ⟨[.quiet], .ok⟩
  [.setValue [1] [7] Process.default .quiet,
    .setValue [2] [8] Process.default ⟨[switch], .ok, .ok⟩,
    .setValue [3] [9] Process.default ⟨[switch, switch], .ok, .ok⟩]

def FileAccess.missing : FileAccess :=
  { FileAccess.healthy with
    cached := fun _ => false
    openTableFile := fun _ => some ENOENT
    openSSTTableFile := fun _ => some ENOENT }

theorem flushedWrites_within : Process.Within [] 0 flushedWrites := by
  simp [flushedWrites, Process.Within, Call.Fits, Call.sequences, Call.denote, kMaxSequenceNumber]

theorem nil_means_absent_run :
    ∃ trace w, run flushing (fun _ => .healthy) flushedWrites start = .ok (trace, w) ∧
      (NilMeansAbsent bytewiseComparator bytewise.rank .missing none [7] w.batches.db ↔
        ((w.batches.db.viewAt bytewise.rank w.batches.db.lastSequence (bytewise.rank [7])).isSome →
          Thrown (w.batches.db.readFailure bytewise.rank .missing [7]
            w.batches.db.lastSequence))) := by
  have hok : (run flushing (fun _ => .healthy) flushedWrites start).isOk = true := by
    decide +kernel
  cases hrun : run flushing (fun _ => .healthy) flushedWrites start with
  | error t =>
    rw [hrun] at hok
    contradiction
  | ok r =>
    obtain ⟨trace, w⟩ := r
    refine ⟨trace, w, rfl, ?_⟩
    have ho : flushing.comparator.OrdersOn (fun _ => True) bytewise.rank := bytewise.orders
    have hp : ∀ p ∈ flushing.filterPolicy, p.Lawful := fun _ hp => by cases hp
    have hwhole : RunKeepsKeysWhole bytewise.rank flushing (fun _ => .healthy) flushedWrites start :=
      runKeepsKeysWhole ho hp (fun _ => trivial) start_tracks rfl flushedWrites_within (by decide)
    have ht : Tracks (fun _ => True) bytewise.rank w (trace.foldl History.extend .empty) :=
      (run_tracks ho hp (fun _ => trivial) start_tracks flushedWrites_within hwhole).elim hrun
    have hw := ht.arranged.wellFormed
    exact nil_means_absent_iff bytewise hw .missing hw.last_le

/-- The key has a value in the table of the first memtable; the file is gone, and `nil` is read. -/
theorem nil_for_live_entry :
    (do
      let (_, w) ← run flushing (fun _ => .healthy) flushedWrites start
      let value ← LevelDB.value bytewiseComparator .missing none [7] w.batches.db
      return (w.batches.db.view bytewise.rank (bytewise.rank [7]), value)) =
        (.ok (some [1], .ok none) : Exec _) := by
  decide +kernel

end Missing

end DVELevelDB
