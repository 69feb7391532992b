import DVELevelDB.AcceptedKeys
import DVELevelDB.Manifests

/-! # Replaying the logs

The batches of a log carry consecutive sequence numbers, so they can be replayed; what was in a
memtable becomes a table that is newer than all others.
-/

namespace DVELevelDB

open VersionStore
open Stops (Ensures)

/-- The batches of a log have sequence numbers after `m` and up to `n`, in order. -/
inductive Logged (D : Bytes → Prop) : ℕ → List Bytes → ℕ → Prop where
  | nil {m n : ℕ} : m ≤ n → Logged D m [] n
  | cons {m n s : ℕ} {b : WriteBatch} {ops : List Record} {records : List Bytes} :
      m ≤ s → b.Denotes ops → ops.length < 2 ^ 31 → (∀ r ∈ ops, D r.key ∧ StorableKey r.key) →
      b.sequence = s + 1 → Logged D (s + ops.length) records n → Logged D m (b.rep :: records) n

namespace Logged

variable {D : Bytes → Prop} {m n k : ℕ} {records more : List Bytes}

theorem le (h : Logged D m records n) : m ≤ n := by
  induction h with
  | nil hmn => exact hmn
  | cons hs _ _ _ _ _ ih => omega

theorem weaken (h : Logged D m records n) (hm : k ≤ m) : Logged D k records n := by
  cases h with
  | nil hmn => exact .nil (hm.trans hmn)
  | cons hs hb hlen hops hseq hrest => exact .cons (hm.trans hs) hb hlen hops hseq hrest

theorem extend (h : Logged D m records n) (hn : n ≤ k) : Logged D m records k := by
  induction h with
  | nil hmn => exact .nil (hmn.trans hn)
  | cons hs hb hlen hops hseq _ ih => exact .cons hs hb hlen hops hseq (ih hn)

theorem append (h : Logged D m records k) (h' : Logged D k more n) :
    Logged D m (records ++ more) n := by
  induction h with
  | nil hmk => exact h'.weaken hmk
  | cons hs hb hlen hops hseq _ ih => exact .cons hs hb hlen hops hseq (ih h')

theorem split (h : Logged D m (records ++ more) n) :
    ∃ k, Logged D m records k ∧ Logged D k more n := by
  induction records generalizing m with
  | nil => exact ⟨m, .nil le_rfl, h⟩
  | cons record records ih =>
    cases h with
    | cons hs hb hlen hops hseq hrest =>
      obtain ⟨k, h₁, h₂⟩ := ih hrest
      exact ⟨k, .cons hs hb hlen hops hseq h₁, h₂⟩

theorem restrict {D' : Bytes → Prop} (h : Logged D m records n)
    (hD : ∀ record ∈ records, RecordIn D' record) : Logged D' m records n := by
  induction h with
  | nil hmn => exact .nil hmn
  | @cons m n s b ops records hs hb hlen hops hseq _ ih =>
    refine .cons hs hb hlen (fun r hr => ⟨?_, (hops r hr).2⟩) hseq
      (ih fun record hrecord => hD record (List.mem_cons_of_mem _ hrecord))
    have hkey := hD b.rep List.mem_cons_self
    rw [RecordIn, ← WriteBatch.records, hb.records_eq] at hkey
    exact hkey r hr

end Logged

/-- All logs and all their records can be read. -/
def OpenEvents.Reads (io : OpenEvents) : Prop :=
  (∀ number, (io.newSequentialFile number).isOk = true) ∧
    ∀ number i, (io.readRecord number i).isOk = true

def level0Edit (fs : List FileMetaData) : VersionEdit where
  newFiles := fs.map fun f => (0, f)

namespace Recovery

variable {κ : Type*} [LinearOrder κ] {D : Bytes → Prop} {rank : Bytes → κ} {o : Options}
  {options : OpenOptions} {io : OpenEvents} {lo m used t n n' : ℕ} {fs : List FileMetaData}
  {mem : MemTable} {st : Recovering} {r : Replay}

/-- A memtable with entries after `t` and up to `n`. -/
structure Between (D : Bytes → Prop) (rank : Bytes → κ) (t n : ℕ) (mem : MemTable) : Prop where
  sorted : Sorted D rank mem.entries
  after : ∀ e ∈ mem.entries, t < e.key.sequence
  upTo : ∀ e ∈ mem.entries, e.key.sequence ≤ n

def Successive (fs : List FileMetaData) : Prop :=
  fs.Pairwise fun f g => f.number < g.number ∧
    ∀ e ∈ f.entries, ∀ e' ∈ g.entries, e.key.sequence < e'.key.sequence

/-- The logs have been replayed up to `n`. What is in tables goes from `m` to `t`, and the tables
have numbers from `lo` on; those below `used` may be in use. -/
structure Recovering.Holds (D : Bytes → Prop) (rank : Bytes → κ)
    (options : OpenOptions) (io : OpenEvents) (lo m used t n : ℕ) (fs : List FileMetaData)
    (st : Recovering) : Prop where
  edit : st.edit = level0Edit fs
  wellFormed : ∀ f ∈ fs, f.WellFormed D rank
  successive : Successive fs
  number : ∀ f ∈ fs, lo ≤ f.number ∧ f.number < st.nextFileNumber
  sequence : ∀ f ∈ fs, ∀ e ∈ f.entries, m < e.key.sequence ∧ e.key.sequence ≤ min t st.maxSequence
  next_le : lo ≤ used ∧ used ≤ st.nextFileNumber
  le : m ≤ t ∧ t ≤ n
  max_le : st.maxSequence ≤ n
  complete : io.Reads → n ≤ max m st.maxSequence
  saved : options.reuseLogs = false → st.saveManifest = true

/-- The same, in the middle of a log that begins after `k`. -/
structure Replay.Holds (D : Bytes → Prop) (rank : Bytes → κ)
    (options : OpenOptions) (io : OpenEvents) (lo m used k t n : ℕ) (fs : List FileMetaData)
    (r : Replay) : Prop where
  recovering : r.recovering.Holds D rank options io lo m used t n fs
  mem : ∀ mem ∈ r.mem, Between D rank t (min n r.recovering.maxSequence) mem
  start : r.compactions = 0 → t ≤ k

theorem Recovering.Holds.reach (h : st.Holds D rank options io lo m used t n fs) (hn : n ≤ n')
    (hcomplete : io.Reads → n' ≤ max m st.maxSequence) :
    st.Holds D rank options io lo m used t n' fs :=
  ⟨h.edit, h.wellFormed, h.successive, h.number, h.sequence, h.next_le,
    ⟨h.le.1, h.le.2.trans hn⟩, h.max_le.trans hn, hcomplete, h.saved⟩

section Tables

variable (ho : o.comparator.OrdersOn D rank) (hp : ∀ p ∈ o.filterPolicy, p.Lawful)

include ho hp

/-- What is in the memtable comes after all tables, so its table is the newest. -/
theorem writeLevel0Table_spec (h : st.Holds D rank options io lo m used t n fs)
    (hmem : Between D rank t (min n st.maxSequence) mem) :
    Ensures (fun _ => False) (writeLevel0Table o io mem st) fun r =>
      r.2.kept = st.kept ∧ ∃ fs', r.2.Holds D rank options io lo m used n n fs' := by
  obtain ⟨hedit, hw, hs, hnumber, hseq, hnext, hle, hmax, hcomplete, -⟩ := h
  have hold : ∀ f ∈ fs, ∀ e ∈ f.entries,
      m < e.key.sequence ∧ e.key.sequence ≤ min n st.maxSequence := by
    intro f hf e he
    have := hseq f hf e he
    omega
  have hkept : ({ st with nextFileNumber := st.nextFileNumber + 1, saveManifest := true } :
      Recovering).Holds D rank options io lo m used n n fs := by
    refine ⟨hedit, hw, hs, ?_, hold, ?_, ⟨hle.1.trans hle.2, le_rfl⟩, hmax, hcomplete,
      fun _ => rfl⟩
    · intro f hf
      have := hnumber f hf
      dsimp only
      omega
    · dsimp only
      omega
  unfold writeLevel0Table
  cases hl : mem.entries with
  | nil => exact ⟨rfl, fs, hkept⟩
  | cons first rest =>
    have hsorted := hmem.sorted
    rw [hl] at hsorted
    obtain ⟨f, hf, hfw, hfe, hfn⟩ := buildTable_eq ho hp st.nextFileNumber hsorted
    simp only [hf, Stops.ok_bind]
    split_ifs
    · refine ⟨rfl, fs ++ [f], ?_⟩
      have hfmem : ∀ e ∈ f.entries, e ∈ mem.entries := by
        intro e he
        rwa [hl, ← hfe]
      have hmin : ∀ g ∈ fs ++ [f], g ∈ fs ∨ g = f := by simp
      refine ⟨?_, ?_, ?_, ?_, ?_, hkept.next_le, hkept.le, hmax, hcomplete,
        fun _ => rfl⟩
      · simp [hedit, level0Edit]
      · intro g hg
        rcases hmin g hg with hg | rfl
        · exact hw g hg
        · exact hfw
      · refine List.pairwise_append.mpr ⟨hs, List.pairwise_singleton _ _, ?_⟩
        intro g hg g' hg'
        obtain rfl := List.mem_singleton.mp hg'
        refine ⟨hfn ▸ (hnumber g hg).2, fun e he e' he' => ?_⟩
        have h₁ := hseq g hg e he
        have h₂ := hmem.after e' (hfmem e' he')
        omega
      · intro g hg
        rcases hmin g hg with hg | rfl
        · exact hkept.number g hg
        · rw [hfn]
          exact ⟨hnext.1.trans hnext.2, Nat.lt_succ_self _⟩
      · intro g hg e he
        rcases hmin g hg with hg | rfl
        · exact hold g hg e he
        · have h₁ := hmem.after e (hfmem e he)
          have h₂ := hmem.upTo e (hfmem e he)
          dsimp only
          omega
    · exact ⟨rfl, fs, hkept⟩

/-- A log has been replayed up to `n`; no log is in use again. -/
def Replaying (D : Bytes → Prop) (rank : Bytes → κ) (options : OpenOptions) (io : OpenEvents)
    (lo m used k n : ℕ) (r : Replay) : Prop :=
  r.recovering.kept = none ∧ ∃ t fs, r.Holds D rank options io lo m used k t n fs

theorem flushIfFull_spec {k : ℕ} (h : r.recovering.Holds D rank options io lo m used t n fs)
    (hkept : r.recovering.kept = none) (hstart : r.compactions = 0 → t ≤ k)
    (hmem : Between D rank t (min n r.recovering.maxSequence) mem) :
    Ensures (fun _ => False) (flushIfFull o io mem r)
      fun r' => Replaying D rank options io lo m used k n r'.2 := by
  rw [flushIfFull]
  split_ifs
  · refine (writeLevel0Table_spec ho hp h hmem).bind fun r' hr' => ?_
    obtain ⟨hkept', fs', hholds⟩ := hr'
    refine ⟨hkept'.trans hkept, n, fs', hholds, ?_, ?_⟩
    · rintro mem ⟨⟩
    · intro hzero
      exact absurd hzero (Nat.succ_ne_zero _)
  · refine ⟨hkept, t, fs, h, ?_, hstart⟩
    rintro mem' ⟨⟩
    exact hmem

omit [LinearOrder κ] ho hp in
theorem lastSequenceOf_eq {b : WriteBatch} {ops : List Record} {s : ℕ} (hb : b.Denotes ops)
    (hlen : ops.length < 2 ^ 31) (hseq : b.sequence = s + 1)
    (hmax : s + ops.length ≤ kMaxSequenceNumber) : lastSequenceOf b = s + ops.length := by
  rw [kMaxSequenceNumber_eq] at hmax
  rw [lastSequenceOf, hb.count_eq hlen, hseq]
  push_cast
  omega

theorem replayRecord_spec {k s : ℕ} {b : WriteBatch} {ops : List Record}
    (h : Replaying D rank options io lo m used k n r) (hs : n ≤ s) (hb : b.Denotes ops)
    (hlen : ops.length < 2 ^ 31) (hops : ∀ r ∈ ops, D r.key ∧ StorableKey r.key)
    (hseq : b.sequence = s + 1) (hmax : s + ops.length ≤ kMaxSequenceNumber) :
    Ensures (fun _ => False) (replayRecord o options io b.rep r)
      fun r' => Replaying D rank options io lo m used k (s + ops.length) r'.2 := by
  obtain ⟨hkept, t, fs, hrec, hmem, hstart⟩ := h
  have hbetween : Between D rank t (min n r.recovering.maxSequence) (r.mem.getD .empty) := by
    cases hm : r.mem with
    | none => exact ⟨Sorted.nil, fun e he => absurd he List.not_mem_nil,
        fun e he => absurd he List.not_mem_nil⟩
    | some mem => exact hmem mem hm
  have hfits := hb.fits
  obtain ⟨mem, es, hfold, hsorted, hperm, hst⟩ := MemTable.insertRecords (n := s) ho hbetween.sorted
    (fun r hr => ⟨(hops r hr).1, (hops r hr).2, hfits r hr⟩) hmax
    fun e he => by have := hbetween.upTo e he; omega
  have hset : WriteBatch.setContents b.rep = .ok b := by
    rw [WriteBatch.setContents, dif_pos b.header]
    rfl
  have hinsert : b.insertInto o.comparator (r.mem.getD .empty) = .ok (.ok, mem) := by
    rw [MemTable.insertInto_eq_fold, hb.records_eq, hseq, hfold, hb.parseStatus_ok hlen]
    rfl
  have hok : maybeIgnoreError options .ok = .ok := rfl
  rw [replayRecord, if_neg (not_lt.mpr b.header), hset, Stops.ok_bind, hinsert, Stops.ok_bind]
  simp only [hok, Status.isOk_ok, if_true, lastSequenceOf_eq hb hlen hseq hmax]
  refine flushIfFull_spec ho hp (t := t) (?_ : Recovering.Holds D rank _ _ _ _ _ _ _ fs _) hkept
    hstart ?_
  · refine ⟨hrec.edit, hrec.wellFormed, hrec.successive, hrec.number, ?_, hrec.next_le,
      ⟨hrec.le.1, hrec.le.2.trans (hs.trans (Nat.le_add_right _ _))⟩, ?_, ?_, hrec.saved⟩
    · intro f hf e he
      have := hrec.sequence f hf e he
      dsimp only
      omega
    · have := hrec.max_le
      dsimp only
      omega
    · intro _
      dsimp only
      omega
  · have hle := hrec.le
    refine ⟨hsorted, fun e he => ?_, fun e he => ?_⟩ <;>
      rcases List.mem_append.mp (hperm.mem_iff.mp he) with he | he
    · have := (hst.bounds e he).1
      simp only [schema_seq] at this
      omega
    · exact hbetween.after e he
    · have hlt := (hst.bounds e he).2
      simp only [schema_seq, List.length_map] at hlt
      dsimp only
      omega
    · have := hbetween.upTo e he
      dsimp only
      omega

theorem replayUndamaged_spec {k s number i : ℕ} {b : WriteBatch} {ops : List Record}
    (h : Replaying D rank options io lo m used k n r) (hs : n ≤ s) (hb : b.Denotes ops)
    (hlen : ops.length < 2 ^ 31) (hops : ∀ r ∈ ops, D r.key ∧ StorableKey r.key)
    (hseq : b.sequence = s + 1) (hmax : s + ops.length ≤ kMaxSequenceNumber) :
    Ensures (fun _ => False) (replayUndamaged o options io (io.readRecord number i) b.rep r)
      fun r' => Replaying D rank options io lo m used k (s + ops.length) r'.2 := by
  rw [replayUndamaged]
  by_cases hread : (io.readRecord number i).isOk
  · rw [if_pos hread]
    exact replayRecord_spec ho hp h hs hb hlen hops hseq hmax
  · rw [if_neg hread]
    obtain ⟨hkept, t, fs, hrec, hmem, hstart⟩ := h
    have hle : n ≤ s + ops.length := hs.trans (Nat.le_add_right _ _)
    refine ⟨hkept, t, fs, hrec.reach hle fun hreads => absurd (hreads.2 number i) hread, ?_, hstart⟩
    intro mem hm
    have hb := hmem mem hm
    refine ⟨hb.sorted, hb.after, fun e he => ?_⟩
    have := hb.upTo e he
    dsimp only
    omega

theorem replayRecords_spec {k : ℕ} (number i : ℕ) {records : List Bytes}
    (h : Replaying D rank options io lo m used k n r) (hl : Logged D n records n')
    (hmax : n' ≤ kMaxSequenceNumber) :
    Ensures (fun _ => False) (replayRecords o options io number i records r)
      fun r' => r'.1.isOk = true →
        ∃ n'' ≤ n', Logged D n records n'' ∧ Replaying D rank options io lo m used k n'' r'.2 := by
  induction records generalizing i n r with
  | nil => exact fun _ => ⟨n, hl.le, .nil le_rfl, h⟩
  | cons record records ih =>
    cases hl with
    | cons hs hb hlen hops hseq hrest =>
      rw [replayRecords]
      refine (replayUndamaged_spec ho hp h hs hb hlen hops hseq (hrest.le.trans hmax)).bind ?_
      rintro ⟨status, r₁⟩ h₁
      dsimp only at h₁ ⊢
      split_ifs with hok
      · refine (ih (i + 1) h₁ hrest).mono fun r' hr' hok' => ?_
        obtain ⟨n'', hle, hlogged, hreplaying⟩ := hr' hok'
        exact ⟨n'', hle, .cons hs hb hlen hops hseq hlogged, hreplaying⟩
      · exact fun hok' => absurd hok' hok

/-- The logs have been replayed up to `n`; the last of them may be in use again. -/
def Recovered (D : Bytes → Prop) (rank : Bytes → κ) (options : OpenOptions) (io : OpenEvents)
    (lo m used n : ℕ) (last : Option LogFile) (st : Recovering) : Prop :=
  ∃ t fs, st.Holds D rank options io lo m used t n fs ∧ ∀ mem ∈ st.kept,
    options.reuseLogs = true ∧ Between D rank t (min n st.maxSequence) mem ∧
      ∃ log ∈ last, Logged D t log.records n

theorem finishLog_spec {k : ℕ} (lastLog : Bool) {log : LogFile} {status : Status}
    (hok : status.isOk = true) (h : Replaying D rank options io lo m used k n r)
    (hl : Logged D k log.records n) :
    Ensures (fun _ => False) (finishLog o options io lastLog status r) fun r' =>
      Recovered D rank options io lo m used n (some log) r'.2 ∧
        (lastLog = false → r'.2.kept = none) := by
  obtain ⟨hkept, t, fs, hrec, hmem, hstart⟩ := h
  have hnone : ∀ {st : Recovering} {t : ℕ} {fs : List FileMetaData}, st.kept = none →
      st.Holds D rank options io lo m used t n fs →
      Recovered D rank options io lo m used n (some log) st ∧
        (lastLog = false → st.kept = none) := by
    intro st t fs hkept hholds
    refine ⟨⟨t, fs, hholds, fun mem hm => ?_⟩, fun _ => hkept⟩
    rw [hkept] at hm
    cases hm
  rw [finishLog]
  by_cases hreuse : (status.isOk && options.reuseLogs && lastLog && r.compactions = 0 &&
      io.reuseLog) = true
  · rw [if_pos hreuse]
    simp only [Bool.and_eq_true, decide_eq_true_eq] at hreuse
    obtain ⟨⟨⟨⟨-, hlogs⟩, hlast⟩, hzero⟩, -⟩ := hreuse
    refine ⟨⟨t, fs, ⟨hrec.edit, hrec.wellFormed, hrec.successive, hrec.number, hrec.sequence,
      hrec.next_le, hrec.le, hrec.max_le, hrec.complete, hrec.saved⟩, ?_⟩, fun h => ?_⟩
    · rintro mem ⟨⟩
      refine ⟨hlogs, ?_, log, rfl, hl.weaken (hstart hzero)⟩
      cases hm : r.mem with
      | none => exact ⟨Sorted.nil, fun e he => absurd he List.not_mem_nil,
          fun e he => absurd he List.not_mem_nil⟩
      | some mem => exact hmem mem hm
    · rw [hlast] at h
      cases h
  · rw [if_neg hreuse]
    cases hm : r.mem with
    | none => exact hnone hkept hrec
    | some mem =>
      simp only [hok, if_true]
      refine (writeLevel0Table_spec ho hp hrec (hmem mem hm)).mono fun r' hr' => ?_
      obtain ⟨hkept', fs', hholds⟩ := hr'
      exact hnone (hkept'.trans hkept) hholds

theorem recoverLogFile_spec {log : LogFile} (lastLog : Bool)
    (h : st.Holds D rank options io lo m used t n fs) (hkept : st.kept = none)
    (hl : Logged D n log.records n') (hmax : n' ≤ kMaxSequenceNumber) :
    Ensures (fun _ => False) (recoverLogFile o options io log lastLog st) fun r =>
      r.1.isOk = true → ∃ n'' ≤ n', Logged D n log.records n'' ∧
        Recovered D rank options io lo m used n'' (some log) r.2 ∧
          (lastLog = false → r.2.kept = none) := by
  rw [recoverLogFile]
  by_cases hfile : (io.newSequentialFile log.number).isOk
  · rw [if_pos hfile]
    have hstart : Replaying D rank options io lo m used n n ⟨st, none, 0⟩ := by
      refine ⟨hkept, t, fs, h, ?_, fun _ => h.le.2⟩
      rintro mem ⟨⟩
    refine (replayRecords_spec ho hp log.number 0 hstart hl hmax).bind ?_
    rintro ⟨status, r⟩ hr
    dsimp only at hr ⊢
    by_cases hok : status.isOk = true
    · obtain ⟨n'', hle, hlogged, hreplaying⟩ := hr hok
      refine (finishLog_spec ho hp lastLog hok hreplaying hlogged).mono fun r' hr' _ => ?_
      exact ⟨n'', hle, hlogged, hr'⟩
    · have hfailed : finishLog o options io lastLog status r = .ok (status, r.recovering) := by
        have hfalse : status.isOk = false := by simpa using hok
        rw [finishLog]
        simp only [hfalse, Bool.false_and, Bool.false_eq_true, if_false]
        cases r.mem <;> rfl
      rw [hfailed]
      exact fun hok' => absurd hok' hok
  · rw [if_neg hfile]
    intro _
    obtain ⟨hedit, hw, hs, hnumber, hseq, hnext, hle, hmax', -, hsaved⟩ := h
    refine ⟨n', le_rfl, hl, ⟨t, fs, ⟨hedit, hw, hs, hnumber, hseq, hnext,
      ⟨hle.1, hle.2.trans hl.le⟩, hmax'.trans hl.le, ?_, hsaved⟩, fun mem hm => ?_⟩, fun _ => hkept⟩
    · exact fun hreads => absurd (hreads.1 log.number) hfile
    · rw [hkept] at hm
      cases hm

theorem recoverLogFiles_spec {logs : List LogFile} (h : st.Holds D rank options io lo m used t n fs)
    (hkept : st.kept = none) (hl : Logged D n (logs.flatMap (·.records)) n')
    (hmax : n' ≤ kMaxSequenceNumber) :
    Ensures (fun _ => False) (recoverLogFiles o options io logs st) fun r =>
      r.1.isOk = true → ∃ n'' ≤ n', Logged D n (logs.flatMap (·.records)) n'' ∧
        Recovered D rank options io lo m used n'' logs.getLast? r.2 ∧
        ∀ log ∈ logs, log.number < r.2.nextFileNumber := by
  induction logs generalizing n t fs used st with
  | nil =>
    refine fun _ => ⟨n, hl.le, .nil le_rfl, ⟨t, fs, h, fun mem hm => ?_⟩, by simp⟩
    rw [hkept] at hm
    cases hm
  | cons log logs ih =>
    rw [List.flatMap_cons] at hl
    obtain ⟨k, hlog, hlogs⟩ := hl.split
    rw [recoverLogFiles]
    refine (recoverLogFile_spec ho hp logs.isEmpty h hkept hlog (hlogs.le.trans hmax)).bind ?_
    rintro ⟨status, st₁⟩ hr
    dsimp only at hr ⊢
    split_ifs with hok
    · obtain ⟨k', hk', hlogged, ⟨t₁, fs₁, hholds, hkept₁⟩, hnone⟩ := hr hok
      -- `MarkFileNumberUsed`
      have hmarked : Recovering.Holds D rank options io lo m (max used (log.number + 1)) t₁ k' fs₁
          { st₁ with nextFileNumber := max st₁.nextFileNumber (log.number + 1) } := by
        have hnext := hholds.next_le
        refine ⟨hholds.edit, hholds.wellFormed, hholds.successive, ?_, hholds.sequence, ?_,
          hholds.le, hholds.max_le, hholds.complete, hholds.saved⟩
        · intro f hf
          have := hholds.number f hf
          dsimp only
          omega
        · dsimp only
          omega
      cases logs with
      | nil =>
        rw [recoverLogFiles]
        refine fun _ => ⟨k', hk'.trans hlogs.le, by simpa using hlogged, ?_, ?_⟩
        · refine ⟨t₁, fs₁, ?_, hkept₁⟩
          have hnext := hmarked.next_le
          have hused := h.next_le
          refine ⟨hmarked.edit, hmarked.wellFormed, hmarked.successive, hmarked.number,
            hmarked.sequence, ?_, hmarked.le, hmarked.max_le, hmarked.complete,
            hmarked.saved⟩
          dsimp only at hnext ⊢
          omega
        · intro log' hlog'
          obtain rfl := List.mem_singleton.mp hlog'
          dsimp only
          omega
      | cons log₂ logs =>
        refine (ih hmarked (hnone rfl) (hlogs.weaken hk')).mono fun r hr hok' => ?_
        obtain ⟨n'', hle, hall, hrecovered, hnumbers⟩ := hr hok'
        refine ⟨n'', hle, by rw [List.flatMap_cons]; exact hlogged.append hall, ?_, ?_⟩
        · rw [List.getLast?_cons_cons]
          obtain ⟨t₂, fs₂, hholds₂, hkept₂⟩ := hrecovered
          have hnext := hholds₂.next_le
          have hused := h.next_le
          exact ⟨t₂, fs₂, ⟨hholds₂.edit, hholds₂.wellFormed, hholds₂.successive, hholds₂.number,
            hholds₂.sequence, by omega, hholds₂.le, hholds₂.max_le, hholds₂.complete,
            hholds₂.saved⟩, hkept₂⟩
        · intro log' hlog'
          rcases List.mem_cons.mp hlog' with rfl | hlog'
          · obtain ⟨t₂, fs₂, hholds₂, -⟩ := hrecovered
            have hnext := hholds₂.next_le
            omega
          · exact hnumbers log' hlog'
    · exact fun hok' => absurd hok' hok

end Tables

end Recovery

end DVELevelDB
