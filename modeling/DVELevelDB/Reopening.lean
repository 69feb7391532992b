import DVELevelDB.Restorable

/-! # Opening a directory again

A directory that a database has left can be opened under any comparator that orders its keys as
the one before. If opening fails, the directory has the same entries as before.
-/

namespace DVELevelDB

open VersionStore EditLog
open Stops (Ensures)

variable {κ : Type*} [LinearOrder κ] {c : Comparator} {D : Bytes → Prop} {rank : Bytes → κ}
  {v v' : Version} {fs files : List FileMetaData}

section Level0

theorem saveLevel_zero (ho : c.OrdersOn D rank) (deleted : List ℕ) {base added : List FileMetaData}
    (hw : ∀ g ∈ files ++ base ++ added, g.WellFormed D rank) :
    ∃ out, saveLevel c 0 deleted files base added = .ok out := by
  have hzero : ∀ files more : List FileMetaData, (∀ g ∈ files ++ more, g.WellFormed D rank) →
      more.foldlM (maybeAddFile c 0 deleted) files =
        .ok (files ++ more.filter fun g => g.number ∉ deleted) := fun files more hfiles =>
    foldlM_maybeAddFile_deleted 0 deleted files more ho hfiles fun h => absurd h (lt_irrefl 0)
  induction added generalizing files base with
  | nil =>
    rw [List.append_nil] at hw
    exact ⟨_, hzero files base hw⟩
  | cons f added ih =>
    have hf : f.WellFormed D rank := hw f (by simp)
    have htest : ∀ g ∈ base, ∃ b, (do return !(← bySmallestKey c f g) : Exec Bool) = .ok b := by
      intro g hg
      rw [bySmallestKey_smaller ho hf (hw g (by simp [hg]))]
      exact ⟨_, rfl⟩
    obtain ⟨rest, hsearch, hsuffix⟩ := BinarySearch.search_suffix htest
    have hpassed : ∀ g ∈ files ++ base.take (base.length - rest.length), g.WellFormed D rank := by
      intro g hg
      rcases List.mem_append.mp hg with hg | hg
      · exact hw g (by simp [hg])
      · exact hw g (by simp [List.mem_of_mem_take hg])
    have hkept : ∀ g ∈ files ++ (base.take (base.length - rest.length)).filter
        (fun g => g.number ∉ deleted), g.WellFormed D rank := fun g hg =>
      hpassed g ((List.append_sublist_append_left _).mpr List.filter_sublist |>.subset hg)
    have hone := hzero _ [f] fun g hg => (List.mem_append.mp hg).elim (hkept g)
      fun hg => List.mem_singleton.mp hg ▸ hf
    rw [List.foldlM_cons] at hone
    obtain ⟨files', hadd, hnil⟩ := Stops.bind_eq_ok.mp hone
    obtain rfl := Except.ok.inj hnil
    rw [saveLevel, hsearch, Stops.ok_bind, hzero _ _ hpassed, Stops.ok_bind, hadd, Stops.ok_bind]
    refine ih fun g hg => ?_
    rw [List.append_assoc, List.append_assoc] at hg
    rcases List.mem_append.mp hg with hg | hg
    · exact hkept g hg
    rcases List.mem_append.mp hg with hg | hg
    · rw [List.mem_singleton.mp (List.mem_of_mem_filter hg)]
      exact hf
    rcases List.mem_append.mp hg with hg | hg
    · exact hw g (by simp [hsuffix.subset hg])
    · exact hw g (by simp [hg])

theorem level0Edit_at (fs : List FileMetaData) :
    (level0Edit fs).at 0 = ⟨[], fs⟩ := by
  simp [VersionEdit.at, level0Edit, List.filter_eq_self.mpr, Function.comp_def]

theorem Recovery.Successive.named (h : Recovery.Successive fs) : Named FileMetaData.number fs := by
  have hnodup : (fs.map (·.number)).Nodup := List.pairwise_map.mpr (h.imp fun hlt => hlt.1.ne)
  exact fun f hf g hg hn => List.inj_on_of_nodup_map hnodup hf hg hn

/-- The newest tables join level 0; the other levels stay as they are. -/
theorem saveTo_level0 (ho : c.OrdersOn D rank) (hv : v.WellFormed D rank)
    (hw : ∀ f ∈ fs, f.WellFormed D rank) (hn : Named FileMetaData.number fs) :
    ∃ v', saveTo c (level0Edit fs) v = .ok v' ∧ (∀ i, i ≠ 0 → v'.files i = v.files i) ∧
      ∃ added, (∀ f, f ∈ added ↔ f ∈ fs) ∧ added.Pairwise (SmallerKey rank) ∧
        (v'.files 0).Perm (v.files 0 ++ added) := by
  have hnew : (level0Edit fs).newFiles.filter (·.1 = 0) = fs.map fun f => (0, f) := by
    simp [level0Edit, List.filter_eq_self]
  obtain ⟨out, hout⟩ : ∃ out, saveLevelTo c (level0Edit fs) v 0 = .ok out := by
    obtain ⟨set, hset, -, hmem⟩ := insertFiles_spec ho
      (fun g hg => (hw g (by simpa using hg)).smallest_mem) List.Pairwise.nil (by simpa using hn)
    obtain ⟨out, hsave⟩ : ∃ out, saveLevel c 0 [] [] (v.files 0) set = .ok out :=
      saveLevel_zero ho [] fun g hg => by
        rcases List.mem_append.mp hg with hg | hg
        · exact hv.file 0 g (by simpa using hg)
        · exact hw g (by simpa using (hmem g).mp hg)
    refine ⟨out, ?_⟩
    rw [saveLevelTo, hnew, List.foldlM_map, hset, Stops.ok_bind]
    simp only [level0Edit, List.filter_nil, List.map_nil]
    rw [hsave]
    rfl
  let levels : ℕ → List FileMetaData := fun i => if i = 0 then out else v.files i
  have hlevels : ∀ i, saveLevelTo c (level0Edit fs) v i = .ok (levels i) := by
    intro i
    by_cases hi : i = 0
    · subst hi
      exact hout
    · simp only [levels, if_neg hi]
      refine saveLevelTo_unchanged ho hv _ ?_ rfl
      simp [level0Edit, List.filter_eq_nil_iff, Ne.symm hi]
  have hat := level0Edit_at fs
  obtain ⟨added, hadded, hpair, hperm⟩ := saveLevelTo_perm ho
    (by rw [hat]; exact fun g hg => (hw g hg).smallest_mem) (by rw [hat]; exact hn) hout
  refine ⟨⟨fun i => ((List.range kNumLevels).map levels).getD i []⟩, ?_, ?_, added, ?_, hpair, ?_⟩
  · rw [saveTo, saveLevels_eq levels _ fun i _ => hlevels i]
    rfl
  · intro i hi
    dsimp only
    rw [getD_levels]
    split_ifs with hl
    · exact if_neg hi
    · exact (hv.levels i hl).symm
  · simpa [hat] using hadded
  · simpa [hat, levels, kNumLevels] using hperm

/-- Tables that are newer than all files of the version. -/
structure NewTables (D : Bytes → Prop) (rank : Bytes → κ) (v : Version) (m : ℕ)
    (fs : List FileMetaData) : Prop where
  wellFormed : ∀ f ∈ fs, f.WellFormed D rank
  successive : Recovery.Successive fs
  number : ∀ f ∈ fs, ∀ i, ∀ g ∈ v.files i, g.number < f.number
  after : ∀ f ∈ fs, ∀ e ∈ f.entries, m < e.key.sequence
  upTo : ∀ e ∈ v.entries, e.key.sequence ≤ m

variable {m : ℕ}

omit [LinearOrder κ] in
theorem Recovery.Successive.above (h : Recovery.Successive fs) {f g : FileMetaData} (hf : f ∈ fs)
    (hg : g ∈ fs) (hlt : g.number < f.number) : (schema rank).Above f.entries g.entries := by
  induction fs with
  | nil => exact absurd hf List.not_mem_nil
  | cons x fs ih =>
    obtain ⟨hx, hrest⟩ := List.pairwise_cons.mp h
    rcases List.mem_cons.mp hf with rfl | hf' <;> rcases List.mem_cons.mp hg with rfl | hg'
    · exact absurd hlt (lt_irrefl _)
    · exact absurd hlt (hx g hg').1.asymm
    · exact fun e he e' he' _ => (hx f hf').2 e' he' e he
    · exact ih hrest hf' hg'

theorem NewTables.saveTo (h : NewTables D rank v m fs) (ho : c.OrdersOn D rank)
    (hv : v.WellFormed D rank) (ht : v.Tidy rank) :
    ∃ v', saveTo c (level0Edit fs) v = .ok v' ∧ v'.WellFormed D rank ∧ v'.Tidy rank ∧
      ∀ i f, f ∈ v'.files i ↔ f ∈ v.files i ∨ i = 0 ∧ f ∈ fs := by
  obtain ⟨v', hsave, hrest, added, hadded, hpair, hperm⟩ :=
    saveTo_level0 ho hv h.wellFormed h.successive.named
  have hfiles : ∀ i f, f ∈ v'.files i ↔ f ∈ v.files i ∨ i = 0 ∧ f ∈ fs := by
    intro i f
    by_cases hi : i = 0
    · subst hi
      rw [hperm.mem_iff, List.mem_append, hadded]
      simp
    · rw [hrest i hi]
      simp [hi]
  have hlevel : ∀ i, i ≠ 0 → v'.levelEntries i = v.levelEntries i := by
    intro i hi
    rw [Version.levelEntries, hrest i hi, Version.levelEntries]
  have hold : ∀ i, ∀ f ∈ v.files i, ∀ e ∈ f.entries, e.key.sequence ≤ m := fun i f hf e he =>
    h.upTo e (hv.mem_entries_of_file hf he)
  refine ⟨v', hsave, ⟨?_, ?_, ?_, ?_, ?_, ?_⟩, ⟨?_, ?_⟩, hfiles⟩
  · intro i f hf
    rcases (hfiles i f).mp hf with hf | ⟨-, hf⟩
    · exact hv.file i f hf
    · exact h.wellFormed f hf
  · intro i hi
    rw [hrest i (by rintro rfl; exact hi (by decide)), hv.levels i hi]
  · intro i hi
    rw [hlevel i hi.ne']
    exact hv.level_sorted i hi
  · rw [hperm.pairwise_iff fun hne => hne.symm]
    refine List.pairwise_append.mpr ⟨hv.number, ?_, ?_⟩
    · refine hpair.imp_of_mem fun {f g} hf hg hfg hn => ?_
      have heq := h.successive.named f ((hadded f).mp hf) g ((hadded g).mp hg) hn
      subst heq
      exact hfg.asymm hfg
    · exact fun f hf g hg => (h.number g ((hadded g).mp hg) 0 f hf).ne
  · intro f hf g hg hlt
    rcases (hfiles 0 f).mp hf with hf | ⟨-, hf⟩ <;> rcases (hfiles 0 g).mp hg with hg | ⟨-, hg⟩
    · exact hv.newer_file f hf g hg hlt
    · exact absurd hlt (h.number g hg 0 f hf).asymm
    · exact fun e he e' he' _ => (hold 0 g hg e' he').trans_lt (h.after f hf e he)
    · exact h.successive.above hf hg hlt
  · intro i j hij a ha b hb
    rw [hlevel j (Nat.ne_of_gt (Nat.zero_lt_of_lt hij))] at hb
    obtain ⟨f, hf, haf⟩ := mem_levelEntries.mp ha
    rcases (hfiles i f).mp hf with hf | ⟨-, hf⟩
    · exact hv.newer_level i j hij a (mem_levelEntries.mpr ⟨f, hf, haf⟩) b hb
    · obtain ⟨g, hg, hbg⟩ := mem_levelEntries.mp hb
      exact fun _ => (hold j g hg b hbg).trans_lt (h.after f hf a haf)
  · intro i hi f hf g hg
    rw [hrest i hi.ne'] at hf hg
    exact ht.apart i hi f hf g hg
  · intro i f hf j g hg hn
    rcases (hfiles i f).mp hf with hf | ⟨hi, hf⟩ <;> rcases (hfiles j g).mp hg with hg | ⟨hj, hg⟩
    · exact ht.number i f hf j g hg hn
    · exact absurd hn (h.number g hg i f hf).ne
    · exact absurd hn (h.number f hf j g hg).ne'
    · exact ⟨hi.trans hj.symm, h.successive.named f hf g hg hn⟩

end Level0

section Directories

/-- The version that the manifest describes goes up to `m`, the logs go on from there to `n`. -/
structure Directory.Replays (D : Bytes → Prop) (rank : Bytes → κ) (v : Version) (m n : ℕ)
    (dir : Directory) : Prop where
  wellFormed : v.WellFormed D rank
  tidy : v.Tidy rank
  describes : Describes D dir.manifest.edits dir.manifest.nextFileNumber v
  upTo : ∀ e ∈ v.entries, e.key.sequence ≤ m
  manifest : m ≤ dir.manifest.lastSequence ∧ dir.manifest.lastSequence ≤ n
  logged : Logged D m (dir.logs.flatMap (·.records)) n
  logs : dir.logs.Pairwise fun log log' => log.number < log'.number
  active : ∀ log ∈ dir.logs, dir.logNumber ≤ log.number
  logNumber_le : dir.logNumber ≤ dir.manifest.nextFileNumber

/-- Another directory with the same entries: it has more logs at most, and they are empty. -/
structure Directory.Kept (dir dir' : Directory) : Prop where
  comparatorName : dir'.comparatorName = dir.comparatorName
  manifest : dir'.manifest = dir.manifest
  logNumber : dir'.logNumber = dir.logNumber
  logs : ∃ more, dir'.logs = dir.logs ++ more ∧ ∀ log ∈ more, log.records = []

theorem Directory.Kept.refl (dir : Directory) : dir.Kept dir :=
  ⟨rfl, rfl, rfl, [], by simp, by simp⟩

variable {dir : Directory} {db : DB} {m n n' : ℕ}

theorem DB.Restorable.replays (h : db.Restorable D rank n) (c : Comparator) {m₁ : ℕ}
    (hs : db.Sequences D m m₁) : (db.directory c).Replays D rank db.version m n := by
  have hr := h.recorded
  refine ⟨h.settled.wellFormed.layered.version, h.settled.tidy, hr.describes, hs.version,
    ⟨hs.manifest.1, hs.manifest.2.trans h.last_le⟩, ?_, hr.logs, hr.active, hr.logNumber_le⟩
  simp only [DB.directory, List.flatMap_append, List.flatMap_cons, List.flatMap_nil,
    List.append_nil]
  exact hs.oldLogs.append (hs.log.extend h.last_le)

theorem DB.Restorable.directory (h : db.Restorable D rank n) (c : Comparator) :
    ∃ v m, (db.directory c).Replays D rank v m n := by
  obtain ⟨m, m₁, hs⟩ := h.recorded.sequences
  exact ⟨db.version, m, h.replays c hs⟩

theorem Directory.new_replays (c : Comparator) (n : ℕ) :
    (Directory.new c).Replays D rank ⟨fun _ => []⟩ 0 n := by
  refine ⟨Version.empty_wellFormed, ⟨?_, ?_⟩, ⟨?_, ?_, ?_, ?_, ?_⟩, ?_, ⟨le_rfl, Nat.zero_le _⟩,
    .nil (Nat.zero_le _), List.Pairwise.nil, ?_, Nat.zero_le _⟩
  · exact fun _ _ f hf => absurd hf List.not_mem_nil
  · exact fun _ f hf => absurd hf List.not_mem_nil
  · simp [Directory.new]
  · simp [Directory.new, addedFiles]
  · simp [Directory.new, addedFiles, Named]
  · simp [Directory.new, addedFiles]
  · simp [Directory.new, Live, added, VersionEdit.at]
  · exact fun e he => absurd he List.not_mem_nil
  · simp [Directory.new]

theorem Directory.Replays.weaken (h : dir.Replays D rank v m n) (hn : n ≤ n') :
    dir.Replays D rank v m n' :=
  ⟨h.wellFormed, h.tidy, h.describes, h.upTo, ⟨h.manifest.1, h.manifest.2.trans hn⟩,
    h.logged.extend hn, h.logs, h.active, h.logNumber_le⟩

theorem Directory.Replays.addLog (h : dir.Replays D rank v m n) {number : ℕ}
    (hlt : ∀ log ∈ dir.logs, log.number < number) (hle : dir.logNumber ≤ number) :
    ({ dir with logs := dir.logs ++ [⟨number, []⟩] } : Directory).Replays D rank v m n := by
  refine ⟨h.wellFormed, h.tidy, h.describes, h.upTo, h.manifest, ?_, ?_, ?_, h.logNumber_le⟩
  · simpa using h.logged
  · refine List.pairwise_append.mpr ⟨h.logs, List.pairwise_singleton _ _, ?_⟩
    intro log hlog log' hlog'
    rw [List.mem_singleton.mp hlog']
    exact hlt log hlog
  · intro log hlog
    rcases List.mem_append.mp hlog with hlog | hlog
    · exact h.active log hlog
    · rw [List.mem_singleton.mp hlog]
      exact hle

end Directories

namespace Recovery

section Opening

variable {o : Options} {options : OpenOptions} {io : OpenEvents} {dir : Directory}
  {m n n' t used : ℕ} {st : Recovering} {log : LogFile} {mem : MemTable} {next : ℕ}

/-- The logs that stay besides the one that is written to. -/
def oldLogs (logs : List LogFile) (st : Recovering) : List LogFile :=
  if st.kept.isSome then logs.dropLast else logs

/-- The log that is written to is new, or it is the last one with its memtable. -/
structure OpenedLog (D : Bytes → Prop) (rank : Bytes → κ) (options : OpenOptions) (dir : Directory)
    (st : Recovering) (t n : ℕ) (log : LogFile) (mem : MemTable) (next : ℕ) : Prop where
  eq : openLog dir.logs st = (log, mem, next)
  number : dir.logNumber ≤ log.number ∧ log.number < next
  next_le : st.nextFileNumber ≤ next
  mem : Between D rank t st.maxSequence mem
  logs : (oldLogs dir.logs st ++ [log]).Pairwise fun log log' => log.number < log'.number
  active : ∀ log' ∈ oldLogs dir.logs st ++ [log], dir.logNumber ≤ log'.number
  records : (oldLogs dir.logs st ++ [log]).flatMap (·.records) = dir.logs.flatMap (·.records)
  logged : log.records = [] ∨ options.reuseLogs = true ∧ Logged D t log.records n
  origin : options.reuseLogs = true ∧ log ∈ dir.logs ∨
    log.records = [] ∧ ∀ log' ∈ dir.logs, log'.number < log.number

theorem openedLog (h : dir.Replays D rank v m n)
    (hst : st.Holds D rank options io (dir.manifest.nextFileNumber + 1) m used t n' fs)
    (hkept : ∀ mem ∈ st.kept, options.reuseLogs = true ∧
      Between D rank t (min n' st.maxSequence) mem ∧
        ∃ log ∈ dir.logs.getLast?, Logged D t log.records n')
    (hnumber : ∀ log ∈ dir.logs, log.number < st.nextFileNumber) :
    ∃ log mem next, OpenedLog D rank options dir st t n' log mem next := by
  have hle : dir.logNumber ≤ st.nextFileNumber := by
    have h₁ := h.logNumber_le
    have h₂ := hst.next_le
    omega
  cases hk : st.kept with
  | none =>
    have hold : oldLogs dir.logs st = dir.logs := by simp [oldLogs, hk]
    have hadded := h.addLog hnumber hle
    refine ⟨⟨st.nextFileNumber, []⟩, .empty, st.nextFileNumber + 1, ?_, ⟨hle, Nat.lt_succ_self _⟩,
      Nat.le_succ _, ?_, ?_, ?_, ?_, Or.inl rfl, Or.inr ⟨rfl, hnumber⟩⟩
    · rw [openLog, hk]
    · exact ⟨Sorted.nil, fun e he => absurd he List.not_mem_nil,
        fun e he => absurd he List.not_mem_nil⟩
    · rw [hold]
      exact hadded.logs
    · rw [hold]
      exact hadded.active
    · simp [hold]
  | some mem =>
    obtain ⟨hreuse, hmem, log, hlast, hlogged⟩ := hkept mem hk
    have hlog : log ∈ dir.logs := List.mem_of_getLast? hlast
    have hall : oldLogs dir.logs st ++ [log] = dir.logs := by
      simp only [oldLogs, hk, Option.isSome_some, if_true]
      exact List.dropLast_append_getLast? log hlast
    refine ⟨log, mem, st.nextFileNumber, ?_, ⟨h.active log hlog, hnumber log hlog⟩, le_rfl, ?_,
      ?_, ?_, by rw [hall], Or.inr ⟨hreuse, hlogged⟩, Or.inl ⟨hreuse, hlog⟩⟩
    · rw [openLog, hk, Option.mem_def.mp hlast]
    · exact ⟨hmem.sorted, hmem.after, fun e he => (hmem.upTo e he).trans (min_le_right _ _)⟩
    · rw [hall]
      exact h.logs
    · rw [hall]
      exact h.active

theorem settled_opened {version : Version} {last : ℕ} (hmem : Between D rank t st.maxSequence mem)
    (hmax : st.maxSequence ≤ last) (hv : version.WellFormed D rank) (ht : version.Tidy rank)
    (hseq : ∀ e ∈ version.entries, e.key.sequence ≤ t ∧ e.key.sequence ≤ last)
    (hlast : last ≤ kMaxSequenceNumber)
    (hfile : ∀ level, ∀ f ∈ version.files level, f.number < next) {logNumber : ℕ}
    (hlog : logNumber ≤ log.number ∧ log.number < next) {pointers : ℕ → Option InternalKey}
    (hp : PointersIn D pointers) (oldLogs : List LogFile) (manifest : Manifest) :
    DB.Settled D rank {
      mem, imm := none, version, compactPointers := pointers, lastSequence := last, snapshots := []
      bgError := .ok, nextFileNumber := next, log, oldLogs, logNumber, manifest } := by
  refine ⟨⟨⟨⟨hmem.sorted, Sorted.nil, hv, ?_, ?_⟩, ?_, hlast, hfile, hlog⟩, ht, hp,
    List.Pairwise.nil, fun s hs => absurd hs List.not_mem_nil⟩, rfl⟩
  · intro a ha b hb _
    exact (hseq b hb).1.trans_lt (hmem.after a ha)
  · exact fun a ha => absurd ha List.not_mem_nil
  · intro e he
    rcases List.mem_append.mp he with he | he
    · exact (hmem.upTo e he).trans hmax
    · exact (hseq e he).2

/-- What opening makes of the version and the replayed logs. -/
structure Reopened (D : Bytes → Prop) (rank : Bytes → κ) (options : OpenOptions) (io : OpenEvents)
    (dir : Directory) (v : Version) (m n t used n' : ℕ) (fs : List FileMetaData) (st : Recovering) :
    Prop where
  replays : dir.Replays D rank v m n
  holds : st.Holds D rank options io (dir.manifest.nextFileNumber + 1) m used t n' fs
  logged : Logged D m (dir.logs.flatMap (·.records)) n'
  le : n' ≤ n
  n_le : n ≤ kMaxSequenceNumber

variable {v₁ : Version}

theorem Reopened.newTables (h : Reopened D rank options io dir v m n t used n' fs st)
    (hsame : v.SameFiles v₁) : NewTables D rank v₁ m fs := by
  refine ⟨h.holds.wellFormed, h.holds.successive, ?_, ?_, ?_⟩
  · intro f hf i g hg
    have hold := h.replays.describes.number_lt g
      (h.replays.describes.mem_addedFiles ((hsame i g).mp hg))
    have hnew := (h.holds.number f hf).1
    omega
  · exact fun f hf e he => (h.holds.sequence f hf e he).1
  · exact fun e he => h.replays.upTo e ((hsame.entries e).mp he)

theorem Reopened.sequence_le (h : Reopened D rank options io dir v m n t used n' fs st)
    (hsame : v.SameFiles v₁) (hv : v₁.WellFormed D rank)
    (hfiles : ∀ i f, f ∈ v'.files i → f ∈ v₁.files i ∨ f ∈ fs) {e : Entry} (he : e ∈ v'.entries) :
    e.key.sequence ≤ t ∧ e.key.sequence ≤ max dir.manifest.lastSequence st.maxSequence := by
  obtain ⟨level, -, he⟩ := mem_entries.mp he
  obtain ⟨f, hf, hef⟩ := mem_levelEntries.mp he
  rcases hfiles level f hf with hf | hf
  · have hle := h.replays.upTo e ((hsame.entries e).mp (hv.mem_entries_of_file hf hef))
    have h₁ := h.holds.le.1
    have h₂ := h.replays.manifest.1
    omega
  · have := (h.holds.sequence f hf e hef).2
    omega

theorem Reopened.last_le (h : Reopened D rank options io dir v m n t used n' fs st) :
    max dir.manifest.lastSequence st.maxSequence ≤ n :=
  max_le h.replays.manifest.2 (h.holds.max_le.trans h.le)

theorem Reopened.complete (h : Reopened D rank options io dir v m n t used n' fs st)
    (hreads : io.Reads) : n' ≤ max dir.manifest.lastSequence st.maxSequence := by
  have h₁ := h.holds.complete hreads
  have h₂ := h.replays.manifest.1
  omega

theorem Reopened.kept_restorable (h : Reopened D rank options io dir v m n t used n' fs st)
    (hlog : OpenedLog D rank options dir st t n' log mem next) (hsame : v.SameFiles v₁)
    (hv : v₁.WellFormed D rank) (ht : v₁.Tidy rank) (hreads : io.Reads) :
    DB.Restorable D rank n {
      mem, imm := none, version := v₁, compactPointers := recoverPointers dir.manifest.edits
      lastSequence := max dir.manifest.lastSequence st.maxSequence, snapshots := [], bgError := .ok
      nextFileNumber := next, log, oldLogs := oldLogs dir.logs st, logNumber := dir.logNumber
      manifest := dir.manifest } := by
  have hnext : dir.manifest.nextFileNumber ≤ next := by
    have h₁ := h.holds.next_le
    have h₂ := hlog.next_le
    omega
  refine ⟨settled_opened hlog.mem (le_max_right _ _) hv ht ?_ (h.last_le.trans h.n_le) ?_
    hlog.number (recoverPointers_in h.replays.describes.pointers) _ _, ⟨h.replays.describes.of_sameFiles hsame, hnext, h.replays.logNumber_le,
      hlog.logs, hlog.active, ?_⟩, h.last_le⟩
  · exact fun e he => h.sequence_le hsame hv (fun i f hf => Or.inl hf) he
  · intro level f hf
    have := h.replays.describes.number_lt f
      (h.replays.describes.mem_addedFiles ((hsame level f).mp hf))
    omega
  · have hall := h.logged.extend (h.complete hreads)
    rw [← hlog.records, List.flatMap_append] at hall
    obtain ⟨m₁, hold, hlast⟩ := hall.split
    refine ⟨m, m₁, fun e he => h.replays.upTo e ((hsame.entries e).mp he),
      ⟨h.replays.manifest.1, le_max_left _ _⟩, fun e he => absurd he List.not_mem_nil, hold, ?_⟩
    simpa using hlast

def Recovering.pointers (st : Recovering) (dir : Directory) : ℕ → Option InternalKey :=
  st.edit.setCompactPointers (recoverPointers dir.manifest.edits)

theorem Reopened.pointers (h : Reopened D rank options io dir v m n t used n' fs st) :
    PointersIn D (st.pointers dir) := by
  apply (recoverPointers_in h.replays.describes.pointers).setCompactPointers
  rw [h.holds.edit]
  exact fun _ hp => absurd hp List.not_mem_nil

theorem Reopened.describes (h : Reopened D rank options io dir v m n t used n' fs st)
    (hsame : v.SameFiles v₁) (hv : v₁.WellFormed D rank) (ht : v₁.Tidy rank) :
    Describes D (manifestEdits options io dir (st.pointers dir) v₁) dir.manifest.nextFileNumber
      v₁ := by
  have hold := h.replays.describes.of_sameFiles hsame
  rw [manifestEdits]
  split_ifs
  · exact hold
  · exact describes_snapshotEdit h.pointers hv ht fun level f hf => hold.number_lt f (hold.mem_addedFiles hf)

theorem Reopened.adds (h : Reopened D rank options io dir v m n t used n' fs st)
    (hnext : st.nextFileNumber ≤ next) :
    st.edit.Adds D v₁ dir.manifest.nextFileNumber next := by
  have hnew : st.edit.newFiles = fs.map fun f => (0, f) := by
    rw [h.holds.edit]
    rfl
  have hp : ∀ p ∈ st.edit.compactPointers, D p.2.userKey := by
    rw [h.holds.edit]
    exact fun _ hp => absurd hp List.not_mem_nil
  refine .of_newFiles hp hnew (by decide) (fun f hf => (h.holds.wellFormed f hf).smallest_mem)
    h.holds.successive.named fun f hf => ?_
  have := h.holds.number f hf
  exact ⟨by omega, Or.inl (by omega)⟩

theorem Reopened.saved_restorable (h : Reopened D rank options io dir v m n t used n' fs st)
    (ho : o.comparator.OrdersOn D rank) (hlog : OpenedLog D rank options dir st t n' log mem next)
    (hsame : v.SameFiles v₁) (hv : v₁.WellFormed D rank) (ht : v₁.Tidy rank)
    (hreads : options.reuseLogs = true → io.Reads)
    (hsave : saveTo o.comparator st.edit v₁ = .ok v') (hv' : v'.WellFormed D rank)
    (ht' : v'.Tidy rank) (hfiles : ∀ i f, f ∈ v'.files i → f ∈ v₁.files i ∨ f ∈ fs) :
    DB.Restorable D rank n {
      mem, imm := none, version := v', compactPointers := st.pointers dir
      lastSequence := max dir.manifest.lastSequence st.maxSequence, snapshots := [], bgError := .ok
      nextFileNumber := next, log, oldLogs := [], logNumber := log.number
      manifest := ⟨manifestEdits options io dir (st.pointers dir) v₁ ++ [st.edit], next,
        max dir.manifest.lastSequence st.maxSequence⟩ } := by
  have hnext : dir.manifest.nextFileNumber ≤ next := by
    have h₁ := h.holds.next_le
    have h₂ := hlog.next_le
    omega
  have hdescribes := (h.describes hsame hv ht).append ho hv hsave (h.adds hlog.next_le) hnext
  have hseq := fun e he => h.sequence_le hsame hv hfiles (e := e) he
  refine ⟨settled_opened hlog.mem (le_max_right _ _) hv' ht' hseq (h.last_le.trans h.n_le) ?_
    ⟨le_rfl, hlog.number.2⟩ h.pointers _ _, ⟨hdescribes, le_rfl, hlog.number.2.le,
      List.pairwise_singleton _ _, ?_, ?_⟩, h.last_le⟩
  · exact fun level f hf => hdescribes.number_lt f (hdescribes.mem_addedFiles hf)
  · intro log' hlog'
    rw [List.mem_singleton.mp hlog']
  · rcases hlog.logged with hnil | ⟨hreuse, hlogged⟩
    · refine ⟨_, _, fun e he => (hseq e he).2, ⟨le_rfl, le_rfl⟩,
        fun e he => absurd he List.not_mem_nil, .nil le_rfl, ?_⟩
      rw [hnil]
      exact .nil le_rfl
    · have hall := hlogged.extend (h.complete (hreads hreuse))
      exact ⟨t, t, fun e he => (hseq e he).1, ⟨hall.le, le_rfl⟩,
        fun e he => absurd he List.not_mem_nil, .nil le_rfl, hall⟩

/-- The logs of a database that was opened are those of the directory, but the one that is written to
may be new. -/
structure LogsFrom (options : OpenOptions) (dir : Directory) (db : DB) : Prop where
  old : ∀ log ∈ db.oldLogs, log ∈ dir.logs
  log : options.reuseLogs = true ∧ db.log ∈ dir.logs ∨
    db.log.records = [] ∧ ∀ log ∈ dir.logs, log.number < db.log.number

theorem mem_of_mem_oldLogs {logs : List LogFile} {log : LogFile} (h : log ∈ oldLogs logs st) :
    log ∈ logs := by
  rw [oldLogs] at h
  split_ifs at h
  · exact List.mem_of_mem_dropLast h
  · exact h

/-- How opening a directory may end. -/
def Opens (D : Bytes → Prop) (rank : Bytes → κ) (options : OpenOptions) (io : OpenEvents)
    (dir : Directory) (v : Version) (m n : ℕ) : Except (Status × Option Directory) DB → Prop
  | .ok db => LogsFrom options dir db ∧
      ((options.reuseLogs = true → io.Reads) → db.Restorable D rank n)
  | .error (s, dir') => s.isOk = false ∧ ∃ d ∈ dir', dir.Kept d ∧ d.Replays D rank v m n

theorem failed_opens (options : OpenOptions) (io : OpenEvents) (h : dir.Replays D rank v m n)
    {s : Status} (hs : s.isOk = false) :
    Opens D rank options io dir v m n (.error (s, some dir)) :=
  ⟨hs, dir, rfl, .refl dir, h⟩

theorem leftBehind_spec (h : dir.Replays D rank v m n)
    (hlog : OpenedLog D rank options dir st t n' log mem next)
    (hnumber : ∀ log ∈ dir.logs, log.number < st.nextFileNumber) :
    dir.Kept (leftBehind dir st log) ∧ (leftBehind dir st log).Replays D rank v m n := by
  unfold leftBehind
  split_ifs with hkept
  · exact ⟨.refl dir, h⟩
  · have hnone : st.kept = none := by simpa using hkept
    have hopen := hlog.eq
    rw [openLog, hnone] at hopen
    obtain rfl := (Prod.mk.inj hopen).1
    exact ⟨⟨rfl, rfl, rfl, [_], rfl, by simp⟩, h.addLog hnumber hlog.number.1⟩

theorem finishOpen_spec (h : Reopened D rank options io dir v m n t used n' fs st)
    (ho : o.comparator.OrdersOn D rank) (hlog : OpenedLog D rank options dir st t n' log mem next)
    (hnumber : ∀ log ∈ dir.logs, log.number < st.nextFileNumber)
    (hsame : v.SameFiles v₁) (hv : v₁.WellFormed D rank) (ht : v₁.Tidy rank) :
    Ensures (fun _ => False) (finishOpen o options io dir v₁ dir.logs st)
      (Opens D rank options io dir v m n) := by
  have hopen := hlog.eq
  rw [finishOpen]
  simp only [hopen]
  by_cases hlogFile : (st.kept.isNone && !io.newLogFile.isOk) = true
  · rw [if_pos hlogFile]
    simp only [Bool.and_eq_true, Bool.not_eq_true'] at hlogFile
    exact failed_opens options io h.replays hlogFile.2
  rw [if_neg hlogFile]
  by_cases hsaved : st.saveManifest = true
  · obtain ⟨v', hsave, hv', ht', hfiles⟩ := (h.newTables hsame).saveTo ho hv ht
    rw [← h.holds.edit] at hsave
    rw [if_pos hsaved, decide_eq_true hlog.number.1, decide_eq_true hlog.number.2, assertThat_true,
      Stops.ok_bind, Stops.ok_bind, hsave, Stops.ok_bind]
    by_cases happly : io.apply.isOk = true
    · rw [if_pos happly]
      refine ⟨⟨fun _ hold => absurd hold List.not_mem_nil, hlog.origin⟩, fun hreads => ?_⟩
      exact h.saved_restorable ho hlog hsame hv ht hreads hsave hv' ht'
        fun i f hf => ((hfiles i f).mp hf).imp_right And.right
    · rw [if_neg happly]
      exact ⟨by simpa using happly, _, rfl, leftBehind_spec h.replays hlog hnumber⟩
  · rw [if_neg hsaved]
    refine ⟨⟨fun _ hold => mem_of_mem_oldLogs hold, hlog.origin⟩, fun hreads => ?_⟩
    have hreuse : options.reuseLogs = true := by
      by_contra hno
      exact hsaved (h.holds.saved (by simpa using hno))
    exact h.kept_restorable hlog hsame hv ht (hreads hreuse)

theorem logs_eq (h : dir.Replays D rank v m n) :
    ((dir.logs.filter fun log => dir.logNumber ≤ log.number).mergeSort fun log log' =>
      log.number ≤ log'.number) = dir.logs := by
  rw [List.filter_eq_self.mpr fun log hlog => decide_eq_true (h.active log hlog)]
  exact List.mergeSort_of_pairwise (h.logs.imp fun hlt => decide_eq_true hlt.le)

variable (ho : o.comparator.OrdersOn D rank) (hp : ∀ p ∈ o.filterPolicy, p.Lawful)
  (h : dir.Replays D rank v m n) (hn : n ≤ kMaxSequenceNumber)

include ho hp h hn

theorem recoverLogs_spec (hsame : v.SameFiles v₁) (hv : v₁.WellFormed D rank) (ht : v₁.Tidy rank) :
    Ensures (fun _ => False) (recoverLogs o options io dir v₁)
      (Opens D rank options io dir v m n) := by
  rw [recoverLogs]
  by_cases hchildren : (!io.getChildren.isOk) = true
  · rw [if_pos hchildren]
    exact failed_opens options io h (by simpa using hchildren)
  rw [if_neg hchildren]
  split
  · exact failed_opens options io h rfl
  · rw [logs_eq h]
    have hstart : Recovering.Holds D rank options io (dir.manifest.nextFileNumber + 1) m
        (dir.manifest.nextFileNumber + 1) m m [] ⟨{}, !(options.reuseLogs && io.reuseManifest), 0,
          dir.manifest.nextFileNumber + 1, none⟩ := by
      refine ⟨rfl, by simp, List.Pairwise.nil, by simp, by simp, ⟨le_rfl, le_rfl⟩, ⟨le_rfl, le_rfl⟩,
        Nat.zero_le _, fun _ => le_max_left _ _, fun hreuse => by simp [hreuse]⟩
    refine (recoverLogFiles_spec ho hp hstart rfl h.logged hn).bind fun r hr => ?_
    obtain ⟨status, st⟩ := r
    dsimp only at hr ⊢
    by_cases hs : status.isOk = true
    · rw [if_pos hs]
      obtain ⟨n', hle, hlogged, ⟨t, fs, hholds, hkept⟩, hnumber⟩ := hr hs
      obtain ⟨log, mem, next, hlog⟩ := openedLog h hholds hkept hnumber
      exact finishOpen_spec ⟨h, hholds, hlogged, hle, hn⟩ ho hlog hnumber hsame hv ht
    · rw [if_neg hs]
      exact failed_opens options io h (by simpa using hs)

theorem recover_spec : Ensures (fun _ => False) (recover o options io dir)
    (Opens D rank options io dir v m n) := by
  rw [recover]
  by_cases hread : (!io.manifest.isOk) = true
  · rw [if_pos hread]
    exact failed_opens options io h (by simpa using hread)
  rw [if_neg hread]
  by_cases hname : dir.comparatorName ≠ o.comparator.name
  · rw [if_pos hname]
    exact failed_opens options io h rfl
  rw [if_neg hname]
  obtain ⟨v₁, hv₁, hsame, hw, ht⟩ := recoverVersion_spec ho h.describes h.wellFormed h.tidy
  rw [hv₁, Stops.ok_bind]
  exact recoverLogs_spec ho hp h hn hsame hw ht

/-- A directory that can be replayed is opened, or opening it fails and it stays as it is. -/
theorem openAt_spec : Ensures (fun _ => False) (DB.openAt o options io (some dir))
    (Opens D rank options io dir v m n) := by
  rw [DB.openAt]
  split_ifs with hlock
  · exact failed_opens options io h (by simpa using hlock)
  · exact failed_opens options io h rfl
  · exact recover_spec ho hp h hn

end Opening

section Healthy

variable {o : Options} {options : OpenOptions} (hparanoid : options.paranoidChecks = false)

theorem writeLevel0Table_healthy (mem : MemTable) (st : Recovering) :
    Ensures (fun _ => True) (writeLevel0Table o .healthy mem st) fun r => r.1.isOk = true := by
  unfold writeLevel0Table
  split
  · rfl
  · refine Stops.ensures_true.bind fun f _ => ?_
    split_ifs <;> rfl

include hparanoid

theorem maybeIgnoreError_ok (s : Status) : maybeIgnoreError options s = .ok := by
  rw [maybeIgnoreError, hparanoid, Bool.or_false]
  split_ifs with hs
  · exact (Status.isOk_iff s).mp hs
  · rfl

theorem replayRecord_healthy (record : Bytes) (r : Replay) :
    Ensures (fun _ => True) (replayRecord o options .healthy record r)
      fun r' => r'.1.isOk = true := by
  have hflush : ∀ mem r, Ensures (fun _ => True) (flushIfFull o .healthy mem r)
      fun r' => r'.1.isOk = true := by
    intro mem r
    rw [flushIfFull]
    split_ifs
    · exact (writeLevel0Table_healthy mem r.recovering).bind fun r' hr' => hr'
    · rfl
  by_cases hshort : record.length < kHeader
  · rw [replayRecord, if_pos hshort, hparanoid]
    rfl
  · rw [replayRecord, if_neg hshort]
    refine Stops.ensures_true.bind fun batch _ => Stops.ensures_true.bind fun s _ => ?_
    obtain ⟨status, mem⟩ := s
    simp only [maybeIgnoreError_ok hparanoid, Status.isOk_ok, if_true]
    exact hflush mem _

theorem recoverLogFile_healthy (log : LogFile) (lastLog : Bool) (st : Recovering) :
    Ensures (fun _ => True) (recoverLogFile o options .healthy log lastLog st)
      fun r => r.1.isOk = true := by
  have hrecords : ∀ (i : ℕ) (records : List Bytes) (r : Replay),
      Ensures (fun _ => True) (replayRecords o options .healthy log.number i records r)
        fun r' => r'.1.isOk = true := by
    intro i records
    induction records generalizing i with
    | nil => exact fun r => rfl
    | cons record records ih =>
      intro r
      rw [replayRecords]
      refine (replayRecord_healthy hparanoid record r).bind fun r' hr' => ?_
      obtain ⟨status, r'⟩ := r'
      simp only [show status.isOk = true from hr', if_true]
      exact ih (i + 1) r'
  have hread : (OpenEvents.healthy.newSequentialFile log.number).isOk = true := rfl
  rw [recoverLogFile, if_pos hread]
  refine (hrecords 0 log.records _).bind fun r hr => ?_
  obtain ⟨status, r⟩ := r
  dsimp only at hr ⊢
  rw [finishLog]
  split_ifs
  · exact hr
  · cases r.mem with
    | none => exact hr
    | some mem =>
      dsimp only
      exact writeLevel0Table_healthy mem r.recovering

theorem recoverLogFiles_healthy (logs : List LogFile) (st : Recovering) :
    Ensures (fun _ => True) (recoverLogFiles o options .healthy logs st)
      fun r => r.1.isOk = true := by
  induction logs generalizing st with
  | nil => rfl
  | cons log logs ih =>
    rw [recoverLogFiles]
    refine (recoverLogFile_healthy hparanoid log logs.isEmpty st).bind fun r hr => ?_
    obtain ⟨status, st'⟩ := r
    simp only [show status.isOk = true from hr, if_true]
    exact ih _

/-- Without faults, opening a directory under a comparator of the same name succeeds or stops. -/
theorem openAt_healthy (hexists : options.errorIfExists = false) {dir : Directory}
    (hname : dir.comparatorName = o.comparator.name) :
    Ensures (fun _ => True) (DB.openAt o options .healthy (some dir))
      fun r => ∃ db, r = .ok db := by
  have hopen : DB.openAt o options .healthy (some dir) = recover o options .healthy dir := by
    rw [DB.openAt, hexists]
    rfl
  have hmissing : ∀ v, missingFiles .healthy v = [] := by
    intro v
    simp [missingFiles, OpenEvents.healthy]
  rw [hopen, recover, if_neg (by simp [OpenEvents.healthy]), if_neg (not_not.mpr hname)]
  refine Stops.ensures_true.bind fun v _ => ?_
  rw [recoverLogs, if_neg (by simp [OpenEvents.healthy]), hmissing]
  refine (recoverLogFiles_healthy hparanoid _ _).bind fun r hr => ?_
  obtain ⟨status, st⟩ := r
  simp only [show status.isOk = true from hr, if_true]
  rw [finishOpen]
  split
  rename_i log mem next _
  rw [if_neg (by simp [OpenEvents.healthy])]
  by_cases hsaved : st.saveManifest = true
  · rw [if_pos hsaved]
    refine Stops.ensures_true.bind fun _ _ => Stops.ensures_true.bind fun _ _ =>
      Stops.ensures_true.bind fun v' _ => ?_
    exact ⟨_, rfl⟩
  · rw [if_neg hsaved]
    exact ⟨_, rfl⟩

end Healthy

end Recovery

end DVELevelDB
