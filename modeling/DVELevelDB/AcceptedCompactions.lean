import DVELevelDB.AcceptedKeys
import DVELevelDB.ManualCompaction

/-! # The keys that compactions compare -/

namespace DVELevelDB

open VersionStore
open Stops (Ensures)

section Inputs

variable {c : Comparator} {D : Bytes → Prop} (hc : c.AcceptsOn D) {files : List FileMetaData}
  {key : InternalKey}

include hc

theorem getRange_accepts (h : FilesIn D files) :
    Ensures NotFatal (getRange c files) fun r => D r.1.userKey ∧ D r.2.userKey := by
  cases files with
  | nil =>
    intro h
    cases h
  | cons f files =>
    refine Stops.ensures_foldlM (by exact ⟨h.head.smallest, h.head.largest⟩) fun r hr g hg => ?_
    have hgk := h.tail g hg
    refine (InternalKeyComparator.compare_accepts hc hgk.smallest hr.1).bind fun below _ => ?_
    refine (InternalKeyComparator.compare_accepts hc hgk.largest hr.2).bind fun above _ => ?_
    constructor
    · dsimp only
      split_ifs
      · exact hgk.smallest
      · exact hr.1
    · dsimp only
      split_ifs
      · exact hgk.largest
      · exact hr.2

theorem findLargestKey_accepts (h : FilesIn D files) :
    Ensures NotFatal (findLargestKey c files) fun r => ∀ key ∈ r, D key.userKey := by
  cases files with
  | nil => exact fun key hkey => by cases hkey
  | cons f files =>
    have hfold : Ensures NotFatal (files.foldlM (largerKey c) f.largest) fun key => D key.userKey := by
      refine Stops.ensures_foldlM h.head.largest fun key hkey g hg => ?_
      have hgk := h.tail g hg
      refine (InternalKeyComparator.compare_accepts hc hgk.largest hkey).bind fun r _ => ?_
      split_ifs
      · exact hgk.largest
      · exact hkey
    refine hfold.bind fun key hkey => ?_
    rintro k ⟨⟩
    exact hkey

theorem findSmallestBoundaryFile_accepts (h : FilesIn D files) (hk : D key.userKey) :
    Ensures NotFatal (findSmallestBoundaryFile c files key) fun r => ∀ f ∈ r, f.KeysIn D := by
  refine Stops.ensures_foldlM (fun f hf => by cases hf) fun best hbest f hf => ?_
  have hfk := h f hf
  have hsome : ∀ g ∈ some f, g.KeysIn D := by
    rintro g ⟨⟩
    exact hfk
  have hboundary : Ensures NotFatal (isBoundaryFile c key f) fun _ => True := by
    refine (InternalKeyComparator.compare_accepts hc hfk.smallest hk).bind fun r _ => ?_
    split_ifs
    · exact (hc.compare _ _ hfk.smallest hk).bind fun _ _ => trivial
    · trivial
  refine hboundary.bind fun b _ => ?_
  cases b
  · exact hbest
  · cases best with
    | none => exact hsome
    | some g =>
      have hg := hbest g rfl
      refine (InternalKeyComparator.compare_accepts hc hfk.smallest hg.smallest).bind fun r _ => ?_
      split_ifs
      · exact hsome
      · exact hbest

theorem addBoundaryInputs_accepts {levelFiles : List FileMetaData} (hl : FilesIn D levelFiles)
    (h : FilesIn D files) :
    Ensures NotFatal (addBoundaryInputs c levelFiles files) (FilesIn D) := by
  have hloop : ∀ (n : ℕ) (key : InternalKey) (files : List FileMetaData), D key.userKey →
      FilesIn D files → Ensures NotFatal (addBoundaryLoop c levelFiles n key files) (FilesIn D) := by
    intro n
    induction n with
    | zero => exact fun key files _ h => h
    | succ n ih =>
      intro key files hk h
      refine (findSmallestBoundaryFile_accepts hc hl hk).bind fun r hr => ?_
      cases r with
      | none => exact h
      | some f => exact ih _ _ (hr f rfl).largest (h.append (FilesIn.nil.cons (hr f rfl)))
  refine (findLargestKey_accepts hc h).bind fun r hr => ?_
  cases r with
  | none => exact h
  | some key => exact hloop _ _ _ (hr key rfl) h

end Inputs

/-- All files of a compaction. -/
structure CompactionFiles.KeysIn (D : Bytes → Prop) (files : CompactionFiles) : Prop where
  inputs : FilesIn D files.inputs
  parents : FilesIn D files.parents
  grandparents : FilesIn D files.grandparents
  compactPointer : D files.compactPointer.userKey

structure Expansion.KeysIn (D : Bytes → Prop) (x : Expansion) : Prop where
  inputs : FilesIn D x.inputs
  parents : FilesIn D x.parents
  largest : D x.largest.userKey
  all : D x.all.1.userKey ∧ D x.all.2.userKey

section Setup

variable {o : Options} {D : Bytes → Prop} (hc : o.comparator.AcceptsOn D) {v : Version}
  (h : v.KeysIn D)

include hc h

theorem getOverlappingInputs_range_accepts (level : ℕ) {first last : InternalKey}
    (hf : D first.userKey) (hl : D last.userKey) :
    Ensures NotFatal (v.getOverlappingInputs o.comparator level (some first.userKey)
      (some last.userKey)) (FilesIn D) := by
  apply Version.getOverlappingInputs_accepts hc h
  · rintro k ⟨⟩
    exact hf
  · rintro k ⟨⟩
    exact hl

theorem expandInputs_accepts (level : ℕ) {x : Expansion} (hx : x.KeysIn D) :
    Ensures NotFatal (expandInputs o v level x) (Expansion.KeysIn D) := by
  rw [expandInputs]
  split_ifs
  · exact hx
  have hover := getOverlappingInputs_range_accepts hc h level hx.all.1 hx.all.2
  refine hover.bind fun expanded he => ?_
  refine (addBoundaryInputs_accepts hc (h level) he).bind fun expanded he => ?_
  rw [growInputs]
  split_ifs
  · refine (getRange_accepts hc he).bind fun range' hr' => ?_
    obtain ⟨newStart, newLimit⟩ := range'
    have hover := getOverlappingInputs_range_accepts hc h (level + 1) hr'.1 hr'.2
    refine hover.bind fun expanded1 he1 => ?_
    split_ifs
    · exact (getRange_accepts hc (he.append he1)).bind fun all hall => ⟨he, he1, hr'.2, hall⟩
    · exact hx
  · exact hx

theorem setupOtherInputs_accepts (level : ℕ) {inputs : List FileMetaData} (hi : FilesIn D inputs) :
    Ensures NotFatal (setupOtherInputs o v level inputs) (CompactionFiles.KeysIn D) := by
  refine (addBoundaryInputs_accepts hc (h level) hi).bind fun inputs hi => ?_
  refine (getRange_accepts hc hi).bind fun range hr => ?_
  obtain ⟨smallest, largest⟩ := range
  have hover := getOverlappingInputs_range_accepts hc h (level + 1) hr.1 hr.2
  refine hover.bind fun parents hp => ?_
  refine (getRange_accepts hc (hi.append hp)).bind fun all hall => ?_
  refine (expandInputs_accepts hc h level ⟨hi, hp, hr.2, hall⟩).bind fun x hx => ?_
  have hgrand : Ensures NotFatal (grandparentsOf o v level x.all.1 x.all.2) (FilesIn D) := by
    rw [grandparentsOf]
    split_ifs
    · exact getOverlappingInputs_range_accepts hc h (level + 2) hx.all.1 hx.all.2
    · exact FilesIn.nil
  exact hgrand.bind fun grandparents hg => ⟨hx.inputs, hx.parents, hg, hx.largest⟩

/-- A compaction by size compares the files of its level with the compaction pointer. -/
theorem pickFile_accepts {pointers : ℕ → Option InternalKey} (hp : PointersIn D pointers)
    (reason : CompactionReason) :
    Ensures NotFatal (pickFile o v pointers reason) fun r => ∀ f ∈ r, f.KeysIn D := by
  have hafter : ∀ (level : ℕ) {files : List FileMetaData}, FilesIn D files →
      Ensures NotFatal (firstFileAfter o (pointers level) files) fun r => ∀ f ∈ r, f.KeysIn D := by
    intro level files hfiles
    induction files with
    | nil => exact fun f hf => by cases hf
    | cons f files ih =>
      have hcompare : Ensures NotFatal (comesAfter o (pointers level) f) fun _ => True := by
        unfold comesAfter
        cases hpointer : pointers level with
        | none => trivial
        | some key =>
          have hkey := hp level key hpointer
          have hlargest := hfiles.head.largest
          exact (InternalKeyComparator.compare_accepts hc hlargest hkey).bind fun _ _ => trivial
      refine hcompare.bind fun b _ => ?_
      cases b
      · exact ih hfiles.tail
      · rintro g ⟨⟩
        exact hfiles.head
  cases reason with
  | size level =>
    refine (hafter level (h level)).bind fun r hr => ?_
    cases r with
    | none => exact fun f hf => h level f (List.mem_of_head? hf)
    | some f => exact hr
  | seek level index => exact fun f hf => h level f (List.mem_of_getElem? hf)

theorem pickCompaction_accepts {pointers : ℕ → Option InternalKey} (hp : PointersIn D pointers)
    (reason : CompactionReason) :
    Ensures NotFatal (pickCompaction o v pointers reason)
      fun r => ∀ files ∈ r, files.KeysIn D := by
  refine (pickFile_accepts hc h hp reason).bind fun r hr => ?_
  cases r with
  | none => exact fun files hf => by cases hf
  | some f =>
    have hf : FilesIn D [f] := FilesIn.nil.cons (hr f rfl)
    have hinitial : Ensures NotFatal (initialInputs o v reason.level f) (FilesIn D) := by
      rw [initialInputs]
      split_ifs
      · refine (getRange_accepts hc hf).bind fun range hr => ?_
        obtain ⟨smallest, largest⟩ := range
        refine (getOverlappingInputs_range_accepts hc h 0 hr.1 hr.2).bind fun inputs hi => ?_
        exact (assertThat_notFatal _).bind fun _ _ => hi
      · exact hf
    refine (assertThat_notFatal _).bind fun _ _ => ?_
    refine hinitial.bind fun inputs hi => ?_
    refine (setupOtherInputs_accepts hc h reason.level hi).bind fun files hfiles => ?_
    rintro files' ⟨⟩
    exact hfiles

theorem compactRangeInputs_accepts (level : ℕ) {userBegin userEnd : Option Bytes}
    (hb : ∀ k ∈ userBegin, D k) (he : ∀ k ∈ userEnd, D k) :
    Ensures NotFatal (compactRangeInputs o v level userBegin userEnd)
      fun r => ∀ files ∈ r, files.KeysIn D := by
  have hinputs := Version.getOverlappingInputs_accepts hc h level hb he
  refine hinputs.bind fun inputs hi => ?_
  have hlimited : ∀ (limit total : ℕ) (files : List FileMetaData),
      ∀ f ∈ limitInputs limit total files, f ∈ files := by
    intro limit total files
    induction files generalizing total with
    | nil => simp [limitInputs]
    | cons f files ih =>
      intro g hg
      rw [limitInputs] at hg
      split_ifs at hg
      · exact List.mem_cons.mpr (Or.inl (List.mem_singleton.mp hg))
      · rcases List.mem_cons.mp hg with rfl | hg
        · exact List.mem_cons_self
        · exact List.mem_cons_of_mem _ (ih _ g hg)
  have hdone : ∀ inputs : List FileMetaData, FilesIn D inputs →
      Ensures NotFatal (do return some (← setupOtherInputs o v level inputs))
        fun r => ∀ files ∈ r, files.KeysIn D := by
    intro inputs hi
    refine (setupOtherInputs_accepts hc h level hi).bind fun files hfiles => ?_
    rintro files' ⟨⟩
    exact hfiles
  split_ifs
  · exact fun files hf => by cases hf
  · exact hdone _ (hi.subset (hlimited _ _ _))
  · exact hdone _ hi

end Setup

section Work

variable {o : Options} {D : Bytes → Prop} (hc : o.comparator.AcceptsOn D)

/-- The keys that the state of a compaction refers to. -/
structure CompactionState.KeysIn (D : Bytes → Prop) (st : CompactionState) : Prop where
  currentUserKey : ∀ k ∈ st.currentUserKey, D k
  levelPtrs : ∀ files ∈ st.levelPtrs, FilesIn D files

include hc

theorem advanceLevel_accepts {userKey : Bytes} (hk : D userKey) {files : List FileMetaData}
    (h : FilesIn D files) :
    Ensures NotFatal (advanceLevel o.comparator userKey files) fun r => FilesIn D r.2 := by
  induction files with
  | nil => exact FilesIn.nil
  | cons f files ih =>
    refine (hc.compare _ _ hk h.head.largest).bind fun r _ => ?_
    split_ifs
    · exact (hc.compare _ _ hk h.head.smallest).bind fun _ _ => h
    · exact ih h.tail

theorem isBaseLevelForKey_accepts {userKey : Bytes} (hk : D userKey)
    {levels : List (List FileMetaData)} (h : ∀ files ∈ levels, FilesIn D files) :
    Ensures NotFatal (isBaseLevelForKey o.comparator userKey levels)
      fun r => ∀ files ∈ r.2, FilesIn D files := by
  induction levels with
  | nil => exact h
  | cons files levels ih =>
    have hrest : ∀ files ∈ levels, FilesIn D files :=
      fun files' h' => h files' (List.mem_cons_of_mem _ h')
    refine (advanceLevel_accepts hc hk (h files List.mem_cons_self)).bind fun r hr => ?_
    obtain ⟨inRange, files'⟩ := r
    dsimp only at hr ⊢
    split_ifs
    · intro files'' h''
      rcases List.mem_cons.mp h'' with rfl | h''
      · exact hr
      · exact hrest files'' h''
    · refine (ih hrest).bind fun r hr' => ?_
      intro files'' h''
      rcases List.mem_cons.mp h'' with rfl | h''
      · exact hr
      · exact hr' files'' h''

theorem compactEntry_accepts (smallestSnapshot : ℕ) {key : InternalKey} (hk : D key.userKey)
    {st : CompactionState} (h : st.KeysIn D) :
    Ensures NotFatal (compactEntry o.comparator smallestSnapshot key st) fun r => r.2.KeysIn D := by
  rw [compactEntry, parseInternalKey]
  split_ifs
  · have hfirst : Ensures NotFatal (firstOccurrence o.comparator key.userKey st.currentUserKey)
        fun _ => True := by
      cases hcur : st.currentUserKey with
      | none => trivial
      | some k => exact (hc.compare _ _ hk (h.currentUserKey k hcur)).bind fun _ _ => trivial
    have henter : Ensures NotFatal (enterKey o.comparator key.userKey st)
        (CompactionState.KeysIn D) := by
      refine hfirst.bind fun b _ => ?_
      cases b
      · exact h
      · refine ⟨?_, h.levelPtrs⟩
        rintro k ⟨⟩
        exact hk
    refine henter.bind fun st₁ h₁ => ?_
    have hdrop : Ensures NotFatal (dropEntry o.comparator smallestSnapshot
        ⟨key.userKey, key.sequence, key.type⟩ st₁) fun r => r.2.KeysIn D := by
      rw [dropEntry]
      split_ifs
      · exact h₁
      · refine (isBaseLevelForKey_accepts hc hk h₁.levelPtrs).bind fun r hr => ?_
        exact ⟨h₁.currentUserKey, hr⟩
      · exact h₁
    exact hdrop.bind fun r hr => ⟨hr.currentUserKey, hr.levelPtrs⟩
  · exact ⟨fun k hk => (by cases hk), h.levelPtrs⟩

theorem shouldStopBefore_accepts (limit : ℕ) {key : InternalKey} (hk : D key.userKey)
    {g : GrandparentState} (h : FilesIn D g.rest) :
    Ensures NotFatal (shouldStopBefore o.comparator limit key g) fun r => FilesIn D r.2.rest := by
  have hpass : ∀ (seenKey : Bool) (files : List FileMetaData) (overlapped : ℕ), FilesIn D files →
      Ensures NotFatal (passGrandparents o.comparator key seenKey files overlapped)
        fun r => FilesIn D r.1 := by
    intro seenKey files
    induction files with
    | nil => exact fun overlapped _ => FilesIn.nil
    | cons f files ih =>
      intro overlapped hfiles
      refine (InternalKeyComparator.compare_accepts hc hk hfiles.head.largest).bind fun r _ => ?_
      split_ifs
      · exact ih _ hfiles.tail
      · exact ih _ hfiles.tail
      · exact hfiles
  refine (hpass _ _ _ h).bind fun r hr => ?_
  obtain ⟨rest, overlapped⟩ := r
  dsimp only
  split_ifs
  · exact hr
  · exact hr

/-- The keys of the outputs so far. -/
structure OutputState.KeysIn (D : Bytes → Prop) (out : OutputState) : Prop where
  finished : ∀ group ∈ out.finished, DVELevelDB.KeysIn D group
  current : DVELevelDB.KeysIn D out.current

omit hc in
theorem OutputState.KeysIn.finish {out : OutputState} (h : out.KeysIn D) : out.finish.KeysIn D := by
  unfold OutputState.finish
  split_ifs
  · exact h
  · refine ⟨?_, DVELevelDB.KeysIn.nil⟩
    intro group hg
    rcases List.mem_append.mp hg with hg | hg
    · exact h.finished group hg
    · obtain rfl := List.mem_singleton.mp hg
      exact h.current

omit hc in
theorem OutputState.KeysIn.add {out : OutputState} (h : out.KeysIn D) (full : List Entry → Bool)
    {e : Entry} (he : D e.key.userKey) : (out.add full e).KeysIn D := by
  have hcurrent : DVELevelDB.KeysIn D (out.current ++ [e]) := by
    intro x hx
    rcases List.mem_append.mp hx with hx | hx
    · exact h.current x hx
    · obtain rfl := List.mem_singleton.mp hx
      exact he
  unfold OutputState.add
  split_ifs
  · refine ⟨?_, DVELevelDB.KeysIn.nil⟩
    intro group hg
    rcases List.mem_append.mp hg with hg | hg
    · exact h.finished group hg
    · obtain rfl := List.mem_singleton.mp hg
      exact hcurrent
  · exact ⟨h.finished, hcurrent⟩

theorem outputLoop_accepts (full : List Entry → Bool) (limit smallestSnapshot : ℕ)
    {input : List Entry} (hi : KeysIn D input) {st : CompactionState} (hs : st.KeysIn D)
    {g : GrandparentState} (hg : FilesIn D g.rest) {out : OutputState} (ho : out.KeysIn D) :
    Ensures NotFatal (outputLoop o.comparator full limit smallestSnapshot input st g out)
      fun groups => ∀ group ∈ groups, KeysIn D group := by
  induction input generalizing st g out with
  | nil => exact ho.finish.finished
  | cons e input ih =>
    have he := hi e List.mem_cons_self
    have hrest : KeysIn D input := fun x hx => hi x (List.mem_cons_of_mem _ hx)
    refine (shouldStopBefore_accepts hc limit he hg).bind fun r hr => ?_
    obtain ⟨stop, g'⟩ := r
    have hout : (if stop then out.finish else out).KeysIn D := by
      split_ifs
      · exact ho.finish
      · exact ho
    refine (compactEntry_accepts hc smallestSnapshot he hs).bind fun r' hr' => ?_
    obtain ⟨drop, st'⟩ := r'
    refine ih hrest hr' hr ?_
    cases drop
    · exact hout.add full he
    · exact hout

theorem buildOutputs_accepts (number : ℕ) {groups : List (List Entry)}
    (h : ∀ group ∈ groups, KeysIn D group) :
    Ensures NotFatal (buildOutputs o number groups) (FilesIn D) := by
  induction groups generalizing number with
  | nil => exact FilesIn.nil
  | cons group groups ih =>
    have hrest : ∀ group ∈ groups, KeysIn D group :=
      fun group' h' => h group' (List.mem_cons_of_mem _ h')
    cases group with
    | nil => exact ih number hrest
    | cons first rest =>
      refine (buildTable_accepts hc number (h _ List.mem_cons_self)).bind fun f hf => ?_
      exact (ih (number + 1) hrest).bind fun files hfiles => hfiles.cons hf

end Work

namespace DB

section Background

variable {o : Options} {D : Bytes → Prop} (hc : o.comparator.AcceptsOn D) {db : DB}

include hc

omit hc in
theorem KeysIn.withPointers (h : db.KeysIn D) {pointers : ℕ → Option InternalKey}
    (hp : PointersIn D pointers) : ({ db with compactPointers := pointers } : DB).KeysIn D :=
  ⟨h.mem, h.imm, h.version, hp, h.log, h.oldLogs, h.manifest⟩

theorem logAndApply_accepts (h : db.KeysIn D) (io : CompactionEvent) {edit : VersionEdit}
    (he : edit.KeysIn D) : Ensures NotFatal (logAndApply o io edit db) fun r => r.2.KeysIn D := by
  have hp := h.pointers.setCompactPointers he.pointers
  refine (saveTo_accepts hc he h.version).bind fun version hv => ?_
  split_ifs
  · exact ⟨h.mem, h.imm, hv, hp, h.log, h.oldLogs, h.manifest.append he⟩
  · exact (h.withPointers hp).recordBackgroundError _

theorem compactFiles_accepts (h : db.KeysIn D) (io : CompactionEvent) (level : ℕ)
    {files : CompactionFiles} (hf : files.KeysIn D) :
    Ensures NotFatal (compactFiles o io level files db) fun r => r.2.KeysIn D := by
  have hlists : ∀ {level : ℕ} {files : List FileMetaData}, FilesIn D files →
      ∀ list ∈ inputLists level files, DVELevelDB.KeysIn D list := by
    intro level files hfiles list hl e he
    have hmem : e ∈ (inputLists level files).flatten := List.mem_flatten.mpr ⟨list, hl, he⟩
    obtain ⟨f, hff, hef⟩ := mem_inputLists.mp hmem
    exact (hfiles f hff).entries e hef
  have hinput : Ensures NotFatal (makeInputIterator o.comparator level files)
      (DVELevelDB.KeysIn D) := by
    refine Merge.ensures_merge (P := fun e : Entry => D e.key.userKey) ?_ ?_
    · intro a b ha hb
      exact (InternalKeyComparator.compare_accepts hc ha hb).bind fun _ _ => trivial
    · intro list hl
      rcases List.mem_append.mp hl with hl | hl
      · exact hlists hf.inputs list hl
      · exact hlists hf.parents list hl
  have hgroups : ∀ input : List Entry, DVELevelDB.KeysIn D input →
      Ensures NotFatal (compactEntries o level files input db)
        fun groups => ∀ group ∈ groups, DVELevelDB.KeysIn D group := by
    intro input hi
    refine outputLoop_accepts hc _ _ _ hi ?_ hf.grandparents ?_
    · refine ⟨fun k hk => (by cases hk), ?_⟩
      intro files' h'
      obtain ⟨i, -, rfl⟩ := List.mem_map.mp h'
      exact h.version i
    · exact ⟨fun group hg => absurd hg List.not_mem_nil, DVELevelDB.KeysIn.nil⟩
  have hnumber : ∀ n, ({ db with nextFileNumber := n } : DB).KeysIn D :=
    fun n => ⟨h.mem, h.imm, h.version, h.pointers, h.log, h.oldLogs, h.manifest⟩
  refine (assertThat_notFatal _).bind fun _ _ => ?_
  refine hinput.bind fun input hi => ?_
  cases io.work with
  | some failed =>
    obtain ⟨read, s⟩ := failed
    refine (hgroups _ fun e he => hi e (List.mem_of_mem_take he)).bind fun groups _ => ?_
    exact (hnumber _).recordBackgroundError _
  | none =>
    refine (hgroups input hi).bind fun groups hg => ?_
    refine (buildOutputs_accepts hc _ hg).bind fun outputs houts => ?_
    refine logAndApply_accepts hc (hnumber _) io ⟨?_, fun x hx => ?_⟩
    · intro p hp
      rw [List.mem_singleton.mp hp]
      exact hf.compactPointer
    · obtain ⟨f, hff, rfl⟩ := List.mem_map.mp hx
      exact houts f hff

theorem automaticCompaction_accepts (h : db.KeysIn D) (io : BackgroundEvent) :
    Ensures NotFatal (automaticCompaction o io db) (DB.KeysIn D) := by
  refine (pickCompaction_accepts hc h.version h.pointers _).bind fun r hr => ?_
  cases r with
  | none => exact h
  | some files =>
    have hfiles := hr files rfl
    have hset : (db.setCompactPointer io.reason.level files).KeysIn D :=
      h.withPointers (h.pointers.update _ hfiles.compactPointer)
    have hwork : Ensures NotFatal (automaticWork o io.compaction io.reason.level files
        (db.setCompactPointer io.reason.level files)) fun r => r.2.KeysIn D := by
      rw [automaticWork]
      split_ifs
      · split
        · rename_i f hinputs
          have hf := hfiles.inputs
          rw [hinputs] at hf
          refine logAndApply_accepts hc hset io.compaction ⟨fun p hp => ?_, fun x hx => ?_⟩
          · rw [List.mem_singleton.mp hp]
            exact hfiles.compactPointer
          · rw [List.mem_singleton.mp hx]
            exact hf.head
        · intro h
          cases h
      · exact compactFiles_accepts hc hset io.compaction io.reason.level hfiles
    exact hwork.bind fun r hr => hr

theorem backgroundCall_accepts (h : db.KeysIn D) (io : BackgroundEvent) :
    Ensures NotFatal (backgroundCall o io db) (DB.KeysIn D) := by
  rw [backgroundCall]
  split_ifs
  · split
    · rename_i imm himm
      exact compactImm_accepts hc h io.flush himm
    · exact automaticCompaction_accepts hc h io
  · exact h

theorem backgroundCalls_accepts (h : db.KeysIn D) (ios : List BackgroundEvent) :
    Ensures NotFatal (backgroundCalls o ios db) (DB.KeysIn D) :=
  Stops.ensures_foldlM h fun _ h₁ io _ => backgroundCall_accepts hc h₁ io

omit hc in
theorem KeysIn.switchMemTable (h : db.KeysIn D) : db.switchMemTable.KeysIn D := by
  refine ⟨DVELevelDB.KeysIn.nil, h.mem, h.version, h.pointers,
    fun r hr => absurd hr List.not_mem_nil, ?_, h.manifest⟩
  intro log hlog
  rcases List.mem_append.mp hlog with hlog | hlog
  · exact h.oldLogs log hlog
  · obtain rfl := List.mem_singleton.mp hlog
    exact h.log

theorem makeRoomForWrite_accepts (h : db.KeysIn D) (force allowDelay : Bool)
    (events : List RoomEvent) :
    Ensures NotFatal (makeRoomForWrite o force allowDelay events db) fun r => r.2.KeysIn D := by
  induction events generalizing db force allowDelay with
  | nil =>
    rw [makeRoomForWrite_nil]
    cases roomDecision o force allowDelay db with
    | done s => exact h
    | sleep =>
      intro h
      cases h
    | wait =>
      intro h
      cases h
    | switch =>
      intro h
      cases h
  | cons ev events ih =>
    have hback := backgroundCalls_accepts hc h ev.background
    rw [makeRoomForWrite_cons]
    cases roomDecision o force allowDelay db with
    | done s => exact h
    | sleep => exact hback.bind fun db₁ h₁ => ih h₁ force false
    | wait => exact hback.bind fun db₁ h₁ => ih h₁ force allowDelay
    | switch =>
      dsimp only
      split_ifs
      · exact ih h.switchMemTable false allowDelay
      · exact h

omit hc in
theorem KeysIn.addRecord (h : db.KeysIn D) {record : Bytes} (hr : RecordIn D record) :
    (db.addRecord record).KeysIn D := by
  refine ⟨h.mem, h.imm, h.version, h.pointers, ?_, h.oldLogs, h.manifest⟩
  intro r hmem
  rcases List.mem_append.mp hmem with hmem | hmem
  · exact h.log r hmem
  · obtain rfl := List.mem_singleton.mp hmem
    exact hr

omit hc in
theorem KeysIn.withLastSequence (h : db.KeysIn D) (lastSequence : ℕ) :
    ({ db with lastSequence } : DB).KeysIn D :=
  ⟨h.mem, h.imm, h.version, h.pointers, h.log, h.oldLogs, h.manifest⟩

theorem commit_accepts (h : db.KeysIn D) (append syncFile : Status) (sync : Bool) {b : WriteBatch}
    (hb : ∀ r ∈ b.records, D r.key) :
    Ensures NotFatal (commit o append syncFile sync b db) fun r => r.2.KeysIn D := by
  have hrecords : ∀ r ∈ (b.setSequence (db.lastSequence + 1)).records, D r.key := by
    rw [WriteBatch.records_setSequence]
    exact hb
  have hlogged := h.addRecord hrecords
  unfold commit
  dsimp only
  split_ifs
  · refine (assertThat_notFatal _).bind fun _ _ => ?_
    exact (hlogged.recordBackgroundError _).withLastSequence _
  · refine (insertInto_accepts hc hrecords hlogged.mem).bind fun s hs => ?_
    refine (assertThat_notFatal _).bind fun _ _ => ?_
    exact ⟨hs, hlogged.imm, hlogged.version, hlogged.pointers, hlogged.log, hlogged.oldLogs,
      hlogged.manifest⟩
  · exact (assertThat_notFatal _).bind fun _ _ => h.withLastSequence _

/-- A write compares and keeps the keys of its batch. -/
theorem write_accepts (h : db.KeysIn D) (io : WriteEvents) (sync : Bool)
    {updates : Option WriteBatch} (hu : ∀ b ∈ updates, ∀ r ∈ b.records, D r.key) :
    Ensures NotFatal (db.write o io sync updates) fun r => r.2.2.KeysIn D := by
  refine (makeRoomForWrite_accepts hc h _ _ io.room).bind fun r hr => ?_
  obtain ⟨status, db₁⟩ := r
  cases updates with
  | none => exact hr
  | some b =>
    dsimp only at hr ⊢
    split_ifs
    · exact (commit_accepts hc hr io.append io.sync sync (hu b rfl)).bind fun r hr => hr
    · exact hr

section Manual

variable {userBegin userEnd : Option Bytes} (hb : ∀ k ∈ userBegin, D k) (he : ∀ k ∈ userEnd, D k)

include he

theorem manualCall_accepts (h : db.KeysIn D) (ev : ManualEvent) (level : ℕ)
    (hb : ∀ k ∈ userBegin, D k) :
    Ensures NotFatal (manualCall o ev level userBegin userEnd db) fun r =>
      (∀ k ∈ r.1.join, D k) ∧ r.2.KeysIn D := by
  have hnone : ∀ k ∈ (none : Option (Option Bytes)).join, D k := fun k hk => by cases hk
  rw [manualCall]
  split_ifs
  · refine (compactRangeInputs_accepts hc h.version level hb he).bind fun r hr => ?_
    cases r with
    | none => exact ⟨hnone, h⟩
    | some files =>
      have hfiles := hr files rfl
      have hset : (db.setCompactPointer level files).KeysIn D :=
        h.withPointers (h.pointers.update level hfiles.compactPointer)
      refine (compactFiles_accepts hc hset ev.io.compaction level hfiles).bind fun r hr => ?_
      obtain ⟨s, db₁⟩ := r
      dsimp only
      split_ifs
      · refine ⟨?_, hr⟩
        intro k hk
        obtain ⟨f, hf, rfl⟩ := Option.map_eq_some_iff.mp hk
        exact (hfiles.inputs f (List.mem_of_getLast? hf)).largest
      · exact ⟨hnone, hr⟩
  · exact (backgroundCall_accepts hc h ev.io).bind fun db₁ h₁ => ⟨hb, h₁⟩

theorem manualLoop_accepts (events : List ManualEvent) (h : db.KeysIn D) (level : ℕ)
    (hb : ∀ k ∈ userBegin, D k) :
    Ensures NotFatal (manualLoop o level userEnd events userBegin db) (DB.KeysIn D) := by
  induction events generalizing db userBegin with
  | nil =>
    rw [manualLoop]
    split_ifs
    · intro h
      cases h
    · exact h
  | cons ev events ih =>
    rw [manualLoop]
    split_ifs
    · refine (manualCall_accepts hc he h ev level hb).bind fun r hr => ?_
      obtain ⟨rest, db₁⟩ := r
      cases rest with
      | none => exact hr.2
      | some userBegin' => exact ih hr.2 hr.1
    · exact h

include hb

/-- A manual compaction compares keys of the database and its bounds. -/
theorem compactRange_accepts (h : db.KeysIn D) (io : RangeEvents) :
    Ensures NotFatal (compactRange o io userBegin userEnd db) (DB.KeysIn D) := by
  have hmax : Ensures NotFatal (maxLevelWithFiles o db.version userBegin userEnd)
      fun _ => True := by
    refine Stops.ensures_foldlM trivial fun maxLevel _ level _ => ?_
    exact (Version.overlapInLevel_accepts hc h.version level hb he).bind fun _ _ => trivial
  have hwait : ∀ (ios : List BackgroundEvent) {db : DB}, db.KeysIn D →
      Ensures NotFatal (waitForFlush o ios db) (DB.KeysIn D) := by
    intro ios
    induction ios with
    | nil =>
      intro db h
      rw [waitForFlush]
      split_ifs
      · intro h
        cases h
      · exact h
    | cons io ios ih =>
      intro db h
      rw [waitForFlush]
      split_ifs
      · exact (backgroundCall_accepts hc h io).bind fun db₁ h₁ => ih h₁
      · exact h
  have hflush : Ensures NotFatal (testCompactMemTable o io db) (DB.KeysIn D) := by
    have hwrite : Ensures NotFatal (db.write o io.write false none)
        fun r => r.2.2.KeysIn D := write_accepts hc h io.write false fun b hb => by cases hb
    refine hwrite.bind fun r hr => ?_
    obtain ⟨s, b, db₁⟩ := r
    dsimp only
    split_ifs
    · exact hwait io.background hr
    · exact hr
  refine hmax.bind fun maxLevel _ => ?_
  refine hflush.bind fun db₁ h₁ => ?_
  refine Stops.ensures_foldlM h₁ fun db₂ h₂ level _ => ?_
  refine (assertThat_notFatal _).bind fun _ _ => ?_
  exact manualLoop_accepts hc he (io.levels level) h₂ level hb

end Manual

end Background

end DB

end DVELevelDB
