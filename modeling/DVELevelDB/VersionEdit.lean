import DVELevelDB.TableBuilder

/-! # New versions from edits -/

namespace DVELevelDB

open VersionStore

def totalFileSize (files : List FileMetaData) : ℕ := (files.map (·.fileSize)).sum

/-- The compaction pointers that an edit sets, and the files it adds and deletes, by level. -/
structure VersionEdit where
  compactPointers : List (ℕ × InternalKey) := []
  newFiles : List (ℕ × FileMetaData) := []
  deletedFiles : List (ℕ × ℕ) := []

/-- `Builder::Apply` sets the compaction pointers before the edit is saved. -/
def VersionEdit.setCompactPointers (edit : VersionEdit) (pointers : ℕ → Option InternalKey) :
    ℕ → Option InternalKey :=
  edit.compactPointers.foldl (fun pointers p => Function.update pointers p.1 (some p.2)) pointers

section PointersIn

/-- The user keys of the compaction pointers are in `D`. -/
def PointersIn (D : Bytes → Prop) (pointers : ℕ → Option InternalKey) : Prop :=
  ∀ level, ∀ key ∈ pointers level, D key.userKey

variable {D : Bytes → Prop} {pointers : ℕ → Option InternalKey}

theorem PointersIn.mono {D' : Bytes → Prop} (h : PointersIn D pointers) (hD : ∀ k, D k → D' k) :
    PointersIn D' pointers :=
  fun level key hkey => hD _ (h level key hkey)

theorem PointersIn.update (h : PointersIn D pointers) (level : ℕ) {key : InternalKey}
    (hk : D key.userKey) : PointersIn D (Function.update pointers level (some key)) := by
  intro l key' hkey'
  by_cases hl : l = level
  · rw [hl, Function.update_self] at hkey'
    obtain rfl := Option.mem_some.mp hkey'
    exact hk
  · rw [Function.update_of_ne hl] at hkey'
    exact h l key' hkey'

theorem PointersIn.setCompactPointers (h : PointersIn D pointers) {edit : VersionEdit}
    (hk : ∀ p ∈ edit.compactPointers, D p.2.userKey) :
    PointersIn D (edit.setCompactPointers pointers) := by
  unfold VersionEdit.setCompactPointers
  generalize edit.compactPointers = new at hk
  induction new generalizing pointers with
  | nil => exact h
  | cons p new ih =>
    apply ih (h.update p.1 (hk p List.mem_cons_self))
    exact fun p' h' => hk p' (List.mem_cons_of_mem _ h')

end PointersIn

section Overlaps

variable (c : Comparator)

/-- One pass over a level. A level-0 file that reaches over the range widens it and ends the
pass. -/
def overlappingPass (level : ℕ) (userBegin userEnd : Option Bytes) :
    List FileMetaData → List FileMetaData →
      Exec (List FileMetaData ⊕ (Option Bytes × Option Bytes))
  | inputs, [] => return .inl inputs
  | inputs, f :: files => do
    if ← beginsAfter userBegin f then
      overlappingPass level userBegin userEnd inputs files
    else if ← endsBefore userEnd f then
      overlappingPass level userBegin userEnd inputs files
    else if level = 0 then
      if ← reachesBelow userBegin f then
        return .inr (some f.smallest.userKey, userEnd)
      else if ← reachesAbove userEnd f then
        return .inr (userBegin, some f.largest.userKey)
      else
        overlappingPass level userBegin userEnd (inputs ++ [f]) files
    else
      overlappingPass level userBegin userEnd (inputs ++ [f]) files
where
  test (bound : Option Bytes) (key : Bytes) (o : Ordering) : Exec Bool :=
    match bound with
    | some bound => do return (← c.compare key bound) == o
    | none => return false
  beginsAfter (userBegin : Option Bytes) (f : FileMetaData) := test userBegin f.largest.userKey .lt
  endsBefore (userEnd : Option Bytes) (f : FileMetaData) := test userEnd f.smallest.userKey .gt
  reachesBelow (userBegin : Option Bytes) (f : FileMetaData) :=
    test userBegin f.smallest.userKey .lt
  reachesAbove (userEnd : Option Bytes) (f : FileMetaData) := test userEnd f.largest.userKey .gt

/-- Passes over a level until none widens the range; a range has two ends and a level has
finitely many bounds, so the passes end. -/
def overlappingPasses (level : ℕ) (files : List FileMetaData) :
    ℕ → Option Bytes → Option Bytes → Exec (List FileMetaData)
  | 0, _, _ => return files
  | n + 1, userBegin, userEnd => do
    match ← overlappingPass c level userBegin userEnd [] files with
    | .inl inputs => return inputs
    | .inr (userBegin, userEnd) => overlappingPasses level files n userBegin userEnd

namespace Version

def getOverlappingInputs (v : Version) (level : ℕ) (userBegin userEnd : Option Bytes) :
    Exec (List FileMetaData) := do
  assertThat (level < kNumLevels)
  overlappingPasses c level (v.files level) (2 * (v.files level).length + 1) userBegin userEnd

def overlapInLevel (v : Version) (level : ℕ) (smallest largest : Option Bytes) : Exec Bool :=
  someFileOverlapsRange c (level > 0) (v.files level) smallest largest

end Version

end Overlaps

section PickLevel

variable (o : Options)

/-- The loop of `PickLevelForMemTableOutput`, with the number of levels it may still go down. -/
def pickLevelLoop (v : Version) (smallest largest : Bytes) : ℕ → ℕ → Exec ℕ
  | 0, level => return level
  | n + 1, level => do
    if ← v.overlapInLevel o.comparator (level + 1) (some smallest) (some largest) then
      return level
    else if level + 2 < kNumLevels then
      let overlaps ← v.getOverlappingInputs o.comparator (level + 2) (some smallest) (some largest)
      if totalFileSize overlaps > o.maxGrandParentOverlapBytes then
        return level
      else
        pickLevelLoop v smallest largest n (level + 1)
    else
      pickLevelLoop v smallest largest n (level + 1)

def Version.pickLevelForMemTableOutput (v : Version) (smallest largest : Bytes) : Exec ℕ := do
  if ← v.overlapInLevel o.comparator 0 (some smallest) (some largest) then
    return 0
  else
    pickLevelLoop o v smallest largest kMaxMemCompactLevel 0

end PickLevel

section SaveTo

variable (c : Comparator)

def bySmallestKey (f1 f2 : FileMetaData) : Exec Bool := do
  let r ← InternalKeyComparator.compare c f1.smallest f2.smallest
  return if r ≠ .eq then r = .lt else f1.number < f2.number

/-- A set ordered by `bySmallestKey`. -/
def insertFile (f : FileMetaData) : List FileMetaData → Exec (List FileMetaData)
  | [] => return [f]
  | g :: files => do
    if ← bySmallestKey c f g then
      return f :: g :: files
    else if ← bySmallestKey c g f then
      return g :: (← insertFile f files)
    else
      return g :: files

def maybeAddFile (level : ℕ) (deleted : List ℕ) (files : List FileMetaData) (f : FileMetaData) :
    Exec (List FileMetaData) := do
  if f.number ∈ deleted then
    return files
  else if level > 0 then
    match files.getLast? with
    | some last =>
      assertThat ((← InternalKeyComparator.compare c last.largest f.smallest) = .lt)
      return files ++ [f]
    | none => return files ++ [f]
  else
    return files ++ [f]

/-- Merges the added files of a level into its files. -/
def saveLevel (level : ℕ) (deleted : List ℕ) :
    List FileMetaData → List FileMetaData → List FileMetaData → Exec (List FileMetaData)
  | files, base, [] => base.foldlM (maybeAddFile c level deleted) files
  | files, base, f :: added => do
    let rest ← BinarySearch.search (fun g => do return !(← bySmallestKey c f g)) base
    let files ← (base.take (base.length - rest.length)).foldlM (maybeAddFile c level deleted) files
    let files ← maybeAddFile c level deleted files f
    saveLevel level deleted files rest added

def checkDisjoint : List FileMetaData → Exec Unit
  | f :: g :: files => do
    assertThat ((← InternalKeyComparator.compare c f.largest g.smallest) = .lt)
    checkDisjoint (g :: files)
  | _ => return ()

def saveLevelTo (edit : VersionEdit) (base : Version) (level : ℕ) : Exec (List FileMetaData) := do
  let added ← (edit.newFiles.filter (·.1 = level)).foldlM (fun set f => insertFile c f.2 set) []
  -- adding a file takes its number out of the deleted ones
  let deleted := ((edit.deletedFiles.filter (·.1 = level)).map (·.2)).filter
    fun number => ∀ f ∈ added, f.number ≠ number
  let files ← saveLevel c level deleted [] (base.files level) added
  if level > 0 then checkDisjoint c files
  return files

def saveLevels (edit : VersionEdit) (base : Version) : List ℕ → Exec (List (List FileMetaData))
  | [] => return []
  | level :: levels => do
    return (← saveLevelTo c edit base level) :: (← saveLevels edit base levels)

/-- `Builder::Apply` and `Builder::SaveTo`. -/
def saveTo (edit : VersionEdit) (base : Version) : Exec Version := do
  let levels ← saveLevels c edit base (List.range kNumLevels)
  return ⟨fun level => levels.getD level []⟩

end SaveTo

section PickLevelSpec

variable {κ : Type*} [LinearOrder κ] {c : Comparator} {o : Options} {D : Bytes → Prop}
  {rank : Bytes → κ} {v : Version} {files : List FileMetaData} {smallest largest : Bytes}

/-- No user key between `smallest` and `largest` lies between the bounds of the file. -/
def OutsideFile (rank : Bytes → κ) (smallest largest : Bytes) (f : FileMetaData) : Prop :=
  rank f.largest.userKey < rank smallest ∨ rank largest < rank f.smallest.userKey

/-- No user key lies in both files. -/
def Apart (rank : Bytes → κ) (f g : FileMetaData) : Prop :=
  OutsideFile rank g.smallest.userKey g.largest.userKey f

theorem Apart.symm {rank : Bytes → κ} {f g : FileMetaData} (h : Apart rank f g) :
    Apart rank g f := by
  rcases h with h | h
  · exact Or.inr h
  · exact Or.inl h

instance (rank : Bytes → κ) : Std.Symm (Apart rank) := ⟨fun _ _ => Apart.symm⟩

/-- Below level 0 no two files share a user key; a number names one file. -/
structure Version.Tidy (rank : Bytes → κ) (v : Version) : Prop where
  apart : ∀ level, 0 < level → ∀ f ∈ v.files level, ∀ g ∈ v.files level, f ≠ g → Apart rank f g
  number : ∀ i, ∀ f ∈ v.files i, ∀ j, ∀ g ∈ v.files j, f.number = g.number → i = j ∧ f = g

theorem afterFile_eq (ho : c.OrdersOn D rank) {f : FileMetaData} (hf : f.WellFormed D rank)
    (hk : D smallest) :
    afterFile c (some smallest) f = .ok (decide (rank f.largest.userKey < rank smallest)) := by
  rw [afterFile, ho.compare_eq _ _ hk hf.largest_mem, Stops.ok_bind]
  by_cases h : rank f.largest.userKey < rank smallest
  · rw [(cmp_eq_gt_iff _ _).mpr h, decide_eq_true h]
    rfl
  · rw [beq_false_of_ne (mt (cmp_eq_gt_iff _ _).mp h), decide_eq_false h]
    rfl

theorem beforeFile_eq (ho : c.OrdersOn D rank) {f : FileMetaData} (hf : f.WellFormed D rank)
    (hk : D largest) :
    beforeFile c (some largest) f = .ok (decide (rank largest < rank f.smallest.userKey)) := by
  rw [beforeFile, ho.compare_eq _ _ hk hf.smallest_mem, Stops.ok_bind]
  by_cases h : rank largest < rank f.smallest.userKey
  · rw [(cmp_eq_lt_iff _ _).mpr h, decide_eq_true h]
    rfl
  · rw [beq_false_of_ne (mt (cmp_eq_lt_iff _ _).mp h), decide_eq_false h]
    rfl

theorem overlapsAny_eq (ho : c.OrdersOn D rank) (hs : D smallest) (hl : D largest)
    (hf : ∀ f ∈ files, f.WellFormed D rank) :
    ∃ b, overlapsAny c (some smallest) (some largest) files = .ok b ∧
      (b = false → ∀ f ∈ files, OutsideFile rank smallest largest f) := by
  induction files with
  | nil => exact ⟨false, rfl, by simp⟩
  | cons f files ih =>
    obtain ⟨b, hb, hout⟩ := ih fun f' h' => hf f' (List.mem_cons_of_mem _ h')
    have hw := hf f List.mem_cons_self
    rw [overlapsAny, afterFile_eq ho hw hs, Stops.ok_bind]
    by_cases h1 : rank f.largest.userKey < rank smallest
    · refine ⟨b, by simpa [h1] using hb, fun hfalse f' h' => ?_⟩
      rcases List.mem_cons.mp h' with rfl | h'
      · exact Or.inl h1
      · exact hout hfalse f' h'
    · simp only [h1, decide_false, Bool.false_eq_true, if_false]
      rw [beforeFile_eq ho hw hl, Stops.ok_bind]
      by_cases h2 : rank largest < rank f.smallest.userKey
      · refine ⟨b, by simpa [h2] using hb, fun hfalse f' h' => ?_⟩
        rcases List.mem_cons.mp h' with rfl | h'
        · exact Or.inr h2
        · exact hout hfalse f' h'
      · exact ⟨true, by simp [h2, pure, Except.pure], by simp⟩

theorem mem_levelEntries {e : Entry} {level : ℕ} :
    e ∈ v.levelEntries level ↔ ∃ g ∈ v.files level, e ∈ g.entries := List.mem_flatMap

theorem mem_entries {e : Entry} :
    e ∈ v.entries ↔ ∃ level < kNumLevels, e ∈ v.levelEntries level := by
  rw [Version.entries, List.mem_append, List.mem_flatMap]
  constructor
  · rintro (he | ⟨level, hlevel, he⟩)
    · exact ⟨0, by decide, he⟩
    · rw [Version.deepLevels, List.mem_range'] at hlevel
      exact ⟨level, by simp only [kNumLevels] at *; omega, he⟩
  · rintro ⟨level, hlevel, he⟩
    rcases Nat.eq_zero_or_pos level with rfl | hpos
    · exact Or.inl he
    · refine Or.inr ⟨level, ?_, he⟩
      rw [Version.deepLevels, List.mem_range']
      exact ⟨level - 1, by simp only [kNumLevels] at *; omega, by omega⟩

theorem Version.WellFormed.mem_entries_of_file (h : v.WellFormed D rank) {level : ℕ}
    {f : FileMetaData} (hf : f ∈ v.files level) {e : Entry} (he : e ∈ f.entries) :
    e ∈ v.entries := by
  have hlevel : level < kNumLevels := by
    by_contra hl
    rw [h.levels level hl] at hf
    simp at hf
  exact mem_entries.mpr ⟨level, hlevel, mem_levelEntries.mpr ⟨f, hf, he⟩⟩

/-- Entries carry sequence numbers up to the maximum. -/
def Version.Bounded (v : Version) : Prop :=
  ∀ e ∈ v.entries, e.key.sequence ≤ kMaxSequenceNumber

theorem someFileOverlapsRange_eq (ho : c.OrdersOn D rank) (h : v.WellFormed D rank)
    (hb : v.Bounded) {level : ℕ} (hl : 0 < level) (hs : D smallest) (hlg : D largest) :
    ∃ b, someFileOverlapsRange c true (v.files level) (some smallest) (some largest) = .ok b ∧
      (b = false → ∀ f ∈ v.files level, OutsideFile rank smallest largest f) := by
  let small : InternalKey := ⟨smallest, kMaxSequenceNumber * 256 + kValueTypeForSeek⟩
  have hpack := packSequenceAndType_eq (le_refl kMaxSequenceNumber) (le_refl kValueTypeForSeek)
  -- no stored key is newer than the largest possible tag
  have hbefore : ∀ f ∈ v.files level, KeyBefore rank f.largest small →
      rank f.largest.userKey < rank smallest := by
    intro f hf hkb
    obtain ⟨e, he, hkey⟩ := (h.file level f hf).largest
    have hseq := hb e (h.mem_entries_of_file hf he)
    have htype := ((h.file level f hf).table.sorted.valid e he).type_le
    rw [hkey, InternalKey.sequence_eq] at hseq
    rw [hkey, InternalKey.type_eq] at htype
    rcases hkb with hlt | ⟨-, hlt⟩
    · exact hlt
    · simp only [small, kValueTypeForSeek, kTypeValue] at hlt htype
      omega
  let p : FileMetaData → Bool := fun f => KeyBefore rank f.largest small
  have hfind : findFile c (v.files level) small = .ok ((v.files level).dropWhile p) :=
    Version.findFile_eq ho h hl hs
  have hfiles := List.takeWhile_append_dropWhile (p := p) (l := v.files level)
  have htake : ∀ f ∈ (v.files level).takeWhile p, OutsideFile rank smallest largest f := by
    intro f hf
    have hmem := (List.takeWhile_prefix p).subset hf
    exact Or.inl (hbefore f hmem (of_decide_eq_true (List.mem_takeWhile_imp (p := p) hf)))
  have hdo : someFileOverlapsRange c true (v.files level) (some smallest) (some largest) =
      match (v.files level).dropWhile p with
      | [] => .ok false
      | f :: _ => do return !(← beforeFile c (some largest) f) := by
    simp only [someFileOverlapsRange, if_true, hpack, Stops.ok_bind]
    rw [show findFile c (v.files level) ⟨smallest, kMaxSequenceNumber * 256 + kValueTypeForSeek⟩ = _
      from hfind, Stops.ok_bind]
    cases (v.files level).dropWhile p <;> rfl
  rw [hdo]
  cases hd : (v.files level).dropWhile p with
  | nil =>
    refine ⟨false, rfl, fun _ f hf => htake f ?_⟩
    rw [hd, List.append_nil] at hfiles
    rwa [hfiles]
  | cons g rest =>
    have hg : g ∈ v.files level := (List.dropWhile_suffix _).subset (hd ▸ List.mem_cons_self)
    simp only [beforeFile_eq ho (h.file level g hg) hlg, Stops.ok_bind]
    refine ⟨_, rfl, fun hfalse f hf => ?_⟩
    have hlt : rank largest < rank g.smallest.userKey := by simpa using hfalse
    rw [← hfiles, hd] at hf
    rcases List.mem_append.mp hf with hf | hf
    · exact htake f hf
    rcases List.mem_cons.mp hf with rfl | hf
    · exact Or.inr hlt
    · right
      have hpw := h.files_before hl
      rw [← hfiles, hd] at hpw
      have hgf := (List.pairwise_cons.mp (List.pairwise_append.mp hpw).2.1).1 f hf
      obtain ⟨e, he, hkey⟩ := (h.file level g hg).smallest
      have hmem : f ∈ v.files level := by
        rw [← hfiles, hd]
        exact List.mem_append_right _ (List.mem_cons_of_mem _ hf)
      obtain ⟨e', he', hkey'⟩ := (h.file level f hmem).smallest
      rcases hgf e he e' he' with h' | ⟨h', _⟩
      · simp only [schema_key, hkey, hkey'] at h'
        exact hlt.trans h'
      · simp only [schema_key, hkey, hkey'] at h'
        exact hlt.trans_eq h'

theorem overlapInLevel_eq (ho : c.OrdersOn D rank) (h : v.WellFormed D rank) (hb : v.Bounded)
    (level : ℕ) (hs : D smallest) (hl : D largest) :
    ∃ b, v.overlapInLevel c level (some smallest) (some largest) = .ok b ∧
      (b = false → ∀ f ∈ v.files level, OutsideFile rank smallest largest f) := by
  rw [Version.overlapInLevel]
  by_cases hpos : 0 < level
  · simpa [hpos] using someFileOverlapsRange_eq ho h hb hpos hs hl
  · simpa [hpos, someFileOverlapsRange] using overlapsAny_eq ho hs hl (h.file level)

theorem boundTest_eq (ho : c.OrdersOn D rank) {bound key : Bytes} (hb : D bound) (hk : D key)
    (t : Ordering) : ∃ b, overlappingPass.test c (some bound) key t = .ok b := by
  rw [overlappingPass.test, ho.compare_eq _ _ hk hb]
  exact ⟨_, rfl⟩

/-- Below level 0 one pass is enough. -/
theorem getOverlappingInputs_eq (ho : c.OrdersOn D rank) (h : v.WellFormed D rank) (level : ℕ)
    (hpos : 0 < level) (hlt : level < kNumLevels) (hs : D smallest) (hl : D largest) :
    ∃ inputs, v.getOverlappingInputs c level (some smallest) (some largest) = .ok inputs := by
  have hpass : ∀ files inputs : List FileMetaData, (∀ f ∈ files, f.WellFormed D rank) →
      ∃ inputs', overlappingPass c level (some smallest) (some largest) inputs files =
        .ok (.inl inputs') := by
    intro files
    induction files with
    | nil => exact fun inputs _ => ⟨inputs, rfl⟩
    | cons f files ih =>
      intro inputs hf
      have hw := hf f List.mem_cons_self
      have hrest := fun inputs => ih inputs fun f' h' => hf f' (List.mem_cons_of_mem _ h')
      obtain ⟨b, hb⟩ := boundTest_eq ho hs hw.largest_mem .lt
      obtain ⟨b', hb'⟩ := boundTest_eq ho hl hw.smallest_mem .gt
      rw [overlappingPass, overlappingPass.beginsAfter, hb, Stops.ok_bind]
      cases b
      · simp only [Bool.false_eq_true, if_false]
        rw [overlappingPass.endsBefore, hb', Stops.ok_bind]
        cases b'
        · simpa [Nat.ne_of_gt hpos] using hrest (inputs ++ [f])
        · simpa using hrest inputs
      · simpa using hrest inputs
  obtain ⟨inputs, hinputs⟩ := hpass (v.files level) [] (h.file level)
  refine ⟨inputs, ?_⟩
  simp only [Version.getOverlappingInputs, hlt, decide_true, assertThat_true, Stops.ok_bind,
    overlappingPasses, hinputs]
  rfl

theorem pickLevelLoop_eq (ho : o.comparator.OrdersOn D rank) (h : v.WellFormed D rank)
    (hb : v.Bounded) (hs : D smallest) (hl : D largest) {n level : ℕ}
    (hn : n + level = kMaxMemCompactLevel)
    (hout : ∀ i ≤ level, ∀ f ∈ v.files i, OutsideFile rank smallest largest f) :
    ∃ r, pickLevelLoop o v smallest largest n level = .ok r ∧ r ≤ kMaxMemCompactLevel ∧
      ∀ i ≤ r, ∀ f ∈ v.files i, OutsideFile rank smallest largest f := by
  have hle : level ≤ kMaxMemCompactLevel := by omega
  induction n generalizing level with
  | zero => exact ⟨level, rfl, hle, hout⟩
  | succ n ih =>
    obtain ⟨b, hov, hfree⟩ := overlapInLevel_eq ho h hb (level + 1) hs hl
    rw [pickLevelLoop, hov, Stops.ok_bind]
    cases b with
    | true => exact ⟨level, rfl, hle, hout⟩
    | false =>
      have hlevels : level + 2 < kNumLevels := by
        simp only [kMaxMemCompactLevel, kNumLevels] at *
        omega
      have hout' : ∀ i ≤ level + 1, ∀ f ∈ v.files i, OutsideFile rank smallest largest f := by
        intro i hi
        rcases Nat.lt_or_eq_of_le hi with hi | rfl
        · exact hout i (Nat.lt_succ_iff.mp hi)
        · exact hfree rfl
      obtain ⟨inputs, hinputs⟩ :=
        getOverlappingInputs_eq ho h (level + 2) (by omega) hlevels hs hl
      simp only [Bool.false_eq_true, if_false, hlevels, if_true, hinputs, Stops.ok_bind]
      split_ifs
      · exact ⟨level, rfl, hle, hout⟩
      · exact ih (by omega) hout' (by omega)

/-- A memtable goes to a level below 0 only past levels it does not overlap. -/
theorem pickLevel_eq (ho : o.comparator.OrdersOn D rank) (h : v.WellFormed D rank)
    (hb : v.Bounded) (hs : D smallest) (hl : D largest) :
    ∃ r, v.pickLevelForMemTableOutput o smallest largest = .ok r ∧ r ≤ kMaxMemCompactLevel ∧
      (0 < r → ∀ i ≤ r, ∀ f ∈ v.files i, OutsideFile rank smallest largest f) := by
  obtain ⟨b, hov, hfree⟩ := overlapInLevel_eq ho h hb 0 hs hl
  rw [Version.pickLevelForMemTableOutput, hov, Stops.ok_bind]
  cases b with
  | true => exact ⟨0, rfl, Nat.zero_le _, fun h0 => absurd h0 (lt_irrefl 0)⟩
  | false =>
    have hzero : ∀ i ≤ 0, ∀ f ∈ v.files i, OutsideFile rank smallest largest f := by
      intro i hi
      rw [Nat.le_zero.mp hi]
      exact hfree rfl
    obtain ⟨r, hr, hle, hout⟩ := pickLevelLoop_eq (n := kMaxMemCompactLevel) ho h hb hs hl rfl hzero
    exact ⟨r, by simpa using hr, hle, fun _ => hout⟩

end PickLevelSpec

section SaveToSpec

variable {κ : Type*} [LinearOrder κ] {c : Comparator} {D : Bytes → Prop} {rank : Bytes → κ}
  {v : Version} {f g : FileMetaData} {files : List FileMetaData} {level : ℕ}

theorem bySmallestKey_eq (ho : c.OrdersOn D rank) (hf : f.WellFormed D rank)
    (hg : g.WellFormed D rank) : bySmallestKey c f g =
      .ok (KeyBefore rank f.smallest g.smallest ∨
        ¬ KeyBefore rank g.smallest f.smallest ∧ f.number < g.number) := by
  rw [bySmallestKey, InternalKeyComparator.compare_eq ho hf.smallest_mem hg.smallest_mem,
    Stops.ok_bind]
  by_cases h1 : KeyBefore rank f.smallest g.smallest
  · simp [h1, pure, Except.pure]
  · by_cases h2 : KeyBefore rank g.smallest f.smallest <;> simp [h1, h2, pure, Except.pure]

/-- The files of a level below 0 follow one another. -/
def Chain (rank : Bytes → κ) (files : List FileMetaData) : Prop :=
  files.Pairwise fun f g => KeyBefore rank f.largest g.smallest

theorem foldlM_maybeAddFile_deleted (level : ℕ) (deleted : List ℕ) (files more : List FileMetaData)
    (ho : c.OrdersOn D rank) (hf : ∀ f ∈ files ++ more, f.WellFormed D rank)
    (hchain : 0 < level → Chain rank (files ++ more.filter fun f => f.number ∉ deleted)) :
    more.foldlM (maybeAddFile c level deleted) files =
      .ok (files ++ more.filter fun f => f.number ∉ deleted) := by
  induction more generalizing files with
  | nil => simp [pure, Except.pure]
  | cons f more ih =>
    by_cases hdel : f.number ∈ deleted
    · have hstep : maybeAddFile c level deleted files f = .ok files := by
        rw [maybeAddFile, if_pos hdel]
        rfl
      have hfilter : (f :: more).filter (fun f => f.number ∉ deleted) =
          more.filter fun f => f.number ∉ deleted := by simp [hdel]
      rw [hfilter] at hchain ⊢
      rw [List.foldlM_cons, hstep, Stops.ok_bind]
      exact ih files (fun g hg => hf g (by simp at hg ⊢; tauto)) hchain
    · have hfilter : files ++ (f :: more).filter (fun f => f.number ∉ deleted) =
          (files ++ [f]) ++ more.filter fun f => f.number ∉ deleted := by simp [hdel]
      rw [hfilter] at hchain ⊢
      have hstep : maybeAddFile c level deleted files f = .ok (files ++ [f]) := by
        rw [maybeAddFile, if_neg hdel]
        split_ifs with hpos
        · cases hlast : files.getLast? with
          | none => rfl
          | some last =>
            have hmem := List.mem_of_getLast? hlast
            have hpair := (List.pairwise_append.mp (hchain hpos)).1
            have hlt := (List.pairwise_append.mp hpair).2.2 last hmem f (List.mem_singleton_self f)
            have hcmp := (InternalKeyComparator.compare_lt ho
              (hf last (List.mem_append_left _ hmem)).largest_mem
              (hf f (by simp)).smallest_mem).mpr hlt
            simp only [hcmp, Stops.ok_bind]
            rfl
        · rfl
      rw [List.foldlM_cons, hstep, Stops.ok_bind]
      exact ih _ (fun g hg => hf g (by simpa using hg)) hchain

theorem foldlM_maybeAddFile (level : ℕ) (files more : List FileMetaData) (ho : c.OrdersOn D rank)
    (hf : ∀ f ∈ files ++ more, f.WellFormed D rank)
    (hchain : 0 < level → Chain rank (files ++ more)) :
    more.foldlM (maybeAddFile c level []) files = .ok (files ++ more) := by
  have hall : more.filter (fun f => f.number ∉ ([] : List ℕ)) = more := by simp
  have heq := foldlM_maybeAddFile_deleted level [] files more ho hf
  rw [hall] at heq
  exact heq hchain

theorem checkDisjoint_eq (ho : c.OrdersOn D rank) (hf : ∀ f ∈ files, f.WellFormed D rank)
    (hchain : Chain rank files) : checkDisjoint c files = .ok () := by
  induction files with
  | nil => rfl
  | cons f files ih =>
    cases files with
    | nil => rfl
    | cons g files =>
      obtain ⟨hfg, hrest⟩ := List.pairwise_cons.mp hchain
      have hcmp := (InternalKeyComparator.compare_lt ho (hf f (by simp)).largest_mem
        (hf g (by simp)).smallest_mem).mpr (hfg g List.mem_cons_self)
      rw [checkDisjoint, hcmp, Stops.ok_bind]
      exact ih (fun f' h' => hf f' (List.mem_cons_of_mem _ h')) hrest

theorem Version.WellFormed.chain (h : v.WellFormed D rank) (hl : 0 < level) :
    Chain rank (v.files level) := by
  refine (h.files_before hl).imp_of_mem fun {f g} hf hg hfg => ?_
  obtain ⟨e, he, hkey⟩ := (h.file level f hf).largest
  obtain ⟨e', he', hkey'⟩ := (h.file level g hg).smallest
  have := keyBefore_of_before (hfg e he e' he')
  rwa [hkey, hkey'] at this

theorem saveLevelTo_unchanged (ho : c.OrdersOn D rank) (h : v.WellFormed D rank)
    (edit : VersionEdit) (hnew : edit.newFiles.filter (·.1 = level) = [])
    (hdel : edit.deletedFiles = []) : saveLevelTo c edit v level = .ok (v.files level) := by
  have hsave := foldlM_maybeAddFile level [] (v.files level) ho (h.file level) h.chain
  rw [saveLevelTo, hnew, hdel]
  simp only [List.foldlM_nil, List.filter_nil, List.map_nil]
  rw [show (pure [] : Exec (List FileMetaData)) = .ok [] from rfl, Stops.ok_bind, saveLevel, hsave,
    Stops.ok_bind, List.nil_append]
  split_ifs with hpos
  · rw [checkDisjoint_eq ho (h.file level) (h.chain hpos)]
    rfl
  · rfl

theorem FileMetaData.WellFormed.smallest_le (h : f.WellFormed D rank) :
    rank f.smallest.userKey ≤ rank f.largest.userKey := by
  obtain ⟨e, he, hkey⟩ := h.largest
  exact hkey ▸ h.lower e he

theorem FileMetaData.WellFormed.not_largest_before (h : f.WellFormed D rank) :
    ¬ KeyBefore rank f.largest f.smallest := by
  obtain ⟨e, he, hkey⟩ := h.smallest
  exact hkey ▸ h.upper e he

theorem chain_insert (hf : f.WellFormed D rank) (hg : ∀ g ∈ files, g.WellFormed D rank)
    (hchain : Chain rank files)
    (hout : ∀ g ∈ files, OutsideFile rank f.smallest.userKey f.largest.userKey g)
    {p : FileMetaData → Bool} (hp : ∀ g ∈ files, p g = true ↔
      ¬ (KeyBefore rank f.smallest g.smallest ∨
        ¬ KeyBefore rank g.smallest f.smallest ∧ f.number < g.number)) :
    BinarySearch.Split p files ∧ Chain rank (files.takeWhile p ++ f :: files.dropWhile p) := by
  have hbefore : ∀ g ∈ files, p g = true ↔ rank g.largest.userKey < rank f.smallest.userKey := by
    intro g hmem
    rw [hp g hmem]
    have hgw := hg g hmem
    rcases hout g hmem with hlt | hlt
    · have hb : KeyBefore rank g.smallest f.smallest := Or.inl (hgw.smallest_le.trans_lt hlt)
      have hnot := hb.asymm
      tauto
    · have hb : KeyBefore rank f.smallest g.smallest := Or.inl (hf.smallest_le.trans_lt hlt)
      have hle : ¬ rank g.largest.userKey < rank f.smallest.userKey :=
        not_lt.mpr ((hf.smallest_le.trans hlt.le).trans hgw.smallest_le)
      tauto
  refine ⟨hchain.imp_of_mem fun {a b} ha hb hab hpb => ?_, ?_⟩
  · have hblt := (hbefore b hb).mp hpb
    rw [hbefore a ha]
    have hle : rank a.largest.userKey ≤ rank b.smallest.userKey := by
      rcases hab with h' | ⟨h', _⟩
      · exact h'.le
      · exact h'.le
    exact (hle.trans (hg b hb).smallest_le).trans_lt hblt
  · have hsplit : Chain rank (files.takeWhile p ++ files.dropWhile p) := by
      rwa [List.takeWhile_append_dropWhile]
    obtain ⟨hl, hr, hlr⟩ := List.pairwise_append.mp hsplit
    have hleft : ∀ a ∈ files.takeWhile p, KeyBefore rank a.largest f.smallest := fun a ha =>
      Or.inl ((hbefore a ((List.takeWhile_prefix p).subset ha)).mp (List.mem_takeWhile_imp ha))
    have hright : ∀ b ∈ files.dropWhile p, KeyBefore rank f.largest b.smallest := by
      cases hd : files.dropWhile p with
      | nil => simp
      | cons y rest =>
        have hy : y ∈ files := (List.dropWhile_suffix p).subset (hd ▸ List.mem_cons_self)
        have hnp : ¬ p y = true := by
          have := List.head?_dropWhile_not p files
          rw [hd] at this
          simpa using this
        rw [hbefore y hy] at hnp
        have hfy : KeyBefore rank f.largest y.smallest := Or.inl ((hout y hy).resolve_left hnp)
        intro b hb
        rcases List.mem_cons.mp hb with rfl | hb
        · exact hfy
        · have hyb := (List.pairwise_cons.mp (hd ▸ hr)).1 b hb
          exact hfy.trans (KeyBefore.of_not_before (hg y hy).not_largest_before hyb)
    refine List.pairwise_append.mpr ⟨hl, List.pairwise_cons.mpr ⟨hright, hr⟩, ?_⟩
    intro a ha b hb
    rcases List.mem_cons.mp hb with rfl | hb
    · exact hleft a ha
    · exact hlr a ha b hb

theorem saveLevelTo_add (level : ℕ) (ho : c.OrdersOn D rank) (h : v.WellFormed D rank)
    (hf : f.WellFormed D rank)
    (hout : 0 < level → ∀ g ∈ v.files level,
      OutsideFile rank f.smallest.userKey f.largest.userKey g) :
    ∃ A B, saveLevelTo c { newFiles := [(level, f)] } v level = .ok (A ++ f :: B) ∧
      v.files level = A ++ B ∧ (0 < level → Chain rank (A ++ f :: B)) := by
  let p : FileMetaData → Bool := fun g => ! (KeyBefore rank f.smallest g.smallest ∨
    ¬ KeyBefore rank g.smallest f.smallest ∧ f.number < g.number : Bool)
  have htest : ∀ g ∈ v.files level, (do return !(← bySmallestKey c f g) : Exec Bool) = .ok (p g) := by
    intro g hg
    rw [bySmallestKey_eq ho hf (h.file level g hg)]
    rfl
  obtain ⟨rest, hsearch, hsuffix, hchain⟩ : ∃ rest,
      BinarySearch.search (fun g => do return !(← bySmallestKey c f g)) (v.files level) =
        .ok rest ∧ rest <:+ v.files level ∧ (0 < level → Chain rank
          ((v.files level).take ((v.files level).length - rest.length) ++ f :: rest)) := by
    by_cases hpos : 0 < level
    · obtain ⟨hs, hchain⟩ := chain_insert (p := p) hf (h.file level) (h.chain hpos) (hout hpos)
        fun g _ => by simp only [p, Bool.not_eq_true', decide_eq_false_iff_not]
      refine ⟨_, BinarySearch.search_eq htest hs, List.dropWhile_suffix p, fun _ => ?_⟩
      have htake := (List.suffix_iff_eq_append.mp (List.dropWhile_suffix (l := v.files level) p))
      have hsplit := List.takeWhile_append_dropWhile (p := p) (l := v.files level)
      rw [List.append_cancel_right (htake.trans hsplit.symm)]
      exact hchain
    · obtain ⟨rest, hr, hsuf⟩ := BinarySearch.search_suffix fun g hg => ⟨_, htest g hg⟩
      exact ⟨rest, hr, hsuf, fun h' => absurd h' hpos⟩
  have hAB := List.suffix_iff_eq_append.mp hsuffix
  let A := (v.files level).take ((v.files level).length - rest.length)
  have hw : ∀ g ∈ (A ++ [f]) ++ rest, g.WellFormed D rank := by
    intro g hg
    rw [List.append_assoc, List.singleton_append, List.mem_append, List.mem_cons] at hg
    rcases hg with hg | rfl | hg
    · exact h.file level g (List.mem_of_mem_take hg)
    · exact hf
    · exact h.file level g (hsuffix.subset hg)
  have hchain' : 0 < level → Chain rank ((A ++ [f]) ++ rest) := by simpa using hchain
  have hA := foldlM_maybeAddFile level [] A ho
    (fun g hg => hw g (by simp at hg ⊢; exact Or.inl hg))
    fun hpos => (hchain' hpos).sublist (by simp)
  have hAf := foldlM_maybeAddFile level A [f] ho
    (fun g hg => hw g (List.mem_append_left _ hg))
    fun hpos => (hchain' hpos).sublist (List.sublist_append_left ..)
  have hall := foldlM_maybeAddFile level (A ++ [f]) rest ho hw hchain'
  rw [List.foldlM_cons] at hAf
  have hstep : maybeAddFile c level [] A f = .ok (A ++ [f]) := by
    cases hm : maybeAddFile c level [] A f with
    | ok r => rw [hm] at hAf; exact hAf
    | error t => rw [hm] at hAf; cases hAf
  refine ⟨A, rest, ?_, hAB.symm, hchain⟩
  have hadded : ([(level, f)].filter (fun x => decide (x.1 = level))).foldlM
      (fun set x => insertFile c x.2 set) [] = .ok [f] := by
    simp [insertFile, pure, Except.pure]
  rw [saveLevelTo, hadded]
  simp only [Stops.ok_bind, List.filter_nil, List.map_nil, saveLevel]
  rw [hsearch, Stops.ok_bind, hA, Stops.ok_bind, List.nil_append, hstep, Stops.ok_bind, hall,
    Stops.ok_bind]
  have happ : (A ++ [f]) ++ rest = A ++ f :: rest := by simp
  split_ifs with hpos
  · rw [checkDisjoint_eq ho hw (hchain' hpos), Stops.ok_bind, happ]
    rfl
  · rw [happ]
    rfl

theorem saveLevels_eq {edit : VersionEdit} (files : ℕ → List FileMetaData) (levels : List ℕ)
    (hl : ∀ level ∈ levels, saveLevelTo c edit v level = .ok (files level)) :
    saveLevels c edit v levels = .ok (levels.map files) := by
  induction levels with
  | nil => rfl
  | cons level levels ih =>
    rw [saveLevels, hl level List.mem_cons_self, Stops.ok_bind,
      ih fun l hl' => hl l (List.mem_cons_of_mem _ hl')]
    rfl

theorem files_before_insert (hf : f.WellFormed D rank) (h : v.WellFormed D rank) (hl : 0 < level)
    {A B : List FileMetaData} (hAB : v.files level = A ++ B) (hchain : Chain rank (A ++ f :: B))
    (hout : ∀ g ∈ v.files level, OutsideFile rank f.smallest.userKey f.largest.userKey g) :
    (A ++ f :: B).Pairwise fun f g =>
      ∀ e ∈ f.entries, ∀ e' ∈ g.entries, (schema rank).Before e e' := by
  have hold := h.files_before hl
  rw [hAB] at hold hout
  obtain ⟨hA, hB, hcross⟩ := List.pairwise_append.mp hold
  have hw : ∀ g ∈ A ++ B, g.WellFormed D rank := fun g hg => h.file level g (hAB ▸ hg)
  obtain ⟨-, hfB, hAf⟩ := List.pairwise_append.mp hchain
  have hleft : ∀ a ∈ A, ∀ e ∈ a.entries, ∀ e' ∈ f.entries, (schema rank).Before e e' := by
    intro a ha e he e' he'
    have haw := hw a (List.mem_append_left _ ha)
    have hlt : rank a.largest.userKey < rank f.smallest.userKey := by
      rcases hout a (List.mem_append_left _ ha) with hlt | hlt
      · exact hlt
      · have hb : KeyBefore rank f.smallest a.largest :=
          Or.inl ((hf.smallest_le.trans_lt hlt).trans_le haw.smallest_le)
        exact absurd (hAf a ha f List.mem_cons_self) hb.asymm
    exact Or.inl (((haw.rank_le_largest he).trans_lt hlt).trans_le (hf.lower e' he'))
  have hright : ∀ b ∈ B, ∀ e ∈ f.entries, ∀ e' ∈ b.entries, (schema rank).Before e e' := by
    intro b hb e he e' he'
    have hbw := hw b (List.mem_append_right _ hb)
    have hlt : rank f.largest.userKey < rank b.smallest.userKey := by
      rcases hout b (List.mem_append_right _ hb) with hlt | hlt
      · have hb' : KeyBefore rank b.smallest f.largest :=
          Or.inl ((hbw.smallest_le.trans_lt hlt).trans_le hf.smallest_le)
        exact absurd ((List.pairwise_cons.mp hfB).1 b hb) hb'.asymm
      · exact hlt
    exact Or.inl (((hf.rank_le_largest he).trans_lt hlt).trans_le (hbw.lower e' he'))
  refine List.pairwise_append.mpr ⟨hA, List.pairwise_cons.mpr ⟨hright, hB⟩, ?_⟩
  intro a ha b hb
  rcases List.mem_cons.mp hb with rfl | hb
  · exact hleft a ha
  · exact hcross a ha b hb

/-- `f` has joined a level of the version. -/
structure Added (rank : Bytes → κ) (v : Version) (level : ℕ) (f : FileMetaData) (v' : Version) :
    Prop where
  level_lt : level < kNumLevels
  place : ∃ A B, v.files level = A ++ B ∧ v'.files level = A ++ f :: B ∧
    (0 < level → Chain rank (A ++ f :: B))
  rest : ∀ i, i ≠ level → v'.files i = v.files i

namespace Added

variable {v' : Version}

theorem mem_files (ha : Added rank v level f v') {i : ℕ} {x : FileMetaData} :
    x ∈ v'.files i ↔ (i = level ∧ x = f) ∨ x ∈ v.files i := by
  by_cases hi : i = level
  · subst hi
    obtain ⟨A, B, hAB, hfiles, -⟩ := ha.place
    rw [hAB, hfiles]
    simp only [List.mem_append, List.mem_cons]
    tauto
  · rw [ha.rest i hi]
    simp [hi]

theorem mem_levelEntries (ha : Added rank v level f v') {i : ℕ} {e : Entry} :
    e ∈ v'.levelEntries i ↔ (i = level ∧ e ∈ f.entries) ∨ e ∈ v.levelEntries i := by
  simp only [DVELevelDB.mem_levelEntries, ha.mem_files]
  constructor
  · rintro ⟨x, ⟨hi, rfl⟩ | hx, he⟩
    · exact Or.inl ⟨hi, he⟩
    · exact Or.inr ⟨x, hx, he⟩
  · rintro (⟨hi, he⟩ | ⟨x, hx, he⟩)
    · exact ⟨f, Or.inl ⟨hi, rfl⟩, he⟩
    · exact ⟨x, Or.inr hx, he⟩

theorem mem_entries (ha : Added rank v level f v') {e : Entry} :
    e ∈ v'.entries ↔ e ∈ f.entries ∨ e ∈ v.entries := by
  simp only [DVELevelDB.mem_entries, ha.mem_levelEntries]
  constructor
  · rintro ⟨i, hi, ⟨-, he⟩ | he⟩
    · exact Or.inl he
    · exact Or.inr ⟨i, hi, he⟩
  · rintro (he | ⟨i, hi, he⟩)
    · exact ⟨level, ha.level_lt, Or.inl ⟨rfl, he⟩⟩
    · exact ⟨i, hi, Or.inr he⟩

theorem level_sorted (ha : Added rank v level f v') (h : v.WellFormed D rank)
    (hf : f.WellFormed D rank) (hl : 0 < level)
    (hout : ∀ g ∈ v.files level, OutsideFile rank f.smallest.userKey f.largest.userKey g) :
    Sorted D rank (v'.levelEntries level) := by
  have hfile : ∀ g ∈ v'.files level, g.WellFormed D rank := by
    intro g hg
    rcases ha.mem_files.mp hg with ⟨-, rfl⟩ | hg
    · exact hf
    · exact h.file level g hg
  obtain ⟨A, B, hAB, hfiles, hchain⟩ := ha.place
  have hordered := files_before_insert hf h hl hAB (hchain hl) hout
  constructor
  · rw [Version.levelEntries, hfiles, List.flatMap_def, List.pairwise_flatten, List.pairwise_map]
    refine ⟨fun L hL => ?_, hordered⟩
    obtain ⟨g, hg, rfl⟩ := List.mem_map.mp hL
    exact (hfile g (hfiles ▸ hg)).table.sorted.pairwise
  · intro e he
    obtain ⟨g, hg, heg⟩ := DVELevelDB.mem_levelEntries.mp he
    exact (hfile g hg).table.sorted.valid e heg

theorem number (ha : Added rank v level f v')
    (hnew : (v.files 0).Pairwise fun f g => f.number ≠ g.number)
    (hnumber : ∀ g ∈ v.files 0, g.number < f.number) :
    (v'.files 0).Pairwise fun f g => f.number ≠ g.number := by
  by_cases hl : level = 0
  · subst hl
    obtain ⟨A, B, hAB, hfiles, -⟩ := ha.place
    have hperm : (A ++ f :: B).Perm (f :: v.files 0) := hAB ▸ List.perm_middle
    rw [hfiles]
    refine (hperm.pairwise_iff fun hne => hne.symm).mpr (List.pairwise_cons.mpr ⟨?_, hnew⟩)
    exact fun g hg => (hnumber g hg).ne'
  · rwa [ha.rest 0 (Ne.symm hl)]

/-- A file is above the deeper levels when it is new and lies beside everything above it. -/
theorem newer_level (ha : Added rank v level f v') (h : v.WellFormed D rank)
    (hf : f.WellFormed D rank) (hnew : (schema rank).Above f.entries v.entries)
    (hout : ∀ i < level, ∀ g ∈ v.files i,
      OutsideFile rank f.smallest.userKey f.largest.userKey g) {i j : ℕ} (hij : i < j) :
    (schema rank).Above (v'.levelEntries i) (v'.levelEntries j) := by
  intro a hai b hbj hkey
  rcases ha.mem_levelEntries.mp hai with ⟨hi, haf⟩ | ha' <;>
    rcases ha.mem_levelEntries.mp hbj with ⟨hj, hbf⟩ | hb'
  · omega
  · have hjlt : j < kNumLevels := by
      by_contra hj
      rw [Version.levelEntries, h.levels j hj] at hb'
      exact absurd hb' List.not_mem_nil
    exact hnew a haf b (DVELevelDB.mem_entries.mpr ⟨j, hjlt, hb'⟩) hkey
  · subst hj
    obtain ⟨g, hg, hag⟩ := DVELevelDB.mem_levelEntries.mp ha'
    have hgw := h.file i g hg
    simp only [schema_key] at hkey
    rcases hout i hij g hg with hlt | hlt
    · have hle := hf.lower b hbf
      exact absurd (hle.trans (hkey ▸ hgw.rank_le_largest hag)) (not_le.mpr hlt)
    · have hle := hf.rank_le_largest hbf
      exact absurd ((hkey ▸ hgw.lower a hag).trans hle) (not_le.mpr hlt)
  · exact h.newer_level i j hij a ha' b hb' hkey

theorem wellFormed (ha : Added rank v level f v') (h : v.WellFormed D rank)
    (hf : f.WellFormed D rank) (hnumber : ∀ g ∈ v.files 0, g.number < f.number)
    (hnew : (schema rank).Above f.entries v.entries)
    (hout : 0 < level → ∀ i ≤ level, ∀ g ∈ v.files i,
      OutsideFile rank f.smallest.userKey f.largest.userKey g) : v'.WellFormed D rank where
  file i x hx := by
    rcases ha.mem_files.mp hx with ⟨-, rfl⟩ | hx
    · exact hf
    · exact h.file i x hx
  levels i hi := by
    have hlt := ha.level_lt
    rw [ha.rest i (by omega), h.levels i hi]
  level_sorted i hi := by
    by_cases hil : i = level
    · subst hil
      exact ha.level_sorted h hf hi (hout hi i le_rfl)
    · rw [Version.levelEntries, ha.rest i hil]
      exact h.level_sorted i hi
  number := ha.number h.number hnumber
  newer_file x hx y hy hlt := by
    rcases ha.mem_files.mp hx with ⟨-, rfl⟩ | hx <;> rcases ha.mem_files.mp hy with ⟨-, rfl⟩ | hy
    · exact absurd hlt (lt_irrefl _)
    · intro a hax b hby
      exact hnew a hax b (h.mem_entries_of_file hy hby)
    · exact absurd hlt (hnumber x hx).le.not_gt
    · exact h.newer_file x hx y hy hlt
  newer_level i j hij :=
    ha.newer_level h hf hnew (fun i' hi' => hout (by omega) i' hi'.le) hij

end Added

/-- Adding a table that is newer than all others, at a level down to which it overlaps no
file, keeps a version well-formed. -/
theorem saveTo_add (ho : c.OrdersOn D rank) (h : v.WellFormed D rank) (hf : f.WellFormed D rank)
    (hlevel : level < kNumLevels) (hnumber : ∀ g ∈ v.files 0, g.number < f.number)
    (hnew : (schema rank).Above f.entries v.entries)
    (hout : 0 < level → ∀ i ≤ level, ∀ g ∈ v.files i,
      OutsideFile rank f.smallest.userKey f.largest.userKey g) :
    ∃ v', saveTo c { newFiles := [(level, f)] } v = .ok v' ∧ v'.WellFormed D rank ∧
      (∀ i, ∀ g ∈ v'.files i, (i = level ∧ g = f) ∨ g ∈ v.files i) ∧
      ∀ e, e ∈ v'.entries ↔ e ∈ f.entries ∨ e ∈ v.entries := by
  obtain ⟨A, B, hadd, hAB, hchain⟩ :=
    saveLevelTo_add level ho h hf fun hpos => hout hpos level le_rfl
  let files : ℕ → List FileMetaData := fun i => if i = level then A ++ f :: B else v.files i
  have hsave : ∀ i ∈ List.range kNumLevels,
      saveLevelTo c { newFiles := [(level, f)] } v i = .ok (files i) := by
    intro i _
    by_cases hi : i = level
    · subst hi
      simpa [files] using hadd
    · simp only [files, if_neg hi]
      exact saveLevelTo_unchanged ho h _ (by simp [Ne.symm hi]) rfl
  let v' : Version := ⟨fun i => ((List.range kNumLevels).map files).getD i []⟩
  have hfiles : ∀ i < kNumLevels, v'.files i = files i := by
    intro i hi
    simp only [v', List.getD_eq_getElem?_getD, List.getElem?_map]
    rw [List.getElem?_range hi]
    rfl
  have hadded : Added rank v level f v' := by
    refine ⟨hlevel, ⟨A, B, hAB, ?_, hchain⟩, ?_⟩
    · rw [hfiles level hlevel]
      exact if_pos rfl
    · intro i hi
      by_cases hlt : i < kNumLevels
      · rw [hfiles i hlt]
        exact if_neg hi
      · simp only [v', List.getD_eq_getElem?_getD, List.getElem?_map]
        rw [List.getElem?_eq_none (by simpa using hlt), h.levels i hlt]
        rfl
  refine ⟨v', ?_, hadded.wellFormed h hf hnumber hnew hout, fun i g hg => hadded.mem_files.mp hg,
    fun e => hadded.mem_entries⟩
  rw [saveTo, saveLevels_eq files _ hsave]
  rfl

theorem Version.Tidy.of_files {v' : Version} (ht : v.Tidy rank)
    (hfiles : ∀ i, ∀ g ∈ v'.files i, g ∈ v.files i) : v'.Tidy rank := by
  constructor
  · intro i hpos x hx y hy
    exact ht.apart i hpos x (hfiles i x hx) y (hfiles i y hy)
  · intro i x hx j y hy
    exact ht.number i x (hfiles i x hx) j y (hfiles j y hy)

theorem Version.Tidy.add {v' : Version} (ht : v.Tidy rank)
    (hnumber : ∀ i, ∀ g ∈ v.files i, g.number ≠ f.number)
    (hout : 0 < level → ∀ g ∈ v.files level, Apart rank g f)
    (hfiles : ∀ i, ∀ g ∈ v'.files i, (i = level ∧ g = f) ∨ g ∈ v.files i) : v'.Tidy rank := by
  constructor
  · intro i hpos x hx y hy hne
    rcases hfiles i x hx with ⟨hi, rfl⟩ | hx <;> rcases hfiles i y hy with ⟨hj, rfl⟩ | hy
    · exact absurd rfl hne
    · subst hi
      exact (hout hpos y hy).symm
    · subst hj
      exact hout hpos x hx
    · exact ht.apart i hpos x hx y hy hne
  · intro i x hx j y hy hn
    rcases hfiles i x hx with ⟨hi, rfl⟩ | hx <;> rcases hfiles j y hy with ⟨hj, rfl⟩ | hy
    · exact ⟨hi.trans hj.symm, rfl⟩
    · exact absurd hn.symm (hnumber j y hy)
    · exact absurd hn (hnumber i x hx)
    · exact ht.number i x hx j y hy hn

end SaveToSpec

end DVELevelDB
