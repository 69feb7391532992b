import DVELevelDB.Table

/-! # Versions: the table files of each level -/

namespace DVELevelDB

open VersionStore

def kNumLevels : ℕ := 7

def kMaxMemCompactLevel : ℕ := 2

/-- A table file with its content as it was written. -/
structure FileMetaData where
  number : ℕ
  fileSize : ℕ
  smallest : InternalKey
  largest : InternalKey
  table : Table

def FileMetaData.entries (f : FileMetaData) : List Entry := f.table.entries

structure Version where
  files : ℕ → List FileMetaData

namespace Version

def levelEntries (v : Version) (level : ℕ) : List Entry := (v.files level).flatMap (·.entries)

def deepLevels : List ℕ := List.range' 1 (kNumLevels - 1)

def entries (v : Version) : List Entry := v.levelEntries 0 ++ deepLevels.flatMap v.levelEntries

end Version

section Search

variable (c : Comparator)

/-- The files from the first one whose largest key is not before `key`. -/
def findFile (files : List FileMetaData) (key : InternalKey) : Exec (List FileMetaData) :=
  BinarySearch.search (fun f => beforeKey c key f.largest) files

/-- A missing key is before all keys. -/
def afterFile (userKey : Option Bytes) (f : FileMetaData) : Exec Bool :=
  match userKey with
  | none => return false
  | some k => return (← c.compare k f.largest.userKey) == .gt

/-- A missing key is after all keys. -/
def beforeFile (userKey : Option Bytes) (f : FileMetaData) : Exec Bool :=
  match userKey with
  | none => return false
  | some k => return (← c.compare k f.smallest.userKey) == .lt

def overlapsAny (smallest largest : Option Bytes) : List FileMetaData → Exec Bool
  | [] => return false
  | f :: files => do
    if ← afterFile c smallest f then
      overlapsAny smallest largest files
    else if ← beforeFile c largest f then
      overlapsAny smallest largest files
    else
      return true

def someFileOverlapsRange (disjointSortedFiles : Bool) (files : List FileMetaData)
    (smallest largest : Option Bytes) : Exec Bool := do
  if disjointSortedFiles then
    let rest ← match smallest with
      | some k => do
        findFile c files ⟨k, ← packSequenceAndType kMaxSequenceNumber kValueTypeForSeek⟩
      | none => pure files
    match rest with
    | [] => return false
    | f :: _ => return !(← beforeFile c largest f)
  else
    overlapsAny c smallest largest files

def firstMatch {ρ : Type} (func : FileMetaData → Exec (Option ρ)) :
    List FileMetaData → Exec (Option ρ)
  | [] => return none
  | f :: files => do
    match ← func f with
    | some r => return some r
    | none => firstMatch func files

def withinFile (userKey : Bytes) (f : FileMetaData) : Exec Bool := do
  if (← c.compare userKey f.smallest.userKey) ≠ .lt then
    return (← c.compare userKey f.largest.userKey) != .gt
  else
    return false

def newestFirst (a b : FileMetaData) : Bool := b.number ≤ a.number

namespace Version

/-- One file of a deeper level can hold the key. -/
def searchLevel {ρ : Type} (v : Version) (userKey : Bytes) (internalKey : InternalKey)
    (func : FileMetaData → Exec (Option ρ)) (level : ℕ) : Exec (Option ρ) := do
  match ← findFile c (v.files level) internalKey with
  | [] => return none
  | f :: _ =>
    if (← c.compare userKey f.smallest.userKey) = .lt then return none else func f

def searchLevels {ρ : Type} (v : Version) (userKey : Bytes) (internalKey : InternalKey)
    (func : FileMetaData → Exec (Option ρ)) : List ℕ → Exec (Option ρ)
  | [] => return none
  | level :: levels => do
    match ← v.searchLevel c userKey internalKey func level with
    | some r => return some r
    | none => searchLevels v userKey internalKey func levels

/-- `func` sees the files that may hold the key, the newest first, until it answers. -/
def forEachOverlapping {ρ : Type} (v : Version) (userKey : Bytes) (internalKey : InternalKey)
    (func : FileMetaData → Exec (Option ρ)) : Exec (Option ρ) := do
  let tmp ← Stops.keep (withinFile c userKey) (v.files 0)
  match ← firstMatch func (tmp.mergeSort newestFirst) with
  | some r => return some r
  | none => v.searchLevels c userKey internalKey func deepLevels

/-- `State::Match`: what one file contributes to a read. -/
def matchFile (io : FileAccess) (k : LookupKey) (f : FileMetaData) :
    Exec (Option (Except Status Bytes)) := do
  let (s, saver) ← f.table.get c io f.number k.internalKey
  if s.isOk then
    match saver with
    | .notFound => return none
    | .found value => return some (.ok value)
    | .deleted => return some (.error (.make .notFound [] []))
    | .corrupt => return some (.error (.make .corruption (utf8 "corrupted key for ") k.userKey))
  else
    return some (.error s)

def get (io : FileAccess) (v : Version) (k : LookupKey) : Exec (Except Status Bytes) := do
  match ← v.forEachOverlapping c k.userKey k.internalKey (matchFile c io k) with
  | some r => return r
  | none => return .error (.make .notFound [] [])

end Version

end Search

section WellFormed

variable {κ : Type*} [LinearOrder κ]

structure FileMetaData.WellFormed (D : Bytes → Prop) (rank : Bytes → κ) (f : FileMetaData) :
    Prop where
  table : f.table.WellFormed D rank
  smallest : ∃ e ∈ f.entries, e.key = f.smallest
  largest : ∃ e ∈ f.entries, e.key = f.largest
  lower : ∀ e ∈ f.entries, rank f.smallest.userKey ≤ rank e.key.userKey
  upper : ∀ e ∈ f.entries, ¬ KeyBefore rank f.largest e.key

/-- Sorted levels, and newer entries of a key in newer files. -/
structure Version.WellFormed (D : Bytes → Prop) (rank : Bytes → κ) (v : Version) : Prop where
  file : ∀ level, ∀ f ∈ v.files level, f.WellFormed D rank
  levels : ∀ level, ¬ level < kNumLevels → v.files level = []
  level_sorted : ∀ level, 0 < level → Sorted D rank (v.levelEntries level)
  number : (v.files 0).Pairwise fun f g => f.number ≠ g.number
  newer_file : ∀ f ∈ v.files 0, ∀ g ∈ v.files 0, g.number < f.number →
    (schema rank).Above f.entries g.entries
  newer_level : ∀ i j, i < j → (schema rank).Above (v.levelEntries i) (v.levelEntries j)

variable {c : Comparator} {D : Bytes → Prop} {rank : Bytes → κ} {v : Version}
  {f : FileMetaData} {files : List FileMetaData} {k : Bytes} {s : ℕ}

theorem Version.empty_wellFormed : Version.WellFormed D rank ⟨fun _ => []⟩ where
  file _ _ hf := absurd hf List.not_mem_nil
  levels _ _ := rfl
  level_sorted _ _ := Sorted.nil
  number := List.Pairwise.nil
  newer_file _ hf := absurd hf List.not_mem_nil
  newer_level _ _ _ _ ha := absurd ha List.not_mem_nil

theorem Version.WellFormed.mono {D' : Bytes → Prop} (h : v.WellFormed D rank)
    (hD : ∀ k, D k → D' k) : v.WellFormed D' rank := by
  refine ⟨?_, h.levels, fun level hl => (h.level_sorted level hl).mono hD, h.number, h.newer_file,
    h.newer_level⟩
  intro level f hf
  have hw := h.file level f hf
  exact ⟨hw.table.mono hD, hw.smallest, hw.largest, hw.lower, hw.upper⟩

namespace FileMetaData

theorem WellFormed.largest_mem (h : f.WellFormed D rank) : D f.largest.userKey := by
  obtain ⟨e, he, hkey⟩ := h.largest
  exact hkey ▸ (h.table.sorted.valid e he).key_mem

theorem WellFormed.smallest_mem (h : f.WellFormed D rank) : D f.smallest.userKey := by
  obtain ⟨e, he, hkey⟩ := h.smallest
  exact hkey ▸ (h.table.sorted.valid e he).key_mem

theorem WellFormed.rank_le_largest (h : f.WellFormed D rank) {e : Entry} (he : e ∈ f.entries) :
    rank e.key.userKey ≤ rank f.largest.userKey := by
  by_contra hlt
  exact h.upper e he (Or.inl (not_le.mp hlt))

end FileMetaData

namespace Version

def overlapping (rank : Bytes → κ) (v : Version) (k : Bytes) : List FileMetaData :=
  ((v.files 0).filter fun f => ¬ rank k < rank f.smallest.userKey ∧
    ¬ rank f.largest.userKey < rank k).mergeSort newestFirst

/-- The file of a deeper level a read of `k` looks at. -/
def levelFile (rank : Bytes → κ) (v : Version) (k : Bytes) (s level : ℕ) : Option FileMetaData :=
  ((v.files level).find? fun f => ¬ KeyBefore rank f.largest ⟨k, s * 256 + 1⟩).filter
    fun f => ¬ rank k < rank f.smallest.userKey

/-- The files a read of `k` at `s` looks at, in order. -/
def candidates (rank : Bytes → κ) (v : Version) (k : Bytes) (s : ℕ) : List FileMetaData :=
  v.overlapping rank k ++ deepLevels.filterMap (v.levelFile rank k s)

theorem WellFormed.files_before (h : v.WellFormed D rank) {level : ℕ} (hl : 0 < level) :
    (v.files level).Pairwise fun f g =>
      ∀ e ∈ f.entries, ∀ e' ∈ g.entries, (schema rank).Before e e' := by
  have := (h.level_sorted level hl).pairwise
  rw [levelEntries, List.flatMap_def, List.pairwise_flatten, List.pairwise_map] at this
  exact this.2

theorem WellFormed.largest_split (h : v.WellFormed D rank) {level : ℕ} (hl : 0 < level)
    (key : InternalKey) :
    BinarySearch.Split (fun f => decide (KeyBefore rank f.largest key)) (v.files level) := by
  refine (h.files_before hl).imp_of_mem fun {f g} hf hg hfg hb => decide_eq_true ?_
  obtain ⟨e, he, hkey⟩ := (h.file level f hf).largest
  obtain ⟨e', he', hkey'⟩ := (h.file level g hg).largest
  have := keyBefore_of_before (hfg e he e' he')
  rw [hkey, hkey'] at this
  exact this.trans (of_decide_eq_true hb)

theorem findFile_eq (ho : c.OrdersOn D rank) (h : v.WellFormed D rank) {level : ℕ} (hl : 0 < level)
    {key : InternalKey} (hk : D key.userKey) :
    findFile c (v.files level) key =
      .ok ((v.files level).dropWhile fun f => KeyBefore rank f.largest key) :=
  BinarySearch.search_eq (fun f hf => Table.beforeKey_eq ho (h.file level f hf).largest_mem hk)
    (h.largest_split hl key)

section Search

variable {ρ : Type} {func : FileMetaData → Exec (Option ρ)} {g : FileMetaData → Option ρ}

theorem firstMatch_eq (hf : ∀ f ∈ files, func f = .ok (g f)) :
    firstMatch func files = .ok (files.findSome? g) := by
  induction files with
  | nil => rfl
  | cons f files ih =>
    rw [firstMatch, hf f List.mem_cons_self, Stops.ok_bind, List.findSome?_cons]
    cases g f with
    | none => exact ih fun f' h' => hf f' (List.mem_cons_of_mem _ h')
    | some r => rfl

theorem searchLevel_eq (ho : c.OrdersOn D rank) (h : v.WellFormed D rank) (hk : D k)
    (hf : ∀ level, ∀ f ∈ v.files level, func f = .ok (g f)) {level : ℕ} (hl : 0 < level) :
    v.searchLevel c k ⟨k, s * 256 + 1⟩ func level = .ok ((v.levelFile rank k s level).bind g) := by
  have hfind := List.find?_not_eq_head?_dropWhile (l := v.files level)
    (fun f => decide (KeyBefore rank f.largest ⟨k, s * 256 + 1⟩))
  rw [searchLevel, findFile_eq ho h hl hk, Stops.ok_bind, levelFile]
  simp only [decide_not]
  rw [hfind]
  cases hd : (v.files level).dropWhile fun f => decide (KeyBefore rank f.largest ⟨k, s * 256 + 1⟩) with
  | nil => rfl
  | cons f rest =>
    have hmem : f ∈ v.files level :=
      (List.dropWhile_suffix _).subset (hd ▸ List.mem_cons_self)
    dsimp only
    rw [ho.compare_eq _ _ hk (h.file level f hmem).smallest_mem, Stops.ok_bind]
    by_cases hlt : rank k < rank f.smallest.userKey
    · rw [if_pos ((cmp_eq_lt_iff _ _).mpr hlt)]
      simp [hlt, Option.filter_some, pure, Except.pure]
    · rw [if_neg (mt (cmp_eq_lt_iff _ _).mp hlt)]
      simp [hlt, Option.filter_some, hf level f hmem]

theorem searchLevels_eq (ho : c.OrdersOn D rank) (h : v.WellFormed D rank) (hk : D k)
    (hf : ∀ level, ∀ f ∈ v.files level, func f = .ok (g f)) {levels : List ℕ}
    (hl : ∀ level ∈ levels, 0 < level) :
    v.searchLevels c k ⟨k, s * 256 + 1⟩ func levels =
      .ok ((levels.filterMap (v.levelFile rank k s)).findSome? g) := by
  induction levels with
  | nil => rfl
  | cons level levels ih =>
    rw [searchLevels, searchLevel_eq ho h hk hf (hl level List.mem_cons_self), Stops.ok_bind,
      ih fun l hl' => hl l (List.mem_cons_of_mem _ hl'), List.filterMap_cons]
    cases v.levelFile rank k s level with
    | none => rfl
    | some f =>
      simp only [Option.bind_some, List.findSome?_cons]
      cases g f <;> rfl

theorem deepLevels_pos {level : ℕ} (h : level ∈ deepLevels) : 0 < level := by
  rw [deepLevels, List.mem_range'] at h
  omega

theorem forEachOverlapping_eq (ho : c.OrdersOn D rank) (h : v.WellFormed D rank) (hk : D k)
    (hf : ∀ level, ∀ f ∈ v.files level, func f = .ok (g f)) :
    v.forEachOverlapping c k ⟨k, s * 256 + 1⟩ func =
      .ok ((v.candidates rank k s).findSome? g) := by
  have hkeep : Stops.keep (withinFile c k) (v.files 0) =
      .ok ((v.files 0).filter fun f => ¬ rank k < rank f.smallest.userKey ∧
        ¬ rank f.largest.userKey < rank k) := by
    refine Stops.keep_eq_filter fun f hmem => ?_
    have hw := h.file 0 f hmem
    rw [withinFile, ho.compare_eq _ _ hk hw.smallest_mem, ho.compare_eq _ _ hk hw.largest_mem,
      Stops.ok_bind, Stops.ok_bind]
    by_cases hlt : rank k < rank f.smallest.userKey
    · rw [if_neg (not_not.mpr ((cmp_eq_lt_iff _ _).mpr hlt))]
      simp [hlt, pure, Except.pure]
    · rw [if_pos (mt (cmp_eq_lt_iff _ _).mp hlt)]
      by_cases hgt : rank f.largest.userKey < rank k
      · rw [(cmp_eq_gt_iff _ _).mpr hgt]
        simp [hlt, hgt, pure, Except.pure]
      · rw [bne_iff_ne.mpr (mt (cmp_eq_gt_iff _ _).mp hgt)]
        simp [hlt, hgt, pure, Except.pure]
  have hfirst : firstMatch func (v.overlapping rank k) =
      .ok ((v.overlapping rank k).findSome? g) := by
    refine firstMatch_eq fun f hmem => hf 0 f ?_
    exact List.mem_of_mem_filter ((List.mergeSort_perm _ _).mem_iff.mp hmem)
  rw [forEachOverlapping, hkeep, Stops.ok_bind, candidates, List.findSome?_append]
  rw [show (List.mergeSort _ newestFirst) = v.overlapping rank k from rfl, hfirst, Stops.ok_bind]
  cases (v.overlapping rank k).findSome? g with
  | some r => rfl
  | none => exact searchLevels_eq ho h hk hf fun level => deepLevels_pos

end Search

section Lookup

theorem lookup_level (h : v.WellFormed D rank) {level : ℕ} (hl : 0 < level) :
    (schema rank).lookup (v.levelEntries level) (rank k) s =
      (v.levelFile rank k s level).bind fun f => (schema rank).lookup f.entries (rank k) s := by
  -- a level is searched like the blocks of a table, with the largest keys as its index
  let toIndex : FileMetaData → IndexEntry := fun f => ⟨f.largest, 0, ⟨f.entries, 1⟩⟩
  have hflat : (v.files level).flatMap (·.entries) =
      ((v.files level).map toIndex).flatMap fun ie => ie.block.entries := by
    rw [List.flatMap_map]
  have hcov : ∀ ie ∈ (v.files level).map toIndex, ie.Covers D rank := by
    intro ie hie
    obtain ⟨f, hf, rfl⟩ := List.mem_map.mp hie
    have hw := h.file level f hf
    obtain ⟨e, he, _⟩ := hw.largest
    exact ⟨hw.largest_mem, List.ne_nil_of_mem he, hw.upper⟩
  have hsep : ((v.files level).map toIndex).Pairwise (IndexEntry.Separates rank) := by
    refine List.pairwise_map.mpr (List.Pairwise.imp_of_mem (fun {f g} hf _ _ => Or.inl ?_)
      (h.files_before hl))
    exact (h.file level f hf).largest
  have hblocks := Table.lookup_blocks (k := k) (s := s) (hflat ▸ h.level_sorted level hl) hcov hsep
  rw [levelEntries, hflat, hblocks, Table.blockFor, List.find?_map, levelFile]
  simp only [Function.comp_def, toIndex]
  cases hfind : (v.files level).find? fun f => ¬ KeyBefore rank f.largest ⟨k, s * 256 + 1⟩ with
  | none => rfl
  | some f =>
    simp only [Option.map_some, Option.bind_some, Option.filter_some]
    by_cases hlt : rank k < rank f.smallest.userKey
    · have hw := h.file level f (List.mem_of_find?_eq_some hfind)
      have hnone : (schema rank).lookup f.entries (rank k) s = none := by
        rw [(schema rank).lookup_eq_none_iff]
        intro e he hvis
        exact absurd (hlt.trans_le (hw.lower e he)) (by rw [← hvis.1]; exact lt_irrefl _)
      simp [hlt, hnone]
    · simp [hlt]

private theorem newestFirst_pairwise (L : List FileMetaData) :
    (L.mergeSort newestFirst).Pairwise fun a b => b.number ≤ a.number := by
  have : (L.mergeSort newestFirst).Pairwise (newestFirst · ·) := List.pairwise_mergeSort
    (fun a b c hab hbc => by simp only [newestFirst, decide_eq_true_eq] at *; omega)
    (fun a b => by simp only [newestFirst, Bool.or_eq_true, decide_eq_true_eq]; omega) L
  exact this.imp fun hab => of_decide_eq_true hab

theorem mem_overlapping {f : FileMetaData} : f ∈ v.overlapping rank k ↔
    f ∈ v.files 0 ∧ ¬ rank k < rank f.smallest.userKey ∧ ¬ rank f.largest.userKey < rank k := by
  rw [overlapping, (List.mergeSort_perm _ _).mem_iff, List.mem_filter, decide_eq_true_eq]

theorem WellFormed.newest_above (h : v.WellFormed D rank) {L : List FileMetaData}
    (hsub : L.Sublist (v.files 0)) :
    (L.mergeSort newestFirst).Pairwise fun f g => (schema rank).Above f.entries g.entries := by
  have hmem : ∀ f ∈ L.mergeSort newestFirst, f ∈ v.files 0 := fun f hf =>
    hsub.subset ((List.mergeSort_perm _ _).mem_iff.mp hf)
  have hnumber : (L.mergeSort newestFirst).Pairwise fun f g => f.number ≠ g.number :=
    ((List.mergeSort_perm _ _).pairwise_iff fun hne => hne.symm).mpr (h.number.sublist hsub)
  refine ((newestFirst_pairwise L).and hnumber).imp_of_mem fun {f g} hf hg hfg => ?_
  exact h.newer_file f (hmem f hf) g (hmem g hg) (lt_of_le_of_ne hfg.1 hfg.2.symm)

theorem lookup_level_zero (h : v.WellFormed D rank) :
    (schema rank).UniqueSeqs (v.levelEntries 0) ∧
      (schema rank).lookup (v.levelEntries 0) (rank k) s =
        (v.overlapping rank k).findSome? fun f => (schema rank).lookup f.entries (rank k) s := by
  let hit : FileMetaData → Bool := fun f =>
    ¬ rank k < rank f.smallest.userKey ∧ ¬ rank f.largest.userKey < rank k
  have hu : ∀ L : List FileMetaData, (∀ f ∈ L, f ∈ v.files 0) →
      ∀ f ∈ L, (schema rank).UniqueSeqs f.entries := fun L hL f hf =>
    (h.file 0 f (hL f hf)).table.sorted.uniqueSeqs
  have hperm := List.mergeSort_perm (v.files 0) newestFirst
  have hall := (schema rank).lookup_flatMap (k := rank k) (s := s)
    (h.newest_above (List.Sublist.refl _)) (hu _ fun f hf => hperm.mem_iff.mp hf)
  have hmem : ∀ e, e ∈ ((v.files 0).mergeSort newestFirst).flatMap (·.entries) ↔
      e ∈ v.levelEntries 0 := fun e => (hperm.flatMap_right _).mem_iff
  have huniq : (schema rank).UniqueSeqs (v.levelEntries 0) :=
    Schema.UniqueSeqs.of_subset _ hall.1 fun e he => (hmem e).mpr he
  have hsel := (schema rank).lookup_flatMap (k := rank k) (s := s)
    (h.newest_above (L := (v.files 0).filter hit) List.filter_sublist)
    (hu _ fun f hf => (mem_overlapping.mp hf).1)
  refine ⟨huniq, hsel.2 ▸ ?_⟩
  -- the other files hold nothing of the key
  have habs : (schema rank).Absent (((v.files 0).filter fun f => ¬ hit f).flatMap (·.entries))
      (rank k) s := by
    intro e he hvis
    obtain ⟨f, hf, hef⟩ := List.mem_flatMap.mp he
    obtain ⟨hf0, hnot⟩ := List.mem_filter.mp hf
    have hw := h.file 0 f hf0
    have h1 : ¬ rank k < rank f.smallest.userKey := not_lt.mpr (hvis.1 ▸ hw.lower e hef)
    have h2 : ¬ rank f.largest.userKey < rank k := not_lt.mpr (hvis.1 ▸ hw.rank_le_largest hef)
    simp [hit, h1, h2] at hnot
  refine ((schema rank).lookup_congr huniq fun e => ?_).trans
    ((schema rank).lookup_of_absent_right habs)
  rw [List.mem_append, ((List.mergeSort_perm _ newestFirst).flatMap_right _).mem_iff, levelEntries]
  simp only [List.mem_flatMap, List.mem_filter]
  constructor
  · rintro ⟨f, hf, he⟩
    by_cases hh : hit f
    · exact Or.inl ⟨f, ⟨hf, hh⟩, he⟩
    · exact Or.inr ⟨f, ⟨hf, by simpa using hh⟩, he⟩
  · rintro (⟨f, ⟨hf, _⟩, he⟩ | ⟨f, ⟨hf, _⟩, he⟩) <;> exact ⟨f, hf, he⟩

theorem WellFormed.deep_uniqueSeqs (h : v.WellFormed D rank) :
    (schema rank).UniqueSeqs (deepLevels.flatMap v.levelEntries) ∧
      (schema rank).lookup (deepLevels.flatMap v.levelEntries) (rank k) s =
        deepLevels.findSome? fun level => (schema rank).lookup (v.levelEntries level) (rank k) s := by
  refine (schema rank).lookup_flatMap ?_ fun level hl => (h.level_sorted level (deepLevels_pos hl)).uniqueSeqs
  have hsorted : deepLevels.Pairwise (· < ·) := List.pairwise_lt_range'
  exact hsorted.imp fun hij => h.newer_level _ _ hij

theorem WellFormed.above_deep (h : v.WellFormed D rank) :
    (schema rank).Above (v.levelEntries 0) (deepLevels.flatMap v.levelEntries) := by
  intro a ha b hb
  obtain ⟨level, hl, hb⟩ := List.mem_flatMap.mp hb
  exact h.newer_level 0 level (deepLevels_pos hl) a ha b hb

theorem WellFormed.uniqueSeqs (h : v.WellFormed D rank) : (schema rank).UniqueSeqs v.entries :=
  Schema.UniqueSeqs.append _ (lookup_level_zero (k := []) (s := 0) h).1
    (h.deep_uniqueSeqs (k := []) (s := 0)).1 h.above_deep

/-- The candidates hold whatever a read of the key can see. -/
theorem lookup_candidates (h : v.WellFormed D rank) :
    (schema rank).lookup v.entries (rank k) s =
      (v.candidates rank k s).findSome? fun f => (schema rank).lookup f.entries (rank k) s := by
  have h0 := lookup_level_zero (k := k) (s := s) h
  have hd := h.deep_uniqueSeqs (k := k) (s := s)
  rw [entries, (schema rank).lookup_append h.above_deep h0.1 hd.1, h0.2, hd.2, candidates,
    List.findSome?_append]
  congr 1
  have hpos : ∀ level ∈ deepLevels, 0 < level := fun level => deepLevels_pos
  generalize deepLevels = levels at hpos
  induction levels with
  | nil => rfl
  | cons level levels ih =>
    rw [List.findSome?_cons, lookup_level h (hpos level List.mem_cons_self), List.filterMap_cons,
      ih fun l hl => hpos l (List.mem_cons_of_mem _ hl)]
    cases v.levelFile rank k s level with
    | none => rfl
    | some f =>
      simp only [Option.bind_some, List.findSome?_cons]

/-- What one file contributes to a read of `k` at `s`. -/
def fileAnswer (rank : Bytes → κ) (io : FileAccess) (k : Bytes) (s : ℕ) (f : FileMetaData) :
    Option (Except Status Bytes) :=
  match Table.readFault rank io f.number f.table ⟨k, s * 256 + 1⟩ with
  | some fault => some (.error fault)
  | none => ((schema rank).lookup f.entries (rank k) s).map MemTable.answer

theorem matchFile_eq (ho : c.OrdersOn D rank)
    (hid : f.table.filter.isSome → Identifies rank f.entries k)
    {io : FileAccess} (hw : f.WellFormed D rank) (hk : D k) :
    matchFile c io ⟨k, s * 256 + 1⟩ f = .ok (fileAnswer rank io k s f) := by
  rw [matchFile, LookupKey.internalKey, Table.get_eq ho hid hw.table hk, Stops.ok_bind, fileAnswer]
  cases hfault : Table.readFault rank io f.number f.table ⟨k, s * 256 + 1⟩ with
  | some fault =>
    have hbad := Table.readFault_not_ok hfault
    simp [hbad, pure, Except.pure]
  | none =>
    simp only [Status.isOk_ok, if_true, FileMetaData.entries]
    cases (schema rank).lookup f.table.entries (rank k) s with
    | none => rfl
    | some e =>
      by_cases ht : e.key.type = kTypeValue <;>
        simp [Table.saverOf, MemTable.answer, ht, pure, Except.pure]

/-- A read answers with the first candidate that fails or holds a visible entry. -/
theorem get_eq (ho : c.OrdersOn D rank)
    (hid : ∀ level, ∀ f ∈ v.files level, f.table.filter.isSome → Identifies rank f.entries k)
    {io : FileAccess}
    (h : v.WellFormed D rank) (hk : D k) :
    v.get c io ⟨k, s * 256 + 1⟩ =
      .ok (((v.candidates rank k s).findSome? (fileAnswer rank io k s)).getD
        (.error (.make .notFound [] []))) := by
  rw [get, LookupKey.internalKey, forEachOverlapping_eq ho h hk
    fun level f hf => matchFile_eq ho (hid level f hf) (h.file level f hf) hk, Stops.ok_bind]
  cases (v.candidates rank k s).findSome? (fileAnswer rank io k s) <;> rfl

theorem get_healthy (ho : c.OrdersOn D rank)
    (hid : ∀ level, ∀ f ∈ v.files level, f.table.filter.isSome → Identifies rank f.entries k)
    {io : FileAccess}
    (hio : io.Healthy) (h : v.WellFormed D rank) (hk : D k) :
    v.get c io ⟨k, s * 256 + 1⟩ =
      .ok ((((schema rank).lookup v.entries (rank k) s).map MemTable.answer).getD
        (.error (.make .notFound [] []))) := by
  rw [get_eq ho hid h hk, lookup_candidates h]
  congr 2
  induction v.candidates rank k s with
  | nil => rfl
  | cons f files ih =>
    rw [List.findSome?_cons, List.findSome?_cons, fileAnswer, Table.readFault_healthy hio]
    cases (schema rank).lookup f.entries (rank k) s with
    | none => exact ih
    | some e => rfl

end Lookup

end Version

end WellFormed

end DVELevelDB
