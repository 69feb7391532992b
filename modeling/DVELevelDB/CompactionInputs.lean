import DVELevelDB.Compaction
import DVELevelDB.VersionEdit

/-! # The files of a compaction

Which files of two neighbouring levels `VersionSet` selects, and that the files it leaves behind
share no key with them.
-/

namespace DVELevelDB

open VersionStore

/-- Why a compaction is wanted: a level holds too much, or a file of it was sought in vain too
often. -/
inductive CompactionReason where
  | size (level : Fin (kNumLevels - 1))
  | seek (level : Fin (kNumLevels - 1)) (index : ℕ)

def CompactionReason.level : CompactionReason → ℕ
  | .size level => level
  | .seek level _ => level

/-- `inputs_[0]`, `inputs_[1]` and `grandparents_`, and where the next compaction of the level
goes on. -/
structure CompactionFiles where
  inputs : List FileMetaData
  parents : List FileMetaData
  grandparents : List FileMetaData
  compactPointer : InternalKey

section Ranges

variable (c : Comparator)

def widenRange (range : InternalKey × InternalKey) (f : FileMetaData) :
    Exec (InternalKey × InternalKey) := do
  let below ← InternalKeyComparator.compare c f.smallest range.1
  let above ← InternalKeyComparator.compare c f.largest range.2
  return (if below = .lt then f.smallest else range.1, if above = .gt then f.largest else range.2)

def getRange : List FileMetaData → Exec (InternalKey × InternalKey)
  | [] => throw .assertion
  | f :: files => files.foldlM (widenRange c) (f.smallest, f.largest)

def largerKey (key : InternalKey) (f : FileMetaData) : Exec InternalKey := do
  return if (← InternalKeyComparator.compare c f.largest key) = .gt then f.largest else key

def findLargestKey : List FileMetaData → Exec (Option InternalKey)
  | [] => return none
  | f :: files => do return some (← files.foldlM (largerKey c) f.largest)

def isBoundaryFile (key : InternalKey) (f : FileMetaData) : Exec Bool := do
  if (← InternalKeyComparator.compare c f.smallest key) = .gt then
    return (← c.compare f.smallest.userKey key.userKey) == .eq
  else
    return false

def smallerFile (best : Option FileMetaData) (f : FileMetaData) : Exec (Option FileMetaData) :=
  match best with
  | none => return some f
  | some b => do
    return if (← InternalKeyComparator.compare c f.smallest b.smallest) = .lt then some f else some b

def boundaryStep (key : InternalKey) (best : Option FileMetaData) (f : FileMetaData) :
    Exec (Option FileMetaData) := do
  if ← isBoundaryFile c key f then smallerFile c best f else return best

def findSmallestBoundaryFile (levelFiles : List FileMetaData) (key : InternalKey) :
    Exec (Option FileMetaData) :=
  levelFiles.foldlM (boundaryStep c key) none

/-- The search of `AddBoundaryInputs`; each turn finds a file further up the level. -/
def addBoundaryLoop (levelFiles : List FileMetaData) :
    ℕ → InternalKey → List FileMetaData → Exec (List FileMetaData)
  | 0, _, files => return files
  | n + 1, key, files => do
    match ← findSmallestBoundaryFile c levelFiles key with
    | some f => addBoundaryLoop levelFiles n f.largest (files ++ [f])
    | none => return files

def addBoundaryInputs (levelFiles files : List FileMetaData) : Exec (List FileMetaData) := do
  match ← findLargestKey c files with
  | some key => addBoundaryLoop c levelFiles (levelFiles.length + 1) key files
  | none => return files

end Ranges

section Inputs

variable (o : Options) (v : Version) (level : ℕ)

/-- The files of both levels, the largest key of the first, and the range of all. -/
structure Expansion where
  inputs : List FileMetaData
  parents : List FileMetaData
  largest : InternalKey
  all : InternalKey × InternalKey

/-- More files of the level, if they need no more files of the next one. -/
def growInputs (x : Expansion) (expanded : List FileMetaData) : Exec Expansion :=
  if expanded.length > x.inputs.length ∧
      totalFileSize x.parents + totalFileSize expanded < o.expandedCompactionByteSizeLimit then do
    let (newStart, newLimit) ← getRange o.comparator expanded
    let expanded1 ← v.getOverlappingInputs o.comparator (level + 1) (some newStart.userKey)
      (some newLimit.userKey)
    if expanded1.length = x.parents.length then
      return ⟨expanded, expanded1, newLimit, ← getRange o.comparator (expanded ++ expanded1)⟩
    else
      return x
  else
    return x

def expandInputs (x : Expansion) : Exec Expansion :=
  if x.parents.isEmpty then
    return x
  else do
    let expanded ← v.getOverlappingInputs o.comparator level (some x.all.1.userKey)
      (some x.all.2.userKey)
    growInputs o v level x (← addBoundaryInputs o.comparator (v.files level) expanded)

def grandparentsOf (allStart allLimit : InternalKey) : Exec (List FileMetaData) :=
  if level + 2 < kNumLevels then
    v.getOverlappingInputs o.comparator (level + 2) (some allStart.userKey) (some allLimit.userKey)
  else
    return []

def setupOtherInputs (inputs : List FileMetaData) : Exec CompactionFiles := do
  let inputs ← addBoundaryInputs o.comparator (v.files level) inputs
  let (smallest, largest) ← getRange o.comparator inputs
  let parents ← v.getOverlappingInputs o.comparator (level + 1) (some smallest.userKey)
    (some largest.userKey)
  let all ← getRange o.comparator (inputs ++ parents)
  let x ← expandInputs o v level ⟨inputs, parents, largest, all⟩
  return ⟨x.inputs, x.parents, ← grandparentsOf o v level x.all.1 x.all.2, x.largest⟩

/-- Files of level 0 come with all files they overlap. -/
def initialInputs (f : FileMetaData) : Exec (List FileMetaData) :=
  if level = 0 then do
    let (smallest, largest) ← getRange o.comparator [f]
    let inputs ← v.getOverlappingInputs o.comparator 0 (some smallest.userKey)
      (some largest.userKey)
    assertThat (!inputs.isEmpty)
    return inputs
  else
    return [f]

def comesAfter (pointer : Option InternalKey) (f : FileMetaData) : Exec Bool :=
  match pointer with
  | none => return true
  | some key => do return (← InternalKeyComparator.compare o.comparator f.largest key) == .gt

def firstFileAfter (pointer : Option InternalKey) :
    List FileMetaData → Exec (Option FileMetaData)
  | [] => return none
  | f :: files => do
    if ← comesAfter o pointer f then return some f else firstFileAfter pointer files

/-- The file that a compaction starts from; after the last one of a level comes the first. -/
def pickFile (compactPointers : ℕ → Option InternalKey) :
    CompactionReason → Exec (Option FileMetaData)
  | .size level => do
    match ← firstFileAfter o (compactPointers level) (v.files level) with
    | some f => return some f
    | none => return (v.files level).head?
  | .seek level index => return (v.files level)[index]?

/-- `PickCompaction`; a reason without a file stands for none. -/
def pickCompaction (compactPointers : ℕ → Option InternalKey) (reason : CompactionReason) :
    Exec (Option CompactionFiles) := do
  match ← pickFile o v compactPointers reason with
  | none => return none
  | some f => do
    assertThat (reason.level + 1 < kNumLevels)
    return some (← setupOtherInputs o v reason.level (← initialInputs o v reason.level f))

/-- The first files, up to the one that reaches the limit. -/
def limitInputs (limit : ℕ) : ℕ → List FileMetaData → List FileMetaData
  | _, [] => []
  | total, f :: files =>
    if total + f.fileSize ≥ limit then [f] else f :: limitInputs limit (total + f.fileSize) files

def compactRangeInputs (userBegin userEnd : Option Bytes) : Exec (Option CompactionFiles) := do
  let inputs ← v.getOverlappingInputs o.comparator level userBegin userEnd
  if inputs.isEmpty then
    return none
  else
    let inputs := if level > 0 then limitInputs o.maxFileSizeForLevel 0 inputs else inputs
    return some (← setupOtherInputs o v level inputs)

def isTrivialMove (files : CompactionFiles) : Bool :=
  files.inputs.length = 1 ∧ files.parents.length = 0 ∧
    totalFileSize files.grandparents ≤ o.maxGrandParentOverlapBytes

end Inputs

section Spec

variable {κ : Type*} [LinearOrder κ]

/-- A bound that the comparator places among the keys in `D`. -/
def Comparator.Places (c : Comparator) (D : Bytes → Prop) (rank : Bytes → κ) (bound : Bytes) :
    Prop :=
  ∀ key, D key → c.compare key bound = .ok (cmp (rank key) (rank bound)) ∧
    c.compare bound key = .ok (cmp (rank bound) (rank key))

theorem Comparator.OrdersOn.places {c : Comparator} {D : Bytes → Prop} {rank : Bytes → κ}
    (ho : c.OrdersOn D rank) {bound : Bytes} (h : D bound) : c.Places D rank bound :=
  fun key hk => ⟨ho.compare_eq key bound hk h, ho.compare_eq bound key h hk⟩

/-- Some files of a level; the others share no user key with them. -/
structure Closed (rank : Bytes → κ) (levelFiles files : List FileMetaData) : Prop where
  sublist : files.Sublist levelFiles
  apart : ∀ g ∈ levelFiles, g ∉ files → ∀ f ∈ files, Apart rank g f

/-- The file lies before all files, or after them. -/
def OnOneSide (rank : Bytes → κ) (files : List FileMetaData) (g : FileMetaData) : Prop :=
  (∀ f ∈ files, rank g.largest.userKey < rank f.smallest.userKey) ∨
    ∀ f ∈ files, rank f.largest.userKey < rank g.smallest.userKey

/-- Files of a level and of the next one, all that reach into their range. -/
structure Matched (rank : Bytes → κ) (v : Version) (level : ℕ) (inputs parents : List FileMetaData) :
    Prop where
  nonempty : inputs ≠ []
  inputs_closed : Closed rank (v.files level) inputs
  parents_closed : Closed rank (v.files (level + 1)) parents
  beside : ∀ g ∈ v.files (level + 1), g ∉ parents → OnOneSide rank (inputs ++ parents) g

/-- What a compaction relies on. -/
structure Chosen (rank : Bytes → κ) (v : Version) (level : ℕ) (files : CompactionFiles) :
    Prop where
  level_lt : level + 1 < kNumLevels
  matched : Matched rank v level files.inputs files.parents
  grandparents : ∀ f ∈ files.grandparents, f ∈ v.files (level + 2)
  pointer : ∃ f ∈ files.inputs, f.largest = files.compactPointer

def Overlaps (rank : Bytes → κ) (userBegin userEnd : Option Bytes) (f : FileMetaData) : Prop :=
  (∀ k ∈ userBegin, ¬ rank f.largest.userKey < rank k) ∧
    ∀ k ∈ userEnd, ¬ rank k < rank f.smallest.userKey

def Within (rank : Bytes → κ) (userBegin userEnd : Option Bytes) (f : FileMetaData) : Prop :=
  (∀ k ∈ userBegin, rank k ≤ rank f.smallest.userKey) ∧
    ∀ k ∈ userEnd, rank f.largest.userKey ≤ rank k

variable {c : Comparator} {D : Bytes → Prop} {rank : Bytes → κ} {v : Version} {level : ℕ}
  {files levelFiles inputs : List FileMetaData} {f g : FileMetaData}
  {userBegin userEnd : Option Bytes}

theorem apart_of_not_overlaps (hg : ¬ Overlaps rank userBegin userEnd g)
    (hf : Within rank userBegin userEnd f) : Apart rank g f := by
  rw [Overlaps, not_and_or] at hg
  rcases hg with hg | hg
  · push Not at hg
    obtain ⟨k, hk, hlt⟩ := hg
    exact Or.inl (hlt.trans_le (hf.1 k hk))
  · push Not at hg
    obtain ⟨k, hk, hlt⟩ := hg
    exact Or.inr ((hf.2 k hk).trans_lt hlt)

theorem Version.Tidy.closed (ht : v.Tidy rank) (hl : 0 < level)
    (hs : files.Sublist (v.files level)) : Closed rank (v.files level) files := by
  refine ⟨hs, ?_⟩
  intro g hg hgf f hf
  apply ht.apart level hl g hg f (hs.subset hf)
  rintro rfl
  exact hgf hf

section Overlapping

theorem test_eq {bound : Option Bytes} {key : Bytes} (hb : ∀ k ∈ bound, c.Places D rank k)
    (hk : D key) (t : Ordering) : overlappingPass.test c bound key t =
      .ok (decide (∃ k ∈ bound, cmp (rank key) (rank k) = t)) := by
  cases bound with
  | none =>
    refine congrArg Except.ok (decide_eq_false ?_).symm
    rintro ⟨_, ⟨⟩, _⟩
  | some k =>
    rw [overlappingPass.test, ((hb k rfl) key hk).1, Stops.ok_bind]
    have hiff : (∃ k' ∈ some k, cmp (rank key) (rank k') = t) ↔ cmp (rank key) (rank k) = t := by
      constructor
      · rintro ⟨_, ⟨⟩, h⟩
        exact h
      · exact fun h => ⟨k, rfl, h⟩
    refine congrArg Except.ok (Bool.eq_iff_iff.mpr ?_)
    exact beq_iff_eq.trans (hiff.symm.trans decide_eq_true_iff.symm)

inductive Passed (rank : Bytes → κ) (level : ℕ) (userBegin userEnd : Option Bytes)
    (inputs files : List FileMetaData) :
    List FileMetaData ⊕ (Option Bytes × Option Bytes) → Prop where
  | done {more : List FileMetaData} : more.Sublist files →
      (∀ f ∈ files, Overlaps rank userBegin userEnd f → f ∈ more) →
      (∀ f ∈ more, Overlaps rank userBegin userEnd f) →
      (level = 0 → ∀ f ∈ more, Within rank userBegin userEnd f) →
      Passed rank level userBegin userEnd inputs files (.inl (inputs ++ more))
  | wider {f : FileMetaData} {userBegin' userEnd' : Option Bytes} : level = 0 → f ∈ files →
      (∀ g, Overlaps rank userBegin userEnd g → Overlaps rank userBegin' userEnd' g) →
      (∀ k ∈ userBegin', k ∈ userBegin ∨ k = f.smallest.userKey) →
      (∀ k ∈ userEnd', k ∈ userEnd ∨ k = f.largest.userKey) →
      Passed rank level userBegin userEnd inputs files (.inr (userBegin', userEnd'))

theorem Passed.skip {r} (h : Passed rank level userBegin userEnd inputs files r)
    (hf : ¬ Overlaps rank userBegin userEnd f) :
    Passed rank level userBegin userEnd inputs (f :: files) r := by
  cases h with
  | done hsub hall hover hin =>
    refine .done (hsub.cons f) ?_ hover hin
    intro g hg ho
    rcases List.mem_cons.mp hg with rfl | hg
    · exact absurd ho hf
    · exact hall g hg ho
  | wider hl hg hmono hb he => exact .wider hl (List.mem_cons_of_mem _ hg) hmono hb he

theorem Passed.take {r} (h : Passed rank level userBegin userEnd (inputs ++ [f]) files r)
    (ho : Overlaps rank userBegin userEnd f)
    (hf : level = 0 → Within rank userBegin userEnd f) :
    Passed rank level userBegin userEnd inputs (f :: files) r := by
  cases h with
  | done hsub hall hover hin =>
    rw [List.append_assoc, List.singleton_append]
    refine .done (hsub.cons_cons f) ?_ ?_ ?_
    · intro g hg ho
      rcases List.mem_cons.mp hg with rfl | hg
      · exact List.mem_cons_self
      · exact List.mem_cons_of_mem _ (hall g hg ho)
    · intro g hg
      rcases List.mem_cons.mp hg with rfl | hg
      · exact ho
      · exact hover g hg
    · intro hl g hg
      rcases List.mem_cons.mp hg with rfl | hg
      · exact hf hl
      · exact hin hl g hg
  | wider hl hg hmono hb he => exact .wider hl (List.mem_cons_of_mem _ hg) hmono hb he

variable (level inputs) in
theorem overlappingPass_spec (hb : ∀ k ∈ userBegin, c.Places D rank k)
    (he : ∀ k ∈ userEnd, c.Places D rank k) (hf : ∀ f ∈ files, f.WellFormed D rank) :
    ∃ r, overlappingPass c level userBegin userEnd inputs files = .ok r ∧
      Passed rank level userBegin userEnd inputs files r := by
  induction files generalizing inputs with
  | nil =>
    refine ⟨.inl inputs, rfl, ?_⟩
    have hdone : Passed rank level userBegin userEnd inputs [] (.inl (inputs ++ [])) :=
      .done (List.Sublist.refl _) (by simp) (by simp) (by simp)
    rwa [List.append_nil] at hdone
  | cons f files ih =>
    have hw := hf f List.mem_cons_self
    have hrest : ∀ inputs, ∃ r, overlappingPass c level userBegin userEnd inputs files = .ok r ∧
        Passed rank level userBegin userEnd inputs files r :=
      fun inputs => ih inputs fun f' h' => hf f' (List.mem_cons_of_mem _ h')
    rw [overlappingPass, overlappingPass.beginsAfter, test_eq hb hw.largest_mem, Stops.ok_bind]
    by_cases hbefore : ∃ k ∈ userBegin, cmp (rank f.largest.userKey) (rank k) = .lt
    · obtain ⟨r, hr, hp⟩ := hrest inputs
      rw [if_pos (decide_eq_true hbefore)]
      refine ⟨r, hr, hp.skip ?_⟩
      intro ho
      obtain ⟨k, hk, hlt⟩ := hbefore
      exact ho.1 k hk ((cmp_eq_lt_iff _ _).mp hlt)
    rw [if_neg (mt of_decide_eq_true hbefore), overlappingPass.endsBefore, test_eq he hw.smallest_mem,
      Stops.ok_bind]
    by_cases hafter : ∃ k ∈ userEnd, cmp (rank f.smallest.userKey) (rank k) = .gt
    · obtain ⟨r, hr, hp⟩ := hrest inputs
      rw [if_pos (decide_eq_true hafter)]
      refine ⟨r, hr, hp.skip ?_⟩
      intro ho
      obtain ⟨k, hk, hlt⟩ := hafter
      exact ho.2 k hk ((cmp_eq_gt_iff _ _).mp hlt)
    rw [if_neg (mt of_decide_eq_true hafter)]
    have hover : Overlaps rank userBegin userEnd f := by
      constructor
      · intro k hk hlt
        exact hbefore ⟨k, hk, (cmp_eq_lt_iff _ _).mpr hlt⟩
      · intro k hk hlt
        exact hafter ⟨k, hk, (cmp_eq_gt_iff _ _).mpr hlt⟩
    by_cases hl : level = 0
    · rw [if_pos hl, overlappingPass.reachesBelow, test_eq hb hw.smallest_mem, Stops.ok_bind]
      by_cases hlow : ∃ k ∈ userBegin, cmp (rank f.smallest.userKey) (rank k) = .lt
      · rw [if_pos (decide_eq_true hlow)]
        refine ⟨_, rfl, .wider hl List.mem_cons_self ?_ (by simp) (by simp +contextual)⟩
        intro g hg
        obtain ⟨k, hk, hlt⟩ := hlow
        refine ⟨?_, hg.2⟩
        rintro _ ⟨⟩
        rw [cmp_eq_lt_iff] at hlt
        exact not_lt.mpr (hlt.le.trans (not_lt.mp (hg.1 k hk)))
      rw [if_neg (mt of_decide_eq_true hlow), overlappingPass.reachesAbove, test_eq he hw.largest_mem,
        Stops.ok_bind]
      by_cases hhigh : ∃ k ∈ userEnd, cmp (rank f.largest.userKey) (rank k) = .gt
      · rw [if_pos (decide_eq_true hhigh)]
        refine ⟨_, rfl, .wider hl List.mem_cons_self ?_ (by simp +contextual) (by simp)⟩
        intro g hg
        obtain ⟨k, hk, hlt⟩ := hhigh
        refine ⟨hg.1, ?_⟩
        rintro _ ⟨⟩
        rw [cmp_eq_gt_iff] at hlt
        exact not_lt.mpr ((not_lt.mp (hg.2 k hk)).trans hlt.le)
      rw [if_neg (mt of_decide_eq_true hhigh)]
      obtain ⟨r, hr, hp⟩ := hrest (inputs ++ [f])
      refine ⟨r, hr, hp.take hover fun _ => ⟨?_, ?_⟩⟩
      · intro k hk
        by_contra hlt
        exact hlow ⟨k, hk, (cmp_eq_lt_iff _ _).mpr (not_le.mp hlt)⟩
      · intro k hk
        by_contra hlt
        exact hhigh ⟨k, hk, (cmp_eq_gt_iff _ _).mpr (not_le.mp hlt)⟩
    · rw [if_neg hl]
      obtain ⟨r, hr, hp⟩ := hrest (inputs ++ [f])
      exact ⟨r, hr, hp.take hover fun h0 => absurd h0 hl⟩

theorem overlappingPasses_spec (ho : c.OrdersOn D rank) (h : v.WellFormed D rank)
    (ht : v.Tidy rank) (n : ℕ) (hb : ∀ k ∈ userBegin, c.Places D rank k)
    (he : ∀ k ∈ userEnd, c.Places D rank k) :
    ∃ inputs, overlappingPasses c level (v.files level) n userBegin userEnd = .ok inputs ∧
      Closed rank (v.files level) inputs ∧
      (∀ f ∈ v.files level, Overlaps rank userBegin userEnd f → f ∈ inputs) ∧
      (0 < level → 0 < n → ∀ f ∈ inputs, Overlaps rank userBegin userEnd f) := by
  induction n generalizing userBegin userEnd with
  | zero =>
    refine ⟨v.files level, rfl, ⟨List.Sublist.refl _, ?_⟩, fun f hf _ => hf, by simp⟩
    intro g hg hng
    exact absurd hg hng
  | succ n ih =>
    obtain ⟨r, hr, hp⟩ := overlappingPass_spec level [] hb he (h.file level)
    rw [overlappingPasses, hr, Stops.ok_bind]
    cases hp with
    | @done more hsub hall hover hin =>
      refine ⟨more, rfl, ?_, hall, fun _ _ => hover⟩
      rcases Nat.eq_zero_or_pos level with hl | hl
      · refine ⟨hsub, ?_⟩
        intro g hg hng f hf
        exact apart_of_not_overlaps (fun ho => hng (hall g hg ho)) (hin hl f hf)
      · exact ht.closed hl hsub
    | @wider f userBegin' userEnd' hl hf hmono hb' he' =>
      have hw := h.file level f hf
      have hbegin : ∀ k ∈ userBegin', c.Places D rank k :=
        fun k hk => (hb' k hk).elim (hb k) fun heq => heq ▸ ho.places hw.smallest_mem
      have hend : ∀ k ∈ userEnd', c.Places D rank k :=
        fun k hk => (he' k hk).elim (he k) fun heq => heq ▸ ho.places hw.largest_mem
      obtain ⟨inputs, hin, hclosed, hall, -⟩ := ih hbegin hend
      refine ⟨inputs, hin, hclosed, fun g hg hov => hall g hg (hmono g hov), ?_⟩
      intro hpos
      omega

end Overlapping

theorem getOverlappingInputs_spec (ho : c.OrdersOn D rank) (h : v.WellFormed D rank)
    (ht : v.Tidy rank) (hl : level < kNumLevels) (hb : ∀ k ∈ userBegin, c.Places D rank k)
    (he : ∀ k ∈ userEnd, c.Places D rank k) :
    ∃ inputs, v.getOverlappingInputs c level userBegin userEnd = .ok inputs ∧
      Closed rank (v.files level) inputs ∧
      (∀ f ∈ v.files level, Overlaps rank userBegin userEnd f → f ∈ inputs) ∧
      (0 < level → ∀ f ∈ inputs, Overlaps rank userBegin userEnd f) := by
  obtain ⟨inputs, heq, hc, hall, hover⟩ :=
    overlappingPasses_spec ho h ht (2 * (v.files level).length + 1) hb he
  rw [Version.getOverlappingInputs, decide_eq_true hl, assertThat_true, Stops.ok_bind]
  exact ⟨inputs, heq, hc, hall, fun hpos => hover hpos (Nat.succ_pos _)⟩

section Bounds

/-- A range around the files that starts and ends with one of them. -/
structure Spans (rank : Bytes → κ) (files : List FileMetaData) (range : InternalKey × InternalKey) :
    Prop where
  smallest : ∃ f ∈ files, f.smallest = range.1
  largest : ∃ f ∈ files, f.largest = range.2
  within : ∀ f ∈ files, rank range.1.userKey ≤ rank f.smallest.userKey ∧
    rank f.largest.userKey ≤ rank range.2.userKey

theorem widenRange_eq (ho : c.OrdersOn D rank) {range : InternalKey × InternalKey}
    (hf : f.WellFormed D rank) (hs : D range.1.userKey) (hl : D range.2.userKey) :
    widenRange c range f = .ok (if KeyBefore rank f.smallest range.1 then f.smallest else range.1,
      if KeyBefore rank range.2 f.largest then f.largest else range.2) := by
  rw [widenRange, InternalKeyComparator.compare_eq ho hf.smallest_mem hs, Stops.ok_bind,
    InternalKeyComparator.compare_eq ho hf.largest_mem hl, Stops.ok_bind]
  have hbelow : (if KeyBefore rank f.smallest range.1 then Ordering.lt
      else if KeyBefore rank range.1 f.smallest then .gt else .eq) = .lt ↔
      KeyBefore rank f.smallest range.1 := by
    split_ifs <;> simp_all
  have habove : (if KeyBefore rank f.largest range.2 then Ordering.lt
      else if KeyBefore rank range.2 f.largest then .gt else .eq) = .gt ↔
      KeyBefore rank range.2 f.largest := by
    split_ifs with h1
    · simp [h1.asymm]
    · simpa
    · simpa
  simp only [hbelow, habove]
  rfl

theorem le_of_not_keyBefore {a b : InternalKey} (h : ¬ KeyBefore rank a b) :
    rank b.userKey ≤ rank a.userKey := by
  by_contra hlt
  exact h (Or.inl (not_le.mp hlt))

theorem KeyBefore.le {a b : InternalKey} (h : KeyBefore rank a b) :
    rank a.userKey ≤ rank b.userKey := by
  rcases h with h | ⟨h, -⟩
  · exact h.le
  · exact h.le

theorem Spans.widen {range : InternalKey × InternalKey} (h : Spans rank files range)
    (f : FileMetaData) : Spans rank (files ++ [f])
      (if KeyBefore rank f.smallest range.1 then f.smallest else range.1,
        if KeyBefore rank range.2 f.largest then f.largest else range.2) := by
  obtain ⟨⟨fs, hfs, hs⟩, ⟨fl, hfl, hl⟩, hin⟩ := h
  constructor
  · dsimp only
    split_ifs
    · exact ⟨f, by simp, rfl⟩
    · exact ⟨fs, by simp [hfs], hs⟩
  · dsimp only
    split_ifs
    · exact ⟨f, by simp, rfl⟩
    · exact ⟨fl, by simp [hfl], hl⟩
  · intro g hg
    rcases List.mem_append.mp hg with hg | hg
    · obtain ⟨h1, h2⟩ := hin g hg
      constructor
      · dsimp only
        split_ifs with hb
        · exact hb.le.trans h1
        · exact h1
      · dsimp only
        split_ifs with hb
        · exact h2.trans hb.le
        · exact h2
    · obtain rfl := List.mem_singleton.mp hg
      constructor
      · dsimp only
        split_ifs with hb
        · exact le_rfl
        · exact le_of_not_keyBefore hb
      · dsimp only
        split_ifs with hb
        · exact le_rfl
        · exact le_of_not_keyBefore hb

theorem widenRanges_spec (ho : c.OrdersOn D rank) (more : List FileMetaData)
    {range : InternalKey × InternalKey} (h : Spans rank files range)
    (hf : ∀ f ∈ files ++ more, f.WellFormed D rank) :
    ∃ range', more.foldlM (widenRange c) range = .ok range' ∧ Spans rank (files ++ more) range' := by
  induction more generalizing files range with
  | nil => exact ⟨range, rfl, by rwa [List.append_nil]⟩
  | cons g more ih =>
    have happ : files ++ g :: more = (files ++ [g]) ++ more := by simp
    obtain ⟨fs, hfs, hs⟩ := h.smallest
    obtain ⟨fl, hfl, hl⟩ := h.largest
    have hsD : D range.1.userKey := hs ▸ (hf fs (List.mem_append_left _ hfs)).smallest_mem
    have hlD : D range.2.userKey := hl ▸ (hf fl (List.mem_append_left _ hfl)).largest_mem
    rw [List.foldlM_cons, widenRange_eq ho (hf g (by simp)) hsD hlD, Stops.ok_bind, happ]
    rw [happ] at hf
    exact ih (h.widen g) hf

theorem getRange_spec (ho : c.OrdersOn D rank) (hne : files ≠ [])
    (hf : ∀ f ∈ files, f.WellFormed D rank) :
    ∃ range, getRange c files = .ok range ∧ Spans rank files range := by
  cases files with
  | nil => exact absurd rfl hne
  | cons f files =>
    have hone : Spans rank [f] (f.smallest, f.largest) := by
      refine ⟨⟨f, by simp, rfl⟩, ⟨f, by simp, rfl⟩, ?_⟩
      intro g hg
      obtain rfl := List.mem_singleton.mp hg
      exact ⟨le_rfl, le_rfl⟩
    exact widenRanges_spec ho files hone hf

theorem Spans.places {range : InternalKey × InternalKey} (ho : c.OrdersOn D rank)
    (h : Spans rank files range) (hf : ∀ f ∈ files, f.WellFormed D rank) :
    (∀ k ∈ some range.1.userKey, c.Places D rank k) ∧
      ∀ k ∈ some range.2.userKey, c.Places D rank k := by
  obtain ⟨fs, hfs, hs⟩ := h.smallest
  obtain ⟨fl, hfl, hl⟩ := h.largest
  constructor
  · rintro _ ⟨⟩
    exact ho.places (hs ▸ (hf fs hfs).smallest_mem)
  · rintro _ ⟨⟩
    exact ho.places (hl ▸ (hf fl hfl).largest_mem)

theorem Spans.overlaps {range : InternalKey × InternalKey} (h : Spans rank files range)
    (hf : f.WellFormed D rank) (hmem : f ∈ files) :
    Overlaps rank (some range.1.userKey) (some range.2.userKey) f := by
  obtain ⟨h1, h2⟩ := h.within f hmem
  constructor
  · rintro _ ⟨⟩
    exact not_lt.mpr (h1.trans hf.smallest_le)
  · rintro _ ⟨⟩
    exact not_lt.mpr (hf.smallest_le.trans h2)

theorem Spans.onOneSide {range : InternalKey × InternalKey} (h : Spans rank files range)
    (hg : ¬ Overlaps rank (some range.1.userKey) (some range.2.userKey) g)
    (hgw : g.WellFormed D rank) {more : List FileMetaData}
    (hmore : ∀ f ∈ more, Overlaps rank (some range.1.userKey) (some range.2.userKey) f ∧
      Apart rank g f) :
    OnOneSide rank (files ++ more) g := by
  rw [Overlaps, not_and_or] at hg
  rcases hg with hg | hg
  · push Not at hg
    obtain ⟨k, ⟨⟩, hlt⟩ := hg
    left
    intro f hf
    rcases List.mem_append.mp hf with hf | hf
    · exact hlt.trans_le (h.within f hf).1
    · obtain ⟨hover, hapart⟩ := hmore f hf
      refine hapart.resolve_right fun hbad => ?_
      have hle := hover.1 range.1.userKey rfl
      exact hle ((hbad.trans_le hgw.smallest_le).trans hlt)
  · push Not at hg
    obtain ⟨k, ⟨⟩, hlt⟩ := hg
    right
    intro f hf
    rcases List.mem_append.mp hf with hf | hf
    · exact (h.within f hf).2.trans_lt hlt
    · obtain ⟨hover, hapart⟩ := hmore f hf
      refine hapart.resolve_left fun hbad => ?_
      have hle := hover.2 range.2.userKey rfl
      exact hle ((hlt.trans_le hgw.smallest_le).trans hbad)

end Bounds

section Boundary

theorem largerKey_eq (ho : c.OrdersOn D rank) {key : InternalKey} (hf : f.WellFormed D rank)
    (hk : D key.userKey) :
    largerKey c key f = .ok (if KeyBefore rank key f.largest then f.largest else key) := by
  have hiff : (if KeyBefore rank f.largest key then Ordering.lt
      else if KeyBefore rank key f.largest then .gt else .eq) = .gt ↔
      KeyBefore rank key f.largest := by
    split_ifs with h1
    · simp [h1.asymm]
    · simpa
    · simpa
  rw [largerKey, InternalKeyComparator.compare_eq ho hf.largest_mem hk, Stops.ok_bind]
  simp only [hiff]
  rfl

structure Largest (rank : Bytes → κ) (files : List FileMetaData) (key : InternalKey) : Prop where
  mem : ∃ f ∈ files, f.largest = key
  upper : ∀ f ∈ files, ¬ KeyBefore rank key f.largest

theorem Largest.larger {key : InternalKey} (h : Largest rank files key) (f : FileMetaData) :
    Largest rank (files ++ [f]) (if KeyBefore rank key f.largest then f.largest else key) := by
  obtain ⟨⟨g, hg, hkey⟩, hupper⟩ := h
  by_cases hb : KeyBefore rank key f.largest
  · rw [if_pos hb]
    refine ⟨⟨f, by simp, rfl⟩, ?_⟩
    intro f' hf'
    rcases List.mem_append.mp hf' with hf' | hf'
    · intro hlt
      exact hupper f' hf' (hb.trans hlt)
    · obtain rfl := List.mem_singleton.mp hf'
      exact fun hlt => hlt.asymm hlt
  · rw [if_neg hb]
    refine ⟨⟨g, by simp [hg], hkey⟩, ?_⟩
    intro f' hf'
    rcases List.mem_append.mp hf' with hf' | hf'
    · exact hupper f' hf'
    · obtain rfl := List.mem_singleton.mp hf'
      exact hb

theorem largerKeys_spec (ho : c.OrdersOn D rank) (more : List FileMetaData) {key : InternalKey}
    (h : Largest rank files key) (hf : ∀ f ∈ files ++ more, f.WellFormed D rank) :
    ∃ key', more.foldlM (largerKey c) key = .ok key' ∧ Largest rank (files ++ more) key' := by
  induction more generalizing files key with
  | nil => exact ⟨key, rfl, by rwa [List.append_nil]⟩
  | cons g more ih =>
    have happ : files ++ g :: more = (files ++ [g]) ++ more := by simp
    obtain ⟨fl, hfl, hl⟩ := h.mem
    have hD : D key.userKey := hl ▸ (hf fl (List.mem_append_left _ hfl)).largest_mem
    rw [List.foldlM_cons, largerKey_eq ho (hf g (by simp)) hD, Stops.ok_bind, happ]
    rw [happ] at hf
    exact ih (h.larger g) hf

theorem findLargestKey_spec (ho : c.OrdersOn D rank) (hne : files ≠ [])
    (hf : ∀ f ∈ files, f.WellFormed D rank) :
    ∃ key, findLargestKey c files = .ok (some key) ∧ Largest rank files key := by
  cases files with
  | nil => exact absurd rfl hne
  | cons f files =>
    have hone : Largest rank [f] f.largest := by
      refine ⟨⟨f, by simp, rfl⟩, ?_⟩
      intro g hg
      obtain rfl := List.mem_singleton.mp hg
      exact fun hlt => hlt.asymm hlt
    obtain ⟨key, hkey, hl⟩ := largerKeys_spec ho files hone hf
    refine ⟨key, ?_, hl⟩
    rw [findLargestKey, hkey]
    rfl

theorem Closed.no_boundary (hc : Closed rank levelFiles files) {key : InternalKey}
    (hl : Largest rank files key) (hf : ∀ f ∈ levelFiles, f.WellFormed D rank)
    (hg : g ∈ levelFiles) (hlt : KeyBefore rank key g.smallest) :
    rank g.smallest.userKey ≠ rank key.userKey := by
  intro heq
  have hgw := hf g hg
  by_cases hmem : g ∈ files
  · apply hl.upper g hmem
    rcases KeyBefore.total rank g.smallest g.largest with hb | hb | ⟨hr, htag⟩
    · exact hlt.trans hb
    · exact absurd hb hgw.not_largest_before
    · rcases hlt with hlt | ⟨hk, hlt⟩
      · exact Or.inl (hlt.trans_eq hr)
      · exact Or.inr ⟨hk.trans hr, htag ▸ hlt⟩
  · obtain ⟨f, hfm, hkey⟩ := hl.mem
    have hfw := hf f (hc.sublist.subset hfm)
    rw [← hkey] at heq
    rcases hc.apart g hg hmem f hfm with h | h
    · have := hgw.smallest_le.trans_lt h
      rw [heq] at this
      exact absurd hfw.smallest_le (not_le.mpr this)
    · rw [heq] at h
      exact lt_irrefl _ h

theorem isBoundaryFile_eq (ho : c.OrdersOn D rank) (hg : g.WellFormed D rank) {key : InternalKey}
    (hk : D key.userKey)
    (hne : KeyBefore rank key g.smallest → rank g.smallest.userKey ≠ rank key.userKey) :
    isBoundaryFile c key g = .ok false := by
  rw [isBoundaryFile, InternalKeyComparator.compare_eq ho hg.smallest_mem hk, Stops.ok_bind]
  by_cases hb : KeyBefore rank key g.smallest
  · rw [if_neg hb.asymm, if_pos hb, if_pos rfl, ho.compare_eq _ _ hg.smallest_mem hk, Stops.ok_bind]
    have hcmp : cmp (rank g.smallest.userKey) (rank key.userKey) ≠ .eq := by
      rw [ne_eq, cmp_eq_eq_iff]
      exact hne hb
    rw [beq_eq_false_iff_ne.mpr hcmp]
    rfl
  · rw [if_neg (by split_ifs <;> simp)]
    rfl

theorem findSmallestBoundaryFile_eq {key : InternalKey}
    (hb : ∀ g ∈ levelFiles, isBoundaryFile c key g = .ok false) :
    findSmallestBoundaryFile c levelFiles key = .ok none := by
  unfold findSmallestBoundaryFile
  induction levelFiles with
  | nil => rfl
  | cons g levelFiles ih =>
    have hstep : boundaryStep c key none g = .ok none := by
      rw [boundaryStep, hb g List.mem_cons_self]
      rfl
    rw [List.foldlM_cons, hstep, Stops.ok_bind]
    exact ih fun g' hg' => hb g' (List.mem_cons_of_mem _ hg')

theorem addBoundaryInputs_eq (ho : c.OrdersOn D rank) (hne : files ≠ [])
    (hf : ∀ f ∈ levelFiles, f.WellFormed D rank) (hc : Closed rank levelFiles files) :
    addBoundaryInputs c levelFiles files = .ok files := by
  obtain ⟨key, hkey, hl⟩ :=
    findLargestKey_spec ho hne fun f hmem => hf f (hc.sublist.subset hmem)
  obtain ⟨f, hfm, hfk⟩ := hl.mem
  have hD : D key.userKey := hfk ▸ (hf f (hc.sublist.subset hfm)).largest_mem
  have hnone := findSmallestBoundaryFile_eq fun g hg =>
    isBoundaryFile_eq ho (hf g hg) hD fun hlt => hc.no_boundary hl hf hg hlt
  rw [addBoundaryInputs, hkey, Stops.ok_bind]
  simp only [addBoundaryLoop, hnone, Stops.ok_bind]
  rfl

end Boundary

section Choice

variable {o : Options} {parents : List FileMetaData} {range : InternalKey × InternalKey}

theorem Closed.wellFormed (hc : Closed rank (v.files level) files) (h : v.WellFormed D rank) :
    ∀ f ∈ files, f.WellFormed D rank :=
  fun f hf => h.file level f (hc.sublist.subset hf)

theorem Matched.wellFormed (hm : Matched rank v level inputs parents) (h : v.WellFormed D rank) :
    ∀ f ∈ inputs ++ parents, f.WellFormed D rank := by
  intro f hf
  rcases List.mem_append.mp hf with hf | hf
  · exact hm.inputs_closed.wellFormed h f hf
  · exact hm.parents_closed.wellFormed h f hf

theorem parents_spec (ho : c.OrdersOn D rank) (h : v.WellFormed D rank) (ht : v.Tidy rank)
    (hl : level + 1 < kNumLevels) (hne : inputs ≠ []) (hc : Closed rank (v.files level) inputs)
    (hs : Spans rank inputs range) :
    ∃ parents, v.getOverlappingInputs c (level + 1) (some range.1.userKey)
        (some range.2.userKey) = .ok parents ∧ Matched rank v level inputs parents := by
  obtain ⟨hb, he⟩ := hs.places ho (hc.wellFormed h)
  obtain ⟨parents, heq, hclosed, hall, hover⟩ := getOverlappingInputs_spec ho h ht hl hb he
  refine ⟨parents, heq, hne, hc, hclosed, ?_⟩
  intro g hg hng
  apply hs.onOneSide (fun hov => hng (hall g hg hov)) (h.file _ g hg)
  intro f hf
  exact ⟨hover (Nat.succ_pos _) f hf, hclosed.apart g hg hng f hf⟩

structure Expansion.Fits (rank : Bytes → κ) (v : Version) (level : ℕ) (x : Expansion) : Prop where
  matched : Matched rank v level x.inputs x.parents
  largest : ∃ f ∈ x.inputs, f.largest = x.largest
  spans : Spans rank (x.inputs ++ x.parents) x.all

theorem growInputs_spec (ho : o.comparator.OrdersOn D rank) (h : v.WellFormed D rank)
    (ht : v.Tidy rank) (hl : level + 1 < kNumLevels) {x : Expansion} (hx : x.Fits rank v level)
    {expanded : List FileMetaData} (hc : Closed rank (v.files level) expanded) :
    ∃ x', growInputs o v level x expanded = .ok x' ∧ x'.Fits rank v level := by
  rw [growInputs]
  split_ifs with hgrow
  · have hne : expanded ≠ [] := by
      rw [← List.length_pos_iff]
      exact (Nat.zero_le _).trans_lt hgrow.1
    obtain ⟨newRange, hrange, hspans⟩ := getRange_spec ho hne (hc.wellFormed h)
    obtain ⟨expanded1, heq, hm'⟩ := parents_spec ho h ht hl hne hc hspans
    rw [hrange, Stops.ok_bind]
    simp only [heq, Stops.ok_bind]
    split_ifs
    · obtain ⟨all, hall, hspans'⟩ := getRange_spec ho (by simp [hne]) (hm'.wellFormed h)
      rw [hall, Stops.ok_bind]
      exact ⟨_, rfl, hm', hspans.largest, hspans'⟩
    · exact ⟨x, rfl, hx⟩
  · exact ⟨x, rfl, hx⟩

theorem expandInputs_spec (ho : o.comparator.OrdersOn D rank) (h : v.WellFormed D rank)
    (ht : v.Tidy rank) (hl : level + 1 < kNumLevels) {x : Expansion}
    (hx : x.Fits rank v level) :
    ∃ x', expandInputs o v level x = .ok x' ∧ x'.Fits rank v level := by
  have hm := hx.matched
  have hs := hx.spans
  rw [expandInputs]
  split_ifs with hempty
  · exact ⟨x, rfl, hx⟩
  · obtain ⟨hb, he⟩ := hs.places ho (hm.wellFormed h)
    obtain ⟨expanded, heq, hc, hall, -⟩ := getOverlappingInputs_spec ho h ht (Nat.lt_of_succ_lt hl) hb he
    obtain ⟨f, hf⟩ := List.exists_mem_of_ne_nil _ hm.nonempty
    have hfw := hm.inputs_closed.wellFormed h f hf
    have hmem : f ∈ expanded :=
      hall f (hm.inputs_closed.sublist.subset hf) (hs.overlaps hfw (List.mem_append_left _ hf))
    rw [heq, Stops.ok_bind, addBoundaryInputs_eq ho (List.ne_nil_of_mem hmem) (h.file level) hc,
      Stops.ok_bind]
    exact growInputs_spec ho h ht hl hx hc

variable (level) in
theorem grandparentsOf_spec (ho : o.comparator.OrdersOn D rank) (h : v.WellFormed D rank)
    (ht : v.Tidy rank) (hb : ∀ k ∈ some range.1.userKey, o.comparator.Places D rank k)
    (he : ∀ k ∈ some range.2.userKey, o.comparator.Places D rank k) :
    ∃ files, grandparentsOf o v level range.1 range.2 = .ok files ∧
      ∀ f ∈ files, f ∈ v.files (level + 2) := by
  rw [grandparentsOf]
  split_ifs with hl
  · obtain ⟨files, heq, hc, -⟩ := getOverlappingInputs_spec ho h ht hl hb he
    exact ⟨files, heq, fun f hf => hc.sublist.subset hf⟩
  · exact ⟨[], rfl, by simp⟩

theorem setupOtherInputs_spec (ho : o.comparator.OrdersOn D rank) (h : v.WellFormed D rank)
    (ht : v.Tidy rank) (hl : level + 1 < kNumLevels) (hne : inputs ≠ [])
    (hc : Closed rank (v.files level) inputs) :
    ∃ files, setupOtherInputs o v level inputs = .ok files ∧ Chosen rank v level files := by
  obtain ⟨range, hrange, hs⟩ := getRange_spec ho hne (hc.wellFormed h)
  obtain ⟨parents, hparents, hm⟩ := parents_spec ho h ht hl hne hc hs
  obtain ⟨all, hall, hspans⟩ := getRange_spec ho (by simp [hne]) (hm.wellFormed h)
  have hfits : Expansion.Fits rank v level ⟨inputs, parents, range.2, all⟩ :=
    ⟨hm, hs.largest, hspans⟩
  obtain ⟨x, hexpand, hx⟩ := expandInputs_spec ho h ht hl hfits
  obtain ⟨hb, he⟩ := hx.spans.places ho (hx.matched.wellFormed h)
  obtain ⟨grandparents, hgrand, hgmem⟩ := grandparentsOf_spec level ho h ht hb he
  rw [setupOtherInputs, addBoundaryInputs_eq ho hne (h.file level) hc, Stops.ok_bind, hrange,
    Stops.ok_bind]
  simp only [hparents, hall, hexpand, hgrand, Stops.ok_bind]
  exact ⟨_, rfl, hl, hx.matched, hgmem, hx.largest⟩

theorem initialInputs_spec (ho : o.comparator.OrdersOn D rank) (h : v.WellFormed D rank)
    (ht : v.Tidy rank) (hf : f ∈ v.files level) :
    ∃ inputs, initialInputs o v level f = .ok inputs ∧ inputs ≠ [] ∧
      Closed rank (v.files level) inputs := by
  rw [initialInputs]
  split_ifs with hl
  · subst hl
    have hfw : ∀ g ∈ [f], g.WellFormed D rank := by
      intro g hg
      obtain rfl := List.mem_singleton.mp hg
      exact h.file 0 _ hf
    obtain ⟨range, hrange, hs⟩ := getRange_spec ho (List.cons_ne_nil f []) hfw
    obtain ⟨hb, he⟩ := hs.places ho hfw
    obtain ⟨inputs, heq, hc, hall, -⟩ := getOverlappingInputs_spec ho h ht (by decide : 0 < kNumLevels) hb he
    have hmem : f ∈ inputs :=
      hall f hf (hs.overlaps (hfw f List.mem_cons_self) List.mem_cons_self)
    have hne : inputs ≠ [] := List.ne_nil_of_mem hmem
    have hassert : (!inputs.isEmpty) = true := by simpa using hne
    rw [hrange, Stops.ok_bind]
    simp only [heq, Stops.ok_bind, hassert, assertThat_true]
    exact ⟨inputs, rfl, hne, hc⟩
  · exact ⟨[f], rfl, List.cons_ne_nil _ _,
      ht.closed (Nat.pos_of_ne_zero hl) (List.singleton_sublist.mpr hf)⟩

theorem firstFileAfter_spec (ho : o.comparator.OrdersOn D rank) {pointer : Option InternalKey}
    (hp : ∀ key ∈ pointer, D key.userKey) (hf : ∀ f ∈ files, f.WellFormed D rank) :
    ∃ r, firstFileAfter o pointer files = .ok r ∧ ∀ f ∈ r, f ∈ files := by
  induction files with
  | nil => exact ⟨none, rfl, by simp⟩
  | cons f files ih =>
    obtain ⟨after, hafter⟩ : ∃ after, comesAfter o pointer f = .ok after := by
      cases pointer with
      | none => exact ⟨true, rfl⟩
      | some key =>
        rw [comesAfter, InternalKeyComparator.compare_eq ho (hf f List.mem_cons_self).largest_mem
          (hp key rfl)]
        exact ⟨_, rfl⟩
    obtain ⟨r, hr, hmem⟩ := ih fun f' h' => hf f' (List.mem_cons_of_mem _ h')
    rw [firstFileAfter, hafter, Stops.ok_bind]
    split_ifs
    · refine ⟨some f, rfl, ?_⟩
      rintro _ ⟨⟩
      exact List.mem_cons_self
    · exact ⟨r, hr, fun f' h' => List.mem_cons_of_mem _ (hmem f' h')⟩

theorem pickFile_spec (ho : o.comparator.OrdersOn D rank) (h : v.WellFormed D rank)
    {compactPointers : ℕ → Option InternalKey} (hp : PointersIn D compactPointers)
    (reason : CompactionReason) :
    ∃ r, pickFile o v compactPointers reason = .ok r ∧ ∀ f ∈ r, f ∈ v.files reason.level := by
  cases reason with
  | size level =>
    obtain ⟨r, hr, hmem⟩ := firstFileAfter_spec ho (hp level) (h.file level)
    rw [pickFile, hr, Stops.ok_bind]
    cases r with
    | some f => exact ⟨some f, rfl, hmem⟩
    | none => exact ⟨_, rfl, fun f hf => List.mem_of_mem_head? hf⟩
  | seek level index => exact ⟨_, rfl, fun f hf => List.mem_of_getElem? hf⟩

theorem CompactionReason.level_lt (reason : CompactionReason) :
    reason.level + 1 < kNumLevels := by
  cases reason with
  | size level => exact Nat.add_lt_of_lt_sub level.isLt
  | seek level index => exact Nat.add_lt_of_lt_sub level.isLt

theorem pickCompaction_spec (ho : o.comparator.OrdersOn D rank) (h : v.WellFormed D rank)
    (ht : v.Tidy rank) {compactPointers : ℕ → Option InternalKey}
    (hp : PointersIn D compactPointers) (reason : CompactionReason) :
    ∃ r, pickCompaction o v compactPointers reason = .ok r ∧
      ∀ files ∈ r, Chosen rank v reason.level files := by
  obtain ⟨r, hr, hmem⟩ := pickFile_spec ho h hp reason
  rw [pickCompaction, hr, Stops.ok_bind]
  cases r with
  | none => exact ⟨none, rfl, by simp⟩
  | some f =>
    have hl := reason.level_lt
    obtain ⟨inputs, hin, hne, hc⟩ := initialInputs_spec ho h ht (hmem f rfl)
    obtain ⟨files, hfiles, hchosen⟩ := setupOtherInputs_spec ho h ht hl hne hc
    simp only [decide_eq_true hl, assertThat_true, Stops.ok_bind, hin, hfiles]
    refine ⟨some files, rfl, ?_⟩
    rintro _ ⟨⟩
    exact hchosen

theorem limitInputs_prefix (limit total : ℕ) (files : List FileMetaData) :
    limitInputs limit total files <+: files := by
  induction files generalizing total with
  | nil => exact List.prefix_rfl
  | cons f files ih =>
    rw [limitInputs]
    split_ifs
    · exact ⟨files, rfl⟩
    · exact (List.cons_prefix_cons.mpr ⟨rfl, ih _⟩)

theorem limitInputs_ne_nil (limit total : ℕ) (hne : files ≠ []) :
    limitInputs limit total files ≠ [] := by
  cases files with
  | nil => exact absurd rfl hne
  | cons f files =>
    rw [limitInputs]
    split_ifs <;> simp

theorem compactRangeInputs_spec (ho : o.comparator.OrdersOn D rank) (h : v.WellFormed D rank)
    (ht : v.Tidy rank) (hl : level + 1 < kNumLevels)
    (hb : ∀ k ∈ userBegin, o.comparator.Places D rank k)
    (he : ∀ k ∈ userEnd, o.comparator.Places D rank k) :
    ∃ r, compactRangeInputs o v level userBegin userEnd = .ok r ∧
      ∀ files ∈ r, Chosen rank v level files := by
  obtain ⟨inputs, hin, hc, -⟩ := getOverlappingInputs_spec ho h ht (Nat.lt_of_succ_lt hl) hb he
  rw [compactRangeInputs, hin, Stops.ok_bind]
  split_ifs with hempty hpos
  · exact ⟨none, rfl, by simp⟩
  · have hne : inputs ≠ [] := by simpa using hempty
    have hpre := limitInputs_prefix o.maxFileSizeForLevel 0 inputs
    obtain ⟨files, hfiles, hchosen⟩ := setupOtherInputs_spec ho h ht hl
      (limitInputs_ne_nil _ _ hne) (ht.closed hpos (hpre.sublist.trans hc.sublist))
    dsimp only
    rw [hfiles, Stops.ok_bind]
    refine ⟨some files, rfl, ?_⟩
    rintro _ ⟨⟩
    exact hchosen
  · obtain ⟨files, hfiles, hchosen⟩ :=
      setupOtherInputs_spec ho h ht hl (by simpa using hempty) hc
    dsimp only
    rw [hfiles, Stops.ok_bind]
    refine ⟨some files, rfl, ?_⟩
    rintro _ ⟨⟩
    exact hchosen

end Choice

end Spec

end DVELevelDB
