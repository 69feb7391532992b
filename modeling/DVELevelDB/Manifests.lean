import DVELevelDB.AcceptedRecovery
import DVELevelDB.CompactionResults
import DVELevelDB.Lib.EditLog

/-! # What a manifest adds up to

The edits of a manifest, replayed under a comparator that orders the keys as before, give a
version with the same files.
-/

namespace DVELevelDB

open VersionStore EditLog

def VersionEdit.at (edit : VersionEdit) (level : ℕ) : Edit FileMetaData ℕ where
  deleted := (edit.deletedFiles.filter (·.1 = level)).map (·.2)
  added := (edit.newFiles.filter (·.1 = level)).map (·.2)

theorem VersionEdit.mem_added {edit : VersionEdit} {level : ℕ} {f : FileMetaData} :
    f ∈ (edit.at level).added ↔ (level, f) ∈ edit.newFiles := by
  simp [VersionEdit.at]

variable {κ : Type*} [LinearOrder κ] {c : Comparator} {D : Bytes → Prop} {rank : Bytes → κ}
  {v v' : Version} {level : ℕ} {f g : FileMetaData} {files : List FileMetaData}
  {edit : VersionEdit} {edits : List VersionEdit}

section AddedFiles

theorem SmallerKey.trans {f' : FileMetaData} (h : SmallerKey rank f g)
    (h' : SmallerKey rank g f') : SmallerKey rank f f' := by
  rcases h with h | ⟨h, hn⟩ <;> rcases h' with h' | ⟨h', hn'⟩
  · exact Or.inl (h.trans h')
  · refine Or.inl ?_
    rcases KeyBefore.total rank g.smallest f'.smallest with hb | hb | ⟨hr, ht⟩
    · exact h.trans hb
    · exact absurd hb h'
    · unfold KeyBefore at h ⊢
      rwa [← hr, ← ht]
  · exact Or.inl (KeyBefore.of_not_before h h')
  · refine Or.inr ⟨fun hb => ?_, hn.trans hn'⟩
    exact h (KeyBefore.of_not_before h' hb)

theorem SmallerKey.asymm (h : SmallerKey rank f g) : ¬ SmallerKey rank g f := by
  rintro (hb' | ⟨hb', hn'⟩) <;> rcases h with hb | ⟨hb, hn⟩
  · exact hb.asymm hb'
  · exact hb hb'
  · exact hb' hb
  · exact absurd hn hn'.asymm

theorem SmallerKey.number_eq (h : ¬ SmallerKey rank f g) (h' : ¬ SmallerKey rank g f) :
    f.number = g.number := by
  unfold SmallerKey at h h'
  push Not at h h'
  exact le_antisymm (h'.2 h.1) (h.2 h'.1)

theorem bySmallestKey_of_mem (ho : c.OrdersOn D rank) (hf : D f.smallest.userKey)
    (hg : D g.smallest.userKey) : bySmallestKey c f g = .ok (decide (SmallerKey rank f g)) := by
  rw [bySmallestKey, InternalKeyComparator.compare_eq ho hf hg, Stops.ok_bind]
  unfold SmallerKey
  by_cases h1 : KeyBefore rank f.smallest g.smallest
  · simp [h1, pure, Except.pure]
  · by_cases h2 : KeyBefore rank g.smallest f.smallest <;> simp [h1, h2, pure, Except.pure]

theorem insertFile_spec (ho : c.OrdersOn D rank) (hf : D f.smallest.userKey)
    (hw : ∀ g ∈ files, D g.smallest.userKey) (hs : files.Pairwise (SmallerKey rank))
    (hn : ∀ g ∈ files, f.number = g.number → f = g) :
    ∃ out, insertFile c f files = .ok out ∧ out.Pairwise (SmallerKey rank) ∧
      ∀ x, x ∈ out ↔ x = f ∨ x ∈ files := by
  induction files with
  | nil => exact ⟨[f], rfl, List.pairwise_singleton _ _, by simp⟩
  | cons g files ih =>
    have hgw := hw g List.mem_cons_self
    obtain ⟨hg, hrest⟩ := List.pairwise_cons.mp hs
    rw [insertFile, bySmallestKey_of_mem ho hf hgw, Stops.ok_bind]
    by_cases hfg : SmallerKey rank f g
    · rw [if_pos (decide_eq_true hfg)]
      refine ⟨f :: g :: files, rfl, List.pairwise_cons.mpr ⟨?_, hs⟩, by simp⟩
      intro x hx
      rcases List.mem_cons.mp hx with rfl | hx
      · exact hfg
      · exact hfg.trans (hg x hx)
    rw [if_neg (by simpa using hfg), bySmallestKey_of_mem ho hgw hf, Stops.ok_bind]
    by_cases hgf : SmallerKey rank g f
    · obtain ⟨out, hout, hpair, hmem⟩ := ih (fun x hx => hw x (List.mem_cons_of_mem _ hx)) hrest
        fun x hx => hn x (List.mem_cons_of_mem _ hx)
      rw [if_pos (decide_eq_true hgf), hout, Stops.ok_bind]
      refine ⟨g :: out, rfl, List.pairwise_cons.mpr ⟨?_, hpair⟩, fun x => ?_⟩
      · intro x hx
        rcases (hmem x).mp hx with rfl | hx
        · exact hgf
        · exact hg x hx
      · rw [List.mem_cons, hmem, List.mem_cons]
        tauto
    · rw [if_neg (by simpa using hgf)]
      obtain rfl := hn g List.mem_cons_self (SmallerKey.number_eq hfg hgf)
      exact ⟨f :: files, rfl, hs, by simp⟩

theorem insertFiles_spec (ho : c.OrdersOn D rank) {more : List FileMetaData}
    (hw : ∀ g ∈ files ++ more, D g.smallest.userKey) (hs : files.Pairwise (SmallerKey rank))
    (hn : Named FileMetaData.number (files ++ more)) :
    ∃ out, more.foldlM (fun set f => insertFile c f set) files = .ok out ∧
      out.Pairwise (SmallerKey rank) ∧ ∀ x, x ∈ out ↔ x ∈ files ++ more := by
  induction more generalizing files with
  | nil => exact ⟨files, rfl, hs, by simp⟩
  | cons f more ih =>
    have hf : f ∈ files ++ f :: more := by simp
    have hfiles : ∀ g ∈ files, g ∈ files ++ f :: more := fun g hg => List.mem_append_left _ hg
    obtain ⟨set, hset, hpair, hmem⟩ := insertFile_spec ho (hw f hf)
      (fun g hg => hw g (hfiles g hg)) hs fun g hg => hn f hf g (hfiles g hg)
    have hsub : ∀ x, x ∈ set ++ more ↔ x ∈ files ++ f :: more := by
      intro x
      rw [List.mem_append, hmem, List.mem_append, List.mem_cons]
      tauto
    obtain ⟨out, hout, hpair', hmem'⟩ := ih (fun g hg => hw g ((hsub g).mp hg)) hpair
      (hn.subset fun x hx => (hsub x).mp hx)
    refine ⟨out, ?_, hpair', fun x => (hmem' x).trans (hsub x)⟩
    rw [List.foldlM_cons, hset, Stops.ok_bind, hout]

end AddedFiles

section Replay

variable {deleted : List ℕ} {added : List FileMetaData}

def addedFiles (edits : List VersionEdit) : List FileMetaData :=
  edits.flatMap fun edit => edit.newFiles.map (·.2)

theorem mem_addedFiles
    (hf : f ∈ EditLog.added (edits.map (·.at level))) : f ∈ addedFiles edits := by
  obtain ⟨e, he, hfe⟩ := List.mem_flatMap.mp hf
  obtain ⟨edit, hedit, rfl⟩ := List.mem_map.mp he
  exact List.mem_flatMap.mpr ⟨edit, hedit, List.mem_map_of_mem (VersionEdit.mem_added.mp hfe)⟩

/-- The files that a replay has added, and the numbers it has deleted. -/
structure Replayed (rank : Bytes → κ) (level : ℕ) (edits : List VersionEdit)
    (state : List ℕ × List FileMetaData) : Prop where
  pairwise : state.2.Pairwise (SmallerKey rank)
  added : ∀ x, x ∈ state.2 ↔ x ∈ EditLog.added (edits.map (·.at level))
  deleted : ∀ n, n ∈ state.1 ↔ n ∈ gone FileMetaData.number (edits.map (·.at level))

/-- Adding files to a set takes their numbers out of the deleted ones. -/
theorem applyEdit_split (new : List (ℕ × FileMetaData))
    (hadded : (new.map (·.2)).foldlM (fun set f => insertFile c f set) added = .ok files) :
    new.foldlM (fun (state : List ℕ × List FileMetaData) f => do
        return (state.1.filter (· ≠ f.2.number), ← insertFile c f.2 state.2)) (deleted, added) =
      .ok (deleted.filter fun n => n ∉ new.map (·.2.number), files) := by
  induction new generalizing deleted added with
  | nil =>
    obtain rfl := Except.ok.inj hadded
    simp [pure, Except.pure]
  | cons x new ih =>
    rw [List.map_cons, List.foldlM_cons] at hadded
    obtain ⟨set, hset, hrest⟩ := Stops.bind_eq_ok.mp hadded
    rw [List.foldlM_cons, hset, Stops.ok_bind, pure_bind, ih hrest, List.filter_filter]
    simp only [List.map_cons, List.mem_cons, not_or, Bool.decide_and, Bool.and_comm]

theorem applyEdit_spec (ho : c.OrdersOn D rank) {state : List ℕ × List FileMetaData}
    (h : Replayed rank level edits state)
    (hw : ∀ g ∈ addedFiles (edits ++ [edit]), D g.smallest.userKey)
    (hn : Named FileMetaData.number (addedFiles (edits ++ [edit]))) :
    ∃ state', applyEdit c level state edit = .ok state' ∧
      Replayed rank level (edits ++ [edit]) state' := by
  obtain ⟨deleted, added⟩ := state
  have hmap : (edits ++ [edit]).map (·.at level) = edits.map (·.at level) ++ [edit.at level] := by
    simp
  have hsub : ∀ x ∈ added ++ (edit.at level).added, x ∈ addedFiles (edits ++ [edit]) := by
    intro x hx
    have hadded : x ∈ EditLog.added ((edits ++ [edit]).map (·.at level)) := by
      rw [hmap, mem_added_concat]
      exact (List.mem_append.mp hx).imp (h.added x).mp id
    exact mem_addedFiles hadded
  obtain ⟨files, hfiles, hpair, hmem⟩ := insertFiles_spec ho (fun x hx => hw x (hsub x hx))
    h.pairwise (hn.subset hsub)
  refine ⟨_, applyEdit_split _ hfiles, hpair, ?_, ?_⟩
  · intro x
    rw [hmap, mem_added_concat, hmem, List.mem_append, h.added]
  · intro n
    rw [hmap, mem_gone_concat, List.mem_filter, List.mem_append, h.deleted, decide_eq_true_iff]
    simp [VersionEdit.at]

theorem replayed_nil : Replayed rank level [] ([], []) :=
  ⟨List.Pairwise.nil, fun _ => Iff.rfl, fun _ => Iff.rfl⟩

variable (level) in
theorem foldlM_applyEdit (ho : c.OrdersOn D rank) (edits : List VersionEdit)
    (hw : ∀ g ∈ addedFiles edits, D g.smallest.userKey)
    (hn : Named FileMetaData.number (addedFiles edits)) :
    ∃ state, edits.foldlM (applyEdit c level) ([], []) = .ok state ∧
      Replayed rank level edits state := by
  induction edits using List.reverseRecOn with
  | nil => exact ⟨_, rfl, replayed_nil⟩
  | append_singleton edits edit ih =>
    have hsub : ∀ x ∈ addedFiles edits, x ∈ addedFiles (edits ++ [edit]) := by
      intro x hx
      rw [addedFiles, List.flatMap_append]
      exact List.mem_append_left _ hx
    obtain ⟨state, hstate, hreplayed⟩ := ih (fun g hg => hw g (hsub g hg)) (hn.subset hsub)
    obtain ⟨state', hstate', hreplayed'⟩ := applyEdit_spec ho hreplayed hw hn
    refine ⟨state', ?_, hreplayed'⟩
    rw [List.foldlM_append, hstate, Stops.ok_bind, List.foldlM_cons, hstate', Stops.ok_bind]
    rfl

theorem saveLevel_nil_base (deleted : List ℕ) (files added : List FileMetaData) :
    saveLevel c level deleted files [] added =
      added.foldlM (maybeAddFile c level deleted) files := by
  induction added generalizing files with
  | nil => rfl
  | cons f added ih =>
    rw [saveLevel, List.foldlM_cons]
    have hsearch : BinarySearch.search (fun g => do return !(← bySmallestKey c f g)) [] =
        .ok [] := by
      rw [BinarySearch.search, List.length_nil, BinarySearch.firstNot]
      rfl
    rw [hsearch, Stops.ok_bind]
    simp only [List.take_nil, List.foldlM_nil, pure_bind]
    exact bind_congr fun files => ih files

theorem foldlM_maybeAddFile_filter (more : List FileMetaData) :
    more.foldlM (maybeAddFile c level deleted) files =
      (more.filter fun g => g.number ∉ deleted).foldlM (maybeAddFile c level deleted) files := by
  induction more generalizing files with
  | nil => rfl
  | cons f more ih =>
    by_cases hdel : f.number ∈ deleted
    · have hskip : maybeAddFile c level deleted files f = .ok files := by
        rw [maybeAddFile, if_pos hdel]
        rfl
      rw [List.foldlM_cons, hskip, Stops.ok_bind, ih, List.filter_cons_of_neg (by simpa using hdel)]
    · rw [List.foldlM_cons, List.filter_cons_of_pos (by simpa using hdel), List.foldlM_cons]
      exact bind_congr fun files => ih

theorem strictChain_of_apart (hw : ∀ g ∈ files, g.WellFormed D rank)
    (hs : files.Pairwise (SmallerKey rank))
    (ha : ∀ f ∈ files, ∀ g ∈ files, f ≠ g → Apart rank f g) : StrictChain rank files := by
  refine hs.imp_of_mem ?_
  intro f g hf hg hfg
  have hne : g ≠ f := by
    rintro rfl
    exact hfg.asymm hfg
  have hbefore := (ha g hg f hf hne).fileBefore (hw g hg) (hw f hf)
  rwa [if_pos hfg] at hbefore

/-- A level that the edits add up to: the live files in the order of the set. -/
theorem recoverLevel_spec (ho : c.OrdersOn D rank)
    (hsmallest : ∀ g ∈ addedFiles edits, D g.smallest.userKey)
    (hn : Named FileMetaData.number (addedFiles edits))
    (hw : ∀ f, Live FileMetaData.number (edits.map (·.at level)) f → f.WellFormed D rank)
    (ha : 0 < level → ∀ f g, Live FileMetaData.number (edits.map (·.at level)) f →
      Live FileMetaData.number (edits.map (·.at level)) g → f ≠ g → Apart rank f g) :
    ∃ files, recoverLevel c edits level = .ok files ∧ files.Pairwise (SmallerKey rank) ∧
      ∀ f, f ∈ files ↔ Live FileMetaData.number (edits.map (·.at level)) f := by
  obtain ⟨⟨deleted, added⟩, hstate, hreplayed⟩ := foldlM_applyEdit level ho edits hsmallest hn
  let files := added.filter fun f => f.number ∉ deleted
  have hlive : ∀ f, f ∈ files ↔ Live FileMetaData.number (edits.map (·.at level)) f := by
    intro f
    rw [List.mem_filter, decide_eq_true_iff, Live, ← hreplayed.added, ← hreplayed.deleted]
  have hpair : files.Pairwise (SmallerKey rank) := hreplayed.pairwise.sublist List.filter_sublist
  have hfiles : ∀ f ∈ files, f.WellFormed D rank := fun f hf => hw f ((hlive f).mp hf)
  have hchain : 0 < level → Chain rank files := by
    intro hpos
    refine (strictChain_of_apart hfiles hpair ?_).chain
    intro f hf g hg hne
    exact ha hpos f g ((hlive f).mp hf) ((hlive g).mp hg) hne
  have hkept : files.filter (fun f => f.number ∉ deleted) = files := by
    rw [List.filter_filter]
    simp only [Bool.and_self, files]
  have hsave := foldlM_maybeAddFile_deleted level deleted [] files ho (by simpa using hfiles)
    (hkept.symm ▸ hchain)
  refine ⟨files, ?_, hpair, hlive⟩
  rw [recoverLevel, hstate, Stops.ok_bind]
  dsimp only
  rw [saveLevel_nil_base, foldlM_maybeAddFile_filter, hsave, Stops.ok_bind, List.nil_append, hkept]
  split_ifs with hpos
  · rw [checkDisjoint_eq ho hfiles (hchain hpos)]
    rfl
  · rfl

theorem recoverLevels_eq (files : ℕ → List FileMetaData) (levels : List ℕ)
    (hl : ∀ level, recoverLevel c edits level = .ok (files level)) :
    recoverLevels c edits levels = .ok (levels.map files) := by
  induction levels with
  | nil => rfl
  | cons level levels ih =>
    rw [recoverLevels, hl, Stops.ok_bind, ih]
    rfl

theorem getD_levels (files : ℕ → List FileMetaData) (i : ℕ) :
    ((List.range kNumLevels).map files).getD i [] = if i < kNumLevels then files i else [] := by
  rw [List.getD_eq_getElem?_getD, List.getElem?_map]
  split_ifs with hi
  · rw [List.getElem?_range hi]
    rfl
  · rw [List.getElem?_eq_none (by simpa using hi)]
    rfl

end Replay

section Manifest

def Version.SameFiles (v v' : Version) : Prop := ∀ level f, f ∈ v'.files level ↔ f ∈ v.files level

theorem Version.SameFiles.entries (h : v.SameFiles v') (e : Entry) :
    e ∈ v'.entries ↔ e ∈ v.entries := by
  simp only [mem_entries, mem_levelEntries, h _ _]

theorem Version.WellFormed.of_sameFiles (h : v.WellFormed D rank) (ht : v.Tidy rank)
    (hsame : v.SameFiles v') (hs : ∀ level, (v'.files level).Pairwise (SmallerKey rank)) :
    v'.WellFormed D rank := by
  have hfile : ∀ level, ∀ f ∈ v'.files level, f.WellFormed D rank := fun level f hf =>
    h.file level f ((hsame level f).mp hf)
  have hentries : ∀ level e, e ∈ v'.levelEntries level → e ∈ v.levelEntries level := by
    intro level e he
    obtain ⟨f, hf, hef⟩ := mem_levelEntries.mp he
    exact mem_levelEntries.mpr ⟨f, (hsame level f).mp hf, hef⟩
  refine ⟨hfile, ?_, ?_, ?_, ?_, ?_⟩
  · intro level hl
    refine List.eq_nil_iff_forall_not_mem.mpr fun f hf => ?_
    have hmem := (hsame level f).mp hf
    rw [h.levels level hl] at hmem
    exact List.not_mem_nil hmem
  · intro level hl
    refine sorted_of_strictChain (strictChain_of_apart (hfile level) (hs level) ?_) (hfile level)
    intro f hf g hg
    exact ht.apart level hl f ((hsame level f).mp hf) g ((hsame level g).mp hg)
  · refine (hs 0).imp_of_mem fun {f g} hf hg hfg hn => ?_
    obtain ⟨-, rfl⟩ := ht.number 0 f ((hsame 0 f).mp hf) 0 g ((hsame 0 g).mp hg) hn
    exact hfg.asymm hfg
  · intro f hf g hg
    exact h.newer_file f ((hsame 0 f).mp hf) g ((hsame 0 g).mp hg)
  · intro i j hij a ha b hb
    exact h.newer_level i j hij a (hentries i a ha) b (hentries j b hb)

/-- `v` has the files that the edits add up to; their numbers are below `next`. -/
structure Describes (D : Bytes → Prop) (edits : List VersionEdit) (next : ℕ) (v : Version) :
    Prop where
  pointers : ∀ edit ∈ edits, ∀ p ∈ edit.compactPointers, D p.2.userKey
  smallest : ∀ f ∈ addedFiles edits, D f.smallest.userKey
  named : Named FileMetaData.number (addedFiles edits)
  number_lt : ∀ f ∈ addedFiles edits, f.number < next
  files : ∀ level f, f ∈ v.files level ↔ Live FileMetaData.number (edits.map (·.at level)) f

variable {next next' : ℕ}

omit [LinearOrder κ] in
theorem Describes.mem_addedFiles (h : Describes D edits next v) (hf : f ∈ v.files level) :
    f ∈ addedFiles edits :=
  DVELevelDB.mem_addedFiles ((h.files level f).mp hf).1

omit [LinearOrder κ] in
theorem Describes.of_sameFiles (h : Describes D edits next v) (hsame : v.SameFiles v') :
    Describes D edits next v' :=
  ⟨h.pointers, h.smallest, h.named, h.number_lt,
    fun level f => (hsame level f).trans (h.files level f)⟩

theorem recoverVersion_spec (ho : c.OrdersOn D rank) (h : Describes D edits next v)
    (hv : v.WellFormed D rank) (ht : v.Tidy rank) :
    ∃ v', recoverVersion c edits = .ok v' ∧ v.SameFiles v' ∧ v'.WellFormed D rank ∧
      v'.Tidy rank := by
  have hlevel : ∀ level, ∃ files, recoverLevel c edits level = .ok files ∧
      files.Pairwise (SmallerKey rank) ∧ ∀ f, f ∈ files ↔ f ∈ v.files level := by
    intro level
    have ha : 0 < level → ∀ f g, Live FileMetaData.number (edits.map (·.at level)) f →
        Live FileMetaData.number (edits.map (·.at level)) g → f ≠ g → Apart rank f g := by
      intro hl f g hf hg
      exact ht.apart level hl f ((h.files level f).mpr hf) g ((h.files level g).mpr hg)
    obtain ⟨files, hfiles, hpair, hmem⟩ := recoverLevel_spec ho h.smallest h.named
      (fun f hf => hv.file level f ((h.files level f).mpr hf)) ha
    exact ⟨files, hfiles, hpair, fun f => (hmem f).trans (h.files level f).symm⟩
  choose files hfiles hpair hmem using hlevel
  let v' : Version := ⟨fun level => ((List.range kNumLevels).map files).getD level []⟩
  have hsame : v.SameFiles v' := by
    intro level f
    simp only [v', getD_levels]
    split_ifs with hl
    · exact hmem level f
    · rw [hv.levels level hl]
  have hs : ∀ level, (v'.files level).Pairwise (SmallerKey rank) := by
    intro level
    simp only [v', getD_levels]
    split_ifs
    · exact hpair level
    · exact List.Pairwise.nil
  refine ⟨v', ?_, hsame, hv.of_sameFiles ht hsame hs, ht.of_files fun i g hg => (hsame i g).mp hg⟩
  rw [recoverVersion, recoverLevels_eq files _ hfiles]
  rfl

/-- The first record of a new manifest describes the version. -/
theorem describes_snapshotEdit {pointers : ℕ → Option InternalKey} (hp : PointersIn D pointers)
    (hv : v.WellFormed D rank) (ht : v.Tidy rank)
    (hlt : ∀ level, ∀ f ∈ v.files level, f.number < next) :
    Describes D [snapshotEdit pointers v] next v := by
  have hmem : ∀ level f, (level, f) ∈ (snapshotEdit pointers v).newFiles ↔ f ∈ v.files level := by
    intro level f
    simp only [snapshotEdit, List.mem_flatMap, List.mem_range, List.mem_map, Prod.mk.injEq]
    constructor
    · rintro ⟨i, -, g, hg, rfl, rfl⟩
      exact hg
    · intro hf
      have hl : level < kNumLevels := by
        by_contra hl
        rw [hv.levels level hl] at hf
        exact List.not_mem_nil hf
      exact ⟨level, hl, f, hf, rfl, rfl⟩
  have hfile : ∀ f ∈ addedFiles [snapshotEdit pointers v], ∃ level, f ∈ v.files level := by
    intro f hf
    simp only [addedFiles, List.flatMap_cons, List.flatMap_nil, List.append_nil, List.mem_map] at hf
    obtain ⟨⟨level, g⟩, hg, rfl⟩ := hf
    exact ⟨level, (hmem level g).mp hg⟩
  refine ⟨?_, ?_, ?_, ?_, ?_⟩
  · intro edit hedit p hmem
    obtain rfl := List.mem_singleton.mp hedit
    obtain ⟨level, -, hlevel⟩ := List.mem_filterMap.mp hmem
    obtain ⟨key, hkey, rfl⟩ := Option.map_eq_some_iff.mp hlevel
    exact hp level key hkey
  · intro f hf
    obtain ⟨level, hf⟩ := hfile f hf
    exact (hv.file level f hf).smallest_mem
  · intro f hf g hg hn
    obtain ⟨i, hf⟩ := hfile f hf
    obtain ⟨j, hg⟩ := hfile g hg
    exact (ht.number i f hf j g hg hn).2
  · intro f hf
    obtain ⟨level, hf⟩ := hfile f hf
    exact hlt level f hf
  · intro level f
    rw [List.map_cons, List.map_nil, live_singleton rfl, VersionEdit.mem_added, hmem]

end Manifest

section Applied

variable {deleted : List ℕ} {base added out : List FileMetaData} {next next' : ℕ}

theorem maybeAddFile_ok (h : maybeAddFile c level deleted files f = .ok out) :
    out = files ++ [f].filter fun g => g.number ∉ deleted := by
  by_cases hdel : f.number ∈ deleted
  · rw [maybeAddFile, if_pos hdel] at h
    rw [← Except.ok.inj h]
    simp [hdel]
  · have hone : [f].filter (fun g => g.number ∉ deleted) = [f] := by simp [hdel]
    rw [maybeAddFile, if_neg hdel] at h
    rw [hone]
    split_ifs at h
    · split at h
      · obtain ⟨o, -, h⟩ := Stops.bind_eq_ok.mp h
        obtain ⟨-, -, h⟩ := Stops.bind_eq_ok.mp h
        exact (Except.ok.inj h).symm
      · exact (Except.ok.inj h).symm
    · exact (Except.ok.inj h).symm

theorem foldlM_maybeAddFile_ok {more : List FileMetaData}
    (h : more.foldlM (maybeAddFile c level deleted) files = .ok out) :
    out = files ++ more.filter fun g => g.number ∉ deleted := by
  induction more generalizing files with
  | nil => simpa using (Except.ok.inj h).symm
  | cons f more ih =>
    rw [List.foldlM_cons] at h
    obtain ⟨files', hf, hrest⟩ := Stops.bind_eq_ok.mp h
    rw [ih hrest, maybeAddFile_ok hf, List.append_assoc, ← List.filter_append]
    rfl

/-- Whatever the comparator does, a merge that ends has kept all files that are not deleted. -/
theorem saveLevel_perm (h : saveLevel c level deleted files base added = .ok out) :
    out.Perm (files ++ (base ++ added).filter fun g => g.number ∉ deleted) := by
  induction added generalizing files base with
  | nil =>
    rw [saveLevel] at h
    rw [foldlM_maybeAddFile_ok h, List.append_nil]
  | cons f added ih =>
    rw [saveLevel] at h
    obtain ⟨rest, hsearch, h⟩ := Stops.bind_eq_ok.mp h
    obtain ⟨files₁, h₁, h⟩ := Stops.bind_eq_ok.mp h
    obtain ⟨files₂, h₂, h⟩ := Stops.bind_eq_ok.mp h
    have hsuffix : rest <:+ base := by
      obtain ⟨n, -, hn⟩ := Stops.bind_eq_ok.mp hsearch
      rw [← Except.ok.inj hn]
      exact List.drop_suffix n base
    have hbase := List.suffix_iff_eq_append.mp hsuffix
    refine (ih h).trans ?_
    rw [maybeAddFile_ok h₂, foldlM_maybeAddFile_ok h₁, List.append_assoc, List.append_assoc,
      ← List.filter_append, ← List.filter_append]
    refine List.Perm.append_left files (List.Perm.filter _ ?_)
    conv_rhs => rw [← hbase]
    rw [List.append_assoc]
    refine List.Perm.append_left _ ?_
    simpa using List.perm_middle.symm

theorem saveLevelTo_perm (ho : c.OrdersOn D rank)
    (hw : ∀ g ∈ (edit.at level).added, D g.smallest.userKey)
    (hn : Named FileMetaData.number (edit.at level).added)
    (h : saveLevelTo c edit v level = .ok out) :
    ∃ added, (∀ x, x ∈ added ↔ x ∈ (edit.at level).added) ∧ added.Pairwise (SmallerKey rank) ∧
      out.Perm ((v.files level ++ added).filter fun g => g.number ∉ (edit.at level).deleted.filter
        fun number => ∀ f ∈ added, f.number ≠ number) := by
  obtain ⟨added, hadded, hpair, hmem⟩ := insertFiles_spec ho
    (fun g hg => hw g (by simpa using hg)) List.Pairwise.nil (by simpa using hn)
  rw [VersionEdit.at, List.foldlM_map] at hadded
  rw [saveLevelTo, hadded, Stops.ok_bind] at h
  obtain ⟨files, hsave, h⟩ := Stops.bind_eq_ok.mp h
  have hout : out = files := by
    by_cases hpos : level > 0
    · simp only [if_pos hpos] at h
      obtain ⟨-, -, h⟩ := Stops.bind_eq_ok.mp h
      exact (Except.ok.inj h).symm
    · simp only [if_neg hpos] at h
      exact (Except.ok.inj h).symm
  refine ⟨added, by simpa using hmem, hpair, ?_⟩
  have hperm := saveLevel_perm hsave
  rw [List.nil_append] at hperm
  exact hout ▸ hperm

theorem saveTo_levels (h : saveTo c edit v = .ok v') (level : ℕ) :
    if level < kNumLevels then saveLevelTo c edit v level = .ok (v'.files level)
      else v'.files level = [] := by
  let files : ℕ → List FileMetaData := fun level => (saveLevelTo c edit v level).toOption.getD []
  have hlevels : ∀ levels out, saveLevels c edit v levels = .ok out →
      out = levels.map files ∧
        ∀ level ∈ levels, saveLevelTo c edit v level = .ok (files level) := by
    intro levels
    induction levels with
    | nil =>
      intro out hout
      exact ⟨(Except.ok.inj hout).symm, by simp⟩
    | cons level levels ih =>
      intro out hout
      obtain ⟨first, hfirst, hout⟩ := Stops.bind_eq_ok.mp hout
      obtain ⟨rest, hrest, hout⟩ := Stops.bind_eq_ok.mp hout
      obtain ⟨rfl, hall⟩ := ih rest hrest
      have hfiles : saveLevelTo c edit v level = .ok (files level) := by
        simp only [files, hfirst]
        rfl
      refine ⟨?_, List.forall_mem_cons.mpr ⟨hfiles, hall⟩⟩
      rw [List.map_cons, ← Except.ok.inj (hfirst.symm.trans hfiles)]
      exact (Except.ok.inj hout).symm
  obtain ⟨levels, hsave, h⟩ := Stops.bind_eq_ok.mp h
  obtain ⟨rfl, hall⟩ := hlevels _ _ hsave
  obtain rfl := Except.ok.inj h
  dsimp only
  rw [getD_levels]
  split_ifs with hl
  · exact hall level (List.mem_range.mpr hl)
  · rfl

theorem mem_addedFiles_singleton : f ∈ addedFiles [edit] ↔ ∃ level, (level, f) ∈ edit.newFiles := by
  simp [addedFiles]

variable (level) in
/-- A level after an edit: what the edit does to the files it had. -/
theorem saveTo_turns (ho : c.OrdersOn D rank) (hw : ∀ g ∈ addedFiles [edit], D g.smallest.userKey)
    (hn : Named FileMetaData.number (addedFiles [edit]))
    (hold : ∀ level, ∀ g ∈ v.files level, ∀ f ∈ addedFiles [edit], f.number = g.number → f = g)
    (hlevels : ∀ level, ¬ level < kNumLevels →
      v.files level = [] ∧ ∀ f, (level, f) ∉ edit.newFiles)
    (h : saveTo c edit v = .ok v') :
    (edit.at level).Turns FileMetaData.number (· ∈ v.files level) (· ∈ v'.files level) := by
  have hlevel := saveTo_levels h level
  intro x
  dsimp only
  rw [VersionEdit.mem_added]
  split_ifs at hlevel with hl
  · have hsub : ∀ f ∈ (edit.at level).added, f ∈ addedFiles [edit] := fun f hf =>
      mem_addedFiles_singleton.mpr ⟨level, VersionEdit.mem_added.mp hf⟩
    obtain ⟨added, hadded, -, hperm⟩ :=
      saveLevelTo_perm ho (fun g hg => hw g (hsub g hg)) (hn.subset hsub) hlevel
    rw [hperm.mem_iff, List.mem_filter, decide_eq_true_iff, List.mem_filter, decide_eq_true_iff,
      List.mem_append, hadded, VersionEdit.mem_added]
    constructor
    · rintro ⟨hx | hx, hdel⟩
      · by_cases hnew : ∃ f ∈ added, f.number = x.number
        · obtain ⟨f, hf, heq⟩ := hnew
          have hf' := (hadded f).mp hf
          obtain rfl := hold level x hx f (hsub f hf') heq
          exact Or.inl (VersionEdit.mem_added.mp hf')
        · push Not at hnew
          exact Or.inr ⟨hx, fun hmem => hdel ⟨hmem, hnew⟩⟩
      · exact Or.inl hx
    · rintro (hx | ⟨hx, hdel⟩)
      · refine ⟨Or.inr hx, fun hmem => ?_⟩
        exact hmem.2 x ((hadded x).mpr (VersionEdit.mem_added.mpr hx)) rfl
      · exact ⟨Or.inl hx, fun hmem => hdel hmem.1⟩
  · obtain ⟨hnil, hnone⟩ := hlevels level hl
    rw [hlevel, hnil]
    simp [hnone x]

/-- An edit of `v` whose new files have numbers from `next` on, and below `next'`. -/
structure VersionEdit.Adds (D : Bytes → Prop) (v : Version) (next next' : ℕ) (edit : VersionEdit) :
    Prop where
  pointers : ∀ p ∈ edit.compactPointers, D p.2.userKey
  level : ∀ x ∈ edit.newFiles, x.1 < kNumLevels
  smallest : ∀ f ∈ addedFiles [edit], D f.smallest.userKey
  named : Named FileMetaData.number (addedFiles [edit])
  number : ∀ f ∈ addedFiles [edit],
    f.number < next' ∧ (next ≤ f.number ∨ ∃ level, f ∈ v.files level)

omit [LinearOrder κ] in
theorem VersionEdit.Adds.weaken (h : edit.Adds D v next next') {first : ℕ} (hn : first ≤ next) :
    edit.Adds D v first next' := by
  refine ⟨h.pointers, h.level, h.smallest, h.named, fun f hf => ?_⟩
  obtain ⟨hlt, hnew⟩ := h.number f hf
  exact ⟨hlt, hnew.imp_left hn.trans⟩

omit [LinearOrder κ] in
theorem VersionEdit.Adds.empty : VersionEdit.Adds D v next next' {} := by
  constructor <;> simp [addedFiles, Named]

theorem addedFiles_of_newFiles (hnew : edit.newFiles = files.map fun f => (level, f)) :
    addedFiles [edit] = files := by
  simp [addedFiles, hnew, Function.comp_def]

omit [LinearOrder κ] in
theorem VersionEdit.Adds.of_newFiles (hp : ∀ p ∈ edit.compactPointers, D p.2.userKey)
    (hnew : edit.newFiles = files.map fun f => (level, f)) (hl : level < kNumLevels) (hs : ∀ f ∈ files, D f.smallest.userKey)
    (hn : Named FileMetaData.number files)
    (hnumber : ∀ f ∈ files, f.number < next' ∧ (next ≤ f.number ∨ ∃ level, f ∈ v.files level)) :
    edit.Adds D v next next' := by
  have hadded := addedFiles_of_newFiles hnew
  refine ⟨hp, ?_, hadded ▸ hs, hadded ▸ hn, hadded ▸ hnumber⟩
  intro x hx
  rw [hnew] at hx
  obtain ⟨f, -, rfl⟩ := List.mem_map.mp hx
  exact hl

theorem Describes.number_eq (h : Describes D edits next v) (ha : edit.Adds D v next next') :
    ∀ f ∈ addedFiles [edit], ∀ g ∈ addedFiles edits, f.number = g.number → f = g := by
  intro f hf g hg heq
  rcases (ha.number f hf).2 with hfresh | ⟨level, hmem⟩
  · have := h.number_lt g hg
    omega
  · exact h.named f (h.mem_addedFiles hmem) g hg heq

variable (level) in
theorem Describes.turns (h : Describes D edits next v) (ho : c.OrdersOn D rank)
    (hv : v.WellFormed D rank) (ha : edit.Adds D v next next') (hsave : saveTo c edit v = .ok v') :
    (edit.at level).Turns FileMetaData.number (· ∈ v.files level) (· ∈ v'.files level) := by
  refine saveTo_turns level ho ha.smallest ha.named ?_ ?_ hsave
  · exact fun level g hg f hf => h.number_eq ha f hf g (h.mem_addedFiles hg)
  · exact fun level hl => ⟨hv.levels level hl, fun f hf => hl (ha.level _ hf)⟩

theorem Describes.entries_append (h : Describes D edits next v) (ho : c.OrdersOn D rank)
    (hv : v.WellFormed D rank) (ha : edit.Adds D v next next') (hsave : saveTo c edit v = .ok v')
    {e : Entry} (he : e ∈ v'.entries) :
    e ∈ v.entries ∨ ∃ f ∈ addedFiles [edit], e ∈ f.entries := by
  obtain ⟨level, -, he⟩ := mem_entries.mp he
  obtain ⟨f, hf, hef⟩ := mem_levelEntries.mp he
  rcases (h.turns level ho hv ha hsave f).mp hf with hf | ⟨hf, -⟩
  · exact Or.inr ⟨f, mem_addedFiles_singleton.mpr ⟨level, VersionEdit.mem_added.mp hf⟩, hef⟩
  · exact Or.inl (hv.mem_entries_of_file hf hef)

theorem Describes.append (h : Describes D edits next v) (ho : c.OrdersOn D rank)
    (hv : v.WellFormed D rank) (hsave : saveTo c edit v = .ok v') (ha : edit.Adds D v next next')
    (hnext : next ≤ next') : Describes D (edits ++ [edit]) next' v' := by
  have hadded : addedFiles (edits ++ [edit]) = addedFiles edits ++ addedFiles [edit] := by
    simp [addedFiles]
  have hnamed : Named FileMetaData.number (addedFiles (edits ++ [edit])) :=
    hadded ▸ h.named.append ha.named (h.number_eq ha)
  refine ⟨?_, ?_, hnamed, ?_, ?_⟩
  · intro edit' h'
    rcases List.mem_append.mp h' with h' | h'
    · exact h.pointers edit' h'
    · obtain rfl := List.mem_singleton.mp h'
      exact ha.pointers
  · rw [hadded]
    exact fun f hf => (List.mem_append.mp hf).elim (h.smallest f) (ha.smallest f)
  · rw [hadded]
    intro f hf
    rcases List.mem_append.mp hf with hf | hf
    · exact (h.number_lt f hf).trans_le hnext
    · exact (ha.number f hf).1
  · intro level f
    have hmap : (edits ++ [edit]).map (·.at level) = edits.map (·.at level) ++ [edit.at level] := by
      simp
    have hlive := @turns_concat _ _ FileMetaData.number (edits.map (·.at level)) (edit.at level) _
      (hmap ▸ hnamed.subset fun x hx => DVELevelDB.mem_addedFiles hx)
    rw [hmap, hlive f, ← h.files]
    exact h.turns level ho hv ha hsave f

theorem FileMetaData.WellFormed.restrict {D' : Bytes → Prop} (h : f.WellFormed D rank)
    (hk : f.KeysIn D') : f.WellFormed D' rank := by
  refine ⟨⟨⟨h.table.sorted.pairwise, fun e he => ?_⟩, fun ie hie => ?_, h.table.separates,
    h.table.filter⟩, h.smallest, h.largest, h.lower, h.upper⟩
  · have hvalid := h.table.sorted.valid e he
    exact ⟨hk.entries e he, hvalid.storable, hvalid.type_le⟩
  · have hcovers := h.table.covers ie hie
    exact ⟨hk.index ie hie, hcovers.nonempty, hcovers.upper⟩

theorem Version.WellFormed.restrict {D' : Bytes → Prop} (h : v.WellFormed D rank)
    (hk : v.KeysIn D') : v.WellFormed D' rank := by
  refine ⟨fun level f hf => (h.file level f hf).restrict (hk level f hf), h.levels, ?_, h.number,
    h.newer_file, h.newer_level⟩
  intro level hl
  have hs := h.level_sorted level hl
  refine ⟨hs.pairwise, fun e he => ?_⟩
  have hvalid := hs.valid e he
  exact ⟨(hk level).entries e he, hvalid.storable, hvalid.type_le⟩

end Applied

end DVELevelDB
