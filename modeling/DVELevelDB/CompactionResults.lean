import DVELevelDB.CompactionOutputs

/-! # The version after a compaction

The edit of a compaction takes its files out of their levels and puts the outputs in their place.
-/

namespace DVELevelDB

open VersionStore

/-- `AddInputDeletions` and the new files of the next level. -/
def compactionEdit (level : ℕ) (files : CompactionFiles) (outputs : List FileMetaData) :
    VersionEdit where
  compactPointers := [(level, files.compactPointer)]
  newFiles := outputs.map fun f => (level + 1, f)
  deletedFiles := (files.inputs.map fun f => (level, f.number)) ++
    files.parents.map fun f => (level + 1, f.number)

variable {κ : Type*} [LinearOrder κ] {c : Comparator} {D : Bytes → Prop} {rank : Bytes → κ}
  {v v' : Version} {level : ℕ} {f g : FileMetaData}

section SaveLevel

variable {files base added : List FileMetaData} {deleted : List ℕ}

def FileBefore (rank : Bytes → κ) (f g : FileMetaData) : Prop :=
  rank f.largest.userKey < rank g.smallest.userKey

theorem FileBefore.smallest (h : FileBefore rank f g) (hf : f.WellFormed D rank) :
    KeyBefore rank f.smallest g.smallest :=
  Or.inl (hf.smallest_le.trans_lt h)

theorem FileBefore.trans {f' : FileMetaData} (h : FileBefore rank f g) (hg : g.WellFormed D rank)
    (h' : FileBefore rank g f') : FileBefore rank f f' :=
  lt_trans h (hg.smallest_le.trans_lt h')

theorem StrictChain.chain (h : StrictChain rank files) : Chain rank files :=
  h.imp fun hfg => Or.inl hfg

/-- The order of the set of added files. -/
def SmallerKey (rank : Bytes → κ) (f g : FileMetaData) : Prop :=
  KeyBefore rank f.smallest g.smallest ∨
    ¬ KeyBefore rank g.smallest f.smallest ∧ f.number < g.number

instance : Decidable (SmallerKey rank f g) := inferInstanceAs (Decidable (_ ∨ (_ ∧ _)))

theorem bySmallestKey_smaller (ho : c.OrdersOn D rank) (hf : f.WellFormed D rank)
    (hg : g.WellFormed D rank) : bySmallestKey c f g = .ok (decide (SmallerKey rank f g)) :=
  bySmallestKey_eq ho hf hg

theorem FileBefore.smallerKey (h : FileBefore rank f g) (hf : f.WellFormed D rank) :
    SmallerKey rank f g ∧ ¬ SmallerKey rank g f := by
  have hb := h.smallest hf
  refine ⟨Or.inl hb, ?_⟩
  rintro (hb' | ⟨hn, -⟩)
  · exact hb.asymm hb'
  · exact hn hb

/-- Files without a common user key stand in the order of their smallest keys. -/
theorem Apart.fileBefore (h : Apart rank g f) (hg : g.WellFormed D rank) (hf : f.WellFormed D rank) :
    if SmallerKey rank f g then FileBefore rank f g else FileBefore rank g f := by
  split_ifs with hs
  · rcases h with h | h
    · exact absurd hs (FileBefore.smallerKey h hg).2
    · exact h
  · rcases h with h | h
    · exact h
    · exact absurd (FileBefore.smallerKey h hf).1 hs

theorem StrictChain.split (h : StrictChain rank base) (hw : ∀ g ∈ base, g.WellFormed D rank)
    (f : FileMetaData) : BinarySearch.Split (fun g => !decide (SmallerKey rank f g)) base := by
  refine List.Pairwise.imp_of_mem ?_ h
  intro a b ha hb hab hp
  have hp' : ¬ SmallerKey rank f b := by simpa using hp
  have hsm : KeyBefore rank a.smallest b.smallest := FileBefore.smallest hab (hw a ha)
  have hba : ¬ KeyBefore rank f.smallest b.smallest := fun hlt => hp' (Or.inl hlt)
  have haf : KeyBefore rank a.smallest f.smallest := by
    rcases KeyBefore.total rank b.smallest f.smallest with hbf | hfb | ⟨hr, ht⟩
    · exact hsm.trans hbf
    · exact absurd hfb hba
    · rcases hsm with hlt | ⟨heq, hlt⟩
      · exact Or.inl (hlt.trans_eq hr)
      · exact Or.inr ⟨heq.trans hr, ht ▸ hlt⟩
  have hn : ¬ SmallerKey rank f a := by
    rintro (hlt | ⟨hnot, -⟩)
    · exact haf.asymm hlt
    · exact hnot haf
  simpa using hn

/-- What the merge of a level relies on: the files so far come before what is still to come. -/
structure Merges (D : Bytes → Prop) (rank : Bytes → κ) (deleted : List ℕ)
    (files base added : List FileMetaData) : Prop where
  wellFormed : ∀ f ∈ files ++ base ++ added, f.WellFormed D rank
  files_chain : StrictChain rank files
  base_chain : StrictChain rank base
  added_chain : StrictChain rank added
  files_base : ∀ x ∈ files, ∀ g ∈ base, g.number ∉ deleted → FileBefore rank x g
  files_added : ∀ x ∈ files, ∀ f ∈ added, FileBefore rank x f
  apart : ∀ g ∈ base, g.number ∉ deleted → ∀ f ∈ added, Apart rank g f
  fresh : ∀ f ∈ added, f.number ∉ deleted

theorem Merges.append_kept (h : Merges D rank deleted files base added) {A : List FileMetaData}
    (hs : A.Sublist base) :
    StrictChain rank (files ++ A.filter fun g => g.number ∉ deleted) := by
  refine List.pairwise_append.mpr ⟨h.files_chain, ?_, ?_⟩
  · exact h.base_chain.sublist (List.filter_sublist.trans hs)
  · intro x hx g hg
    obtain ⟨hg, hdel⟩ := List.mem_filter.mp hg
    exact h.files_base x hx g (hs.subset hg) (of_decide_eq_true hdel)

theorem mem_append_kept {A : List FileMetaData} {x : FileMetaData} :
    x ∈ files ++ A.filter (fun g => g.number ∉ deleted) ↔
      x ∈ files ∨ x ∈ A ∧ x.number ∉ deleted := by
  rw [List.mem_append, List.mem_filter, decide_eq_true_iff]

theorem Merges.step (h : Merges D rank deleted files base (f :: added)) {A B : List FileMetaData}
    (hsplit : base = A ++ B) (hA : ∀ g ∈ A, ¬ SmallerKey rank f g)
    (hB : ∀ g ∈ B, SmallerKey rank f g) :
    Merges D rank deleted ((files ++ A.filter fun g => g.number ∉ deleted) ++ [f]) B added := by
  have hw := h.wellFormed
  have hAsub : A.Sublist base := hsplit ▸ List.sublist_append_left A B
  have hBsub : B.Sublist base := hsplit ▸ List.sublist_append_right A B
  have hfw : f.WellFormed D rank := hw f (by simp)
  have hbw : ∀ g ∈ base, g.WellFormed D rank := fun g hg => hw g (by simp [hg])
  have hAf : ∀ g ∈ A, g.number ∉ deleted → FileBefore rank g f := by
    intro g hg hdel
    have hcase := (h.apart g (hAsub.subset hg) hdel f List.mem_cons_self).fileBefore
      (hbw g (hAsub.subset hg)) hfw
    rwa [if_neg (hA g hg)] at hcase
  have hfB : ∀ g ∈ B, g.number ∉ deleted → FileBefore rank f g := by
    intro g hg hdel
    have hcase := (h.apart g (hBsub.subset hg) hdel f List.mem_cons_self).fileBefore
      (hbw g (hBsub.subset hg)) hfw
    rwa [if_pos (hB g hg)] at hcase
  have hAB : ∀ x ∈ A, ∀ g ∈ B, FileBefore rank x g := by
    have hchain := h.base_chain
    rw [hsplit] at hchain
    exact (List.pairwise_append.mp hchain).2.2
  obtain ⟨hfadded, hchain⟩ := List.pairwise_cons.mp h.added_chain
  have hbefore : ∀ x ∈ files ++ A.filter (fun g => g.number ∉ deleted), FileBefore rank x f := by
    intro x hx
    rcases mem_append_kept.mp hx with hx | ⟨hx, hdel⟩
    · exact h.files_added x hx f List.mem_cons_self
    · exact hAf x hx hdel
  constructor
  · intro x hx
    simp only [List.mem_append, List.mem_filter, List.mem_singleton] at hx
    apply hw
    simp only [List.mem_append, List.mem_cons]
    rcases hx with (((hx | ⟨hx, -⟩) | hx) | hx) | hx
    · exact Or.inl (Or.inl hx)
    · exact Or.inl (Or.inr (hAsub.subset hx))
    · exact Or.inr (Or.inl hx)
    · exact Or.inl (Or.inr (hBsub.subset hx))
    · exact Or.inr (Or.inr hx)
  · refine List.pairwise_append.mpr ⟨h.append_kept hAsub, List.pairwise_singleton _ _, ?_⟩
    intro x hx y hy
    rw [List.mem_singleton.mp hy]
    exact hbefore x hx
  · exact h.base_chain.sublist hBsub
  · exact hchain
  · intro x hx g hg hdel
    rcases List.mem_append.mp hx with hx | hx
    · rcases mem_append_kept.mp hx with hx | ⟨hx, -⟩
      · exact h.files_base x hx g (hBsub.subset hg) hdel
      · exact hAB x hx g hg
    · rw [List.mem_singleton.mp hx]
      exact hfB g hg hdel
  · intro x hx y hy
    rcases List.mem_append.mp hx with hx | hx
    · exact (hbefore x hx).trans hfw (hfadded y hy)
    · rw [List.mem_singleton.mp hx]
      exact hfadded y hy
  · intro g hg hdel y hy
    exact h.apart g (hBsub.subset hg) hdel y (List.mem_cons_of_mem _ hy)
  · intro y hy
    exact h.fresh y (List.mem_cons_of_mem _ hy)

variable (level deleted) in
theorem foldlM_strict (ho : c.OrdersOn D rank) (more : List FileMetaData)
    (hw : ∀ x ∈ files ++ more, x.WellFormed D rank)
    (hchain : StrictChain rank (files ++ more.filter fun g => g.number ∉ deleted)) :
    more.foldlM (maybeAddFile c level deleted) files =
      .ok (files ++ more.filter fun g => g.number ∉ deleted) :=
  foldlM_maybeAddFile_deleted level deleted files more ho hw fun _ => hchain.chain

variable (level) in
theorem saveLevel_spec (ho : c.OrdersOn D rank) (h : Merges D rank deleted files base added) :
    ∃ out, saveLevel c level deleted files base added = .ok out ∧ StrictChain rank out ∧
      ∀ x, x ∈ out ↔ x ∈ files ∨ (x ∈ base ∧ x.number ∉ deleted) ∨ x ∈ added := by
  induction added generalizing files base with
  | nil =>
    have hchain := h.append_kept (List.Sublist.refl base)
    have hw : ∀ x ∈ files ++ base, x.WellFormed D rank := fun x hx => h.wellFormed x (by simpa using hx)
    refine ⟨_, ?_, hchain, ?_⟩
    · rw [saveLevel, foldlM_strict level deleted ho base hw hchain]
    · intro x
      rw [mem_append_kept]
      simp
  | cons f added ih =>
    let p : FileMetaData → Bool := fun g => !decide (SmallerKey rank f g)
    have hfw : f.WellFormed D rank := h.wellFormed f (by simp)
    have hbw : ∀ g ∈ base, g.WellFormed D rank := fun g hg => h.wellFormed g (by simp [hg])
    have hsplit := h.base_chain.split hbw f
    have htest : ∀ g ∈ base, (do return !(← bySmallestKey c f g) : Exec Bool) = .ok (p g) := by
      intro g hg
      rw [bySmallestKey_smaller ho hfw (hbw g hg)]
      rfl
    have hsearch := BinarySearch.search_eq htest hsplit
    have hAB := List.takeWhile_append_dropWhile (p := p) (l := base)
    have hA : ∀ g ∈ base.takeWhile p, ¬ SmallerKey rank f g := by
      intro g hg
      have hpg := List.mem_takeWhile_imp hg
      simpa [p] using hpg
    have hB : ∀ g ∈ base.dropWhile p, SmallerKey rank f g := by
      cases hd : base.dropWhile p with
      | nil => simp
      | cons y rest =>
        have hny : ¬ p y = true := by
          have hhead := List.head?_dropWhile_not p base
          rw [hd] at hhead
          simpa using hhead
        have hpair := hsplit
        rw [← hAB, hd] at hpair
        have hrest := (List.pairwise_cons.mp (List.pairwise_append.mp hpair).2.1).1
        intro g hg
        have hng : ¬ p g = true := by
          rcases List.mem_cons.mp hg with rfl | hg
          · exact hny
          · exact fun hpg => hny (hrest g hg hpg)
        simpa [p] using hng
    have htake : base.take (base.length - (base.dropWhile p).length) = base.takeWhile p := by
      have hlen := congrArg List.length hAB
      rw [List.length_append] at hlen
      have heq : base.length - (base.dropWhile p).length = (base.takeWhile p).length := by omega
      rw [heq]
      exact (List.prefix_iff_eq_take.mp (List.takeWhile_prefix p)).symm
    have hstep := h.step hAB.symm hA hB
    have hAsub : (base.takeWhile p).Sublist base := (List.takeWhile_prefix p).sublist
    have hwA : ∀ x ∈ files ++ base.takeWhile p, x.WellFormed D rank := by
      intro x hx
      rcases List.mem_append.mp hx with hx | hx
      · exact h.wellFormed x (by simp [hx])
      · exact hbw x (hAsub.subset hx)
    have hfoldA := foldlM_strict level deleted ho _ hwA (h.append_kept hAsub)
    have hfoldf : maybeAddFile c level deleted
        (files ++ (base.takeWhile p).filter fun g => g.number ∉ deleted) f =
          .ok ((files ++ (base.takeWhile p).filter fun g => g.number ∉ deleted) ++ [f]) := by
      have hone : [f].filter (fun g => g.number ∉ deleted) = [f] := by
        simp [h.fresh f List.mem_cons_self]
      have hfold := foldlM_strict level deleted ho [f]
        (fun x hx => hstep.wellFormed x (List.mem_append_left _ (List.mem_append_left _ hx)))
        (by rw [hone]; exact hstep.files_chain)
      rw [hone, List.foldlM_cons] at hfold
      cases hm : maybeAddFile c level deleted
          (files ++ (base.takeWhile p).filter fun g => g.number ∉ deleted) f with
      | ok r => rw [hm] at hfold; exact hfold
      | error t => rw [hm] at hfold; cases hfold
    obtain ⟨out, hout, hchain, hmem⟩ := ih hstep
    refine ⟨out, ?_, hchain, ?_⟩
    · rw [saveLevel, hsearch, Stops.ok_bind, htake, hfoldA, Stops.ok_bind, hfoldf, Stops.ok_bind]
      exact hout
    · intro x
      have hbase : x ∈ base ↔ x ∈ base.takeWhile p ∨ x ∈ base.dropWhile p := by
        conv_lhs => rw [← hAB]
        exact List.mem_append
      rw [hmem, List.mem_append, mem_append_kept, List.mem_singleton, hbase, List.mem_cons]
      tauto

theorem insertFile_last (ho : c.OrdersOn D rank) (hf : f.WellFormed D rank)
    (hw : ∀ g ∈ files, g.WellFormed D rank) (hbefore : ∀ g ∈ files, FileBefore rank g f) :
    insertFile c f files = .ok (files ++ [f]) := by
  induction files with
  | nil => rfl
  | cons g files ih =>
    have hgw := hw g List.mem_cons_self
    obtain ⟨h1, h2⟩ := (hbefore g List.mem_cons_self).smallerKey hgw
    rw [insertFile, bySmallestKey_smaller ho hf hgw, Stops.ok_bind, if_neg (by simpa using h2),
      bySmallestKey_smaller ho hgw hf, Stops.ok_bind, if_pos (decide_eq_true h1),
      ih (fun g' hg' => hw g' (List.mem_cons_of_mem _ hg'))
        fun g' hg' => hbefore g' (List.mem_cons_of_mem _ hg')]
    rfl

variable (files) in
theorem insertFiles_eq (ho : c.OrdersOn D rank) {more : List FileMetaData}
    (hw : ∀ g ∈ files ++ more, g.WellFormed D rank) (hchain : StrictChain rank (files ++ more)) :
    more.foldlM (fun set f => insertFile c f set) files = .ok (files ++ more) := by
  induction more generalizing files with
  | nil => simp [pure, Except.pure]
  | cons f more ih =>
    have happ : files ++ f :: more = (files ++ [f]) ++ more := by simp
    have hbefore : ∀ g ∈ files, FileBefore rank g f := fun g hg =>
      (List.pairwise_append.mp hchain).2.2 g hg f List.mem_cons_self
    rw [List.foldlM_cons, insertFile_last ho (hw f (by simp))
      (fun g hg => hw g (List.mem_append_left _ hg)) hbefore, Stops.ok_bind, happ]
    rw [happ] at hw hchain
    exact ih _ hw hchain

end SaveLevel

section SaveTo

variable {files : CompactionFiles} {outputs : List FileMetaData}

theorem Version.Tidy.strictChain (ht : v.Tidy rank) (h : v.WellFormed D rank) (hl : 0 < level) :
    StrictChain rank (v.files level) := by
  refine (h.files_before hl).imp_of_mem ?_
  intro f g hf hg hfg
  obtain ⟨e, he, hkey⟩ := (h.file level f hf).smallest
  obtain ⟨e', he', hkey'⟩ := (h.file level g hg).smallest
  have hbefore := hfg e he e' he'
  have hne : f ≠ g := by
    rintro rfl
    exact Schema.Before.asymm _ (hfg e he e he) (hfg e he e he)
  refine (ht.apart level hl f hf g hg hne).resolve_right fun hbad => ?_
  have hle : rank f.smallest.userKey ≤ rank g.smallest.userKey := by
    rw [← hkey, ← hkey']
    exact (keyBefore_of_before hbefore).le
  exact absurd ((h.file level g hg).smallest_le.trans_lt hbad) (not_lt.mpr hle)

theorem saveLevelTo_removed (ho : c.OrdersOn D rank) (h : v.WellFormed D rank) {edit : VersionEdit}
    {i : ℕ} (hnew : edit.newFiles.filter (·.1 = i) = []) :
    saveLevelTo c edit v i = .ok ((v.files i).filter fun g =>
      g.number ∉ (edit.deletedFiles.filter (·.1 = i)).map (·.2)) := by
  generalize hn : (edit.deletedFiles.filter (·.1 = i)).map (·.2) = numbers
  have hchain : 0 < i → Chain rank ((v.files i).filter fun g => g.number ∉ numbers) :=
    fun hpos => (h.chain hpos).sublist List.filter_sublist
  have hfold := foldlM_maybeAddFile_deleted i numbers [] (v.files i) ho (h.file i) hchain
  have hall : numbers.filter (fun number => ∀ f ∈ ([] : List FileMetaData), f.number ≠ number) =
      numbers := by simp
  rw [saveLevelTo, hnew, List.foldlM_nil, hn]
  rw [show (pure [] : Exec (List FileMetaData)) = .ok [] from rfl, Stops.ok_bind]
  simp only [hall]
  rw [saveLevel, hfold, Stops.ok_bind, List.nil_append]
  split_ifs with hpos
  · rw [checkDisjoint_eq ho (fun f hf => h.file i f (List.mem_of_mem_filter hf)) (hchain hpos)]
    rfl
  · rfl

theorem newFiles_compactionEdit (i : ℕ) :
    (compactionEdit level files outputs).newFiles.filter (·.1 = i) =
      if i = level + 1 then outputs.map fun f => (level + 1, f) else [] := by
  split_ifs with hi
  · subst hi
    simp [compactionEdit]
  · simp [compactionEdit, Ne.symm hi]

theorem deletedFiles_compactionEdit (i : ℕ) :
    ((compactionEdit level files outputs).deletedFiles.filter (·.1 = i)).map (·.2) =
      if i = level then files.inputs.map (·.number)
      else if i = level + 1 then files.parents.map (·.number) else [] := by
  split_ifs with hi hi'
  · subst hi
    simp [compactionEdit, List.filter_map, Function.comp_def]
  · subst hi'
    simp [compactionEdit, List.filter_map, Function.comp_def]
  · simp [compactionEdit, List.filter_map, Function.comp_def, Ne.symm hi, Ne.symm hi']

/-- Tables for the next level, made from the entries of a compaction's files. -/
structure Outputs (D : Bytes → Prop) (rank : Bytes → κ) (v : Version) (level : ℕ)
    (files : CompactionFiles) (outputs : List FileMetaData) : Prop where
  wellFormed : ∀ f ∈ outputs, f.WellFormed D rank
  chain : StrictChain rank outputs
  entries : ∀ f ∈ outputs, ∀ e ∈ f.entries, ∃ g ∈ files.inputs ++ files.parents, e ∈ g.entries
  number : ∀ f ∈ outputs, ∀ g ∈ outputs, f.number = g.number → f = g
  fresh : ∀ f ∈ outputs, ∀ i, ∀ g ∈ v.files i, f.number = g.number → i = level ∧ g ∈ files.inputs

/-- The version `v'` has the outputs in the place of the compaction's files. -/
structure Installed (rank : Bytes → κ) (v : Version) (level : ℕ) (files : CompactionFiles)
    (outputs : List FileMetaData) (v' : Version) : Prop where
  rest : ∀ i, i ≠ level + 1 → ∀ x,
    x ∈ v'.files i ↔ x ∈ v.files i ∧ (i = level → x ∉ files.inputs)
  sublist : ∀ i, i ≠ level + 1 → (v'.files i).Sublist (v.files i)
  next : ∀ x, x ∈ v'.files (level + 1) ↔
    (x ∈ v.files (level + 1) ∧ x ∉ files.parents) ∨ x ∈ outputs
  next_chain : StrictChain rank (v'.files (level + 1))

theorem mem_numbers (ht : v.Tidy rank) {L : List FileMetaData} (hL : ∀ g ∈ L, g ∈ v.files level)
    (hf : f ∈ v.files level) : f.number ∈ L.map (·.number) ↔ f ∈ L := by
  rw [List.mem_map]
  constructor
  · rintro ⟨g, hg, hn⟩
    rw [← (ht.number level g (hL g hg) level f hf hn).2]
    exact hg
  · intro hf
    exact ⟨f, hf, rfl⟩

/-- The bounds of an output are keys of the compaction's files, so it lies beside the files that
stay in its level. -/
theorem Outputs.apart (hout : Outputs D rank v level files outputs) (h : v.WellFormed D rank)
    (hm : Matched rank v level files.inputs files.parents) (hg : g ∈ v.files (level + 1))
    (hng : g ∉ files.parents) (hf : f ∈ outputs) : Apart rank g f := by
  have hw := hout.wellFormed f hf
  obtain ⟨e, he, hkey⟩ := hw.smallest
  obtain ⟨e', he', hkey'⟩ := hw.largest
  obtain ⟨x, hx, hex⟩ := hout.entries f hf e he
  obtain ⟨y, hy, hey⟩ := hout.entries f hf e' he'
  rcases hm.beside g hg hng with hside | hside
  · left
    rw [← hkey]
    exact (hside x hx).trans_le ((hm.wellFormed h x hx).lower e hex)
  · right
    rw [← hkey']
    exact ((hm.wellFormed h y hy).rank_le_largest hey).trans_lt (hside y hy)

theorem saveLevelTo_next (ho : c.OrdersOn D rank) (h : v.WellFormed D rank) (ht : v.Tidy rank)
    (hm : Matched rank v level files.inputs files.parents)
    (hout : Outputs D rank v level files outputs) :
    ∃ out, saveLevelTo c (compactionEdit level files outputs) v (level + 1) = .ok out ∧
      StrictChain rank out ∧
      ∀ x, x ∈ out ↔ (x ∈ v.files (level + 1) ∧ x ∉ files.parents) ∨ x ∈ outputs := by
  have hinsert : (outputs.map fun f => (level + 1, f)).foldlM
      (fun set (f : ℕ × FileMetaData) => insertFile c f.2 set) [] = .ok outputs := by
    rw [List.foldlM_map]
    exact insertFiles_eq [] ho hout.wellFormed hout.chain
  -- no output has the number of a parent
  have hfresh : ∀ f ∈ outputs, ∀ g ∈ v.files (level + 1), f.number ≠ g.number := by
    intro f hf g hg hn
    have := (hout.fresh f hf (level + 1) g hg hn).1
    omega
  have hparents : ∀ g ∈ files.parents, g ∈ v.files (level + 1) :=
    fun g hg => hm.parents_closed.sublist.subset hg
  have hdeleted : (files.parents.map (·.number)).filter
      (fun number => ∀ f ∈ outputs, f.number ≠ number) = files.parents.map (·.number) := by
    apply List.filter_eq_self.mpr
    intro number hn
    obtain ⟨g, hg, rfl⟩ := List.mem_map.mp hn
    exact decide_eq_true fun f hf => hfresh f hf g (hparents g hg)
  have hkept : ∀ g ∈ v.files (level + 1),
      (g.number ∉ files.parents.map (·.number) ↔ g ∉ files.parents) := fun g hg =>
    not_congr (mem_numbers ht hparents hg)
  have hmerges : Merges D rank (files.parents.map (·.number)) [] (v.files (level + 1)) outputs := by
    refine ⟨?_, List.Pairwise.nil, ht.strictChain h (Nat.succ_pos _), hout.chain, by simp, by simp,
      ?_, ?_⟩
    · intro x hx
      rcases List.mem_append.mp hx with hx | hx
      · exact h.file _ x hx
      · exact hout.wellFormed x hx
    · intro g hg hng f hf
      exact hout.apart h hm hg ((hkept g hg).mp hng) hf
    · intro f hf hn
      obtain ⟨g, hg, heq⟩ := List.mem_map.mp hn
      exact hfresh f hf g (hparents g hg) heq.symm
  obtain ⟨out, hsave, hchain, hmem⟩ := saveLevel_spec (level + 1) ho hmerges
  have hmem' : ∀ x, x ∈ out ↔
      (x ∈ v.files (level + 1) ∧ x ∉ files.parents) ∨ x ∈ outputs := by
    intro x
    rw [hmem]
    simp only [List.not_mem_nil, false_or]
    apply or_congr_left
    apply and_congr_right
    intro hx
    exact hkept x hx
  have hw : ∀ x ∈ out, x.WellFormed D rank := by
    intro x hx
    rcases (hmem' x).mp hx with ⟨hx, -⟩ | hx
    · exact h.file _ x hx
    · exact hout.wellFormed x hx
  refine ⟨out, ?_, hchain, hmem'⟩
  rw [saveLevelTo, newFiles_compactionEdit, if_pos rfl, hinsert, Stops.ok_bind,
    deletedFiles_compactionEdit, if_neg (by omega), if_pos rfl]
  simp only [hdeleted, hsave, Stops.ok_bind]
  rw [if_pos (Nat.succ_pos _), checkDisjoint_eq ho hw hchain.chain]
  rfl

theorem saveTo_compaction (ho : c.OrdersOn D rank) (h : v.WellFormed D rank) (ht : v.Tidy rank)
    (hch : Chosen rank v level files) (hout : Outputs D rank v level files outputs) :
    ∃ v', saveTo c (compactionEdit level files outputs) v = .ok v' ∧
      Installed rank v level files outputs v' := by
  obtain ⟨out, hnext, hchain, hmem⟩ := saveLevelTo_next ho h ht hch.matched hout
  let kept : ℕ → List FileMetaData := fun i => (v.files i).filter fun g =>
    g.number ∉ ((compactionEdit level files outputs).deletedFiles.filter (·.1 = i)).map (·.2)
  let levels : ℕ → List FileMetaData := fun i => if i = level + 1 then out else kept i
  have hsave : ∀ i ∈ List.range kNumLevels,
      saveLevelTo c (compactionEdit level files outputs) v i = .ok (levels i) := by
    intro i _
    by_cases hi : i = level + 1
    · subst hi
      simpa [levels] using hnext
    · simp only [levels, if_neg hi]
      apply saveLevelTo_removed ho h
      rw [newFiles_compactionEdit, if_neg hi]
  let v' : Version := ⟨fun i => ((List.range kNumLevels).map levels).getD i []⟩
  have hfiles : ∀ i, v'.files i = if i < kNumLevels then levels i else [] := by
    intro i
    simp only [v', List.getD_eq_getElem?_getD, List.getElem?_map]
    split_ifs with hi
    · rw [List.getElem?_range hi]
      rfl
    · rw [List.getElem?_eq_none (by simpa using hi)]
      rfl
  have hnextFiles : v'.files (level + 1) = out := by
    rw [hfiles, if_pos hch.level_lt]
    exact if_pos rfl
  have hkept : ∀ i, i ≠ level + 1 → v'.files i = kept i := by
    intro i hi
    rw [hfiles]
    split_ifs with hlt
    · exact if_neg hi
    · simp only [kept, h.levels i hlt, List.filter_nil]
  refine ⟨v', ?_, ?_, ?_, ?_, ?_⟩
  · rw [saveTo, saveLevels_eq levels _ hsave]
    rfl
  · intro i hi x
    rw [hkept i hi, List.mem_filter, decide_eq_true_iff, deletedFiles_compactionEdit]
    apply and_congr_right
    intro hx
    split_ifs with hil
    · subst hil
      rw [mem_numbers ht (fun g hg => hch.matched.inputs_closed.sublist.subset hg) hx]
      simp
    · simp [hil]
  · intro i hi
    rw [hkept i hi]
    exact List.filter_sublist
  · intro x
    rw [hnextFiles]
    exact hmem x
  · rw [hnextFiles]
    exact hchain

end SaveTo

section Installed

variable {files : CompactionFiles} {outputs : List FileMetaData} {i : ℕ}

theorem Apart.key_ne (h : Apart rank f g) (hf : f.WellFormed D rank) (hg : g.WellFormed D rank)
    {a b : Entry} (ha : a ∈ f.entries) (hb : b ∈ g.entries) :
    rank a.key.userKey ≠ rank b.key.userKey := by
  intro heq
  rcases h with h | h
  · have hlt := (hf.rank_le_largest ha).trans_lt (h.trans_le (hg.lower b hb))
    exact hlt.ne heq
  · have hlt := (hg.rank_le_largest hb).trans_lt (h.trans_le (hf.lower a ha))
    exact hlt.ne heq.symm

theorem OnOneSide.apart {L : List FileMetaData} (h : OnOneSide rank L g) (hf : f ∈ L) :
    Apart rank g f := by
  rcases h with h | h
  · exact Or.inl (h f hf)
  · exact Or.inr (h f hf)

theorem sorted_of_strictChain {L : List FileMetaData} (h : StrictChain rank L)
    (hw : ∀ f ∈ L, f.WellFormed D rank) : Sorted D rank (L.flatMap (·.entries)) := by
  constructor
  · rw [List.flatMap_def, List.pairwise_flatten, List.pairwise_map]
    constructor
    · intro l hl
      obtain ⟨f, hf, rfl⟩ := List.mem_map.mp hl
      exact (hw f hf).table.sorted.pairwise
    · refine h.imp_of_mem ?_
      intro f g hf hg hlt e he e' he'
      exact Or.inl (((hw f hf).rank_le_largest he).trans_lt (hlt.trans_le ((hw g hg).lower e' he')))
  · intro e he
    obtain ⟨f, hf, he⟩ := List.mem_flatMap.mp he
    exact (hw f hf).table.sorted.valid e he

/-- A file of the two levels or above them that the compaction leaves alone. -/
structure Stays (v : Version) (level : ℕ) (files : CompactionFiles) (i : ℕ) (x : FileMetaData) :
    Prop where
  mem : x ∈ v.files i
  upper : i ≤ level + 1
  not_input : i = level → x ∉ files.inputs
  not_parent : i = level + 1 → x ∉ files.parents

theorem Stays.above {x : FileMetaData} (hx : Stays v level files i x) (h : v.WellFormed D rank)
    (hm : Matched rank v level files.inputs files.parents) (hg : g ∈ files.inputs ++ files.parents) :
    (schema rank).Above x.entries g.entries := by
  intro a ha b hb hkey
  have hxw := h.file i x hx.mem
  have hgw := hm.wellFormed h g hg
  have hfar : Apart rank x g → (schema rank).seq b < (schema rank).seq a :=
    fun hapart => absurd hkey (hapart.key_ne hxw hgw ha hb)
  have hnewer : ∀ j, i < j → g ∈ v.files j → (schema rank).seq b < (schema rank).seq a :=
    fun j hij hgj => h.newer_level i j hij a (mem_levelEntries.mpr ⟨x, hx.mem, ha⟩) b
      (mem_levelEntries.mpr ⟨g, hgj, hb⟩) hkey
  have hupper := hx.upper
  rcases List.mem_append.mp hg with hgi | hgp
  · have hgl := hm.inputs_closed.sublist.subset hgi
    rcases Nat.lt_trichotomy i level with hlt | heq | hgt
    · exact hnewer level hlt hgl
    · exact hfar (hm.inputs_closed.apart x (heq ▸ hx.mem) (hx.not_input heq) g hgi)
    · have heq : i = level + 1 := by omega
      exact hfar ((hm.beside x (heq ▸ hx.mem) (hx.not_parent heq)).apart hg)
  · have hgl := hm.parents_closed.sublist.subset hgp
    rcases Nat.lt_or_eq_of_le hupper with hlt | heq
    · exact hnewer (level + 1) hlt hgl
    · exact hfar (hm.parents_closed.apart x (heq ▸ hx.mem) (hx.not_parent heq) g hgp)

theorem Installed.mem_cases (hi : Installed rank v level files outputs v') {x : FileMetaData}
    (hx : x ∈ v'.files i) : (i = level + 1 ∧ x ∈ outputs) ∨
      x ∈ v.files i ∧ (i = level → x ∉ files.inputs) ∧ (i = level + 1 → x ∉ files.parents) := by
  by_cases hl : i = level + 1
  · subst hl
    rcases (hi.next x).mp hx with ⟨hx, hnp⟩ | hx
    · exact Or.inr ⟨hx, fun h => absurd h (by omega), fun _ => hnp⟩
    · exact Or.inl ⟨rfl, hx⟩
  · obtain ⟨hx, hni⟩ := (hi.rest i hl x).mp hx
    exact Or.inr ⟨hx, hni, fun h => absurd h hl⟩

theorem Installed.wellFormed (hi : Installed rank v level files outputs v')
    (h : v.WellFormed D rank) (hch : Chosen rank v level files)
    (hout : Outputs D rank v level files outputs) : v'.WellFormed D rank := by
  have hfile : ∀ i, ∀ x ∈ v'.files i, x.WellFormed D rank := by
    intro i x hx
    rcases hi.mem_cases hx with ⟨-, hx⟩ | ⟨hx, -, -⟩
    · exact hout.wellFormed x hx
    · exact h.file i x hx
  have hzero : ∀ x ∈ v'.files 0, x ∈ v.files 0 := (hi.sublist 0 (by omega)).subset
  refine ⟨hfile, ?_, ?_, h.number.sublist (hi.sublist 0 (by omega)), ?_, ?_⟩
  · intro i hlt
    have hne : i ≠ level + 1 := by
      rintro rfl
      exact hlt hch.level_lt
    have hsub := hi.sublist i hne
    rw [h.levels i hlt] at hsub
    exact List.sublist_nil.mp hsub
  · intro i hpos
    by_cases hl : i = level + 1
    · subst hl
      exact sorted_of_strictChain hi.next_chain (hfile _)
    · exact (h.level_sorted i hpos).sublist ((hi.sublist i hl).flatMap _)
  · intro x hx y hy
    exact h.newer_file x (hzero x hx) y (hzero y hy)
  · intro i j hij a ha b hb
    obtain ⟨x, hx, hax⟩ := mem_levelEntries.mp ha
    obtain ⟨y, hy, hby⟩ := mem_levelEntries.mp hb
    rcases hi.mem_cases hx with ⟨hil, hx⟩ | ⟨hx, hxi, hxp⟩ <;>
      rcases hi.mem_cases hy with ⟨hjl, hy⟩ | ⟨hy, -, -⟩
    · omega
    · obtain ⟨g, hg, hag⟩ := hout.entries x hx a hax
      rcases List.mem_append.mp hg with hg | hg
      · exact h.newer_level level j (by omega) a
          (mem_levelEntries.mpr ⟨g, hch.matched.inputs_closed.sublist.subset hg, hag⟩) b
          (mem_levelEntries.mpr ⟨y, hy, hby⟩)
      · exact h.newer_level (level + 1) j (by omega) a
          (mem_levelEntries.mpr ⟨g, hch.matched.parents_closed.sublist.subset hg, hag⟩) b
          (mem_levelEntries.mpr ⟨y, hy, hby⟩)
    · obtain ⟨g, hg, hbg⟩ := hout.entries y hy b hby
      have hstays : Stays v level files i x := ⟨hx, by omega, hxi, hxp⟩
      exact hstays.above h hch.matched hg a hax b hbg
    · exact h.newer_level i j hij a (mem_levelEntries.mpr ⟨x, hx, hax⟩) b
        (mem_levelEntries.mpr ⟨y, hy, hby⟩)

theorem Installed.tidy (hi : Installed rank v level files outputs v') (ht : v.Tidy rank)
    (hout : Outputs D rank v level files outputs) : v'.Tidy rank := by
  constructor
  · intro i hpos x hx y hy hne
    by_cases hl : i = level + 1
    · subst hl
      have hpair : (v'.files (level + 1)).Pairwise (Apart rank) := hi.next_chain.imp Or.inl
      exact hpair.forall hx hy hne
    · have hsub := hi.sublist i hl
      exact ht.apart i hpos x (hsub.subset hx) y (hsub.subset hy) hne
  · intro i x hx j y hy hn
    rcases hi.mem_cases hx with ⟨hil, hx⟩ | ⟨hx, hxi, hxp⟩ <;>
      rcases hi.mem_cases hy with ⟨hjl, hy⟩ | ⟨hy, hyi, hyp⟩
    · exact ⟨hil.trans hjl.symm, hout.number x hx y hy hn⟩
    · obtain ⟨hjl, hyin⟩ := hout.fresh x hx j y hy hn
      exact absurd hyin (hyi hjl)
    · obtain ⟨hil, hxin⟩ := hout.fresh y hy i x hx hn.symm
      exact absurd hxin (hxi hil)
    · exact ht.number i x hx j y hy hn

section Reads

variable {input kept upper : List Entry} {m : ℕ}

theorem mem_deeperFiles {e : Entry} : e ∈ entriesOf (Compaction.deeperFiles ⟨level, v⟩) ↔
    ∃ j, level + 2 ≤ j ∧ j < kNumLevels ∧ e ∈ v.levelEntries j := by
  rw [Compaction.entriesOf_deeperFiles, List.mem_flatMap]
  constructor
  · rintro ⟨j, hj, he⟩
    rw [Compaction.deeperLevels, List.mem_range'_1] at hj
    exact ⟨j, hj.1, by omega, he⟩
  · rintro ⟨j, hge, hlt, he⟩
    refine ⟨j, ?_, he⟩
    rw [Compaction.deeperLevels, List.mem_range'_1]
    dsimp only
    omega

def stayingEntries (v : Version) (input deeper : List Entry) : List Entry :=
  v.entries.filter fun e => e ∉ input ∧ e ∉ deeper

theorem mem_stayingEntries (h : v.WellFormed D rank)
    (hm : Matched rank v level files.inputs files.parents)
    (hin : ∀ e, e ∈ input ↔ ∃ g ∈ files.inputs ++ files.parents, e ∈ g.entries) {e : Entry} :
    e ∈ stayingEntries v input (entriesOf (Compaction.deeperFiles ⟨level, v⟩)) ↔
      ∃ i x, Stays v level files i x ∧ e ∈ x.entries := by
  rw [stayingEntries, List.mem_filter, decide_eq_true_iff]
  constructor
  · rintro ⟨he, hni, hnd⟩
    obtain ⟨i, hlt, hei⟩ := mem_entries.mp he
    obtain ⟨x, hx, hex⟩ := mem_levelEntries.mp hei
    refine ⟨i, x, ⟨hx, ?_, ?_, ?_⟩, hex⟩
    · by_contra hgt
      exact hnd (mem_deeperFiles.mpr ⟨i, by omega, hlt, hei⟩)
    · rintro rfl hxin
      exact hni ((hin e).mpr ⟨x, List.mem_append_left _ hxin, hex⟩)
    · rintro rfl hxp
      exact hni ((hin e).mpr ⟨x, List.mem_append_right _ hxp, hex⟩)
  · rintro ⟨i, x, hx, hex⟩
    refine ⟨h.mem_entries_of_file hx.mem hex, ?_, ?_⟩
    · intro hei
      obtain ⟨g, hg, heg⟩ := (hin e).mp hei
      exact lt_irrefl _ (hx.above h hm hg e hex e heg rfl)
    · intro hed
      obtain ⟨j, hge, -, hej⟩ := mem_deeperFiles.mp hed
      have hupper := hx.upper
      exact lt_irrefl _ (h.newer_level i j (by omega) e (mem_levelEntries.mpr ⟨x, hx.mem, hex⟩) e hej
        rfl)

/-- The inputs of a compaction are above the levels below it. -/
theorem input_above_deeper (h : v.WellFormed D rank)
    (hm : Matched rank v level files.inputs files.parents)
    (hin : ∀ e, e ∈ input ↔ ∃ g ∈ files.inputs ++ files.parents, e ∈ g.entries) :
    (schema rank).Above input (entriesOf (Compaction.deeperFiles ⟨level, v⟩)) := by
  intro a ha b hb
  obtain ⟨g, hg, hag⟩ := (hin a).mp ha
  obtain ⟨j, hge, -, hbj⟩ := mem_deeperFiles.mp hb
  rcases List.mem_append.mp hg with hg | hg
  · exact h.newer_level level j (by omega) a
      (mem_levelEntries.mpr ⟨g, hm.inputs_closed.sublist.subset hg, hag⟩) b hbj
  · exact h.newer_level (level + 1) j (by omega) a
      (mem_levelEntries.mpr ⟨g, hm.parents_closed.sublist.subset hg, hag⟩) b hbj

/-- What stays is above what is compacted and what lies deeper. -/
theorem staying_above (h : v.WellFormed D rank)
    (hm : Matched rank v level files.inputs files.parents)
    (hin : ∀ e, e ∈ input ↔ ∃ g ∈ files.inputs ++ files.parents, e ∈ g.entries) :
    (schema rank).Above (stayingEntries v input (entriesOf (Compaction.deeperFiles ⟨level, v⟩)))
      (input ++ entriesOf (Compaction.deeperFiles ⟨level, v⟩)) := by
  intro a ha b hb
  obtain ⟨i, x, hx, hax⟩ := (mem_stayingEntries h hm hin).mp ha
  have hupper := hx.upper
  rcases List.mem_append.mp hb with hb | hb
  · obtain ⟨g, hg, hbg⟩ := (hin b).mp hb
    exact hx.above h hm hg a hax b hbg
  · obtain ⟨j, hge, -, hbj⟩ := mem_deeperFiles.mp hb
    exact h.newer_level i j (by omega) a (mem_levelEntries.mpr ⟨x, hx.mem, hax⟩) b hbj

theorem mem_entries_before (h : v.WellFormed D rank)
    (hm : Matched rank v level files.inputs files.parents)
    (hin : ∀ e, e ∈ input ↔ ∃ g ∈ files.inputs ++ files.parents, e ∈ g.entries) (e : Entry) :
    e ∈ v.entries ↔ e ∈ stayingEntries v input (entriesOf (Compaction.deeperFiles ⟨level, v⟩)) ++
      (input ++ entriesOf (Compaction.deeperFiles ⟨level, v⟩)) := by
  rw [List.mem_append]
  constructor
  · intro he
    by_cases hmem : e ∈ input ++ entriesOf (Compaction.deeperFiles ⟨level, v⟩)
    · exact Or.inr hmem
    · rw [List.mem_append, not_or] at hmem
      exact Or.inl (List.mem_filter.mpr ⟨he, decide_eq_true hmem⟩)
  · rintro (he | he)
    · exact List.mem_of_mem_filter he
    rcases List.mem_append.mp he with he | he
    · obtain ⟨g, hg, heg⟩ := (hin e).mp he
      rcases List.mem_append.mp hg with hg | hg
      · exact h.mem_entries_of_file (hm.inputs_closed.sublist.subset hg) heg
      · exact h.mem_entries_of_file (hm.parents_closed.sublist.subset hg) heg
    · obtain ⟨j, -, hlt, hej⟩ := mem_deeperFiles.mp he
      exact mem_entries.mpr ⟨j, hlt, hej⟩

/-- After a compaction the entries it kept are in the place of its inputs. -/
theorem Installed.mem_entries_after (hi : Installed rank v level files outputs v')
    (h : v.WellFormed D rank) (hch : Chosen rank v level files)
    (hin : ∀ e, e ∈ input ↔ ∃ g ∈ files.inputs ++ files.parents, e ∈ g.entries)
    (houts : ∀ e, e ∈ kept ↔ ∃ f ∈ outputs, e ∈ f.entries) (e : Entry) :
    e ∈ v'.entries ↔ e ∈ stayingEntries v input (entriesOf (Compaction.deeperFiles ⟨level, v⟩)) ++
      (kept ++ entriesOf (Compaction.deeperFiles ⟨level, v⟩)) := by
  have hstaying := mem_stayingEntries (e := e) h hch.matched hin
  have hlevel := hch.level_lt
  have hfile : ∀ {i x}, i < kNumLevels → x ∈ v'.files i → e ∈ x.entries → e ∈ v'.entries :=
    fun hlt hx hex => mem_entries.mpr ⟨_, hlt, mem_levelEntries.mpr ⟨_, hx, hex⟩⟩
  rw [List.mem_append, List.mem_append]
  constructor
  · intro he
    obtain ⟨i, hlt, hei⟩ := mem_entries.mp he
    obtain ⟨x, hx, hex⟩ := mem_levelEntries.mp hei
    rcases hi.mem_cases hx with ⟨-, hx⟩ | ⟨hx, hxi, hxp⟩
    · exact Or.inr (Or.inl ((houts e).mpr ⟨x, hx, hex⟩))
    · by_cases hupper : i ≤ level + 1
      · exact Or.inl (hstaying.mpr ⟨i, x, ⟨hx, hupper, hxi, hxp⟩, hex⟩)
      · refine Or.inr (Or.inr (mem_deeperFiles.mpr ⟨i, by omega, hlt, ?_⟩))
        exact mem_levelEntries.mpr ⟨x, hx, hex⟩
  · rintro (he | he | he)
    · obtain ⟨i, x, hx, hex⟩ := hstaying.mp he
      have hupper := hx.upper
      by_cases hl : i = level + 1
      · subst hl
        exact hfile hlevel ((hi.next x).mpr (Or.inl ⟨hx.mem, hx.not_parent rfl⟩)) hex
      · exact hfile (by omega) ((hi.rest i hl x).mpr ⟨hx.mem, hx.not_input⟩) hex
    · obtain ⟨f, hf, hef⟩ := (houts e).mp he
      exact hfile hlevel ((hi.next f).mpr (Or.inr hf)) hef
    · obtain ⟨j, hge, hlt, hej⟩ := mem_deeperFiles.mp he
      obtain ⟨x, hx, hex⟩ := mem_levelEntries.mp hej
      refine hfile hlt ((hi.rest j (by omega) x).mpr ⟨hx, fun hj => ?_⟩) hex
      omega

/-- Readers at the last sequence number find the same values as before. -/
theorem Installed.read_eq (hi : Installed rank v level files outputs v') (h : v.WellFormed D rank)
    (hch : Chosen rank v level files) (hsorted : Sorted D rank input)
    (hin : ∀ e, e ∈ input ↔ ∃ g ∈ files.inputs ++ files.parents, e ∈ g.entries)
    (hkept : (schema rank).Discards input (entriesOf (Compaction.deeperFiles ⟨level, v⟩)) m input kept)
    (houts : ∀ e, e ∈ kept ↔ ∃ f ∈ outputs, e ∈ f.entries)
    (hu : (schema rank).UniqueSeqs upper) (ha : (schema rank).Above upper v.entries) (k : κ) {s : ℕ}
    (hs : m ≤ s) :
    (schema rank).read (upper ++ v'.entries) k s = (schema rank).read (upper ++ v.entries) k s := by
  have hm := hch.matched
  let deeper := entriesOf (Compaction.deeperFiles ⟨level, v⟩)
  let top := upper ++ stayingEntries v input deeper
  have hold := mem_entries_before h hm hin
  have hnew := hi.mem_entries_after h hch hin houts
  have hall : (schema rank).UniqueSeqs (upper ++ v.entries) :=
    Schema.UniqueSeqs.append _ hu h.uniqueSeqs ha
  have htop : (schema rank).UniqueSeqs top := by
    refine Schema.UniqueSeqs.of_subset _ hall fun e he => ?_
    rcases List.mem_append.mp he with he | he
    · exact List.mem_append_left _ he
    · exact List.mem_append_right _ (List.mem_of_mem_filter he)
  have habove : (schema rank).Above top (input ++ deeper) := by
    intro a hmem b hb
    rcases List.mem_append.mp hmem with hmem | hmem
    · exact ha a hmem b ((hold b).mpr (List.mem_append_right _ hb))
    · exact staying_above h hm hin a hmem b hb
  have hbelow : (schema rank).UniqueSeqs (input ++ deeper) :=
    Schema.UniqueSeqs.of_subset _ h.uniqueSeqs fun e he =>
      (hold e).mpr (List.mem_append_right _ he)
  have hkeptIn : ∀ e ∈ kept ++ deeper, e ∈ input ++ deeper := by
    intro e he
    rcases List.mem_append.mp he with he | he
    · exact List.mem_append_left _ (hkept.subset e he)
    · exact List.mem_append_right _ he
  have hbelow' := Schema.UniqueSeqs.of_subset _ hbelow hkeptIn
  have habove' : (schema rank).Above top (kept ++ deeper) :=
    fun a hmem b hb => habove a hmem b (hkeptIn b hb)
  have hdeeper : (schema rank).UniqueSeqs deeper :=
    Schema.UniqueSeqs.of_subset _ hbelow fun e he => List.mem_append_right _ he
  have hreads : (schema rank).read (kept ++ deeper) k s = (schema rank).read (input ++ deeper) k s :=
    hkept.read_eq hsorted.uniqueSeqs hdeeper (input_above_deeper h hm hin) hs
  have hregroup : ∀ {entries below : List Entry},
      (∀ e, e ∈ entries ↔ e ∈ stayingEntries v input deeper ++ below) →
      ∀ e, e ∈ top ++ below ↔ e ∈ upper ++ entries := by
    intro entries below hmem e
    rw [List.append_assoc, List.mem_append, List.mem_append (s := upper), hmem]
  calc (schema rank).read (upper ++ v'.entries) k s
      = (schema rank).read (top ++ (kept ++ deeper)) k s :=
        ((schema rank).read_congr (Schema.UniqueSeqs.append _ htop hbelow' habove')
          (hregroup hnew)).symm
    _ = (schema rank).read (top ++ (input ++ deeper)) k s :=
        (schema rank).read_append_congr htop hbelow' hbelow habove' habove hreads
    _ = (schema rank).read (upper ++ v.entries) k s :=
        (schema rank).read_congr (Schema.UniqueSeqs.append _ htop hbelow habove) (hregroup hold)

end Reads

end Installed

end DVELevelDB
