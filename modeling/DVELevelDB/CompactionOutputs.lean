import DVELevelDB.CompactionInputs
import DVELevelDB.Lib.Merge
import Mathlib.Data.List.Flatten

/-! # The work of a compaction

Its files are merged, the entries that are kept are cut into outputs, and each output becomes a
table.
-/

namespace DVELevelDB

open VersionStore

section Iterator

variable (c : Comparator)

def entryBefore (e e' : Entry) : Exec Bool := do
  return (← InternalKeyComparator.compare c e.key e'.key) == .lt

/-- The files of level 0 may overlap; those of another level follow one another. -/
def inputLists (level : ℕ) (files : List FileMetaData) : List (List Entry) :=
  if level = 0 then
    files.map (·.entries)
  else if files.isEmpty then
    []
  else
    [files.flatMap (·.entries)]

/-- `MakeInputIterator`: the entries that it goes through. -/
def makeInputIterator (level : ℕ) (files : CompactionFiles) : Exec (List Entry) :=
  Merge.merge (entryBefore c)
    (inputLists level files.inputs ++ inputLists (level + 1) files.parents)

end Iterator

/-- The grandparents from `grandparent_index_` on, `seen_key_` and `overlapped_bytes_`. -/
structure GrandparentState where
  rest : List FileMetaData
  seenKey : Bool
  overlappedBytes : ℕ

section Outputs

variable (c : Comparator)

def passGrandparents (key : InternalKey) (seenKey : Bool) :
    List FileMetaData → ℕ → Exec (List FileMetaData × ℕ)
  | [], overlapped => return ([], overlapped)
  | f :: files, overlapped => do
    if (← InternalKeyComparator.compare c key f.largest) = .gt then
      passGrandparents key seenKey files (if seenKey then overlapped + f.fileSize else overlapped)
    else
      return (f :: files, overlapped)

def shouldStopBefore (limit : ℕ) (key : InternalKey) (g : GrandparentState) :
    Exec (Bool × GrandparentState) := do
  let (rest, overlapped) ← passGrandparents c key g.seenKey g.rest g.overlappedBytes
  if overlapped > limit then
    return (true, ⟨rest, true, 0⟩)
  else
    return (false, ⟨rest, true, overlapped⟩)

/-- The finished outputs, and the entries of the open one; no output is open without entries. -/
structure OutputState where
  finished : List (List Entry)
  current : List Entry

def OutputState.finish (out : OutputState) : OutputState :=
  if out.current = [] then out else ⟨out.finished ++ [out.current], []⟩

def OutputState.add (full : List Entry → Bool) (e : Entry) (out : OutputState) : OutputState :=
  if full (out.current ++ [e]) then
    ⟨out.finished ++ [out.current ++ [e]], []⟩
  else
    { out with current := out.current ++ [e] }

/-- The loop of `DoCompactionWork` with its outputs. -/
def outputLoop (full : List Entry → Bool) (limit smallestSnapshot : ℕ) :
    List Entry → CompactionState → GrandparentState → OutputState → Exec (List (List Entry))
  | [], _, _, out => return out.finish.finished
  | e :: input, st, g, out => do
    let (stop, g) ← shouldStopBefore c limit e.key g
    let out := if stop then out.finish else out
    let (drop, st) ← compactEntry c smallestSnapshot e.key st
    outputLoop full limit smallestSnapshot input st g (if drop then out else out.add full e)

end Outputs

/-- The tables of the outputs, with the numbers in the order in which they were opened. -/
def buildOutputs (o : Options) : ℕ → List (List Entry) → Exec (List FileMetaData)
  | _, [] => return []
  | number, [] :: groups => buildOutputs o number groups
  | number, (first :: rest) :: groups => do
    let f ← buildTable o number first rest
    return f :: (← buildOutputs o (number + 1) groups)

section Spec

variable {κ : Type*} [LinearOrder κ] {c : Comparator} {D : Bytes → Prop} {rank : Bytes → κ}
  {v : Version} {level : ℕ}

section Merging

variable {files : List FileMetaData}

def Comparable (rank : Bytes → κ) (a b : Entry) : Prop :=
  (schema rank).Before a b ∨ (schema rank).Before b a

theorem comparable_of_above {A B : List Entry} (h : (schema rank).Above A B) {a b : Entry}
    (ha : a ∈ A) (hb : b ∈ B) : Comparable rank a b := by
  rcases lt_trichotomy (rank a.key.userKey) (rank b.key.userKey) with hlt | heq | hlt
  · exact Or.inl (Or.inl hlt)
  · exact Or.inl (Or.inr ⟨heq, h a ha b hb heq⟩)
  · exact Or.inr (Or.inl hlt)

theorem inputLists_comparable (h : v.WellFormed D rank) (hs : files.Sublist (v.files level)) :
    (inputLists level files).Pairwise fun l l' => ∀ a ∈ l, ∀ b ∈ l', Comparable rank a b := by
  rw [inputLists]
  split_ifs with hl
  · subst hl
    refine List.pairwise_map.mpr ((h.number.sublist hs).imp_of_mem ?_)
    intro f g hf hg hne a ha b hb
    rcases Nat.lt_or_gt_of_ne hne with hlt | hlt
    · exact (comparable_of_above (h.newer_file g (hs.subset hg) f (hs.subset hf) hlt) hb ha).symm
    · exact comparable_of_above (h.newer_file f (hs.subset hf) g (hs.subset hg) hlt) ha hb
  · exact List.Pairwise.nil
  · exact List.pairwise_singleton _ _

theorem mem_inputLists {e : Entry} :
    e ∈ (inputLists level files).flatten ↔ ∃ f ∈ files, e ∈ f.entries := by
  rw [inputLists]
  split_ifs with hl hempty
  · simp
  · rw [List.isEmpty_iff.mp hempty]
    simp
  · simp

theorem inputLists_sorted (h : v.WellFormed D rank) (hs : files.Sublist (v.files level)) :
    ∀ l ∈ inputLists level files, Sorted D rank l := by
  rw [inputLists]
  split_ifs with hl
  · intro l hmem
    obtain ⟨f, hf, rfl⟩ := List.mem_map.mp hmem
    exact (h.file level f (hs.subset hf)).table.sorted
  · simp
  · intro l hmem
    rw [List.mem_singleton.mp hmem]
    exact (h.level_sorted level (Nat.pos_of_ne_zero hl)).sublist (hs.flatMap _)

theorem sorted_of_comparable {L : List Entry} (hv : ∀ e ∈ L, e.Valid D)
    (hb : L.Pairwise fun e e' => KeyBefore rank e.key e'.key) (hc : L.Pairwise (Comparable rank)) :
    Sorted D rank L := by
  refine ⟨(hb.and hc).imp ?_, hv⟩
  rintro e e' ⟨hlt, hor⟩
  exact hor.resolve_right fun hgt => hlt.asymm (keyBefore_of_before hgt)

theorem entryBefore_eq (ho : c.OrdersOn D rank) {e e' : Entry} (he : e.Valid D) (he' : e'.Valid D) :
    entryBefore c e e' = .ok (decide (KeyBefore rank e.key e'.key)) := by
  rw [entryBefore, InternalKeyComparator.compare_eq ho he.key_mem he'.key_mem, Stops.ok_bind]
  by_cases hb : KeyBefore rank e.key e'.key
  · simp only [hb, if_true, decide_true]
    rfl
  · by_cases hb' : KeyBefore rank e'.key e.key <;>
      simp only [hb, hb', if_true, if_false, decide_false] <;> rfl

def EntryBefore (rank : Bytes → κ) (e e' : Entry) : Prop := KeyBefore rank e.key e'.key

instance decidableEntryBefore (rank : Bytes → κ) : DecidableRel (EntryBefore rank) :=
  fun e e' => inferInstanceAs (Decidable (KeyBefore rank e.key e'.key))

theorem EntryBefore.trans (x y z : Entry) (h : EntryBefore rank x y) (h' : EntryBefore rank y z) :
    EntryBefore rank x z :=
  KeyBefore.trans h h'

theorem EntryBefore.asymm (x y : Entry) (h : EntryBefore rank x y) : ¬ EntryBefore rank y x :=
  KeyBefore.asymm h

section Lists

variable {lists : List (List Entry)} (hs : ∀ l ∈ lists, Sorted D rank l)
  (hc : lists.Pairwise fun l l' => ∀ a ∈ l, ∀ b ∈ l', Comparable rank a b)

include hs hc

theorem mergeable_of_sorted (ho : c.OrdersOn D rank) :
    Merge.Mergeable (entryBefore c) (EntryBefore rank) lists := by
  have hvalid : ∀ e ∈ lists.flatten, e.Valid D := by
    intro e he
    obtain ⟨l, hl, he⟩ := List.mem_flatten.mp he
    exact (hs l hl).valid e he
  refine ⟨fun a ha b hb => entryBefore_eq ho (hvalid a ha) (hvalid b hb), ?_, ?_⟩
  · intro l hl
    exact (hs l hl).pairwise.imp keyBefore_of_before
  · exact hc.imp fun hll a ha b hb => (hll a ha b hb).imp keyBefore_of_before keyBefore_of_before

theorem sorted_of_merge {out : List Entry} (hperm : out.Perm lists.flatten)
    (hpair : out.Pairwise (EntryBefore rank)) : Sorted D rank out := by
  have hall : lists.flatten.Pairwise (Comparable rank) := by
    refine List.pairwise_flatten.mpr ⟨?_, hc⟩
    intro l hl
    exact (hs l hl).pairwise.imp Or.inl
  apply sorted_of_comparable _ hpair ((hperm.pairwise_iff Or.symm).mpr hall)
  intro e he
  obtain ⟨l, hl, he⟩ := List.mem_flatten.mp (hperm.mem_iff.mp he)
  exact (hs l hl).valid e he

end Lists

theorem makeInputIterator_spec (ho : c.OrdersOn D rank) (h : v.WellFormed D rank)
    {files : CompactionFiles} (hm : Matched rank v level files.inputs files.parents) :
    ∃ input, makeInputIterator c level files = .ok input ∧ Sorted D rank input ∧
      ∀ e, e ∈ input ↔ ∃ f ∈ files.inputs ++ files.parents, e ∈ f.entries := by
  let lists := inputLists level files.inputs ++ inputLists (level + 1) files.parents
  have hsin := hm.inputs_closed.sublist
  have hspar := hm.parents_closed.sublist
  have hmem : ∀ e, e ∈ lists.flatten ↔ ∃ f ∈ files.inputs ++ files.parents, e ∈ f.entries := by
    intro e
    simp only [lists, List.flatten_append, List.mem_append, mem_inputLists, or_and_right,
      exists_or]
  have hsorted : ∀ l ∈ lists, Sorted D rank l := by
    intro l hl
    rcases List.mem_append.mp hl with hl | hl
    · exact inputLists_sorted h hsin l hl
    · exact inputLists_sorted h hspar l hl
  have hcomparable : lists.Pairwise fun l l' => ∀ a ∈ l, ∀ b ∈ l', Comparable rank a b := by
    refine List.pairwise_append.mpr
      ⟨inputLists_comparable h hsin, inputLists_comparable h hspar, ?_⟩
    intro l hl l' hl' a ha b hb
    have ha' : a ∈ v.levelEntries level := by
      obtain ⟨f, hf, haf⟩ := mem_inputLists.mp (List.mem_flatten.mpr ⟨l, hl, ha⟩)
      exact mem_levelEntries.mpr ⟨f, hsin.subset hf, haf⟩
    have hb' : b ∈ v.levelEntries (level + 1) := by
      obtain ⟨f, hf, hbf⟩ := mem_inputLists.mp (List.mem_flatten.mpr ⟨l', hl', hb⟩)
      exact mem_levelEntries.mpr ⟨f, hspar.subset hf, hbf⟩
    exact comparable_of_above (h.newer_level level (level + 1) (Nat.lt_succ_self _)) ha' hb'
  obtain ⟨input, hinput, hperm, hpair⟩ :=
    Merge.merge_spec EntryBefore.trans (mergeable_of_sorted hsorted hcomparable ho)
  exact ⟨input, hinput, sorted_of_merge hsorted hcomparable hperm hpair,
    fun e => hperm.mem_iff.trans (hmem e)⟩

end Merging

section Cutting

variable {full : List Entry → Bool} {limit m : ℕ}

theorem passGrandparents_spec (ho : c.OrdersOn D rank) {key : InternalKey} (hk : D key.userKey)
    (seenKey : Bool) {files : List FileMetaData} (hf : ∀ f ∈ files, D f.largest.userKey)
    (overlapped : ℕ) : ∃ r, passGrandparents c key seenKey files overlapped = .ok r ∧
      ∀ f ∈ r.1, f ∈ files := by
  induction files generalizing overlapped with
  | nil => exact ⟨_, rfl, by simp⟩
  | cons f files ih =>
    rw [passGrandparents, InternalKeyComparator.compare_eq ho hk (hf f List.mem_cons_self),
      Stops.ok_bind]
    split_ifs
    all_goals first
      | exact ⟨_, rfl, fun _ h => h⟩
      | (obtain ⟨r, hr, hsub⟩ := ih (fun f' h' => hf f' (List.mem_cons_of_mem _ h')) _
         exact ⟨r, hr, fun f' h' => List.mem_cons_of_mem _ (hsub f' h')⟩)

theorem shouldStopBefore_spec (ho : c.OrdersOn D rank) {key : InternalKey} (hk : D key.userKey)
    {g : GrandparentState} (hf : ∀ f ∈ g.rest, D f.largest.userKey) :
    ∃ stop g', shouldStopBefore c limit key g = .ok (stop, g') ∧
      ∀ f ∈ g'.rest, D f.largest.userKey := by
  obtain ⟨⟨rest, overlapped⟩, hr, hsub⟩ :=
    passGrandparents_spec ho hk g.seenKey hf g.overlappedBytes
  rw [shouldStopBefore, hr, Stops.ok_bind]
  dsimp only
  split_ifs
  · exact ⟨_, _, rfl, fun f h => hf f (hsub f h)⟩
  · exact ⟨_, _, rfl, fun f h => hf f (hsub f h)⟩

/-- The outputs so far hold `kept`, and none of them is empty. -/
structure Holds (out : OutputState) (kept : List Entry) : Prop where
  entries : out.finished.flatten ++ out.current = kept
  nonempty : ∀ group ∈ out.finished, group ≠ []

theorem Holds.finish {out : OutputState} {kept : List Entry} (h : Holds out kept) :
    Holds out.finish kept ∧ out.finish.current = [] := by
  unfold OutputState.finish
  split_ifs with hc
  · exact ⟨h, hc⟩
  · refine ⟨⟨by simp [← h.entries], ?_⟩, rfl⟩
    intro group hg
    rcases List.mem_append.mp hg with hg | hg
    · exact h.nonempty group hg
    · rw [List.mem_singleton.mp hg]
      exact hc

theorem Holds.add {out : OutputState} {kept : List Entry} (h : Holds out kept) (e : Entry) :
    Holds (out.add full e) (kept ++ [e]) := by
  unfold OutputState.add
  split_ifs
  · refine ⟨by simp [← h.entries], ?_⟩
    intro group hg
    rcases List.mem_append.mp hg with hg | hg
    · exact h.nonempty group hg
    · rw [List.mem_singleton.mp hg]
      simp
  · exact ⟨by simp [← h.entries], h.nonempty⟩

theorem outputLoop_spec (ho : c.OrdersOn D rank) {input : List Entry}
    (hD : ∀ e ∈ input, D e.key.userKey) {st : CompactionState} {kept done : List Entry}
    (hkept : doCompactionWork c m input st = .ok kept) {g : GrandparentState}
    (hg : ∀ f ∈ g.rest, D f.largest.userKey) {out : OutputState} (hout : Holds out done) :
    ∃ groups, outputLoop c full limit m input st g out = .ok groups ∧
      groups.flatten = done ++ kept ∧ ∀ group ∈ groups, group ≠ [] := by
  induction input generalizing st kept done g out with
  | nil =>
    injection hkept with hkept
    obtain ⟨hfin, hnil⟩ := hout.finish
    refine ⟨_, rfl, ?_, hfin.nonempty⟩
    rw [← hkept, List.append_nil, ← hfin.entries, hnil, List.append_nil]
  | cons e input ih =>
    obtain ⟨stop, g', hstop, hg'⟩ := shouldStopBefore_spec ho (hD e List.mem_cons_self) hg
    rw [doCompactionWork] at hkept
    obtain ⟨⟨drop, st'⟩, hentry, hkept⟩ := Stops.bind_eq_ok.mp hkept
    obtain ⟨kept', hkept', hres⟩ := Stops.bind_eq_ok.mp hkept
    injection hres with hres
    have hrest : ∀ e' ∈ input, D e'.key.userKey := fun e' h' => hD e' (List.mem_cons_of_mem _ h')
    have hcut : Holds (if stop then out.finish else out) done := by
      split_ifs
      · exact hout.finish.1
      · exact hout
    rw [outputLoop, hstop, Stops.ok_bind]
    simp only [hentry, Stops.ok_bind]
    cases drop with
    | true =>
      obtain ⟨groups, hgroups, hflat, hne⟩ := ih hrest hkept' hg' hcut
      refine ⟨groups, hgroups, ?_, hne⟩
      rw [hflat, ← hres]
      rfl
    | false =>
      obtain ⟨groups, hgroups, hflat, hne⟩ := ih hrest hkept' hg' (hcut.add e)
      refine ⟨groups, hgroups, ?_, hne⟩
      rw [hflat, ← hres]
      simp

end Cutting

section Building

variable {o : Options}

/-- The files follow one another without sharing a user key. -/
def StrictChain (rank : Bytes → κ) (files : List FileMetaData) : Prop :=
  files.Pairwise fun f g => rank f.largest.userKey < rank g.smallest.userKey

theorem buildOutputs_spec (ho : o.comparator.OrdersOn D rank)
    (hp : ∀ p ∈ o.filterPolicy, p.Lawful) (number : ℕ) {groups : List (List Entry)}
    (hs : Sorted D rank groups.flatten) (hne : ∀ group ∈ groups, group ≠ []) :
    ∃ files, buildOutputs o number groups = .ok files ∧
      (∀ f ∈ files, f.WellFormed D rank) ∧ files.map (·.entries) = groups ∧
      (∀ f ∈ files, number ≤ f.number ∧ f.number < number + groups.length) ∧
      files.Pairwise fun f g => f.number < g.number := by
  induction groups generalizing number with
  | nil => exact ⟨[], rfl, by simp, rfl, by simp, List.Pairwise.nil⟩
  | cons group groups ih =>
    rw [List.flatten_cons] at hs
    cases group with
    | nil => exact absurd rfl (hne [] List.mem_cons_self)
    | cons first rest =>
      obtain ⟨f, hf, hw, he, hn⟩ :=
        buildTable_eq ho hp number (hs.sublist (List.sublist_append_left _ _))
      obtain ⟨files, hfiles, hws, hes, hns, hpair⟩ := ih (number + 1)
        (hs.sublist (List.sublist_append_right _ _))
        fun group hg => hne group (List.mem_cons_of_mem _ hg)
      refine ⟨f :: files, ?_, ?_, ?_, ?_, List.pairwise_cons.mpr ⟨?_, hpair⟩⟩
      · rw [buildOutputs, hf, Stops.ok_bind, hfiles]
        rfl
      · intro g hg
        rcases List.mem_cons.mp hg with rfl | hg
        · exact hw
        · exact hws g hg
      · rw [List.map_cons, he, hes]
      · intro g hg
        rw [List.length_cons]
        rcases List.mem_cons.mp hg with rfl | hg
        · omega
        · have := hns g hg
          omega
      · intro g hg
        have := hns g hg
        omega

/-- The versions of a key are all in one group. -/
def KeysWhole (rank : Bytes → κ) (groups : List (List Entry)) : Prop :=
  groups.Pairwise fun group group' =>
    ∀ e ∈ group, ∀ e' ∈ group', rank e.key.userKey ≠ rank e'.key.userKey

theorem strictChain_of_keysWhole {files : List FileMetaData}
    (hw : ∀ f ∈ files, f.WellFormed D rank) (hs : Sorted D rank (files.map (·.entries)).flatten)
    (h : KeysWhole rank (files.map (·.entries))) : StrictChain rank files := by
  have hordered := (List.pairwise_flatten.mp hs.pairwise).2.and h
  rw [List.pairwise_map] at hordered
  refine hordered.imp_of_mem ?_
  rintro f g hf hg ⟨hbefore, hne⟩
  obtain ⟨e, he, hkey⟩ := (hw f hf).largest
  obtain ⟨e', he', hkey'⟩ := (hw g hg).smallest
  rw [← hkey, ← hkey']
  rcases hbefore e he e' he' with hlt | ⟨heq, -⟩
  · exact hlt
  · exact absurd heq (hne e he e' he')

/-- What is left for readers at the last sequence number are single versions. -/
theorem keysWhole_of_discards {m : ℕ} {input B : List Entry} {groups : List (List Entry)}
    (hs : Sorted D rank input) (hm : ∀ e ∈ input, e.key.sequence ≤ m)
    (h : (schema rank).Discards input B m input groups.flatten) : KeysWhole rank groups := by
  have hsub : groups.flatten.Sublist input := h.sublist
  suffices hsingle : groups.flatten.Pairwise fun e e' =>
      rank e.key.userKey ≠ rank e'.key.userKey from (List.pairwise_flatten.mp hsingle).2
  refine (hs.pairwise.sublist hsub).imp_of_mem ?_
  intro e e' he he' hbefore
  rcases hbefore with hlt | ⟨heq, hseq⟩
  · exact hlt.ne
  · exact absurd ⟨e, h.subset e he, heq, hseq, hm e (h.subset e he)⟩ (h.visible e' he')

end Building

end Spec

end DVELevelDB
