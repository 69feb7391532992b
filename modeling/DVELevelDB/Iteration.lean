import DVELevelDB.Iterators
import DVELevelDB.Lib.LiveVersions

/-! # What the engine's iterator goes through

The merge of all entries that can be read; the iterator stops at the live ones.
-/

namespace DVELevelDB

open Cursors VersionStore

variable {κ : Type*} [LinearOrder κ] {c : Comparator} {D : Bytes → Prop} {rank : Bytes → κ}

theorem Sorted.nodup {L : List Entry} (h : Sorted D rank L) : L.Nodup := by
  refine h.pairwise.imp ?_
  rintro e _ hlt rfl
  rcases hlt with hlt | ⟨-, hlt⟩
  · exact lt_irrefl _ hlt
  · exact lt_irrefl _ hlt

namespace MergingIterator

/-- A merge of the entries `l` of a memtable and of other lists, from the entries `old`, with `out`
ahead. The memtable may grow, so its list is kept apart. -/
structure At (c : Comparator) (D : Bytes → Prop) (rank : Bytes → κ) (mem : MemTable)
    (old l : List Entry) (lists : List (List Entry)) (out : List Entry) (it : MergingIterator) :
    Prop where
  children : ∃ rest, it.children = .memTable ⟨mem, l.head?⟩ :: rest ∧
    List.Forall₂ InternalIterator.Stands rest lists
  mem_sorted : Sorted D rank mem.entries
  ahead : l <:+ mem.entries
  above : (schema rank).Above mem.entries old
  subset : ∀ e ∈ lists.flatten, e ∈ old
  merged : Merge.Merged (entryBefore c) (EntryBefore rank) (l :: lists) out
  sorted : Sorted D rank out
  current : Merge.findSmallest (entryBefore c) 0 none (l :: lists) = .ok it.current

variable {mem : MemTable} {old l out : List Entry} {lists : List (List Entry)} {it : MergingIterator}
  {e : Entry}

theorem At.stands (h : it.At c D rank mem old l lists out) :
    List.Forall₂ InternalIterator.Stands it.children (l :: lists) := by
  obtain ⟨rest, hchildren, hrest⟩ := h.children
  rw [hchildren]
  exact .cons (InternalIterator.memTable_stands h.mem_sorted.nodup h.ahead) hrest

theorem At.current_eq (h : it.At c D rank mem old l lists out) :
    it.current.map Prod.snd = out.head? := by
  obtain ⟨best, hfind, hbest⟩ := h.merged.findSmallest_eq EntryBefore.trans EntryBefore.asymm
  rw [h.current] at hfind
  rw [Except.ok.inj hfind, hbest]

theorem At.length_le (h : it.At c D rank mem old l lists out) :
    out.length ≤ (it.children.map (·.entryCount)).sum := by
  rw [h.merged.perm.length_eq]
  have hstands := h.stands
  generalize it.children = children at hstands
  generalize l :: lists = lists at hstands
  induction hstands with
  | nil => exact le_rfl
  | cons hd _ ih =>
    rw [List.flatten_cons, List.length_append, List.map_cons, List.sum_cons]
    exact Nat.add_le_add hd.length_le ih

theorem findSmallest_eq {children : List InternalIterator}
    (hs : List.Forall₂ InternalIterator.Stands children lists)
    (hm : Merge.Merged (entryBefore c) (EntryBefore rank) lists out) :
    ∃ best, Merge.findSmallest (entryBefore c) 0 none lists = .ok best ∧
      findSmallest c children = .ok ⟨children, best⟩ := by
  obtain ⟨best, hfind, -⟩ := hm.findSmallest_eq EntryBefore.trans EntryBefore.asymm
  refine ⟨best, hfind, ?_⟩
  rw [findSmallest, findSmallest_heads (hs.imp fun _ _ h => h.delivers), hfind]
  rfl

theorem At.next (h : it.At c D rank mem old l lists (e :: out)) :
    ∃ it' l' lists', it.next c = .ok it' ∧ it'.At c D rank mem old l' lists' out := by
  obtain ⟨i, rest, hi, hfind, hmerged⟩ := h.merged.cons EntryBefore.trans EntryBefore.asymm
  have hcurrent : it.current = some (i, e) := Except.ok.inj (h.current.symm.trans hfind)
  have hstands := forall₂_advance (fun hd => hd.next) h.stands hi
  obtain ⟨best, hbest, hnext⟩ := findSmallest_eq hstands hmerged
  have hit : it.next c = .ok ⟨advance i it.children, best⟩ := by
    rw [MergingIterator.next, hcurrent]
    exact hnext
  have hsorted : Sorted D rank out := h.sorted.sublist (List.sublist_cons_self e out)
  obtain ⟨others, hchildren, hothers⟩ := h.children
  cases i with
  | zero =>
    obtain rfl : l = e :: rest := Option.some_inj.mp hi
    refine ⟨_, rest, lists, hit,
      ⟨?_, h.mem_sorted, ?_, h.above, h.subset, hmerged, hsorted, hbest⟩⟩
    · have hmem := MemTableIterator.next_eq h.mem_sorted.nodup h.ahead
      refine ⟨others, ?_, hothers⟩
      rw [hchildren, advance, List.modify_zero_cons, ← hmem]
      rfl
    · exact List.IsSuffix.trans (List.suffix_cons e rest) h.ahead
  | succ i =>
    refine ⟨_, l, Merge.next i lists, hit,
      ⟨?_, h.mem_sorted, h.ahead, h.above, ?_, hmerged, hsorted, hbest⟩⟩
    · refine ⟨advance i others, ?_, forall₂_advance (fun hd => hd.next) hothers hi⟩
      rw [hchildren]
      rfl
    · have hsub : ∀ child ∈ Merge.next i lists, ∀ b ∈ child, b ∈ old :=
        Merge.forall_next (fun child hc b hb => h.subset b (List.mem_flatten.mpr ⟨child, hc, hb⟩)) i
      intro b hb
      obtain ⟨child, hc, hb⟩ := List.mem_flatten.mp hb
      exact hsub child hc b hb

theorem At.lists_sorted (h : it.At c D rank mem old l lists out) :
    (∀ l' ∈ lists, Sorted D rank l') ∧
      lists.Pairwise fun l l' => ∀ a ∈ l, ∀ b ∈ l', Comparable rank a b := by
  have hall : (l :: lists).flatten.Pairwise (Comparable rank) :=
    (h.merged.perm.pairwise_iff Or.symm).mp (h.sorted.pairwise.imp Or.inl)
  obtain ⟨hin, hbetween⟩ := List.pairwise_flatten.mp hall
  refine ⟨?_, (List.pairwise_cons.mp hbetween).2⟩
  intro l' hl
  have hmem := List.mem_cons_of_mem l hl
  refine sorted_of_comparable ?_ (h.merged.mergeable.sorted l' hmem) (hin l' hmem)
  intro e he
  exact h.sorted.valid e (h.merged.perm.mem_iff.mpr (List.mem_flatten.mpr ⟨l', hmem, he⟩))

section Growth

variable {mem' : MemTable} {es : List Entry} {s : ℕ}

/-- The place of the first child in the memtable, once that has new entries. -/
def regrown (mem' : MemTable) : List Entry → List Entry
  | [] => []
  | e :: _ => mem'.entries.dropWhile (· ≠ e)

theorem mem_suffix_iff {L : List Entry} (h : Sorted D rank L) (hl : e :: l <:+ L) {x : Entry} :
    x ∈ e :: l ↔ x ∈ L ∧ ¬ EntryBefore rank x e := by
  obtain ⟨before, rfl⟩ := hl
  obtain ⟨-, hrest, hbefore⟩ := List.pairwise_append.mp h.pairwise
  constructor
  · intro hx
    refine ⟨List.mem_append_right _ hx, fun hlt => ?_⟩
    rcases List.mem_cons.mp hx with rfl | hx
    · exact EntryBefore.asymm _ _ hlt hlt
    · exact EntryBefore.asymm _ _ hlt (keyBefore_of_before ((List.pairwise_cons.mp hrest).1 x hx))
  · rintro ⟨hx, hnot⟩
    rcases List.mem_append.mp hx with hx | hx
    · exact absurd (keyBefore_of_before (hbefore x hx e List.mem_cons_self)) hnot
    · exact hx

theorem regrown_spec (hs : Sorted D rank mem.entries) (hs' : Sorted D rank mem'.entries)
    (hsub : ∀ e ∈ mem.entries, e ∈ mem'.entries) (ha : l <:+ mem.entries) :
    (regrown mem' l).head? = l.head? ∧ regrown mem' l <:+ mem'.entries ∧
      ∀ x ∈ mem.entries, x ∈ regrown mem' l ↔ x ∈ l := by
  cases l with
  | nil => exact ⟨rfl, List.nil_suffix, by simp [regrown]⟩
  | cons e l =>
    obtain ⟨before, after, hsplit, hnot⟩ :=
      List.eq_append_cons_of_mem (hsub e (ha.subset List.mem_cons_self))
    have hgrown : regrown mem' (e :: l) = e :: after := by
      rw [regrown, hsplit, List.dropWhile_append_of_pos]
      · simp
      · intro a ha
        exact decide_eq_true (ne_of_mem_of_not_mem ha hnot)
    have hsuffix : e :: after <:+ mem'.entries := ⟨before, hsplit.symm⟩
    rw [hgrown]
    refine ⟨rfl, hsuffix, ?_⟩
    intro x hx
    rw [mem_suffix_iff hs' hsuffix, mem_suffix_iff hs ha, and_iff_right (hsub x hx),
      and_iff_right hx]

/-- Entries that are newer than the iterator's sequence number make no difference to it. -/
theorem At.grow (ho : c.OrdersOn D rank) (h : it.At c D rank mem old l lists out)
    (hs' : Sorted D rank mem'.entries) (hperm : mem'.entries.Perm (es ++ mem.entries))
    (habove : (schema rank).Above mem'.entries old)
    (hnew : ∀ e ∈ es, s < e.key.sequence) :
    ∃ out', ({ it with children := .memTable ⟨mem', l.head?⟩ :: it.children.tail }).At c D rank mem'
        old (regrown mem' l) lists out' ∧
      out'.filter (·.key.sequence ≤ s) = out.filter (·.key.sequence ≤ s) ∧
      out'.head? = out.head? := by
  have hsub : ∀ e ∈ mem.entries, e ∈ mem'.entries := fun e he =>
    hperm.mem_iff.mpr (List.mem_append_right _ he)
  obtain ⟨hhead, hsuffix, hmem⟩ := regrown_spec h.mem_sorted hs' hsub h.ahead
  have hregrown : Sorted D rank (regrown mem' l) := hs'.sublist hsuffix.sublist
  obtain ⟨hold, hcomparable⟩ := h.lists_sorted
  have hlists : ∀ l' ∈ regrown mem' l :: lists, Sorted D rank l' := by
    intro l' hl
    rcases List.mem_cons.mp hl with rfl | hl
    · exact hregrown
    · exact hold l' hl
  have hcomparable : (regrown mem' l :: lists).Pairwise
      fun l l' => ∀ a ∈ l, ∀ b ∈ l', Comparable rank a b := by
    refine List.pairwise_cons.mpr ⟨?_, hcomparable⟩
    intro l' hl a ha b hb
    have hbold := h.subset b (List.mem_flatten.mpr ⟨l', hl, hb⟩)
    exact comparable_of_above habove (hsuffix.subset ha) hbold
  obtain ⟨out', hmerged⟩ := (mergeable_of_sorted hlists hcomparable ho).merged EntryBefore.trans
  have hsorted := sorted_of_merge hlists hcomparable hmerged.perm hmerged.sorted
  have hcurrent : Merge.findSmallest (entryBefore c) 0 none (regrown mem' l :: lists) =
      .ok it.current := by
    rw [← h.current, ← Merge.findSmallest_heads, ← Merge.findSmallest_heads 0 none (l :: lists),
      List.map_cons, List.map_cons, hhead]
  obtain ⟨rest, hchildren, hrest⟩ := h.children
  have hat : ({ it with children := .memTable ⟨mem', l.head?⟩ :: it.children.tail }).At c D rank mem'
        old (regrown mem' l) lists out' := by
    refine ⟨⟨rest, ?_, hrest⟩, hs', hsuffix, habove, h.subset, hmerged, hsorted, hcurrent⟩
    rw [hchildren, hhead, List.tail_cons]
  refine ⟨out', hat, ?_, hat.current_eq.symm.trans h.current_eq⟩
  have hvisible : ((regrown mem' l).filter (·.key.sequence ≤ s)).Perm
      (l.filter (·.key.sequence ≤ s)) := by
    have hl : Sorted D rank l := h.mem_sorted.sublist h.ahead.sublist
    refine (List.perm_ext_iff_of_nodup (hregrown.nodup.filter _) (hl.nodup.filter _)).mpr ?_
    intro x
    rw [List.mem_filter, List.mem_filter, decide_eq_true_eq]
    refine and_congr_left fun hx => ⟨fun hxr => ?_, fun hxl => ?_⟩
    · rcases List.mem_append.mp (hperm.mem_iff.mp (hsuffix.subset hxr)) with hxe | hxm
      · exact absurd hx (not_le.mpr (hnew x hxe))
      · exact (hmem x hxm).mp hxr
    · exact (hmem x (h.ahead.subset hxl)).mpr hxl
  have hfilter : (out'.filter (·.key.sequence ≤ s)).Perm (out.filter (·.key.sequence ≤ s)) := by
    refine (hmerged.perm.filter _).trans (List.Perm.trans ?_ (h.merged.perm.filter _).symm)
    rw [List.flatten_cons, List.flatten_cons, List.filter_append, List.filter_append]
    exact hvisible.append_right _
  refine hfilter.eq_of_pairwise ?_ (hmerged.sorted.filter _) (h.merged.sorted.filter _)
  intro a b _ _ hab hba
  exact absurd hba (EntryBefore.asymm _ _ hab)

end Growth

end MergingIterator

section Children

variable (io : FileAccess)

/-- The entries ahead of the iterators of `AddIterators`. -/
def Version.readableLists (v : Version) : List (List Entry) :=
  (v.files 0).map (·.readableEntries io) ++
    (deepLevels.filter fun level => !(v.files level).isEmpty).map (v.readableLevel io)

def DB.readableLists (db : DB) : List (List Entry) :=
  db.imm.toList.map (·.entries) ++ db.version.readableLists io

theorem Version.addIterators_stands (v : Version) :
    List.Forall₂ InternalIterator.Stands ((v.addIterators io).map Cursor.seekToFirst)
      (v.readableLists io) := by
  rw [addIterators, List.map_append, List.map_map, List.map_map]
  refine List.rel_append ?_ ?_
  · rw [List.forall₂_map_left_iff, List.forall₂_map_right_iff, List.forall₂_same]
    exact fun f _ => InternalIterator.table_stands io f
  · rw [List.forall₂_map_left_iff, List.forall₂_map_right_iff, List.forall₂_same]
    exact fun level _ => InternalIterator.level_stands io v level

theorem Version.readableLists_flatten (v : Version) :
    (v.readableLists io).flatten = v.readableEntries io := by
  have hdeep : ∀ levels : List ℕ,
      ((levels.filter fun level => !(v.files level).isEmpty).map (v.readableLevel io)).flatten =
        levels.flatMap (v.readableLevel io) := by
    intro levels
    induction levels with
    | nil => rfl
    | cons level levels ih =>
      rw [List.flatMap_cons, List.filter_cons, ← ih]
      split_ifs with hfiles
      · rfl
      · have hnone : v.files level = [] := by simpa using hfiles
        rw [readableLevel, hnone, List.flatMap_nil, List.nil_append]
  rw [readableLists, List.flatten_append, hdeep]
  rfl

theorem DB.immEntries_eq (db : DB) : (db.imm.toList.map (·.entries)).flatten = db.immEntries := by
  unfold immEntries
  cases db.imm with
  | none => rfl
  | some imm => exact List.append_nil _

theorem DB.readableLists_flatten (db : DB) :
    (db.readableLists io).flatten = db.immEntries ++ db.version.readableEntries io := by
  rw [readableLists, List.flatten_append, immEntries_eq, Version.readableLists_flatten]

theorem Version.readableLists_sorted {v : Version} (h : v.WellFormed D rank) :
    ∀ l ∈ v.readableLists io, Sorted D rank l := by
  intro l hl
  rcases List.mem_append.mp hl with hl | hl
  · obtain ⟨f, hf, rfl⟩ := List.mem_map.mp hl
    exact (h.file 0 f hf).table.sorted.sublist (f.readableEntries_sublist io)
  · obtain ⟨level, hlevel, rfl⟩ := List.mem_map.mp hl
    have hpos : 0 < level := (List.mem_range'_1.mp (List.mem_of_mem_filter hlevel)).1
    exact (h.level_sorted level hpos).sublist (v.readableLevel_sublist io level)

theorem Version.readableLists_comparable {v : Version} (h : v.WellFormed D rank) :
    (v.readableLists io).Pairwise fun l l' => ∀ a ∈ l, ∀ b ∈ l', Comparable rank a b := by
  have hlevels : ∀ i j, i < j → ∀ a ∈ v.levelEntries i, ∀ b ∈ v.levelEntries j,
      Comparable rank a b := fun i j hij a ha b hb =>
    comparable_of_above (h.newer_level i j hij) ha hb
  refine List.pairwise_append.mpr ⟨?_, ?_, ?_⟩
  · refine List.pairwise_map.mpr (h.number.imp_of_mem ?_)
    intro f g hf hg hne a ha b hb
    have ha' := (f.readableEntries_sublist io).subset ha
    have hb' := (g.readableEntries_sublist io).subset hb
    rcases Nat.lt_or_gt_of_ne hne with hlt | hlt
    · exact (comparable_of_above (h.newer_file g hg f hf hlt) hb' ha').symm
    · exact comparable_of_above (h.newer_file f hf g hg hlt) ha' hb'
  · refine List.pairwise_map.mpr ((List.pairwise_lt_range' 1).sublist List.filter_sublist |>.imp ?_)
    intro i j hij a ha b hb
    exact hlevels i j hij a ((v.readableLevel_sublist io i).subset ha) b
      ((v.readableLevel_sublist io j).subset hb)
  · intro l hl l' hl' a ha b hb
    obtain ⟨f, hf, rfl⟩ := List.mem_map.mp hl
    obtain ⟨level, hlevel, rfl⟩ := List.mem_map.mp hl'
    have hpos : 0 < level := (List.mem_range'_1.mp (List.mem_of_mem_filter hlevel)).1
    exact hlevels 0 level hpos a
      (mem_levelEntries.mpr ⟨f, hf, (f.readableEntries_sublist io).subset ha⟩) b
      ((v.readableLevel_sublist io level).subset hb)

theorem DB.readableLists_subset (db : DB) :
    ∀ e ∈ (db.readableLists io).flatten, e ∈ db.immEntries ++ db.version.entries := by
  rw [readableLists_flatten]
  exact ((List.Sublist.refl _).append (db.version.readableEntries_sublist io)).subset

section Lists

variable {db : DB} (h : db.Layered D rank)

include h

theorem DB.immLists_sorted : ∀ l ∈ db.imm.toList.map (·.entries), Sorted D rank l := by
  intro l hl
  obtain ⟨imm, himm, rfl⟩ := List.mem_map.mp hl
  have hsorted := h.imm
  rwa [immEntries, Option.mem_toList.mp himm] at hsorted

theorem DB.readableLists_sorted :
    ∀ l ∈ db.mem.entries :: db.readableLists io, Sorted D rank l := by
  intro l hl
  rcases List.mem_cons.mp hl with rfl | hl
  · exact h.mem
  rcases List.mem_append.mp hl with hl | hl
  · exact DB.immLists_sorted h l hl
  · exact Version.readableLists_sorted io h.version l hl

theorem DB.readableLists_comparable : (db.mem.entries :: db.readableLists io).Pairwise
    fun l l' => ∀ a ∈ l, ∀ b ∈ l', Comparable rank a b := by
  refine List.pairwise_cons.mpr ⟨?_, List.pairwise_append.mpr ⟨?_, ?_, ?_⟩⟩
  · intro l hl a ha b hb
    have hmem := db.readableLists_subset io b (List.mem_flatten.mpr ⟨l, hl, hb⟩)
    exact comparable_of_above h.mem_above ha hmem
  · cases db.imm with
    | none => exact List.Pairwise.nil
    | some imm => exact List.pairwise_singleton _ _
  · exact Version.readableLists_comparable io h.version
  · intro l hl l' hl' a ha b hb
    have ha' : a ∈ db.immEntries := db.immEntries_eq ▸ List.mem_flatten.mpr ⟨l, hl, ha⟩
    have hb' : b ∈ db.version.readableEntries io :=
      db.version.readableLists_flatten io ▸ List.mem_flatten.mpr ⟨l', hl', hb⟩
    exact comparable_of_above h.imm_above ha' ((db.version.readableEntries_sublist io).subset hb')

theorem DB.newInternalIterator_stands :
    ∃ rest, (db.newInternalIterator io).children.map Cursor.seekToFirst =
        .memTable ⟨db.mem, db.mem.entries.head?⟩ :: rest ∧
      List.Forall₂ InternalIterator.Stands rest (db.readableLists io) := by
  have hchildren : (db.newInternalIterator io).children = .memTable ⟨db.mem, none⟩ ::
      (db.imm.toList.map (fun imm => .memTable ⟨imm, none⟩) ++ db.version.addIterators io) := rfl
  rw [hchildren, List.map_cons, List.map_append]
  refine ⟨_, rfl, List.rel_append ?_ (db.version.addIterators_stands io)⟩
  rw [List.map_map, List.forall₂_map_left_iff, List.forall₂_map_right_iff, List.forall₂_same]
  intro imm himm
  have hsorted := DB.immLists_sorted h _ (List.mem_map_of_mem himm)
  exact InternalIterator.memTable_stands hsorted.nodup (List.suffix_refl imm.entries)

theorem DB.newInternalIterator_spec (ho : c.OrdersOn D rank) :
    ∃ it out, (db.newInternalIterator io).seekToFirst c = .ok it ∧
      it.children = (db.newInternalIterator io).children.map Cursor.seekToFirst ∧
      it.At c D rank db.mem (db.immEntries ++ db.version.entries) db.mem.entries
        (db.readableLists io) out ∧
      out.Perm (db.readableEntries io) := by
  have hsorted := DB.readableLists_sorted io h
  have hcomparable := DB.readableLists_comparable io h
  obtain ⟨out, hmerged⟩ := (mergeable_of_sorted hsorted hcomparable ho).merged EntryBefore.trans
  obtain ⟨rest, hchildren, hrest⟩ := DB.newInternalIterator_stands io h
  have hstands : List.Forall₂ InternalIterator.Stands
      ((db.newInternalIterator io).children.map Cursor.seekToFirst)
      (db.mem.entries :: db.readableLists io) := by
    rw [hchildren]
    exact .cons (InternalIterator.memTable_stands h.mem.nodup (List.suffix_refl _)) hrest
  obtain ⟨best, hbest, hfind⟩ := MergingIterator.findSmallest_eq hstands hmerged
  refine ⟨_, out, hfind, rfl, ⟨⟨rest, hchildren, hrest⟩, h.mem, List.suffix_refl _, h.mem_above,
    db.readableLists_subset io, hmerged, ?_, hbest⟩, ?_⟩
  · exact sorted_of_merge hsorted hcomparable hmerged.perm hmerged.sorted
  · have hperm := hmerged.perm
    rwa [List.flatten_cons, DB.readableLists_flatten] at hperm

end Lists

end Children

namespace DBIter

variable {mem : MemTable} {old l out rem : List Entry} {lists : List (List Entry)} {it : DBIter} {s : ℕ}
  {skip : Option Bytes} {e : Entry}

def visible (s : ℕ) (out : List Entry) : List Entry := out.filter (·.key.sequence ≤ s)

theorem visible_cons_of_le (h : e.key.sequence ≤ s) :
    visible s (e :: out) = e :: visible s out :=
  List.filter_cons_of_pos (decide_eq_true h)

theorem visible_cons_of_not_le (h : ¬ e.key.sequence ≤ s) :
    visible s (e :: out) = visible s out :=
  List.filter_cons_of_neg (by simpa using h)

theorem examine_spec (ho : c.OrdersOn D rank) (he : e.Valid D) (hskip : ∀ k ∈ skip, D k)
    (s : ℕ) (out : List Entry) :
    (∃ skip', examine c s skip e.key = .ok (.pass skip') ∧ (∀ k ∈ skip', D k) ∧
      (schema rank).liveFrom (skip.map rank) (visible s (e :: out)) =
        (schema rank).liveFrom (skip'.map rank) (visible s out)) ∨
    examine c s skip e.key = .ok .accept ∧ e.key.sequence ≤ s ∧
      (schema rank).liveFrom (skip.map rank) (visible s (e :: out)) =
        e :: (schema rank).liveFrom (some (rank e.key.userKey)) (visible s out) := by
  rw [examine, parseInternalKey, if_pos he.type_le]
  dsimp only
  by_cases hseq : e.key.sequence ≤ s
  · rw [if_pos hseq, visible_cons_of_le hseq, Schema.liveFrom, schema_key]
    rcases Entry.type_cases he.type_le with ht | ht
    · rw [if_neg (by rw [ht]; decide), schema_val_of_value rank ht, if_neg (by simp)]
      cases skip with
      | none =>
        rw [if_neg (by simp)]
        exact Or.inr ⟨rfl, hseq, rfl⟩
      | some hidden =>
        dsimp only
        rw [ho.compare_eq _ _ he.key_mem (hskip hidden rfl), Stops.ok_bind]
        by_cases hle : rank e.key.userKey ≤ rank hidden
        · rw [if_pos (by rw [Ne, cmp_eq_gt_iff]; exact not_lt.mpr hle),
            if_pos ⟨rank hidden, rfl, hle⟩]
          exact Or.inl ⟨some hidden, rfl, hskip, rfl⟩
        · rw [if_neg (by rw [Ne, cmp_eq_gt_iff, not_not]; exact not_le.mp hle),
            if_neg (by simpa using hle)]
          exact Or.inr ⟨rfl, hseq, rfl⟩
    · -- a deletion hides the older entries of its key
      rw [if_pos ht, schema_val_of_deletion rank ht, if_pos Option.isNone_none]
      refine Or.inl ⟨some e.key.userKey, rfl, ?_, rfl⟩
      rintro _ ⟨⟩
      exact he.key_mem
  · rw [if_neg hseq, visible_cons_of_not_le hseq]
    exact Or.inl ⟨skip, rfl, hskip, rfl⟩

/-- Where the iterator stops from now on. -/
inductive Remaining (c : Comparator) (D : Bytes → Prop) (rank : Bytes → κ) (mem : MemTable)
    (old : List Entry) (it : DBIter) : List Entry → Prop where
  | done : it.valid = false → Remaining c D rank mem old it []
  | more {e : Entry} {l out : List Entry} {lists : List (List Entry)} : it.valid = true →
      it.iter.At c D rank mem old l lists (e :: out) → e.key.sequence ≤ it.sequence →
      Remaining c D rank mem old it
        (e :: (schema rank).liveFrom (some (rank e.key.userKey)) (visible it.sequence out))

theorem findNextUserEntry_spec (ho : c.OrdersOn D rank) {iter : MergingIterator} {n : ℕ}
    (h : iter.At c D rank mem old l lists out) (hlen : out.length ≤ n) (hskip : ∀ k ∈ skip, D k)
    (it : DBIter) :
    ∃ it', (if iter.current.isSome then findNextUserEntry c n skip { it with iter }
        else return { it with iter, valid := false }) = .ok it' ∧
      it'.sequence = it.sequence ∧
      Remaining c D rank mem old it'
        ((schema rank).liveFrom (skip.map rank) (visible it.sequence out)) := by
  induction out generalizing it iter l lists n skip with
  | nil =>
    rw [Option.map_eq_none_iff.mp h.current_eq, if_neg (by simp)]
    exact ⟨_, rfl, rfl, .done rfl⟩
  | cons e out ih =>
    obtain ⟨⟨i, e'⟩, hcurrent, rfl⟩ := Option.map_eq_some_iff.mp h.current_eq
    have he := h.sorted.valid e' List.mem_cons_self
    cases n with
    | zero => exact absurd hlen (by simp)
    | succ n =>
      rw [hcurrent, if_pos Option.isSome_some, findNextUserEntry, hcurrent]
      dsimp only
      rcases examine_spec ho he hskip it.sequence out with
        ⟨skip', hexamine, hskip', hlive⟩ | ⟨hexamine, hseq, hlive⟩
      · obtain ⟨iter', l', lists', hnext, hat⟩ := h.next
        rw [hexamine, Stops.ok_bind, hlive]
        dsimp only
        rw [hnext, Stops.ok_bind]
        exact ih hat (by simpa using hlen) hskip' { it with iter }
      · rw [hexamine, Stops.ok_bind, hlive]
        exact ⟨_, rfl, rfl, .more rfl h hseq⟩

theorem next_spec (ho : c.OrdersOn D rank) (h : it.Remaining c D rank mem old (e :: rem)) :
    ∃ it', it.next c = .ok it' ∧ it'.sequence = it.sequence ∧
      it'.Remaining c D rank mem old rem := by
  cases h with
  | more hvalid hat hseq =>
    obtain ⟨⟨i, e'⟩, hcurrent, rfl⟩ := Option.map_eq_some_iff.mp hat.current_eq
    obtain ⟨iter, l, lists, hnext, hat'⟩ := hat.next
    have hbound := hat.length_le
    have he := hat.sorted.valid e' List.mem_cons_self
    have hassert : assertThat it.valid = .ok () := by rw [hvalid, assertThat_true]
    rw [DBIter.next, hassert, Stops.ok_bind, hcurrent]
    dsimp only
    rw [hnext, Stops.ok_bind]
    refine findNextUserEntry_spec ho hat' ?_ ?_ it
    · rw [List.length_cons] at hbound
      rw [bound]
      omega
    · rintro _ ⟨⟩
      exact he.key_mem

/-- The Swift iterator returns the next live entry, or `nil` behind the last one. -/
theorem iteratorNext_spec (ho : c.OrdersOn D rank) (h : it.Remaining c D rank mem old rem) :
    ∃ it', LevelDB.Iterator.next c it =
        .ok (rem.head?.map fun e => (e.key.userKey, e.value), it') ∧
      it'.sequence = it.sequence ∧ it'.Remaining c D rank mem old rem.tail := by
  cases rem with
  | nil =>
    cases h with
    | done hvalid =>
      refine ⟨it, ?_, rfl, .done hvalid⟩
      rw [LevelDB.Iterator.next, hvalid]
      rfl
  | cons e rem =>
    obtain ⟨it', hnext, hseq, hrem⟩ := next_spec ho h
    refine ⟨it', ?_, hseq, hrem⟩
    cases h with
    | more hvalid hat hseq =>
      obtain ⟨⟨i, e'⟩, hcurrent, rfl⟩ := Option.map_eq_some_iff.mp hat.current_eq
      rw [LevelDB.Iterator.next, hvalid, if_pos rfl, hcurrent]
      dsimp only
      rw [hnext]
      rfl

theorem seekToFirst_spec (ho : c.OrdersOn D rank) (io : FileAccess) (snapshot : Option ℕ) {db : DB}
    (h : db.Layered D rank) :
    ∃ it out, LevelDB.Iterator.init c io snapshot db = .ok it ∧
      it.sequence = snapshot.getD db.lastSequence ∧ Sorted D rank out ∧
      out.Perm (db.readableEntries io) ∧
      it.Remaining c D rank db.mem (db.immEntries ++ db.version.entries)
        ((schema rank).live (snapshot.getD db.lastSequence) out) := by
  obtain ⟨iter, out, hseek, hchildren, hat, hperm⟩ := DB.newInternalIterator_spec io h ho
  have hbound : out.length ≤ (db.newIterator io snapshot).bound := by
    have hlen := hat.length_le
    have hcount : InternalIterator.entryCount ∘ Cursor.seekToFirst = InternalIterator.entryCount :=
      funext InternalIterator.entryCount_seekToFirst
    rw [hchildren, List.map_map, hcount] at hlen
    exact hlen.trans (Nat.le_succ _)
  have hskip : ∀ k ∈ (none : Option Bytes), D k := by simp
  obtain ⟨it, hit, hsequence, hrem⟩ :=
    findNextUserEntry_spec ho hat hbound hskip (db.newIterator io snapshot)
  refine ⟨it, out, ?_, hsequence, hat.sorted, hperm, hrem⟩
  rw [LevelDB.Iterator.init, seekToFirst, show (db.newIterator io snapshot).iter.seekToFirst c =
    .ok iter from hseek, Stops.ok_bind]
  exact hit

@[simp] theorem follow_valid (logNumber : ℕ) (db : DB) :
    (it.follow logNumber db).valid = it.valid := by
  unfold follow
  split
  · split_ifs <;> rfl
  · rfl

@[simp] theorem follow_sequence (logNumber : ℕ) (db : DB) :
    (it.follow logNumber db).sequence = it.sequence := by
  unfold follow
  split
  · split_ifs <;> rfl
  · rfl

theorem follow_of_ne {logNumber : ℕ} {db : DB} (h : db.log.number ≠ logNumber) :
    it.follow logNumber db = it := by
  unfold follow
  split
  · rw [if_neg h]
  · rfl

theorem follow_spec (ho : c.OrdersOn D rank) (h : it.Remaining c D rank mem old rem) {db : DB}
    {es : List Entry} {last : ℕ} (hs : Sorted D rank db.mem.entries)
    (hperm : db.mem.entries.Perm (es ++ mem.entries)) (hnew : ∀ e ∈ es, last < e.key.sequence)
    (hsequence : it.sequence ≤ last) (hold : ∀ e ∈ old, e.key.sequence ≤ last) :
    (it.follow db.log.number db).Remaining c D rank db.mem old rem := by
  cases h with
  | done hvalid => exact .done (by rw [follow_valid, hvalid])
  | @more e l out lists hvalid hat hseq =>
    have habove : (schema rank).Above db.mem.entries old := by
      intro a ha b hb hk
      rcases List.mem_append.mp (hperm.mem_iff.mp ha) with ha | ha
      · exact (hold b hb).trans_lt (hnew a ha)
      · exact hat.above a ha b hb hk
    obtain ⟨out', hat', hvisible, hhead⟩ := hat.grow ho hs hperm habove fun e he =>
      hsequence.trans_lt (hnew e he)
    obtain ⟨rest, hchildren, -⟩ := hat.children
    have hfollow : it.follow db.log.number db = { it with iter := { it.iter with
        children := .memTable ⟨db.mem, l.head?⟩ :: it.iter.children.tail } } := by
      rw [follow, hchildren]
      dsimp only
      rw [if_pos rfl]
      rfl
    cases out' with
    | nil => cases hhead
    | cons e' out' =>
      obtain rfl := Option.some_inj.mp hhead
      have hsame : visible it.sequence out' = visible it.sequence out := by
        have hcons : visible it.sequence (e' :: out') = visible it.sequence (e' :: out) := hvisible
        rw [visible_cons_of_le hseq, visible_cons_of_le hseq] at hcons
        exact (List.cons_eq_cons.mp hcons).2
      rw [hfollow, ← hsame]
      exact .more hvalid hat' hseq

end DBIter

end DVELevelDB
