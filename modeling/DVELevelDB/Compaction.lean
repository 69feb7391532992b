import DVELevelDB.VersionSet
import DVELevelDB.Lib.Discard

/-! # The key loop of a compaction -/

namespace DVELevelDB

open VersionStore

structure Compaction where
  level : ℕ
  inputVersion : Version

namespace Compaction

def deeperLevels (compaction : Compaction) : List ℕ :=
  List.range' (compaction.level + 2) (kNumLevels - (compaction.level + 2))

def deeperFiles (compaction : Compaction) : List (List FileMetaData) :=
  compaction.deeperLevels.map compaction.inputVersion.files

end Compaction

def entriesOf (levels : List (List FileMetaData)) : List Entry :=
  levels.flatMap fun files => files.flatMap (·.entries)

/-- `current_user_key`, `last_sequence_for_key` and, for each deeper level, the files from
`level_ptrs_` on. -/
structure CompactionState where
  currentUserKey : Option Bytes
  lastSequenceForKey : ℕ
  levelPtrs : List (List FileMetaData)

def Compaction.start (compaction : Compaction) : CompactionState :=
  ⟨none, kMaxSequenceNumber, compaction.deeperFiles⟩

section Loop

variable (c : Comparator)

/-- Moves past the files before the key; whether the next one has it in its range. -/
def advanceLevel (userKey : Bytes) : List FileMetaData → Exec (Bool × List FileMetaData)
  | [] => return (false, [])
  | f :: files => do
    if (← c.compare userKey f.largest.userKey) ≠ .gt then
      return ((← c.compare userKey f.smallest.userKey) != .lt, f :: files)
    else
      advanceLevel userKey files

def isBaseLevelForKey (userKey : Bytes) :
    List (List FileMetaData) → Exec (Bool × List (List FileMetaData))
  | [] => return (true, [])
  | files :: levels => do
    let (inRange, files') ← advanceLevel c userKey files
    if inRange then
      return (false, files' :: levels)
    else
      let (base, levels') ← isBaseLevelForKey userKey levels
      return (base, files' :: levels')

def firstOccurrence (userKey : Bytes) : Option Bytes → Exec Bool
  | none => return true
  | some key => return (← c.compare userKey key) != .eq

/-- The first occurrence of a user key starts without a sequence number. -/
def enterKey (userKey : Bytes) (st : CompactionState) : Exec CompactionState := do
  if ← firstOccurrence c userKey st.currentUserKey then
    return { st with currentUserKey := some userKey, lastSequenceForKey := kMaxSequenceNumber }
  else
    return st

def dropEntry (smallestSnapshot : ℕ) (ikey : ParsedInternalKey) (st : CompactionState) :
    Exec (Bool × CompactionState) :=
  if st.lastSequenceForKey ≤ smallestSnapshot then
    return (true, st)
  else if ikey.type = kTypeDeletion ∧ ikey.sequence ≤ smallestSnapshot then do
    let (base, ptrs) ← isBaseLevelForKey c ikey.userKey st.levelPtrs
    return (base, { st with levelPtrs := ptrs })
  else
    return (false, st)

def compactEntry (smallestSnapshot : ℕ) (key : InternalKey) (st : CompactionState) :
    Exec (Bool × CompactionState) :=
  match parseInternalKey key with
  | none =>
    return (false, { st with currentUserKey := none, lastSequenceForKey := kMaxSequenceNumber })
  | some ikey => do
    let st ← enterKey c ikey.userKey st
    let (drop, st) ← dropEntry c smallestSnapshot ikey st
    return (drop, { st with lastSequenceForKey := ikey.sequence })

/-- The entries that `DoCompactionWork` adds to its outputs. -/
def doCompactionWork (smallestSnapshot : ℕ) : List Entry → CompactionState → Exec (List Entry)
  | [], _ => return []
  | e :: input, st => do
    let (drop, st) ← compactEntry c smallestSnapshot e.key st
    let kept ← doCompactionWork smallestSnapshot input st
    return if drop then kept else e :: kept

end Loop

section Correctness

variable {κ : Type*} [LinearOrder κ] {c : Comparator} {D : Bytes → Prop} {rank : Bytes → κ}

/-- The files passed so far end before `k`. -/
def Behind (rank : Bytes → κ) (k : κ) (files rest : List FileMetaData) : Prop :=
  ∃ passed, files = passed ++ rest ∧ ∀ f ∈ passed, rank f.largest.userKey < k

theorem Behind.mono {k k' : κ} {files rest : List FileMetaData} (h : Behind rank k files rest)
    (hk : k ≤ k') : Behind rank k' files rest := by
  obtain ⟨passed, hsplit, hlt⟩ := h
  exact ⟨passed, hsplit, fun f hf => (hlt f hf).trans_le hk⟩

/-- A level whose files have their keys in ascending ranges. -/
structure Ascending (D : Bytes → Prop) (rank : Bytes → κ) (files : List FileMetaData) : Prop where
  keys : ∀ f ∈ files, D f.smallest.userKey ∧ D f.largest.userKey
  ranges : files.Pairwise fun f g => rank f.smallest.userKey ≤ rank g.smallest.userKey

theorem Version.WellFormed.ascending {v : Version} (h : v.WellFormed D rank) {level : ℕ}
    (hl : 0 < level) : Ascending D rank (v.files level) := by
  constructor
  · intro f hf
    exact ⟨(h.file level f hf).smallest_mem, (h.file level f hf).largest_mem⟩
  · refine (h.files_before hl).imp_of_mem ?_
    intro f g hf hg hfg
    obtain ⟨e, he, hkey⟩ := (h.file level f hf).smallest
    obtain ⟨e', he', hkey'⟩ := (h.file level g hg).smallest
    rw [← hkey, ← hkey']
    rcases hfg e he e' he' with hlt | ⟨heq, -⟩
    · exact hlt.le
    · exact heq.le

def InRange (rank : Bytes → κ) (k : κ) (f : FileMetaData) : Prop :=
  rank f.smallest.userKey ≤ k ∧ k ≤ rank f.largest.userKey

theorem advanceLevel_spec (ho : c.OrdersOn D rank) {files rest : List FileMetaData}
    (ha : Ascending D rank files) {u : Bytes} (hu : D u) (hb : Behind rank (rank u) files rest) :
    ∃ inRange rest', advanceLevel c u rest = .ok (inRange, rest') ∧
      Behind rank (rank u) files rest' ∧
      (inRange = false → ∀ f ∈ files, ¬ InRange rank (rank u) f) := by
  induction rest with
  | nil =>
    refine ⟨false, [], rfl, hb, ?_⟩
    intro _ f hf hin
    obtain ⟨passed, hsplit, hlt⟩ := hb
    rw [hsplit, List.append_nil] at hf
    exact absurd hin.2 (not_le.mpr (hlt f hf))
  | cons g rest ih =>
    have hb' := hb
    obtain ⟨passed, hsplit, hlt⟩ := hb
    have hg : g ∈ files := by simp [hsplit]
    obtain ⟨hgs, hgl⟩ := ha.keys g hg
    rw [advanceLevel, ho.compare_eq _ _ hu hgl, Stops.ok_bind]
    by_cases hle : rank u ≤ rank g.largest.userKey
    · rw [if_pos (by rwa [ne_eq, cmp_eq_gt_iff, not_lt]), ho.compare_eq _ _ hu hgs, Stops.ok_bind]
      refine ⟨_, g :: rest, rfl, hb', ?_⟩
      intro hout f hf hin
      have hbelow : rank u < rank g.smallest.userKey := by
        rw [bne_eq_false_iff_eq, cmp_eq_lt_iff] at hout
        exact hout
      rw [hsplit] at hf
      rcases List.mem_append.mp hf with hf | hf
      · exact absurd hin.2 (not_le.mpr (hlt f hf))
      · have hge : rank g.smallest.userKey ≤ rank f.smallest.userKey := by
          rcases List.mem_cons.mp hf with rfl | hf
          · exact le_rfl
          · have hrest := ha.ranges
            rw [hsplit, List.pairwise_append, List.pairwise_cons] at hrest
            exact hrest.2.1.1 f hf
        exact absurd hin.1 (not_le.mpr (hbelow.trans_le hge))
    · have hgt := not_le.mp hle
      rw [if_neg (by rwa [ne_eq, not_not, cmp_eq_gt_iff])]
      apply ih
      refine ⟨passed ++ [g], by simp [hsplit], ?_⟩
      intro f hf
      rcases List.mem_append.mp hf with hf | hf
      · exact hlt f hf
      · obtain rfl := List.mem_singleton.mp hf
        exact hgt

theorem isBaseLevelForKey_spec (ho : c.OrdersOn D rank) {levels ptrs : List (List FileMetaData)}
    {u : Bytes} (hu : D u) (hb : List.Forall₂ (Behind rank (rank u)) levels ptrs)
    (ha : ∀ files ∈ levels, Ascending D rank files) :
    ∃ base ptrs', isBaseLevelForKey c u ptrs = .ok (base, ptrs') ∧
      List.Forall₂ (Behind rank (rank u)) levels ptrs' ∧
      (base = true → ∀ files ∈ levels, ∀ f ∈ files, ¬ InRange rank (rank u) f) := by
  induction hb with
  | nil => exact ⟨true, [], rfl, List.Forall₂.nil, by simp⟩
  | @cons files rest levels ptrs hf hrest ih =>
    obtain ⟨inRange, rest', heq, hb', hout⟩ :=
      advanceLevel_spec ho (ha files List.mem_cons_self) hu hf
    rw [isBaseLevelForKey, heq, Stops.ok_bind]
    cases inRange with
    | true => exact ⟨false, rest' :: ptrs, rfl, List.Forall₂.cons hb' hrest, by simp⟩
    | false =>
      obtain ⟨base, ptrs', heq', hb'', hout'⟩ :=
        ih fun files hmem => ha files (List.mem_cons_of_mem _ hmem)
      simp only [Bool.false_eq_true, if_false]
      rw [heq', Stops.ok_bind]
      refine ⟨base, rest' :: ptrs', rfl, List.Forall₂.cons hb' hb'', ?_⟩
      intro hbase files' hmem
      rcases List.mem_cons.mp hmem with rfl | hmem
      · exact hout rfl
      · exact hout' hbase files' hmem

/-- The loop's variables after the entries in `P`. -/
structure Follows (D : Bytes → Prop) (rank : Bytes → κ) (levels : List (List FileMetaData))
    (P : List Entry) (st : CompactionState) : Prop where
  fresh : P = [] → st.currentUserKey = none
  last : ∀ p ∈ P.getLast?, st.lastSequenceForKey = p.key.sequence ∧
    ∃ u ∈ st.currentUserKey, D u ∧ rank u = rank p.key.userKey
  ptrs : ∀ k, (∀ p ∈ P.getLast?, rank p.key.userKey ≤ k) →
    List.Forall₂ (Behind rank k) levels st.levelPtrs

theorem Compaction.start_follows (compaction : Compaction) :
    Follows D rank compaction.deeperFiles [] compaction.start := by
  constructor
  · intro _
    rfl
  · simp
  · intro k _
    apply List.forall₂_same.mpr
    intro files _
    exact ⟨[], rfl, by simp⟩

theorem enterKey_spec (ho : c.OrdersOn D rank) {levels : List (List FileMetaData)}
    {P : List Entry} {st : CompactionState} (hf : Follows D rank levels P st) {u : Bytes}
    (hu : D u) :
    ∃ st', enterKey c u st = .ok st' ∧ st'.levelPtrs = st.levelPtrs ∧
      (∃ v ∈ st'.currentUserKey, D v ∧ rank v = rank u) ∧
      ((∃ p ∈ P.getLast?, rank p.key.userKey = rank u ∧
          st'.lastSequenceForKey = p.key.sequence) ∨
        (∀ p ∈ P.getLast?, rank p.key.userKey ≠ rank u) ∧
          st'.lastSequenceForKey = kMaxSequenceNumber) := by
  rcases hlast : P.getLast? with _ | p
  · have hnone : st.currentUserKey = none := hf.fresh (List.getLast?_eq_none_iff.mp hlast)
    refine ⟨{ st with currentUserKey := some u, lastSequenceForKey := kMaxSequenceNumber },
      ?_, rfl, ⟨u, rfl, hu, rfl⟩, Or.inr ⟨by simp, rfl⟩⟩
    simp [enterKey, firstOccurrence, hnone, pure, Except.pure, bind, Except.bind]
  · obtain ⟨hseq, v, hv, hDv, hrv⟩ := hf.last p hlast
    have hcur : st.currentUserKey = some v := hv
    by_cases heq : rank u = rank v
    · refine ⟨st, ?_, rfl, ⟨v, hv, hDv, heq.symm⟩, Or.inl ⟨p, rfl, ?_, hseq⟩⟩
      · rw [enterKey, hcur, firstOccurrence, ho.compare_eq _ _ hu hDv,
          (cmp_eq_eq_iff _ _).mpr heq]
        rfl
      · rw [heq, hrv]
    · refine ⟨{ st with currentUserKey := some u, lastSequenceForKey := kMaxSequenceNumber },
        ?_, rfl, ⟨u, rfl, hu, rfl⟩, Or.inr ⟨?_, rfl⟩⟩
      · rw [enterKey, hcur, firstOccurrence, ho.compare_eq _ _ hu hDv, Stops.ok_bind,
          bne_iff_ne.mpr (mt (cmp_eq_eq_iff _ _).mp heq)]
        rfl
      · rintro _ ⟨⟩ hrank
        exact heq (hrank.symm.trans hrv.symm)

variable {levels : List (List FileMetaData)} {m : ℕ}

/-- Files whose bounds hold their entries. -/
structure Bounded (D : Bytes → Prop) (rank : Bytes → κ) (levels : List (List FileMetaData)) :
    Prop where
  ascending : ∀ files ∈ levels, Ascending D rank files
  inRange : ∀ files ∈ levels, ∀ f ∈ files, ∀ e ∈ f.entries, InRange rank (rank e.key.userKey) f

theorem dropEntry_spec (ho : c.OrdersOn D rank) (hb : Bounded D rank levels) {u : Bytes} {q t : ℕ}
    (hu : D u) {st : CompactionState}
    (hptrs : List.Forall₂ (Behind rank (rank u)) levels st.levelPtrs) :
    ∃ drop st', dropEntry c m ⟨u, q, t⟩ st = .ok (drop, st') ∧
      st'.currentUserKey = st.currentUserKey ∧
      List.Forall₂ (Behind rank (rank u)) levels st'.levelPtrs ∧
      (drop = false → ¬ st.lastSequenceForKey ≤ m) ∧
      (drop = true → st.lastSequenceForKey ≤ m ∨
        t = kTypeDeletion ∧ q ≤ m ∧ ∀ e ∈ entriesOf levels, rank e.key.userKey ≠ rank u) := by
  unfold dropEntry
  by_cases hlast : st.lastSequenceForKey ≤ m
  · rw [if_pos hlast]
    exact ⟨true, st, rfl, rfl, hptrs, by simp, fun _ => Or.inl hlast⟩
  rw [if_neg hlast]
  by_cases hdel : t = kTypeDeletion ∧ q ≤ m
  · rw [if_pos hdel]
    obtain ⟨base, ptrs', heq, hptrs', hbase⟩ :=
      isBaseLevelForKey_spec ho hu hptrs hb.ascending
    simp only [heq, Stops.ok_bind]
    refine ⟨base, { st with levelPtrs := ptrs' }, rfl, rfl, hptrs', fun _ => hlast, ?_⟩
    intro hdrop
    refine Or.inr ⟨hdel.1, hdel.2, ?_⟩
    intro e he hrank
    obtain ⟨files, hfiles, he⟩ := List.mem_flatMap.mp he
    obtain ⟨f, hf, he⟩ := List.mem_flatMap.mp he
    apply hbase hdrop files hfiles f hf
    rw [← hrank]
    exact hb.inRange files hfiles f hf e he
  · rw [if_neg hdel]
    exact ⟨false, st, rfl, rfl, hptrs, fun _ => hlast, by simp⟩

theorem compactEntry_spec (ho : c.OrdersOn D rank) (hb : Bounded D rank levels)
    {P R : List Entry} {e : Entry} (hs : Sorted D rank (P ++ e :: R)) (hm : m < kMaxSequenceNumber)
    {st : CompactionState} (hf : Follows D rank levels P st) :
    ∃ drop st', compactEntry c m e.key st = .ok (drop, st') ∧
      Follows D rank levels (P ++ [e]) st' ∧
      (drop = false → ¬ (schema rank).Hidden (P ++ e :: R) m e) ∧
      (drop = true → (schema rank).Hidden (P ++ e :: R) m e ∨
        (schema rank).Spent (entriesOf levels) m e) := by
  have hvalid := hs.valid e (by simp)
  have hhidden := (schema rank).hidden_iff (m := m) hs.pairwise
  have hparse : parseInternalKey e.key = some ⟨e.key.userKey, e.key.sequence, e.key.type⟩ :=
    if_pos hvalid.type_le
  obtain ⟨st₁, henter, hptrs₁, ⟨v, hv, hDv, hrv⟩, hseq⟩ := enterKey_spec ho hf hvalid.key_mem
  have hbehind : List.Forall₂ (Behind rank (rank e.key.userKey)) levels st₁.levelPtrs := by
    rw [hptrs₁]
    apply hf.ptrs
    intro p hp
    have hbefore := (List.pairwise_append.mp hs.pairwise).2.2 p (List.mem_of_getLast? hp) e
      List.mem_cons_self
    rcases hbefore with hlt | ⟨heq, -⟩
    · exact hlt.le
    · exact heq.le
  obtain ⟨drop, st₂, hdrop, hcur, hptrs₂, hkeep, hgone⟩ :=
    dropEntry_spec (m := m) (q := e.key.sequence) (t := e.key.type) ho hb hvalid.key_mem hbehind
  have hlast : st₁.lastSequenceForKey ≤ m ↔ (schema rank).Hidden (P ++ e :: R) m e := by
    rw [hhidden]
    rcases hseq with ⟨p, hp, hrank, hsame⟩ | ⟨hne, hmax⟩
    · rw [hsame]
      constructor
      · intro hle
        exact ⟨p, hp, hrank, hle⟩
      · rintro ⟨p', hp', -, hle⟩
        obtain rfl : p = p' := Option.some_inj.mp (hp.symm.trans hp')
        exact hle
    · rw [hmax]
      constructor
      · intro hle
        omega
      · rintro ⟨p, hp, hrank, -⟩
        exact absurd hrank (hne p hp)
  refine ⟨drop, { st₂ with lastSequenceForKey := e.key.sequence }, ?_, ?_, ?_, ?_⟩
  · simp only [compactEntry, hparse]
    rw [henter, Stops.ok_bind, hdrop, Stops.ok_bind]
    rfl
  · constructor
    · simp
    · intro p hp
      obtain rfl : e = p := by simpa using hp
      exact ⟨rfl, v, by rw [← hcur] at hv; exact hv, hDv, hrv⟩
    · intro k hk
      have hle := hk e (by simp)
      exact hptrs₂.imp fun _ _ h => h.mono hle
  · intro hd
    rw [← hlast]
    exact hkeep hd
  · intro hd
    rcases hgone hd with hle | ⟨ht, hq, hbase⟩
    · exact Or.inl (hlast.mp hle)
    · exact Or.inr ⟨schema_val_of_deletion rank ht, hq, hbase⟩

theorem doCompactionWork_spec (ho : c.OrdersOn D rank) (hb : Bounded D rank levels)
    {P R : List Entry} (hs : Sorted D rank (P ++ R)) (hm : m < kMaxSequenceNumber)
    {st : CompactionState} (hf : Follows D rank levels P st) :
    ∃ kept, doCompactionWork c m R st = .ok kept ∧
      (schema rank).Discards (P ++ R) (entriesOf levels) m R kept := by
  induction R generalizing P st with
  | nil => exact ⟨[], rfl, Schema.Discards.nil⟩
  | cons e R ih =>
    obtain ⟨drop, st', heq, hf', hkeep, hgone⟩ := compactEntry_spec ho hb hs hm hf
    have hs' : Sorted D rank ((P ++ [e]) ++ R) := by simpa using hs
    obtain ⟨kept, hrest, hdis⟩ := ih hs' hf'
    have hdis' : (schema rank).Discards (P ++ e :: R) (entriesOf levels) m R kept := by
      simpa using hdis
    simp only [doCompactionWork, heq, hrest, Stops.ok_bind]
    cases drop with
    | true => exact ⟨kept, rfl, Schema.Discards.drop (hgone rfl) hdis'⟩
    | false => exact ⟨e :: kept, rfl, Schema.Discards.keep (hkeep rfl) hdis'⟩

namespace Compaction

theorem deeperFiles_bounded {compaction : Compaction}
    (h : compaction.inputVersion.WellFormed D rank) : Bounded D rank compaction.deeperFiles := by
  have hmem : ∀ files ∈ compaction.deeperFiles,
      ∃ level, 0 < level ∧ compaction.inputVersion.files level = files := by
    intro files hfiles
    obtain ⟨level, hlevel, rfl⟩ := List.mem_map.mp hfiles
    have := (List.mem_range'_1.mp hlevel).1
    exact ⟨level, by omega, rfl⟩
  constructor
  · intro files hfiles
    obtain ⟨level, hl, rfl⟩ := hmem files hfiles
    exact h.ascending hl
  · intro files hfiles f hf e he
    obtain ⟨level, -, rfl⟩ := hmem files hfiles
    have hwf := h.file level f hf
    exact ⟨hwf.lower e he, hwf.rank_le_largest he⟩

/-- A compaction never traps, and keeps what the stamps from `m` on can see. -/
theorem doCompactionWork_discards {compaction : Compaction} (ho : c.OrdersOn D rank)
    (h : compaction.inputVersion.WellFormed D rank) {input : List Entry}
    (hs : Sorted D rank input) (hm : m < kMaxSequenceNumber) :
    ∃ kept, doCompactionWork c m input compaction.start = .ok kept ∧
      (schema rank).Discards input (entriesOf compaction.deeperFiles) m input kept :=
  doCompactionWork_spec (P := []) ho (deeperFiles_bounded h) hs hm compaction.start_follows

/-- The input iterator: the merged entries of files in the two levels of the compaction. -/
structure Input (D : Bytes → Prop) (rank : Bytes → κ) (compaction : Compaction)
    (input : List Entry) : Prop where
  version : compaction.inputVersion.WellFormed D rank
  sorted : Sorted D rank input
  level : ∀ e ∈ input, ∃ level ≤ compaction.level + 1,
    e ∈ compaction.inputVersion.levelEntries level

variable {compaction : Compaction} {input : List Entry}

theorem entriesOf_deeperFiles : entriesOf compaction.deeperFiles =
    compaction.deeperLevels.flatMap compaction.inputVersion.levelEntries := by
  rw [entriesOf, deeperFiles, List.flatMap_map]
  rfl

theorem Input.above (h : Input D rank compaction input) :
    (schema rank).Above input (entriesOf compaction.deeperFiles) := by
  intro a ha b hb
  rw [entriesOf_deeperFiles] at hb
  obtain ⟨i, hi, hai⟩ := h.level a ha
  obtain ⟨j, hj, hbj⟩ := List.mem_flatMap.mp hb
  have := (List.mem_range'_1.mp hj).1
  exact h.version.newer_level i j (by omega) a hai b hbj

end Compaction

end Correctness

end DVELevelDB
