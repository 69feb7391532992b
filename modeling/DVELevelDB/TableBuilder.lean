import DVELevelDB.VersionSet

/-! # Building tables -/

namespace DVELevelDB

open VersionStore

/-- A filter over a list of keys. -/
structure FilterPolicy where
  createFilter : List Bytes → Bytes
  keyMayMatch : Bytes → Bytes → Bool

/-- A filter does not rule out a key it was made for. -/
def FilterPolicy.Lawful (p : FilterPolicy) : Prop :=
  ∀ keys, ∀ key ∈ keys, p.keyMayMatch key (p.createFilter keys) = true

/-- The options the engine works with; sizes in bytes enter as the decisions they lead to. -/
structure Options where
  comparator : Comparator
  filterPolicy : Option FilterPolicy
  blockRestartInterval : ℕ
  blockFull : List Entry → Bool
  blockOffset : List (List Entry) → ℕ
  fileSize : List Entry → ℕ
  memTableFull : MemTable → Bool
  outputFull : List Entry → Bool
  maxFileSize : ℕ

namespace Options

variable (o : Options)

def targetFileSize : ℕ := o.maxFileSize

def maxGrandParentOverlapBytes : ℕ := 10 * o.targetFileSize

def expandedCompactionByteSizeLimit : ℕ := 25 * o.targetFileSize

def maxFileSizeForLevel : ℕ := o.targetFileSize

end Options

structure TableBuilder where
  dataBlock : List Entry
  indexBlock : List IndexEntry
  lastKey : Option InternalKey
  pending : Option (ℕ × Block Entry)

/-- The builders assert that keys arrive in ascending order. -/
def assertAscending (c : Comparator) (last : Option InternalKey) (key : InternalKey) :
    Exec Unit :=
  match last with
  | some last => do assertThat ((← InternalKeyComparator.compare c key last) = .gt)
  | none => pure ()

/-- `BlockBuilder::Add`. -/
def blockBuilderAdd {α : Type} (c : Comparator) (key : α → InternalKey) (block : List α) (a : α) :
    Exec (List α) := do
  assertAscending c (block.getLast?.map key) (key a)
  return block ++ [a]

namespace TableBuilder

def empty : TableBuilder := ⟨[], [], none, none⟩

variable (o : Options)

/-- Writes the data block; its index entry waits for the next key. -/
def flush (b : TableBuilder) : TableBuilder :=
  if b.dataBlock = [] then b
  else { b with
    dataBlock := []
    pending := some (o.blockOffset (b.indexBlock.map fun ie => ie.block.entries),
      ⟨b.dataBlock, o.blockRestartInterval⟩) }

def addPending (b : TableBuilder) (shorten : InternalKey → Exec InternalKey) :
    Exec TableBuilder := do
  match b.pending, b.lastKey with
  | some (offset, block), some lastKey =>
    let key ← shorten lastKey
    let index ← blockBuilderAdd o.comparator IndexEntry.key b.indexBlock ⟨key, offset, block⟩
    return { b with indexBlock := index, pending := none }
  | _, _ => return b

def add (b : TableBuilder) (e : Entry) : Exec TableBuilder := do
  assertAscending o.comparator b.lastKey e.key
  let b ← b.addPending o fun last =>
    InternalKeyComparator.findShortestSeparator o.comparator last e.key
  let data ← blockBuilderAdd o.comparator Entry.key b.dataBlock e
  let b := { b with lastKey := some e.key, dataBlock := data }
  return if o.blockFull data then b.flush o else b

/-- The filter of a block covers the blocks that start in the same two kilobytes. -/
def filterOf (p : FilterPolicy) (index : List IndexEntry) (offset : ℕ) (key : Bytes) : Bool :=
  p.keyMayMatch key (p.createFilter
    ((index.filter fun ie => ie.offset >>> 11 = offset >>> 11).flatMap fun ie =>
      ie.block.entries.map fun e => e.key.userKey))

def finish (b : TableBuilder) : Exec Table := do
  let b ← (b.flush o).addPending o fun last =>
    InternalKeyComparator.findShortSuccessor o.comparator last
  return {
    index := ⟨b.indexBlock, 1⟩
    filter := o.filterPolicy.map fun p => filterOf p b.indexBlock }

end TableBuilder

/-- `BuildTable` on a non-empty run of entries. -/
def buildTable (o : Options) (number : ℕ) (first : Entry) (rest : List Entry) :
    Exec FileMetaData := do
  let b ← (first :: rest).foldlM (TableBuilder.add o) .empty
  let table ← b.finish o
  let last := (first :: rest).getLast (List.cons_ne_nil _ _)
  return ⟨number, o.fileSize (first :: rest), first.key, last.key, table⟩

namespace TableBuilder

variable {κ : Type*} [LinearOrder κ] {D : Bytes → Prop} {rank : Bytes → κ} {o : Options}
  {b : TableBuilder} {added : List Entry} {e : Entry}

def indexEntries (b : TableBuilder) : List Entry :=
  b.indexBlock.flatMap fun ie => ie.block.entries

def pendingEntries (b : TableBuilder) : List Entry :=
  match b.pending with
  | some (_, block) => block.entries
  | none => []

/-- What holds while a table is built from `added`. -/
structure Builds (D : Bytes → Prop) (rank : Bytes → κ) (b : TableBuilder) (added : List Entry) :
    Prop where
  entries : b.indexEntries ++ (b.pendingEntries ++ b.dataBlock) = added
  sorted : Sorted D rank added
  lastKey : b.lastKey = added.getLast?.map Entry.key
  pending : ∀ p ∈ b.pending, p.2.entries ≠ [] ∧ b.dataBlock = []
  covers : ∀ ie ∈ b.indexBlock, ie.Covers D rank
  separates : b.indexBlock.Pairwise (IndexEntry.Separates rank)
  later : ∀ ie ∈ b.indexBlock, (∃ e ∈ ie.block.entries, e.key = ie.key) ∨
    ∀ e ∈ b.pendingEntries ++ b.dataBlock, rank ie.key.userKey < rank e.key.userKey

theorem Builds.empty : Builds D rank .empty [] :=
  ⟨rfl, Sorted.nil, rfl, by simp [TableBuilder.empty], by simp [TableBuilder.empty],
    List.Pairwise.nil, by simp [TableBuilder.empty]⟩

theorem Builds.flush (h : Builds D rank b added) (hp : b.pending = none) :
    Builds D rank (b.flush o) added ∧ (b.flush o).dataBlock = [] := by
  unfold TableBuilder.flush
  split_ifs with hd
  · exact ⟨h, hd⟩
  · refine ⟨⟨?_, h.sorted, h.lastKey, ?_, h.covers, h.separates, ?_⟩, rfl⟩
    · simpa [indexEntries, pendingEntries, hp] using h.entries
    · intro p hmem
      obtain rfl := Option.some.inj hmem
      exact ⟨hd, rfl⟩
    · simpa [pendingEntries, hp] using h.later

theorem Builds.index_lt (h : Builds D rank b added) {ie : IndexEntry} (hie : ie ∈ b.indexBlock)
    {x : Entry} (hx : x ∈ b.pendingEntries ++ b.dataBlock) : KeyBefore rank ie.key x.key := by
  rcases h.later ie hie with ⟨e, he, hkey⟩ | hlt
  · have hmem : e ∈ b.indexEntries := List.mem_flatMap.mpr ⟨ie, hie, he⟩
    have hs := h.sorted.pairwise
    rw [← h.entries] at hs
    exact hkey ▸ keyBefore_of_before ((List.pairwise_append.mp hs).2.2 e hmem x hx)
  · exact Or.inl (hlt x hx)

theorem assertAscending_eq {α : Type} (ho : o.comparator.OrdersOn D rank) {key : α → InternalKey}
    {L : List α} {k : InternalKey} (hk : D k.userKey) (hb : ∀ x ∈ L, D (key x).userKey)
    (hlt : ∀ x ∈ L, KeyBefore rank (key x) k) :
    assertAscending o.comparator (L.getLast?.map key) k = .ok () := by
  cases hl : L.getLast? with
  | none => rfl
  | some last =>
    have hmem := List.mem_of_getLast? hl
    rw [Option.map_some, assertAscending,
      InternalKeyComparator.compare_gt ho hk (hb last hmem) (hlt last hmem), Stops.ok_bind]
    rfl

theorem blockBuilderAdd_eq {α : Type} (key : α → InternalKey) (ho : o.comparator.OrdersOn D rank)
    {block : List α} {a : α} (ha : D (key a).userKey) (hb : ∀ x ∈ block, D (key x).userKey)
    (hlt : ∀ x ∈ block, KeyBefore rank (key x) (key a)) :
    blockBuilderAdd o.comparator key block a = .ok (block ++ [a]) := by
  rw [blockBuilderAdd, assertAscending_eq ho ha hb hlt]
  rfl

theorem Builds.addPending (ho : o.comparator.OrdersOn D rank) (h : Builds D rank b added)
    (shorten : InternalKey → Exec InternalKey) (next : List Entry)
    (hs : ∀ last ∈ added, ∃ k, shorten last.key = .ok k ∧ D k.userKey ∧
      (k = last.key ∨ rank last.key.userKey < rank k.userKey ∧
        ∀ e ∈ next, rank k.userKey < rank e.key.userKey)) :
    ∃ b', b.addPending o shorten = .ok b' ∧ Builds D rank b' added ∧ b'.pending = none ∧
      b'.lastKey = b.lastKey ∧ b'.dataBlock = b.dataBlock ∧
      ∀ ie ∈ b'.indexBlock, ie ∈ b.indexBlock ∨ (∃ e ∈ ie.block.entries, e.key = ie.key) ∨
        ∀ e ∈ next, rank ie.key.userKey < rank e.key.userKey := by
  rw [TableBuilder.addPending]
  cases hp : b.pending with
  | none => exact ⟨b, rfl, h, hp, rfl, rfl, fun ie hie => Or.inl hie⟩
  | some p =>
    obtain ⟨offset, block⟩ := p
    obtain ⟨hne, hdata⟩ := h.pending _ hp
    have hpend : b.pendingEntries = block.entries := by simp [pendingEntries, hp]
    have hentries : b.indexEntries ++ block.entries = added := by
      rw [← h.entries, hpend, hdata, List.append_nil]
    obtain ⟨last, hlast⟩ : ∃ last, block.entries.getLast? = some last :=
      Option.ne_none_iff_exists'.mp (by simpa [List.getLast?_eq_none_iff] using hne)
    have haddl : added.getLast? = some last := by
      rw [← hentries, List.getLast?_append_of_ne_nil _ hne, hlast]
    have hlmem : last ∈ block.entries := List.mem_of_getLast? hlast
    have hladd : last ∈ added := List.mem_of_getLast? haddl
    obtain ⟨k, hk, hD, hcase⟩ := hs last hladd
    have hupper : ∀ e ∈ block.entries, ¬ KeyBefore rank k e.key := by
      intro e he hb
      have hle : ¬ KeyBefore rank last.key e.key := by
        have hsorted := h.sorted.pairwise
        rw [← hentries] at hsorted
        have hblock := (List.pairwise_append.mp hsorted).2.1
        obtain ⟨init, hinit⟩ := List.getLast?_eq_some_iff.mp hlast
        rw [hinit] at hblock he
        rcases List.mem_append.mp he with he | he
        · exact (keyBefore_of_before ((List.pairwise_append.mp hblock).2.2 e he last
            List.mem_cons_self)).asymm
        · rw [List.mem_singleton.mp he]
          exact fun hb => hb.asymm hb
      rcases hcase with rfl | ⟨hlt, _⟩
      · exact hle hb
      · exact hle (KeyBefore.trans (Or.inl hlt) hb)
    have hcovers : IndexEntry.Covers D rank ⟨k, offset, block⟩ := ⟨hD, hne, hupper⟩
    have hindex : ∀ ie ∈ b.indexBlock, KeyBefore rank ie.key k := by
      intro ie hie
      have hx := h.index_lt hie (x := last) (by simp [hpend, hlmem])
      rcases hcase with rfl | ⟨hlt, _⟩
      · exact hx
      · exact hx.trans (Or.inl hlt)
    have hadd := blockBuilderAdd_eq IndexEntry.key (a := ⟨k, offset, block⟩) ho hD
      (fun ie hie => (h.covers ie hie).key_mem) hindex
    have hsame : (∃ e ∈ block.entries, e.key = k) ∨
        ∀ e ∈ next, rank k.userKey < rank e.key.userKey := by
      rcases hcase with rfl | ⟨_, hnext⟩
      · exact Or.inl ⟨last, hlmem, rfl⟩
      · exact Or.inr hnext
    have hlastKey : b.lastKey = some last.key := by rw [h.lastKey, haddl]; rfl
    refine ⟨{ b with indexBlock := b.indexBlock ++ [⟨k, offset, block⟩], pending := none },
      ?_, ⟨?_, h.sorted, h.lastKey, ?_, ?_, ?_, ?_⟩, rfl, rfl, rfl, ?_⟩
    · simp only [hlastKey, hk, Stops.ok_bind, hadd]
      rfl
    · simpa [indexEntries, pendingEntries, hdata] using hentries
    · simp
    · intro ie hie
      rcases List.mem_append.mp hie with hie | hie
      · exact h.covers ie hie
      · rw [List.mem_singleton.mp hie]
        exact hcovers
    · refine List.pairwise_append.mpr ⟨h.separates, List.pairwise_singleton _ _, ?_⟩
      intro ie hie ie' hie'
      rw [List.mem_singleton.mp hie']
      refine (h.later ie hie).imp_right fun hlt e he => hlt e ?_
      simpa [hpend] using Or.inl he
    · intro ie _
      simp [pendingEntries, hdata]
    · intro ie hie
      rcases List.mem_append.mp hie with hie | hie
      · exact Or.inl hie
      · rw [List.mem_singleton.mp hie]
        exact Or.inr hsame

/-- Between two additions the last block has no index entry yet. -/
def Open (b : TableBuilder) : Prop := b.indexBlock ≠ [] → b.pendingEntries ++ b.dataBlock ≠ []

theorem Builds.add (ho : o.comparator.OrdersOn D rank) (h : Builds D rank b added)
    (hopen : b.Open) (hs : Sorted D rank (added ++ [e])) :
    ∃ b', b.add o e = .ok b' ∧ Builds D rank b' (added ++ [e]) ∧ b'.Open := by
  obtain ⟨hadded, -, hbefore⟩ := List.pairwise_append.mp hs.pairwise
  have hlt : ∀ x ∈ added, (schema rank).Before x e := fun x hx => hbefore x hx e (by simp)
  have he : e.Valid D := hs.valid e (by simp)
  have hx : ∀ x ∈ added, x.Valid D := fun x hx => hs.valid x (List.mem_append_left _ hx)
  have hassert : assertAscending o.comparator b.lastKey e.key = .ok () := by
    rw [h.lastKey]
    exact assertAscending_eq ho he.key_mem (fun x hx' => (hx x hx').key_mem)
      fun x hx' => keyBefore_of_before (hlt x hx')
  have hshorten : ∀ last ∈ added, ∃ k,
      InternalKeyComparator.findShortestSeparator o.comparator last.key e.key = .ok k ∧
        D k.userKey ∧ (k = last.key ∨ rank last.key.userKey < rank k.userKey ∧
          ∀ e' ∈ [e], rank k.userKey < rank e'.key.userKey) := by
    intro last hmem
    have hle : rank last.key.userKey ≤ rank e.key.userKey := by
      rcases hlt last hmem with h' | ⟨h', _⟩
      · exact h'.le
      · exact h'.le
    obtain ⟨k, hk, hD, -, hcase⟩ := InternalKeyComparator.findShortestSeparator_eq ho
      (hx last hmem).key_mem he.key_mem hle
    exact ⟨k, hk, hD, hcase.imp_right fun ⟨h1, h2⟩ => ⟨h1, by simpa using h2⟩⟩
  obtain ⟨b₁, hb₁, hbuilds, hnone, hlast, hdata, hindex⟩ := h.addPending ho
    (fun last => InternalKeyComparator.findShortestSeparator o.comparator last e.key) [e] hshorten
  have hentries : b₁.indexEntries ++ b₁.dataBlock = added := by
    simpa [pendingEntries, hnone] using hbuilds.entries
  have hmem : ∀ x ∈ b₁.dataBlock, x ∈ added := fun x hx' =>
    hentries ▸ List.mem_append_right _ hx'
  have hblock := blockBuilderAdd_eq Entry.key ho he.key_mem
    (fun x hx' => (hx x (hmem x hx')).key_mem)
    fun x hx' => keyBefore_of_before (hlt x (hmem x hx'))
  let b₂ : TableBuilder := { b₁ with lastKey := some e.key, dataBlock := b₁.dataBlock ++ [e] }
  have hb₂ : Builds D rank b₂ (added ++ [e]) := by
    refine ⟨?_, hs, ?_, ?_, hbuilds.covers, hbuilds.separates, fun ie hie => ?_⟩
    · simp [b₂, indexEntries, pendingEntries, hnone, ← hentries]
    · simp [b₂]
    · simp [b₂, hnone]
    · rcases hbuilds.later ie hie with hkey | hlater
      · exact Or.inl hkey
      · -- the new entry comes after everything the builder has seen
        rcases hindex ie hie with hold | hkey | hnew
        · by_cases hkey : ∃ x ∈ ie.block.entries, x.key = ie.key
          · exact Or.inl hkey
          · right
            have hrest := (h.later ie hold).resolve_left hkey
            intro x hx'
            simp only [b₂, pendingEntries, hnone, List.nil_append, List.mem_append,
              List.mem_singleton] at hx'
            rcases hx' with hx' | rfl
            · exact hlater x (List.mem_append_right _ hx')
            · obtain ⟨y, hy⟩ := List.exists_mem_of_ne_nil _ (hopen (List.ne_nil_of_mem hold))
              have hya : y ∈ added := h.entries ▸ List.mem_append_right _ hy
              rcases hlt y hya with h' | ⟨h', _⟩
              · exact (hrest y hy).trans h'
              · exact (hrest y hy).trans_eq h'
        · exact Or.inl hkey
        · right
          intro x hx'
          simp only [b₂, pendingEntries, hnone, List.nil_append, List.mem_append,
            List.mem_singleton] at hx'
          rcases hx' with hx' | rfl
          · exact hlater x (List.mem_append_right _ hx')
          · exact hnew x (List.mem_singleton.mpr rfl)
  have hadd : b.add o e = .ok (if o.blockFull (b₁.dataBlock ++ [e]) then b₂.flush o else b₂) := by
    rw [TableBuilder.add, hassert, Stops.ok_bind, hb₁, Stops.ok_bind, hblock, Stops.ok_bind]
    rfl
  have hdata₂ : b₂.dataBlock ≠ [] := by simp [b₂]
  refine ⟨_, hadd, ?_⟩
  split_ifs
  · refine ⟨(hb₂.flush hnone).1, fun _ => ?_⟩
    simp [TableBuilder.flush, hdata₂, pendingEntries]
  · exact ⟨hb₂, fun _ => by simp [hdata₂]⟩

theorem Builds.addAll (ho : o.comparator.OrdersOn D rank) {next : List Entry}
    (h : Builds D rank b added) (hopen : b.Open) (hs : Sorted D rank (added ++ next)) :
    ∃ b', next.foldlM (TableBuilder.add o) b = .ok b' ∧ Builds D rank b' (added ++ next) := by
  induction next generalizing b added with
  | nil => exact ⟨b, rfl, by simpa using h⟩
  | cons e next ih =>
    have hsplit : added ++ e :: next = (added ++ [e]) ++ next := by simp
    rw [hsplit] at hs ⊢
    obtain ⟨b', hb', hbuilds, hopen'⟩ :=
      h.add ho hopen (hs.sublist (List.sublist_append_left ..))
    obtain ⟨b'', hb'', hbuilds'⟩ := ih hbuilds hopen' hs
    exact ⟨b'', by rw [List.foldlM_cons, hb', Stops.ok_bind, hb''], hbuilds'⟩

theorem filterOf_mem {p : FilterPolicy} (hp : p.Lawful) {index : List IndexEntry}
    {ie : IndexEntry} (hie : ie ∈ index) (he : e ∈ ie.block.entries) :
    filterOf p index ie.offset e.key.userKey = true := by
  refine hp _ _ (List.mem_flatMap.mpr ⟨ie, ?_, List.mem_map_of_mem he⟩)
  exact List.mem_filter.mpr ⟨hie, by simp⟩

theorem Builds.finish (ho : o.comparator.OrdersOn D rank) (h : Builds D rank b added)
    (hp : ∀ p ∈ o.filterPolicy, p.Lawful) :
    ∃ t, b.finish o = .ok t ∧ t.WellFormed D rank ∧ t.entries = added := by
  have hflush : Builds D rank (b.flush o) added ∧ (b.flush o).dataBlock = [] := by
    cases hpend : b.pending with
    | none => exact h.flush hpend
    | some p =>
      have hd := (h.pending p hpend).2
      simpa [TableBuilder.flush, hd] using h
  have hshorten : ∀ last ∈ added, ∃ k,
      InternalKeyComparator.findShortSuccessor o.comparator last.key = .ok k ∧ D k.userKey ∧
        (k = last.key ∨ rank last.key.userKey < rank k.userKey ∧
          ∀ e ∈ ([] : List Entry), rank k.userKey < rank e.key.userKey) := by
    intro last hmem
    obtain ⟨k, hk, hD, -, hcase⟩ :=
      InternalKeyComparator.findShortSuccessor_eq ho (h.sorted.valid last hmem).key_mem
    exact ⟨k, hk, hD, hcase.imp_right fun h1 => ⟨h1, by simp⟩⟩
  obtain ⟨b', hb', hbuilds, hnone, -, hdata, -⟩ := hflush.1.addPending ho
    (fun last => InternalKeyComparator.findShortSuccessor o.comparator last) [] hshorten
  have hentries : b'.indexEntries = added := by
    simpa [pendingEntries, hnone, hdata, hflush.2] using hbuilds.entries
  refine ⟨⟨⟨b'.indexBlock, 1⟩, o.filterPolicy.map fun p => filterOf p b'.indexBlock⟩,
    by rw [TableBuilder.finish, hb', Stops.ok_bind]; rfl,
    ⟨?_, hbuilds.covers, hbuilds.separates, ?_⟩, hentries⟩
  · exact (show Sorted D rank b'.indexEntries from hentries ▸ h.sorted)
  · intro filter hfilter ie hie e he
    obtain ⟨p, hmem, rfl⟩ := Option.map_eq_some_iff.mp hfilter
    exact filterOf_mem (hp p hmem) hie he

end TableBuilder

section BuildTable

variable {κ : Type*} [LinearOrder κ] {D : Bytes → Prop} {rank : Bytes → κ} {o : Options}

/-- A sorted run becomes a well-formed file with the same entries. -/
theorem buildTable_eq (ho : o.comparator.OrdersOn D rank) (hp : ∀ p ∈ o.filterPolicy, p.Lawful)
    (number : ℕ) {first : Entry} {rest : List Entry} (hs : Sorted D rank (first :: rest)) :
    ∃ f, buildTable o number first rest = .ok f ∧ f.WellFormed D rank ∧
      f.entries = first :: rest ∧ f.number = number := by
  obtain ⟨b, hb, hbuilds⟩ := TableBuilder.Builds.addAll ho
    TableBuilder.Builds.empty (fun h => absurd rfl h) hs
  obtain ⟨t, ht, hwf, hentries⟩ := hbuilds.finish ho hp
  have hlast := List.getLast_mem (List.cons_ne_nil first rest)
  rw [List.nil_append] at hentries
  refine ⟨⟨number, o.fileSize (first :: rest), first.key,
    ((first :: rest).getLast (List.cons_ne_nil _ _)).key, t⟩,
    by rw [buildTable, hb, Stops.ok_bind, ht, Stops.ok_bind]; rfl, ⟨hwf, ?_, ?_, ?_, ?_⟩,
    hentries, rfl⟩ <;> simp only [FileMetaData.entries, hentries]
  · exact ⟨first, List.mem_cons_self, rfl⟩
  · exact ⟨_, hlast, rfl⟩
  · intro e he
    rcases List.mem_cons.mp he with rfl | he
    · exact le_rfl
    · rcases (List.pairwise_cons.mp hs.pairwise).1 e he with h' | ⟨h', _⟩
      · exact h'.le
      · exact h'.le
  · intro e he hb
    have hsplit := List.dropLast_append_getLast (List.cons_ne_nil first rest)
    have hpw := hs.pairwise
    rw [← hsplit] at hpw he
    rcases List.mem_append.mp he with he | he
    · exact (keyBefore_of_before ((List.pairwise_append.mp hpw).2.2 e he _
        List.mem_cons_self)).asymm hb
    · rw [List.mem_singleton.mp he] at hb
      exact hb.asymm hb

end BuildTable

end DVELevelDB
