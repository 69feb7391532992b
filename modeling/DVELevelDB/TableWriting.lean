import DVELevelDB.TableFormat

/-! # Writing a table

Whatever the file's calls answer, the builder knows where each block stands, and its index and its
filter block have what was put into the table.
-/

namespace DVELevelDB

namespace TableFormat

open BlockFormat
open FilterBlock (FilterBlockBuilder)
open Stops (Ensures)

section Build

variable {κ : Type*} [LinearOrder κ] {D : Bytes → Prop} {rank : Bytes → κ}
  {io : ℕ → Status} {z : Snappy} {o : Options} {r : Rep}

structure Part where
  key : Bytes
  handle : BlockHandle
  entries : List (Bytes × Bytes)

def Part.indexEntry (p : Part) : Bytes × Bytes := (p.key, p.handle.encodeTo)

/-- A block with these entries, not none, stands at `h` in the file. -/
def Written (z : Snappy) (o : Options) (file : Bytes) (h : BlockHandle)
    (es : List (Bytes × Bytes)) : Prop :=
  es ≠ [] ∧ ∃ b, BlockBuilder.empty.addAll o.comparator o.blockRestartInterval es = .ok b ∧
    StoredAt z file h b.finish.buffer

theorem Written.append {file : Bytes} {h : BlockHandle} {es : List (Bytes × Bytes)}
    (hw : Written z o file h es) (more : Bytes) : Written z o (file ++ more) h es := by
  obtain ⟨hes, b, hb, hs⟩ := hw
  exact ⟨hes, b, hb, hs.append more⟩

def lastEntries (last : Option (BlockHandle × List (Bytes × Bytes))) : List (Bytes × Bytes) :=
  (last.map (·.2)).getD []

/-- The entries of the blocks in the index, of the last block before it is in the index, and of the
block that is not written yet. -/
def entries (ds : List Part) (last : Option (BlockHandle × List (Bytes × Bytes)))
    (cur : List (Bytes × Bytes)) : List (Bytes × Bytes) :=
  ds.flatMap Part.entries ++ (lastEntries last ++ cur)

structure Holds (D : Bytes → Prop) (rank : Bytes → κ) (z : Snappy) (o : Options) (r : Rep)
    (ds : List Part) (last : Option (BlockHandle × List (Bytes × Bytes)))
    (cur : List (Bytes × Bytes)) : Prop where
  offset : r.offset = r.file.length
  index : BlockBuilder.empty.addAll o.comparator 1 (ds.map Part.indexEntry) = .ok r.indexBlock
  data : BlockBuilder.empty.addAll o.comparator o.blockRestartInterval cur = .ok r.dataBlock
  count : r.numEntries = (entries ds last cur).length
  lastKey : entries ds last cur ≠ [] → D r.lastKey
  highest : ∀ x ∈ entries ds last cur, rank x.1 ≤ rank r.lastKey
  keys : ∀ p ∈ ds, D p.key ∧ rank p.key ≤ rank r.lastKey
  pending : r.pendingIndexEntry = last.isSome
  unindexed : ∀ h es, last = some (h, es) → cur = [] ∧ r.pendingHandle = h ∧ Written z o r.file h es
  parts : ∀ p ∈ ds, Written z o r.file p.handle p.entries ∧ ∀ x ∈ p.entries, rank x.1 ≤ rank p.key
  separated : ds.Pairwise fun p p' => ∀ x ∈ p'.entries, rank p.key < rank x.1
  later : ∀ p ∈ ds, ∀ x ∈ lastEntries last ++ cur, rank p.key < rank x.1
  offsets : (ds.map (·.handle.offset) ++ last.toList.map (·.1.offset)).Pairwise (· < ·)

/-- The keys of some entries, each with the offset of their block. -/
def keysAt (offset : ℕ) (es : List (Bytes × Bytes)) : List (ℕ × Bytes) :=
  es.map fun x => (offset, x.1)

/-- What the filter block gets to see; `offset` is where the next block starts. -/
def filterKeys (ds : List Part) (last : Option (BlockHandle × List (Bytes × Bytes)))
    (cur : List (Bytes × Bytes)) (offset : ℕ) : List (ℕ × Bytes) :=
  (ds.flatMap fun p => keysAt p.handle.offset p.entries) ++
    ((last.toList.flatMap fun l => keysAt l.1.offset l.2) ++ keysAt offset cur)

/-- The filter policy fails to create a filter while some of the first entries wait for theirs. -/
def Refuses (o : Options) (es : List (Bytes × Bytes)) (s : Stop) : Prop :=
  ∃ policy ∈ o.filterPolicy, ∃ front, front <+: es ∧
    ∃ f, FilterBlock.Refuses policy.toEngineFilterPolicy (front.map Prod.fst) f ∧ s = .fault f

theorem Refuses.append {es : List (Bytes × Bytes)} {s : Stop} (h : Refuses o es s)
    (more : List (Bytes × Bytes)) : Refuses o (es ++ more) s := by
  obtain ⟨policy, hpolicy, front, hfront, f, hf, rfl⟩ := h
  exact ⟨policy, hpolicy, front, hfront.trans (List.prefix_append es more), f, hf, rfl⟩

theorem refuses_fault {policy : FilterPolicy} (hpolicy : o.filterPolicy = some policy)
    {added : List (ℕ × Bytes)} {es : List (Bytes × Bytes)}
    (hes : added.map Prod.snd = es.map Prod.fst) (f : MemoryFault)
    (h : FilterBlock.Refuses policy.toEngineFilterPolicy (added.map Prod.snd) f) :
    Refuses o es (.fault f) :=
  ⟨policy, hpolicy, es, List.prefix_refl es, f, hes ▸ h, rfl⟩

/-- A filter block for the policy of the options, if there is one, at a block offset. -/
structure Filters (o : Options) (filterBlock : Option (FilterPolicy × FilterBlockBuilder))
    (added : List (ℕ × Bytes)) (offset : ℕ) : Prop where
  policy : filterBlock.map Prod.fst = o.filterPolicy
  follows : ∀ policy b, filterBlock = some (policy, b) →
    FilterBlock.Follows policy.toEngineFilterPolicy b added offset

/-- The filter block has all keys. -/
def Filtered (o : Options) (r : Rep) (ds : List Part)
    (last : Option (BlockHandle × List (Bytes × Bytes))) (cur : List (Bytes × Bytes)) : Prop :=
  Filters o r.filterBlock (filterKeys ds last cur r.offset) r.offset

theorem filters_make (o : Options) : Filters o (Rep.make o).filterBlock [] 0 := by
  refine ⟨?_, fun policy b heq => ?_⟩
  · rw [Rep.make]
    cases o.filterPolicy <;> rfl
  · obtain ⟨policy', -, hpair⟩ := Option.map_eq_some_iff.mp heq
    obtain ⟨rfl, rfl⟩ := Prod.mk.inj hpair
    exact FilterBlock.follows_empty _

theorem Filters.call {added added' : List (ℕ × Bytes)} {offset offset' : ℕ}
    (h : Filters o r.filterBlock added offset) {es : List (Bytes × Bytes)}
    (hes : added.map Prod.snd = es.map Prod.fst) {call : FilterBlockBuilder.Call}
    (hcall : ∀ (policy : FilterPolicy) b,
      FilterBlock.Follows policy.toEngineFilterPolicy b added offset →
        Ensures (FilterBlock.Refuses policy.toEngineFilterPolicy (added.map Prod.snd))
          (b.call policy.toEngineFilterPolicy call)
          fun b' => FilterBlock.Follows policy.toEngineFilterPolicy b' added' offset') :
    Ensures (Refuses o es) (r.callFilter call) fun r' =>
      ∃ filterBlock, r' = { r with filterBlock } ∧ Filters o filterBlock added' offset' := by
  rw [Rep.callFilter]
  cases hfilter : r.filterBlock with
  | none =>
    refine ⟨none, ?_, ⟨hfilter ▸ h.policy, fun policy b heq => ?_⟩⟩
    · rw [← hfilter]
    · cases heq
  | some pair =>
    obtain ⟨policy, b⟩ := pair
    have hpolicy : o.filterPolicy = some policy := by
      rw [← h.policy, hfilter]
      rfl
    refine (ensures_ofRaw (hcall policy b (h.follows policy b hfilter))
      (refuses_fault hpolicy hes)).bind fun b' hb' => ?_
    refine ⟨some (policy, b'), rfl, hpolicy.symm, fun policy' b'' heq => ?_⟩
    obtain ⟨rfl, rfl⟩ := Prod.mk.inj (Option.some.inj heq)
    exact hb'

theorem Filters.startBlock {added : List (ℕ × Bytes)} {offset blockOffset : ℕ}
    (h : Filters o r.filterBlock added offset) {es : List (Bytes × Bytes)}
    (hes : added.map Prod.snd = es.map Prod.fst) (hle : offset ≤ blockOffset) :
    Ensures (Refuses o es) (r.callFilter (.startBlock blockOffset)) fun r' =>
      ∃ filterBlock, r' = { r with filterBlock } ∧ Filters o filterBlock added blockOffset :=
  h.call hes fun _ _ hfollows => hfollows.startBlock hle

theorem Filters.addKey {added : List (ℕ × Bytes)} {offset : ℕ}
    (h : Filters o r.filterBlock added offset) {es : List (Bytes × Bytes)}
    (hes : added.map Prod.snd = es.map Prod.fst) (key : Bytes) :
    Ensures (Refuses o es) (r.callFilter (.addKey key)) fun r' =>
      ∃ filterBlock, r' = { r with filterBlock } ∧
        Filters o filterBlock (added ++ [(offset, key)]) offset :=
  h.call hes fun _ _ hfollows => hfollows.addKey key

theorem stored_raw (hz : z.Lossless) (raw : Bytes) :
    (Rep.stored z o raw).2 = .kNoCompression ∧ (Rep.stored z o raw).1 = raw ∨
      (Rep.stored z o raw).2 = .kSnappyCompression ∧
        z.uncompress (Rep.stored z o raw).1 = some raw := by
  rw [Rep.stored]
  split
  · exact Or.inl ⟨rfl, rfl⟩
  · split
    · exact Or.inl ⟨rfl, rfl⟩
    · rename_i compressed hcompressed
      split_ifs
      · exact Or.inr ⟨rfl, hz raw compressed hcompressed⟩
      · exact Or.inl ⟨rfl, rfl⟩

/-- What writing leaves alone, whatever fails. -/
structure Frame (r r' : Rep) : Prop where
  closed : r'.closed = r.closed
  filterBlock : r'.filterBlock = r.filterBlock
  offset : r.offset ≤ r'.offset

/-- Unless a call fails, the block stands at the end of the file. -/
theorem writeRawBlock_spec (io : ℕ → Status) (hoffset : r.offset = r.file.length)
    (contents : Bytes) (type : CompressionType) :
    Frame r (r.writeRawBlock io contents type).1 ∧
      ((r.writeRawBlock io contents type).1.status = .ok →
        ∃ calls, r.writeRawBlock io contents type = ({ r with
          file := r.file ++ (contents ++ trailer contents type)
          calls
          offset := (r.file ++ (contents ++ trailer contents type)).length
          status := .ok }, ⟨r.file.length, contents.length⟩)) := by
  rw [Rep.writeRawBlock]
  cases hfirst : (io r.calls).isOk with
  | false =>
    simp only [Rep.append, hfirst, Bool.false_eq_true, if_false]
    refine ⟨⟨rfl, rfl, le_rfl⟩, fun hok => ?_⟩
    rw [hok] at hfirst
    cases hfirst
  | true =>
    cases hsecond : (io (r.calls + 1)).isOk with
    | false =>
      simp only [Rep.append, hfirst, hsecond, Bool.false_eq_true, if_false, if_true]
      refine ⟨⟨rfl, rfl, le_rfl⟩, fun hok => ?_⟩
      rw [hok] at hsecond
      cases hsecond
    | true =>
      have hok := (Status.isOk_iff _).mp hsecond
      simp only [Rep.append, hfirst, hok, Status.isOk_ok, if_true]
      refine ⟨⟨rfl, rfl, Nat.le_add_right _ _⟩, fun _ => ⟨r.calls + 1 + 1, ?_⟩⟩
      simp only [List.append_assoc, List.length_append, trailer_length, hoffset]

theorem writeBlock_spec (io : ℕ → Status) (hz : z.Lossless) (hoffset : r.offset = r.file.length)
    (b : BlockBuilder) :
    Frame r (r.writeBlock io z o b).1 ∧
      ((r.writeBlock io z o b).1.status = .ok →
        ∃ more calls, r.writeBlock io z o b = ({ r with
            file := r.file ++ more
            calls
            offset := (r.file ++ more).length
            status := .ok }, ⟨r.file.length, (Rep.stored z o b.finish.buffer).1.length⟩) ∧
          StoredAt z (r.file ++ more) ⟨r.file.length, (Rep.stored z o b.finish.buffer).1.length⟩
            b.finish.buffer) := by
  have hraw := stored_raw (o := o) hz b.finish.buffer
  rw [Rep.writeBlock]
  generalize Rep.stored z o b.finish.buffer = contents at hraw ⊢
  obtain ⟨hframe, hwritten⟩ := writeRawBlock_spec io hoffset contents.1 contents.2
  refine ⟨hframe, fun hok => ?_⟩
  obtain ⟨calls, heq⟩ := hwritten hok
  exact ⟨_, calls, heq, r.file, contents.1, contents.2, [], by simp, rfl, hraw⟩

theorem isOk_eq_false {s : Status} (h : ¬ s = .ok) : s.isOk = false :=
  Bool.eq_false_iff.mpr (mt s.isOk_iff.mp h)

theorem StoredAt.offset_lt {file raw : Bytes} {h : BlockHandle} (hs : StoredAt z file h raw) :
    h.offset < file.length := by
  obtain ⟨pre, contents, type, post, rfl, rfl, -⟩ := hs
  simp only [List.length_append, trailer_length]
  omega

variable {ds : List Part} {last : Option (BlockHandle × List (Bytes × Bytes))}
  {cur added : List (Bytes × Bytes)} {e : Bytes × Bytes}

/-- The first entry behind a key. -/
structure FirstBehind (rank : Bytes → κ) (key : Bytes) (es : List (Bytes × Bytes))
    (b : Bytes × Bytes) : Prop where
  mem : b ∈ es
  behind : rank key < rank b.1
  first : ∀ y ∈ es, rank key < rank y.1 → rank b.1 ≤ rank y.1

/-- The keys in the index separate their blocks from the first entries behind them. -/
def Separators (o : Options) (rank : Bytes → κ) (ds : List Part) (es : List (Bytes × Bytes)) :
    Prop :=
  ∀ p ∈ ds, ∀ b, FirstBehind rank p.key es b →
    ∃ x ∈ p.entries, o.comparator.findShortestSeparator x.1 b.1 = .ok p.key

/-- Behind the key of each block in the index there are more entries. -/
structure Separated (o : Options) (rank : Bytes → κ) (ds : List Part)
    (es : List (Bytes × Bytes)) : Prop where
  separators : Separators o rank ds es
  followed : ∀ p ∈ ds, ∃ y ∈ es, rank p.key < rank y.1

theorem Separated.addEntry (h : Separated o rank ds added)
    (hlast : ∀ y ∈ added, rank y.1 < rank e.1) : Separated o rank ds (added ++ [e]) := by
  refine ⟨fun p hp b hb => ?_, fun p hp => ?_⟩
  · obtain ⟨y, hy, hbehind⟩ := h.followed p hp
    have hle := hb.first y (List.mem_append_left _ hy) hbehind
    have hmem : b ∈ added := by
      rcases List.mem_append.mp hb.mem with hmem | hmem
      · exact hmem
      · obtain rfl := List.mem_singleton.mp hmem
        exact absurd (hlast y hy) (not_lt.mpr hle)
    exact h.separators p hp b
      ⟨hmem, hb.behind, fun y hy => hb.first y (List.mem_append_left _ hy)⟩
  · obtain ⟨y, hy, hbehind⟩ := h.followed p hp
    exact ⟨y, List.mem_append_left _ hy, hbehind⟩

theorem Separated.addPart (h : Separated o rank ds added)
    (hlast : ∀ y ∈ added, rank y.1 < rank e.1) {p : Part}
    (hupper : ∀ y ∈ added, rank y.1 ≤ rank p.key) (hlt : rank p.key < rank e.1)
    (hmade : ∃ x ∈ p.entries, o.comparator.findShortestSeparator x.1 e.1 = .ok p.key) :
    Separated o rank (ds ++ [p]) (added ++ [e]) := by
  have hold := h.addEntry hlast
  refine ⟨fun p' hp' b hb => ?_, fun p' hp' => ?_⟩
  · rcases List.mem_append.mp hp' with hp' | hp'
    · exact hold.separators p' hp' b hb
    · obtain rfl := List.mem_singleton.mp hp'
      rcases List.mem_append.mp hb.mem with hmem | hmem
      · exact absurd hb.behind (not_lt.mpr (hupper b hmem))
      · obtain rfl := List.mem_singleton.mp hmem
        exact hmade
  · rcases List.mem_append.mp hp' with hp' | hp'
    · exact hold.followed p' hp'
    · obtain rfl := List.mem_singleton.mp hp'
      exact ⟨e, by simp, hlt⟩

theorem entries_moved (ds : List Part) (h : BlockHandle) (cur : List (Bytes × Bytes)) :
    entries ds (some (h, cur)) [] = entries ds none cur := by
  simp [entries, lastEntries]

theorem entries_indexed (ds : List Part) (p : Part) :
    entries (ds ++ [p]) none [] = entries ds (some (p.handle, p.entries)) [] := by
  simp [entries, lastEntries]

theorem entries_concat (ds : List Part) (cur : List (Bytes × Bytes)) (e : Bytes × Bytes) :
    entries ds none (cur ++ [e]) = entries ds none cur ++ [e] := by
  simp [entries]

theorem Holds.written (h : Holds D rank z o r ds none cur) (hcur : cur ≠ []) {more : Bytes}
    {size : ℕ} (hstored : StoredAt z (r.file ++ more) ⟨r.file.length, size⟩
      r.dataBlock.finish.buffer) (calls : ℕ) (s : Status) :
    Holds D rank z o { r with
      file := r.file ++ more
      calls
      offset := (r.file ++ more).length
      status := s
      dataBlock := .empty
      pendingIndexEntry := true
      pendingHandle := ⟨r.file.length, size⟩ } ds (some (⟨r.file.length, size⟩, cur)) [] := by
  constructor
  case offset => rfl
  case index => exact h.index
  case data => rfl
  case count => exact h.count.trans (congrArg List.length (entries_moved ds _ cur).symm)
  case lastKey =>
    rw [entries_moved]
    exact h.lastKey
  case highest =>
    rw [entries_moved]
    exact h.highest
  case keys => exact h.keys
  case pending => rfl
  case unindexed =>
    intro h' es heq
    obtain ⟨rfl, rfl⟩ := Prod.mk.inj (Option.some.inj heq)
    exact ⟨rfl, rfl, hcur, r.dataBlock, h.data, hstored⟩
  case parts => exact fun p hp => ⟨(h.parts p hp).1.append more, (h.parts p hp).2⟩
  case separated => exact h.separated
  case later =>
    intro p hp x hx
    exact h.later p hp x (by simpa [lastEntries] using hx)
  case offsets =>
    have hold := h.offsets
    rw [Option.toList_none, List.map_nil, List.append_nil] at hold
    refine List.pairwise_append.mpr ⟨hold, List.pairwise_singleton _ _, ?_⟩
    intro i hi j hj
    obtain ⟨p, hp, rfl⟩ := List.mem_map.mp hi
    obtain rfl := List.mem_singleton.mp hj
    obtain ⟨⟨-, b, -, hat⟩, -⟩ := h.parts p hp
    exact hat.offset_lt

theorem filterKeys_moved (ds : List Part) (h : BlockHandle) (cur : List (Bytes × Bytes))
    (offset : ℕ) : filterKeys ds (some (h, cur)) [] offset = filterKeys ds none cur h.offset := by
  simp [filterKeys, keysAt]

theorem filterKeys_indexed (ds : List Part) (p : Part) (offset : ℕ) :
    filterKeys (ds ++ [p]) none [] offset =
      filterKeys ds (some (p.handle, p.entries)) [] offset := by
  simp [filterKeys, keysAt]

theorem filterKeys_concat (ds : List Part) (cur : List (Bytes × Bytes)) (e : Bytes × Bytes)
    (offset : ℕ) :
    filterKeys ds none (cur ++ [e]) offset = filterKeys ds none cur offset ++ [(offset, e.1)] := by
  simp [filterKeys, keysAt]

/-- The filter block gets the keys of the entries. -/
theorem filterKeys_keys (ds : List Part) (last : Option (BlockHandle × List (Bytes × Bytes)))
    (cur : List (Bytes × Bytes)) (offset : ℕ) :
    (filterKeys ds last cur offset).map Prod.snd = (entries ds last cur).map Prod.fst := by
  cases last <;>
    simp [filterKeys, entries, lastEntries, keysAt, List.map_flatMap, Function.comp_def]

theorem Holds.withFilter (h : Holds D rank z o r ds last cur)
    (filterBlock : Option (FilterPolicy × FilterBlockBuilder)) :
    Holds D rank z o { r with filterBlock } ds last cur :=
  ⟨h.offset, h.index, h.data, h.count, h.lastKey, h.highest, h.keys, h.pending, h.unindexed,
    h.parts, h.separated, h.later, h.offsets⟩

theorem Holds.flushData (h : Holds D rank z o r ds none cur) (hcur : cur ≠ []) (hz : z.Lossless)
    (io : ℕ → Status) :
    Frame r (r.flushData io z o) ∧
      ((r.flushData io z o).status = .ok → (r.flushData io z o).lastKey = r.lastKey ∧
        ∃ handle, handle.offset = r.offset ∧
          Holds D rank z o (r.flushData io z o) ds (some (handle, cur)) []) := by
  obtain ⟨hframe, hwritten⟩ := writeBlock_spec (o := o) io hz h.offset r.dataBlock
  rw [Rep.flushData]
  rcases hw : r.writeBlock io z o r.dataBlock with ⟨r₁, handle⟩
  rw [hw] at hframe hwritten
  by_cases hok : r₁.status = .ok
  · obtain ⟨more, calls, heq, hstored⟩ := hwritten hok
    obtain ⟨rfl, rfl⟩ := Prod.mk.inj heq
    refine ⟨⟨hframe.closed, hframe.filterBlock, hframe.offset⟩, fun _ => ⟨rfl,
      ⟨r.file.length, (Rep.stored z o r.dataBlock.finish.buffer).1.length⟩, h.offset.symm, ?_⟩⟩
    exact h.written hcur hstored _ _
  · have hfalse := isOk_eq_false hok
    simp only [hfalse, Bool.false_eq_true, if_false]
    exact ⟨⟨hframe.closed, hframe.filterBlock, hframe.offset⟩, fun hok' => absurd hok' hok⟩

theorem Holds.flush (h : Holds D rank z o r ds last cur) (hf : Filtered o r ds last cur)
    (hz : z.Lossless) (hclosed : r.closed = false) (io : ℕ → Status) :
    Ensures (Refuses o (entries ds last cur)) (r.flush io z o) fun r' => r'.closed = false ∧
      (r'.status = .ok → r'.lastKey = r.lastKey ∧ ∃ last', Holds D rank z o r' ds last' [] ∧
        Filtered o r' ds last' [] ∧ entries ds last' [] = entries ds last cur) := by
  have hempty := addAll_isEmpty h.data
  rw [Rep.flush, hclosed, hempty]
  simp only [Bool.not_false, assertThat_true, ofExec_ok, Stops.ok_bind]
  by_cases hcur : cur = []
  · subst hcur
    rw [List.isEmpty_nil, Bool.or_true, if_pos rfl]
    exact ⟨hclosed, fun _ => ⟨rfl, last, h, hf, rfl⟩⟩
  · rw [List.isEmpty_eq_false_iff.mpr hcur, Bool.or_false]
    by_cases hstatus : r.status = .ok
    · have hnone : last = none := by
        cases last with
        | none => rfl
        | some l => exact absurd (h.unindexed l.1 l.2 rfl).1 hcur
      subst hnone
      have hpending : r.pendingIndexEntry = false := h.pending
      obtain ⟨hframe, hwritten⟩ := h.flushData hcur hz io
      rw [hstatus, Status.isOk_ok, Bool.not_true, if_neg Bool.false_ne_true, hpending]
      simp only [Bool.not_false, assertThat_true, ofExec_ok, Stops.ok_bind]
      rw [Filtered, ← hframe.filterBlock] at hf
      refine (hf.startBlock (filterKeys_keys _ _ _ _) hframe.offset).mono ?_
      rintro _ ⟨filterBlock, rfl, hf'⟩
      refine ⟨hframe.closed.trans hclosed, fun hok => ?_⟩
      obtain ⟨hkey, handle, hoffset, hh⟩ := hwritten hok
      refine ⟨hkey, some (handle, cur), hh.withFilter filterBlock, ?_, entries_moved ds handle cur⟩
      rw [Filtered, filterKeys_moved, hoffset]
      exact hf'
    · have hfalse := isOk_eq_false hstatus
      rw [hfalse, Bool.not_false, if_pos rfl]
      exact ⟨hclosed, fun hok => absurd hok hstatus⟩

theorem Holds.indexKeys (h : Holds D rank z o r ds last cur) :
    (ds.map Part.indexEntry).Pairwise fun e e' => rank e.1 < rank e'.1 := by
  rw [List.pairwise_map]
  refine h.separated.imp_of_mem fun {p p'} _ hp' hlt => ?_
  obtain ⟨⟨hne, -⟩, hupper⟩ := h.parts p' hp'
  obtain ⟨x, hx⟩ := List.exists_mem_of_ne_nil _ hne
  exact (hlt x hx).trans_le (hupper x hx)

theorem Holds.entries_ne (h : Holds D rank z o r ds last cur) (hne : last ≠ none) :
    entries ds last cur ≠ [] := by
  intro hnil
  obtain ⟨l, rfl⟩ := Option.ne_none_iff_exists'.mp hne
  obtain ⟨-, -, hes, -⟩ := h.unindexed l.1 l.2 rfl
  rw [entries, List.append_eq_nil_iff, List.append_eq_nil_iff] at hnil
  exact hes hnil.2.1

/-- An entry with the highest key is in the last block. -/
theorem Holds.mem_last {handle : BlockHandle} {es : List (Bytes × Bytes)}
    (h : Holds D rank z o r ds (some (handle, es)) cur)
    (he : e ∈ entries ds (some (handle, es)) cur) (hkey : rank e.1 = rank r.lastKey) : e ∈ es := by
  obtain ⟨rfl, -, hne, -⟩ := h.unindexed handle es rfl
  rcases List.mem_append.mp he with he | he
  · obtain ⟨p, hp, he⟩ := List.mem_flatMap.mp he
    obtain ⟨x, hx⟩ := List.exists_mem_of_ne_nil _ hne
    have hlater := h.later p hp x (by simp [lastEntries, hx])
    have hle : rank x.1 ≤ rank e.1 :=
      hkey ▸ h.highest x (by simp [entries, lastEntries, hx])
    exact absurd (hlater.trans_le hle) (not_lt.mpr ((h.parts p hp).2 e he))
  · simpa [lastEntries] using he

/-- A block that waits for its index entry is the last one. -/
theorem Holds.waits (h : Holds D rank z o r ds last cur) :
    (!r.pendingIndexEntry || r.dataBlock.buffer.isEmpty) = true := by
  rw [h.pending, addAll_isEmpty h.data]
  cases last with
  | none => rfl
  | some l =>
    rw [(h.unindexed l.1 l.2 rfl).1]
    rfl

theorem Holds.assertAfter (h : Holds D rank z o r ds last cur)
    (ho : o.comparator.OrdersOn D rank) (hD : D e.1)
    (hless : entries ds last cur ≠ [] → rank r.lastKey < rank e.1) :
    r.assertAfter o e.1 = .ok () := by
  rw [Rep.assertAfter, h.count]
  by_cases hne : entries ds last cur = []
  · rw [hne]
    rfl
  · rw [if_pos (List.length_pos_iff.mpr hne), ho.compare_eq _ _ hD (h.lastKey hne),
      (cmp_eq_gt_iff _ _).mpr (hless hne)]
    rfl

theorem Holds.addPending (h : Holds D rank z o r ds last cur) (ho : o.comparator.OrdersOn D rank)
    (shorten : Bytes → Exec Bytes) (hs : last ≠ none →
      ∃ s, shorten r.lastKey = .ok s ∧ D s ∧ rank r.lastKey ≤ rank s) :
    ∃ r' ds', r.addPending o shorten = .ok r' ∧ r'.file = r.file ∧ r'.closed = r.closed ∧
      r'.status = r.status ∧ Holds D rank z o r' ds' none cur ∧
      entries ds' none cur = entries ds last cur ∧
      (∀ offset, filterKeys ds' none cur offset = filterKeys ds last cur offset) ∧
      r'.filterBlock = r.filterBlock ∧
      (ds' = ds ∧ r'.lastKey = r.lastKey ∨ ∃ handle es, last = some (handle, es) ∧
        shorten r.lastKey = .ok r'.lastKey ∧ ds' = ds ++ [⟨r'.lastKey, handle, es⟩]) := by
  rw [Rep.addPending, h.pending]
  cases last with
  | none => exact ⟨r, ds, rfl, rfl, rfl, rfl, h, rfl, fun _ => rfl, rfl, Or.inl ⟨rfl, rfl⟩⟩
  | some l =>
    obtain ⟨handle, es⟩ := l
    obtain ⟨rfl, rfl, hwritten⟩ := h.unindexed _ _ rfl
    obtain ⟨s, hshorten, hD, hle⟩ := hs (Option.some_ne_none _)
    have hhighest : ∀ x ∈ es, rank x.1 ≤ rank r.lastKey := fun x hx =>
      h.highest x (by simp [entries, lastEntries, hx])
    have hlater : ∀ p ∈ ds, ∀ x ∈ es, rank p.key < rank x.1 := fun p hp x hx =>
      h.later p hp x (by simp [lastEntries, hx])
    obtain ⟨x, hx⟩ := List.exists_mem_of_ne_nil _ hwritten.1
    have hkeys : ∀ p ∈ ds, rank p.key < rank s := fun p hp =>
      (hlater p hp x hx).trans_le ((hhighest x hx).trans hle)
    have hD' : ∀ e ∈ ds.map Part.indexEntry ++ [(s, r.pendingHandle.encodeTo)], D e.1 := by
      intro e he
      rcases List.mem_append.mp he with he | he
      · obtain ⟨p, hp, rfl⟩ := List.mem_map.mp he
        exact (h.keys p hp).1
      · obtain rfl := List.mem_singleton.mp he
        exact hD
    have hsorted : (ds.map Part.indexEntry ++ [(s, r.pendingHandle.encodeTo)]).Pairwise
        fun e e' => rank e.1 < rank e'.1 := by
      refine List.pairwise_append.mpr ⟨h.indexKeys, List.pairwise_singleton _ _, ?_⟩
      intro e he e' he'
      obtain ⟨p, hp, rfl⟩ := List.mem_map.mp he
      obtain rfl := List.mem_singleton.mp he'
      exact hkeys p hp
    obtain ⟨b, hb, hindex⟩ := add_greater ho Nat.one_pos h.index hD' hsorted
    have hentries := entries_indexed ds ⟨s, r.pendingHandle, es⟩
    simp only [Option.isSome_some, if_true, Stops.ok_bind, hshorten, hb]
    refine ⟨_, ds ++ [⟨s, r.pendingHandle, es⟩], rfl, rfl, rfl, rfl, ?_, hentries,
      filterKeys_indexed ds _, rfl, Or.inr ⟨r.pendingHandle, es, rfl, rfl, rfl⟩⟩
    constructor
    case offset => exact h.offset
    case index =>
      rw [List.map_append]
      exact hindex
    case data => exact h.data
    case count => exact h.count.trans (congrArg List.length hentries.symm)
    case lastKey => exact fun _ => hD
    case highest =>
      intro y hy
      rw [hentries] at hy
      exact (h.highest y hy).trans hle
    case keys =>
      intro p hp
      rcases List.mem_append.mp hp with hp | hp
      · exact ⟨(h.keys p hp).1, (hkeys p hp).le⟩
      · obtain rfl := List.mem_singleton.mp hp
        exact ⟨hD, le_rfl⟩
    case pending => rfl
    case unindexed =>
      intro _ _ heq
      cases heq
    case parts =>
      intro p hp
      rcases List.mem_append.mp hp with hp | hp
      · exact h.parts p hp
      · obtain rfl := List.mem_singleton.mp hp
        exact ⟨hwritten, fun y hy => (hhighest y hy).trans hle⟩
    case separated =>
      refine List.pairwise_append.mpr ⟨h.separated, List.pairwise_singleton _ _, ?_⟩
      intro p hp p' hp'
      obtain rfl := List.mem_singleton.mp hp'
      exact hlater p hp
    case later =>
      intro p hp y hy
      cases hy
    case offsets =>
      have hold := h.offsets
      rw [List.map_append, Option.toList_none, List.map_nil, List.append_nil]
      exact hold

theorem Holds.addEntry (h : Holds D rank z o r ds none cur) (ho : o.comparator.OrdersOn D rank)
    (hpos : 0 < o.blockRestartInterval) (hD : ∀ x ∈ entries ds none cur ++ [e], D x.1)
    (hsorted : (entries ds none cur ++ [e]).Pairwise fun x x' => rank x.1 < rank x'.1)
    (hkeys : ∀ p ∈ ds, rank p.key < rank e.1) :
    ∃ r', r.addEntry o e.1 e.2 = .ok r' ∧ Frame r r' ∧ r'.offset = r.offset ∧
      r'.lastKey = e.1 ∧ Holds D rank z o r' ds none (cur ++ [e]) := by
  have hconcat := entries_concat ds cur e
  have hsuffix : cur ++ [e] <:+ entries ds none cur ++ [e] :=
    ⟨ds.flatMap Part.entries, by simp [entries, lastEntries]⟩
  obtain ⟨b, hb, hdata⟩ := add_greater ho hpos h.data (fun x hx => hD x (hsuffix.subset hx))
    (hsorted.sublist hsuffix.sublist)
  rw [Rep.addEntry, hb]
  refine ⟨_, rfl, ⟨rfl, rfl, le_rfl⟩, rfl, rfl, ?_⟩
  constructor
  case offset => exact h.offset
  case index => exact h.index
  case data => exact hdata
  case count =>
    rw [hconcat, List.length_append, List.length_singleton, ← h.count]
  case lastKey => exact fun _ => hD e (by simp)
  case highest =>
    intro x hx
    rw [hconcat] at hx
    rcases List.mem_append.mp hx with hx | hx
    · exact ((List.pairwise_append.mp hsorted).2.2 x hx e (List.mem_singleton_self e)).le
    · obtain rfl := List.mem_singleton.mp hx
      exact le_rfl
  case keys => exact fun p hp => ⟨(h.keys p hp).1, (hkeys p hp).le⟩
  case pending => exact h.pending
  case unindexed =>
    intro _ _ heq
    cases heq
  case parts => exact h.parts
  case separated => exact h.separated
  case later =>
    intro p hp x hx
    rcases List.mem_append.mp (List.mem_append.mp hx |>.resolve_left List.not_mem_nil) with hx | hx
    · exact h.later p hp x (List.mem_append_right _ hx)
    · obtain rfl := List.mem_singleton.mp hx
      exact hkeys p hp
  case offsets => exact h.offsets

/-- Between the calls: unless a call of the file has failed, all entries are there. -/
structure Good (D : Bytes → Prop) (rank : Bytes → κ) (z : Snappy) (o : Options) (r : Rep)
    (added : List (Bytes × Bytes)) : Prop where
  opened : r.closed = false
  holds : r.status = .ok → ∃ ds last cur, Holds D rank z o r ds last cur ∧
    Filtered o r ds last cur ∧ entries ds last cur = added ∧ Separated o rank ds added ∧
    (added ≠ [] → ∃ x ∈ added, x.1 = r.lastKey)

theorem Good.add (h : Good D rank z o r added) (ho : o.comparator.OrdersOn D rank)
    (hs : Shortens o.comparator D rank) (hpos : 0 < o.blockRestartInterval) (hz : z.Lossless)
    (hD : ∀ x ∈ added ++ [e], D x.1)
    (hsorted : (added ++ [e]).Pairwise fun x x' => rank x.1 < rank x'.1) (io : ℕ → Status) :
    Ensures (Refuses o (added ++ [e])) (r.add io z o e)
      fun r' => Good D rank z o r' (added ++ [e]) := by
  rw [Rep.add, h.opened]
  simp only [Bool.not_false, assertThat_true, ofExec_ok, Stops.ok_bind]
  by_cases hstatus : r.status = .ok
  · obtain ⟨ds, last, cur, hh, hf, rfl, hseparated, hlast⟩ := h.holds hstatus
    have hDe : D e.1 := hD e (by simp)
    have hless : entries ds last cur ≠ [] → rank r.lastKey < rank e.1 := by
      intro hne
      obtain ⟨x, hx, hkey⟩ := hlast hne
      rw [← hkey]
      exact (List.pairwise_append.mp hsorted).2.2 x hx e (List.mem_singleton_self e)
    have hassert := hh.assertAfter ho hDe hless
    have hshorten : last ≠ none → ∃ s, (fun lastKey =>
        o.comparator.findShortestSeparator lastKey e.1) r.lastKey = .ok s ∧ D s ∧
          rank r.lastKey ≤ rank s := by
      intro hne
      obtain ⟨s, hsep, hDs, hle, -⟩ := hs.separator _ _ (hh.lastKey (hh.entries_ne hne)) hDe
        (hless (hh.entries_ne hne))
      exact ⟨s, hsep, hDs, hle⟩
    obtain ⟨r₁, ds', hpending, hfile, hclosed, -, hh', hentries, hkeys, hfilter, hkey⟩ :=
      hh.addPending ho (fun lastKey => o.comparator.findShortestSeparator lastKey e.1) hshorten
    have hf' : Filters o r₁.filterBlock (filterKeys ds' none cur r₁.offset) r₁.offset := by
      rw [hkeys, hfilter, hh'.offset, hfile, ← hh.offset]
      exact hf
    have hbelow : ∀ p ∈ ds', rank p.key < rank e.1 := by
      intro p hp
      refine (hh'.keys p hp).2.trans_lt ?_
      rcases hkey with ⟨-, hkey⟩ | ⟨handle, es, hsome, hkey, -⟩
      · rw [hkey]
        refine hless fun hnil => (hh'.parts p hp).1.1 ?_
        rw [← hentries, entries, List.append_eq_nil_iff, List.flatMap_eq_nil_iff] at hnil
        exact hnil.1 p hp
      · have hne : last ≠ none := hsome ▸ Option.some_ne_none _
        obtain ⟨s, hsep, -, -, hlt⟩ := hs.separator _ _ (hh.lastKey (hh.entries_ne hne)) hDe
          (hless (hh.entries_ne hne))
        obtain rfl := Except.ok.inj (hsep.symm.trans hkey)
        exact hlt
    have hseparated' : Separated o rank ds' (entries ds last cur ++ [e]) := by
      have habove : ∀ y ∈ entries ds last cur, rank y.1 < rank e.1 := fun y hy =>
        (List.pairwise_append.mp hsorted).2.2 y hy e (List.mem_singleton_self e)
      rcases hkey with ⟨rfl, -⟩ | ⟨handle, es, rfl, hkey, rfl⟩
      · exact hseparated.addEntry habove
      · obtain ⟨x, hx, hxkey⟩ := hlast (hh.entries_ne (Option.some_ne_none _))
        refine hseparated.addPart habove (fun y hy => hh'.highest y (hentries ▸ hy))
          (hbelow _ (by simp)) ⟨x, hh.mem_last hx (by rw [hxkey]), ?_⟩
        rw [hxkey]
        exact hkey
    rw [← hentries] at hD hsorted
    rw [hstatus, hassert, hh.waits, hpending]
    simp only [Status.isOk_ok, Bool.not_true, Bool.false_eq_true, if_false, Stops.ok_bind,
      assertThat_true, ofExec_ok]
    refine ((hf'.addKey (filterKeys_keys _ _ _ _) e.1).imp fun s hs => ?_).bind ?_
    · rw [← hentries]
      exact hs.append [e]
    rintro _ ⟨filterBlock, rfl, hfilters⟩
    obtain ⟨r₂, hentry, hframe, hoffset, hkey₂, hh₂⟩ :=
      (hh'.withFilter filterBlock).addEntry ho hpos hD hsorted hbelow
    have hopen : r₂.closed = false := hframe.closed.trans (hclosed.trans h.opened)
    have hf₂ : Filtered o r₂ ds' none (cur ++ [e]) := by
      rw [Filtered, hframe.filterBlock, hoffset, filterKeys_concat]
      exact hfilters
    simp only [hentry, ofExec_ok, Stops.ok_bind]
    rw [← hentries, ← entries_concat] at hseparated' ⊢
    have hmem : ∃ x ∈ entries ds' none (cur ++ [e]), x.1 = r₂.lastKey :=
      ⟨e, by simp [entries], hkey₂.symm⟩
    by_cases hsize : r₂.dataBlock.currentSizeEstimate ≥ o.blockSize
    · rw [if_pos hsize]
      refine (hh₂.flush hf₂ hz hopen io).mono fun r₃ hflush => ⟨hflush.1, fun hok => ?_⟩
      obtain ⟨hkey₃, last', hh₃, hf₃, hentries₃⟩ := hflush.2 hok
      exact ⟨ds', last', [], hh₃, hf₃, hentries₃, hseparated', fun _ => hkey₃ ▸ hmem⟩
    · rw [if_neg hsize]
      exact ⟨hopen, fun _ => ⟨ds', none, cur ++ [e], hh₂, hf₂, rfl, hseparated', fun _ => hmem⟩⟩
  · have hfalse := isOk_eq_false hstatus
    rw [hfalse, Bool.not_false, if_pos rfl]
    exact ⟨h.opened, fun hok => absurd hok hstatus⟩

theorem Good.addAll (h : Good D rank z o r added) (ho : o.comparator.OrdersOn D rank)
    (hs : Shortens o.comparator D rank) (hpos : 0 < o.blockRestartInterval) (hz : z.Lossless)
    {es : List (Bytes × Bytes)} (hD : ∀ x ∈ added ++ es, D x.1)
    (hsorted : (added ++ es).Pairwise fun x x' => rank x.1 < rank x'.1) (io : ℕ → Status) :
    Ensures (Refuses o (added ++ es)) (es.foldlM (Rep.add io z o) r)
      fun r' => Good D rank z o r' (added ++ es) := by
  induction es generalizing r added with
  | nil =>
    rw [List.append_nil]
    exact h
  | cons e es ih =>
    have happend : added ++ e :: es = added ++ [e] ++ es := by simp
    rw [happend] at hD hsorted ⊢
    have hadd := h.add ho hs hpos hz (fun x hx => hD x (List.mem_append_left _ hx))
      (hsorted.sublist (List.sublist_append_left _ _)) io
    rw [List.foldlM_cons]
    exact (hadd.imp fun s hstop => hstop.append es).bind fun r₁ hgood => ih hgood hD hsorted

theorem good_make {filterBlock : Option (FilterPolicy × FilterBlockBuilder)}
    (hf : Filters o filterBlock [] 0) : Good D rank z o { Rep.make o with filterBlock } [] := by
  have hnone : Separated o rank [] [] :=
    ⟨fun p hp => absurd hp List.not_mem_nil, fun p hp => absurd hp List.not_mem_nil⟩
  refine ⟨rfl, fun _ => ⟨[], none, [], ?_, hf, rfl, hnone, fun h => absurd rfl h⟩⟩
  constructor
  case offset => rfl
  case index => rfl
  case data => rfl
  case count => rfl
  case lastKey => exact fun h => absurd rfl h
  case highest => exact fun x hx => absurd hx List.not_mem_nil
  case keys => exact fun p hp => absurd hp List.not_mem_nil
  case pending => rfl
  case unindexed =>
    intro _ _ heq
    cases heq
  case parts => exact fun p hp => absurd hp List.not_mem_nil
  case separated => exact .nil
  case later => exact fun p hp => absurd hp List.not_mem_nil
  case offsets => exact .nil

theorem Holds.grow (h : Holds D rank z o r ds last cur) (more : Bytes) (calls : ℕ) (s : Status) :
    Holds D rank z o { r with
      file := r.file ++ more
      calls
      offset := (r.file ++ more).length
      status := s } ds last cur := by
  refine ⟨rfl, h.index, h.data, h.count, h.lastKey, h.highest, h.keys, h.pending, ?_, ?_,
    h.separated, h.later, h.offsets⟩
  · intro handle es heq
    obtain ⟨hcur, hhandle, hwritten⟩ := h.unindexed handle es heq
    exact ⟨hcur, hhandle, hwritten.append more⟩
  · exact fun p hp => ⟨(h.parts p hp).1.append more, (h.parts p hp).2⟩

/-- The entries of the metaindex block, which lead to the filter block, if there is one. -/
inductive MetaEntries (z : Snappy) (o : Options) (file : Bytes) (added : List (ℕ × Bytes)) :
    List (Bytes × Bytes) → Prop
  | without (hpolicy : o.filterPolicy = none) : MetaEntries z o file added []
  | filter (policy : FilterPolicy) (hpolicy : o.filterPolicy = some policy) (h : BlockHandle)
      (contents : Bytes) (hstored : StoredAt z file h contents)
      (hkept : FilterBlock.Keeps policy.toEngineFilterPolicy → added.length < 2 ^ 31 →
        ∃ groups, FilterBlock.Finished policy.toEngineFilterPolicy contents groups added) :
      MetaEntries z o file added [(policy.metaKey, h.encodeTo)]

theorem MetaEntries.append {file : Bytes} {added : List (ℕ × Bytes)}
    {metaEntries : List (Bytes × Bytes)} (h : MetaEntries z o file added metaEntries)
    (more : Bytes) : MetaEntries z o (file ++ more) added metaEntries := by
  cases h with
  | without hpolicy => exact .without hpolicy
  | filter policy hpolicy h contents hstored hkept =>
    exact .filter policy hpolicy h contents (hstored.append more) hkept

/-- One entry is not compared. -/
theorem MetaEntries.addAll {file : Bytes} {added : List (ℕ × Bytes)}
    {metaEntries : List (Bytes × Bytes)} (h : MetaEntries z o file added metaEntries)
    (c c' : Comparator) (interval : ℕ) :
    BlockBuilder.empty.addAll c interval metaEntries =
      BlockBuilder.empty.addAll c' interval metaEntries := by
  cases h <;> rfl

theorem MetaEntries.sorted {file : Bytes} {added : List (ℕ × Bytes)}
    {metaEntries : List (Bytes × Bytes)} (h : MetaEntries z o file added metaEntries) :
    metaEntries.Pairwise fun e e' => byteValues e.1 < byteValues e'.1 := by
  cases h with
  | without _ => exact .nil
  | filter _ _ _ _ _ _ => exact List.pairwise_singleton _ _

theorem Filters.writeFilterBlock {added : List (ℕ × Bytes)}
    (h : Filters o r.filterBlock added r.offset) {es : List (Bytes × Bytes)}
    (hes : added.map Prod.snd = es.map Prod.fst) (hoffset : r.offset = r.file.length)
    (hstatus : r.status = .ok) (io : ℕ → Status) :
    Ensures (Refuses o es) (r.writeFilterBlock io) fun p => p.1.status = .ok →
      ∃ more calls filterBlock, p.1 = { r with
          file := r.file ++ more
          calls
          offset := (r.file ++ more).length
          status := .ok
          filterBlock } ∧ MetaEntries z o (r.file ++ more) added p.2 := by
  rw [Rep.writeFilterBlock, Rep.callFilter]
  cases hfilter : r.filterBlock with
  | none =>
    have hpolicy : o.filterPolicy = none := by
      rw [← h.policy, hfilter]
      rfl
    simp only [pure_bind, hfilter]
    refine fun _ => ⟨[], r.calls, none, ?_, .without hpolicy⟩
    rw [List.append_nil, ← hoffset, ← hstatus, ← hfilter]
  | some pair =>
    obtain ⟨policy, b⟩ := pair
    have hpolicy : o.filterPolicy = some policy := by
      rw [← h.policy, hfilter]
      rfl
    simp only [bind_assoc, pure_bind]
    refine (ensures_ofRaw (h.follows policy b hfilter).finish
      (refuses_fault hpolicy hes)).bind fun b' hkept hok => ?_
    obtain ⟨-, hwritten⟩ := writeRawBlock_spec (r := { r with filterBlock := some (policy, b') })
      io hoffset b'.result .kNoCompression
    obtain ⟨calls, heq⟩ := hwritten hok
    refine ⟨_, calls, some (policy, b'), congrArg Prod.fst heq, ?_⟩
    rw [heq]
    exact .filter policy hpolicy _ b'.result
      ⟨r.file, b'.result, .kNoCompression, [], by simp, rfl, Or.inl ⟨rfl, rfl⟩⟩ hkept

/-- Data blocks with the entries in their order, an index block with the handles of the data blocks,
a metaindex block, and a footer with the handles of the last two. -/
structure LaidOut (z : Snappy) (o : Options) (file : Bytes) (es : List (Bytes × Bytes))
    (ds : List Part) (metaIndexBlock indexBlock : BlockBuilder) : Prop where
  entries : ds.flatMap Part.entries = es
  data : ∀ p ∈ ds, Written z o file p.handle p.entries
  index : BlockBuilder.empty.addAll o.comparator 1 (ds.map Part.indexEntry) = .ok indexBlock
  metaindex : ∃ metaEntries,
    MetaEntries z o file (ds.flatMap fun p => keysAt p.handle.offset p.entries) metaEntries ∧
    BlockBuilder.empty.addAll o.comparator o.blockRestartInterval metaEntries = .ok metaIndexBlock
  footer : ∃ front footer, file = front ++ Footer.encodeTo footer ∧
    StoredAt z front footer.metaindexHandle metaIndexBlock.finish.buffer ∧
    StoredAt z front footer.indexHandle indexBlock.finish.buffer

/-- Each of the blocks has fewer than 2^32 bytes before it is compressed. -/
structure BlocksFit (o : Options) (ds : List Part) (metaIndexBlock indexBlock : BlockBuilder) :
    Prop where
  metaindex : metaIndexBlock.currentSizeEstimate < 2 ^ 32
  index : indexBlock.currentSizeEstimate < 2 ^ 32
  data : ∀ p ∈ ds, ∀ b, BlockBuilder.empty.addAll o.comparator o.blockRestartInterval p.entries =
    .ok b → b.currentSizeEstimate < 2 ^ 32

/-- The last blocks and the footer are behind all data blocks. -/
def Finished (D : Bytes → Prop) (rank : Bytes → κ) (z : Snappy) (o : Options) (file : Bytes)
    (es : List (Bytes × Bytes)) : Prop :=
  ∃ r ds metaIndexBlock more, Holds D rank z o r ds none [] ∧ file = r.file ++ more ∧
    LaidOut z o file es ds metaIndexBlock r.indexBlock ∧ Separators o rank ds es

theorem Holds.finishBlocks (h : Holds D rank z o r ds last [])
    (ho : o.comparator.OrdersOn D rank) (hs : Shortens o.comparator D rank)
    (hpos : 0 < o.blockRestartInterval) (hz : z.Lossless) {offset : ℕ}
    {metaEntries : List (Bytes × Bytes)}
    (hm : MetaEntries z o r.file (filterKeys ds last [] offset) metaEntries)
    (hseparators : Separators o rank ds (entries ds last [])) (io : ℕ → Status) :
    ∃ r', r.finishBlocks io z o metaEntries = .ok r' ∧
      (r'.status = .ok → Finished D rank z o r'.file (entries ds last [])) := by
  obtain ⟨metaIndexBlock, hmeta, -⟩ := finished_block bytewiseComparator_orders hpos
    (fun _ _ => trivial) hm.sorted
  rw [← hm.addAll o.comparator] at hmeta
  obtain ⟨-, hwritten⟩ := writeBlock_spec (o := o) io hz h.offset metaIndexBlock
  rw [Rep.finishBlocks, hmeta, Stops.ok_bind]
  rcases hw : r.writeBlock io z o metaIndexBlock with ⟨r₁, metaindexHandle⟩
  rw [hw] at hwritten
  by_cases hok : r₁.status = .ok
  · obtain ⟨more, calls, heq, hstored⟩ := hwritten hok
    obtain ⟨rfl, rfl⟩ := Prod.mk.inj heq
    have hsuccessor : last ≠ none →
        ∃ s, o.comparator.findShortSuccessor r.lastKey = .ok s ∧ D s ∧ rank r.lastKey ≤ rank s := by
      exact fun hne => hs.successor _ (h.lastKey (h.entries_ne hne))
    obtain ⟨r₂, ds', hpending, hfile, -, -, hh, hentries, hkeys, -, hkey⟩ :=
      (h.grow more calls .ok).addPending ho _ hsuccessor
    have hseparators' : Separators o rank ds' (entries ds last []) := by
      rcases hkey with ⟨rfl, -⟩ | ⟨handle, es, -, -, rfl⟩
      · exact hseparators
      · intro p hp b hb
        rcases List.mem_append.mp hp with hp | hp
        · exact hseparators p hp b hb
        · obtain rfl := List.mem_singleton.mp hp
          exact absurd hb.behind (not_lt.mpr (hh.highest b (hentries ▸ hb.mem)))
    obtain ⟨-, hwritten₂⟩ := writeBlock_spec (o := o) io hz hh.offset r₂.indexBlock
    simp only [Status.isOk_ok, if_true, hpending, Stops.ok_bind]
    rcases hw₂ : r₂.writeBlock io z o r₂.indexBlock with ⟨r₃, indexHandle⟩
    rw [hw₂] at hwritten₂
    by_cases hok₂ : r₃.status = .ok
    · obtain ⟨more₂, calls₂, heq₂, hstored₂⟩ := hwritten₂ hok₂
      obtain ⟨rfl, rfl⟩ := Prod.mk.inj heq₂
      simp only [Status.isOk_ok, if_true]
      cases hlast : (io calls₂).isOk with
      | false =>
        refine ⟨_, rfl, fun hend => ?_⟩
        simp only [Rep.append, hlast, Bool.false_eq_true, if_false] at hend
        rw [hend] at hlast
        cases hlast
      | true =>
        have hgrown : r₂.file = r.file ++ more := hfile
        rw [← hgrown] at hstored
        have hadded : (ds'.flatMap fun p => keysAt p.handle.offset p.entries) =
            filterKeys ds last [] offset := by
          rw [← hkeys offset]
          simp [filterKeys, keysAt]
        refine ⟨_, rfl, fun _ => ?_⟩
        simp only [Rep.append, hlast, if_true]
        refine ⟨r₂, ds', metaIndexBlock, _, hh, List.append_assoc _ _ _,
          ⟨?_, fun p hp => ?_, hh.index, ⟨metaEntries, ?_, hmeta⟩,
            ⟨_, _, rfl, hstored.append more₂, hstored₂⟩⟩, hseparators'⟩
        · rw [← hentries]
          simp [entries, lastEntries]
        · rw [List.append_assoc]
          exact (hh.parts p hp).1.append _
        · rw [hadded, hgrown, List.append_assoc, List.append_assoc]
          exact hm.append _
    · have hfalse := isOk_eq_false hok₂
      simp only [hfalse, Bool.false_eq_true, if_false]
      exact ⟨_, rfl, fun hend => absurd hend hok₂⟩
  · have hfalse := isOk_eq_false hok
    simp only [hfalse, Bool.false_eq_true, if_false]
    exact ⟨r₁, rfl, fun hend => absurd hend hok⟩

theorem ofExec_ensures {α : Type} {x : Exec α} {P : α → Prop} {permitted : Stop → Prop}
    (h : ∃ a, x = .ok a ∧ P a) : Ensures permitted (ofExec x) P := by
  obtain ⟨a, rfl, ha⟩ := h
  exact ha

theorem Good.finish {es : List (Bytes × Bytes)} (h : Good D rank z o r es)
    (ho : o.comparator.OrdersOn D rank) (hs : Shortens o.comparator D rank)
    (hpos : 0 < o.blockRestartInterval) (hz : z.Lossless) (io : ℕ → Status) :
    Ensures (Refuses o es) (r.finish io z o)
      fun r' => r'.status = .ok → Finished D rank z o r'.file es := by
  rw [Rep.finish]
  by_cases hstatus : r.status = .ok
  · obtain ⟨ds, last, cur, hh, hf, rfl, hseparated, -⟩ := h.holds hstatus
    refine (hh.flush hf hz h.opened io).bind fun r₁ hflush => ?_
    obtain ⟨hclosed, hh₁⟩ := hflush
    simp only [hclosed, Bool.not_false, assertThat_true, ofExec_ok, Stops.ok_bind]
    by_cases hok : r₁.status = .ok
    · obtain ⟨-, last', hh₂, hf₂, hentries₂⟩ := hh₁ hok
      have hsame : Holds D rank z o { r₁ with closed := true } ds last' [] :=
        ⟨hh₂.offset, hh₂.index, hh₂.data, hh₂.count, hh₂.lastKey, hh₂.highest, hh₂.keys,
          hh₂.pending, hh₂.unindexed, hh₂.parts, hh₂.separated, hh₂.later, hh₂.offsets⟩
      have hf₃ : Filters o { r₁ with closed := true }.filterBlock
          (filterKeys ds last' [] r₁.offset) r₁.offset := hf₂
      rw [if_pos ((Status.isOk_iff _).mpr hok)]
      have hes : (filterKeys ds last' [] r₁.offset).map Prod.snd =
          (entries ds last cur).map Prod.fst := by
        rw [filterKeys_keys, hentries₂]
      refine (hf₃.writeFilterBlock (z := z) hes hsame.offset hok io).bind fun p hp => ?_
      obtain ⟨r₂, metaEntries⟩ := p
      by_cases hok₂ : r₂.status = .ok
      · obtain ⟨more, calls, filterBlock, rfl, hm⟩ := hp hok₂
        simp only [Status.isOk_ok, if_true]
        have hfinish := ((hsame.grow more calls .ok).withFilter filterBlock).finishBlocks ho hs
          hpos hz hm (hentries₂ ▸ hseparated.separators) io
        rw [hentries₂] at hfinish
        exact ofExec_ensures hfinish
      · have hfalse := isOk_eq_false hok₂
        simp only [hfalse, Bool.false_eq_true, if_false]
        exact fun hend => absurd hend hok₂
    · have hfalse := isOk_eq_false hok
      simp only [hfalse, Bool.false_eq_true, if_false]
      exact fun hend => absurd hend hok
  · have hfalse := isOk_eq_false hstatus
    rw [Rep.flush, h.opened, hfalse]
    simp only [Bool.not_false, assertThat_true, ofExec_ok, Stops.ok_bind, Bool.true_or, if_true,
      pure_bind, h.opened, hfalse, Bool.false_eq_true, if_false]
    exact fun hend => absurd hend hstatus

/-- A table whose status is good at the end is a whole table. -/
theorem build_spec (ho : o.comparator.OrdersOn D rank) (hs : Shortens o.comparator D rank)
    (hpos : 0 < o.blockRestartInterval) (hz : z.Lossless) {es : List (Bytes × Bytes)}
    (hD : ∀ x ∈ es, D x.1) (hsorted : es.Pairwise fun x x' => rank x.1 < rank x'.1)
    (io : ℕ → Status) :
    Ensures (Refuses o es) (build io z o es)
      fun r => r.status = .ok → Finished D rank z o r.file es := by
  have hempty : ([] : List (ℕ × Bytes)).map Prod.snd = ([] : List (Bytes × Bytes)).map Prod.fst :=
    rfl
  refine (((filters_make o).startBlock hempty le_rfl).imp fun s hstop => hstop.append es).bind ?_
  rintro _ ⟨filterBlock, rfl, hf⟩
  refine ((good_make hf).addAll ho hs hpos hz hD hsorted io).bind fun r hgood => ?_
  exact hgood.finish ho hs hpos hz io

section Healthy

variable {b : BlockBuilder} {e : Bytes × Bytes}

theorem writeBlock_healthy (hio : ∀ i, io i = .ok) : (r.writeBlock io z o b).1.status = .ok := by
  simp only [Rep.writeBlock, Rep.writeRawBlock, Rep.append, hio, Status.isOk_ok, if_true]

theorem callFilter_healthy (call : FilterBlockBuilder.Call) (h : r.status = .ok) :
    Ensures (fun _ => True) (r.callFilter call) fun r' => r'.status = .ok := by
  rw [Rep.callFilter]
  split
  · exact h
  · exact .bind Stops.ensures_true fun _ _ => h

theorem flush_healthy (hio : ∀ i, io i = .ok) (h : r.status = .ok) :
    Ensures (fun _ => True) (r.flush io z o) fun r' => r'.status = .ok := by
  rw [Rep.flush]
  refine .bind Stops.ensures_true fun _ _ => ?_
  split_ifs with hskip
  · exact h
  · refine .bind Stops.ensures_true fun _ _ => callFilter_healthy _ ?_
    have hok : (r.writeBlock io z o r.dataBlock).1.status = .ok := writeBlock_healthy hio
    simp only [Rep.flushData, hok, Status.isOk_ok, if_true]
    exact hio _

theorem addPending_healthy {shorten : Bytes → Exec Bytes} (h : r.status = .ok) :
    Ensures (fun _ => True) (r.addPending o shorten) fun r' => r'.status = .ok := by
  rw [Rep.addPending]
  split_ifs
  · exact .bind Stops.ensures_true fun _ _ => .bind Stops.ensures_true fun _ _ => h
  · exact h

theorem ofExec_healthy {x : Exec Rep} (h : Ensures (fun _ => True) x fun r' => r'.status = .ok) :
    Ensures (fun _ => True) (ofExec x) fun r' => r'.status = .ok := by
  cases x with
  | ok r' => exact h
  | error _ => trivial

theorem add_healthy (hio : ∀ i, io i = .ok) (h : r.status = .ok) :
    Ensures (fun _ => True) (r.add io z o e) fun r' => r'.status = .ok := by
  rw [Rep.add]
  refine .bind Stops.ensures_true fun _ _ => ?_
  rw [h, Status.isOk_ok, Bool.not_true, if_neg Bool.false_ne_true]
  refine .bind Stops.ensures_true fun _ _ => .bind Stops.ensures_true fun _ _ => ?_
  refine (ofExec_healthy (addPending_healthy h)).bind fun r₁ h₁ => ?_
  refine (callFilter_healthy _ h₁).bind fun r₂ h₂ => ?_
  have hentry : Ensures (fun _ => True) (r₂.addEntry o e.1 e.2)
      fun r' => r'.status = .ok := .bind Stops.ensures_true fun _ _ => h₂
  refine (ofExec_healthy hentry).bind fun r₃ h₃ => ?_
  split_ifs
  · exact flush_healthy hio h₃
  · exact h₃

theorem writeFilterBlock_healthy (hio : ∀ i, io i = .ok) (h : r.status = .ok) :
    Ensures (fun _ => True) (r.writeFilterBlock io) fun p => p.1.status = .ok := by
  rw [Rep.writeFilterBlock]
  refine (callFilter_healthy _ h).bind fun r₁ h₁ => ?_
  split
  · exact h₁
  · simp only [Rep.writeRawBlock, Rep.append, hio, Status.isOk_ok, if_true, Stops.ensures_pure]

theorem finishBlocks_healthy (hio : ∀ i, io i = .ok) (metaEntries : List (Bytes × Bytes)) :
    Ensures (fun _ => True) (r.finishBlocks io z o metaEntries) fun r' => r'.status = .ok := by
  rw [Rep.finishBlocks]
  refine .bind Stops.ensures_true fun metaIndexBlock _ => ?_
  have hmeta : (r.writeBlock io z o metaIndexBlock).1.status = .ok := writeBlock_healthy hio
  simp only [hmeta, Status.isOk_ok, if_true]
  refine (addPending_healthy hmeta).bind fun r₁ _ => ?_
  have hindex : (r₁.writeBlock io z o r₁.indexBlock).1.status = .ok := writeBlock_healthy hio
  simp only [hindex, Status.isOk_ok, if_true, Rep.append, hio]
  rfl

theorem build_healthy (hio : ∀ i, io i = .ok) (es : List (Bytes × Bytes)) :
    Ensures (fun _ => True) (build io z o es) fun r => r.status = .ok := by
  refine (callFilter_healthy (r := Rep.make o) _ rfl).bind fun r₀ h₀ => ?_
  refine (Stops.ensures_foldlM (I := fun r : Rep => r.status = .ok) h₀
    fun r h e _ => add_healthy hio h).bind fun r h => ?_
  refine (flush_healthy hio h).bind fun r₁ h₁ => .bind Stops.ensures_true fun _ _ => ?_
  have hok : r₁.status.isOk = true := (Status.isOk_iff _).mpr h₁
  simp only [hok, if_true]
  refine (writeFilterBlock_healthy (r := { r₁ with closed := true }) hio h₁).bind fun p hp => ?_
  have hok₂ : p.1.status.isOk = true := (Status.isOk_iff _).mpr hp
  simp only [hok₂, if_true]
  exact ofExec_healthy (finishBlocks_healthy hio p.2)

end Healthy

end Build

end TableFormat

end DVELevelDB
