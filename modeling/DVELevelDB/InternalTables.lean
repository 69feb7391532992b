import DVELevelDB.TableBuilder
import DVELevelDB.TableGet
import Mathlib.Data.List.Find
import Mathlib.Data.Prod.Lex

/-! # Tables of internal keys

The engine puts internal keys into its tables. A lookup in the bytes of such a table answers like
the lookup in the table of entries that the versions have.
-/

namespace DVELevelDB

namespace TableFormat

open VersionStore Coding
open FilterBlock (EngineFilterPolicy)
open Stops (Ensures)

/-- `InternalKeyComparator` on the bytes of its keys. -/
def internalKeyComparator (c : Comparator) : Comparator where
  name := utf8 "leveldb.InternalKeyComparator"
  compare akey bkey := do
    InternalKeyComparator.compare c (← InternalKey.decode akey) (← InternalKey.decode bkey)
  findShortestSeparator start limit := do
    let key ← InternalKeyComparator.findShortestSeparator c (← InternalKey.decode start)
      (← InternalKey.decode limit)
    return key.encode
  findShortSuccessor key := do
    let key ← InternalKeyComparator.findShortSuccessor c (← InternalKey.decode key)
    return key.encode

def extractUserKey (internalKey : Bytes) : Bytes := internalKey.take (internalKey.length - 8)

/-- `InternalFilterPolicy`. `ExtractUserKey` asserts that there is room for the tag; where a filter
is asked about a key, the comparator has asserted it before. -/
def internalFilterPolicy (userPolicy : FilterPolicy) : FilterPolicy where
  createFilter keys n dst :=
    let mkey := keys.take n.toInt.toNat
    if mkey.all fun key => key.length ≥ 8 then
      userPolicy.createFilter (mkey.map extractUserKey ++ keys.drop n.toInt.toNat) n dst
    else
      .error .assertionFailed
  keyMayMatch key f := userPolicy.keyMayMatch (extractUserKey key) f
  name := userPolicy.name

/-- What `SanitizeOptions` makes of the user's comparator and filter policy. -/
def Options.sanitized (o : Options) : Options :=
  { o with
    comparator := internalKeyComparator o.comparator
    filterPolicy := o.filterPolicy.map internalFilterPolicy }

/-- `SaveValue`; a key without room for a tag cannot be parsed. -/
def saveValue (c : Comparator) (userKey ikey v : Bytes) : Exec SaverState :=
  if ikey.length < 8 then
    return .corrupt
  else do
    DVELevelDB.saveValue c userKey ⟨← InternalKey.decode ikey, v⟩

def saved (c : Comparator) (userKey : Bytes) : Option (Bytes × Bytes) → Exec SaverState
  | none => return .notFound
  | some (ikey, v) => saveValue c userKey ikey v

/-- `Table::InternalGet` with `SaveValue` as its `handle_result`. -/
def get (z : Snappy) (verifyChecksums : Bool) (c : Comparator) (table : OpenedTable)
    (file : Bytes) (k : InternalKey) : Exec (Status × SaverState) := do
  let (s, found) ← internalGet z verifyChecksums (internalKeyComparator c) table file k.encode
  return (s, ← saved c k.userKey found)

section Order

variable {κ : Type*} [LinearOrder κ] {c : Comparator} {D : Bytes → Prop} {rank : Bytes → κ}
  {a b : InternalKey}

def IsInternal (D : Bytes → Prop) (rep : Bytes) : Prop :=
  ∃ key : InternalKey, key.tag < 2 ^ 64 ∧ D key.userKey ∧ key.encode = rep

/-- Ascending user keys, then descending tags. -/
def internalRank (rank : Bytes → κ) (rep : Bytes) : κ ×ₗ ℕᵒᵈ :=
  toLex (rank (extractUserKey rep), OrderDual.toDual (decodeFixed64 (rep.drop (rep.length - 8))))

@[simp] theorem extractUserKey_encode (key : InternalKey) :
    extractUserKey key.encode = key.userKey := by
  rw [extractUserKey, InternalKey.length_encode, Nat.add_sub_cancel, InternalKey.encode,
    List.take_left]

omit [LinearOrder κ] in
theorem internalRank_encode (ha : a.tag < 2 ^ 64) :
    internalRank rank a.encode = toLex (rank a.userKey, OrderDual.toDual a.tag) := by
  have hdecode := InternalKey.decode_encode ha
  have hlen : a.encode.length ≥ 8 := by
    rw [InternalKey.length_encode]
    omega
  simp only [InternalKey.decode, hlen, decide_true, assertThat_true, Stops.ok_bind] at hdecode
  have htag := congrArg InternalKey.tag (Except.ok.inj hdecode)
  simp only at htag
  rw [internalRank, extractUserKey_encode, htag]

theorem internalRank_lt (ha : a.tag < 2 ^ 64) (hb : b.tag < 2 ^ 64) :
    internalRank rank a.encode < internalRank rank b.encode ↔ KeyBefore rank a b := by
  rw [internalRank_encode ha, internalRank_encode hb, Prod.Lex.toLex_lt_toLex]
  rfl

theorem internalRank_le (ha : a.tag < 2 ^ 64) (hb : b.tag < 2 ^ 64)
    (h : internalRank rank a.encode ≤ internalRank rank b.encode) :
    rank a.userKey ≤ rank b.userKey := by
  rw [internalRank_encode ha, internalRank_encode hb, Prod.Lex.toLex_le_toLex] at h
  rcases h with h | ⟨h, -⟩
  · exact h.le
  · exact h.le

theorem internalRank_of_between (ha : a.tag < 2 ^ 64) (hb : b.tag < 2 ^ 64)
    (h : rank a.userKey < rank b.userKey) :
    internalRank rank a.encode < internalRank rank b.encode :=
  (internalRank_lt ha hb).mpr (Or.inl h)

theorem internal_compare (ho : c.OrdersOn D rank) (ha : a.tag < 2 ^ 64) (hb : b.tag < 2 ^ 64)
    (hDa : D a.userKey) (hDb : D b.userKey) : (internalKeyComparator c).compare a.encode b.encode =
      .ok (cmp (internalRank rank a.encode) (internalRank rank b.encode)) := by
  have hcompare : (internalKeyComparator c).compare a.encode b.encode =
      InternalKeyComparator.compare c a b := by
    rw [internalKeyComparator]
    dsimp only
    rw [InternalKey.decode_encode ha, InternalKey.decode_encode hb]
    rfl
  rw [hcompare, InternalKeyComparator.compare_eq ho hDa hDb]
  rcases KeyBefore.total rank a b with h | h | ⟨hrank, htag⟩
  · rw [if_pos h, (cmp_eq_lt_iff _ _).mpr ((internalRank_lt ha hb).mpr h)]
  · rw [if_neg h.asymm, if_pos h, (cmp_eq_gt_iff _ _).mpr ((internalRank_lt hb ha).mpr h)]
  · have hsame : internalRank rank a.encode = internalRank rank b.encode := by
      rw [internalRank_encode ha, internalRank_encode hb, hrank, htag]
    rw [if_neg fun h => absurd ((internalRank_lt ha hb).mpr h) hsame.not_lt,
      if_neg fun h => absurd ((internalRank_lt hb ha).mpr h) hsame.not_gt,
      (cmp_eq_eq_iff _ _).mpr hsame]

theorem internal_separator (ho : c.OrdersOn D rank) (ha : a.tag < 2 ^ 64) (hb : b.tag < 2 ^ 64)
    (hDa : D a.userKey) (hDb : D b.userKey) (hle : rank a.userKey ≤ rank b.userKey) :
    ∃ key : InternalKey, key.tag < 2 ^ 64 ∧ D key.userKey ∧
      (internalKeyComparator c).findShortestSeparator a.encode b.encode = .ok key.encode ∧
      (key = a ∨ rank a.userKey < rank key.userKey ∧ rank key.userKey < rank b.userKey) := by
  obtain ⟨key, hkey, hD, htag, hcase⟩ :=
    InternalKeyComparator.findShortestSeparator_eq ho hDa hDb hle
  refine ⟨key, htag ha, hD, ?_, hcase⟩
  rw [internalKeyComparator]
  dsimp only
  rw [InternalKey.decode_encode ha, InternalKey.decode_encode hb, Stops.ok_bind, Stops.ok_bind,
    hkey]
  rfl

theorem internal_successor (ho : c.OrdersOn D rank) (ha : a.tag < 2 ^ 64) (hDa : D a.userKey) :
    ∃ key : InternalKey, key.tag < 2 ^ 64 ∧ D key.userKey ∧
      (internalKeyComparator c).findShortSuccessor a.encode = .ok key.encode ∧
      (key = a ∨ rank a.userKey < rank key.userKey) := by
  obtain ⟨key, hkey, hD, htag, hcase⟩ := InternalKeyComparator.findShortSuccessor_eq ho hDa
  refine ⟨key, htag ha, hD, ?_, hcase⟩
  rw [internalKeyComparator]
  dsimp only
  rw [InternalKey.decode_encode ha, Stops.ok_bind, hkey]
  rfl

theorem internal_orders (ho : c.OrdersOn D rank) :
    (internalKeyComparator c).OrdersOn (IsInternal D) (internalRank rank) where
  compare_eq := by
    rintro _ _ ⟨a, ha, hDa, rfl⟩ ⟨b, hb, hDb, rfl⟩
    exact internal_compare ho ha hb hDa hDb
  separator := by
    rintro _ _ ⟨a, ha, hDa, rfl⟩ ⟨b, hb, hDb, rfl⟩ hle
    obtain ⟨key, htag, hD, hkey, hcase⟩ :=
      internal_separator ho ha hb hDa hDb (internalRank_le ha hb hle)
    refine ⟨key.encode, hkey, ⟨key, htag, hD, rfl⟩, ?_⟩
    rcases hcase with rfl | ⟨-, hlt⟩
    · exact Or.inl le_rfl
    · exact Or.inr (internalRank_of_between htag hb hlt)
  successor := by
    rintro _ ⟨a, ha, hDa, rfl⟩
    obtain ⟨key, htag, hD, hkey, -⟩ := internal_successor ho ha hDa
    exact ⟨key.encode, hkey, key, htag, hD, rfl⟩

/-- On internal keys the index keys are as `comparator.h` promises, whatever the user's comparator
makes of its keys. -/
theorem internal_shortens (ho : c.OrdersOn D rank) :
    Shortens (internalKeyComparator c) (IsInternal D) (internalRank rank) where
  separator := by
    rintro _ _ ⟨a, ha, hDa, rfl⟩ ⟨b, hb, hDb, rfl⟩ hlt
    obtain ⟨key, htag, hD, hkey, hcase⟩ :=
      internal_separator ho ha hb hDa hDb (internalRank_le ha hb hlt.le)
    refine ⟨key.encode, hkey, ⟨key, htag, hD, rfl⟩, ?_⟩
    rcases hcase with rfl | ⟨habove, hbelow⟩
    · exact ⟨le_rfl, hlt⟩
    · exact ⟨(internalRank_of_between ha htag habove).le, internalRank_of_between htag hb hbelow⟩
  successor := by
    rintro _ ⟨a, ha, hDa, rfl⟩
    obtain ⟨key, htag, hD, hkey, hcase⟩ := internal_successor ho ha hDa
    refine ⟨key.encode, hkey, ⟨key, htag, hD, rfl⟩, ?_⟩
    rcases hcase with rfl | habove
    · exact le_rfl
    · exact (internalRank_of_between ha htag habove).le

end Order

section Lookup

variable {κ : Type*} [LinearOrder κ] {c : Comparator} {D : Bytes → Prop} {rank : Bytes → κ}
  {z : Snappy} {o : Options} {es : List Entry} {e : Entry} {k : Bytes} {s : ℕ}

def entryBytes (e : Entry) : Bytes × Bytes := (e.key.encode, e.value)

theorem isInternal_entries (hs : Sorted D rank es) (htags : ∀ e ∈ es, e.key.tag < 2 ^ 64) :
    ∀ x ∈ es.map entryBytes, IsInternal D x.1 := by
  intro x hx
  obtain ⟨e, he, rfl⟩ := List.mem_map.mp hx
  exact ⟨e.key, htags e he, (hs.valid e he).key_mem, rfl⟩

theorem sorted_entries (hs : Sorted D rank es) (htags : ∀ e ∈ es, e.key.tag < 2 ^ 64) :
    (es.map entryBytes).Pairwise fun x x' => internalRank rank x.1 < internalRank rank x'.1 := by
  rw [List.pairwise_map]
  refine hs.pairwise.imp_of_mem fun {e e'} he he' hbefore => ?_
  exact (internalRank_lt (htags e he) (htags e' he')).mpr (keyBefore_of_before hbefore)

theorem firstFrom_iff (hs : Sorted D rank es) (htags : ∀ e ∈ es, e.key.tag < 2 ^ 64)
    {target : InternalKey} (htarget : target.tag < 2 ^ 64) {x : Bytes × Bytes} :
    FirstFrom (internalRank rank) target.encode (es.map entryBytes) x ↔
      (es.find? fun e => ¬ KeyBefore rank e.key target).map entryBytes = some x := by
  have hfind : (es.find? ((fun a => !EngineIterator.before (internalRank rank) target.encode a) ∘
      entryBytes)) = es.find? fun e => ¬ KeyBefore rank e.key target := by
    refine List.find?_congr fun e he => ?_
    simp only [Function.comp_apply, EngineIterator.before, entryBytes,
      internalRank_lt (htags e he) htarget, decide_not]
  rw [← current_seek (sorted_entries hs htags), Positions.getElem?_ahead, List.find?_map, hfind]

/-- A key that is made for the index is not between a search key and the newest entry of its user
key. -/
theorem unseparated_internal (ho : c.OrdersOn D rank) (hs : Sorted D rank es)
    (htags : ∀ e ∈ es, e.key.tag < 2 ^ 64) (he : e ∈ es) {target : InternalKey}
    (htarget : target.tag < 2 ^ 64) (hrank : rank e.key.userKey = rank target.userKey) :
    Unseparated (internalKeyComparator c) (internalRank rank) target.encode (es.map entryBytes)
      (entryBytes e) := by
  intro x hx hlt sep hsep
  obtain ⟨e', he', rfl⟩ := List.mem_map.mp hx
  obtain ⟨key, htag, -, hkey, hcase⟩ := internal_separator ho (htags e' he') (htags e he)
    (hs.valid e' he').key_mem (hs.valid e he).key_mem
    (hrank ▸ internalRank_le (htags e' he') htarget hlt.le)
  obtain rfl := Except.ok.inj (hsep.symm.trans hkey)
  rcases hcase with rfl | ⟨-, hbelow⟩
  · exact hlt
  · exact internalRank_of_between htag htarget (hrank ▸ hbelow)

theorem alike_internal {userPolicy : Option FilterPolicy} {a b : InternalKey}
    (h : userPolicy.isSome → a.userKey = b.userKey) :
    Alike (userPolicy.map internalFilterPolicy) a.encode b.encode := by
  intro policy hpolicy f hmatch
  obtain ⟨p, hp, rfl⟩ := Option.map_eq_some_iff.mp hpolicy
  have hsame := h (hp ▸ rfl)
  simp only [internalFilterPolicy, extractUserKey_encode] at hmatch ⊢
  rw [← hsame]
  exact hmatch

theorem saveValue_entry (ho : c.OrdersOn D rank) (hs : Sorted D rank es)
    (htags : ∀ e ∈ es, e.key.tag < 2 ^ 64) (he : e ∈ es) (hk : D k) :
    saveValue c k (entryBytes e).1 (entryBytes e).2 =
      .ok (Table.saverOf ((some e).filter fun e => rank e.key.userKey = rank k)) := by
  have hlong : ¬ (entryBytes e).1.length < 8 := by
    rw [entryBytes, InternalKey.length_encode]
    omega
  rw [saveValue, if_neg hlong, entryBytes, InternalKey.decode_encode (htags e he), Stops.ok_bind]
  exact Table.saveValue_eq ho (hs.valid e he) hk

theorem saved_eq (ho : c.OrdersOn D rank) (hs : Sorted D rank es)
    (htags : ∀ e ∈ es, e.key.tag < 2 ^ 64) (hk : D k) (hmax : s ≤ kMaxSequenceNumber)
    {found : Option (Bytes × Bytes)}
    (hfirst : ∀ x, found = some x →
      FirstFrom (internalRank rank) (InternalKey.encode ⟨k, s * 256 + 1⟩) (es.map entryBytes) x)
    (hfound : ∀ e ∈ es,
      FirstFrom (internalRank rank) (InternalKey.encode ⟨k, s * 256 + 1⟩) (es.map entryBytes)
        (entryBytes e) → rank e.key.userKey = rank k → found = some (entryBytes e)) :
    saved c k found = .ok (Table.saverOf ((schema rank).lookup es (rank k) s)) := by
  -- The seek lands on the first entry that is not before the search key; `found` may lack it only
  -- where it is of another user key.
  have hiff : ∀ x, FirstFrom (internalRank rank) (InternalKey.encode ⟨k, s * 256 + 1⟩)
      (es.map entryBytes) x ↔
        (es.find? fun e => ¬ KeyBefore rank e.key ⟨k, s * 256 + 1⟩).map entryBytes = some x :=
    fun x => firstFrom_iff hs htags (seekTag_lt hmax)
  rw [(schema rank).lookup_sorted hs.pairwise, ← MemTable.find_not_passed hs.valid]
  cases hfind : es.find? fun e => ¬ KeyBefore rank e.key ⟨k, s * 256 + 1⟩ with
  | none =>
    have hnone : found = none := by
      cases found with
      | none => rfl
      | some x =>
        have hx := (hiff x).mp (hfirst x rfl)
        rw [hfind] at hx
        cases hx
    rw [hnone]
    rfl
  | some e =>
    have he := List.mem_of_find?_eq_some hfind
    have hat : found = some (entryBytes e) ∨ found = none := by
      cases found with
      | none => exact Or.inr rfl
      | some x =>
        have hx := (hiff x).mp (hfirst x rfl)
        rw [hfind] at hx
        exact Or.inl hx.symm
    rcases hat with hsome | hnone
    · rw [hsome]
      exact saveValue_entry ho hs htags he hk
    · have hne : ¬ rank e.key.userKey = rank k := by
        intro hrank
        have hx := hfound e he ((hiff _).mpr (by rw [hfind]; rfl)) hrank
        rw [hnone] at hx
        cases hx
      have hother : (some e).filter (fun e => decide (rank e.key.userKey = rank k)) = none := by
        rw [Option.filter_some, decide_eq_false hne, if_neg Bool.false_ne_true]
      rw [hnone]
      exact congrArg (fun r => Except.ok (Table.saverOf r)) hother.symm

theorem internal_keeps {userPolicy : FilterPolicy}
    (h : FilterBlock.Keeps userPolicy.toEngineFilterPolicy) :
    FilterBlock.Keeps (internalFilterPolicy userPolicy).toEngineFilterPolicy := by
  intro keys dst dst' hlen hcreate
  have hall : (BitVec.ofNat 32 keys.length : CInt).toInt.toNat = keys.length :=
    FilterBlock.toNat_keyCount hlen
  simp only [internalFilterPolicy, hall, List.take_length, List.drop_length,
    List.append_nil] at hcreate
  split_ifs at hcreate
  have hmap : (keys.map extractUserKey).length = keys.length := List.length_map _
  rw [← hmap] at hcreate hlen
  obtain ⟨f, rfl, hmatch⟩ := h _ dst dst' hlen hcreate
  exact ⟨f, rfl, fun key hkey => hmatch _ (List.mem_map_of_mem hkey)⟩

/-- Whatever the file's calls answer: if the status of a table is good at the end, then a lookup in
its bytes answers with the newest entry of the user key at the sequence number or before it, like
the lookup in any table of entries with the same entries. -/
theorem table_gets_newest (ho : o.comparator.OrdersOn D rank) (hpos : 0 < o.blockRestartInterval)
    (hz : z.Lossless) (hs : Sorted D rank es) (htags : ∀ e ∈ es, e.key.tag < 2 ^ 64)
    (io : ℕ → Status) :
    Ensures (Refuses o.sanitized (es.map entryBytes))
      (build io z o.sanitized (es.map entryBytes)) fun r =>
        r.status = .ok → r.file.length < 2 ^ 64 → ∃ ds metaIndexBlock indexBlock,
          LaidOut z o.sanitized r.file (es.map entryBytes) ds metaIndexBlock indexBlock ∧
          (BlocksFit o.sanitized ds metaIndexBlock indexBlock →
            ∀ userPolicy paranoidChecks verifyChecksums,
              NamesAgree o.sanitized (userPolicy.map internalFilterPolicy) →
              ∃ table, openTable z paranoidChecks (userPolicy.map internalFilterPolicy) r.file =
                  .ok (.inr table) ∧
                (userPolicy = o.filterPolicy →
                  table.filter.map Prod.fst = userPolicy.map internalFilterPolicy) ∧
                (FilterFits table.filter (es.map entryBytes) → ∀ k s, D k → s ≤ kMaxSequenceNumber →
                  (userPolicy.isSome → Identifies rank es k) →
                  get z verifyChecksums o.comparator table r.file ⟨k, s * 256 + 1⟩ =
                      .ok (.ok, Table.saverOf ((schema rank).lookup es (rank k) s)) ∧
                    ∀ t : Table, t.WellFormed D rank → t.entries = es →
                      (t.filter.isSome → Identifies rank es k) →
                      ∀ files : FileAccess, files.Healthy → ∀ number,
                        get z verifyChecksums o.comparator table r.file ⟨k, s * 256 + 1⟩ =
                          t.get o.comparator files number ⟨k, s * 256 + 1⟩)) := by
  have hinternal := internal_orders ho
  refine (build_spec (o := o.sanitized) hinternal (internal_shortens ho) hpos hz
    (isInternal_entries hs htags) (sorted_entries hs htags) io).mono fun r hfinished hok hlen => ?_
  obtain ⟨ds, metaIndexBlock, indexBlock, hlaid, hopen⟩ := (hfinished hok).gets hinternal hpos
    (isInternal_entries hs htags) (sorted_entries hs htags) hlen
  refine ⟨ds, metaIndexBlock, indexBlock, hlaid, fun hfit userPolicy paranoid verify hnames => ?_⟩
  obtain ⟨table, htable, hpolicy, hgets⟩ := hopen hfit _ paranoid verify hnames
  refine ⟨table, htable, fun hsame => hpolicy (hsame ▸ rfl), fun hfilter k s hk hmax hid => ?_⟩
  obtain ⟨found, hget, hfirst, hfound⟩ := hgets (InternalKey.encode ⟨k, s * 256 + 1⟩)
    ⟨_, seekTag_lt hmax, hk, rfl⟩
  have hanswer : get z verify o.comparator table r.file ⟨k, s * 256 + 1⟩ =
      .ok (.ok, Table.saverOf ((schema rank).lookup es (rank k) s)) := by
    have hsaved := saved_eq ho hs htags hk hmax hfirst fun e he hat hrank =>
      hfound hfilter _ hat (unseparated_internal ho hs htags he (seekTag_lt hmax) hrank)
        (alike_internal fun hsome => hid hsome e he hrank)
    have hget' : internalGet z verify (internalKeyComparator o.comparator) table r.file
        (InternalKey.encode ⟨k, s * 256 + 1⟩) = .ok (.ok, found) := hget
    rw [get, hget', Stops.ok_bind]
    simp only [hsaved, Stops.ok_bind]
    rfl
  refine ⟨hanswer, fun t ht hentries hid' files hfiles number => ?_⟩
  subst hentries
  rw [hanswer, Table.get_eq ho hid' ht hk, Table.readFault_healthy hfiles]

theorem table_gets_newest_three :
    let z : Snappy := ⟨fun _ => none, fun _ => none⟩
    let o : Options := ⟨bytewiseComparator, 16, 2, .kSnappyCompression, some (bloomPolicy 10 4096)⟩
    let es : List Entry :=
      [⟨⟨[1], 5 * 256 + 1⟩, [7]⟩, ⟨⟨[1], 3 * 256 + 1⟩, [6]⟩, ⟨⟨[2], 4 * 256⟩, []⟩]
    ∃ r table, build (fun _ => .ok) z o.sanitized (es.map entryBytes) = .ok r ∧
      openTable z true o.sanitized.filterPolicy r.file = .ok (.inr table) ∧
      get z true bytewiseComparator table r.file ⟨[1], 4 * 256 + 1⟩ = .ok (.ok, .found [6]) ∧
      get z true bytewiseComparator table r.file ⟨[2], 9 * 256 + 1⟩ = .ok (.ok, .deleted) ∧
      ∃ f, buildTable (.unlimited bytewiseComparator) 1 ⟨⟨[1], 5 * 256 + 1⟩, [7]⟩ es.tail = .ok f ∧
        get z true bytewiseComparator table r.file ⟨[1], 4 * 256 + 1⟩ =
          f.table.get bytewiseComparator .healthy 1 ⟨[1], 4 * 256 + 1⟩ := by
  intro z o es
  have hz : z.Lossless := fun _ _ h => by cases h
  have hsorted : Sorted (fun _ => True) byteValues es := by
    have hstorable : ∀ e ∈ es, e.key.userKey.length + 8 < 2 ^ 32 := by decide
    have htypes : ∀ e ∈ es, e.key.type ≤ kTypeValue := by decide
    refine ⟨?_, fun e he => ⟨trivial, hstorable e he, htypes e he⟩⟩
    have hlt : ([1] : List ℕ) < [2] := by decide
    simp [es, Schema.Before, schema, InternalKey.sequence, byteValues, hlt]
  have hread := table_gets_newest (o := o) bytewiseComparator_orders (by decide) hz hsorted
    (by decide) fun _ => .ok
  have hsmall : ((build (fun _ => .ok) z o.sanitized (es.map entryBytes)).toOption.any fun r =>
      decide (r.status = .ok ∧ r.file.length < 2 ^ 32) &&
        (openTable z true o.sanitized.filterPolicy r.file).toOption.any (Sum.elim (fun _ => false)
          fun table => table.filter.all fun f => decide (f.2.data.length < 2 ^ 32))) = true := by
    decide +kernel
  cases hr : build (fun _ => .ok) z o.sanitized (es.map entryBytes) with
  | error s =>
    rw [hr] at hsmall
    cases hsmall
  | ok r =>
    rw [hr] at hread hsmall
    obtain ⟨hwritten, hfilter⟩ := Bool.and_eq_true_iff.mp hsmall
    obtain ⟨hok, hlen⟩ := of_decide_eq_true hwritten
    obtain ⟨ds, metaIndexBlock, indexBlock, hlaid, hopen⟩ := hread hok (hlen.trans (by norm_num))
    obtain ⟨table, htable, hpolicy, hgets⟩ := hopen (hlaid.blocksFit hlen) o.filterPolicy true true
      fun p policy hp hpolicy _ => Option.some.inj (hp.symm.trans hpolicy)
    change openTable z true o.sanitized.filterPolicy r.file = .ok (.inr table) at htable
    have hfits : FilterFits table.filter (es.map entryBytes) := by
      intro policy reader heq
      have hsame := hpolicy rfl
      rw [heq] at hsame
      obtain rfl := Option.some.inj hsame
      obtain ⟨hk, hk30⟩ := probeCount_bounds 0 10
      refine ⟨internal_keeps (FilterBlock.facade_keeps hk hk30), by decide, ?_⟩
      rw [htable] at hfilter
      change (table.filter.all fun f => decide (f.2.data.length < 2 ^ 32)) = true at hfilter
      rw [heq, Option.all_some] at hfilter
      exact of_decide_eq_true hfilter
    have hid : ∀ k, Identifies byteValues es k := fun k =>
      .of_injective byteValues_injective es k
    obtain ⟨hget, hlike⟩ := hgets hfits [1] 4 trivial (by decide) fun _ => hid [1]
    obtain ⟨hget', -⟩ := hgets hfits [2] 9 trivial (by decide) fun _ => hid [2]
    obtain ⟨f, hf, hwf, hentries, -⟩ := buildTable_eq (o := .unlimited bytewiseComparator)
      bytewiseComparator_orders (fun _ hp => by cases hp) 1 hsorted
    refine ⟨r, table, rfl, htable, hget.trans rfl, hget'.trans rfl, f, hf, ?_⟩
    exact hlike f.table hwf.table hentries (fun _ => hid [1]) .healthy
      FileAccess.healthy_healthy 1

end Lookup

end TableFormat

end DVELevelDB
