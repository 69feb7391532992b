import DVELevelDB.MemTable
import DVELevelDB.Lib.BinarySearch

/-! # Table files -/

namespace DVELevelDB

open VersionStore

structure Block (α : Type) where
  entries : List α
  restartInterval : ℕ

/-- An entry of the index block: a key not before any key of the block it points to. -/
structure IndexEntry where
  key : InternalKey
  offset : ℕ
  block : Block Entry

/-- A table as it was written; a filter answers for the blocks at an offset. -/
structure Table where
  index : Block IndexEntry
  filter : Option (ℕ → Bytes → Bool)

def Table.entries (t : Table) : List Entry := t.index.entries.flatMap fun ie => ie.block.entries

/-- What a call to the file system or a check of the bytes read ends with. -/
inductive FileResult where
  | ok
  | errno (errorNumber : ℕ)
  | corrupt (msg : Bytes)
  deriving DecidableEq, Repr

/-- The outcomes of all file-system calls of a read. -/
structure FileAccess where
  dbname : Bytes
  strerror : ℕ → Bytes
  cached : ℕ → Bool
  openTableFile : ℕ → Option ℕ
  openSSTTableFile : ℕ → Option ℕ
  readIndex : ℕ → FileResult
  readBlock : ℕ → ℕ → FileResult

namespace FileAccess

def makeFileName (dbname : Bytes) (number : ℕ) (suffix : String) : Bytes :=
  dbname ++ utf8 ("/" ++ String.ofList ((toString number).toList.leftpad 6 '0') ++ "." ++ suffix)

def tableFileName (io : FileAccess) (number : ℕ) : Bytes := makeFileName io.dbname number "ldb"

def toStatus (io : FileAccess) (number : ℕ) : FileResult → Status
  | .ok => .ok
  | .errno errorNumber => posixError io.strerror (io.tableFileName number) errorNumber
  | .corrupt msg => .make .corruption msg []

/-- A failed open under both names reports the first failure. -/
def findTable (io : FileAccess) (number : ℕ) : Status :=
  if io.cached number then
    .ok
  else
    match io.openTableFile number with
    | none => io.toStatus number (io.readIndex number)
    | some errorNumber =>
      match io.openSSTTableFile number with
      | none => io.toStatus number (io.readIndex number)
      | some _ => posixError io.strerror (io.tableFileName number) errorNumber

def blockReader (io : FileAccess) (number : ℕ) (ie : IndexEntry) : Status :=
  io.toStatus number (io.readBlock number ie.offset)

/-- Every file and block can be read. -/
def Healthy (io : FileAccess) : Prop :=
  (∀ number, io.findTable number = .ok) ∧ ∀ number ie, io.blockReader number ie = .ok

def healthy : FileAccess where
  dbname := []
  strerror _ := []
  cached _ := true
  openTableFile _ := none
  openSSTTableFile _ := none
  readIndex _ := .ok
  readBlock _ _ := .ok

theorem healthy_healthy : healthy.Healthy := ⟨fun _ => rfl, fun _ _ => rfl⟩

end FileAccess

inductive SaverState where
  | notFound
  | found (value : Bytes)
  | deleted
  | corrupt
  deriving DecidableEq, Repr

def saveValue (c : Comparator) (userKey : Bytes) (e : Entry) : Exec SaverState :=
  match parseInternalKey e.key with
  | none => return .corrupt
  | some parsed => do
    if (← c.compare parsed.userKey userKey) = .eq then
      return if parsed.type = kTypeValue then .found e.value else .deleted
    else
      return .notFound

def beforeKey (c : Comparator) (k key : InternalKey) : Exec Bool := do
  return (← InternalKeyComparator.compare c key k) == .lt

namespace Table

variable (c : Comparator) (io : FileAccess)

def seekIndex (t : Table) (k : InternalKey) : Exec (Option IndexEntry) := do
  return (← BinarySearch.searchRestarts (fun ie => beforeKey c k ie.key) t.index.restartInterval
    t.index.entries).head?

def seekBlock (b : Block Entry) (k : InternalKey) : Exec (Option Entry) := do
  return (← BinarySearch.searchRestarts (fun e => beforeKey c k e.key) b.restartInterval
    b.entries).head?

def keyMayMatch (t : Table) (ie : IndexEntry) (k : InternalKey) : Bool :=
  match t.filter with
  | some filter => filter ie.offset k.userKey
  | none => true

/-- One block can hold the key; it is read unless the filter rules the key out. -/
def internalGet (number : ℕ) (t : Table) (k : InternalKey) : Exec (Status × SaverState) := do
  match ← t.seekIndex c k with
  | none => return (.ok, .notFound)
  | some ie =>
    if t.keyMayMatch ie k then
      let s := io.blockReader number ie
      if s.isOk then
        match ← seekBlock c ie.block k with
        | none => return (.ok, .notFound)
        | some e => return (.ok, ← saveValue c k.userKey e)
      else
        return (s, .notFound)
    else
      return (.ok, .notFound)

def get (number : ℕ) (t : Table) (k : InternalKey) : Exec (Status × SaverState) :=
  if (io.findTable number).isOk then
    internalGet c io number t k
  else
    return (io.findTable number, .notFound)

end Table

section WellFormed

variable {κ : Type*} [LinearOrder κ] {c : Comparator} {D : Bytes → Prop} {rank : Bytes → κ}

/-- The key of an index entry is not before any key of its block. -/
structure IndexEntry.Covers (D : Bytes → Prop) (rank : Bytes → κ) (ie : IndexEntry) : Prop where
  key_mem : D ie.key.userKey
  nonempty : ie.block.entries ≠ []
  upper : ∀ e ∈ ie.block.entries, ¬ KeyBefore rank ie.key e.key

/-- The key of an index entry is the last key of its block, or before all later user keys. -/
def IndexEntry.Separates (rank : Bytes → κ) (ie ie' : IndexEntry) : Prop :=
  (∃ e ∈ ie.block.entries, e.key = ie.key) ∨
    ∀ e ∈ ie'.block.entries, rank ie.key.userKey < rank e.key.userKey

structure Table.WellFormed (D : Bytes → Prop) (rank : Bytes → κ) (t : Table) : Prop where
  sorted : Sorted D rank t.entries
  covers : ∀ ie ∈ t.index.entries, ie.Covers D rank
  separates : t.index.entries.Pairwise (IndexEntry.Separates rank)
  filter : ∀ filter ∈ t.filter, ∀ ie ∈ t.index.entries, ∀ e ∈ ie.block.entries,
    filter ie.offset e.key.userKey = true

theorem Table.WellFormed.mono {D' : Bytes → Prop} {t : Table} (h : t.WellFormed D rank)
    (hD : ∀ k, D k → D' k) : t.WellFormed D' rank := by
  refine ⟨h.sorted.mono hD, ?_, h.separates, h.filter⟩
  intro ie hie
  have hc := h.covers ie hie
  exact ⟨hD _ hc.key_mem, hc.nonempty, hc.upper⟩

namespace Table

variable {t : Table} {L : List IndexEntry} {k : Bytes} {s number : ℕ} {io : FileAccess}

/-- The block in which a search key has to be looked for. -/
def blockFor (rank : Bytes → κ) (L : List IndexEntry) (target : InternalKey) :
    Option IndexEntry :=
  L.find? fun ie => ¬ KeyBefore rank ie.key target

theorem blockFor_mem {target : InternalKey} {ie : IndexEntry}
    (h : blockFor rank L target = some ie) : ie ∈ L := List.mem_of_find?_eq_some h

theorem lookup_blocks (hs : Sorted D rank (L.flatMap fun ie => ie.block.entries))
    (hc : ∀ ie ∈ L, ie.Covers D rank) (hsep : L.Pairwise (IndexEntry.Separates rank)) :
    (schema rank).lookup (L.flatMap fun ie => ie.block.entries) (rank k) s =
      (blockFor rank L ⟨k, s * 256 + 1⟩).bind fun ie =>
        (schema rank).lookup ie.block.entries (rank k) s := by
  induction L with
  | nil => rfl
  | cons ie L ih =>
    rw [List.flatMap_cons] at hs ⊢
    have hrest : Sorted D rank (L.flatMap fun ie => ie.block.entries) :=
      hs.sublist (List.sublist_append_right ..)
    have hblock : Sorted D rank ie.block.entries := hs.sublist (List.sublist_append_left ..)
    obtain ⟨hsep1, hsep2⟩ := List.pairwise_cons.mp hsep
    have hcov := hc ie List.mem_cons_self
    by_cases hb : KeyBefore rank ie.key ⟨k, s * 256 + 1⟩
    · have habs : (schema rank).Absent ie.block.entries (rank k) s := by
        intro e he hvis
        have hpass := KeyBefore.of_not_before (hcov.upper e he) hb
        rw [keyBefore_lookup_iff rank (hblock.valid e he).type_le] at hpass
        exact (schema rank).not_passed_of_visible hvis hpass
      rw [(schema rank).lookup_of_absent_left habs,
        ih hrest (fun ie' h' => hc ie' (List.mem_cons_of_mem _ h')) hsep2]
      simp [blockFor, hb]
    · rw [(schema rank).lookup_append ((schema rank).above_of_sorted hs.pairwise)
        hblock.uniqueSeqs hrest.uniqueSeqs]
      have hfor : blockFor rank (ie :: L) ⟨k, s * 256 + 1⟩ = some ie := by simp [blockFor, hb]
      rw [hfor, Option.bind_some]
      cases hl : (schema rank).lookup ie.block.entries (rank k) s with
      | some e => rfl
      | none =>
        rw [Option.none_or, (schema rank).lookup_eq_none_iff]
        have hnone := ((schema rank).lookup_eq_none_iff).mp hl
        intro e' he' hvis
        obtain ⟨ie', hie', hmem⟩ := List.mem_flatMap.mp he'
        rcases hsep1 ie' hie' with ⟨e, he, hkey⟩ | hlt
        · have hpass : ¬ (schema rank).Passed (rank k) s e := by
            rw [← keyBefore_lookup_iff rank (hblock.valid e he).type_le, hkey]
            exact hb
          rcases (List.pairwise_append.mp hs.pairwise).2.2 e he e' he' with hlt | ⟨heq, _⟩
          · exact hpass (Or.inl (hvis.1 ▸ hlt))
          · exact hnone e he ((schema rank).visible_of_not_passed hpass (heq.trans hvis.1))
        · have h1 := hlt e' hmem
          refine hb (Or.inl (h1.trans_eq ?_))
          exact hvis.1

theorem lookup_eq_blockFor (h : t.WellFormed D rank) :
    (schema rank).lookup t.entries (rank k) s =
      (blockFor rank t.index.entries ⟨k, s * 256 + 1⟩).bind fun ie =>
        (schema rank).lookup ie.block.entries (rank k) s :=
  lookup_blocks h.sorted h.covers h.separates

theorem sorted_block (h : t.WellFormed D rank) {ie : IndexEntry} (hie : ie ∈ t.index.entries) :
    Sorted D rank ie.block.entries :=
  by
  refine h.sorted.sublist ?_
  rw [entries, List.flatMap_def]
  exact List.sublist_flatten_of_mem (List.mem_map_of_mem hie)

theorem entries_split (L : List Entry) (h : Sorted D rank L) (key : InternalKey) :
    BinarySearch.Split (fun e => decide (KeyBefore rank e.key key)) L :=
  (MemTable.split_of_sorted h key).imp fun hab hb => decide_eq_true (hab (of_decide_eq_true hb))

theorem index_split (h : t.WellFormed D rank) (key : InternalKey) :
    BinarySearch.Split (fun ie => decide (KeyBefore rank ie.key key)) t.index.entries := by
  have hblocks : t.index.entries.Pairwise fun ie ie' =>
      ∀ e ∈ ie.block.entries, ∀ e' ∈ ie'.block.entries, (schema rank).Before e e' := by
    have := h.sorted.pairwise
    rw [entries, List.flatMap_def, List.pairwise_flatten, List.pairwise_map] at this
    exact this.2
  refine ((h.separates.and hblocks).imp_of_mem fun {ie ie'} hie hie' hrel hb => ?_)
  obtain ⟨hsep, hlt⟩ := hrel
  obtain ⟨e', he'⟩ := List.exists_mem_of_ne_nil _ (h.covers ie' hie').nonempty
  have hlast := KeyBefore.of_not_before ((h.covers ie' hie').upper e' he') (of_decide_eq_true hb)
  refine decide_eq_true ?_
  rcases hsep with ⟨e, he, hkey⟩ | hsep
  · exact hkey ▸ (keyBefore_of_before (hlt e he e' he')).trans hlast
  · have hfirst : KeyBefore rank ie.key e'.key := Or.inl (hsep e' he')
    exact hfirst.trans hlast

theorem beforeKey_eq (ho : c.OrdersOn D rank) {key target : InternalKey} (hk : D key.userKey)
    (ht : D target.userKey) :
    beforeKey c target key = .ok (decide (KeyBefore rank key target)) := by
  rw [beforeKey, InternalKeyComparator.compare_eq ho hk ht]
  by_cases hb : KeyBefore rank key target
  · simp only [hb, if_true, decide_true]; rfl
  · by_cases hb' : KeyBefore rank target key <;>
      simp only [hb, hb', if_true, if_false, decide_false] <;> rfl

theorem seekIndex_eq (ho : c.OrdersOn D rank) (h : t.WellFormed D rank) {target : InternalKey}
    (ht : D target.userKey) :
    t.seekIndex c target = .ok (blockFor rank t.index.entries target) := by
  rw [seekIndex, BinarySearch.searchRestarts_eq (p := fun ie => decide (KeyBefore rank ie.key target))
    (fun ie hie => beforeKey_eq ho (h.covers ie hie).key_mem ht) (index_split h target),
    Stops.ok_bind, ← List.find?_not_eq_head?_dropWhile]
  simp only [blockFor, decide_not]
  rfl

theorem seekBlock_eq (ho : c.OrdersOn D rank) {b : Block Entry} (h : Sorted D rank b.entries)
    {target : InternalKey} (ht : D target.userKey) :
    seekBlock c b target = .ok (b.entries.find? fun e => ¬ KeyBefore rank e.key target) := by
  rw [seekBlock, BinarySearch.searchRestarts_eq (p := fun e => decide (KeyBefore rank e.key target))
    (fun e he => beforeKey_eq ho (h.valid e he).key_mem ht) (entries_split _ h target),
    Stops.ok_bind, ← List.find?_not_eq_head?_dropWhile]
  simp only [decide_not]
  rfl

def saverOf : Option Entry → SaverState
  | none => .notFound
  | some e => if e.key.type = kTypeValue then .found e.value else .deleted

theorem saveValue_eq (ho : c.OrdersOn D rank) {e : Entry} (he : e.Valid D) (hk : D k) :
    saveValue c k e = .ok (saverOf ((some e).filter fun e => rank e.key.userKey = rank k)) := by
  rw [saveValue, parseInternalKey, if_pos he.type_le]
  dsimp only
  rw [ho.compare_eq _ _ he.key_mem hk, Stops.ok_bind]
  by_cases hr : rank e.key.userKey = rank k
  · rw [if_pos ((cmp_eq_eq_iff _ _).mpr hr)]
    simp [hr, saverOf, Option.filter_some, pure, Except.pure]
  · rw [if_neg (mt (cmp_eq_eq_iff _ _).mp hr)]
    simp [hr, saverOf, Option.filter_some, pure, Except.pure]

/-- The file-system failure that ends a search for a key in a table. -/
def readFault (rank : Bytes → κ) (io : FileAccess) (number : ℕ) (t : Table) (target : InternalKey) :
    Option Status :=
  if (io.findTable number).isOk then
    (blockFor rank t.index.entries target).bind fun ie =>
      if t.keyMayMatch ie target ∧ ¬ (io.blockReader number ie).isOk then
        some (io.blockReader number ie)
      else
        none
  else
    some (io.findTable number)

theorem get_eq (ho : c.OrdersOn D rank) (hid : t.filter.isSome → Identifies rank t.entries k)
    (h : t.WellFormed D rank) (hk : D k) : t.get c io number ⟨k, s * 256 + 1⟩ =
      .ok (match readFault rank io number t ⟨k, s * 256 + 1⟩ with
        | some fault => (fault, .notFound)
        | none => (.ok, saverOf ((schema rank).lookup t.entries (rank k) s))) := by
  by_cases hopen : (io.findTable number).isOk
  · rw [get, if_pos hopen, internalGet, seekIndex_eq ho h hk, Stops.ok_bind,
      lookup_eq_blockFor h, readFault, if_pos hopen]
    cases hfor : blockFor rank t.index.entries ⟨k, s * 256 + 1⟩ with
    | none => rfl
    | some ie =>
      have hie := blockFor_mem hfor
      have hblock := sorted_block h hie
      simp only [Option.bind_some]
      by_cases hmay : t.keyMayMatch ie ⟨k, s * 256 + 1⟩
      · by_cases hread : (io.blockReader number ie).isOk
        · rw [if_pos hmay, if_pos hread, seekBlock_eq ho hblock hk, Stops.ok_bind,
            (schema rank).lookup_sorted hblock.pairwise, MemTable.find_not_passed hblock.valid]
          simp only [hmay, hread, not_true_eq_false, and_false, if_false]
          cases hfind : ie.block.entries.find? fun e => ¬ (schema rank).Passed (rank k) s e with
          | none => rfl
          | some e =>
            have hv := hblock.valid e (List.mem_of_find?_eq_some hfind)
            simp only [saveValue_eq ho hv hk]
            rfl
        · simp [hmay, hread, pure, Except.pure]
      · have hnone : (schema rank).lookup ie.block.entries (rank k) s = none := by
          rw [(schema rank).lookup_eq_none_iff]
          intro e he hvis
          refine hmay ?_
          rw [keyMayMatch]
          cases hf : t.filter with
          | none => rfl
          | some filter =>
            have hkey : e.key.userKey = k :=
              hid (hf ▸ rfl) e (List.mem_flatMap.mpr ⟨ie, hie, he⟩) hvis.1
            exact hkey ▸ h.filter filter hf ie hie e he
        simp [hmay, hnone, saverOf, pure, Except.pure]
  · simp [get, readFault, hopen, pure, Except.pure]

theorem readFault_not_ok {target : InternalKey} {fault : Status}
    (h : readFault rank io number t target = some fault) : fault.isOk = false := by
  unfold readFault at h
  split_ifs at h with hopen
  · obtain ⟨ie, -, hie⟩ := Option.bind_eq_some_iff.mp h
    split_ifs at hie with hread
    cases hie
    simpa using hread.2
  · cases h
    simpa using hopen

theorem readFault_healthy (hio : io.Healthy) (target : InternalKey) :
    readFault rank io number t target = none := by
  simp only [readFault, hio.1, hio.2, Status.isOk_ok, if_true, not_true_eq_false, and_false,
    if_false]
  cases blockFor rank t.index.entries target <;> rfl

end Table

end WellFormed

end DVELevelDB
