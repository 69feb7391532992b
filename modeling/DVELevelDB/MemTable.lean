import DVELevelDB.WriteBatch
import DVELevelDB.Lib.SkipList

/-! # The memtable -/

namespace DVELevelDB

open VersionStore Coding

/-- `Random::Next`, the state is the last value. -/
def Random.next (seed : ℕ) : ℕ :=
  let product := seed * 16807
  let seed := (product >>> 31) + (product &&& 2147483647)
  if seed > 2147483647 then seed - 2147483647 else seed

def kMaxHeight : ℕ := 12

/-- The loop of `RandomHeight`, with the heights that are left. -/
def randomHeight : ℕ → {h : ℕ // 0 < h} → ℕ → {h : ℕ // 0 < h} × ℕ
  | 0, height, rnd => (height, rnd)
  | n + 1, height, rnd =>
    let rnd := Random.next rnd
    if rnd % 4 = 0 then randomHeight n ⟨height + 1, by omega⟩ rnd else (height, rnd)

structure MemTable where
  table : SkipList Entry
  rnd : ℕ

namespace MemTable

def empty : MemTable := ⟨.empty, 0xdeadbeef &&& 0x7fffffff⟩

def entries (mem : MemTable) : List Entry := mem.table.keys

def compareEntries (c : Comparator) (a b : Entry) : Exec Ordering :=
  InternalKeyComparator.compare c a.key b.key

def add (c : Comparator) (s type : ℕ) (key value : Bytes) (mem : MemTable) : Exec MemTable := do
  let internalKeySize := key.length + 8
  let encodedLen := varintLength internalKeySize + internalKeySize +
    varintLength value.length + value.length
  let p := (encodeVarint32 (internalKeySize % 2 ^ 32)).length + key.length + 8 +
    (encodeVarint32 (value.length % 2 ^ 32)).length
  assertThat (p + value.length = encodedLen)
  let (height, rnd) := randomHeight (kMaxHeight - 1) ⟨1, Nat.one_pos⟩ mem.rnd
  let entry : Entry := ⟨⟨key, (s <<< 8 ||| type) % 2 ^ 64⟩, value⟩
  return { table := ← mem.table.insert (compareEntries c) .assertion entry height, rnd }

def seek (c : Comparator) (key : LookupKey) (mem : MemTable) : Exec (Option Entry) := do
  let rest ← mem.table.findGreaterOrEqual fun entry => do
    return (← InternalKeyComparator.compare c entry.key (← key.memtableKey)) == .lt
  return rest.head?.map (·.key)

/-- A value, a `NotFound` for a deletion, or nothing about the key. -/
def get (c : Comparator) (key : LookupKey) (mem : MemTable) :
    Exec (Option (Except Status Bytes)) := do
  match ← mem.seek c key with
  | some entry =>
    if (← c.compare entry.key.userKey key.userKey) = .eq then
      if entry.key.type = kTypeValue then
        return some (.ok entry.value)
      else if entry.key.type = kTypeDeletion then
        return some (.error (.make .notFound [] []))
      else
        return none
    else
      return none
  | none => return none

/-- The effect of `MemTableInserter` on the next sequence number and the memtable. -/
def inserterPut (c : Comparator) (s : ℕ × MemTable) (key value : Bytes) :
    Exec (ℕ × MemTable) := do
  return (s.1 + 1, ← s.2.add c s.1 kTypeValue key value)

def inserterDelete (c : Comparator) (s : ℕ × MemTable) (key : Bytes) : Exec (ℕ × MemTable) := do
  return (s.1 + 1, ← s.2.add c s.1 kTypeDeletion key [])

end MemTable

def WriteBatch.insertInto (c : Comparator) (b : WriteBatch) (mem : MemTable) :
    Exec (Status × MemTable) := do
  let (status, _, mem) ←
    b.iterate (MemTable.inserterPut c) (MemTable.inserterDelete c) (b.sequence, mem)
  return (status, mem)

/-- Keys whose internal key still has a length of 32 bits. -/
def StorableKey (key : Bytes) : Prop := key.length + 8 < 2 ^ 32

/-- Keys a read can ask for: the memtable reads back enough bytes to hold a tag. -/
def ReadableKey (key : Bytes) : Prop := 8 ≤ (key.length + 8) % 2 ^ 32

instance (key : Bytes) : Decidable (StorableKey key) := inferInstanceAs (Decidable (_ < _))

instance (key : Bytes) : Decidable (ReadableKey key) := inferInstanceAs (Decidable (_ ≤ _))

theorem StorableKey.readable {key : Bytes} (h : StorableKey key) : ReadableKey key := by
  unfold StorableKey at h
  unfold ReadableKey
  omega

/-- An entry as every part of the store keeps it. -/
structure Entry.Valid (D : Bytes → Prop) (e : Entry) : Prop where
  key_mem : D e.key.userKey
  storable : StorableKey e.key.userKey
  type_le : e.key.type ≤ kTypeValue

section Shape

variable {κ : Type*} [LinearOrder κ] {c : Comparator} {D : Bytes → Prop} {rank : Bytes → κ}

/-- The shape of an ordered part of the store. -/
structure Sorted (D : Bytes → Prop) (rank : Bytes → κ) (L : List Entry) : Prop where
  pairwise : L.Pairwise (schema rank).Before
  valid : ∀ e ∈ L, e.Valid D

theorem Sorted.nil : Sorted D rank [] := ⟨List.Pairwise.nil, by simp⟩

theorem Sorted.uniqueSeqs {L : List Entry} (h : Sorted D rank L) :
    (schema rank).UniqueSeqs L :=
  Schema.UniqueSeqs.of_sorted _ h.pairwise

theorem Entry.Valid.mono {D' : Bytes → Prop} {e : Entry} (h : e.Valid D) (hD : ∀ k, D k → D' k) :
    e.Valid D' :=
  ⟨hD _ h.key_mem, h.storable, h.type_le⟩

theorem Sorted.mono {D' : Bytes → Prop} {L : List Entry} (h : Sorted D rank L)
    (hD : ∀ k, D k → D' k) : Sorted D' rank L :=
  ⟨h.pairwise, fun e he => (h.valid e he).mono hD⟩

theorem Sorted.sublist {L L' : List Entry} (h : Sorted D rank L) (hs : L'.Sublist L) :
    Sorted D rank L' :=
  ⟨h.pairwise.sublist hs, fun e he => h.valid e (hs.subset he)⟩

/-- The entries in the place of `k` are entries of `k`. -/
def Identifies (rank : Bytes → κ) (L : List Entry) (k : Bytes) : Prop :=
  ∀ e ∈ L, rank e.key.userKey = rank k → e.key.userKey = k

omit [LinearOrder κ] in
theorem Identifies.of_injective (hinj : Function.Injective rank) (L : List Entry) (k : Bytes) :
    Identifies rank L k :=
  fun _ _ h => hinj h

theorem Entry.type_cases {e : Entry} (h : e.key.type ≤ kTypeValue) :
    e.key.type = kTypeValue ∨ e.key.type = kTypeDeletion := by
  simp only [kTypeValue, kTypeDeletion] at *
  omega

end Shape

namespace MemTable

variable {κ : Type*} [LinearOrder κ] {c : Comparator} {D : Bytes → Prop} {rank : Bytes → κ}
  {mem : MemTable} {key value : Bytes} {s : ℕ}

theorem split_of_sorted {L : List Entry} (h : Sorted D rank L) (key : InternalKey) :
    L.Pairwise fun a b => KeyBefore rank b.key key → KeyBefore rank a.key key :=
  h.pairwise.imp fun hab hb => (keyBefore_of_before hab).trans hb

theorem split_nodes (h : Sorted D rank mem.entries) (key : InternalKey) :
    SkipList.Split (fun e => decide (KeyBefore rank e.key key)) mem.table.nodes := by
  have := split_of_sorted h key
  rw [entries, SkipList.keys, List.pairwise_map] at this
  exact this.imp fun hab hb => decide_eq_true (hab (of_decide_eq_true hb))

section Get

variable {target : InternalKey} {k : Bytes}

theorem seek_eq {key : LookupKey} (ho : c.OrdersOn D rank) (h : Sorted D rank mem.entries)
    (ht : key.memtableKey = .ok target) (hD : D target.userKey) :
    mem.seek c key =
      .ok (mem.entries.find? fun e => ¬ KeyBefore rank e.key target) := by
  have hfind : mem.table.findGreaterOrEqual (fun entry => do
        return (← InternalKeyComparator.compare c entry.key (← key.memtableKey)) == .lt) =
      .ok (mem.table.nodes.dropWhile fun n => decide (KeyBefore rank n.key.key target)) := by
    refine SkipList.findGreaterOrEqual_eq (p := fun e : Entry => decide (KeyBefore rank e.key target))
      (fun n hn => ?_) (split_nodes h target)
    have hv := h.valid n.key (List.mem_map_of_mem hn)
    simp only [ht, Stops.ok_bind]
    rw [InternalKeyComparator.compare_eq ho hv.key_mem hD]
    by_cases hb : KeyBefore rank n.key.key target
    · simp only [hb, if_true, decide_true]; rfl
    · by_cases hb' : KeyBefore rank target n.key.key <;>
        simp only [hb, hb', if_true, if_false, decide_false] <;> rfl
  rw [seek, hfind, Stops.ok_bind, entries, SkipList.keys, List.find?_map]
  simp only [Function.comp_def, decide_not]
  rw [List.find?_not_eq_head?_dropWhile]
  rfl

def answer (e : Entry) : Except Status Bytes :=
  if e.key.type = kTypeValue then .ok e.value else .error (.make .notFound [] [])

theorem get_of_seek {key : LookupKey} {r : Option Entry} (ho : c.OrdersOn D rank)
    (hr : mem.seek c key = .ok r) (hv : ∀ e ∈ r, e.Valid D) (hk : D key.userKey) :
    mem.get c key = .ok ((r.filter fun e => rank e.key.userKey = rank key.userKey).map answer) := by
  rw [get, hr, Stops.ok_bind]
  cases r with
  | none => rfl
  | some e =>
    have hve := hv e rfl
    dsimp only
    rw [ho.compare_eq _ _ hve.key_mem hk, Stops.ok_bind]
    by_cases hrank : rank e.key.userKey = rank key.userKey
    · rw [if_pos ((cmp_eq_eq_iff _ _).mpr hrank)]
      rcases Entry.type_cases hve.type_le with ht | ht <;>
        simp [hrank, ht, answer, kTypeValue, kTypeDeletion, pure, Except.pure]
    · rw [if_neg (mt (cmp_eq_eq_iff _ _).mp hrank)]
      simp [hrank, pure, Except.pure]

theorem find_not_passed {L : List Entry} (hv : ∀ e ∈ L, e.Valid D) :
    L.find? (fun e => ¬ KeyBefore rank e.key ⟨k, s * 256 + 1⟩) =
      L.find? (fun e => ¬ (schema rank).Passed (rank k) s e) := by
  induction L with
  | nil => rfl
  | cons e L ih =>
    have hiff := keyBefore_lookup_iff rank (k := k) (s := s)
      (hv e List.mem_cons_self).type_le
    simp only [List.find?_cons, hiff, ih fun e' h' => hv e' (List.mem_cons_of_mem _ h')]

theorem get_eq_lookup (ho : c.OrdersOn D rank) (h : Sorted D rank mem.entries) (hk : D k)
    (hlen : StorableKey k) (hs : s ≤ kMaxSequenceNumber) :
    mem.get c ⟨k, s * 256 + 1⟩ =
      .ok (((schema rank).lookup mem.entries (rank k) s).map answer) := by
  have hseek : mem.seek c ⟨k, s * 256 + 1⟩ =
      .ok (mem.entries.find? fun e => ¬ KeyBefore rank e.key ⟨k, s * 256 + 1⟩) :=
    seek_eq ho h (LookupKey.memtableKey_eq ⟨k, s * 256 + 1⟩ hlen (seekTag_lt hs)) hk
  rw [get_of_seek ho hseek ?_ hk]
  · rw [(schema rank).lookup_sorted h.pairwise, find_not_passed h.valid]
    rfl
  · intro e he
    exact h.valid e (List.mem_of_find?_eq_some he)

theorem lookup_of_not_storable {L : List Entry} (hinj : Function.Injective rank)
    (hv : ∀ e ∈ L, e.Valid D) (hlen : ¬ StorableKey k) :
    (schema rank).lookup L (rank k) s = none := by
  rw [(schema rank).lookup_eq_none_iff]
  intro e he hvis
  exact hlen (hinj hvis.1 ▸ (hv e he).storable)

theorem get_of_not_storable (ho : c.OrdersOn D rank) (hall : ∀ k, D k)
    (hinj : Function.Injective rank) (h : Sorted D rank mem.entries)
    (hlen : ¬ StorableKey k) (hread : ReadableKey k) :
    mem.get c ⟨k, s * 256 + 1⟩ = .ok none := by
  obtain ⟨target, ht⟩ := LookupKey.memtableKey_isOk ⟨k, s * 256 + 1⟩ hread
  have hseek := seek_eq ho h ht (hall _)
  have hv : ∀ e ∈ mem.entries.find? (fun e => ¬ KeyBefore rank e.key target),
      e.Valid D := fun e he => h.valid e (List.mem_of_find?_eq_some he)
  rw [get_of_seek ho hseek hv (hall _)]
  cases hr : mem.entries.find? (fun e => ¬ KeyBefore rank e.key target) with
  | none => rfl
  | some e =>
    have hne : rank e.key.userKey ≠ rank k := by
      intro heq
      exact hlen (hinj heq ▸ (hv e hr).storable)
    simp [hne]

end Get

section Add

theorem add_assertion (hk : ¬ StorableKey key) (hlen : key.length < 2 ^ 32)
    (hv : value.length < 2 ^ 32) (t : ℕ) : mem.add c s t key value = .error .assertion := by
  unfold StorableKey at hk
  have hbig := varintLength_of_large (v := key.length + 8) (by omega)
  have hsmall : (encodeVarint32 ((key.length + 8) % 2 ^ 32)).length = 1 := by
    rw [encodeVarint32_length (by omega), varintLength_byte (by omega)]
  have hval : (encodeVarint32 (value.length % 2 ^ 32)).length = varintLength value.length := by
    rw [Nat.mod_eq_of_lt hv, encodeVarint32_length hv]
  have hne : (decide ((encodeVarint32 ((key.length + 8) % 2 ^ 32)).length + key.length + 8 +
      (encodeVarint32 (value.length % 2 ^ 32)).length + value.length =
      varintLength (key.length + 8) + (key.length + 8) + varintLength value.length +
        value.length)) = false := by
    rw [decide_eq_false_iff_not, hsmall, hval]
    omega
  rw [add]
  simp only [hne, assertThat_false, Stops.error_bind]

theorem add_eq (ho : c.OrdersOn D rank) (h : Sorted D rank mem.entries) (hD : D key)
    (hk : StorableKey key) (hv : value.length < 2 ^ 32) {t : ℕ} (ht : t ≤ kTypeValue)
    (hs : s ≤ kMaxSequenceNumber) (hnew : ∀ e ∈ mem.entries, e.key.sequence < s) :
    ∃ mem', mem.add c s t key value = .ok mem' ∧ Sorted D rank mem'.entries ∧
      mem'.entries.Perm (⟨⟨key, s * 256 + t⟩, value⟩ :: mem.entries) := by
  let e : Entry := ⟨⟨key, s * 256 + t⟩, value⟩
  have ht' : t < 256 := lt_of_le_of_lt ht (by decide)
  have htag : (s <<< 8 ||| t) % 2 ^ 64 = s * 256 + t := by
    rw [kMaxSequenceNumber_eq] at hs
    rw [pack_eq ht', Nat.mod_eq_of_lt (by omega)]
  have hseq : e.key.sequence = s := by rw [InternalKey.sequence_eq]; simp only [e]; omega
  have htype : e.key.type = t := by rw [InternalKey.type_eq]; simp only [e]; omega
  have hsum : decide ((encodeVarint32 ((key.length + 8) % 2 ^ 32)).length + key.length + 8 +
      (encodeVarint32 (value.length % 2 ^ 32)).length + value.length =
      varintLength (key.length + 8) + (key.length + 8) + varintLength value.length +
        value.length) = true := by
    unfold StorableKey at hk
    rw [Nat.mod_eq_of_lt hk, Nat.mod_eq_of_lt hv, encodeVarint32_length hk,
      encodeVarint32_length hv, decide_eq_true_iff]
    omega
  have hve : e.Valid D := ⟨hD, hk, htype.trans_le ht⟩
  have hcmp : ∀ x ∈ mem.entries, KeyBefore rank x.key e.key ∨ KeyBefore rank e.key x.key := by
    intro x hx
    have hlt := hnew x hx
    rw [InternalKey.sequence_eq] at hlt
    rcases KeyBefore.total rank x.key e.key with h1 | h1 | ⟨_, h1⟩
    · exact Or.inl h1
    · exact Or.inr h1
    · simp only [e] at h1; omega
  have hbefore : ∀ x ∈ mem.entries, KeyBefore rank x.key e.key ↔ (schema rank).Before x e := by
    intro x hx
    have hlt := hnew x hx
    refine ⟨fun hb => ?_, keyBefore_of_before⟩
    rcases hb with hb | ⟨_, hb⟩
    · exact Or.inl hb
    · rw [InternalKey.sequence_eq] at hlt
      simp only [e] at hb
      omega
  have hafter : ∀ x ∈ mem.entries, KeyBefore rank e.key x.key → (schema rank).Before e x := by
    intro x hx hb
    rcases hb with hb | ⟨hr, _⟩
    · exact Or.inl hb
    · exact Or.inr ⟨hr, by simpa [hseq] using hnew x hx⟩
  have hlt : ∀ n ∈ mem.table.nodes, compareEntries c n.key e =
      .ok (if decide (KeyBefore rank n.key.key e.key) = true then .lt else .gt) := by
    intro n hn
    have hx : n.key ∈ mem.entries := List.mem_map_of_mem hn
    rw [compareEntries, InternalKeyComparator.compare_eq ho (h.valid _ hx).key_mem hD]
    by_cases hb : KeyBefore rank n.key.key e.key
    · simp [hb]
    · simp [hb, (hcmp _ hx).resolve_left hb]
  have hgt : ∀ n ∈ mem.table.nodes, ¬ decide (KeyBefore rank n.key.key e.key) = true →
      compareEntries c e n.key = .ok .lt := by
    intro n hn hp
    have hx : n.key ∈ mem.entries := List.mem_map_of_mem hn
    have hb := (hcmp _ hx).resolve_left (by simpa using hp)
    rw [compareEntries, InternalKeyComparator.compare_eq ho hD (h.valid _ hx).key_mem, if_pos hb]
  let height := randomHeight (kMaxHeight - 1) ⟨1, Nat.one_pos⟩ mem.rnd
  obtain ⟨table, hins, hkeys⟩ := SkipList.insert_eq mem.table Trap.assertion height.1 hlt hgt
    (split_nodes h e.key)
  refine ⟨⟨table, height.2⟩, ?_, ⟨?_, ?_⟩, ?_⟩
  · rw [add]
    simp only [hsum, assertThat_true, Stops.ok_bind, htag]
    rw [show mem.table.insert (compareEntries c) .assertion ⟨⟨key, s * 256 + t⟩, value⟩ _ = _
      from hins]
    rfl
  · have hsorted := (schema rank).sorted_insert (e := e)
      (p := fun x => decide (KeyBefore rank x.key e.key)) h.pairwise
      (fun x hx => by rw [decide_eq_true_iff]; exact hbefore x hx)
      (fun x hx => (hcmp x hx).imp (hbefore x hx).mp (hafter x hx))
    simpa only [entries, hkeys] using hsorted
  · intro x hx
    simp only [entries, hkeys, List.mem_append, List.mem_cons] at hx
    rcases hx with hx | rfl | hx
    · exact h.valid x ((List.takeWhile_prefix _).subset hx)
    · exact hve
    · exact h.valid x ((List.dropWhile_suffix _).subset hx)
  · simp only [entries, hkeys]
    refine List.perm_middle.trans (List.Perm.cons _ ?_)
    rw [List.takeWhile_append_dropWhile]

end Add

section InsertInto

open WriteBatch

variable {records : List Record} {n : ℕ}

theorem handle_inserter (record : Record) : handle (inserterPut c) (inserterDelete c) (n, mem) record =
    (mem.add c n record.type record.key (record.value.getD [])).map fun mem' => (n + 1, mem') := by
  cases record <;> rfl

omit [LinearOrder κ] in
variable (rank) in
theorem entry_of_record (record : Record) :
    let e : Entry := ⟨⟨record.key, n * 256 + record.type⟩, record.value.getD []⟩
    (schema rank).key e = (record.update rank).1 ∧ (schema rank).val e = (record.update rank).2 ∧
      (schema rank).seq e = n := by
  have hpack : ∀ t < 256, (n * 256 + t) / 256 = n ∧ (n * 256 + t) % 256 = t := by omega
  obtain ⟨hdiv, hmod⟩ := hpack record.type (lt_of_le_of_lt record.type_le (by decide))
  simp only [schema, InternalKey.sequence_eq, InternalKey.type_eq, hdiv, hmod]
  cases record <;> simp [Record.update, Record.key, Record.value, Record.type, kTypeValue,
    kTypeDeletion]

theorem insertRecords (ho : c.OrdersOn D rank) (h : Sorted D rank mem.entries)
    (hr : ∀ r ∈ records, D r.key ∧ StorableKey r.key ∧ r.Fits)
    (hn : n + records.length ≤ kMaxSequenceNumber) (hnew : ∀ e ∈ mem.entries, e.key.sequence ≤ n) :
    ∃ mem' es, records.foldlM (handle (inserterPut c) (inserterDelete c)) (n + 1, mem) =
        .ok (n + 1 + records.length, mem') ∧
      Sorted D rank mem'.entries ∧ mem'.entries.Perm (es ++ mem.entries) ∧
      Stamped (schema rank) (n + 1) (records.map (Record.update rank)) es := by
  induction records generalizing n mem with
  | nil => exact ⟨mem, [], rfl, h, List.Perm.refl _, Stamped.nil _⟩
  | cons record records ih =>
    simp only [List.length_cons] at hn
    obtain ⟨hD, hk, hf⟩ := hr record List.mem_cons_self
    have hv : (record.value.getD []).length < 2 ^ 32 := by
      cases record with
      | put key value => exact hf.2
      | delete key => simp [Record.value]
    have ht := record.type_le
    obtain ⟨mem₁, hadd, hsorted, hperm⟩ := add_eq (s := n + 1) ho h hD hk hv ht (by omega)
      fun e he => Nat.lt_succ_of_le (hnew e he)
    obtain ⟨hkey, hval, hseq⟩ := entry_of_record rank (n := n + 1) record
    have hnew₁ : ∀ e ∈ mem₁.entries, e.key.sequence ≤ n + 1 := by
      intro e he
      rcases List.mem_cons.mp (hperm.mem_iff.mp he) with rfl | he
      · exact hseq.le
      · exact (hnew e he).trans (Nat.le_succ n)
    obtain ⟨mem', es, hfold, hsorted', hperm', hst⟩ :=
      ih hsorted (fun r hr' => hr r (List.mem_cons_of_mem _ hr')) (by omega) hnew₁
    refine ⟨mem', _ :: es, ?_, hsorted', ?_, Stamped.cons hkey hval hseq hst⟩
    · rw [List.foldlM_cons, handle_inserter, hadd]
      simp only [Except.map, Stops.ok_bind, hfold, List.length_cons]
      congr 2
      omega
    · exact hperm'.trans ((hperm.append_left es).trans List.perm_middle)

/-- A key without room for its tag stops the process. -/
theorem insertRecords_assertion (ho : c.OrdersOn D rank) (h : Sorted D rank mem.entries)
    (hr : ∀ r ∈ records, D r.key ∧ r.Fits) (hbad : ∃ r ∈ records, ¬ StorableKey r.key)
    (hn : n + records.length ≤ kMaxSequenceNumber) (hnew : ∀ e ∈ mem.entries, e.key.sequence ≤ n) :
    records.foldlM (handle (inserterPut c) (inserterDelete c)) (n + 1, mem) = .error .assertion := by
  induction records generalizing n mem with
  | nil => simp at hbad
  | cons record records ih =>
    simp only [List.length_cons] at hn
    obtain ⟨hD, hf⟩ := hr record List.mem_cons_self
    have hv : (record.value.getD []).length < 2 ^ 32 := by
      cases record with
      | put key value => exact hf.2
      | delete key => simp [Record.value]
    have hklen : record.key.length < 2 ^ 32 := by
      cases record with
      | put key value => exact hf.1
      | delete key => exact hf
    rw [List.foldlM_cons, handle_inserter]
    by_cases hk : StorableKey record.key
    · have ht := record.type_le
      obtain ⟨mem₁, hadd, hsorted, hperm⟩ := add_eq (s := n + 1) ho h hD hk hv ht (by omega)
        fun e he => Nat.lt_succ_of_le (hnew e he)
      have hnew₁ : ∀ e ∈ mem₁.entries, e.key.sequence ≤ n + 1 := by
        intro e he
        rcases List.mem_cons.mp (hperm.mem_iff.mp he) with rfl | he
        · exact (entry_of_record rank (n := n + 1) record).2.2.le
        · exact (hnew e he).trans (Nat.le_succ n)
      have hbad' : ∃ r ∈ records, ¬ StorableKey r.key := by
        obtain ⟨r, hmem, hnot⟩ := hbad
        rcases List.mem_cons.mp hmem with rfl | hmem
        · exact absurd hk hnot
        · exact ⟨r, hmem, hnot⟩
      rw [hadd]
      exact ih hsorted (fun r hr' => hr r (List.mem_cons_of_mem _ hr')) hbad' (by omega) hnew₁
    · rw [add_assertion hk hklen hv]
      rfl

variable {b : WriteBatch}

theorem insertInto_eq_fold : b.insertInto c mem = (do
    let s ← b.records.foldlM (handle (inserterPut c) (inserterDelete c)) (b.sequence, mem)
    return (b.parseStatus, s.2)) := by
  rw [insertInto, iterate_eq]
  simp

end InsertInto

end MemTable

end DVELevelDB
