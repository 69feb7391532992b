import DVELevelDB.Bloom
import DVELevelDB.CodingKeys
import DVELevelDB.ManualCompaction
import DVELevelDB.UnchangedKeys

/-! # Bloom filters and decoded keys

The same calls on a database with a bloom filter and on one without. Reads find the place of a
key by the comparator, a bloom filter knows it by its bytes.
-/

namespace DVELevelDB

open VersionStore DB

/-- A bloom filter policy, as long as its filters fit into memory. -/
def bloomFilterPolicy (bitsPerKey : {n : CInt // 1 ≤ n.toInt}) : FilterPolicy where
  createFilter keys :=
    let filterPolicy := newBloomFilterPolicy 0 bitsPerKey
    let bytes := (max 64 (keys.length * bitsPerKey.1.toInt).toNat + 7) / 8
    let array := List.replicate bytes 0 ++ [UInt8.ofNat filterPolicy.k]
    match filterPolicy.addKeys (bytes * 8) keys array with
    | .ok filter => filter
    | .error _ => []
  keyMayMatch key filter := DVECLevelDBNewBloomFilterPolicy.keyMayMatch key filter

section Bloom

variable (bitsPerKey : {n : CInt // 1 ≤ n.toInt})

theorem bloomFilterPolicy_lawful : (bloomFilterPolicy bitsPerKey).Lawful := by
  intro keys key hkey
  obtain ⟨-, hk30⟩ := probeCount_bounds 0 bitsPerKey
  have hb : 0 < (max 64 (keys.length * bitsPerKey.1.toInt).toNat + 7) / 8 := by omega
  obtain ⟨f, hf, hfilter⟩ := @addKeys_isFilter (newBloomFilterPolicy 0 bitsPerKey) keys _ hb
  simp only [bloomFilterPolicy, hf]
  apply (hfilter.keyMayMatch hb hk30 key).mpr
  intro q hq
  exact List.mem_flatMap.mpr ⟨key, hkey, hq⟩

/-- It is the filter that `createFilterForKeys` builds, while the counts fit. -/
theorem createFilterForKeys_eq {keys : List Bytes} (hkeys : keys.length < 2 ^ 31)
    {available : ℕ} (hfit : (max 64 (keys.length * bitsPerKey.1.toInt).toNat + 7) / 8 + 1 ≤ available) :
    DVECLevelDBNewBloomFilterPolicy.createFilterForKeys (newBloomFilterPolicy 0 bitsPerKey)
      available keys [] = .ok ((bloomFilterPolicy bitsPerKey).createFilter keys) := by
  have hn : (BitVec.ofNat 32 keys.length).toInt = keys.length := by
    rw [BitVec.toInt_eq_toNat_cond, BitVec.toNat_ofNat]
    split_ifs <;> omega
  have hbytes := filterBytes_of_nonneg 0 bitsPerKey.1 (BitVec.ofNat 32 keys.length)
    (Int.mul_nonneg (by omega) (by have := bitsPerKey.2; omega))
  rw [hn] at hbytes
  have htake : keys.take (BitVec.ofNat 32 keys.length).toInt.toNat = keys := by
    rw [hn, Int.toNat_natCast, List.take_length]
  have hb : 0 < (max 64 (keys.length * bitsPerKey.1.toInt).toNat + 7) / 8 := by omega
  obtain ⟨f, hf, hfilter⟩ := @addKeys_isFilter (newBloomFilterPolicy 0 bitsPerKey) keys _ hb
  have hne : f ≠ [] := by
    rw [← List.length_pos_iff, hfilter.length]
    omega
  have hcreate : (newBloomFilterPolicy 0 bitsPerKey).createFilter available keys
      (BitVec.ofNat 32 keys.length) [] = .ok ([] ++ f) := by
    rw [BloomFilterPolicy.createFilter]
    simp only [hbytes, htake, hf]
    rw [if_neg (by rw [List.length_nil]; omega)]
    rfl
  rw [DVECLevelDBNewBloomFilterPolicy.createFilterForKeys_of_ok hne hcreate]
  simp only [bloomFilterPolicy, hf]

end Bloom

namespace CodingRuns

open StringCalls (Answer)

/-- A call with string keys on a `LevelDB<CodingKeyComparator<Key>>`. -/
inductive Call where
  | value (key : String)
  | setValue (data : Bytes) (key : String) (sync : Bool)
  | removeValue (key : String) (sync : Bool)
  | writeBatch (operations : List (String × Option Bytes)) (sync : Bool)
  | compact (startKey endKey : Option String)
  | compactRange (lower upper : String)

/-- What the environment does from the call before on, until a call returns. -/
structure Environment where
  background : List BackgroundEvent
  write : WriteEvents
  range : RangeEvents
  files : FileAccess

namespace Call

def stringCall (env : Environment) : Call → StringCalls.StringCall
  | value key => .value key env.files none
  | setValue data key sync => .setValue data key env.write sync
  | removeValue key sync => .removeValue key env.write sync
  | writeBatch operations sync => .writeBatch operations env.write sync
  | compact startKey endKey => .compact startKey endKey env.range
  | compactRange lower upper => .compactRange lower upper env.range

def reads : Call → Option String
  | value key => some key
  | _ => none

def record : String × Option Bytes → Record
  | (key, some data) => .put (utf8 key) data
  | (key, none) => .delete (utf8 key)

def records : Call → List Record
  | setValue data key _ => [record (key, some data)]
  | removeValue key _ => [record (key, none)]
  | writeBatch operations _ => operations.map record
  | _ => []

def writes : Call → List String
  | setValue _ key _ => [key]
  | removeValue key _ => [key]
  | writeBatch operations _ => operations.map Prod.fst
  | _ => []

def bounds : Call → List String
  | compact startKey endKey => startKey.toList ++ endKey.toList
  | compactRange lower upper => [lower, upper]
  | _ => []

end Call

section Runs

variable (canonical : List Char → List Char) (o : Options) (keyComparator : EncodingComparator)

def opened : Options :=
  { o with comparator := engineComparator keyComparator.toLevelDBKeyComparator }

def perform (call : Call) (env : Environment) (db : DB) : Exec (Answer × DB) := do
  let db ← backgroundCalls (opened o keyComparator) env.background db
  StringCalls.perform canonical o keyComparator db (call.stringCall env)

def run : List (Call × Environment) → DB → Exec (List Answer)
  | [], _ => return []
  | (call, env) :: calls, db => do
    let (answer, db) ← perform canonical o keyComparator call env db
    return answer :: (← run calls db)

end Runs

section Meaning

variable {κ : Type*} [LinearOrder κ] (key : CodingKeyType κ)

/-- What a call answers if the database is a map from decoded keys to values. -/
def Call.answer (m : WithBot κ → Option Bytes) : Call → Answer
  | value string => .value (m (key.rank (utf8 string)))
  | _ => .done

def Call.effect (m : WithBot κ → Option Bytes) (call : Call) : WithBot κ → Option Bytes :=
  applyUpdates m (call.records.map (Record.update key.rank))

def answers : List Call → (WithBot κ → Option Bytes) → List Answer
  | [], _ => []
  | call :: calls, m => call.answer key m :: answers calls (call.effect key m)

/-- Every key and every bound decodes, and keys and values are as long as the engine can store. -/
structure Call.Accepted (call : Call) : Prop where
  reads : ∀ string ∈ call.reads, key.Decodes (utf8 string) ∧ StorableKey (utf8 string)
  writes : ∀ string ∈ call.writes, key.Decodes (utf8 string) ∧ StorableKey (utf8 string)
  bounds : ∀ string ∈ call.bounds, key.Decodes (utf8 string)
  fits : ∀ r ∈ call.records, r.Fits
  length : call.records.length < 2 ^ 31

/-- No call reads a key for which another string, decoding to the same key, was written. -/
def Distinguished : List String → List Call → Prop
  | _, [] => True
  | written, call :: calls =>
    (∀ string ∈ call.reads, ∀ other ∈ written,
      key.rank (utf8 other) = key.rank (utf8 string) → other = string) ∧
    Distinguished (written ++ call.writes) calls

structure Environment.Healthy (env : Environment) : Prop where
  background : ∀ io ∈ env.background, io.Healthy
  write : ∀ sync, env.write.Healthy sync
  range : env.range.Healthy
  files : env.files.Healthy

def Written (strings : List String) (keyData : Bytes) : Prop :=
  ∃ string ∈ strings, keyData = utf8 string

end Meaning

section Correctness

variable {κ : Type*} [LinearOrder κ] {key : CodingKeyType κ} {o : Options}
  {written more : List String} {m : WithBot κ → Option Bytes} {db : DB}

theorem Written.append_left {keyData : Bytes} (h : Written written keyData) :
    Written (written ++ more) keyData := by
  obtain ⟨string, hs, heq⟩ := h
  exact ⟨string, List.mem_append_left _ hs, heq⟩

/-- The database holds the contents `m` under keys that were written. -/
structure Holds (key : CodingKeyType κ) (written : List String) (m : WithBot κ → Option Bytes)
    (db : DB) : Prop where
  decodes : ∀ string ∈ written, key.Decodes (utf8 string)
  settled : db.Settled (Written written) key.rank
  bgError : db.bgError.isOk = true
  view : db.view key.rank = m

theorem orders (h : ∀ string ∈ written, key.Decodes (utf8 string)) :
    (opened o key.codingKeyComparator).comparator.OrdersOn (Written written) key.rank := by
  apply CodingKeyType.comparator_orders
  rintro _ ⟨string, hs, rfl⟩
  exact h string hs

theorem places (h : ∀ string ∈ written, key.Decodes (utf8 string)) {bound : String}
    (hb : key.Decodes (utf8 bound)) :
    (opened o key.codingKeyComparator).comparator.Places (Written written) key.rank (utf8 bound) := by
  refine CodingKeyType.comparator_places ?_ hb
  rintro _ ⟨string, hs, rfl⟩
  exact h string hs

variable (key) in
theorem fresh_holds : Holds key [] (fun _ => none) fresh := by
  exact ⟨by simp, fresh_settled, rfl, rfl⟩

theorem Holds.rearranged {healthy : Prop} {db' : DB} (h : Holds key written m db)
    (hr : Rearranged (Written written) key.rank healthy db db') (hh : healthy) :
    Holds key written m db' :=
  ⟨h.decodes, hr.settled h.settled, hr.bgError hh ▸ h.bgError, hr.view.trans h.view⟩

theorem Holds.extend (h : Holds key written m db)
    (hmore : ∀ string ∈ more, key.Decodes (utf8 string)) : Holds key (written ++ more) m db := by
  refine ⟨?_, ⟨h.settled.toArranged.mono fun _ hk => hk.append_left, h.settled.unheld⟩, h.bgError,
    h.view⟩
  intro string hs
  rcases List.mem_append.mp hs with hs | hs
  · exact h.decodes string hs
  · exact hmore string hs

variable (hp : ∀ p ∈ o.filterPolicy, p.Lawful)

include hp in
theorem background_holds (h : Holds key written m db) (hmax : db.lastSequence < kMaxSequenceNumber)
    {ios : List BackgroundEvent} (hio : ∀ io ∈ ios, io.Healthy) :
    Stops.Ensures (· = .blocked) (backgroundCalls (opened o key.codingKeyComparator) ios db)
      fun db' => Holds key written m db' ∧ db'.lastSequence = db.lastSequence := by
  have ho := orders (o := o) h.decodes
  have hwhole := h.settled.callsKeepKeysWhole ho hp ios hmax
  refine (backgroundCalls_spec ho hp ios h.settled.toArranged hmax hwhole).mono fun db' hr => ?_
  exact ⟨h.rearranged hr hio, hr.lastSequence⟩

include hp in
variable (more) in
theorem write_holds (h : Holds key written m db) {io : WriteEvents} {sync : Bool}
    (hio : io.Healthy sync) (hdecodes : ∀ string ∈ more, key.Decodes (utf8 string)) {b : WriteBatch}
    {ops : List Record} (hb : b.Denotes ops) (hlen : ops.length < 2 ^ 31)
    (hkeys : ∀ r ∈ ops, Written more r.key ∧ StorableKey r.key)
    (hmax : db.lastSequence < kMaxSequenceNumber)
    (hn : db.lastSequence + ops.length ≤ kMaxSequenceNumber) :
    Stops.Ensures (· = .blocked)
      (db.write (StringCalls.openedWith o key.codingKeyComparator) io sync (some b)) fun r =>
        r.1 = .ok ∧ r.2.2.lastSequence = db.lastSequence + ops.length ∧
          Holds key (written ++ more) (applyUpdates m (ops.map (Record.update key.rank))) r.2.2 := by
  have hext := h.extend hdecodes
  have ho := orders (o := o) hext.decodes
  have hwhole := hext.settled.keepsKeysWhole_write ho hp hmax io
  have hD : ∀ r ∈ ops, Written (written ++ more) r.key := by
    intro r hr
    obtain ⟨string, hs, heq⟩ := (hkeys r hr).1
    exact ⟨string, List.mem_append_right _ hs, heq⟩
  have hwrite := write_denoted ho hp hext.settled.toArranged hmax hwhole hio h.bgError hb hlen hD hn
  refine (hwrite.imp ?_).mono fun r hr => ?_
  · rintro t (⟨ht, -⟩ | ⟨-, r, hr, hbad⟩)
    · exact ht
    · exact absurd (hkeys r hr).2 hbad
  obtain ⟨hs, hbg, -, hadv, hlast, hview⟩ := hr
  exact ⟨hs, hlast, hext.decodes, hadv.settled hext.settled, hbg, hview.trans (by rw [h.view])⟩

theorem Holds.value_eq (h : Holds key written m db) {files : FileAccess} (hfiles : files.Healthy)
    {string : String} (hdecodes : key.Decodes (utf8 string)) (hstorable : StorableKey (utf8 string))
    (hdist : ∀ other ∈ written, key.rank (utf8 other) = key.rank (utf8 string) → other = string) :
    LevelDB.value (opened o key.codingKeyComparator).comparator files none (utf8 string) db =
      .ok (.ok (m (key.rank (utf8 string)))) := by
  have hext := @Holds.extend _ _ _ _ [string] _ _ h (by simpa using hdecodes)
  have hlayered := hext.settled.wellFormed.layered
  have hid : ∀ level, ∀ f ∈ db.version.files level, f.table.filter.isSome →
      Identifies key.rank f.entries (utf8 string) := by
    intro level f hf _ e he hrank
    have hw := h.settled.wellFormed.layered.version.file level f hf
    obtain ⟨other, hother, heq⟩ := (hw.table.sorted.valid e he).key_mem
    rw [heq] at hrank
    rw [heq, hdist other hother hrank]
  have hkey : Written (written ++ [string]) (utf8 string) := ⟨string, by simp, rfl⟩
  have ho := orders (o := o) hext.decodes
  have hsr : Searchable (opened o key.codingKeyComparator).comparator (Written (written ++ [string]))
      key.rank db (utf8 string) db.lastSequence :=
    .of_storable ho hkey hstorable hid hext.settled.wellFormed.last_le
  have hlatest : Option.getD none db.lastSequence = db.lastSequence := rfl
  have hread := DVECLevelDB.dataForKey_searchable ho hfiles hlayered hlatest hsr
  rw [LevelDB.value, hread, Stops.ok_bind]
  have hview : db.viewAt key.rank db.lastSequence (key.rank (utf8 string)) =
      m (key.rank (utf8 string)) := congrFun h.view _
  rw [hview]
  cases m (key.rank (utf8 string)) <;> rfl

section Calls

variable {sync : Bool} {io : WriteEvents}

include hp in
theorem operation_holds (h : Holds key written m db) (hio : io.Healthy sync) (op : Operation)
    {string : String} (hkey : op.key = utf8 string) (hfits : op.direct.Fits)
    (hdecodes : key.Decodes (utf8 string)) (hstorable : StorableKey (utf8 string))
    (hn : db.lastSequence + 1 ≤ kMaxSequenceNumber) :
    Stops.Ensures (· = .blocked)
      (op.perform (StringCalls.openedWith o key.codingKeyComparator) io sync db) fun r =>
        r.1 = none ∧ Holds key (written ++ [string]) (applyUpdates m [op.direct.update key.rank]) r.2 ∧
          r.2.lastSequence = db.lastSequence + 1 := by
  rw [Operation.perform_eq]
  have hkeys : ∀ r ∈ [op.direct], Written [string] r.key ∧ StorableKey r.key := by
    intro r hr
    rw [List.mem_singleton.mp hr, Operation.direct_key, hkey]
    exact ⟨⟨string, by simp, rfl⟩, hstorable⟩
  have hwrite := write_holds [string] hp h hio (by simpa using hdecodes)
    (Record.batch_denotes hfits) (by simp) hkeys hn (by simpa using hn)
  refine hwrite.bind fun r hr => ?_
  obtain ⟨status, b, db'⟩ := r
  obtain ⟨rfl, hlast, hholds⟩ := hr
  exact ⟨rfl, hholds, by simpa using hlast⟩

def operation : String × Option Bytes → Operation
  | (string, some data) => .setData (some data) (utf8 string)
  | (string, none) => .removeValueForKey (utf8 string)

theorem encodeOperations_eq (operations : List (String × Option Bytes)) :
    StringCalls.encodeOperations key.codingKeyComparator operations =
      .ok (operations.map operation) := by
  induction operations with
  | nil => rfl
  | cons x operations ih =>
    obtain ⟨string, data⟩ := x
    rw [StringCalls.encodeOperations, ih]
    cases data <;> rfl

theorem batched_operation (x : String × Option Bytes) : (operation x).batched = Call.record x := by
  rcases x with ⟨string, _ | data⟩ <;> rfl

theorem operation_fits {x : String × Option Bytes} (h : (Call.record x).Fits) :
    (operation x).Fits := by
  rcases x with ⟨string, _ | data⟩
  · exact h
  · exact h

theorem record_key (x : String × Option Bytes) : (Call.record x).key = utf8 x.1 := by
  rcases x with ⟨string, _ | data⟩ <;> rfl

include hp in
theorem batch_holds (h : Holds key written m db) (hio : io.Healthy sync)
    {operations : List (String × Option Bytes)}
    (hc : (Call.writeBatch operations sync).Accepted key)
    (hmax : db.lastSequence < kMaxSequenceNumber)
    (hn : db.lastSequence + operations.length ≤ kMaxSequenceNumber) :
    Stops.Ensures (· = .blocked)
      (DVECLevelDBWriteBatch.writeWithOptions
        (StringCalls.openedWith o key.codingKeyComparator) io sync
        ((operations.map operation).foldl Operation.record .clear) db) fun r =>
        r.1 = none ∧ Holds key (written ++ operations.map Prod.fst)
          (applyUpdates m ((operations.map Call.record).map (Record.update key.rank))) r.2.2 ∧
          r.2.2.lastSequence = db.lastSequence + operations.length := by
  have hfits : ∀ op ∈ operations.map operation, op.Fits := by
    intro op hop
    obtain ⟨x, hx, rfl⟩ := List.mem_map.mp hop
    exact operation_fits (hc.fits _ (List.mem_map_of_mem hx))
  have hb := foldl_record_denotes hfits WriteBatch.Denotes.clear
  have hrecords : (operations.map operation).map Operation.batched =
      operations.map Call.record := by
    rw [List.map_map]
    apply List.map_congr_left
    intro x _
    exact batched_operation x
  rw [List.nil_append, hrecords] at hb
  have hkeys : ∀ r ∈ operations.map Call.record,
      Written (operations.map Prod.fst) r.key ∧ StorableKey r.key := by
    intro r hr
    obtain ⟨x, hx, rfl⟩ := List.mem_map.mp hr
    rw [record_key]
    have hmem : x.1 ∈ operations.map Prod.fst := List.mem_map_of_mem hx
    exact ⟨⟨x.1, hmem, rfl⟩, (hc.writes x.1 hmem).2⟩
  have hwrite := write_holds (operations.map Prod.fst) hp h hio
    (fun string hs => (hc.writes string hs).1) hb hc.length hkeys hmax (by simpa using hn)
  refine hwrite.bind fun r hr => ?_
  obtain ⟨status, b, db'⟩ := r
  obtain ⟨rfl, hlast, hholds⟩ := hr
  exact ⟨rfl, hholds, by simpa using hlast⟩

variable {canonical : List Char → List Char} {call : Call} {env : Environment}

include hp in
theorem compact_holds (h : Holds key written m db) (hmax : db.lastSequence < kMaxSequenceNumber)
    {io : RangeEvents} (hio : io.Healthy) (startKey endKey : Option String)
    (hbounds : ∀ string ∈ startKey.toList ++ endKey.toList, key.Decodes (utf8 string)) :
    Stops.Ensures (· = .blocked)
      (StringCalls.performData o key.codingKeyComparator db
        (.compact (startKey.map utf8) (endKey.map utf8) io))
      fun r => r.1 = .done ∧ Holds key written m r.2 ∧ r.2.lastSequence = db.lastSequence := by
  have hplaces : ∀ {bound : Option String}, (∀ string ∈ bound.toList, key.Decodes (utf8 string)) →
      ∀ k ∈ bound.map utf8, (opened o key.codingKeyComparator).comparator.Places (Written written)
        key.rank k := by
    intro bound hb k hk
    obtain ⟨string, hs, rfl⟩ := Option.map_eq_some_iff.mp hk
    exact places h.decodes (hb string (by simpa using hs))
  have hrange := compactRange_spec (orders h.decodes) hp h.settled hmax io
    (hplaces fun string hs => hbounds string (List.mem_append_left _ hs))
    (hplaces fun string hs => hbounds string (List.mem_append_right _ hs))
  refine hrange.bind fun db' hr => ?_
  exact ⟨rfl, h.rearranged hr hio, hr.lastSequence⟩

/-- What a call does to a database that holds `m`. -/
def Performed (key : CodingKeyType κ) (written : List String) (m : WithBot κ → Option Bytes)
    (n : ℕ) (call : Call) (r : Answer × DB) : Prop :=
  r.1 = call.answer key m ∧ Holds key (written ++ call.writes) (call.effect key m) r.2 ∧
    r.2.lastSequence = n + call.records.length

include hp in
variable (canonical) in
theorem stringCall_holds (h : Holds key written m db) (hc : call.Accepted key) (henv : env.Healthy)
    (hdist : ∀ string ∈ call.reads, ∀ other ∈ written,
      key.rank (utf8 other) = key.rank (utf8 string) → other = string)
    (hn : db.lastSequence + call.records.length < kMaxSequenceNumber) :
    Stops.Ensures (· = .blocked)
      (StringCalls.perform canonical o key.codingKeyComparator db (call.stringCall env))
      (Performed key written m db.lastSequence call) := by
  have hmax : db.lastSequence < kMaxSequenceNumber := (Nat.le_add_right _ _).trans_lt hn
  have hkept : ∀ {db' : DB}, Holds key written m db' → Holds key (written ++ []) m db' := by
    intro db' h'
    rwa [List.append_nil]
  cases call with
  | value string =>
    obtain ⟨hdecodes, hstorable⟩ := hc.reads string rfl
    have hread := h.value_eq (o := o) henv.files hdecodes hstorable (hdist string rfl)
    change Stops.Ensures _ (LevelDB.value (opened o key.codingKeyComparator).comparator env.files none
      (utf8 string) db >>= _) _
    rw [hread]
    exact ⟨rfl, hkept h, rfl⟩
  | setValue data string sync =>
    obtain ⟨hdecodes, hstorable⟩ := hc.writes string (by simp [Call.writes])
    have hop := operation_holds hp h (henv.write sync) (.setData (some data) (utf8 string)) rfl
      (hc.fits _ List.mem_cons_self) hdecodes hstorable hn.le
    refine hop.bind fun r hr => ?_
    obtain ⟨e, db'⟩ := r
    obtain ⟨rfl, hr⟩ := hr
    exact ⟨rfl, hr⟩
  | removeValue string sync =>
    obtain ⟨hdecodes, hstorable⟩ := hc.writes string (by simp [Call.writes])
    have hop := operation_holds hp h (henv.write sync) (.removeValueForKey (utf8 string)) rfl
      (hc.fits _ List.mem_cons_self) hdecodes hstorable hn.le
    refine hop.bind fun r hr => ?_
    obtain ⟨e, db'⟩ := r
    obtain ⟨rfl, hr⟩ := hr
    exact ⟨rfl, hr⟩
  | writeBatch operations sync =>
    simp only [Call.records, List.length_map] at hn
    have hbatch := batch_holds hp h (henv.write sync) hc hmax hn.le
    simp only [Call.stringCall, StringCalls.perform, StringCalls.encodeCall, encodeOperations_eq]
    refine hbatch.bind fun r hr => ?_
    obtain ⟨e, b, db'⟩ := r
    obtain ⟨rfl, hholds, hlast⟩ := hr
    refine ⟨rfl, hholds, ?_⟩
    simpa [Call.records] using hlast
  | compact startKey endKey =>
    have hcompact := compact_holds hp h hmax henv.range startKey endKey hc.bounds
    cases startKey <;> cases endKey <;>
      exact hcompact.mono fun r hr => ⟨hr.1, hkept hr.2.1, hr.2.2⟩
  | compactRange lower upper =>
    have hcompact := compact_holds hp h hmax henv.range (some lower) (some upper) hc.bounds
    exact hcompact.mono fun r hr => ⟨hr.1, hkept hr.2.1, hr.2.2⟩

include hp in
variable (canonical) in
theorem perform_holds (h : Holds key written m db) (hc : call.Accepted key) (henv : env.Healthy)
    (hdist : ∀ string ∈ call.reads, ∀ other ∈ written,
      key.rank (utf8 other) = key.rank (utf8 string) → other = string)
    (hn : db.lastSequence + call.records.length < kMaxSequenceNumber) :
    Stops.Ensures (· = .blocked) (perform canonical o key.codingKeyComparator call env db)
      (Performed key written m db.lastSequence call) := by
  have hmax : db.lastSequence < kMaxSequenceNumber := (Nat.le_add_right _ _).trans_lt hn
  refine (background_holds hp h hmax henv.background).bind fun db₁ h₁ => ?_
  obtain ⟨hholds, hlast⟩ := h₁
  have hcall := stringCall_holds hp canonical hholds hc henv hdist (by rwa [hlast])
  rwa [hlast] at hcall

include hp in
variable (canonical) in
/-- A run answers as a map from decoded keys to values does, or waits for ever. -/
theorem run_answers {calls : List (Call × Environment)} (h : Holds key written m db)
    (hc : ∀ x ∈ calls, x.1.Accepted key) (henv : ∀ x ∈ calls, x.2.Healthy)
    (hdist : Distinguished key written (calls.map Prod.fst))
    (hn : db.lastSequence + ((calls.map Prod.fst).map fun call => call.records.length).sum <
      kMaxSequenceNumber) :
    Stops.Ensures (· = .blocked) (run canonical o key.codingKeyComparator calls db)
      fun r => r = answers key (calls.map Prod.fst) m := by
  induction calls generalizing db written m with
  | nil => rfl
  | cons x calls ih =>
    obtain ⟨call, env⟩ := x
    obtain ⟨hread, hrest⟩ := hdist
    simp only [List.map_cons, List.sum_cons] at hn
    have hperform := perform_holds hp canonical h (hc _ List.mem_cons_self)
      (henv _ List.mem_cons_self) hread (by dsimp only; omega)
    refine hperform.bind fun r hr => ?_
    obtain ⟨answer, db₁⟩ := r
    obtain ⟨hanswer, hholds, hlast⟩ := hr
    dsimp only at hanswer hholds hlast
    have hcalls := ih hholds (fun y hy => hc y (List.mem_cons_of_mem _ hy))
      (fun y hy => henv y (List.mem_cons_of_mem _ hy)) hrest (by rw [hlast]; omega)
    refine hcalls.bind fun r hr => ?_
    rw [hr, hanswer]
    rfl

end Calls

end Correctness

section Filters

variable {κ : Type*} [LinearOrder κ] (key : CodingKeyType κ)
  (bitsPerKey : {n : CInt // 1 ≤ n.toInt}) (canonical : List Char → List Char)
  {o₁ o₂ : Options} {calls : List Call}
  {run₁ run₂ : List (Call × Environment)}

/-- A bloom filter changes no answer as long as no read asks for a key string in place of
another one that decodes to the same key. -/
theorem bloom_filter_unnoticed (h₁ : o₁.filterPolicy = some (bloomFilterPolicy bitsPerKey))
    (h₂ : o₂.filterPolicy = none) (hcalls : ∀ call ∈ calls, call.Accepted key)
    (hdist : Distinguished key [] calls)
    (hn : (calls.map fun call => call.records.length).sum < kMaxSequenceNumber)
    (hr₁ : run₁.map Prod.fst = calls) (hr₂ : run₂.map Prod.fst = calls)
    (henv₁ : ∀ x ∈ run₁, x.2.Healthy) (henv₂ : ∀ x ∈ run₂, x.2.Healthy) :
    Stops.Ensures (· = .blocked) (run canonical o₁ key.codingKeyComparator run₁ fresh)
      fun answers₁ =>
        Stops.Ensures (· = .blocked) (run canonical o₂ key.codingKeyComparator run₂ fresh)
          fun answers₂ => answers₁ = answers₂ := by
  have hp₁ : ∀ p ∈ o₁.filterPolicy, p.Lawful := by
    rw [h₁]
    rintro _ ⟨⟩
    exact bloomFilterPolicy_lawful bitsPerKey
  have hp₂ : ∀ p ∈ o₂.filterPolicy, p.Lawful := by
    rw [h₂]
    exact fun _ hp => absurd hp (Option.not_mem_none _)
  have hc : ∀ {r : List (Call × Environment)}, r.map Prod.fst = calls →
      ∀ x ∈ r, x.1.Accepted key := by
    intro r hr x hx
    exact hcalls _ (hr ▸ List.mem_map_of_mem hx)
  have hstart : fresh.lastSequence + (calls.map fun call => call.records.length).sum <
      kMaxSequenceNumber := by
    rw [show fresh.lastSequence = 0 from rfl, Nat.zero_add]
    exact hn
  have hanswers₁ := run_answers hp₁ canonical (fresh_holds key) (hc hr₁) henv₁
    (hr₁ ▸ hdist) (hr₁ ▸ hstart)
  have hanswers₂ := run_answers hp₂ canonical (fresh_holds key) (hc hr₂) henv₂
    (hr₂ ▸ hdist) (hr₂ ▸ hstart)
  refine hanswers₁.mono fun r₁ hr => hanswers₂.mono fun r₂ hr' => ?_
  rw [hr, hr', hr₁, hr₂]

end Filters

section Decimal

/-- Whole numbers, written in decimal. -/
def decimalKey : CodingKeyType ℕ where
  name := utf8 "DecimalKey"
  initStringValue string :=
    if string.toList ≠ [] ∧ string.toList.all Char.isDigit then
      some (string.toList.foldl (fun n c => 10 * n + (c.toNat - 48)) 0)
    else
      none

def tenBits : {n : CInt // 1 ≤ n.toInt} := ⟨10, by decide⟩

def unlimited (filterPolicy : Option FilterPolicy) : Options :=
  { Options.unlimited bytewiseComparator with filterPolicy }

/-- The background thread is there when a call waits for it, and nothing fails. -/
def Environment.quiet : Environment :=
  ⟨[], .quiet, StringCalls.quietRange, .healthy⟩

/-- A value is set, the database compacted, and the value read under `string`. -/
def setCompactRead (string : String) : List (Call × Environment) :=
  [(.setValue [7] "1" false, .quiet), (.compact none none, .quiet), (.value string, .quiet)]

theorem accepted_read {string : String} (hd : (decimalKey.initStringValue string).isSome)
    (hs : StorableKey (utf8 string)) : (Call.value string).Accepted decimalKey := by
  constructor
  · intro s h
    obtain rfl := Option.mem_some.mp h
    exact ⟨(CodingKeyType.decodes_utf8 _).mpr hd, hs⟩
  · simp [Call.writes]
  · simp [Call.bounds]
  · simp [Call.records]
  · simp [Call.records]

theorem setCompactRead_accepted {string : String}
    (hd : (decimalKey.initStringValue string).isSome) (hs : StorableKey (utf8 string)) :
    ∀ call ∈ (setCompactRead string).map Prod.fst, call.Accepted decimalKey := by
  intro call hcall
  simp only [setCompactRead, List.map_cons, List.map_nil, List.mem_cons, List.not_mem_nil,
    or_false] at hcall
  rcases hcall with rfl | rfl | rfl
  · constructor
    · simp [Call.reads]
    · intro s h
      obtain rfl := List.mem_singleton.mp h
      exact ⟨(CodingKeyType.decodes_utf8 _).mpr (by decide +kernel), by decide +kernel⟩
    · simp [Call.bounds]
    · intro r hr
      obtain rfl := List.mem_singleton.mp hr
      exact ⟨by decide +kernel, by decide⟩
    · decide
  · constructor <;> simp [Call.reads, Call.writes, Call.bounds, Call.records]
  · exact accepted_read hd hs

theorem quiet_healthy (string : String) : ∀ x ∈ setCompactRead string, x.2.Healthy := by
  have hquiet : Environment.quiet.Healthy := by
    refine ⟨by simp [Environment.quiet], fun sync => WriteEvents.quiet_healthy sync, ⟨?_, ?_, ?_⟩,
      FileAccess.healthy_healthy⟩
    · refine ⟨?_, rfl, fun _ => rfl⟩
      intro ev hev
      obtain rfl := List.mem_singleton.mp hev
      exact ⟨rfl, by simp⟩
    · intro ev hev
      obtain rfl := List.mem_singleton.mp hev
      exact BackgroundEvent.quiet_healthy
    · intro level ev hev
      obtain rfl := List.mem_singleton.mp hev
      exact BackgroundEvent.quiet_healthy
  intro x hx
  simp only [setCompactRead, List.mem_cons, List.not_mem_nil, or_false] at hx
  rcases hx with rfl | rfl | rfl <;> exact hquiet

theorem bloom_filter_unnoticed_run :
    Stops.Ensures (· = .blocked)
      (run id (unlimited (some (bloomFilterPolicy tenBits)))
        decimalKey.codingKeyComparator (setCompactRead "1") fresh) fun answers₁ =>
      Stops.Ensures (· = .blocked)
        (run id (unlimited none) decimalKey.codingKeyComparator
          (setCompactRead "1") fresh) fun answers₂ => answers₁ = answers₂ := by
  refine bloom_filter_unnoticed decimalKey tenBits id rfl rfl
    (setCompactRead_accepted (by decide +kernel) (by decide +kernel)) ⟨nofun, nofun, ?_, trivial⟩
    (by decide) rfl rfl (quiet_healthy "1") (quiet_healthy "1")
  intro string hread other hother _
  obtain rfl := Option.mem_some.mp hread
  simpa [Call.writes] using hother

/-- `"01"` and `"1"` decode to the same key; with a filter the value is gone once it is in a
table. -/
theorem bloom_filter_noticed :
    (∀ call ∈ (setCompactRead "01").map Prod.fst, call.Accepted decimalKey) ∧
    run id (unlimited (some (bloomFilterPolicy tenBits)))
        decimalKey.codingKeyComparator (setCompactRead "01") fresh =
      .ok [.done, .done, .value none] ∧
    run id (unlimited none) decimalKey.codingKeyComparator
        (setCompactRead "01") fresh =
      .ok [.done, .done, .value (some [7])] := by
  refine ⟨setCompactRead_accepted (by decide +kernel) (by decide +kernel), ?_, ?_⟩
  · decide +kernel
  · decide +kernel

end Decimal

end CodingRuns

end DVELevelDB
