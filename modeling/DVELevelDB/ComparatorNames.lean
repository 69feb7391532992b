import DVELevelDB.AcceptedRuns
import DVELevelDB.Reopening

/-! # The name of a comparator

Opening a directory compares the names of two comparators, not what they compare. Two key types
with the same unqualified name pass this check, whatever their orders are.
-/

namespace DVELevelDB

open EditLog
open Stops (Ensures)

def FileMetaData.keys (f : FileMetaData) : List Bytes :=
  f.smallest.userKey :: f.largest.userKey ::
    (f.entries.map (·.key.userKey) ++ f.table.index.entries.map (·.key.userKey))

def LogFile.keys (log : LogFile) : List Bytes :=
  log.records.flatMap fun record => (WriteBatch.parse (record.drop kHeader)).1.map (·.key)

/-- The tables that the edits add up to. -/
def Manifest.liveFiles (manifest : Manifest) : List FileMetaData :=
  (List.range kNumLevels).flatMap fun level =>
    live FileMetaData.number (manifest.edits.map (·.at level))

def Manifest.pointerKeys (manifest : Manifest) : List Bytes :=
  manifest.edits.flatMap fun edit => edit.compactPointers.map (·.2.userKey)

/-- The keys that are stored: those of the tables and the logs, and the compaction pointers and the
smallest keys of all tables in the manifest. -/
def Directory.keys (dir : Directory) : List Bytes :=
  dir.manifest.pointerKeys ++ ((addedFiles dir.manifest.edits).map (·.smallest.userKey) ++
    (dir.manifest.liveFiles.flatMap (·.keys) ++ dir.logs.flatMap (·.keys)))

section Keys

variable {κ : Type*} [LinearOrder κ] {D : Bytes → Prop} {rank : Bytes → κ} {v : Version} {m n : ℕ}
  {dir dir' : Directory} {f : FileMetaData}

theorem FileMetaData.keysIn_iff : f.KeysIn D ↔ ∀ k ∈ f.keys, D k := by
  constructor
  · intro h k hk
    simp only [FileMetaData.keys, List.mem_cons, List.mem_append, List.mem_map] at hk
    rcases hk with rfl | rfl | ⟨e, he, rfl⟩ | ⟨ie, hie, rfl⟩
    · exact h.smallest
    · exact h.largest
    · exact h.entries e he
    · exact h.index ie hie
  · intro h
    refine ⟨h _ (by simp [FileMetaData.keys]), h _ (by simp [FileMetaData.keys]), ?_, ?_⟩
    · intro e he
      refine h _ (List.mem_cons_of_mem _ (List.mem_cons_of_mem _ ?_))
      exact List.mem_append_left _ (List.mem_map_of_mem he)
    · intro ie hie
      refine h _ (List.mem_cons_of_mem _ (List.mem_cons_of_mem _ ?_))
      exact List.mem_append_right _ (List.mem_map_of_mem hie)

theorem FileMetaData.WellFormed.keysIn (h : f.WellFormed D rank) : f.KeysIn D :=
  ⟨h.smallest_mem, h.largest_mem, fun e he => (h.table.sorted.valid e he).key_mem,
    fun ie hie => (h.table.covers ie hie).key_mem⟩

theorem Logged.recordIn {records : List Bytes} (h : Logged D m records n) :
    ∀ record ∈ records, RecordIn D record := by
  induction h with
  | nil => exact fun record hr => absurd hr List.not_mem_nil
  | @cons m n s b ops records _ hb _ hops _ _ ih =>
    intro record hrecord
    rcases List.mem_cons.mp hrecord with rfl | hrecord
    · rw [RecordIn, ← WriteBatch.records, hb.records_eq]
      exact fun r hr => (hops r hr).1
    · exact ih record hrecord

namespace Directory

theorem mem_keys_of_file (hv : v.WellFormed D rank)
    (h : Describes D dir.manifest.edits dir.manifest.nextFileNumber v) {level : ℕ}
    (hf : f ∈ v.files level) {k : Bytes} (hk : k ∈ f.keys) : k ∈ dir.keys := by
  have hl : level < kNumLevels := by
    by_contra hl
    rw [hv.levels level hl] at hf
    exact List.not_mem_nil hf
  have hlive : f ∈ dir.manifest.liveFiles :=
    List.mem_flatMap.mpr ⟨level, List.mem_range.mpr hl, mem_live.mpr ((h.files level f).mp hf)⟩
  refine List.mem_append_right _ (List.mem_append_right _ (List.mem_append_left _ ?_))
  exact List.mem_flatMap.mpr ⟨f, hlive, hk⟩

theorem mem_keys_of_record {record : Bytes} (hr : record ∈ dir.logs.flatMap (·.records)) :
    RecordIn (· ∈ dir.keys) record := by
  obtain ⟨log, hlog, hrecord⟩ := List.mem_flatMap.mp hr
  intro r hr
  refine List.mem_append_right _ (List.mem_append_right _ (List.mem_append_right _ ?_))
  exact List.mem_flatMap.mpr ⟨log, hlog,
    List.mem_flatMap.mpr ⟨record, hrecord, List.mem_map_of_mem hr⟩⟩

theorem Replays.keys_mem (h : dir.Replays D rank v m n) : ∀ k ∈ dir.keys, D k := by
  intro k hk
  rcases List.mem_append.mp hk with hk | hk
  · obtain ⟨edit, hedit, hk⟩ := List.mem_flatMap.mp hk
    obtain ⟨p, hp, rfl⟩ := List.mem_map.mp hk
    exact h.describes.pointers edit hedit p hp
  rcases List.mem_append.mp hk with hk | hk
  · obtain ⟨f, hf, rfl⟩ := List.mem_map.mp hk
    exact h.describes.smallest f hf
  rcases List.mem_append.mp hk with hk | hk
  · obtain ⟨f, hf, hk⟩ := List.mem_flatMap.mp hk
    obtain ⟨level, -, hlive⟩ := List.mem_flatMap.mp hf
    have hmem := (h.describes.files level f).mpr (mem_live.mp hlive)
    exact FileMetaData.keysIn_iff.mp (h.wellFormed.file level f hmem).keysIn k hk
  · obtain ⟨log, hlog, hk⟩ := List.mem_flatMap.mp hk
    obtain ⟨record, hrecord, hk⟩ := List.mem_flatMap.mp hk
    obtain ⟨r, hr, rfl⟩ := List.mem_map.mp hk
    exact h.logged.recordIn record (List.mem_flatMap.mpr ⟨log, hlog, hrecord⟩) r hr

/-- Nothing but the keys in the directory matters to a replay. -/
theorem Replays.restrict (h : dir.Replays D rank v m n) :
    dir.Replays (· ∈ dir.keys) rank v m n := by
  have hkeys : v.KeysIn (· ∈ dir.keys) := fun level f hf =>
    FileMetaData.keysIn_iff.mpr fun k hk => mem_keys_of_file h.wellFormed h.describes hf hk
  refine ⟨h.wellFormed.restrict hkeys, h.tidy, ⟨?_, ?_, h.describes.named, h.describes.number_lt,
    h.describes.files⟩, h.upTo, h.manifest, ?_, h.logs, h.active, h.logNumber_le⟩
  · intro edit hedit p hp
    refine List.mem_append_left _ (List.mem_flatMap.mpr ⟨edit, hedit, ?_⟩)
    exact List.mem_map_of_mem hp
  · intro f hf
    exact List.mem_append_right _ (List.mem_append_left _ (List.mem_map_of_mem hf))
  · exact h.logged.restrict fun record hr => mem_keys_of_record hr

theorem Kept.trans {dir'' : Directory} (h : dir.Kept dir') (h' : dir'.Kept dir'') :
    dir.Kept dir'' := by
  obtain ⟨more, hlogs, hempty⟩ := h.logs
  obtain ⟨more', hlogs', hempty'⟩ := h'.logs
  refine ⟨h'.comparatorName.trans h.comparatorName, h'.manifest.trans h.manifest,
    h'.logNumber.trans h.logNumber, more ++ more', by rw [hlogs', hlogs, List.append_assoc], ?_⟩
  exact fun log hlog => (List.mem_append.mp hlog).elim (hempty log) (hempty' log)

end Directory

end Keys

namespace CodingRuns

section Opens

variable {κ₁ κ₂ : Type*} [LinearOrder κ₁] [LinearOrder κ₂] (key₁ : CodingKeyType κ₁)
  (key₂ : CodingKeyType κ₂)

/-- The comparators of two key types give the same results for the keys. -/
def SameOrder (keys : List Bytes) : Prop :=
  ∀ a ∈ keys, ∀ b ∈ keys, key₂.comparator.compare a b = key₁.comparator.compare a b

/-- Opening has succeeded and the keys that are stored compare as before, or it has failed with
an error and no entry has changed. -/
def OpenedSafely (dir : Directory) : Except (Status × Option Directory) DB → Prop
  | .ok _ => SameOrder key₁ key₂ dir.keys
  | .error (s, dir') => s.isOk = false ∧ ∃ d ∈ dir', dir.Kept d

/-- A directory after some opens that failed. -/
inductive Attempted (o : Options) (dir : Directory) : Directory → Prop where
  | none : Attempted o dir dir
  | failed {d d' : Directory} {s : Status} {options : OpenOptions} {io : OpenEvents} :
      Attempted o dir d → DB.openAt o options io (some d) = .ok (.error (s, some d')) →
      Attempted o dir d'

/-- No open under the second key type stops or confuses the order of the keys. -/
def Protected (o : Options) (dir : Directory) : Prop :=
  ∀ d, Attempted (opened o key₂.codingKeyComparator) dir d → ∀ options io,
    Ensures (fun _ => False)
      (DB.openAt (opened o key₂.codingKeyComparator) options io (some d))
      (OpenedSafely key₁ key₂ dir)

variable {key₁ key₂} {keys : List Bytes} {dir d : Directory} {o : Options}
  {v : Version} {m n : ℕ}

theorem SameOrder.orders (h : SameOrder key₁ key₂ keys) (hd : ∀ k ∈ keys, key₁.Decodes k) :
    key₂.comparator.OrdersOn (· ∈ keys) key₁.rank := by
  constructor
  · intro a b ha hb
    rw [h a ha b hb]
    exact CodingKeyType.engineComparator_eq (hd a ha) (hd b hb)
  · intro a b ha hb hle
    refine ⟨a, ?_, ha, Or.inl le_rfl⟩
    rw [CodingKeyType.comparator, engineComparator_separator]
    rfl
  · intro a ha
    refine ⟨a, ?_, ha⟩
    rw [CodingKeyType.comparator, engineComparator_successor]
    rfl

variable (key₁) in
theorem comparator_name : key₁.comparator.name =
    utf8 "DVELevelDB.CodingKeyComparator." ++ cString key₁.name := by
  have hprefix : ∀ byte ∈ utf8 "DVELevelDB.CodingKeyComparator.", decide (byte ≠ 0) = true := by
    decide +kernel
  exact List.takeWhile_append_of_pos hprefix

theorem comparator_name_eq :
    key₁.comparator.name = key₂.comparator.name ↔ cString key₁.name = cString key₂.name := by
  rw [comparator_name, comparator_name, List.append_cancel_left_eq]

/-- The check comes before anything in the directory is changed. -/
theorem openAt_other_name {o : Options} (hname : d.comparatorName ≠ o.comparator.name)
    (options : OpenOptions) (io : OpenEvents) :
    ∃ s, DB.openAt o options io (some d) = .ok (.error (s, some d)) ∧ s.isOk = false := by
  rw [DB.openAt]
  split_ifs with hlock
  · exact ⟨_, rfl, by simpa using hlock⟩
  · exact ⟨_, rfl, rfl⟩
  · rw [Recovery.recover]
    by_cases hread : (!io.manifest.isOk) = true
    · rw [if_pos hread]
      exact ⟨_, rfl, by simpa using hread⟩
    · rw [if_neg hread, if_pos hname]
      exact ⟨_, rfl, rfl⟩

theorem protected_of_other_name
    (hname : dir.comparatorName ≠ key₂.comparator.name) : Protected key₁ key₂ o dir := by
  have hfails := @openAt_other_name dir (opened o key₂.codingKeyComparator) hname
  intro d hd options io
  have hsame : d = dir := by
    induction hd with
    | none => rfl
    | failed _ hopen ih =>
      subst ih
      obtain ⟨s, heq, -⟩ := hfails _ _
      rw [heq] at hopen
      cases hopen
      rfl
  obtain ⟨s, heq, hs⟩ := hfails options io
  rw [hsame, heq]
  exact ⟨hs, dir, rfl, .refl dir⟩

theorem protected_of_sameOrder (h : dir.Replays key₁.Decodes key₁.rank v m n)
    (hn : n ≤ kMaxSequenceNumber) (hp : ∀ p ∈ o.filterPolicy, p.Lawful)
    (hs : SameOrder key₁ key₂ dir.keys) : Protected key₁ key₂ o dir := by
  have ho : (opened o key₂.codingKeyComparator).comparator.OrdersOn (· ∈ dir.keys)
      key₁.rank := hs.orders h.keys_mem
  intro d hd
  have hkept : dir.Kept d ∧ d.Replays (· ∈ dir.keys) key₁.rank v m n := by
    induction hd with
    | none => exact ⟨.refl dir, h.restrict⟩
    | failed _ hopen ih =>
      have hspec := (Recovery.openAt_spec ho hp ih.2 hn).elim hopen
      obtain ⟨-, _, ⟨⟩, hkept, hreplays⟩ := hspec
      exact ⟨ih.1.trans hkept, hreplays⟩
  intro options io
  refine (Recovery.openAt_spec ho hp hkept.2 hn).mono fun r hr => ?_
  cases r with
  | ok db => exact hs
  | error e =>
    obtain ⟨hstatus, d', hd', hkept', -⟩ := hr
    exact ⟨hstatus, d', hd', hkept.1.trans hkept'⟩

/-- Exactly when two key types have one name and disagree on a key that is stored, the check lets
the second one in to do harm. -/
theorem protected_iff (h : dir.Replays key₁.Decodes key₁.rank v m n) (hn : n ≤ kMaxSequenceNumber)
    (hname : dir.comparatorName = key₁.comparator.name) (hp : ∀ p ∈ o.filterPolicy, p.Lawful) :
    Protected key₁ key₂ o dir ↔
      cString key₁.name ≠ cString key₂.name ∨ SameOrder key₁ key₂ dir.keys := by
  constructor
  · intro hprotected
    by_cases hnames : cString key₁.name = cString key₂.name
    · right
      have hsame : dir.comparatorName =
          (opened o key₂.codingKeyComparator).comparator.name :=
        hname.trans (comparator_name_eq.mpr hnames)
      obtain ⟨r, hr, hsafe⟩ := (hprotected dir .none .default .healthy).exists_ok
      obtain ⟨db, rfl⟩ := (Recovery.openAt_healthy rfl rfl hsame).elim hr
      exact hsafe
    · exact Or.inl hnames
  · rintro (hnames | hsame)
    · refine protected_of_other_name ?_
      rw [hname]
      exact fun heq => hnames (comparator_name_eq.mp heq)
    · exact protected_of_sameOrder h hn hp hsame

end Opens

section Runs

variable {κ : Type*} [LinearOrder κ] {key : CodingKeyType κ} {canonical : List Char → List Char}
  {o : Options} {db : DB} {n : ℕ}

variable (key) in
/-- Every key and every bound decodes, keys and values are as long as the engine can store, and a
log that is written to again has been read without faults. -/
def Step.Restores : Step → Prop
  | .call c _ =>
    (∀ string ∈ c.writes, key.Decodes (utf8 string) ∧ StorableKey (utf8 string)) ∧
    (∀ r ∈ c.records, r.Fits) ∧ c.records.length < 2 ^ 31 ∧
    ∀ string ∈ c.bounds, key.Decodes (utf8 string)
  | .reopen options io => options.reuseLogs = true → io.Reads
  | _ => True

def Step.count : Step → ℕ
  | .call c _ => c.records.length
  | _ => 0

variable (key) in
def Site.Restorable (n : ℕ) : Site → Prop
  | .database db => db.Restorable key.Decodes key.rank n
  | .directory dir => ∀ d ∈ dir, d.comparatorName = key.comparator.name ∧
    ∃ v m, d.Replays key.Decodes key.rank v m n

/-- What the process leaves when it ends. -/
def Site.left (c : Comparator) : Site → Option Directory
  | .database db => some (db.directory c)
  | .directory dir => dir

theorem Site.Restorable.left {site : Site} (h : site.Restorable key n) {dir : Directory}
    (hdir : dir ∈ site.left key.comparator) : dir.comparatorName = key.comparator.name ∧
      ∃ v m, dir.Replays key.Decodes key.rank v m n := by
  cases site with
  | database db =>
    obtain rfl := Option.some.inj hdir
    exact ⟨rfl, DB.Restorable.directory h _⟩
  | directory d => exact h dir hdir

variable (key o) in
theorem key_orders : (opened o key.codingKeyComparator).comparator.OrdersOn key.Decodes key.rank :=
  CodingKeyType.comparator_orders fun _ hk => hk

variable (hp : ∀ p ∈ o.filterPolicy, p.Lawful)

include hp

variable (key) in
theorem key_stable (hn : n < kMaxSequenceNumber) : DB.Stable (opened o key.codingKeyComparator)
    ((opened o key.codingKeyComparator).comparator.Places key.Decodes key.rank)
    (DB.Restorable key.Decodes key.rank n) :=
  DB.restorable_stable (key_orders key o) hp hn

theorem records_restorable (h : db.Restorable key.Decodes key.rank n) (io : DB.WriteEvents)
    (sync : Bool) {b : WriteBatch} {ops : List Record} (hb : b.Denotes ops)
    (hlen : ops.length < 2 ^ 31) (hops : ∀ r ∈ ops, key.Decodes r.key ∧ StorableKey r.key)
    (hn : n + ops.length < kMaxSequenceNumber) :
    Ensures (fun _ => True)
      (db.write (StringCalls.openedWith o key.codingKeyComparator) io sync (some b))
      fun r => r.2.2.Restorable key.Decodes key.rank (n + ops.length) :=
  DB.write_restorable (o := opened o _) (key_orders key o) hp h io sync hb hlen hops hn

theorem operation_restorable (h : db.Restorable key.Decodes key.rank n) (io : DB.WriteEvents)
    (sync : Bool) (op : Operation) (hop : op.direct.Fits)
    (hk : key.Decodes op.key ∧ StorableKey op.key) (hn : n + 1 < kMaxSequenceNumber) :
    Ensures (fun _ => True)
      (op.perform (StringCalls.openedWith o key.codingKeyComparator) io sync db)
      fun r => r.2.Restorable key.Decodes key.rank (n + 1) := by
  rw [Operation.perform_eq]
  have hops : ∀ r ∈ [op.direct], key.Decodes r.key ∧ StorableKey r.key := by
    intro r hr
    rw [List.mem_singleton.mp hr, Operation.direct_key]
    exact hk
  refine (records_restorable hp h io sync (Record.batch_denotes hop) (by simp) hops
    (by simpa using hn)).bind fun r hr => ?_
  exact Stops.ensures_true.bind fun _ _ => hr

theorem call_restorable (h : db.Restorable key.Decodes key.rank n) {call : Call}
    {env : Environment} (hcall : (Step.call call env).Restores key)
    (hn : n + call.records.length < kMaxSequenceNumber) :
    Ensures (fun _ => True)
      (perform canonical o key.codingKeyComparator call env db)
      fun r => r.2.Restorable key.Decodes key.rank (n + call.records.length) := by
  obtain ⟨hwrites, hfits, hlen, hbounds⟩ := hcall
  have hstable := key_stable key hp ((Nat.le_add_right n _).trans_lt hn)
  have hback := Stops.ensures_foldlM (l := env.background) h fun db h io _ =>
    hstable.backgroundCall h io
  refine hback.bind fun db₁ h₁ => ?_
  have hrange : ∀ userBegin userEnd : Option Bytes, (∀ k ∈ userBegin, key.Decodes k) →
      (∀ k ∈ userEnd, key.Decodes k) →
      Ensures (fun _ => True) (StringCalls.performData o key.codingKeyComparator db₁
        (.compact userBegin userEnd env.range)) fun r => r.2.Restorable key.Decodes key.rank n := by
    intro userBegin userEnd hb he
    have hplaces : ∀ k, key.Decodes k →
        (opened o key.codingKeyComparator).comparator.Places key.Decodes key.rank k :=
      fun k hk => CodingKeyType.comparator_places (fun _ hd => hd) hk
    exact (hstable.compactRange h₁ env.range (fun k hk => hplaces k (hb k hk))
      fun k hk => hplaces k (he k hk)).bind fun _ h₂ => h₂
  have hbound : ∀ {bound : Option String}, (∀ string ∈ bound, string ∈ call.bounds) →
      ∀ k ∈ bound.map utf8, key.Decodes k := by
    intro bound hb k hk
    obtain ⟨string, hs, rfl⟩ := Option.map_eq_some_iff.mp hk
    exact hbounds string (hb string hs)
  cases call with
  | value string =>
    have hread : Ensures (fun _ => True) (StringCalls.performData o key.codingKeyComparator db₁
        (.value (utf8 string) env.files none)) fun r => r.2.Restorable key.Decodes key.rank n := by
      refine Stops.ensures_true.bind fun r _ => ?_
      cases r <;> exact h₁
    exact hread
  | setValue data string sync =>
    have hop := operation_restorable hp h₁ env.write sync (.setData (some data) (utf8 string))
      (hfits _ List.mem_cons_self) (hwrites string List.mem_cons_self) hn
    exact hop.bind fun _ h₂ => h₂
  | removeValue string sync =>
    have hop := operation_restorable hp h₁ env.write sync (.removeValueForKey (utf8 string))
      (hfits _ List.mem_cons_self) (hwrites string List.mem_cons_self) hn
    exact hop.bind fun _ h₂ => h₂
  | writeBatch operations sync =>
    have hops : ∀ op ∈ operations.map operation, op.Fits := by
      intro op hop
      obtain ⟨x, hx, rfl⟩ := List.mem_map.mp hop
      exact operation_fits (hfits _ (List.mem_map_of_mem hx))
    have hb := foldl_record_denotes hops WriteBatch.Denotes.clear
    have hrecords : [] ++ (operations.map operation).map Operation.batched =
        operations.map Call.record := by
      rw [List.nil_append, List.map_map]
      exact List.map_congr_left fun x _ => batched_operation x
    have hkeys : ∀ r ∈ operations.map Call.record, key.Decodes r.key ∧ StorableKey r.key := by
      intro r hr
      obtain ⟨x, hx, rfl⟩ := List.mem_map.mp hr
      rw [record_key]
      exact hwrites x.1 (List.mem_map_of_mem hx)
    rw [hrecords] at hb
    have hbatch : Ensures (fun _ => True) (StringCalls.performData o key.codingKeyComparator db₁
        (.writeBatch (operations.map operation) env.write sync))
        fun r => r.2.Restorable key.Decodes key.rank
          (n + (operations.map Call.record).length) := by
      refine Ensures.bind ?_ fun r h₂ => h₂
      exact (records_restorable hp h₁ env.write sync hb hlen hkeys hn).bind fun r hr =>
        Stops.ensures_true.bind fun _ _ => hr
    simp only [Call.stringCall, StringCalls.perform, StringCalls.encodeCall, encodeOperations_eq]
    exact hbatch
  | compact startKey endKey =>
    have hbounds := hrange (startKey.map utf8) (endKey.map utf8) (hbound ?_) (hbound ?_)
    · cases startKey <;> cases endKey <;> exact hbounds
    · exact fun string hs => List.mem_append_left _ (Option.mem_toList.mpr hs)
    · exact fun string hs => List.mem_append_right _ (Option.mem_toList.mpr hs)
  | compactRange lower upper =>
    refine hrange (some (utf8 lower)) (some (utf8 upper)) ?_ ?_
    · rintro k ⟨⟩
      exact hbounds lower List.mem_cons_self
    · rintro k ⟨⟩
      exact hbounds upper (List.mem_cons_of_mem _ List.mem_cons_self)

omit hp in
theorem Site.Restorable.weaken {site : Site} {n' : ℕ} (h : site.Restorable key n) (hn : n ≤ n') :
    site.Restorable key n' := by
  cases site with
  | database db => exact DB.Restorable.weaken h hn
  | directory dir =>
    intro d hd
    obtain ⟨hname, v, m, hreplays⟩ := h d hd
    exact ⟨hname, v, m, hreplays.weaken hn⟩

omit hp in
theorem ofOutcome_restorable {options : OpenOptions} {io : OpenEvents} {dir : Directory}
    {v : Version} {m : ℕ} (hname : dir.comparatorName = key.comparator.name)
    (hreads : options.reuseLogs = true → io.Reads) {r : Except (Status × Option Directory) DB}
    (hr : Recovery.Opens key.Decodes key.rank options io dir v m n r) :
    (Site.ofOutcome r).Restorable key n := by
  cases r with
  | ok db => exact hr.2 hreads
  | error e =>
    obtain ⟨-, d, hd, hkept, hreplays⟩ := hr
    intro d' hd'
    obtain rfl := Option.some.inj (hd.symm.trans hd')
    exact ⟨hkept.comparatorName.trans hname, v, m, hreplays⟩

theorem openAt_restorable {dir : Option Directory} (h : (Site.directory dir).Restorable key n)
    (hn : n ≤ kMaxSequenceNumber) {options : OpenOptions} {io : OpenEvents}
    (hreads : options.reuseLogs = true → io.Reads) :
    Ensures (fun _ => True) (DB.openAt (opened o key.codingKeyComparator) options io dir)
      fun r => (Site.ofOutcome r).Restorable key n := by
  have ho := key_orders key o
  cases dir with
  | none =>
    unfold DB.openAt
    dsimp only
    split_ifs
    · exact fun d hd => by cases hd
    · have hnew : (Directory.new key.comparator).Replays key.Decodes key.rank ⟨fun _ => []⟩ 0 n :=
        Directory.new_replays _ n
      refine ((Recovery.recover_spec ho hp hnew hn).imp fun _ _ => trivial).mono fun r hr => ?_
      exact ofOutcome_restorable rfl hreads hr
    · exact fun d hd => by cases hd
    · exact fun d hd => by cases hd
  | some dir =>
    obtain ⟨hname, v, m, hreplays⟩ := h dir rfl
    refine ((Recovery.openAt_spec ho hp hreplays hn).imp fun _ _ => trivial).mono fun r hr => ?_
    exact ofOutcome_restorable hname hreads hr

omit hp in
theorem approximateSizes_keeps (io : SizeEvents)
    (keys : String → String → Exec (Except KeyError (Bytes × Bytes)))
    (keyRanges : List (String × String)) (db : DB) :
    Ensures (fun _ => True)
      (StringCalls.mapRanges keys keyRanges >>= fun ranges =>
        StringCalls.performEncoded o key.codingKeyComparator db
          (ranges.map (.approximateSizes · io)))
      fun r => r.2 = db := by
  refine Stops.ensures_true.bind fun ranges _ => ?_
  cases ranges with
  | error e => rfl
  | ok l => exact Stops.ensures_true.bind fun _ _ => rfl

theorem step_restorable {site : Site} (h : site.Restorable key n) {step : Step}
    (hs : step.Restores key) (hn : n + step.count < kMaxSequenceNumber) :
    Ensures (fun _ => True) (site.step canonical o key.codingKeyComparator step)
      (Site.Restorable key (n + step.count)) := by
  cases site with
  | database db =>
    cases step with
    | call call env => exact (call_restorable hp h hs hn).bind fun _ h₁ => h₁
    | approximateSizesOfRanges keyRanges io =>
      refine Ensures.bind (Q := fun r : StringCalls.Answer × DB => r.2 = db) ?_ ?_
      · rw [StringCalls.perform, StringCalls.encodeCall, bind_assoc]
        exact approximateSizes_keeps io _ keyRanges db
      · rintro r rfl
        exact h
    | approximateSizesOfClosedRanges keyRanges io =>
      refine Ensures.bind (Q := fun r : StringCalls.Answer × DB => r.2 = db) ?_ ?_
      · rw [StringCalls.perform, StringCalls.encodeCall, bind_assoc]
        exact approximateSizes_keeps io _ keyRanges db
      · rintro r rfl
        exact h
    | close background =>
      have hstable := key_stable key hp ((Nat.le_add_right n _).trans_lt hn)
      have hdb : db.Restorable key.Decodes key.rank n := h
      have hback := Stops.ensures_foldlM (l := background) hdb fun db h io _ =>
        hstable.backgroundCall h io
      refine hback.bind fun db₁ h₁ => ?_
      rintro d ⟨⟩
      exact ⟨rfl, DB.Restorable.directory h₁ _⟩
    | reopen options io => exact h
  | directory dir =>
    cases step with
    | reopen options io => exact (openAt_restorable hp h hn.le hs).bind fun r hr => hr
    | call call env => exact h.weaken (Nat.le_add_right _ _)
    | approximateSizesOfRanges keyRanges io => exact h
    | approximateSizesOfClosedRanges keyRanges io => exact h
    | close background => exact h

theorem run_restorable {steps : List Step} {site : Site} (h : site.Restorable key n)
    (hs : ∀ step ∈ steps, step.Restores key)
    (hn : n + (steps.map Step.count).sum < kMaxSequenceNumber) :
    Ensures (fun _ => True) (Site.run canonical o key.codingKeyComparator steps site)
      (Site.Restorable key (n + (steps.map Step.count).sum)) := by
  induction steps generalizing site n with
  | nil => exact h
  | cons step steps ih =>
    rw [List.map_cons, List.sum_cons, ← Nat.add_assoc] at hn ⊢
    rw [Site.run, List.foldlM_cons]
    refine (step_restorable hp h (hs step List.mem_cons_self)
      ((Nat.le_add_right _ _).trans_lt hn)).bind fun site₁ h₁ => ?_
    exact ih h₁ (fun step' h' => hs step' (List.mem_cons_of_mem _ h')) hn

end Runs

section Protection

variable {κ₁ κ₂ : Type*} [LinearOrder κ₁] [LinearOrder κ₂] (key₁ : CodingKeyType κ₁)
  (key₂ : CodingKeyType κ₂) (canonical : List Char → List Char) (o₁ o₂ : Options)

/-- What a run under one key type leaves is protected from another one if and only if their names
differ or they order the keys that are stored alike. -/
theorem protected_after_run (hp₁ : ∀ p ∈ o₁.filterPolicy, p.Lawful)
    (hp₂ : ∀ p ∈ o₂.filterPolicy, p.Lawful) {steps : List Step}
    (hs : ∀ step ∈ steps, step.Restores key₁)
    (hn : (steps.map Step.count).sum < kMaxSequenceNumber) :
    Ensures (fun _ => True)
      (Site.run canonical o₁ key₁.codingKeyComparator steps (.directory none))
      fun site => ∀ dir ∈ site.left key₁.comparator, Protected key₁ key₂ o₂ dir ↔
        cString key₁.name ≠ cString key₂.name ∨ SameOrder key₁ key₂ dir.keys := by
  have hstart : (Site.directory none).Restorable key₁ 0 := fun dir hdir => by cases hdir
  rw [← Nat.zero_add (steps.map Step.count).sum] at hn
  refine (run_restorable hp₁ hstart hs hn).mono fun site hsite dir hdir => ?_
  obtain ⟨hname, v, m, hreplays⟩ := hsite.left hdir
  exact protected_iff hreplays hn.le hname hp₂

/-- Another type's `enum CodingKeys: String, CodingKey { case name, id }` -/
def otherCodingKeys : CodingKeyType (Fin 2) where
  name := utf8 "CodingKeys"
  initStringValue string := (codingKeys.initStringValue string).map Fin.rev

def setIdAndName : List Step :=
  [.reopen .default .healthy, .call (.setValue [7] "id" false) .quiet,
    .call (.setValue [8] "name" false) .quiet, .close []]

theorem toOption_eq_some {α : Type*} {x : Exec α} {a : α} (h : x.toOption = some a) :
    x = .ok a := by
  cases x with
  | ok b => exact congrArg Except.ok (Option.some.inj h)
  | error e => cases h

theorem restores_setValue {data : Bytes} (hdata : data.length < 2 ^ 32) {string : String}
    (hk : codingKeys.Decodes (utf8 string)) (hs : StorableKey (utf8 string)) (sync : Bool)
    (env : Environment) : (Step.call (.setValue data string sync) env).Restores codingKeys := by
  refine ⟨?_, ?_, by simp [Call.records], fun s h => absurd h List.not_mem_nil⟩
  · intro s h
    obtain rfl := List.mem_singleton.mp h
    exact ⟨hk, hs⟩
  · intro r hr
    obtain rfl := List.mem_singleton.mp hr
    exact ⟨(Nat.le_add_right _ 8).trans_lt hs, hdata⟩

theorem protected_after_setIdAndName :
    Ensures (fun _ => True)
      (Site.run id (unlimited none) codingKeys.codingKeyComparator setIdAndName (.directory none))
      fun site => ∀ dir ∈ site.left codingKeys.comparator,
        Protected codingKeys otherCodingKeys (unlimited none) dir ↔
          cString codingKeys.name ≠ cString otherCodingKeys.name ∨
            SameOrder codingKeys otherCodingKeys dir.keys := by
  have hid : codingKeys.Decodes (utf8 "id") := (CodingKeyType.decodes_utf8 _).mpr (by decide)
  have hname : codingKeys.Decodes (utf8 "name") := (CodingKeyType.decodes_utf8 _).mpr (by decide)
  have hstorable : StorableKey (utf8 "id") ∧ StorableKey (utf8 "name") := by decide +kernel
  have hnone : ∀ p ∈ (unlimited none).filterPolicy, p.Lawful := fun p hp => by cases hp
  refine protected_after_run codingKeys otherCodingKeys id (unlimited none) (unlimited none)
    hnone hnone ?_ (by decide +kernel)
  intro step hs
  simp only [setIdAndName, List.mem_cons, List.not_mem_nil, or_false] at hs
  rcases hs with rfl | rfl | rfl | rfl
  · exact fun h => by cases h
  · exact restores_setValue (by decide) hid hstorable.1 _ _
  · exact restores_setValue (by decide) hname hstorable.2 _ _
  · trivial

/-- The database opens with a comparator of the same name that orders its keys in reverse. -/
theorem otherCodingKeys_opens :
    (∀ k, codingKeys.initStringValue (codingKeys.stringValue k) = some k) ∧
    (∀ k, otherCodingKeys.initStringValue (codingKeys.stringValue k.rev) = some k) ∧
    ∃ site dir db,
      Site.run id (unlimited none) codingKeys.codingKeyComparator setIdAndName (.directory none) =
        .ok site ∧
      dir ∈ site.left codingKeys.comparator ∧
      DB.openAt (opened (unlimited none) otherCodingKeys.codingKeyComparator) .default
        .healthy (some dir) = .ok (.ok db) ∧
      ¬ SameOrder codingKeys otherCodingKeys dir.keys := by
  refine ⟨by decide, by decide, ?_⟩
  have hrun : ((Site.run id (unlimited none) codingKeys.codingKeyComparator setIdAndName
      (.directory none)).toOption.bind (·.left codingKeys.comparator)).any (fun dir =>
        decide (utf8 "id" ∈ dir.keys ∧ utf8 "name" ∈ dir.keys) &&
          (DB.openAt (opened (unlimited none) otherCodingKeys.codingKeyComparator)
            .default .healthy (some dir)).toOption.any (·.isOk)) = true := by
    decide +kernel
  have hdiffer : (otherCodingKeys.comparator.compare (utf8 "id") (utf8 "name")).toOption ≠
      (codingKeys.comparator.compare (utf8 "id") (utf8 "name")).toOption := by
    decide +kernel
  obtain ⟨dir, hleft, hdir⟩ := (Option.any_eq_true _ _).mp hrun
  obtain ⟨site, hsite, hdir'⟩ := Option.bind_eq_some_iff.mp hleft
  obtain ⟨hkeys, hopen⟩ := Bool.and_eq_true_iff.mp hdir
  obtain ⟨r, hr, hok⟩ := (Option.any_eq_true _ _).mp hopen
  cases r with
  | error e => cases hok
  | ok db =>
    refine ⟨site, dir, db, toOption_eq_some hsite, hdir', toOption_eq_some hr, fun hsame => ?_⟩
    obtain ⟨hid, hname⟩ := of_decide_eq_true hkeys
    exact hdiffer (congrArg Except.toOption (hsame _ hid _ hname))

end Protection

end CodingRuns

end DVELevelDB
