import DVELevelDB.AcceptedRecovery
import DVELevelDB.ApproximateSizes
import DVELevelDB.FilteredReads

/-! # Runs that never reach `fatalError`

A run in which every key string can be decoded stores no other keys, and asks for none. So every
comparison succeeds, after reopening too, and whatever the files do.
-/

namespace DVELevelDB

open VersionStore
open Stops (Ensures)

namespace CodingRuns

open StringCalls (Answer)

/-- What happens to a database: calls, and its closing and opening. -/
inductive Step where
  | call (call : Call) (env : Environment)
  | approximateSizesOfRanges (keyRanges : List (String × String)) (io : SizeEvents)
  | approximateSizesOfClosedRanges (keyRanges : List (String × String)) (io : SizeEvents)
  | close (background : List DB.BackgroundEvent)
  | reopen (options : OpenOptions) (io : OpenEvents)

/-- An open database, or its directory if there is one. -/
inductive Site where
  | database (db : DB)
  | directory (dir : Option Directory)

def Site.ofOutcome : Except (Status × Option Directory) DB → Site
  | .ok db => database db
  | .error (_, dir) => directory dir

section Steps

variable (canonical : List Char → List Char) (o : Options)
  (keyComparator : EncodingComparator)

/-- A step that the state does not allow has no effect. -/
def Site.step : Site → Step → Exec Site
  | .database db, .call call env => do
    return .database (← perform canonical o keyComparator call env db).2
  | .database db, .approximateSizesOfRanges keyRanges io => do
    return .database (← StringCalls.perform canonical o keyComparator db
      (.approximateSizesOfRanges keyRanges io)).2
  | .database db, .approximateSizesOfClosedRanges keyRanges io => do
    return .database (← StringCalls.perform canonical o keyComparator db
      (.approximateSizesOfClosedRanges keyRanges io)).2
  | .database db, .close background => do
    let db ← background.foldlM (fun db io => DB.backgroundCall (opened o keyComparator) io db) db
    return .directory (some (db.directory (opened o keyComparator).comparator))
  | .directory dir, .reopen options io => do
    return .ofOutcome (← DB.openAt (opened o keyComparator) options io dir)
  | site, _ => return site

def Site.run (steps : List Step) (site : Site) : Exec Site :=
  steps.foldlM (Site.step canonical o keyComparator) site

end Steps

section Accepted

variable {κ : Type*} (key : CodingKeyType κ)

/-- Every string that a step passes to the database decodes, and keys and values are short enough
to be read back as they were written. -/
def Step.Decodable : Step → Prop
  | .call c _ =>
    (∀ string ∈ c.reads, key.Decodes (utf8 string) ∧ StorableKey (utf8 string)) ∧
    (∀ string ∈ c.writes, key.Decodes (utf8 string)) ∧ (∀ r ∈ c.records, r.Fits) ∧
    ∀ string ∈ c.bounds, key.Decodes (utf8 string)
  | .approximateSizesOfRanges keyRanges _ => ∀ range ∈ keyRanges,
    key.Decodes (utf8 range.1) ∧ key.Decodes (utf8 range.2)
  | .approximateSizesOfClosedRanges _ _ => True
  | .close _ => True
  | .reopen _ _ => True

def Site.KeysIn (D : Bytes → Prop) : Site → Prop
  | .database db => db.KeysIn D
  | .directory dir => ∀ d ∈ dir, d.KeysIn D

variable {key} [LinearOrder κ] {canonical : List Char → List Char} {o : Options} {db : DB}

variable (key) in
theorem comparator_accepts : key.comparator.AcceptsOn key.Decodes := by
  constructor
  · intro a b ha hb
    rw [CodingKeyType.comparator, CodingKeyType.engineComparator_eq ha hb]
    trivial
  · intro a b ha hb
    rw [CodingKeyType.comparator, engineComparator_separator]
    exact ha
  · intro a ha
    rw [CodingKeyType.comparator, engineComparator_successor]
    exact ha

theorem write_accepts (h : db.KeysIn key.Decodes) (io : DB.WriteEvents) (sync : Bool)
    {b : WriteBatch} {rs : List Record} (hb : b.Denotes rs) (hrs : ∀ r ∈ rs, key.Decodes r.key) :
    Ensures NotFatal
      (db.write (StringCalls.openedWith o key.codingKeyComparator) io sync (some b))
      fun r => r.2.2.KeysIn key.Decodes := by
  refine DB.write_accepts (o := StringCalls.openedWith o key.codingKeyComparator)
    (comparator_accepts key) h io sync ?_
  rintro b' ⟨⟩
  rw [hb.records_eq]
  exact hrs

variable (o) in
theorem operation_accepts (h : db.KeysIn key.Decodes) (io : DB.WriteEvents) (sync : Bool)
    (op : Operation) (hop : op.direct.Fits) (hk : key.Decodes op.key) :
    Ensures NotFatal
      (op.perform (StringCalls.openedWith o key.codingKeyComparator) io sync db)
      fun r => r.2.KeysIn key.Decodes := by
  rw [Operation.perform_eq]
  have hrs : ∀ r ∈ [op.direct], key.Decodes r.key := by
    intro r hr
    rw [List.mem_singleton.mp hr, Operation.direct_key]
    exact hk
  refine (write_accepts h io sync (Record.batch_denotes hop) hrs).bind fun r hr => ?_
  exact (createFromLevelDBStatus_notFatal _).bind fun _ _ => hr

omit [LinearOrder κ] in
theorem mapRanges_accepts {keyRanges : List (String × String)}
    {keys : String → String → Exec (Except KeyError (Bytes × Bytes))}
    (hk : ∀ range ∈ keyRanges, Ensures NotFatal (keys range.1 range.2) fun r =>
      ∀ bounds, r = .ok bounds → key.Decodes bounds.1 ∧ key.Decodes bounds.2) :
    Ensures NotFatal (StringCalls.mapRanges keys keyRanges) fun r =>
      ∀ ranges, r = .ok ranges → ∀ range ∈ ranges, key.Decodes range.1 ∧ key.Decodes range.2 := by
  induction keyRanges with
  | nil =>
    rintro ranges ⟨⟩ range hr
    exact absurd hr List.not_mem_nil
  | cons range keyRanges ih =>
    obtain ⟨lower, upper⟩ := range
    refine (hk _ List.mem_cons_self).bind fun r hr => ?_
    cases r with
    | error e => rintro bounds ⟨⟩
    | ok bounds =>
      refine (ih fun range' h' => hk range' (List.mem_cons_of_mem _ h')).bind fun r' hr' => ?_
      rintro ranges heq range hmem
      cases r' with
      | error e => cases heq
      | ok rest =>
        obtain rfl := Except.ok.inj heq
        rcases List.mem_cons.mp hmem with rfl | hmem
        · exact hr _ rfl
        · exact hr' _ rfl range hmem

/-- The keys of a half-open range are those of its bounds; it asks for no successor. -/
theorem rangeKeys_accepts {lower upper : String} (hl : key.Decodes (utf8 lower))
    (hu : key.Decodes (utf8 upper)) :
    Ensures NotFatal (rangeKeys canonical key.codingKeyComparator lower upper) fun r =>
      ∀ bounds, r = .ok bounds → key.Decodes bounds.1 ∧ key.Decodes bounds.2 := by
  have hself : ¬ (¬ SwiftString.less canonical upper lower ∧
      SwiftString.less canonical upper upper) := fun h => lt_irrefl _ h.2
  simp only [rangeKeys, if_neg hself]
  split_ifs
  · rintro bounds ⟨⟩
  · rintro bounds ⟨⟩
    exact ⟨hl, hu⟩

theorem closedRangeKeys_accepts (lower upper : String) :
    Ensures NotFatal (closedRangeKeys key.codingKeyComparator lower upper) fun r =>
      ∀ bounds, r = .ok bounds → key.Decodes bounds.1 ∧ key.Decodes bounds.2 :=
  show ∀ bounds, Except.error KeyError.invalidKeyRange = .ok bounds → _ from nofun

theorem approximateSizes_accepts (h : db.KeysIn key.Decodes) (io : SizeEvents)
    {keyRanges : List (String × String)}
    {keys : String → String → Exec (Except KeyError (Bytes × Bytes))}
    (hk : ∀ range ∈ keyRanges, Ensures NotFatal (keys range.1 range.2) fun r =>
      ∀ bounds, r = .ok bounds → key.Decodes bounds.1 ∧ key.Decodes bounds.2) :
    Ensures NotFatal
      (StringCalls.mapRanges keys keyRanges >>= fun ranges =>
        StringCalls.performEncoded o key.codingKeyComparator db
          (ranges.map (.approximateSizes · io)))
      fun r => r.2.KeysIn key.Decodes := by
  refine (mapRanges_accepts hk).bind fun ranges hr => ?_
  cases ranges with
  | error e => exact h
  | ok l =>
    have hsizes : Ensures NotFatal (DB.getApproximateSizes
        (StringCalls.openedWith o key.codingKeyComparator).comparator io l db)
        fun _ => True :=
      DB.getApproximateSizes_accepts (comparator_accepts key) io h (hr l rfl)
    exact hsizes.bind fun _ _ => h

theorem background_accepts (h : db.KeysIn key.Decodes) (ios : List DB.BackgroundEvent) :
    Ensures NotFatal
      (ios.foldlM (fun db io => DB.backgroundCall (opened o key.codingKeyComparator) io db) db)
      (DB.KeysIn key.Decodes) :=
  Stops.ensures_foldlM h fun _ h₁ io _ =>
    DB.backgroundCall_accepts (o := opened o key.codingKeyComparator) (comparator_accepts key) h₁ io

theorem call_accepts (h : db.KeysIn key.Decodes) {call : Call} {env : Environment}
    (hcall : (Step.call call env).Decodable key) :
    Ensures NotFatal
      (perform canonical o key.codingKeyComparator call env db)
      fun r => r.2.KeysIn key.Decodes := by
  obtain ⟨hreads, hwrites, hfits, hbounds⟩ := hcall
  refine (background_accepts h env.background).bind fun db₁ h₁ => ?_
  have hrange : ∀ userBegin userEnd : Option Bytes, (∀ k ∈ userBegin, key.Decodes k) →
      (∀ k ∈ userEnd, key.Decodes k) →
      Ensures NotFatal (StringCalls.performData o key.codingKeyComparator db₁
        (.compact userBegin userEnd env.range)) fun r => r.2.KeysIn key.Decodes := by
    intro userBegin userEnd hb he
    have hcompact := DB.compactRange_accepts (o := opened o key.codingKeyComparator)
      (comparator_accepts key) hb he h₁ env.range
    exact hcompact.bind fun _ h₂ => h₂
  have hbound : ∀ {bound : Option String}, (∀ string ∈ bound, string ∈ call.bounds) →
      ∀ k ∈ bound.map utf8, key.Decodes k := by
    intro bound hb k hk
    obtain ⟨string, hs, rfl⟩ := Option.map_eq_some_iff.mp hk
    exact hbounds string (hb string hs)
  cases call with
  | value string =>
    obtain ⟨hd, hs⟩ := hreads string rfl
    have hvalue : Ensures NotFatal (LevelDB.value
        (StringCalls.openedWith o key.codingKeyComparator).comparator env.files none
        (utf8 string) db₁) fun _ => True :=
      LevelDB.value_accepts (comparator_accepts key) h₁ env.files none (.of_storable hd hs)
    refine hvalue.bind fun r _ => ?_
    cases r <;> exact h₁
  | setValue data string sync =>
    have hop := operation_accepts o h₁ env.write sync (.setData (some data) (utf8 string))
      (hfits _ List.mem_cons_self) (hwrites string List.mem_cons_self)
    exact hop.bind fun _ h₂ => h₂
  | removeValue string sync =>
    have hop := operation_accepts o h₁ env.write sync (.removeValueForKey (utf8 string))
      (hfits _ List.mem_cons_self) (hwrites string List.mem_cons_self)
    exact hop.bind fun _ h₂ => h₂
  | writeBatch operations sync =>
    have hops : ∀ op ∈ operations.map operation, op.Fits := by
      intro op hop
      obtain ⟨x, hx, rfl⟩ := List.mem_map.mp hop
      exact operation_fits (hfits _ (List.mem_map_of_mem hx))
    have hb := foldl_record_denotes hops WriteBatch.Denotes.clear
    have hrs : ∀ r ∈ [] ++ (operations.map operation).map Operation.batched,
        key.Decodes r.key := by
      intro r hr
      rw [List.nil_append, List.map_map] at hr
      obtain ⟨x, hx, rfl⟩ := List.mem_map.mp hr
      rw [Function.comp_apply, batched_operation, record_key]
      exact hwrites x.1 (List.mem_map_of_mem hx)
    have hbatch : Ensures NotFatal (StringCalls.performData o key.codingKeyComparator db₁
        (.writeBatch (operations.map operation) env.write sync))
        fun r => r.2.KeysIn key.Decodes := by
      refine Ensures.bind ?_ fun r h₂ => h₂
      exact (write_accepts h₁ env.write sync hb hrs).bind fun r hr =>
        (createFromLevelDBStatus_notFatal _).bind fun _ _ => hr
    simp only [Call.stringCall, StringCalls.perform, StringCalls.encodeCall, encodeOperations_eq]
    exact hbatch
  | compact startKey endKey =>
    have hbounds := hrange (startKey.map utf8) (endKey.map utf8) (hbound ?_) (hbound ?_)
    · cases startKey <;> cases endKey <;> exact hbounds
    · exact fun string hs => List.mem_append_left _ (Option.mem_toList.mpr hs)
    · exact fun string hs => List.mem_append_right _ (Option.mem_toList.mpr hs)
  | compactRange lower upper =>
    refine hrange (some (utf8 lower)) (some (utf8 upper)) ?_ ?_
    · rintro k ⟨⟩
      exact hbounds lower List.mem_cons_self
    · rintro k ⟨⟩
      exact hbounds upper (List.mem_cons_of_mem _ List.mem_cons_self)

theorem step_accepts {site : Site} (h : site.KeysIn key.Decodes) {step : Step}
    (hs : step.Decodable key) :
    Ensures NotFatal (site.step canonical o key.codingKeyComparator step)
      (Site.KeysIn key.Decodes) := by
  cases site with
  | database db =>
    cases step with
    | call call env => exact (call_accepts h hs).bind fun _ h₁ => h₁
    | approximateSizesOfRanges keyRanges io =>
      have hkeys : ∀ range ∈ keyRanges,
          Ensures NotFatal (rangeKeys canonical key.codingKeyComparator range.1 range.2) fun r =>
            ∀ bounds, r = .ok bounds → key.Decodes bounds.1 ∧ key.Decodes bounds.2 :=
        fun range hr => rangeKeys_accepts (hs range hr).1 (hs range hr).2
      refine Ensures.bind ?_ fun r (h₁ : r.2.KeysIn key.Decodes) => h₁
      rw [StringCalls.perform, StringCalls.encodeCall, bind_assoc]
      exact approximateSizes_accepts h io hkeys
    | approximateSizesOfClosedRanges keyRanges io =>
      have hkeys : ∀ range ∈ keyRanges,
          Ensures NotFatal (closedRangeKeys key.codingKeyComparator range.1 range.2) fun r =>
            ∀ bounds, r = .ok bounds → key.Decodes bounds.1 ∧ key.Decodes bounds.2 :=
        fun range _ => closedRangeKeys_accepts range.1 range.2
      refine Ensures.bind ?_ fun r (h₁ : r.2.KeysIn key.Decodes) => h₁
      rw [StringCalls.perform, StringCalls.encodeCall, bind_assoc]
      exact approximateSizes_accepts h io hkeys
    | close background =>
      refine (background_accepts h background).bind fun db₁ h₁ => ?_
      rintro dir ⟨⟩
      exact h₁.directory _
    | reopen options io => exact h
  | directory dir =>
    cases step with
    | reopen options io =>
      have hopen : Ensures NotFatal (DB.openAt (opened o key.codingKeyComparator) options io
          dir) (Recovery.OutcomeIn key.Decodes) :=
        Recovery.openAt_accepts (comparator_accepts key) io h
      refine hopen.bind fun r hr => ?_
      cases r with
      | ok db => exact hr
      | error e => exact hr
    | call call env => exact h
    | approximateSizesOfRanges keyRanges io => exact h
    | approximateSizesOfClosedRanges keyRanges io => exact h
    | close background => exact h

end Accepted

section FatalErrors

variable {κ : Type*} [LinearOrder κ] (key : CodingKeyType κ) (canonical : List Char → List Char)
  (o : Options)

/-- While every string can be decoded, no run reaches `fatalError`, and all keys that are stored
can be decoded too. -/
theorem fatalError_unreachable {steps : List Step} (h : ∀ step ∈ steps, step.Decodable key) :
    Ensures NotFatal (Site.run canonical o key.codingKeyComparator steps (.directory none))
      (Site.KeysIn key.Decodes) :=
  Stops.ensures_foldlM (I := Site.KeysIn key.Decodes) nofun
    fun _ h₁ step hs => step_accepts h₁ (h step hs)

/-- `enum CodingKeys: String, CodingKey { case id, name }` -/
def codingKeys : CodingKeyType (Fin 2) where
  name := utf8 "CodingKeys"
  initStringValue string := if string = "id" then some 0 else if string = "name" then some 1 else none

def codingKeys.stringValue (k : Fin 2) : String := if k = 0 then "id" else "name"

/-- Both keys are set and the database is compacted, measured, closed and opened again. -/
def setAndReopen : List Step :=
  [.reopen .default .healthy, .call (.setValue [7] "name" false) .quiet,
    .call (.writeBatch [("id", some [8]), ("name", none)] true) .quiet,
    .call (.compact none (some "name")) .quiet,
    .approximateSizesOfRanges [("id", "name")] ⟨fun _ => true, fun _ => 0⟩,
    .call (.setValue [9] "name" false) .quiet, .close [], .reopen .default .healthy,
    .call (.value "name") .quiet]

theorem decodable_setValue {data : Bytes} (hdata : data.length < 2 ^ 32) {string : String}
    (hk : codingKeys.Decodes (utf8 string)) (hs : StorableKey (utf8 string)) (sync : Bool)
    (env : Environment) : (Step.call (.setValue data string sync) env).Decodable codingKeys := by
  refine ⟨nofun, ?_, ?_, nofun⟩
  · intro s h
    obtain rfl := List.mem_singleton.mp h
    exact hk
  · intro r hr
    obtain rfl := List.mem_singleton.mp hr
    exact ⟨(Nat.le_add_right _ 8).trans_lt hs, hdata⟩

theorem fatalError_unreachable_run :
    Ensures NotFatal (Site.run id (unlimited none) codingKeys.codingKeyComparator setAndReopen
      (.directory none)) (Site.KeysIn codingKeys.Decodes) := by
  have hid : codingKeys.Decodes (utf8 "id") := (CodingKeyType.decodes_utf8 _).mpr (by decide)
  have hname : codingKeys.Decodes (utf8 "name") := (CodingKeyType.decodes_utf8 _).mpr (by decide)
  have hstorable : StorableKey (utf8 "name") := by decide +kernel
  apply fatalError_unreachable
  intro step hs
  simp only [setAndReopen, List.mem_cons, List.not_mem_nil, or_false] at hs
  rcases hs with rfl | rfl | rfl | rfl | rfl | rfl | rfl | rfl | rfl
  · trivial
  · exact decodable_setValue (by decide) hname hstorable _ _
  · refine ⟨by simp [Call.reads], by simp [Call.writes, hid, hname], ?_, by simp [Call.bounds]⟩
    have hlengths : (utf8 "id").length < 2 ^ 32 ∧ (utf8 "name").length < 2 ^ 32 := by
      decide +kernel
    simpa [Call.records, Call.record, Record.Fits] using hlengths
  · simp [Step.Decodable, Call.reads, Call.writes, Call.records, Call.bounds, hname]
  · simp [Step.Decodable, hid, hname]
  · exact decodable_setValue (by decide) hname hstorable _ _
  · trivial
  · trivial
  · simp [Step.Decodable, Call.reads, Call.writes, Call.records, Call.bounds, hname, hstorable]

example : (Site.run id (unlimited none) codingKeys.codingKeyComparator setAndReopen
    (.directory none)).isOk = true := by decide +kernel

/-- A key that does not decode is stored; the next call compares it. -/
theorem fatalError_reached :
    (∀ k, codingKeys.initStringValue (codingKeys.stringValue k) = some k) ∧
    codingKeys.codingKeyComparator.encodeKey "other" ≠ .error .keyEncodingFailed ∧
    Site.run id (unlimited none) codingKeys.codingKeyComparator
      [.reopen .default .healthy, .call (.setValue [7] "other" false) .quiet,
        .call (.value "name") .quiet] (.directory none) = .error .fatalError := by
  refine ⟨by decide, nofun, ?_⟩
  decide +kernel

end FatalErrors

end CodingRuns

end DVELevelDB
