import DVELevelDB.AcceptedCompactions
import DVELevelDB.ApproximateSizes
import DVELevelDB.DirectAndBatched

/-! # Keys and values of any type

The Swift calls take keys and values of every type that exposes its bytes, and hand the bytes on
without copying them.
-/

namespace DVELevelDB

open VersionStore DB
open Stops (Ensures)

/-- Without a base address a buffer is empty; an empty one may have an address. -/
structure UnsafeRawBufferPointer where
  baseAddress : Option ℕ
  bytes : Bytes
  empty : baseAddress = none → bytes = []

class ContiguousBytes (α : Type) where
  /-- The buffer that the body gets. -/
  withUnsafeBytes : α → UnsafeRawBufferPointer

instance : ContiguousBytes UnsafeRawBufferPointer := ⟨id⟩

section Helper

variable {α β R : Type} [ContiguousBytes α] [ContiguousBytes β]

def bufferOf (bytes : α) : UnsafeRawBufferPointer := ContiguousBytes.withUnsafeBytes bytes

/-- `buffer.baseAddress!` ends the process for `nil`. -/
def withUnsafeData (bytes : α) (body : Bytes → Exec R) : Exec R :=
  match (bufferOf bytes).baseAddress with
  | some _ => body (bufferOf bytes).bytes
  | none => throw .fatalError

def withUnsafeData₂ (bytes1 : α) (bytes2 : β) (body : Bytes → Bytes → Exec R) : Exec R :=
  withUnsafeData bytes1 fun data1 => withUnsafeData bytes2 fun data2 => body data1 data2

end Helper

structure Store where
  db : DB
  batch : WriteBatch

namespace ByteCalls

/-- A call with the keys and values it takes and what the environment does meanwhile. -/
inductive Call (Key Value : Type) where
  | value (key : Key) (files : FileAccess) (snapshot : Option ℕ)
  | setValue (value : Value) (key : Key) (io : WriteEvents) (sync : Bool)
  | removeValue (key : Key) (io : WriteEvents) (sync : Bool)
  | batchSetValue (value : Value) (key : Key)
  | batchRemoveValue (key : Key)
  | compact (startKey endKey : Option Key) (io : RangeEvents)
  | getApproximateSizes (keyRanges : List (Key × Key)) (io : SizeEvents)

inductive Result where
  | value (answer : Except NSError (Option Bytes))
  | error (error : Option NSError)
  | sizes (sizes : List ℕ)
  | done

section Calls

variable (o : Options)

/-- The Objective-C method that a call comes to. -/
def send (w : Store) : Call Bytes Bytes → Exec (Result × Store)
  | .value keyData files snapshot => do
    return (.value (← LevelDB.value o.comparator files snapshot keyData w.db), w)
  | .setValue valueData keyData io sync => do
    let (error, db) ← DVECLevelDB.setData o io sync (some valueData) keyData w.db
    return (.error error, { w with db })
  | .removeValue keyData io sync => do
    let (error, db) ← DVECLevelDB.removeValueForKey o io sync keyData w.db
    return (.error error, { w with db })
  | .batchSetValue valueData keyData =>
    return (.done, { w with
      batch := DVECLevelDBWriteBatch.setData (some valueData) (some keyData) w.batch })
  | .batchRemoveValue keyData =>
    return (.done, { w with
      batch := DVECLevelDBWriteBatch.removeValueForKey (some keyData) w.batch })
  | .compact startKeyData endKeyData io => do
    return (.done, { w with db := ← DB.compactRange o io startKeyData endKeyData w.db })
  | .getApproximateSizes keyRanges io => do
    return (.sizes (← DB.getApproximateSizes o.comparator io keyRanges w.db), w)

variable {Key Value : Type} [ContiguousBytes Key] [ContiguousBytes Value]

def perform (w : Store) : Call Key Value → Exec (Result × Store)
  | .value key files snapshot =>
    withUnsafeData key fun keyData => send o w (.value keyData files snapshot)
  | .setValue value key io sync =>
    withUnsafeData₂ key value fun keyData valueData => send o w (.setValue valueData keyData io sync)
  | .removeValue key io sync =>
    withUnsafeData key fun keyData => send o w (.removeValue keyData io sync)
  | .batchSetValue value key =>
    withUnsafeData₂ key value fun keyData valueData => send o w (.batchSetValue valueData keyData)
  | .batchRemoveValue key =>
    withUnsafeData key fun keyData => send o w (.batchRemoveValue keyData)
  | .compact none none io => send o w (.compact none none io)
  | .compact (some startKey) none io =>
    withUnsafeData startKey fun startKeyData => send o w (.compact (some startKeyData) none io)
  | .compact none (some endKey) io =>
    withUnsafeData endKey fun endKeyData => send o w (.compact none (some endKeyData) io)
  | .compact (some startKey) (some endKey) io =>
    withUnsafeData₂ startKey endKey fun startKeyData endKeyData =>
      send o w (.compact (some startKeyData) (some endKeyData) io)
  | .getApproximateSizes keyRanges io => do
    let cKeyRanges ← keyRanges.mapM fun keyRange =>
      withUnsafeData₂ keyRange.1 keyRange.2 fun startKeyData limitKeyData =>
        return (startKeyData, limitKeyData)
    send o w (.getApproximateSizes cKeyRanges io)

end Calls

section Arguments

variable {Key Value Key' Value' : Type} [ContiguousBytes Key] [ContiguousBytes Value]
  [ContiguousBytes Key'] [ContiguousBytes Value']

def Call.exposed : Call Key Value → Call Bytes Bytes
  | .value k files snapshot => .value (bufferOf k).bytes files snapshot
  | .setValue v k io sync => .setValue (bufferOf v).bytes (bufferOf k).bytes io sync
  | .removeValue k io sync => .removeValue (bufferOf k).bytes io sync
  | .batchSetValue v k => .batchSetValue (bufferOf v).bytes (bufferOf k).bytes
  | .batchRemoveValue k => .batchRemoveValue (bufferOf k).bytes
  | .compact startKey endKey io =>
    .compact (startKey.map fun k => (bufferOf k).bytes) (endKey.map fun k => (bufferOf k).bytes) io
  | .getApproximateSizes keyRanges io =>
    .getApproximateSizes
      (keyRanges.map fun range => ((bufferOf range.1).bytes, (bufferOf range.2).bytes)) io

def Call.buffers : Call Key Value → List UnsafeRawBufferPointer
  | .value k _ _ => [bufferOf k]
  | .setValue v k _ _ => [bufferOf k, bufferOf v]
  | .removeValue k _ _ => [bufferOf k]
  | .batchSetValue v k => [bufferOf k, bufferOf v]
  | .batchRemoveValue k => [bufferOf k]
  | .compact startKey endKey _ => (startKey.toList ++ endKey.toList).map bufferOf
  | .getApproximateSizes keyRanges _ =>
    keyRanges.flatMap fun range => [bufferOf range.1, bufferOf range.2]

/-- Every argument has a base address, the empty ones too. -/
def Call.Based (call : Call Key Value) : Prop := ∀ b ∈ call.buffers, b.baseAddress.isSome

/-- Two calls do the same, and nothing but the method they come to can stop them. -/
structure Interchangeable (o : Options) (call : Call Key Value)
    (call' : Call Key' Value') (w : Store) : Prop where
  same : perform o w call = perform o w call'
  reaches : perform o w call = send o w call.exposed
  not_fatal : perform o w call ≠ .error .fatalError

section Helper

variable {α β R : Type} [ContiguousBytes α] [ContiguousBytes β] {a : α} {b : β}

theorem withUnsafeData_eq (h : (bufferOf a).baseAddress.isSome) (body : Bytes → Exec R) :
    withUnsafeData a body = body (bufferOf a).bytes := by
  obtain ⟨address, h⟩ := Option.isSome_iff_exists.mp h
  rw [withUnsafeData, h]

theorem withUnsafeData_none (h : ¬ (bufferOf a).baseAddress.isSome) (body : Bytes → Exec R) :
    withUnsafeData a body = .error .fatalError := by
  rw [withUnsafeData, Option.not_isSome_iff_eq_none.mp h]
  rfl

theorem withUnsafeData₂_eq (ha : (bufferOf a).baseAddress.isSome)
    (hb : (bufferOf b).baseAddress.isSome) (body : Bytes → Bytes → Exec R) :
    withUnsafeData₂ a b body = body (bufferOf a).bytes (bufferOf b).bytes := by
  rw [withUnsafeData₂, withUnsafeData_eq ha, withUnsafeData_eq hb]

theorem withUnsafeData₂_none
    (h : ¬ ((bufferOf a).baseAddress.isSome ∧ (bufferOf b).baseAddress.isSome))
    (body : Bytes → Bytes → Exec R) : withUnsafeData₂ a b body = .error .fatalError := by
  by_cases ha : (bufferOf a).baseAddress.isSome
  · rw [withUnsafeData₂, withUnsafeData_eq ha]
    exact withUnsafeData_none (fun hb => h ⟨ha, hb⟩) _
  · exact withUnsafeData_none ha _

theorem keyRanges_eq {keyRanges : List (α × α)}
    (h : ∀ b ∈ keyRanges.flatMap fun range => [bufferOf range.1, bufferOf range.2],
      b.baseAddress.isSome) :
    (keyRanges.mapM fun keyRange => withUnsafeData₂ keyRange.1 keyRange.2
      fun startKeyData limitKeyData => (return (startKeyData, limitKeyData) : Exec _)) =
      .ok (keyRanges.map fun range => ((bufferOf range.1).bytes, (bufferOf range.2).bytes)) := by
  induction keyRanges with
  | nil => rfl
  | cons range keyRanges ih =>
    rw [List.flatMap_cons, List.forall_mem_append] at h
    rw [List.mapM_cons, withUnsafeData₂_eq (h.1 _ (by simp)) (h.1 _ (by simp)), ih h.2]
    rfl

theorem keyRanges_none {keyRanges : List (α × α)}
    (h : ¬ ∀ b ∈ keyRanges.flatMap fun range => [bufferOf range.1, bufferOf range.2],
      b.baseAddress.isSome) :
    (keyRanges.mapM fun keyRange => withUnsafeData₂ keyRange.1 keyRange.2
      fun startKeyData limitKeyData => (return (startKeyData, limitKeyData) : Exec _)) =
      .error .fatalError := by
  induction keyRanges with
  | nil => exact absurd (fun b hb => absurd hb List.not_mem_nil) h
  | cons range keyRanges ih =>
    rw [List.flatMap_cons, List.forall_mem_append] at h
    rw [List.mapM_cons]
    by_cases hrange : (bufferOf range.1).baseAddress.isSome ∧ (bufferOf range.2).baseAddress.isSome
    · have hrest := ih fun hall => h ⟨by simpa using hrange, hall⟩
      rw [withUnsafeData₂_eq hrange.1 hrange.2, hrest]
      rfl
    · rw [withUnsafeData₂_none hrange]
      rfl

end Helper

variable {o : Options} {call : Call Key Value} {call' : Call Key' Value'} (w : Store)

theorem perform_eq (h : call.Based) : perform o w call = send o w call.exposed := by
  unfold Call.Based at h
  cases call with
  | value key files snapshot =>
    rw [perform, withUnsafeData_eq (h (bufferOf key) (by simp [Call.buffers]))]
    rfl
  | setValue value key io sync =>
    rw [perform, withUnsafeData₂_eq (h (bufferOf key) (by simp [Call.buffers]))
      (h (bufferOf value) (by simp [Call.buffers]))]
    rfl
  | removeValue key io sync =>
    rw [perform, withUnsafeData_eq (h (bufferOf key) (by simp [Call.buffers]))]
    rfl
  | batchSetValue value key =>
    rw [perform, withUnsafeData₂_eq (h (bufferOf key) (by simp [Call.buffers]))
      (h (bufferOf value) (by simp [Call.buffers]))]
    rfl
  | batchRemoveValue key =>
    rw [perform, withUnsafeData_eq (h (bufferOf key) (by simp [Call.buffers]))]
    rfl
  | compact startKey endKey io =>
    cases startKey with
    | none =>
      cases endKey with
      | none =>
        rw [perform]
        rfl
      | some endKey =>
        rw [perform, withUnsafeData_eq (h (bufferOf endKey) (by simp [Call.buffers]))]
        rfl
    | some startKey =>
      have hstart := h (bufferOf startKey) (by simp [Call.buffers])
      cases endKey with
      | none =>
        rw [perform, withUnsafeData_eq hstart]
        rfl
      | some endKey =>
        rw [perform, withUnsafeData₂_eq hstart (h (bufferOf endKey) (by simp [Call.buffers]))]
        rfl
  | getApproximateSizes keyRanges io =>
    rw [perform, keyRanges_eq h]
    rfl

theorem perform_none (h : ¬ call.Based) : perform o w call = .error .fatalError := by
  simp only [Call.Based, Call.buffers] at h
  cases call with
  | value key files snapshot =>
    rw [perform]
    exact withUnsafeData_none (by simpa using h) _
  | setValue value key io sync =>
    rw [perform]
    exact withUnsafeData₂_none (by simpa using h) _
  | removeValue key io sync =>
    rw [perform]
    exact withUnsafeData_none (by simpa using h) _
  | batchSetValue value key =>
    rw [perform]
    exact withUnsafeData₂_none (by simpa using h) _
  | batchRemoveValue key =>
    rw [perform]
    exact withUnsafeData_none (by simpa using h) _
  | compact startKey endKey io =>
    cases startKey with
    | none =>
      cases endKey with
      | none => exact absurd (fun b hb => absurd hb List.not_mem_nil) h
      | some endKey =>
        rw [perform]
        exact withUnsafeData_none (by simpa using h) _
    | some startKey =>
      cases endKey with
      | none =>
        rw [perform]
        exact withUnsafeData_none (by simpa using h) _
      | some endKey =>
        rw [perform]
        exact withUnsafeData₂_none (by simpa using h) _
  | getApproximateSizes keyRanges io =>
    rw [perform, keyRanges_none h]
    rfl

end Arguments

section Engine

variable {o : Options} {D : Bytes → Prop}

def Call.KeysIn (D : Bytes → Prop) : Call Bytes Bytes → Prop
  | .value k _ _ => LooksUp D k
  | .setValue v k _ _ => ∀ r ∈ (Record.put k v).batch.records, D r.key
  | .removeValue k _ _ => ∀ r ∈ (Record.delete k).batch.records, D r.key
  | .batchSetValue _ _ => True
  | .batchRemoveValue _ => True
  | .compact startKey endKey _ => (∀ k ∈ startKey, D k) ∧ ∀ k ∈ endKey, D k
  | .getApproximateSizes keyRanges _ => ∀ range ∈ keyRanges, D range.1 ∧ D range.2

variable (hc : o.comparator.AcceptsOn D)

include hc in
theorem send_notFatal {w : Store} (hdb : w.db.KeysIn D) {call : Call Bytes Bytes}
    (hcall : call.KeysIn D) : Ensures NotFatal (send o w call) fun _ => True := by
  have hop : ∀ (op : Operation) (io : WriteEvents) (sync : Bool),
      (∀ r ∈ op.direct.batch.records, D r.key) →
      Ensures NotFatal (op.perform o io sync w.db) fun _ => True := by
    intro op io sync hrecords
    have hupdates : ∀ b ∈ some op.direct.batch, ∀ r ∈ b.records, D r.key := by
      rintro _ ⟨⟩
      exact hrecords
    rw [Operation.perform_eq]
    refine (DB.write_accepts hc hdb io sync hupdates).bind fun r _ => ?_
    exact (createFromLevelDBStatus_notFatal _).bind fun _ _ => trivial
  cases call with
  | value key files snapshot =>
    exact (LevelDB.value_accepts hc hdb files snapshot hcall).bind fun _ _ => trivial
  | setValue value key io sync =>
    exact (hop (.setData (some value) key) io sync hcall).bind fun _ _ => trivial
  | removeValue key io sync =>
    exact (hop (.removeValueForKey key) io sync hcall).bind fun _ _ => trivial
  | batchSetValue value key => trivial
  | batchRemoveValue key => trivial
  | compact startKey endKey io =>
    exact (DB.compactRange_accepts hc hcall.1 hcall.2 hdb io).bind fun _ _ => trivial
  | getApproximateSizes keyRanges io =>
    exact (DB.getApproximateSizes_accepts hc io hdb hcall).bind fun _ _ => trivial

theorem keysIn_true (db : DB) : db.KeysIn fun _ => True := by
  have hentries : ∀ entries, DVELevelDB.KeysIn (fun _ => True) entries := fun _ _ _ => trivial
  have hfile : ∀ f : FileMetaData, f.KeysIn fun _ => True :=
    fun f => ⟨trivial, trivial, hentries _, fun _ _ => trivial⟩
  have hlog : ∀ log : LogFile, log.KeysIn fun _ => True := fun _ _ _ _ _ => trivial
  exact ⟨hentries _, hentries _, fun _ f _ => hfile f, fun _ _ _ => trivial, hlog _,
    fun log _ => hlog log, fun _ _ => ⟨fun _ _ => trivial, fun x _ => hfile x.2⟩⟩

theorem bytewise_accepts : bytewiseComparator.AcceptsOn fun _ => True := by
  constructor
  · intro a b _ _
    trivial
  · intro a b _ _
    unfold bytewiseComparator
    dsimp only
    split
    · split_ifs
      · exact (assertThat_notFatal _).bind fun _ _ => trivial
      · trivial
    · trivial
  · intro a _
    trivial

end Engine

section Interchange

variable {Key Value Key' Value' : Type} [ContiguousBytes Key] [ContiguousBytes Value]
  [ContiguousBytes Key'] [ContiguousBytes Value'] {o : Options} {D : Bytes → Prop}

/-- Arguments that expose the same bytes can be exchanged exactly when each of them has a base
address, also where it is empty. -/
theorem interchangeable_iff (hc : o.comparator.AcceptsOn D) {w : Store} (hdb : w.db.KeysIn D)
    {call : Call Key Value} {call' : Call Key' Value'} (h : call.exposed = call'.exposed)
    (hcall : call.exposed.KeysIn D) :
    (Interchangeable o call call' w ∧ Interchangeable o call' call w) ↔
      call.Based ∧ call'.Based := by
  constructor
  · rintro ⟨h₁, h₂⟩
    constructor
    · by_contra hbase
      exact h₁.not_fatal (perform_none w hbase)
    · by_contra hbase
      exact h₂.not_fatal (perform_none w hbase)
  · rintro ⟨hbase, hbase'⟩
    have hnot : send o w call.exposed ≠ .error .fatalError := by
      intro heq
      have hsend := send_notFatal hc hdb hcall
      rw [heq] at hsend
      exact hsend rfl
    have heq := perform_eq (o := o) w hbase
    have heq' := perform_eq (o := o) w hbase'
    refine ⟨⟨?_, heq, heq ▸ hnot⟩, ⟨?_, heq', heq' ▸ h ▸ hnot⟩⟩
    · rw [heq, heq', h]
    · rw [heq, heq', h]

/-- Two addresses of the same key and of an empty value. -/
theorem interchangeable_addresses :
    let set : ℕ → Call UnsafeRawBufferPointer UnsafeRawBufferPointer := fun address =>
      .setValue ⟨some address, [], nofun⟩ ⟨some (address + 8), [107], nofun⟩ .quiet false
    let o := Options.unlimited bytewiseComparator
    Interchangeable o (set 16) (set 32) ⟨DB.fresh, .clear⟩ ∧
      Interchangeable o (set 32) (set 16) ⟨DB.fresh, .clear⟩ := by
  intro set o
  have hbased : ∀ address, (set address).Based := by
    intro address b hb
    rcases List.mem_cons.mp hb with rfl | hb
    · rfl
    · obtain rfl := List.mem_singleton.mp hb
      rfl
  have hsame : (set 16).exposed = (set 32).exposed := rfl
  have hkeys : (set 16).exposed.KeysIn fun _ => True := fun _ _ => trivial
  exact (interchangeable_iff bytewise_accepts (keysIn_true _) hsame hkeys).mpr
    ⟨hbased 16, hbased 32⟩

/-- An empty value without a base address ends the process, one with an address is stored. -/
theorem not_interchangeable_empty :
    let set : Option ℕ → Call UnsafeRawBufferPointer UnsafeRawBufferPointer := fun address =>
      .setValue ⟨address, [], fun _ => rfl⟩ ⟨some 8, [107], nofun⟩ .quiet false
    let o := Options.unlimited bytewiseComparator
    let w : Store := ⟨DB.fresh, .clear⟩
    (set none).exposed = (set (some 16)).exposed ∧
      perform o w (set none) = .error .fatalError ∧ (perform o w (set (some 16))).isOk = true ∧
      ¬ Interchangeable o (set (some 16)) (set none) w := by
  intro set o w
  have hnone : perform o w (set none) = .error .fatalError := rfl
  have hsome : (perform o w (set (some 16))).isOk = true := by decide +kernel
  refine ⟨rfl, hnone, hsome, ?_⟩
  intro h
  rw [h.same, hnone] at hsome
  exact absurd hsome (by decide)

end Interchange

end ByteCalls

end DVELevelDB
