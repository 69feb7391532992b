import DVELevelDB.DBWrite

/-! # The Objective-C database and write batch, and the Swift read -/

namespace DVELevelDB

open VersionStore DB

/-- `sliceForData`; the slice of `nil` is empty. -/
def sliceForData (data : Option Bytes) : Bytes := data.getD []

namespace DB

section Write

variable (o : Options) (io : WriteEvents) (sync : Bool)

def put (key value : Bytes) (db : DB) : Exec (Status × DB) := do
  let (status, _, db) ← db.write o io sync (some (WriteBatch.clear.put key value))
  return (status, db)

def delete (key : Bytes) (db : DB) : Exec (Status × DB) := do
  let (status, _, db) ← db.write o io sync (some (WriteBatch.clear.delete key))
  return (status, db)

end Write

/-- A newly created database. -/
def fresh : DB where
  mem := .empty
  imm := none
  version := ⟨fun _ => []⟩
  compactPointers _ := none
  lastSequence := 0
  snapshots := []
  bgError := .ok
  nextFileNumber := 4
  log := ⟨3, []⟩
  oldLogs := []
  logNumber := 3
  manifest := ⟨[{}, {}], 4, 0⟩

end DB

/-- Options whose size limits are never reached. -/
def Options.unlimited (c : Comparator) : Options where
  comparator := c
  filterPolicy := none
  blockRestartInterval := 16
  blockFull _ := false
  blockOffset _ := 0
  fileSize _ := 0
  memTableFull _ := false
  outputFull _ := false
  maxFileSize := 0

def DB.WriteEvents.quiet : WriteEvents := ⟨[], .ok, .ok⟩

/-- A call of the background thread, for a memtable or for level 0, without faults. -/
def DB.BackgroundEvent.quiet : BackgroundEvent := ⟨⟨.ok, .ok⟩, .size ⟨0, by decide⟩, ⟨none, .ok⟩⟩

theorem DB.BackgroundEvent.quiet_healthy : BackgroundEvent.quiet.Healthy :=
  ⟨⟨rfl, rfl⟩, rfl, rfl⟩

theorem DB.WriteEvents.quiet_healthy (sync : Bool) : WriteEvents.quiet.Healthy sync :=
  ⟨fun _ h => absurd h List.not_mem_nil, rfl, fun _ => rfl⟩

theorem DB.WriteEvents.quiet_keepsKeysWhole {κ : Type*} (rank : Bytes → κ) (o : Options) (db : DB) :
    WriteEvents.quiet.KeepsKeysWhole rank o db := trivial

namespace DVECLevelDB

section Calls

variable (o : Options) (io : WriteEvents) (sync : Bool)

def dataForKey (c : Comparator) (files : FileAccess) (snapshot : Option ℕ) (key : Bytes) (db : DB) :
    Exec (Except NSError Bytes) := do
  match ← db.get c files snapshot (sliceForData key) with
  | .ok value => return .ok value
  | .error status =>
    match ← createFromLevelDBStatus status with
    | some levelDBError => return .error levelDBError
    | none => return .ok []

/-- `removeValueForKey:options:error:`; the error is `none` when the call returns `YES`. -/
def removeValueForKey (key : Bytes) (db : DB) : Exec (Option NSError × DB) := do
  let (status, db) ← db.delete o io sync (sliceForData key)
  return (← createFromLevelDBStatus status, db)

def setData (data : Option Bytes) (key : Bytes) (db : DB) : Exec (Option NSError × DB) :=
  if data.isNone then
    removeValueForKey o io sync key db
  else do
    let (status, db) ← db.put o io sync (sliceForData key) (sliceForData data)
    return (← createFromLevelDBStatus status, db)

end Calls

end DVECLevelDB

namespace DVECLevelDBWriteBatch

def removeValueForKey (key : Option Bytes) (b : WriteBatch) : WriteBatch :=
  b.delete (sliceForData key)

/-- `setData:forKey:`; the key is compared with `nil`, the data is not. -/
def setData (data key : Option Bytes) (b : WriteBatch) : WriteBatch :=
  if key.isNone then
    removeValueForKey key b
  else
    b.put (sliceForData key) (sliceForData data)

def writeWithOptions (o : Options) (io : WriteEvents) (sync : Bool) (b : WriteBatch) (db : DB) :
    Exec (Option NSError × WriteBatch × DB) := do
  let (status, b', db) ← db.write o io sync (some b)
  return (← createFromLevelDBStatus status, b'.getD b, db)

end DVECLevelDBWriteBatch

namespace LevelDB

def value (c : Comparator) (files : FileAccess) (snapshot : Option ℕ) (key : Bytes) (db : DB) :
    Exec (Except NSError (Option Bytes)) := do
  match ← DVECLevelDB.dataForKey c files snapshot key db with
  | .ok data => return .ok (some data)
  | .error e => if e.code = .notFound then return .ok none else return .error e

end LevelDB

section Reads

variable {κ : Type*} [LinearOrder κ] {D : Bytes → Prop} {rank : Bytes → κ} {c : Comparator}
  {files : FileAccess} {db : DB} {key : Bytes} {s : ℕ}

def notFoundError : NSError := ⟨.notFound, utf8 "NotFound: "⟩

def dataAnswer : Option Bytes → Except NSError Bytes
  | some value => .ok value
  | none => .error notFoundError

theorem createFromLevelDBStatus_notFound :
    createFromLevelDBStatus (.make .notFound [] []) = .ok (some notFoundError) := rfl

theorem DVECLevelDB.dataForKey_searchable (ho : c.OrdersOn D rank) (hfiles : files.Healthy)
    (h : db.Layered D rank) {snapshot : Option ℕ} (hs : snapshot.getD db.lastSequence = s)
    (hsr : Searchable c D rank db key s) :
    dataForKey c files snapshot key db = .ok (dataAnswer (db.viewAt rank s (rank key))) := by
  rw [dataForKey, sliceForData, Option.getD_some, DB.get_viewAt ho hfiles h hs hsr, Stops.ok_bind]
  cases db.viewAt rank s (rank key) with
  | some value => rfl
  | none =>
    simp only [DB.readAnswer, createFromLevelDBStatus_notFound, Stops.ok_bind]
    rfl

theorem DVECLevelDB.dataForKey_eq (ho : c.OrdersOn D rank) (hinj : Function.Injective rank)
    (hfiles : files.Healthy) (h : db.Layered D rank) (hall : ∀ k, D k) (hread : ReadableKey key)
    {snapshot : Option ℕ} (hs : snapshot.getD db.lastSequence = s) (hmax : s ≤ kMaxSequenceNumber) :
    dataForKey c files snapshot key db = .ok (dataAnswer (db.viewAt rank s (rank key))) :=
  dataForKey_searchable ho hfiles h hs (Searchable.of_injective ho hinj hall hread hmax)

theorem DB.fresh_wellFormed : DB.fresh.WellFormed D rank where
  layered :=
    { mem := Sorted.nil
      imm := Sorted.nil
      version := Version.empty_wellFormed
      mem_above := fun a ha => absurd ha List.not_mem_nil
      imm_above := fun a ha => absurd ha List.not_mem_nil }
  sequence_le := by
    intro e he
    exact absurd he List.not_mem_nil
  last_le := Nat.zero_le _
  file_number := fun _ _ hf => absurd hf List.not_mem_nil
  log_number := by decide

theorem DB.fresh_settled : DB.fresh.Settled D rank where
  wellFormed := fresh_wellFormed
  tidy :=
    { apart := fun _ _ _ hf => absurd hf List.not_mem_nil
      number := fun _ _ hf => absurd hf List.not_mem_nil }
  pointers := fun _ _ hkey => absurd hkey (by simp [fresh])
  snapshots := List.Pairwise.nil
  snapshots_le := fun _ hs => absurd hs List.not_mem_nil
  unheld := rfl

end Reads

end DVELevelDB
