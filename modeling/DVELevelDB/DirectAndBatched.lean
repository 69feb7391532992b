import DVELevelDB.DVECLevelDB

/-! # Direct writes and batched writes

The same operations, one call each on the database or recorded in a batch that is written once.
-/

namespace DVELevelDB

open VersionStore DB

inductive Operation where
  | setData (data : Option Bytes) (key : Bytes)
  | removeValueForKey (key : Bytes)
  deriving DecidableEq, Repr

namespace Operation

def key : Operation → Bytes
  | setData _ key => key
  | removeValueForKey key => key

def Fits : Operation → Prop
  | setData data key => key.length < 2 ^ 32 ∧ (sliceForData data).length < 2 ^ 32
  | removeValueForKey key => key.length < 2 ^ 32

def perform (o : Options) (io : WriteEvents) (sync : Bool) (db : DB) :
    Operation → Exec (Option NSError × DB)
  | setData data key => DVECLevelDB.setData o io sync data key db
  | removeValueForKey key => DVECLevelDB.removeValueForKey o io sync key db

def record (b : WriteBatch) : Operation → WriteBatch
  | setData data key => DVECLevelDBWriteBatch.setData data (some key) b
  | removeValueForKey key => DVECLevelDBWriteBatch.removeValueForKey (some key) b

/-- The record a direct call writes. -/
def direct : Operation → Record
  | setData (some data) key => .put key data
  | setData none key => .delete key
  | removeValueForKey key => .delete key

/-- The record a batch holds. -/
def batched : Operation → Record
  | setData data key => .put key (sliceForData data)
  | removeValueForKey key => .delete key

@[simp] theorem direct_key (op : Operation) : op.direct.key = op.key := by
  rcases op with ⟨_ | _, _⟩ | _ <;> rfl

theorem direct_fits {op : Operation} (h : op.Fits) : op.direct.Fits := by
  rcases op with ⟨_ | data, key⟩ | key
  · exact h.1
  · exact h
  · exact h

theorem record_denotes {b : WriteBatch} {ops : List Record} (hb : b.Denotes ops) {op : Operation}
    (h : op.Fits) : (op.record b).Denotes (ops ++ [op.batched]) := by
  cases op with
  | setData data key => exact hb.put h.1 h.2
  | removeValueForKey key => exact hb.delete h

end Operation

def Record.batch : Record → WriteBatch
  | .put key value => WriteBatch.clear.put key value
  | .delete key => WriteBatch.clear.delete key

theorem Record.batch_denotes {r : Record} (h : r.Fits) : r.batch.Denotes [r] := by
  cases r with
  | put key value => exact WriteBatch.Denotes.clear.put h.1 h.2
  | delete key => exact WriteBatch.Denotes.clear.delete h

/-- Every operation is one write of a batch with one record. -/
theorem Operation.perform_eq (o : Options) (io : WriteEvents) (sync : Bool) (db : DB)
    (op : Operation) : op.perform o io sync db = (do
      let (status, _, db) ← db.write o io sync (some op.direct.batch)
      return (← createFromLevelDBStatus status, db)) := by
  rcases op with ⟨_ | data, key⟩ | key <;>
    simp only [perform, DVECLevelDB.setData, DVECLevelDB.removeValueForKey, DB.put, DB.delete,
      direct, Record.batch, sliceForData, Option.getD_some, Option.isNone_none,
      Option.isNone_some, if_true, Bool.false_eq_true, if_false, bind_assoc] <;> rfl

section Runs

variable (o : Options) (sync : Bool)

end Runs

/-- No compaction that the calls of a direct run wait for splits a key. -/
def DirectKeepsKeysWhole {κ : Type*} (rank : Bytes → κ) (o : Options) (sync : Bool) :
    List (Operation × WriteEvents) → DB → Prop
  | [], _ => True
  | (op, io) :: ops, db => io.KeepsKeysWhole rank o db ∧
      ∀ r, op.perform o io sync db = .ok r → DirectKeepsKeysWhole rank o sync ops r.2

section Contents

variable {κ : Type*} [LinearOrder κ] {rank : Bytes → κ}

end Contents

theorem foldl_record_denotes {ops : List Operation} (h : ∀ op ∈ ops, op.Fits) {b : WriteBatch}
    {rs : List Record} (hb : b.Denotes rs) :
    (ops.foldl Operation.record b).Denotes (rs ++ ops.map Operation.batched) := by
  induction ops generalizing b rs with
  | nil => simpa using hb
  | cons op ops ih =>
    have hstep := Operation.record_denotes hb (h op List.mem_cons_self)
    simpa using ih (fun op' h' => h op' (List.mem_cons_of_mem _ h')) hstep

section Exhaustion

variable {o : Options} {sync : Bool} {db : DB}

end Exhaustion

section Runs

variable {κ : Type*} [LinearOrder κ] {D : Bytes → Prop} {rank : Bytes → κ} {o : Options}
  {sync : Bool} {db : DB}

end Runs

section Agreement

variable {κ : Type*} [LinearOrder κ] (c : LawfulComparator κ) {o : Options} {files : FileAccess}
  {db : DB} {sync : Bool} {ops : List (Operation × WriteEvents)} {io : WriteEvents}

/-- A database that writes may be made to: its keys and sequence numbers are in order, and no
compaction that the two runs wait for splits a key. -/
structure Writable (rank : Bytes → κ) (o : Options) (sync : Bool)
    (ops : List (Operation × WriteEvents)) (io : WriteEvents) (db : DB) : Prop where
  arranged : db.Arranged (fun _ => True) rank
  sequence_lt : db.lastSequence < kMaxSequenceNumber
  direct : DirectKeepsKeysWhole rank o sync ops db
  batched : io.KeepsKeysWhole rank o db

end Agreement

end DVELevelDB
