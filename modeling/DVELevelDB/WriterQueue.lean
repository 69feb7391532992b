import DVELevelDB.FilteredReads
import DVELevelDB.Lib.LeaderQueue

/-! # Concurrent writers

Every call of `Write` waits in a queue. The first one makes room and writes its own batch together
with those behind it, while the mutex is free for others.
-/

namespace DVELevelDB

open VersionStore LeaderQueue
open Stops (Ensures)

namespace DB

section Commit

variable {κ : Type*} [LinearOrder κ] {D : Bytes → Prop} {rank : Bytes → κ} {o : Options} {db : DB}

end Commit

end DB

namespace WriterQueue

/-- What a call of `Write` waits with; without a batch it only makes room. -/
structure Request where
  batch : Option WriteBatch
  sync : Bool

section BuildBatchGroup

/-- A small write does not wait for a big group. -/
def maxGroupSize (size : ℕ) : ℕ := if size ≤ 128 <<< 10 then size + 128 <<< 10 else 1 <<< 20

/-- The loop of `BuildBatchGroup`: how many of the writers behind the first one are in its group,
and the batch of the group. It is the first one's own batch until a temporary one is needed. -/
def buildLoop (first : WriteBatch) (sync : Bool) (size : ℕ) (result : Option WriteBatch) :
    List Request → ℕ × WriteBatch
  | [] => (0, result.getD first)
  | w :: ws =>
    if w.sync && !sync then
      -- a sync write is not handled by a non-sync write
      (0, result.getD first)
    else
      match w.batch with
      | some batch =>
        let size := size + batch.rep.length
        if size > maxGroupSize first.rep.length then
          (0, result.getD first)
        else
          let result := (result.getD (WriteBatch.clear.append first)).append batch
          let r := buildLoop first sync size (some result) ws
          (r.1 + 1, r.2)
      | none =>
        let r := buildLoop first sync size result ws
        (r.1 + 1, r.2)

def buildBatchGroup (first : WriteBatch) (sync : Bool) (behind : List Request) : ℕ × WriteBatch :=
  let r := buildLoop first sync first.rep.length none behind
  (r.1 + 1, r.2)

end BuildBatchGroup

/-- What the first writer is doing: making room, or writing the batch of the first `n` calls. -/
inductive Phase where
  | idle
  | room (force allowDelay : Bool)
  | writing (n : ℕ) (batch : WriteBatch)

structure State (ι : Type) where
  db : DB
  queue : Queue ι Request Status
  phase : Phase

/-- What can happen while the mutex is held, by the threads or in the background. -/
inductive Step (ι : Type) where
  | call (i : ι) (request : Request)
  | wake (i : ι)
  | room (newLogFile : Status)
  | commit (append syncFile : Status)
  | background (io : DB.BackgroundEvent)

section Steps

variable {ι : Type} [DecidableEq ι] (o : Options)

/-- The first writer begins with `MakeRoomForWrite(updates == nullptr)`. -/
def Phase.start (request : Request) : Phase := .room request.batch.isNone request.batch.isSome

def call (i : ι) (request : Request) (s : State ι) : State ι :=
  match s.queue.place i with
  | .outside => { s with
      queue := s.queue.enter i request
      phase := if s.queue.waiting.isEmpty then .start request else s.phase }
  | _ => s

/-- Who waits looks at the queue again. -/
def look (i : ι) (s : State ι) : State ι where
  db := s.db
  queue := s.queue.wake i
  phase := match s.queue.look i, s.queue.waiting with
    | .leading, (_, request) :: _ => .start request
    | _, _ => s.phase

def wake (i : ι) (s : State ι) : State ι :=
  match s.queue.place i with
  | .asleep | .awake => look i s
  | _ => s

def finish (i : ι) (n : ℕ) (status : Status) (s : State ι) : State ι :=
  ⟨s.db, s.queue.leave i n status, .idle⟩

/-- The first writer has the status of `MakeRoomForWrite`. -/
def roomMade (i : ι) (request : Request) (behind : List Request) (status : Status) (s : State ι) :
    State ι :=
  match request.batch with
  | some batch =>
    if status.isOk then
      let r := buildBatchGroup batch request.sync behind
      { s with phase := .writing r.1 r.2 }
    else
      finish i 1 status s
  | none => finish i 1 status s

/-- One turn of the loop of `MakeRoomForWrite`. -/
def roomTurn (force allowDelay : Bool) (newLogFile : Status) (i : ι) (request : Request)
    (behind : List Request) (s : State ι) : State ι :=
  match DB.roomDecision o force allowDelay s.db with
  | .done status => roomMade i request behind status s
  | .sleep => { s with phase := .room force false }
  | .wait => s
  | .switch =>
    if newLogFile.isOk then
      { s with db := s.db.switchMemTable, phase := .room false allowDelay }
    else
      roomMade i request behind newLogFile s

/-- A step that the state does not allow has no effect. -/
def step (s : State ι) : Step ι → Exec (State ι)
  | .call i request => return call i request s
  | .wake i => return wake i s
  | .room newLogFile =>
    match s.phase, s.queue.waiting with
    | .room force allowDelay, (i, request) :: behind =>
      return roomTurn o force allowDelay newLogFile i request (behind.map (·.2)) s
    | _, _ => return s
  | .commit append syncFile =>
    match s.phase, s.queue.waiting with
    | .writing n batch, (i, request) :: _ => do
      let (status, db) ← DB.commit o append syncFile request.sync batch s.db
      return finish i n status { s with db }
    | _, _ => return s
  | .background io => do return { s with db := ← DB.backgroundCall o io s.db }

def run (steps : List (Step ι)) (s : State ι) : Exec (State ι) := steps.foldlM (step o) s

end Steps

section Group

def Request.ops (r : Request) : List Record := (r.batch.map WriteBatch.records).getD []

def Request.Valid (D : Bytes → Prop) (r : Request) : Prop :=
  ∀ b ∈ r.batch, b.Denotes b.records ∧ b.records.length < 2 ^ 31 ∧
    ∀ op ∈ b.records, D op.key ∧ StorableKey op.key

variable {D : Bytes → Prop} {first : WriteBatch} {sync : Bool} {acc : List Record}

/-- A group has the records `acc` and those of the first of `ws`, which it can all handle. -/
structure Gathers (sync : Bool) (acc : List Record) (ws : List Request) (r : ℕ × WriteBatch) :
    Prop where
  le : r.1 ≤ ws.length
  denotes : r.2.Denotes (acc ++ (ws.take r.1).flatMap Request.ops)
  length : (acc ++ (ws.take r.1).flatMap Request.ops).length < 2 ^ 31
  sync : ∀ w ∈ ws.take r.1, w.sync = true → sync = true

theorem Gathers.stop {batch : WriteBatch} (h : batch.Denotes acc) (hlen : acc.length < 2 ^ 31)
    (ws : List Request) : Gathers sync acc ws (0, batch) := by
  refine ⟨Nat.zero_le _, ?_, ?_, by simp⟩
  · simpa using h
  · simpa using hlen

theorem Gathers.weaken {ws : List Request} {r : ℕ × WriteBatch} (h : Gathers sync acc ws r)
    (more : List Request) : Gathers sync acc (ws ++ more) r := by
  have htake : (ws ++ more).take r.1 = ws.take r.1 := List.take_append_of_le_length h.le
  refine ⟨h.le.trans ?_, htake ▸ h.denotes, htake ▸ h.length, htake ▸ h.sync⟩
  rw [List.length_append]
  exact Nat.le_add_right _ _

theorem Gathers.join {w : Request} {ws : List Request} {r : ℕ × WriteBatch}
    (h : Gathers sync (acc ++ w.ops) ws r) (hw : w.sync = true → sync = true) :
    Gathers sync acc (w :: ws) (r.1 + 1, r.2) := by
  have hops : acc ++ ((w :: ws).take (r.1 + 1)).flatMap Request.ops =
      acc ++ w.ops ++ (ws.take r.1).flatMap Request.ops := by
    rw [List.take_succ_cons, List.flatMap_cons, List.append_assoc]
  refine ⟨Nat.succ_le_succ h.le, ?_, ?_, ?_⟩
  · rw [hops]
    exact h.denotes
  · rw [hops]
    exact h.length
  · intro w' hw'
    rcases List.mem_cons.mp hw' with rfl | hw'
    · exact hw
    · exact h.sync w' hw'

end Group

section Holds

variable {ι κ : Type} [LinearOrder κ] {D : Bytes → Prop} {rank : Bytes → κ}

abbrev Calls (ι : Type) := List (ι × Request)

abbrev Groups (ι : Type) := List (Calls ι × Status)

def Calls.ops (calls : Calls ι) : List Record := calls.flatMap (·.2.ops)

def groupUpdates (rank : Bytes → κ) (groups : Groups ι) : List (Update κ Bytes) :=
  groups.flatMap fun g => if g.2.isOk then (Calls.ops g.1).map (Record.update rank) else []

def viewAfter (rank : Bytes → κ) (start : DB) (groups : Groups ι) : κ → Option Bytes :=
  applyUpdates (start.view rank) (groupUpdates rank groups)

structure Leads (s : State ι) (i : ι) (request : Request) (behind : Calls ι) : Prop where
  waiting : s.queue.waiting = (i, request) :: behind
  place : s.queue.place i = .leading

/-- Who is at work, and that the batch which is being written has the records of its group. -/
def State.Working (s : State ι) : Prop :=
  match s.phase with
  | .idle => ∀ i, s.queue.place i ≠ .leading
  | .room _ _ => ∃ i request behind, Leads s i request behind
  | .writing n batch => 1 ≤ n ∧ ∃ i request behind, Leads s i request behind ∧
      Gathers request.sync [] (s.queue.waiting.map (·.2)) (n, batch)

/-- The invariant: `groups` have been written in the order of the calls, on top of `start`. -/
structure Holds (D : Bytes → Prop) (rank : Bytes → κ) (start : DB) (calls : Calls ι)
    (groups : Groups ι) (s : State ι) : Prop where
  queue : s.queue.Coherent calls groups
  settled : s.db.Settled D rank
  view : s.db.view rank = viewAfter rank start groups
  last : s.db.lastSequence + (Calls.ops s.queue.waiting).length ≤
    start.lastSequence + (Calls.ops calls).length
  sync : ∀ g ∈ groups, ∀ c ∈ g.1, c.2.sync = true → ∀ l ∈ g.1.head?, l.2.sync = true
  valid : ∀ c ∈ calls, c.2.Valid D
  working : s.Working

variable {start : DB} {calls : Calls ι} {groups : Groups ι} {s : State ι} {i : ι}
  {request : Request} {behind : Calls ι}

theorem State.Working.of_same (h : s.Working) {s' : State ι} {more : Calls ι}
    (hp : s'.phase = s.phase) (hwait : s'.queue.waiting = s.queue.waiting ++ more)
    (hplace : ∀ j, s'.queue.place j = .leading ↔ s.queue.place j = .leading) : s'.Working := by
  have hleads : ∀ {i request behind}, Leads s i request behind →
      Leads s' i request (behind ++ more) := by
    rintro i request behind ⟨hw, hpl⟩
    exact ⟨by rw [hwait, hw, List.cons_append], (hplace i).mpr hpl⟩
  rw [State.Working] at h ⊢
  rw [hp]
  cases hphase : s.phase with
  | idle =>
    rw [hphase] at h
    exact fun j hj => h j ((hplace j).mp hj)
  | room force allowDelay =>
    rw [hphase] at h
    obtain ⟨i, request, behind, hlead⟩ := h
    exact ⟨i, request, _, hleads hlead⟩
  | writing n batch =>
    rw [hphase] at h
    obtain ⟨hn, i, request, behind, hlead, hg⟩ := h
    refine ⟨hn, i, request, _, hleads hlead, ?_⟩
    rw [hwait, List.map_append]
    exact hg.weaken _

variable [DecidableEq ι]

variable {o : Options}

def State.quiet (db : DB) : State ι := ⟨db, .empty, .idle⟩

end Holds

end WriterQueue

end DVELevelDB
