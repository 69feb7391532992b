import DVELevelDB.BatchPrograms
import DVELevelDB.DirectAndBatched
import DVELevelDB.OptionValues
import Mathlib.Data.List.ReduceOption

/-! # Shared default options

`ReadOptions.default`, `WriteOptions.default`, `WriteOptions.useSyncWrite` and `Options.default`
are objects that every caller shares and anyone may change.
-/

namespace DVELevelDB

open VersionStore DB BatchState

/-- A read options object; its snapshot is named by its place among the snapshots. -/
structure ReadOptions where
  verifyChecksums : Bool
  fillCache : Bool
  snapshot : Option ℕ
  deriving DecidableEq, Repr

def ReadOptions.new : ReadOptions := ⟨false, true, none⟩

structure WriteOptions where
  syncWrite : Bool
  deriving DecidableEq, Repr

def WriteOptions.new : WriteOptions := ⟨false⟩

/-- A process that uses one database. The first options object of each class is its `default`,
the second write options object is `useSyncWrite`; a snapshot object is its sequence number until
it is deallocated. -/
structure Process where
  batches : BatchState
  readOptions : List ReadOptions
  writeOptions : List WriteOptions
  options : List DVECLevelDBOptions
  snapshots : List (Option ℕ)

namespace Process

def start : Process where
  batches := BatchState.start fresh
  readOptions := [.new]
  writeOptions := [.new, ⟨true⟩]
  options := [.new]
  snapshots := []

def default : ℕ := 0

/-- What happens in a process: the calls of its code, the end of a snapshot object that its code
no longer refers to, and the work of the background thread between two calls. -/
inductive Call where
  | setValue (value key : Bytes) (options : ℕ) (io : WriteEvents)
  | removeValue (key : Bytes) (options : ℕ) (io : WriteEvents)
  | batch (ins : Instruction) (options : ℕ)
  | createSnapshot
  | deallocSnapshot (i : ℕ)
  | background (ios : List BackgroundEvent)
  | newReadOptions
  | setVerifyChecksums (i : ℕ) (verifyChecksums : Bool)
  | setFillCache (i : ℕ) (fillCache : Bool)
  | setSnapshot (i : ℕ) (snapshot : Option ℕ)
  | newWriteOptions
  | setSyncWrite (i : ℕ) (syncWrite : Bool)
  | newOptions
  | setOptions (i : ℕ) (options : DVECLevelDBOptions)
  | value (key : Bytes) (options : ℕ)

inductive Result where
  | done (error : Option NSError)
  | value (answer : Except NSError (Option Bytes))
  deriving DecidableEq

section Steps

variable (o : Options) (files : ReadOptions → FileAccess)

def readOptionsAt (w : Process) (i : ℕ) : ReadOptions := w.readOptions[i]?.getD .new

def writeOptionsAt (w : Process) (i : ℕ) : WriteOptions := w.writeOptions[i]?.getD .new

def snapshotAt (w : Process) (i : ℕ) : Option ℕ := w.snapshots[i]?.join

/-- `_options->snapshot` as the engine reads it. -/
def snapshotOf (w : Process) (i : ℕ) : Option ℕ := do
  w.snapshotAt (← (w.readOptionsAt i).snapshot)

/-- Some read options hold the snapshot object. -/
def holdsSnapshot (w : Process) (i : ℕ) : Bool := w.readOptions.any (·.snapshot == some i)

def setDb (w : Process) (db : DB) : Process := { w with batches := { w.batches with db := db } }

/-- A write takes the flag from its options. -/
def withSync (sync : Bool) : Instruction → Instruction
  | .write i io _ => .write i io sync
  | ins => ins

def perform (w : Process) (op : Operation) (options : ℕ) (io : WriteEvents) :
    Exec (Result × Process) := do
  let (error, db) ← op.perform o io (w.writeOptionsAt options).syncWrite w.batches.db
  return (.done error, w.setDb db)

/-- The engine releases its snapshot when the object is deallocated, which no options object that
holds it permits. -/
def deallocSnapshot (w : Process) (i : ℕ) : Process :=
  match w.snapshotAt i with
  | none => w
  | some s =>
    if w.holdsSnapshot i then
      w
    else
      { w.setDb (w.batches.db.releaseSnapshot s) with snapshots := w.snapshots.set i none }

/-- Only a snapshot object that is still there can be put into options. -/
def setSnapshot (w : Process) (i : ℕ) (snapshot : Option ℕ) : Process :=
  if snapshot.all fun j => (w.snapshotAt j).isSome then
    { w with readOptions := w.readOptions.modify i fun r => { r with snapshot } }
  else
    w

def step (w : Process) : Call → Exec (Result × Process)
  | .setValue value key options io => w.perform o (.setData (some value) key) options io
  | .removeValue key options io => w.perform o (.removeValueForKey key) options io
  | .batch ins options => do
    let (error, batches) ← w.batches.step o (withSync (w.writeOptionsAt options).syncWrite ins)
    return (.done error, { w with batches := batches })
  | .createSnapshot =>
    return (.done none, { w.setDb w.batches.db.getSnapshot with
      snapshots := w.snapshots ++ [some w.batches.db.lastSequence] })
  | .deallocSnapshot i => return (.done none, w.deallocSnapshot i)
  | .background ios => return (.done none, w.setDb (← backgroundCalls o ios w.batches.db))
  | .newReadOptions => return (.done none, { w with readOptions := w.readOptions ++ [.new] })
  | .setVerifyChecksums i verifyChecksums =>
    return (.done none, { w with
      readOptions := w.readOptions.modify i fun r => { r with verifyChecksums := verifyChecksums } })
  | .setFillCache i fillCache =>
    return (.done none, { w with
      readOptions := w.readOptions.modify i fun r => { r with fillCache := fillCache } })
  | .setSnapshot i snapshot => return (.done none, w.setSnapshot i snapshot)
  | .newWriteOptions => return (.done none, { w with writeOptions := w.writeOptions ++ [.new] })
  | .setSyncWrite i syncWrite =>
    return (.done none, { w with writeOptions := w.writeOptions.modify i fun _ => ⟨syncWrite⟩ })
  | .newOptions => return (.done none, { w with options := w.options ++ [.new] })
  | .setOptions i options =>
    return (.done none, { w with options := w.options.modify i fun _ => options })
  | .value key options => do
    let answer ← LevelDB.value o.comparator (files (w.readOptionsAt options)) (w.snapshotOf options)
      key w.batches.db
    return (.value answer, w)

def run : List Call → Process → Exec (List (Call × Result) × Process)
  | [], w => return ([], w)
  | call :: calls, w => do
    let (result, w) ← w.step o files call
    let (trace, w) ← run calls w
    return ((call, result) :: trace, w)

end Steps

/-- What a run has done: the records of each batch object, the records written to the database,
and those that had been written when each snapshot was taken. -/
structure History where
  lists : List (List Record)
  written : List Record
  snapshots : List (List Record)

def records (lists : List (List Record)) : Instruction → List Record
  | .write i _ _ => lists[i]?.getD []
  | _ => []

namespace History

def empty : History := ⟨[], [], []⟩

def extend (h : History) : Call × Result → History
  | (.setValue value key _ _, .done none) => { h with written := h.written ++ [.put key value] }
  | (.removeValue key _ _, .done none) => { h with written := h.written ++ [.delete key] }
  | (.batch ins _, .done none) =>
    { h with lists := ins.denote h.lists, written := h.written ++ records h.lists ins }
  | (.batch ins _, _) => { h with lists := ins.denote h.lists }
  | (.createSnapshot, _) => { h with snapshots := h.snapshots ++ [h.written] }
  | _ => h

def ofTrace (trace : List (Call × Result)) : History := trace.foldl extend empty

end History

/-- The value most recently written to a key. -/
def lastValue (written : List Record) (key : Bytes) : Option Bytes :=
  (written.reverse.find? fun r => r.key = key).bind Record.value

/-- No snapshot hides what was last written to `key` from default reads. -/
def Current (w : Process) (h : History) (key : Bytes) : Prop :=
  ∀ i written, (w.readOptionsAt default).snapshot = some i → h.snapshots[i]? = some written →
    lastValue written key = lastValue h.written key

section Bounds

def Call.Fits : Call → Prop
  | .setValue data key _ _ => key.length < 2 ^ 32 ∧ data.length < 2 ^ 32
  | .removeValue key _ _ => key.length < 2 ^ 32
  | .batch ins _ => ins.Fits
  | _ => True

def Call.denote (lists : List (List Record)) : Call → List (List Record)
  | .batch ins _ => ins.denote lists
  | _ => lists

def Call.sequences (lists : List (List Record)) : Call → ℕ
  | .setValue _ _ _ _ => 1
  | .removeValue _ _ _ => 1
  | .batch ins _ => ins.sequences lists
  | _ => 0

/-- The calls stay within the sizes the engine is made for: lengths below `2^32`, fewer than
`2^31` records in a batch at any time, sequence numbers of 56 bits. -/
def Within (lists : List (List Record)) (last : ℕ) : List Call → Prop
  | [] => True
  | call :: calls => call.Fits ∧ (∀ ops ∈ lists, ops.length < 2 ^ 31) ∧
      last + call.sequences lists < kMaxSequenceNumber ∧
      Within (call.denote lists) (last + call.sequences lists) calls

theorem Within.mono {lists : List (List Record)} {last last' : ℕ} {calls : List Call}
    (h : Within lists last calls) (hle : last' ≤ last) : Within lists last' calls := by
  induction calls generalizing lists last last' with
  | nil => trivial
  | cons call calls ih =>
    obtain ⟨hfits, hsmall, hlast, hrest⟩ := h
    exact ⟨hfits, hsmall, by omega, ih hrest (by omega)⟩

/-- No compaction that a call waits for, or that is done between two calls, splits a key. -/
def Call.KeepsKeysWhole {κ : Type*} [LinearOrder κ] (rank : Bytes → κ) (o : Options) (db : DB) :
    Call → Prop
  | .setValue _ _ _ io => io.KeepsKeysWhole rank o db
  | .removeValue _ _ io => io.KeepsKeysWhole rank o db
  | .batch ins _ => ins.KeepsKeysWhole rank o db
  | .background ios => CallsKeepKeysWhole rank o ios db
  | _ => True

def RunKeepsKeysWhole {κ : Type*} [LinearOrder κ] (rank : Bytes → κ) (o : Options)
    (files : ReadOptions → FileAccess) : List Call → Process → Prop
  | [], _ => True
  | call :: calls, w => call.KeepsKeysWhole rank o w.batches.db ∧
      ∀ r, w.step o files call = .ok r → RunKeepsKeysWhole rank o files calls r.2

def Call.takesSnapshot : Call → Bool
  | .createSnapshot => true
  | _ => false

variable (sync : Bool) (lists : List (List Record)) (ins : Instruction)

@[simp] theorem withSync_denote : (withSync sync ins).denote lists = ins.denote lists := by
  cases ins <;> rfl

@[simp] theorem withSync_sequences :
    (withSync sync ins).sequences lists = ins.sequences lists := by
  cases ins <;> rfl

@[simp] theorem withSync_fits : (withSync sync ins).Fits ↔ ins.Fits := by
  cases ins <;> rfl

@[simp] theorem withSync_records : records lists (withSync sync ins) = records lists ins := by
  cases ins <;> rfl

theorem withSync_keepsKeysWhole {κ : Type*} [LinearOrder κ] {rank : Bytes → κ} {o : Options}
    {db : DB} : (withSync sync ins).KeepsKeysWhole rank o db ↔ ins.KeepsKeysWhole rank o db := by
  cases ins <;> rfl

theorem callKeepsKeysWhole {κ : Type*} [LinearOrder κ] {D : Bytes → Prop} {rank : Bytes → κ}
    {o : Options} {db : DB} (ho : o.comparator.OrdersOn D rank)
    (hp : ∀ p ∈ o.filterPolicy, p.Lawful) (h : db.Settled D rank)
    (hm : db.lastSequence < kMaxSequenceNumber) (call : Call) :
    call.KeepsKeysWhole rank o db := by
  cases call with
  | setValue value key options io => exact h.keepsKeysWhole_write ho hp hm io
  | removeValue key options io => exact h.keepsKeysWhole_write ho hp hm io
  | batch ins options => exact instructionKeepsKeysWhole ho hp h hm ins
  | background ios => exact h.callsKeepKeysWhole ho hp ios hm
  | _ => trivial

theorem step_snapshots {o : Options} {files : ReadOptions → FileAccess} {w : Process} {call : Call}
    {r : Result × Process} (hnone : w.snapshots = []) (hcall : call.takesSnapshot = false)
    (hr : w.step o files call = .ok r) : r.2.snapshots = [] := by
  have hkept : ∀ {op options io}, w.perform o op options io = .ok r → r.2.snapshots = [] := by
    intro op options io hr
    obtain ⟨_, -, hpure⟩ := Stops.bind_eq_ok.mp hr
    obtain rfl := Except.ok.inj hpure
    exact hnone
  cases call with
  | setValue value key options io => exact hkept hr
  | removeValue key options io => exact hkept hr
  | batch ins options =>
    obtain ⟨_, -, hpure⟩ := Stops.bind_eq_ok.mp hr
    obtain rfl := Except.ok.inj hpure
    exact hnone
  | background ios =>
    obtain ⟨_, -, hpure⟩ := Stops.bind_eq_ok.mp hr
    obtain rfl := Except.ok.inj hpure
    exact hnone
  | value key options =>
    obtain ⟨_, -, hpure⟩ := Stops.bind_eq_ok.mp hr
    obtain rfl := Except.ok.inj hpure
    exact hnone
  | createSnapshot => cases hcall
  | deallocSnapshot i =>
    obtain rfl := Except.ok.inj hr
    simp only [deallocSnapshot, snapshotAt, hnone, List.getElem?_nil, Option.join_none]
  | setSnapshot i snapshot =>
    obtain rfl := Except.ok.inj hr
    simp only [setSnapshot]
    split_ifs <;> exact hnone
  | _ =>
    obtain rfl := Except.ok.inj hr
    exact hnone

end Bounds

section Contents

variable {κ : Type*} [LinearOrder κ] {rank : Bytes → κ}

def contents (rank : Bytes → κ) (written : List Record) : κ → Option Bytes :=
  applyUpdates (fun _ => none) (written.map (Record.update rank))

theorem contents_append (written more : List Record) : contents rank (written ++ more) =
    applyUpdates (contents rank written) (more.map (Record.update rank)) := by
  rw [contents, List.map_append, applyUpdates_append]
  rfl

theorem contents_apply (hinj : Function.Injective rank) (written : List Record) (key : Bytes) :
    contents rank written (rank key) = lastValue written key := by
  have hfind : (written.map (Record.update rank)).reverse.find? (fun u => u.1 = rank key) =
      (written.reverse.find? fun r => r.key = key).map (Record.update rank) := by
    rw [← List.map_reverse, List.find?_map]
    simp only [Function.comp_def, Record.update, hinj.eq_iff]
  rw [contents, applyUpdates_apply, hfind, lastValue]
  cases written.reverse.find? fun r => r.key = key <;> rfl

theorem effect_eq (lists : List (List Record)) (error : Option NSError) (m : κ → Option Bytes)
    (ins : Instruction) : ins.effect rank lists error m =
      if error.isNone then applyUpdates m ((records lists ins).map (Record.update rank)) else m := by
  cases ins <;> simp [Instruction.effect, records]

end Contents

structure Tracks {κ : Type*} [LinearOrder κ] (D : Bytes → Prop) (rank : Bytes → κ) (w : Process)
    (h : History) : Prop where
  represents : w.batches.Represents h.lists
  arranged : w.batches.db.Arranged D rank
  view : w.batches.db.view rank = contents rank h.written
  held : w.batches.db.snapshots.Perm w.snapshots.reduceOption
  snapshots : List.Forall₂ (fun snapshot written => ∀ s ∈ snapshot,
    w.batches.db.viewAt rank s = contents rank written) w.snapshots h.snapshots
  refers : ∀ r ∈ w.readOptions, ∀ i ∈ r.snapshot, (w.snapshotAt i).isSome

section Lists

variable {α β : Type*}

theorem mem_modify {l : List α} {i : ℕ} {f : α → α} {a : α} (h : a ∈ l.modify i f) :
    a ∈ l ∨ ∃ b ∈ l, a = f b := by
  obtain ⟨j, hj⟩ := List.mem_iff_getElem?.mp h
  rw [List.getElem?_modify] at hj
  obtain ⟨b, hb, hba⟩ := Option.map_eq_some_iff.mp hj
  have hmem := List.mem_of_getElem? hb
  by_cases hij : i = j
  · rw [if_pos hij] at hba
    exact .inr ⟨b, hmem, hba.symm⟩
  · rw [if_neg hij] at hba
    exact .inl (hba ▸ hmem)

theorem reduceOption_set {l : List (Option α)} {i : ℕ} {a : α} (h : l[i]? = some (some a)) :
    l.reduceOption.Perm (a :: (l.set i none).reduceOption) := by
  induction l generalizing i with
  | nil => simp at h
  | cons x l ih =>
    cases i with
    | zero =>
      obtain rfl : x = some a := by simpa using h
      rw [List.set_cons_zero, List.reduceOption_cons_of_some, List.reduceOption_cons_of_none]
    | succ i =>
      have hrest := ih (by simpa using h)
      rw [List.set_cons_succ]
      cases x with
      | none =>
        rw [List.reduceOption_cons_of_none, List.reduceOption_cons_of_none]
        exact hrest
      | some b =>
        rw [List.reduceOption_cons_of_some, List.reduceOption_cons_of_some]
        exact (hrest.cons b).trans (.swap a b _)

theorem forall₂_set {R : Option α → β → Prop} (hR : ∀ b, R none b) {l : List (Option α)}
    {bs : List β} (h : List.Forall₂ R l bs) (i : ℕ) : List.Forall₂ R (l.set i none) bs := by
  induction h generalizing i with
  | nil => exact .nil
  | cons hab hrest ih =>
    cases i with
    | zero => exact .cons (hR _) hrest
    | succ i => exact .cons hab (ih i)

end Lists

section Preservation

variable {κ : Type*} [LinearOrder κ] {D : Bytes → Prop} {rank : Bytes → κ} {o : Options}
  {w : Process} {h : History}

theorem Tracks.mem_snapshots (ht : Tracks D rank w h) {i s : ℕ} (hs : w.snapshotAt i = some s) :
    s ∈ w.batches.db.snapshots := by
  rw [ht.held.mem_iff, List.reduceOption_mem_iff]
  rw [snapshotAt, Option.join_eq_some_iff] at hs
  exact List.mem_of_getElem? hs

theorem Tracks.refersAt (ht : Tracks D rank w h) {i j : ℕ}
    (hj : (w.readOptionsAt i).snapshot = some j) : (w.snapshotAt j).isSome := by
  rw [readOptionsAt] at hj
  cases hr : w.readOptions[i]? with
  | none =>
    rw [hr] at hj
    cases hj
  | some r =>
    rw [hr] at hj
    exact ht.refers r (List.mem_of_getElem? hr) j hj

theorem Tracks.frame {w' : Process} (ht : Tracks D rank w h) (hb : w'.batches = w.batches)
    (hs : w'.snapshots = w.snapshots)
    (hr : ∀ r ∈ w'.readOptions, ∀ i ∈ r.snapshot, (w.snapshotAt i).isSome) :
    Tracks D rank w' h := by
  obtain ⟨hrep, harr, hview, hheld, hsnap, -⟩ := ht
  rw [← hb] at hrep harr hview hheld hsnap
  rw [← hs] at hheld hsnap
  refine ⟨hrep, harr, hview, hheld, hsnap, fun r hmem i hi => ?_⟩
  rw [snapshotAt, hs]
  exact hr r hmem i hi

theorem Tracks.modifyOptions (ht : Tracks D rank w h) (i : ℕ) {f : ReadOptions → ReadOptions}
    (hf : ∀ r, ∀ j ∈ (f r).snapshot, j ∈ r.snapshot ∨ (w.snapshotAt j).isSome) :
    Tracks D rank { w with readOptions := w.readOptions.modify i f } h := by
  refine ht.frame rfl rfl fun r hr j hj => ?_
  rcases mem_modify hr with hold | ⟨r', hr', rfl⟩
  · exact ht.refers r hold j hj
  · exact (hf r' j hj).elim (ht.refers r' hr' j) id

theorem Tracks.write {batches : BatchState} {lists : List (List Record)} {more : List Record}
    {n : ℕ} (ht : Tracks D rank w h) (hr : batches.Represents lists)
    (hadv : Advanced D rank n w.batches.db batches.db)
    (hview : batches.db.view rank =
      applyUpdates (w.batches.db.view rank) (more.map (Record.update rank))) :
    Tracks D rank { w with batches := batches } ⟨lists, h.written ++ more, h.snapshots⟩ := by
  refine ⟨hr, hadv.arranged, ?_, hadv.snapshots ▸ ht.held, ?_, ht.refers⟩
  · rw [contents_append, ← ht.view]
    exact hview
  · have hseen := ht.snapshots
    rw [List.forall₂_iff_zip] at hseen ⊢
    refine ⟨hseen.1, fun {snapshot written} hmem s hs => ?_⟩
    obtain rfl := Option.mem_def.mp hs
    have hheld : s ∈ w.batches.db.snapshots := by
      rw [ht.held.mem_iff, List.reduceOption_mem_iff]
      exact (List.of_mem_zip hmem).1
    rw [hadv.viewAt s (ht.arranged.smallest_le_of_mem hheld) (ht.arranged.snapshots_le s hheld)]
    exact hseen.2 hmem s rfl

theorem perform_tracks (ho : o.comparator.OrdersOn D rank) (hp : ∀ p ∈ o.filterPolicy, p.Lawful)
    (hall : ∀ k, D k) (ht : Tracks D rank w h) {op : Operation} (hfits : op.Fits)
    (hn : w.batches.db.lastSequence + 1 < kMaxSequenceNumber) (options : ℕ) (io : WriteEvents)
    (hwhole : io.KeepsKeysWhole rank o w.batches.db) :
    Stops.Ensures (fun _ => True) (w.perform o op options io) fun r => ∃ error,
      r.1 = .done error ∧
      r.2.batches.db.lastSequence ≤ w.batches.db.lastSequence + 1 ∧
      Tracks D rank r.2 ⟨h.lists, h.written ++ (if error.isNone then [op.direct] else []),
        h.snapshots⟩ := by
  have hden := Record.batch_denotes (Operation.direct_fits hfits)
  have hout := write_outcome ho hp ht.arranged (by omega) io (w.writeOptionsAt options).syncWrite
    hwhole hden (by simp) (fun r _ => hall r.key) hn.le
  rw [perform, Operation.perform_eq, bind_assoc]
  refine hout.bind ?_
  rintro ⟨status, b', db'⟩ ⟨-, hview, hadv⟩
  dsimp only at hview hadv ⊢
  cases he : createFromLevelDBStatus status with
  | error t => trivial
  | ok error =>
    have hok : error.isNone = status.isOk := by
      rw [Bool.eq_iff_iff, Option.isNone_iff_eq_none, Status.isOk_iff,
        createFromLevelDBStatus_isOk he]
    refine ⟨error, rfl, hadv.le, ?_⟩
    have hr := ht.represents
    apply @Tracks.write κ _ D rank w h { w.batches with db := db' } _ _ _ ht
      ⟨hr.length, hr.nodup, hr.alloc, hr.denotes⟩ hadv
    rw [hok]
    split_ifs at hview ⊢ <;> exact hview

theorem batch_tracks (ho : o.comparator.OrdersOn D rank) (hp : ∀ p ∈ o.filterPolicy, p.Lawful)
    (hall : ∀ k, D k) (ht : Tracks D rank w h) {ins : Instruction} (hfits : ins.Fits)
    (hsmall : ∀ ops ∈ h.lists, ops.length < 2 ^ 31)
    (hn : w.batches.db.lastSequence + ins.sequences h.lists < kMaxSequenceNumber)
    (hwhole : ins.KeepsKeysWhole rank o w.batches.db) :
    Stops.Ensures (fun _ => True) (w.batches.step o ins) fun r =>
      r.2.db.lastSequence ≤ w.batches.db.lastSequence + ins.sequences h.lists ∧
      Tracks D rank { w with batches := r.2 } ⟨ins.denote h.lists,
        h.written ++ (if r.1.isNone then records h.lists ins else []), h.snapshots⟩ := by
  refine (step_represents ho hp hall ht.represents ht.arranged (by omega) hwhole hfits hsmall
    hn.le).mono ?_
  rintro ⟨error, batches⟩ ⟨hr, hview, hadv⟩
  refine ⟨hadv.le, ht.write hr hadv ?_⟩
  dsimp only at hview ⊢
  rw [hview, effect_eq]
  split_ifs <;> rfl

theorem background_tracks (ho : o.comparator.OrdersOn D rank)
    (hp : ∀ p ∈ o.filterPolicy, p.Lawful) (ht : Tracks D rank w h)
    (hm : w.batches.db.lastSequence < kMaxSequenceNumber) {ios : List BackgroundEvent}
    (hwhole : CallsKeepKeysWhole rank o ios w.batches.db) :
    Stops.Ensures (fun _ => True) (backgroundCalls o ios w.batches.db) fun db =>
      db.lastSequence ≤ w.batches.db.lastSequence ∧ Tracks D rank (w.setDb db) h := by
  have hcalls := backgroundCalls_spec ho hp ios ht.arranged hm hwhole
  refine (hcalls.imp fun _ _ => trivial).mono fun db hdb => ⟨hdb.lastSequence.le, ?_⟩
  have hr := ht.represents
  have hw := @Tracks.write κ _ D rank w h { w.batches with db } h.lists [] 0 ht
    ⟨hr.length, hr.nodup, hr.alloc, hr.denotes⟩ (.of_rearranged hdb) hdb.view
  rwa [List.append_nil] at hw

theorem createSnapshot_tracks (ht : Tracks D rank w h) :
    Tracks D rank { w.setDb w.batches.db.getSnapshot with
      snapshots := w.snapshots ++ [some w.batches.db.lastSequence] }
      ⟨h.lists, h.written, h.snapshots ++ [h.written]⟩ where
  represents :=
    ⟨ht.represents.length, ht.represents.nodup, ht.represents.alloc, ht.represents.denotes⟩
  arranged := ht.arranged.getSnapshot
  view := ht.view
  held := by
    change (w.batches.db.snapshots ++ [w.batches.db.lastSequence]).Perm
      (w.snapshots ++ [some w.batches.db.lastSequence]).reduceOption
    rw [List.reduceOption_append]
    exact ht.held.append_right _
  snapshots := by
    refine List.rel_append ht.snapshots (.cons (fun s hs => ?_) .nil)
    obtain rfl := Option.some_inj.mp (Option.mem_def.mp hs)
    exact ht.view
  refers r hr i hi := by
    have hsome := ht.refers r hr i hi
    rw [Option.isSome_iff_exists] at hsome ⊢
    obtain ⟨s, hs⟩ := hsome
    rw [snapshotAt, Option.join_eq_some_iff] at hs
    refine ⟨s, ?_⟩
    rw [snapshotAt, List.getElem?_append_left (List.getElem?_eq_some_iff.mp hs).1, hs]
    rfl

/-- The engine forgets a snapshot that no options can ask for. -/
theorem deallocSnapshot_tracks (ht : Tracks D rank w h) (i : ℕ) :
    Tracks D rank (w.deallocSnapshot i) h := by
  unfold deallocSnapshot
  cases hs : w.snapshotAt i with
  | none => exact ht
  | some s =>
    dsimp only
    by_cases hheld : w.holdsSnapshot i = true
    · rw [if_pos hheld]
      exact ht
    · rw [if_neg hheld]
      have hi : w.snapshots[i]? = some (some s) := by
        rwa [snapshotAt, Option.join_eq_some_iff] at hs
      have hr := ht.represents
      refine ⟨⟨hr.length, hr.nodup, hr.alloc, hr.denotes⟩, ht.arranged.releaseSnapshot s, ht.view,
        ?_, forall₂_set (fun _ _ hnone => absurd hnone (by simp)) ht.snapshots i, ?_⟩
      · have hperm := (ht.held.trans (reduceOption_set hi)).erase s
        rwa [List.erase_cons_head] at hperm
      · intro r hmem j hj
        have hne : i ≠ j := by
          rintro rfl
          apply hheld
          rw [holdsSnapshot, List.any_eq_true]
          exact ⟨r, hmem, beq_iff_eq.mpr hj⟩
        rw [snapshotAt, List.getElem?_set_ne hne]
        exact ht.refers r hmem j hj

theorem setSnapshot_tracks (ht : Tracks D rank w h) (i : ℕ) (snapshot : Option ℕ) :
    Tracks D rank (w.setSnapshot i snapshot) h := by
  unfold setSnapshot
  split_ifs with hlive
  · apply ht.modifyOptions i
    intro _ j hj
    exact .inr ((Option.all_eq_true _ _).mp hlive j hj)
  · exact ht

variable {files : ReadOptions → FileAccess}

theorem step_tracks (ho : o.comparator.OrdersOn D rank) (hp : ∀ p ∈ o.filterPolicy, p.Lawful)
    (hall : ∀ k, D k) (ht : Tracks D rank w h) {call : Call} (hfits : call.Fits)
    (hsmall : ∀ ops ∈ h.lists, ops.length < 2 ^ 31)
    (hn : w.batches.db.lastSequence + call.sequences h.lists < kMaxSequenceNumber)
    (hwhole : call.KeepsKeysWhole rank o w.batches.db) :
    Stops.Ensures (fun _ => True) (w.step o files call) fun r =>
      r.2.batches.db.lastSequence ≤ w.batches.db.lastSequence + call.sequences h.lists ∧
      (h.extend (call, r.1)).lists = call.denote h.lists ∧
      Tracks D rank r.2 (h.extend (call, r.1)) := by
  have hlists : h.lists = h.lists := rfl
  cases call with
  | setValue value key options io =>
    have hset : Operation.Fits (.setData (some value) key) := hfits
    refine (perform_tracks ho hp hall ht hset hn options io hwhole).mono ?_
    rintro ⟨result, w'⟩ ⟨error, rfl, hlast, ht'⟩
    cases error with
    | none => exact ⟨hlast, rfl, ht'⟩
    | some error =>
      rw [if_neg (by simp), List.append_nil] at ht'
      exact ⟨hlast, rfl, ht'⟩
  | removeValue key options io =>
    have hremove : Operation.Fits (.removeValueForKey key) := hfits
    refine (perform_tracks ho hp hall ht hremove hn options io hwhole).mono ?_
    rintro ⟨result, w'⟩ ⟨error, rfl, hlast, ht'⟩
    cases error with
    | none => exact ⟨hlast, rfl, ht'⟩
    | some error =>
      rw [if_neg (by simp), List.append_nil] at ht'
      exact ⟨hlast, rfl, ht'⟩
  | batch ins options =>
    have hsync : w.batches.db.lastSequence + (withSync (w.writeOptionsAt options).syncWrite
        ins).sequences h.lists < kMaxSequenceNumber := by
      rw [withSync_sequences]
      exact hn
    refine (batch_tracks ho hp hall ht ((withSync_fits _ _).mpr hfits) hsmall hsync
      ((withSync_keepsKeysWhole _ _).mpr hwhole)).bind ?_
    rintro ⟨error, batches⟩ ⟨hlast, ht'⟩
    simp only [withSync_sequences, withSync_denote, withSync_records] at hlast ht'
    cases error with
    | none => exact ⟨hlast, rfl, ht'⟩
    | some error =>
      rw [if_neg (by simp), List.append_nil] at ht'
      exact ⟨hlast, rfl, ht'⟩
  | createSnapshot => exact ⟨le_rfl, rfl, createSnapshot_tracks ht⟩
  | deallocSnapshot i =>
    refine ⟨?_, rfl, deallocSnapshot_tracks ht i⟩
    change (w.deallocSnapshot i).batches.db.lastSequence ≤ _
    unfold deallocSnapshot
    split
    · exact le_rfl
    · split_ifs <;> exact le_rfl
  | background ios =>
    exact (background_tracks ho hp ht hn hwhole).bind fun db hdb => ⟨hdb.1, rfl, hdb.2⟩
  | newReadOptions =>
    refine ⟨le_rfl, rfl, ht.frame rfl rfl fun r hr i hi => ?_⟩
    rcases List.mem_append.mp hr with hr | hr
    · exact ht.refers r hr i hi
    · rw [List.mem_singleton.mp hr] at hi
      cases hi
  | setVerifyChecksums i verifyChecksums =>
    exact ⟨le_rfl, rfl, ht.modifyOptions i fun _ _ hj => .inl hj⟩
  | setFillCache i fillCache => exact ⟨le_rfl, rfl, ht.modifyOptions i fun _ _ hj => .inl hj⟩
  | setSnapshot i snapshot =>
    refine ⟨?_, rfl, setSnapshot_tracks ht i snapshot⟩
    change (w.setSnapshot i snapshot).batches.db.lastSequence ≤ _
    unfold setSnapshot
    split_ifs <;> exact le_rfl
  | newWriteOptions => exact ⟨le_rfl, rfl, ht.frame rfl rfl ht.refers⟩
  | setSyncWrite i syncWrite => exact ⟨le_rfl, rfl, ht.frame rfl rfl ht.refers⟩
  | newOptions => exact ⟨le_rfl, rfl, ht.frame rfl rfl ht.refers⟩
  | setOptions i options => exact ⟨le_rfl, rfl, ht.frame rfl rfl ht.refers⟩
  | value key options =>
    exact Stops.ensures_true.bind fun _ _ => ⟨le_rfl, rfl, ht.frame rfl rfl ht.refers⟩

theorem run_tracks (ho : o.comparator.OrdersOn D rank) (hp : ∀ p ∈ o.filterPolicy, p.Lawful)
    (hall : ∀ k, D k) {calls : List Call} (ht : Tracks D rank w h)
    (hwithin : Within h.lists w.batches.db.lastSequence calls)
    (hwhole : RunKeepsKeysWhole rank o files calls w) :
    Stops.Ensures (fun _ => True) (run o files calls w) fun r =>
      Tracks D rank r.2 (r.1.foldl History.extend h) := by
  induction calls generalizing w h with
  | nil => exact ht
  | cons call calls ih =>
    obtain ⟨hfits, hsmall, hn, hrest⟩ := hwithin
    have hstep := (@step_tracks _ _ _ _ _ _ _ files ho hp hall ht _ hfits hsmall hn
      hwhole.1).with_outcome
    refine (hstep.imp fun _ _ => trivial).bind ?_
    rintro ⟨result, w'⟩ ⟨⟨hlast, hlists, ht'⟩, hreached⟩
    have hwithin' := Within.mono hrest hlast
    rw [← hlists] at hwithin'
    exact (ih ht' hwithin' (hwhole.2 _ hreached)).bind fun _ hr => hr

theorem start_tracks : Tracks D rank start History.empty where
  represents := start_represents fresh
  arranged := fresh_settled.toArranged
  view := rfl
  held := .nil
  snapshots := .nil
  refers r hr i hi := by
    rw [start, List.mem_singleton] at hr
    rw [hr] at hi
    cases hi

theorem runKeepsKeysWhole (ho : o.comparator.OrdersOn D rank)
    (hp : ∀ p ∈ o.filterPolicy, p.Lawful) (hall : ∀ k, D k) {calls : List Call}
    (ht : Tracks D rank w h) (hnone : w.snapshots = [])
    (hwithin : Within h.lists w.batches.db.lastSequence calls)
    (hcalls : ∀ call ∈ calls, call.takesSnapshot = false) :
    RunKeepsKeysWhole rank o files calls w := by
  induction calls generalizing w h with
  | nil => trivial
  | cons call calls ih =>
    obtain ⟨hfits, hsmall, hn, hrest⟩ := hwithin
    have hsettled : w.batches.db.Settled D rank := by
      refine ⟨ht.arranged, List.Perm.eq_nil ?_⟩
      have hheld := ht.held
      rwa [hnone] at hheld
    have hwhole := callKeepsKeysWhole ho hp hsettled (by omega) call
    refine ⟨hwhole, fun r hr => ?_⟩
    obtain ⟨hlast, hlists, ht'⟩ := (step_tracks ho hp hall ht hfits hsmall hn hwhole).elim hr
    have hwithin' := Within.mono hrest hlast
    rw [← hlists] at hwithin'
    exact ih ht' (step_snapshots hnone (hcalls call List.mem_cons_self) hr) hwithin'
      fun call' hmem => hcalls call' (List.mem_cons_of_mem _ hmem)

end Preservation

section Reads

variable {κ : Type*} [LinearOrder κ] {rank : Bytes → κ} {w : Process} {h : History} {key : Bytes}

/-- The records that a default read sees. -/
def seenByDefault (w : Process) (h : History) : List Record :=
  ((w.readOptionsAt default).snapshot.bind fun i => h.snapshots[i]?).getD h.written

theorem current_iff : Current w h key ↔
    lastValue (seenByDefault w h) key = lastValue h.written key := by
  rw [Current, seenByDefault]
  cases (w.readOptionsAt default).snapshot with
  | none => simp
  | some i =>
    rw [Option.bind_some]
    cases hi : h.snapshots[i]? with
    | none =>
      refine iff_of_true ?_ rfl
      intro j written hj hwritten
      obtain rfl := Option.some_inj.mp hj
      rw [hi] at hwritten
      contradiction
    | some seen =>
      constructor
      · exact fun hcur => hcur i seen rfl hi
      · intro heq j written hj hwritten
        obtain rfl := Option.some_inj.mp hj
        obtain rfl := Option.some_inj.mp (hi.symm.trans hwritten)
        exact heq

theorem forall₂_getElem? {α β : Type*} {R : α → β → Prop} {as : List α} {bs : List β}
    (h : List.Forall₂ R as bs) (i : ℕ) :
    as[i]? = none ∧ bs[i]? = none ∨ ∃ a b, as[i]? = some a ∧ bs[i]? = some b ∧ R a b := by
  induction h generalizing i with
  | nil => exact .inl ⟨rfl, rfl⟩
  | cons hab _ ih =>
    cases i with
    | zero => exact .inr ⟨_, _, rfl, rfl, hab⟩
    | succ i => exact ih i

theorem Tracks.sees {D : Bytes → Prop} (ht : Tracks D rank w h) :
    (w.snapshotOf default).getD w.batches.db.lastSequence ≤ w.batches.db.lastSequence ∧
      w.batches.db.viewAt rank ((w.snapshotOf default).getD w.batches.db.lastSequence) =
        contents rank (seenByDefault w h) := by
  rw [snapshotOf, seenByDefault]
  cases hr : (w.readOptionsAt default).snapshot with
  | none => exact ⟨le_rfl, ht.view⟩
  | some i =>
    obtain ⟨s, hs⟩ := Option.isSome_iff_exists.mp (ht.refersAt hr)
    have hi := hs
    rw [snapshotAt, Option.join_eq_some_iff] at hi
    simp only [Option.bind_eq_bind, Option.bind_some, hs, Option.getD_some]
    refine ⟨ht.arranged.snapshots_le s (ht.mem_snapshots hs), ?_⟩
    rcases forall₂_getElem? ht.snapshots i with ⟨hnone, -⟩ | ⟨_, written, hsome, hh, hsees⟩
    · rw [hi] at hnone
      cases hnone
    · obtain rfl := Option.some_inj.mp (hi.symm.trans hsome)
      rw [hh]
      exact hsees s rfl

theorem value_eq {c : Comparator} (ho : c.OrdersOn (fun _ => True) rank)
    (hinj : Function.Injective rank) {files : FileAccess} (hfiles : files.Healthy)
    {db : DB} (hw : db.WellFormed (fun _ => True) rank) (hkey : ReadableKey key)
    {snapshot : Option ℕ} (hs : snapshot.getD db.lastSequence ≤ db.lastSequence) :
    LevelDB.value c files snapshot key db =
      .ok (.ok (db.viewAt rank (snapshot.getD db.lastSequence) (rank key))) := by
  rw [LevelDB.value, DVECLevelDB.dataForKey_eq ho hinj hfiles hw.layered (fun _ => trivial) hkey rfl
    (hs.trans hw.last_le), Stops.ok_bind]
  cases db.viewAt rank (snapshot.getD db.lastSequence) (rank key) <;> rfl

/-- In any run, a read with the default options returns what was last written, unless a snapshot
that was put into the shared object hides it. -/
theorem default_read_current_iff (c : LawfulComparator κ) {o : Options}
    (hc : o.comparator = c.toComparator) (hp : ∀ p ∈ o.filterPolicy, p.Lawful)
    {files : ReadOptions → FileAccess} (hfiles : ∀ r, (files r).Healthy) {calls : List Call}
    (hwithin : Within [] 0 calls) (hwhole : RunKeepsKeysWhole c.rank o files calls start)
    {trace : List (Call × Result)} (hrun : run o files calls start = .ok (trace, w))
    (hkey : ReadableKey key) :
    w.step o files (.value key default) =
        .ok (.value (.ok (lastValue (History.ofTrace trace).written key)), w) ↔
      Current w (History.ofTrace trace) key := by
  have ho : o.comparator.OrdersOn (fun _ => True) c.rank := hc ▸ c.orders
  have ht : Tracks (fun _ => True) c.rank w (History.ofTrace trace) :=
    (run_tracks ho hp (fun _ => trivial) start_tracks hwithin hwhole).elim hrun
  obtain ⟨hle, hsees⟩ := ht.sees
  have hread := value_eq ho c.rank_injective (hfiles (w.readOptionsAt default))
    ht.arranged.wellFormed hkey hle
  rw [hsees, contents_apply c.rank_injective] at hread
  rw [current_iff, step, hread, Stops.ok_bind]
  constructor
  · intro heq
    injection heq with heq
    injection heq with heq
    injection heq with heq
    injection heq
  · intro heq
    rw [heq]
    rfl

theorem default_read_current_run :
    let calls : List Call := [.setValue [1] [7] default .quiet, .createSnapshot,
      .setSnapshot default (some 0), .setValue [2] [8] default .quiet]
    ∃ trace w, run (.unlimited bytewiseComparator) (fun _ => .healthy) calls start =
        .ok (trace, w) ∧
      (w.step (.unlimited bytewiseComparator) (fun _ => .healthy) (.value [7] default) =
          .ok (.value (.ok (lastValue (History.ofTrace trace).written [7])), w) ↔
        Current w (History.ofTrace trace) [7]) := by
  intro calls
  have hok : (run (.unlimited bytewiseComparator) (fun _ => .healthy) calls start).isOk = true := by
    decide +kernel
  cases hrun : run (.unlimited bytewiseComparator) (fun _ => .healthy) calls start with
  | error t =>
    rw [hrun] at hok
    contradiction
  | ok r =>
    obtain ⟨trace, w⟩ := r
    refine ⟨trace, w, rfl, ?_⟩
    have hwithin : Within [] 0 calls := by
      simp [calls, Within, Call.Fits, Call.sequences, Call.denote, kMaxSequenceNumber]
    have hwhole : RunKeepsKeysWhole bytewise.rank (.unlimited bytewiseComparator)
        (fun _ => .healthy) calls start := by
      simp [calls, RunKeepsKeysWhole, Call.KeepsKeysWhole, WriteEvents.quiet_keepsKeysWhole]
    exact default_read_current_iff bytewise rfl (fun _ hp => by cases hp)
      (fun _ => FileAccess.healthy_healthy) hwithin hwhole hrun (by decide)

/-- The shared object is given a snapshot; the value written after it is not seen. -/
theorem default_read_outdated :
    (do
      let (trace, w) ← run (.unlimited bytewiseComparator) (fun _ => .healthy)
        [.setValue [1] [7] default .quiet, .createSnapshot, .setSnapshot default (some 0),
          .setValue [2] [7] default .quiet] start
      let (result, _) ← w.step (.unlimited bytewiseComparator) (fun _ => .healthy)
        (.value [7] default)
      return (lastValue (History.ofTrace trace).written [7], result)) =
        (.ok (some [2], .value (.ok (some [1]))) : Exec _) := by
  decide +kernel

/-- Why compactions must keep keys whole: for a snapshot, one leaves a deletion and the value it
deletes in two tables of a level. When the snapshot is gone, the next one takes only the deletion. -/
example :
    let o := { Options.unlimited bytewiseComparator with
      memTableFull mem := 2 ≤ mem.entries.length
      outputFull entries := 2 ≤ entries.length
      fileSize _ := 1
      maxFileSize := 1000 }
    let background : BackgroundEvent := ⟨⟨.ok, .ok⟩, .size ⟨1, by decide⟩, ⟨none, .ok⟩⟩
    let switch : WriteEvents := ⟨[⟨[], .ok⟩], .ok, .ok⟩
    (do
      let (trace, w) ← run o (fun _ => .healthy)
        [.setValue [1] [1] default .quiet, .setValue [2] [7] default .quiet, .createSnapshot,
          .removeValue [7] default switch, .background [background],
          .setValue [3] [9] default .quiet, .setValue [4] [1] default switch,
          .background [background, background], .deallocSnapshot 0,
          .setValue [5] [1] default .quiet, .setValue [6] [1] default switch,
          .background [background, background]] start
      let (result, _) ← w.step o (fun _ => .healthy) (.value [7] default)
      return (lastValue (History.ofTrace trace).written [7], result)) =
        (.ok (none, .value (.ok (some [2]))) : Exec _) := by
  decide +kernel

end Reads

end Process

end DVELevelDB
