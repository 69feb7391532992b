import DVELevelDB.DVECLevelDB

/-! # Programs over write batches

Every batch object owns an engine batch on the heap. What a batch denotes is the list of
operations recorded in it.
-/

namespace DVELevelDB

open VersionStore DB

/-- The objects of the class, as the addresses of their engine batches, the heap of engine
batches, and the database they all belong to. -/
structure BatchState where
  objects : List ℕ
  heap : List WriteBatch
  db : DB

inductive Instruction where
  | initWithDB
  | setData (i : ℕ) (data key : Bytes)
  | removeValueForKey (i : ℕ) (key : Bytes)
  | clear (i : ℕ)
  | copy (i : ℕ)
  | appendOperationsOf (i source : ℕ)
  | write (i : ℕ) (io : WriteEvents) (sync : Bool)

namespace BatchState

def batch (st : BatchState) (i : ℕ) : Option WriteBatch := do st.heap[← st.objects[i]?]?

/-- Changes the engine batch of an object in place; a message to `nil` does nothing. -/
def modify (st : BatchState) (i : ℕ) (f : WriteBatch → WriteBatch) : BatchState :=
  match st.objects[i]? with
  | some p => { st with heap := st.heap.modify p f }
  | none => st

def initWithDB (st : BatchState) : BatchState :=
  { st with objects := st.objects ++ [st.heap.length], heap := st.heap ++ [.clear] }

/-- `copyWithZone:`; the batch that `initWithDB:` allocates is replaced and never freed. -/
def copy (st : BatchState) (i : ℕ) : BatchState :=
  match st.batch i with
  | some b =>
    let copy := st.initWithDB
    { copy with
      objects := copy.objects.set st.objects.length copy.heap.length
      heap := copy.heap ++ [b] }
  | none => st

def appendOperationsOf (st : BatchState) (i source : ℕ) : BatchState :=
  match st.batch source with
  | some src => st.modify i fun b => b.append src
  | none => st

def write (o : Options) (io : WriteEvents) (sync : Bool) (st : BatchState) (i : ℕ) :
    Exec (Option NSError × BatchState) :=
  match st.batch i with
  | some b => do
    let (error, b, db) ← DVECLevelDBWriteBatch.writeWithOptions o io sync b st.db
    return (error, { st.modify i (fun _ => b) with db })
  | none => return (none, st)

def step (o : Options) (st : BatchState) : Instruction → Exec (Option NSError × BatchState)
  | .initWithDB => return (none, st.initWithDB)
  | .setData i data key =>
    return (none, st.modify i (DVECLevelDBWriteBatch.setData (some data) (some key)))
  | .removeValueForKey i key =>
    return (none, st.modify i (DVECLevelDBWriteBatch.removeValueForKey (some key)))
  | .clear i => return (none, st.modify i fun _ => .clear)
  | .copy i => return (none, st.copy i)
  | .appendOperationsOf i source => return (none, st.appendOperationsOf i source)
  | .write i io sync => st.write o io sync i

def run (o : Options) (program : List Instruction) (st : BatchState) : Exec BatchState :=
  program.foldlM (fun st instruction => return (← st.step o instruction).2) st

def start (db : DB) : BatchState := ⟨[], [], db⟩

end BatchState

/-- `LevelDB.writeBatch`: a new batch, the closure, which may throw, then the write. -/
def LevelDB.writeBatch (o : Options) (io : WriteEvents) (sync : Bool)
    (operations : ℕ → List Instruction) (throws : Bool) (st : BatchState) :
    Exec (Bool × BatchState) := do
  let batch := st.objects.length
  let st ← st.initWithDB.run o (operations batch)
  if throws then
    return (true, st)
  else
    let (error, st) ← st.write o io sync batch
    return (error.isSome, st)

namespace Instruction

def Fits : Instruction → Prop
  | setData _ data key => key.length < 2 ^ 32 ∧ data.length < 2 ^ 32
  | removeValueForKey _ key => key.length < 2 ^ 32
  | _ => True

/-- The object an instruction changes. -/
def target : Instruction → Option ℕ
  | setData i _ _ | removeValueForKey i _ | clear i | appendOperationsOf i _ | write i _ _ => some i
  | initWithDB | copy _ => none

/-- What the objects denote after an instruction. -/
def denote (lists : List (List Record)) : Instruction → List (List Record)
  | initWithDB => lists ++ [[]]
  | setData i data key => lists.modify i (· ++ [.put key data])
  | removeValueForKey i key => lists.modify i (· ++ [.delete key])
  | clear i => lists.modify i fun _ => []
  | copy i => match lists[i]? with
    | some ops => lists ++ [ops]
    | none => lists
  | appendOperationsOf i source => match lists[source]? with
    | some ops => lists.modify i (· ++ ops)
    | none => lists
  | write _ _ _ => lists

def sequences (lists : List (List Record)) : Instruction → ℕ
  | write i _ _ => (lists[i]?.getD []).length
  | _ => 0

/-- What an instruction does to the contents of the database, given the error it reports. -/
def effect {κ : Type*} [DecidableEq κ] (rank : Bytes → κ) (lists : List (List Record))
    (error : Option NSError) (m : κ → Option Bytes) : Instruction → κ → Option Bytes
  | write i _ _ =>
    if error.isNone then applyUpdates m ((lists[i]?.getD []).map (Record.update rank)) else m
  | _ => m

/-- No compaction that a write waits for splits a key between two tables. -/
def KeepsKeysWhole {κ : Type*} [LinearOrder κ] (rank : Bytes → κ) (o : Options) (db : DB) :
    Instruction → Prop
  | write _ io _ => io.KeepsKeysWhole rank o db
  | _ => True

end Instruction

namespace BatchState

/-- Every object has an engine batch of its own, which denotes its list. -/
structure Represents (st : BatchState) (lists : List (List Record)) : Prop where
  length : st.objects.length = lists.length
  nodup : st.objects.Nodup
  alloc : ∀ p ∈ st.objects, p < st.heap.length
  denotes : ∀ i ops, lists[i]? = some ops → ∃ b, st.batch i = some b ∧ b.Denotes ops

section Heap

variable {st : BatchState} {lists : List (List Record)} {i j : ℕ}

theorem batch_modify (hn : st.objects.Nodup) (f : WriteBatch → WriteBatch) :
    (st.modify i f).batch j = if j = i then (st.batch j).map f else st.batch j := by
  unfold modify batch
  cases hi : st.objects[i]? with
  | none =>
    by_cases hj : j = i
    · subst hj
      simp [hi]
    · simp [hj]
  | some p =>
    cases hj : st.objects[j]? with
    | none => by_cases h : j = i <;> simp [h]
    | some q =>
      by_cases h : j = i
      · subst h
        obtain rfl : q = p := Option.some.inj (hj.symm.trans hi)
        simp
      · -- two objects never share an address
        have hne : p ≠ q := by
          intro heq
          subst heq
          obtain ⟨hi', hip⟩ := List.getElem?_eq_some_iff.mp hi
          obtain ⟨hj', hjp⟩ := List.getElem?_eq_some_iff.mp hj
          exact h ((List.Nodup.getElem_inj_iff hn).mp (hjp.trans hip.symm))
        simp [h, List.getElem?_modify, hne]

theorem modify_objects (f : WriteBatch → WriteBatch) : (st.modify i f).objects = st.objects := by
  unfold modify
  split <;> rfl

theorem modify_heap_length (f : WriteBatch → WriteBatch) :
    (st.modify i f).heap.length = st.heap.length := by
  unfold modify
  split <;> simp

theorem modify_db (f : WriteBatch → WriteBatch) : (st.modify i f).db = st.db := by
  unfold modify
  split <;> rfl

theorem Represents.modify (h : st.Represents lists) {f : WriteBatch → WriteBatch}
    {g : List Record → List Record}
    (hf : ∀ b ops, lists[i]? = some ops → b.Denotes ops → (f b).Denotes (g ops)) :
    (st.modify i f).Represents (lists.modify i g) where
  length := by rw [modify_objects, List.length_modify, h.length]
  nodup := by rw [modify_objects]; exact h.nodup
  alloc := by rw [modify_objects, modify_heap_length]; exact h.alloc
  denotes := by
    intro j ops hj
    rw [List.getElem?_modify] at hj
    obtain ⟨ops', hops, hjops⟩ := Option.map_eq_some_iff.mp hj
    obtain ⟨b, hb, hden⟩ := h.denotes j ops' hops
    rw [batch_modify h.nodup, hb]
    by_cases hji : j = i
    · subst hji
      rw [if_pos rfl] at hjops ⊢
      exact ⟨f b, rfl, hjops ▸ hf b ops' hops hden⟩
    · rw [if_neg (Ne.symm hji)] at hjops
      rw [if_neg hji]
      exact ⟨b, rfl, hjops ▸ hden⟩

theorem Represents.push (h : st.Represents lists) (p : ℕ) (extra : List WriteBatch)
    {b : WriteBatch} {ops : List Record} (hp : st.heap.length ≤ p)
    (hb : (st.heap ++ extra)[p]? = some b) (hden : b.Denotes ops) :
    (⟨st.objects ++ [p], st.heap ++ extra, st.db⟩ : BatchState).Represents (lists ++ [ops]) where
  length := by simp [h.length]
  nodup := by
    refine h.nodup.append (List.nodup_singleton p) ?_
    intro q hq hq'
    rw [List.mem_singleton] at hq'
    have := h.alloc q hq
    omega
  alloc := by
    intro q hq
    rcases List.mem_append.mp hq with hq | hq
    · have := h.alloc q hq
      simp only [List.length_append]
      omega
    · rw [List.mem_singleton.mp hq]
      exact (List.getElem?_eq_some_iff.mp hb).1
  denotes := by
    intro j ops' hj
    by_cases hlt : j < lists.length
    · rw [List.getElem?_append_left hlt] at hj
      obtain ⟨b', hb', hden'⟩ := h.denotes j ops' hj
      refine ⟨b', ?_, hden'⟩
      obtain ⟨q, hq, hheap⟩ := Option.bind_eq_some_iff.mp hb'
      have hlt' := (List.getElem?_eq_some_iff.mp hheap).1
      simp only [batch, Option.bind_eq_bind]
      rw [List.getElem?_append_left (h.length ▸ hlt), hq, Option.bind_some,
        List.getElem?_append_left hlt', hheap]
    · have hlast : j = lists.length := by
        have := (List.getElem?_eq_some_iff.mp hj).1
        simp only [List.length_append, List.length_singleton] at this
        omega
      subst hlast
      obtain rfl : ops' = ops := by simpa using hj.symm
      refine ⟨b, ?_, hden⟩
      simp only [batch, Option.bind_eq_bind]
      rw [← h.length, List.getElem?_concat_length, Option.bind_some, hb]

theorem Represents.initWithDB (h : st.Represents lists) :
    st.initWithDB.Represents (lists ++ [[]]) :=
  h.push _ [.clear] le_rfl List.getElem?_concat_length WriteBatch.Denotes.clear

theorem Represents.batch_none (h : st.Represents lists) (hi : lists[i]? = none) :
    st.batch i = none := by
  have hlen : st.objects.length ≤ i := h.length ▸ List.getElem?_eq_none_iff.mp hi
  simp [batch, List.getElem?_eq_none hlen]

theorem Represents.copy (h : st.Represents lists) (i : ℕ) :
    (st.copy i).Represents (Instruction.denote lists (.copy i)) := by
  simp only [Instruction.denote]
  cases hi : lists[i]? with
  | none =>
    rw [BatchState.copy, h.batch_none hi]
    exact h
  | some ops =>
    obtain ⟨b, hb, hden⟩ := h.denotes i ops hi
    have hpush := h.push (st.heap.length + 1) [.clear, b] (Nat.le_succ _) (by simp) hden
    rw [BatchState.copy, hb]
    simpa [BatchState.initWithDB] using hpush

theorem Represents.appendOperationsOf (h : st.Represents lists) (i source : ℕ) :
    (st.appendOperationsOf i source).Represents
      (Instruction.denote lists (.appendOperationsOf i source)) := by
  simp only [Instruction.denote]
  cases hi : lists[source]? with
  | none =>
    rw [BatchState.appendOperationsOf, h.batch_none hi]
    exact h
  | some ops =>
    obtain ⟨src, hsrc, hden⟩ := h.denotes source ops hi
    rw [BatchState.appendOperationsOf, hsrc]
    exact h.modify fun b ops' _ hb => hb.append hden

theorem copy_db (i : ℕ) : (st.copy i).db = st.db := by
  unfold BatchState.copy
  split <;> rfl

theorem appendOperationsOf_db (i source : ℕ) : (st.appendOperationsOf i source).db = st.db := by
  unfold BatchState.appendOperationsOf
  split
  · exact modify_db _
  · rfl

end Heap

section Runs

variable {κ : Type*} [LinearOrder κ] {D : Bytes → Prop} {rank : Bytes → κ} {o : Options}
  {st : BatchState} {lists : List (List Record)}

theorem instructionKeepsKeysWhole (ho : o.comparator.OrdersOn D rank)
    (hp : ∀ p ∈ o.filterPolicy, p.Lawful) {db : DB} (h : db.Settled D rank)
    (hm : db.lastSequence < kMaxSequenceNumber) (ins : Instruction) :
    ins.KeepsKeysWhole rank o db := by
  cases ins with
  | write i io sync => exact h.keepsKeysWhole_write ho hp hm io
  | _ => trivial

theorem step_represents (ho : o.comparator.OrdersOn D rank)
    (hp : ∀ p ∈ o.filterPolicy, p.Lawful) (hall : ∀ k, D k) (h : st.Represents lists)
    (hw : st.db.Arranged D rank) (hm : st.db.lastSequence < kMaxSequenceNumber)
    {ins : Instruction} (hwhole : ins.KeepsKeysWhole rank o st.db) (hfits : ins.Fits)
    (hsmall : ∀ ops ∈ lists, ops.length < 2 ^ 31)
    (hn : st.db.lastSequence + ins.sequences lists ≤ kMaxSequenceNumber) :
    Stops.Ensures (fun _ => True) (st.step o ins) fun r =>
      r.2.Represents (ins.denote lists) ∧ r.2.db.view rank =
        ins.effect rank lists r.1 (st.db.view rank) ∧
      Advanced D rank (ins.sequences lists) st.db r.2.db := by
  have hsame : ∀ {st' : BatchState} {lists' : List (List Record)}, st'.Represents lists' →
      st'.db = st.db → st'.Represents lists' ∧ st'.db.view rank = st.db.view rank ∧
        Advanced D rank 0 st.db st'.db := by
    intro st' lists' hr hdb
    rw [hdb]
    exact ⟨hr, rfl, .refl hw⟩
  cases ins with
  | initWithDB => exact hsame h.initWithDB rfl
  | setData i data key =>
    exact hsame (h.modify fun b ops _ hb => hb.put hfits.1 hfits.2) (modify_db _)
  | removeValueForKey i key =>
    exact hsame (h.modify fun b ops _ hb => hb.delete hfits) (modify_db _)
  | clear i => exact hsame (h.modify fun _ _ _ _ => WriteBatch.Denotes.clear) (modify_db _)
  | copy i => exact hsame (h.copy i) (copy_db i)
  | appendOperationsOf i source =>
    exact hsame (h.appendOperationsOf i source) (appendOperationsOf_db i source)
  | write i io sync =>
    change Stops.Ensures _ (st.write o io sync i) _
    unfold BatchState.write
    cases hi : lists[i]? with
    | none =>
      rw [h.batch_none hi]
      simp only [Instruction.sequences, hi, Option.getD_none, List.length_nil]
      exact ⟨h, by simp [Instruction.effect, hi], .refl hw⟩
    | some ops =>
      obtain ⟨b, hb, hden⟩ := h.denotes i ops hi
      simp only [Instruction.sequences, hi, Option.getD_some] at hn ⊢
      have hlen := hsmall ops (List.mem_of_getElem? hi)
      have hout := write_outcome ho hp hw hm io sync hwhole hden hlen (fun r _ => hall r.key) hn
      rw [hb]
      simp only [DVECLevelDBWriteBatch.writeWithOptions, bind_assoc]
      refine hout.bind fun r hr => ?_
      obtain ⟨status, b', db'⟩ := r
      obtain ⟨⟨b', rfl, hden'⟩, hview, hadv⟩ := hr
      dsimp only at hview hadv ⊢
      cases hs : createFromLevelDBStatus status with
      | error t => trivial
      | ok e =>
        have hok : e.isNone = status.isOk := by
          rw [Bool.eq_iff_iff, Option.isNone_iff_eq_none, Status.isOk_iff,
            createFromLevelDBStatus_isOk hs]
        have hrep : (st.modify i fun _ => b').Represents (lists.modify i id) :=
          h.modify fun _ ops' hops' _ => Option.some.inj (hi.symm.trans hops') ▸ hden'
        rw [List.modify_id] at hrep
        refine ⟨⟨hrep.length, hrep.nodup, hrep.alloc, hrep.denotes⟩, ?_, hadv⟩
        simp only [Instruction.effect, hi, Option.getD_some, hok]
        exact hview

def sequences (lists : List (List Record)) : List Instruction → ℕ
  | [] => 0
  | ins :: program => ins.sequences lists + sequences (ins.denote lists) program

/-- The program stays within the sizes the engine is made for: lengths below `2^32`, fewer than
`2^31` records in a batch at any time, sequence numbers of 56 bits. -/
structure Within (lists : List (List Record)) (last : ℕ) (program : List Instruction) : Prop where
  fits : ∀ ins ∈ program, ins.Fits
  small : ∀ done, done <+: program →
    ∀ ops ∈ done.foldl Instruction.denote lists, ops.length < 2 ^ 31
  sequence : last + sequences lists program < kMaxSequenceNumber

theorem Within.step {last : ℕ} {ins : Instruction} {program : List Instruction}
    (h : Within lists last (ins :: program)) {last' : ℕ}
    (hlast : last' ≤ last + ins.sequences lists) : Within (ins.denote lists) last' program where
  fits ins' hins := h.fits ins' (List.mem_cons_of_mem _ hins)
  small done hdone := h.small (ins :: done) (List.prefix_cons_inj ins |>.mpr hdone)
  sequence := by
    have := h.sequence
    simp only [sequences] at this
    omega

theorem start_represents (db : DB) : (start db).Represents [] where
  length := rfl
  nodup := List.nodup_nil
  alloc _ hp := absurd hp List.not_mem_nil
  denotes i ops hi := by simp at hi

end Runs

section Meaning

variable {κ : Type*} [LinearOrder κ] (c : LawfulComparator κ) {o : Options} {db : DB}
  {program : List Instruction} {ins : Instruction} {st : BatchState}

end Meaning

end BatchState

end DVELevelDB
