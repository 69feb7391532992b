import DVELevelDB.ApproximateSizes
import DVELevelDB.DirectAndBatched
import DVELevelDB.Iterators
import DVELevelDB.ManualCompaction
import DVELevelDB.StringOrder

/-! # Comparators that return no key and comparators that return it unchanged

The same calls with a comparator and with one that returns the key where the first returns
`nil`.
-/

namespace DVELevelDB

open DB

section Unchanged

/-- `keyComparator`, but with the key itself in place of `nil`. -/
def LevelDBKeyComparator.unchanged (keyComparator : LevelDBKeyComparator) :
    LevelDBKeyComparator where
  keyComparatorName := keyComparator.keyComparatorName
  compare := keyComparator.compare
  findShortestSeparator start limit := do
    return some ((← keyComparator.findShortestSeparator start limit).getD start)
  findShortSuccessor key := do
    return some ((← keyComparator.findShortSuccessor key).getD key)

def EncodingComparator.unchanged (keyComparator : EncodingComparator) : EncodingComparator where
  toLevelDBKeyComparator := keyComparator.toLevelDBKeyComparator.unchanged
  encodeKey := keyComparator.encodeKey

end Unchanged

namespace StringCalls

inductive StringCall where
  | value (key : String) (files : FileAccess) (snapshot : Option ℕ)
  | setValue (data : Bytes) (key : String) (io : WriteEvents) (sync : Bool)
  | removeValue (key : String) (io : WriteEvents) (sync : Bool)
  | writeBatch (operations : List (String × Option Bytes)) (io : WriteEvents) (sync : Bool)
  | compact (startKey endKey : Option String) (io : RangeEvents)
  | compactRange (lower upper : String) (io : RangeEvents)
  | approximateSizesOfRanges (keyRanges : List (String × String)) (io : SizeEvents)
  | approximateSizesOfClosedRanges (keyRanges : List (String × String)) (io : SizeEvents)

inductive DataCall where
  | value (keyData : Bytes) (files : FileAccess) (snapshot : Option ℕ)
  | setValue (data keyData : Bytes) (io : WriteEvents) (sync : Bool)
  | removeValue (keyData : Bytes) (io : WriteEvents) (sync : Bool)
  | writeBatch (operations : List Operation) (io : WriteEvents) (sync : Bool)
  | compact (startKey endKey : Option Bytes) (io : RangeEvents)
  | approximateSizes (keyRanges : List (Bytes × Bytes)) (io : SizeEvents)

/-- What is done with a database; an iterator is given by its number. -/
inductive Call where
  | strings (call : StringCall)
  | data (call : DataCall)
  | createSnapshot
  | releaseSnapshot (snapshot : ℕ)
  | makeIterator (files : FileAccess) (snapshot : Option ℕ)
  | next (iterator : ℕ)
  | background (io : BackgroundEvent)

inductive Answer where
  | threw (e : KeyError)
  | failed (e : NSError)
  | value (data : Option Bytes)
  | element (element : Option (Bytes × Bytes))
  | sizes (sizes : List ℕ)
  | snapshot (snapshot : ℕ)
  | done
  deriving DecidableEq

/-- An open database and its iterators, each with the log file of the memtable it reads. -/
structure Session where
  db : DB
  iterators : List (ℕ × DBIter)

def Session.setDb (db : DB) (s : Session) : Session :=
  ⟨db, s.iterators.map fun it => (it.1, it.2.follow it.1 db)⟩

section Calls

variable (canonical : List Char → List Char) (o : Options) (keyComparator : EncodingComparator)

def openedWith : Options :=
  { o with comparator := engineComparator keyComparator.toLevelDBKeyComparator }

def answerOf : Option NSError → Answer
  | some e => .failed e
  | none => .done

def performData (db : DB) : DataCall → Exec (Answer × DB)
  | .value keyData files snapshot => do
    match ← LevelDB.value (openedWith o keyComparator).comparator files snapshot keyData db with
    | .ok data => return (.value data, db)
    | .error e => return (.failed e, db)
  | .setValue data keyData io sync => do
    let (error, db) ← DVECLevelDB.setData (openedWith o keyComparator) io sync (some data) keyData db
    return (answerOf error, db)
  | .removeValue keyData io sync => do
    let (error, db) ← DVECLevelDB.removeValueForKey (openedWith o keyComparator) io sync keyData db
    return (answerOf error, db)
  | .writeBatch operations io sync => do
    let batch := operations.foldl Operation.record .clear
    let (error, _, db) ← DVECLevelDBWriteBatch.writeWithOptions (openedWith o keyComparator) io sync
      batch db
    return (answerOf error, db)
  | .compact startKey endKey io => do
    return (.done, ← compactRange (openedWith o keyComparator) io startKey endKey db)
  | .approximateSizes keyRanges io => do
    return (.sizes (← db.getApproximateSizes (openedWith o keyComparator).comparator io keyRanges), db)

/-- The operations of a batch; the first key that cannot be encoded ends the closure. -/
def encodeOperations : List (String × Option Bytes) → Except KeyError (List Operation)
  | [] => .ok []
  | (key, data) :: operations => do
    let keyData ← keyComparator.encodeKey key
    let rest ← encodeOperations operations
    return (match data with
      | some data => .setData (some data) keyData
      | none => .removeValueForKey keyData) :: rest

def encodeOptional : Option String → Except KeyError (Option Bytes)
  | some key => do return some (← keyComparator.encodeKey key)
  | none => .ok none

/-- `keyRanges.map`, which the first range that throws ends. -/
def mapRanges (keys : String → String → Exec (Except KeyError (Bytes × Bytes))) :
    List (String × String) → Exec (Except KeyError (List (Bytes × Bytes)))
  | [] => return .ok []
  | (lower, upper) :: keyRanges => do
    match ← keys lower upper with
    | .error e => return .error e
    | .ok range => return (← mapRanges keys keyRanges).map (range :: ·)

/-- The call with data keys that a call with string keys makes, unless a key makes it throw. -/
def encodeCall : StringCall → Exec (Except KeyError DataCall)
  | .value key files snapshot =>
    return (keyComparator.encodeKey key).map (.value · files snapshot)
  | .setValue data key io sync =>
    return (keyComparator.encodeKey key).map (.setValue data · io sync)
  | .removeValue key io sync => return (keyComparator.encodeKey key).map (.removeValue · io sync)
  | .writeBatch operations io sync =>
    return (encodeOperations keyComparator operations).map (.writeBatch · io sync)
  | .compact startKey endKey io =>
    let keys := do
      return (← encodeOptional keyComparator startKey, ← encodeOptional keyComparator endKey)
    return keys.map fun keys => .compact keys.1 keys.2 io
  | .compactRange lower upper io =>
    return (compactKeys keyComparator lower upper).map fun keys =>
      .compact (some keys.1) (some keys.2) io
  | .approximateSizesOfRanges keyRanges io => do
    return (← mapRanges (rangeKeys canonical keyComparator) keyRanges).map (.approximateSizes · io)
  | .approximateSizesOfClosedRanges keyRanges io => do
    return (← mapRanges (closedRangeKeys keyComparator) keyRanges).map (.approximateSizes · io)

def performEncoded (db : DB) : Except KeyError DataCall → Exec (Answer × DB)
  | .error e => return (.threw e, db)
  | .ok call => performData o keyComparator db call

def perform (db : DB) (call : StringCall) : Exec (Answer × DB) := do
  performEncoded o keyComparator db (← encodeCall canonical keyComparator call)

def Session.perform (s : Session) : Call → Exec (Answer × Session)
  | .strings call => do
    let (answer, db) ← StringCalls.perform canonical o keyComparator s.db call
    return (answer, s.setDb db)
  | .data call => do
    let (answer, db) ← performData o keyComparator s.db call
    return (answer, s.setDb db)
  | .createSnapshot => return (.snapshot s.db.lastSequence, s.setDb s.db.getSnapshot)
  | .releaseSnapshot snapshot => return (.done, s.setDb (s.db.releaseSnapshot snapshot))
  | .makeIterator files snapshot => do
    let iterator ← LevelDB.Iterator.init (openedWith o keyComparator).comparator files snapshot s.db
    return (.done, { s with iterators := s.iterators ++ [(s.db.log.number, iterator)] })
  | .next i =>
    match s.iterators[i]? with
    | none => return (.done, s)
    | some (logNumber, iterator) => do
      let (element, iterator) ←
        LevelDB.Iterator.next (openedWith o keyComparator).comparator iterator
      return (.element element, { s with iterators := s.iterators.set i (logNumber, iterator) })
  | .background io => do
    return (.done, s.setDb (← backgroundCall (openedWith o keyComparator) io s.db))

/-- What the calls of a run return or throw; a trap ends the run. -/
def answers : List Call → Session → List (Exec Answer)
  | [], _ => []
  | call :: calls, s =>
    match s.perform canonical o keyComparator call with
    | .error t => [.error t]
    | .ok (answer, s) => .ok answer :: answers calls s

/-- Both bounds are encoded, and the upper one has a successor. -/
def Answered (lower upper : String) : Prop :=
  ∀ startKeyData limitKeyData, keyComparator.encodeKey lower = .ok startKeyData →
    keyComparator.encodeKey upper = .ok limitKeyData →
    keyComparator.findShortSuccessor limitKeyData ≠ .ok none

/-- Every closed range that is looked at has a successor of its upper bound. -/
def AllAnswered : List (String × String) → Prop
  | [] => True
  | (lower, upper) :: keyRanges => Answered keyComparator lower upper ∧
      ((∃ keys, closedRangeKeys keyComparator lower upper = .ok (.ok keys)) → AllAnswered keyRanges)

def Call.Unaffected : Call → Prop
  | .strings (.approximateSizesOfClosedRanges keyRanges _) => AllAnswered keyComparator keyRanges
  | _ => True

/-- No call that the run reaches asks for a successor that is missing. -/
def Unaffected : List Call → Session → Prop
  | [], _ => True
  | call :: calls, s =>
    call.Unaffected keyComparator ∧
    ∀ answer s', s.perform canonical o keyComparator call = .ok (answer, s') → Unaffected calls s'

end Calls

section SameEngine

theorem engineComparator_unchanged (keyComparator : LevelDBKeyComparator) :
    engineComparator keyComparator.unchanged = engineComparator keyComparator := by
  have hseparator : (engineComparator keyComparator.unchanged).findShortestSeparator =
      (engineComparator keyComparator).findShortestSeparator := by
    funext start limit
    rw [engineComparator_separator, engineComparator_separator]
    simp only [LevelDBKeyComparator.unchanged]
    cases keyComparator.findShortestSeparator start limit <;> rfl
  have hsuccessor : (engineComparator keyComparator.unchanged).findShortSuccessor =
      (engineComparator keyComparator).findShortSuccessor := by
    funext key
    rw [engineComparator_successor, engineComparator_successor]
    simp only [LevelDBKeyComparator.unchanged]
    cases keyComparator.findShortSuccessor key <;> rfl
  have hcompare : (engineComparator keyComparator.unchanged).compare =
      (engineComparator keyComparator).compare := rfl
  have hname : (engineComparator keyComparator.unchanged).name =
      (engineComparator keyComparator).name := rfl
  cases he : engineComparator keyComparator.unchanged
  cases hb : engineComparator keyComparator
  rw [he, hb] at hcompare hseparator hsuccessor hname
  cases hcompare
  cases hseparator
  cases hsuccessor
  cases hname
  rfl

variable {canonical : List Char → List Char} {o : Options} {keyComparator : EncodingComparator}

theorem openedWith_unchanged : openedWith o keyComparator.unchanged = openedWith o keyComparator := by
  rw [openedWith, openedWith]
  congr 1
  exact engineComparator_unchanged _

theorem encodeOperations_unchanged (operations : List (String × Option Bytes)) :
    encodeOperations keyComparator.unchanged operations =
      encodeOperations keyComparator operations := by
  induction operations with
  | nil => rfl
  | cons operation operations ih =>
    rw [encodeOperations, encodeOperations, ih]
    rfl

theorem encodeOptional_unchanged (key : Option String) :
    encodeOptional keyComparator.unchanged key = encodeOptional keyComparator key := by
  cases key <;> rfl

/-- No string is below itself, so the successor is not asked for. -/
theorem rangeKeys_unchanged (lower upper : String) :
    rangeKeys canonical keyComparator.unchanged lower upper =
      rangeKeys canonical keyComparator lower upper := by
  have hself : ¬ (¬ SwiftString.less canonical upper lower ∧
      SwiftString.less canonical upper upper) := fun h => lt_irrefl _ h.2
  simp only [rangeKeys, if_neg hself]
  rfl

theorem closedRangeKeys_unchanged_iff (lower upper : String) :
    closedRangeKeys keyComparator lower upper =
        closedRangeKeys keyComparator.unchanged lower upper ↔
      Answered keyComparator lower upper := by
  rw [Answered, closedRangeKeys, closedRangeKeys, EncodingComparator.unchanged]
  cases hlower : keyComparator.encodeKey lower with
  | error e => simp
  | ok startKeyData =>
    cases hupper : keyComparator.encodeKey upper with
    | error e => simp
    | ok limitKeyData =>
      simp only [LevelDBKeyComparator.unchanged]
      cases hs : keyComparator.findShortSuccessor limitKeyData with
      | error t => simp [hs]
      | ok successor =>
        cases successor with
        | none => simp [limitedRange, hs]
        | some successor => simp [hs]

theorem mapRanges_unchanged {keyRanges : List (String × String)}
    (h : AllAnswered keyComparator keyRanges) :
    mapRanges (closedRangeKeys keyComparator.unchanged) keyRanges =
      mapRanges (closedRangeKeys keyComparator) keyRanges := by
  induction keyRanges with
  | nil => rfl
  | cons keyRange keyRanges ih =>
    obtain ⟨lower, upper⟩ := keyRange
    obtain ⟨hanswered, hrest⟩ := h
    rw [mapRanges, mapRanges, ← (closedRangeKeys_unchanged_iff lower upper).mpr hanswered]
    cases hkeys : closedRangeKeys keyComparator lower upper with
    | error t => rfl
    | ok r =>
      cases r with
      | error e => rfl
      | ok keys => rw [ih (hrest ⟨keys, hkeys⟩)]

theorem performData_unchanged (db : DB) (call : DataCall) :
    performData o keyComparator.unchanged db call = performData o keyComparator db call := by
  cases call <;> simp only [performData, openedWith_unchanged]

theorem encodeCall_unchanged {call : StringCall} (h : (Call.strings call).Unaffected keyComparator) :
    encodeCall canonical keyComparator.unchanged call = encodeCall canonical keyComparator call := by
  have hranges : rangeKeys canonical keyComparator.unchanged = rangeKeys canonical keyComparator := by
    funext lower upper
    exact rangeKeys_unchanged lower upper
  cases call with
  | value key files snapshot => rfl
  | setValue data key io sync => rfl
  | removeValue key io sync => rfl
  | writeBatch operations io sync => simp only [encodeCall, encodeOperations_unchanged]
  | compact startKey endKey io => simp only [encodeCall, encodeOptional_unchanged]
  | compactRange lower upper io => rfl
  | approximateSizesOfRanges keyRanges io => simp only [encodeCall, hranges]
  | approximateSizesOfClosedRanges keyRanges io => simp only [encodeCall, mapRanges_unchanged h]

theorem perform_unchanged {call : Call} {s : Session} (h : call.Unaffected keyComparator) :
    s.perform canonical o keyComparator.unchanged call =
      s.perform canonical o keyComparator call := by
  have hencoded : performEncoded o keyComparator.unchanged = performEncoded o keyComparator := by
    funext db r
    cases r with
    | error e => rfl
    | ok call => exact performData_unchanged db call
  cases call with
  | strings call => simp only [Session.perform, perform, hencoded, encodeCall_unchanged h]
  | data call => simp only [Session.perform, performData_unchanged]
  | createSnapshot => rfl
  | releaseSnapshot snapshot => rfl
  | makeIterator files snapshot => simp only [Session.perform, openedWith_unchanged]
  | next i => simp only [Session.perform, openedWith_unchanged]
  | background io => simp only [Session.perform, openedWith_unchanged]

theorem answers_differ {lower upper : String} {startKeyData limitKeyData : Bytes}
    (hlower : keyComparator.encodeKey lower = .ok startKeyData)
    (hupper : keyComparator.encodeKey upper = .ok limitKeyData)
    (hnone : keyComparator.findShortSuccessor limitKeyData = .ok none) (io : SizeEvents)
    (s : Session) :
    answers canonical o keyComparator
        [.strings (.approximateSizesOfClosedRanges [(lower, upper)] io)] s ≠
      answers canonical o keyComparator.unchanged
        [.strings (.approximateSizesOfClosedRanges [(lower, upper)] io)] s := by
  have hthrows : closedRangeKeys keyComparator lower upper = .ok (.error .invalidKeyRange) := by
    rw [closedRangeKeys, hlower, hupper]
    simp only [hnone]
    rfl
  have hkeys : closedRangeKeys keyComparator.unchanged lower upper =
      .ok (.ok (startKeyData, limitKeyData)) := by
    rw [closedRangeKeys]
    simp only [EncodingComparator.unchanged, hlower, hupper, LevelDBKeyComparator.unchanged, hnone]
    rfl
  simp only [answers, Session.perform, perform, encodeCall, mapRanges, hthrows, hkeys]
  simp only [pure, Except.pure, Stops.ok_bind, Except.map, performEncoded, performData]
  cases s.db.getApproximateSizes (openedWith o keyComparator.unchanged).comparator io
    [(startKeyData, limitKeyData)] <;> simp

end SameEngine

section Runs

variable (canonical : List Char → List Char) (o : Options) (keyComparator : EncodingComparator)

theorem answers_unchanged {calls : List Call} {s : Session}
    (h : Unaffected canonical o keyComparator calls s) :
    answers canonical o keyComparator.unchanged calls s =
      answers canonical o keyComparator calls s := by
  induction calls generalizing s with
  | nil => rfl
  | cons call calls ih =>
    obtain ⟨hcall, hrest⟩ := h
    rw [answers, answers, perform_unchanged hcall]
    cases hp : s.perform canonical o keyComparator call with
    | error t => rfl
    | ok r =>
      obtain ⟨answer, s'⟩ := r
      simp only [ih (hrest answer s' hp)]

/-- A comparator that returns no key does as well as one that returns it unchanged, except for
the sizes of closed ranges: there the Swift code asks for the successor and throws without it. -/
theorem unchanged_agrees :
    (∀ calls s, Unaffected canonical o keyComparator calls s →
      answers canonical o keyComparator calls s =
        answers canonical o keyComparator.unchanged calls s) ∧
    ∀ lower upper io s,
      answers canonical o keyComparator
            [.strings (.approximateSizesOfClosedRanges [(lower, upper)] io)] s =
          answers canonical o keyComparator.unchanged
            [.strings (.approximateSizesOfClosedRanges [(lower, upper)] io)] s ↔
        Answered keyComparator lower upper := by
  refine ⟨fun calls s h => (answers_unchanged canonical o keyComparator h).symm, ?_⟩
  intro lower upper io s
  constructor
  · intro heq startKeyData limitKeyData hlower hupper hnone
    exact answers_differ hlower hupper hnone io s heq
  · intro hanswered
    have hun : Unaffected canonical o keyComparator
        [.strings (.approximateSizesOfClosedRanges [(lower, upper)] io)] s :=
      ⟨⟨hanswered, fun _ => trivial⟩, fun _ _ _ => trivial⟩
    exact (answers_unchanged canonical o keyComparator hun).symm

/-- Byte order, without separators and successors. -/
def plainComparator : EncodingComparator where
  keyComparatorName := utf8 "plain"
  compare := DVECLevelDBBytewiseKeyComparator.compare
  encodeKey key := .ok (utf8 key)

/-- Only keys of one byte have a successor. -/
def shortKeyComparator : EncodingComparator :=
  { plainComparator with
    findShortSuccessor := fun key => return if key.length = 1 then some (key ++ [0]) else none }

/-- Options without size limits; a table file has 40 bytes. -/
def fileSize40 : Options :=
  { Options.unlimited bytewiseComparator with fileSize := fun _ => 40 }

/-- The background thread is there when `CompactRange` waits for it, and nothing fails. -/
def quietRange : RangeEvents :=
  ⟨⟨[⟨[], .ok⟩], .ok, .ok⟩, [.quiet], fun _ => [⟨true, .quiet⟩]⟩

/-- A value gets into a table, is found by an iterator and measured. -/
def setCompactMeasure : List Call :=
  [.createSnapshot, .strings (.setValue [1] "ab" .quiet false),
    .data (.compact none none quietRange), .makeIterator .healthy none, .next 0, .next 0,
    .strings (.value "ab" .healthy (some 0)), .data (.value (utf8 "ab") .healthy none),
    .strings (.approximateSizesOfClosedRanges [("a", "b"), ("a", "c")] ⟨fun _ => true, fun _ => 40⟩)]

theorem unchanged_agrees_run :
    answers id fileSize40 shortKeyComparator setCompactMeasure ⟨fresh, []⟩ =
      answers id fileSize40 shortKeyComparator.unchanged setCompactMeasure ⟨fresh, []⟩ := by
  have hanswered : ∀ upper : String, (utf8 upper).length = 1 →
      Answered shortKeyComparator "a" upper := by
    rintro upper hlength _ limitKeyData - hlimit
    obtain rfl := Except.ok.inj hlimit
    simp [shortKeyComparator, hlength, pure, Except.pure]
  apply (unchanged_agrees id fileSize40 shortKeyComparator).1
  iterate 8 refine ⟨trivial, fun _ _ _ => ?_⟩
  exact ⟨⟨hanswered "b" (by decide), fun _ => ⟨hanswered "c" (by decide), fun _ => trivial⟩⟩,
    fun _ _ _ => trivial⟩

-- the table's last key, `"ab"`, has no successor
example : answers id fileSize40 shortKeyComparator setCompactMeasure ⟨fresh, []⟩ =
    [.ok (.snapshot 0), .ok .done, .ok .done, .ok .done, .ok (.element (some (utf8 "ab", [1]))),
      .ok (.element none), .ok (.value none), .ok (.value (some [1])), .ok (.sizes [40, 40])] := by
  decide +kernel

theorem closedRange_without_successor :
    answers id (.unlimited bytewiseComparator) plainComparator
        [.strings (.approximateSizesOfClosedRanges [("a", "b")] ⟨fun _ => true, fun _ => 0⟩)]
        ⟨fresh, []⟩ = [.ok (.threw .invalidKeyRange)] ∧
      answers id (.unlimited bytewiseComparator) plainComparator.unchanged
        [.strings (.approximateSizesOfClosedRanges [("a", "b")] ⟨fun _ => true, fun _ => 0⟩)]
        ⟨fresh, []⟩ = [.ok (.sizes [0])] := by
  constructor
  · rfl
  · rfl

end Runs

end StringCalls

end DVELevelDB
