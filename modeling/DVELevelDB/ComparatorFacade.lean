import DVELevelDB.Comparator

/-! # Comparators written in Swift, as the engine sees them

The engine calls `DVECLevelDBComparatorFacade`, which calls the Objective-C protocol, which
`CLevelDBKeyComparatorFacade` implements with the Swift protocol.
-/

namespace DVELevelDB

inductive NSComparisonResult where
  | orderedAscending
  | orderedSame
  | orderedDescending
  deriving DecidableEq, Repr

def NSComparisonResult.rawValue : NSComparisonResult → ℤ
  | orderedAscending => -1
  | orderedSame => 0
  | orderedDescending => 1

/-- The order that a result stands for. -/
def NSComparisonResult.ordering : NSComparisonResult → Ordering
  | orderedAscending => .lt
  | orderedSame => .eq
  | orderedDescending => .gt

/-- How the engine reads the result of `Compare`. -/
def signOf (r : ℤ) : Ordering := if r < 0 then .lt else if 0 < r then .gt else .eq

section Conversions

def dataForSlice (slice : Bytes) : Bytes := if slice.length = 0 then [] else slice

def dataForString (string : Bytes) : Bytes := if string.length = 0 then [] else string

def createDataForString (string : Bytes) : Bytes := if string.length = 0 then [] else string

/-- `std::string::resize`. -/
def resize (length : ℕ) (string : Bytes) : Bytes :=
  string.take length ++ List.replicate (length - string.length) 0

/-- `getBytes:length:` into the first bytes of a buffer. -/
def getBytes (data : Bytes) (length : ℕ) (buffer : Bytes) : Bytes :=
  data.take length ++ buffer.drop (min length data.length)

def copyDataToString (data string : Bytes) : Bytes :=
  let string := if data.length ≠ string.length then resize data.length string else string
  if 0 < data.length then getBytes data string.length string else string

/-- What `UTF8String` and C strings keep of a text. -/
def cString (text : Bytes) : Bytes := text.takeWhile (· ≠ 0)

@[simp] theorem dataForSlice_eq (slice : Bytes) : dataForSlice slice = slice := by
  unfold dataForSlice
  split_ifs with h
  · exact (List.length_eq_zero_iff.mp h).symm
  · rfl

@[simp] theorem dataForString_eq (string : Bytes) : dataForString string = string :=
  dataForSlice_eq string

@[simp] theorem createDataForString_eq (string : Bytes) : createDataForString string = string :=
  dataForSlice_eq string

theorem length_resize (length : ℕ) (string : Bytes) : (resize length string).length = length := by
  simp only [resize, List.length_append, List.length_take, List.length_replicate]
  omega

@[simp] theorem copyDataToString_eq (data string : Bytes) : copyDataToString data string = data := by
  have hfit : ∀ buffer : Bytes, buffer.length = data.length →
      (if 0 < data.length then getBytes data buffer.length buffer else buffer) = data := by
    intro buffer hlen
    split_ifs with hpos
    · rw [getBytes, hlen, List.take_length, Nat.min_self, ← hlen, List.drop_length,
        List.append_nil]
    · have hdata : data = [] := List.length_eq_zero_iff.mp (by omega)
      rw [hdata] at hlen ⊢
      exact List.length_eq_zero_iff.mp hlen
  unfold copyDataToString
  apply hfit
  split_ifs with hne
  · exact length_resize _ _
  · exact (not_not.mp hne).symm

end Conversions

structure LevelDBKeyComparator where
  keyComparatorName : Bytes
  compare : Bytes → Bytes → Exec NSComparisonResult
  findShortestSeparator : Bytes → Bytes → Exec (Option Bytes) := fun _ _ => pure none
  findShortSuccessor : Bytes → Exec (Option Bytes) := fun _ => pure none

structure DVECLevelDBKeyComparator where
  name : Bytes
  compare : Bytes → Bytes → Exec NSComparisonResult
  findShortestSeparator : Bytes → Bytes → Exec (Option Bytes)
  findShortSuccessor : Bytes → Exec (Option Bytes)

def keyComparatorFacade (keyComparator : LevelDBKeyComparator) : DVECLevelDBKeyComparator where
  name := keyComparator.keyComparatorName
  compare lhs rhs := keyComparator.compare lhs rhs
  findShortestSeparator start limit := keyComparator.findShortestSeparator start limit
  findShortSuccessor key := keyComparator.findShortSuccessor key

/-- `DVECLevelDBComparatorFacade`; `nil` leaves the string as it is. -/
def comparatorFacade (comparator : DVECLevelDBKeyComparator) : Comparator where
  name := cString comparator.name
  compare a b := do
    let result ← comparator.compare (dataForSlice a) (dataForSlice b)
    return signOf result.rawValue
  findShortestSeparator start limit := do
    match ← comparator.findShortestSeparator (dataForString start) (dataForSlice limit) with
    | some newStartData => return copyDataToString newStartData start
    | none => return start
  findShortSuccessor key := do
    match ← comparator.findShortSuccessor (dataForString key) with
    | some newKeyData => return copyDataToString newKeyData key
    | none => return key

/-- The engine's comparator for a database opened with `keyComparator`. -/
def engineComparator (keyComparator : LevelDBKeyComparator) : Comparator :=
  comparatorFacade (keyComparatorFacade keyComparator)

namespace DVECLevelDBBytewiseKeyComparator

def compare (key1 key2 : Bytes) : Exec NSComparisonResult := do
  match ← bytewiseComparator.compare key1 key2 with
  | .lt => return .orderedAscending
  | .gt => return .orderedDescending
  | .eq => return .orderedSame

def findShortestSeparator (start limit : Bytes) : Exec (Option Bytes) := do
  let startString ← bytewiseComparator.findShortestSeparator (copyDataToString start []) limit
  return some (createDataForString startString)

def findShortSuccessor (key : Bytes) : Exec (Option Bytes) := do
  let keyString ← bytewiseComparator.findShortSuccessor (copyDataToString key [])
  return some (createDataForString keyString)

end DVECLevelDBBytewiseKeyComparator

/-- `BytewiseKeyComparator` in its role as a Swift comparator. -/
def bytewiseKeyComparator : LevelDBKeyComparator where
  keyComparatorName := cString bytewiseComparator.name
  compare := DVECLevelDBBytewiseKeyComparator.compare
  findShortestSeparator := DVECLevelDBBytewiseKeyComparator.findShortestSeparator
  findShortSuccessor := DVECLevelDBBytewiseKeyComparator.findShortSuccessor

section Transparency

variable (keyComparator : LevelDBKeyComparator)

@[simp] theorem signOf_rawValue (r : NSComparisonResult) : signOf r.rawValue = r.ordering := by
  cases r <;> rfl

theorem engineComparator_compare (a b : Bytes) : (engineComparator keyComparator).compare a b =
    (keyComparator.compare a b).map NSComparisonResult.ordering := by
  simp only [engineComparator, comparatorFacade, keyComparatorFacade, dataForSlice_eq,
    signOf_rawValue]
  cases keyComparator.compare a b <;> rfl

theorem engineComparator_separator (start limit : Bytes) :
    (engineComparator keyComparator).findShortestSeparator start limit =
      (keyComparator.findShortestSeparator start limit).map (·.getD start) := by
  simp only [engineComparator, comparatorFacade, keyComparatorFacade, dataForSlice_eq,
    dataForString_eq, copyDataToString_eq]
  cases keyComparator.findShortestSeparator start limit with
  | error t => rfl
  | ok r => cases r <;> rfl

theorem engineComparator_successor (key : Bytes) :
    (engineComparator keyComparator).findShortSuccessor key =
      (keyComparator.findShortSuccessor key).map (·.getD key) := by
  simp only [engineComparator, comparatorFacade, keyComparatorFacade, dataForString_eq,
    copyDataToString_eq]
  cases keyComparator.findShortSuccessor key with
  | error t => rfl
  | ok r => cases r <;> rfl

theorem engineComparator_bytewise : engineComparator bytewiseKeyComparator = bytewiseComparator := by
  have hcompare : (engineComparator bytewiseKeyComparator).compare = bytewiseComparator.compare := by
    funext a b
    rw [engineComparator_compare]
    simp only [bytewiseKeyComparator, DVECLevelDBBytewiseKeyComparator.compare]
    cases h : bytewiseComparator.compare a b with
    | error t => rfl
    | ok o => cases o <;> rfl
  have hseparator : (engineComparator bytewiseKeyComparator).findShortestSeparator =
      bytewiseComparator.findShortestSeparator := by
    funext start limit
    rw [engineComparator_separator]
    simp only [bytewiseKeyComparator, DVECLevelDBBytewiseKeyComparator.findShortestSeparator,
      copyDataToString_eq, createDataForString_eq]
    cases bytewiseComparator.findShortestSeparator start limit <;> rfl
  have hsuccessor : (engineComparator bytewiseKeyComparator).findShortSuccessor =
      bytewiseComparator.findShortSuccessor := by
    funext key
    rw [engineComparator_successor]
    simp only [bytewiseKeyComparator, DVECLevelDBBytewiseKeyComparator.findShortSuccessor,
      copyDataToString_eq, createDataForString_eq]
    cases bytewiseComparator.findShortSuccessor key <;> rfl
  have hname : (engineComparator bytewiseKeyComparator).name = bytewiseComparator.name := by
    change cString (cString bytewiseComparator.name) = bytewiseComparator.name
    decide +kernel
  cases he : engineComparator bytewiseKeyComparator
  cases hb : bytewiseComparator
  rw [he, hb] at hcompare hseparator hsuccessor hname
  cases hcompare
  cases hseparator
  cases hsuccessor
  cases hname
  rfl

end Transparency

/-- Through all conversions the engine sees the comparator that was written in Swift, and the
default comparator is the engine's own. -/
theorem comparator_chain_transparent (keyComparator : LevelDBKeyComparator) :
    (∀ a b, (engineComparator keyComparator).compare a b =
      (keyComparator.compare a b).map NSComparisonResult.ordering) ∧
    (∀ start limit, (engineComparator keyComparator).findShortestSeparator start limit =
      (keyComparator.findShortestSeparator start limit).map (·.getD start)) ∧
    (∀ key, (engineComparator keyComparator).findShortSuccessor key =
      (keyComparator.findShortSuccessor key).map (·.getD key)) ∧
    engineComparator bytewiseKeyComparator = bytewiseComparator := by
  refine ⟨?_, ?_, ?_, engineComparator_bytewise⟩
  · exact engineComparator_compare keyComparator
  · exact engineComparator_separator keyComparator
  · exact engineComparator_successor keyComparator

end DVELevelDB
