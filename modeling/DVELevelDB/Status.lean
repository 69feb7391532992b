import DVELevelDB.Coding
import DVELevelDB.Lib.Ensures

/-! # Outcomes of engine and wrapper calls -/

namespace DVELevelDB

/-- The ways a call does not return: Swift's `fatalError`, a failed `assert` of the engine, an
Objective-C exception, a wait that nothing ends. -/
inductive Trap where
  | fatalError
  | assertion
  | exception
  | blocked
  deriving DecidableEq, Repr

abbrev Exec := Except Trap

def assertThat (b : Bool) : Exec Unit := if b then pure () else throw .assertion

@[simp] theorem assertThat_true : assertThat true = .ok () := rfl

@[simp] theorem assertThat_false : assertThat false = .error .assertion := rfl

def utf8 (s : String) : Bytes := s.toUTF8.data.toList

inductive Code where
  | notFound
  | corruption
  | notSupported
  | invalidArgument
  | ioError
  deriving DecidableEq, Repr

inductive Status where
  | ok
  | error (code : Code) (state : Bytes)
  deriving DecidableEq, Repr

namespace Status

/-- The constructor of `Status`: the lengths are kept in 32 bits. -/
def make (code : Code) (msg msg2 : Bytes) : Status :=
  let len1 := msg.length % 2 ^ 32
  let len2 := msg2.length % 2 ^ 32
  .error code (msg.take len1 ++ if len2 = 0 then [] else utf8 ": " ++ msg2.take len2)

def isOk (s : Status) : Bool := s == .ok

def isNotFound : Status → Bool
  | .error .notFound _ => true
  | _ => false

def toBytes : Status → Bytes
  | .ok => utf8 "OK"
  | .error .notFound state => utf8 "NotFound: " ++ state
  | .error .corruption state => utf8 "Corruption: " ++ state
  | .error .notSupported state => utf8 "Not implemented: " ++ state
  | .error .invalidArgument state => utf8 "Invalid argument: " ++ state
  | .error .ioError state => utf8 "IO error: " ++ state

@[simp] theorem isOk_ok : isOk .ok = true := rfl

@[simp] theorem isOk_error (code : Code) (state : Bytes) : isOk (.error code state) = false := rfl

theorem isOk_iff (s : Status) : s.isOk = true ↔ s = .ok := by simp [isOk]

@[simp] theorem isOk_make (code : Code) (msg msg2 : Bytes) : (make code msg msg2).isOk = false :=
  rfl

end Status

def ENOENT : ℕ := 2

/-- `PosixError`; `strerror` is the text of the error number. -/
def posixError (strerror : ℕ → Bytes) (context : Bytes) (errorNumber : ℕ) : Status :=
  if errorNumber = ENOENT then
    .make .notFound context (strerror errorNumber)
  else
    .make .ioError context (strerror errorNumber)

inductive LevelDBError where
  | unknownError
  | notFound
  | corruptedData
  | ioError
  | notSupported
  | invalidArgument
  | invalidType
  | unsupportedKeyEncoding
  deriving DecidableEq, Repr

structure NSError where
  code : LevelDBError
  debugDescription : Bytes
  deriving DecidableEq, Repr

/-- What `stringWithUTF8String:` reads of a C string; `nil` when that is no UTF-8. -/
def stringWithUTF8String (cstr : Bytes) : Option Bytes :=
  let bytes := cstr.takeWhile (· ≠ 0)
  if (ByteArray.mk bytes.toArray).validateUTF8 then some bytes else none

def errorCode : Code → LevelDBError
  | .notFound => .notFound
  | .corruption => .corruptedData
  | .ioError => .ioError
  | .notSupported => .notSupported
  | .invalidArgument => .invalidArgument

/-- `createFromLevelDBStatus:`; a `nil` description in the dictionary literal raises. -/
def createFromLevelDBStatus : Status → Exec (Option NSError)
  | .ok => pure none
  | .error code state =>
    match stringWithUTF8String (Status.error code state).toBytes with
    | some description => pure (some { code := errorCode code, debugDescription := description })
    | none => throw .exception

theorem createFromLevelDBStatus_code {code : Code} {state : Bytes} {e : Option NSError}
    (h : createFromLevelDBStatus (.error code state) = .ok e) :
    ∃ description, e = some { code := errorCode code, debugDescription := description } := by
  rw [createFromLevelDBStatus] at h
  split at h
  · exact ⟨_, (Except.ok.inj h).symm⟩
  · cases h

theorem createFromLevelDBStatus_isOk {s : Status} {e : Option NSError}
    (h : createFromLevelDBStatus s = .ok e) : e = none ↔ s = .ok := by
  cases s with
  | ok => exact ⟨fun _ => rfl, fun _ => (Except.ok.inj h).symm⟩
  | error code state =>
    obtain ⟨description, rfl⟩ := createFromLevelDBStatus_code h
    simp

/-- Only a `NotFound` status becomes the error that reads as an absent key. -/
theorem errorCode_eq_notFound {code : Code} : errorCode code = .notFound ↔ code = .notFound := by
  cases code <;> simp [errorCode]

end DVELevelDB
