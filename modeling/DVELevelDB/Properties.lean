import DVELevelDB.ComparatorFacade
import DVELevelDB.DVECLevelDB
import DVELevelDB.Lib.Decimal
import DVELevelDB.StatusErrors

/-! # Database properties

The Swift enumeration builds the key of a property, the engine takes it apart again.
-/

namespace DVELevelDB

open Utf8

inductive LevelDBProperty where
  | numFiles (level : UInt64)
  | stats
  | ssTables
  | approximateMemoryUsage
  deriving DecidableEq, Repr

namespace LevelDBProperty

def keyPrefix : String := "leveldb"

def key (property : LevelDBProperty) : String :=
  let key := match property with
    | numFiles level => "num-files-at-level" ++ toString level.toNat
    | stats => "stats"
    | ssTables => "sstables"
    | approximateMemoryUsage => "approximate-memory-usage"
  keyPrefix ++ "." ++ key

end LevelDBProperty

section Logging

def kMaxUint64 : UInt64 := 18446744073709551615

def kLastDigitOfMaxUint64 : UInt8 := 48 + (kMaxUint64 % 10).toUInt8

/-- The loop of `ConsumeDecimalNumber`: the number and the bytes after it, unless it overflows. -/
def consumeDigits (value : UInt64) : Bytes → Option (UInt64 × Bytes)
  | [] => some (value, [])
  | ch :: rest =>
    if ch < 48 ∨ ch > 57 then
      some (value, ch :: rest)
    else if value > kMaxUint64 / 10 ∨ (value = kMaxUint64 / 10 ∧ ch > kLastDigitOfMaxUint64) then
      none
    else
      consumeDigits (value * 10 + (ch - 48).toUInt64) rest

def consumeDecimalNumber (input : Bytes) : Option (UInt64 × Bytes) :=
  match consumeDigits 0 input with
  | some (value, rest) => if rest.length = input.length then none else some (value, rest)
  | none => none

/-- `AppendNumberTo`, and the other places where a whole number is printed. -/
def numberToString (num : ℕ) : Bytes := utf8 (toString num)

def hexDigit (n : ℕ) : UInt8 := UInt8.ofNat (if n < 10 then 48 + n else 87 + n)

def escapeString (value : Bytes) : Bytes :=
  value.flatMap fun c =>
    if 32 ≤ c ∧ c ≤ 126 then [c] else [92, 120, hexDigit (c.toNat / 16), hexDigit (c.toNat % 16)]

end Logging

def InternalKey.debugString (key : InternalKey) : Bytes :=
  match parseInternalKey key with
  | some parsed =>
    utf8 "'" ++ escapeString parsed.userKey ++ utf8 "' @ " ++ numberToString parsed.sequence ++
      utf8 " : " ++ numberToString parsed.type
  | none => utf8 "(bad)" ++ escapeString key.encode

def Version.debugString (v : Version) : Bytes :=
  (List.range kNumLevels).flatMap fun level =>
    utf8 "--- level " ++ numberToString level ++ utf8 " ---\n" ++
      (v.files level).flatMap fun f =>
        utf8 " " ++ numberToString f.number ++ utf8 ":" ++ numberToString f.fileSize ++ utf8 "[" ++
          f.smallest.debugString ++ utf8 " .. " ++ f.largest.debugString ++ utf8 "]\n"

structure CompactionStats where
  micros : ℤ
  bytesRead : ℤ
  bytesWritten : ℤ

/-- What `%.0f` prints of a finite number. -/
def WholeText : Type := {text : Bytes // ∀ b ∈ text, b = 45 ∨ (48 ≤ b ∧ b ≤ 57)}

/-- What the engine reports on besides the contents. -/
structure EngineState where
  db : DB
  stats : ℕ → CompactionStats
  totalCharge : ℕ
  approximateMemoryUsage : MemTable → ℕ

section GetProperty

def padLeft (width : ℕ) (text : Bytes) : Bytes := List.replicate (width - text.length) 32 ++ text

/-- `snprintf` into a buffer of this size. -/
def snprintf (size : ℕ) (text : Bytes) : Bytes := text.take (size - 1)

-- the quotient of two numbers as `double`s, printed with `%.0f`
variable (quotient : ℤ → ℕ → WholeText)

def statsHeader : Bytes :=
  snprintf 200 (utf8 ("                               Compactions\n" ++
    "Level  Files Size(MB) Time(sec) Read(MB) Write(MB)\n" ++
    "--------------------------------------------------\n"))

def statsRow (st : EngineState) (level : ℕ) : Bytes :=
  let files := st.db.version.files level
  let stats := st.stats level
  if stats.micros > 0 ∨ files.length > 0 then
    snprintf 200 (padLeft 3 (numberToString level) ++ utf8 " " ++
      padLeft 8 (numberToString files.length) ++ utf8 " " ++
      padLeft 8 (quotient (totalFileSize files) 1048576).1 ++ utf8 " " ++
      padLeft 9 (quotient stats.micros 1000000).1 ++ utf8 " " ++
      padLeft 8 (quotient stats.bytesRead 1048576).1 ++ utf8 " " ++
      padLeft 9 (quotient stats.bytesWritten 1048576).1 ++ utf8 "\n")
  else
    []

def memoryUsage (st : EngineState) : ℕ :=
  (st.totalCharge + st.approximateMemoryUsage st.db.mem +
    match st.db.imm with
    | some imm => st.approximateMemoryUsage imm
    | none => 0) % 2 ^ 64

/-- The property that the engine takes a key for. -/
def parseProperty (property : Bytes) : Option LevelDBProperty :=
  if (utf8 "leveldb.").isPrefixOf property then
    let input := property.drop (utf8 "leveldb.").length
    if (utf8 "num-files-at-level").isPrefixOf input then
      match consumeDecimalNumber (input.drop (utf8 "num-files-at-level").length) with
      | some (level, []) => some (.numFiles level)
      | _ => none
    else if input = utf8 "stats" then
      some .stats
    else if input = utf8 "sstables" then
      some .ssTables
    else if input = utf8 "approximate-memory-usage" then
      some .approximateMemoryUsage
    else
      none
  else
    none

/-- `DBImpl::GetProperty`: whether there is such a property, and `*value`. -/
def EngineState.getProperty (st : EngineState) (property : Bytes) : Bool × Bytes :=
  match parseProperty property with
  | some (.numFiles level) =>
    if level.toNat ≥ kNumLevels then
      (false, [])
    else
      (true, snprintf 100 (numberToString (st.db.version.files level.toNat).length))
  | some .stats =>
    (true, statsHeader ++ (List.range kNumLevels).flatMap (statsRow quotient st))
  | some .ssTables => (true, st.db.version.debugString)
  | some .approximateMemoryUsage => (true, snprintf 50 (numberToString (memoryUsage st)))
  | none => (false, [])

def DVECLevelDB.dbPropertyForKey (st : EngineState) (key : Bytes) : Option Bytes :=
  stringWithUTF8String (st.getProperty quotient (cString key)).2

def LevelDB.getDBProperty (st : EngineState) (property : LevelDBProperty) : Option Bytes :=
  DVECLevelDB.dbPropertyForKey quotient st (utf8 property.key)

/-- The engine takes the key for the property it was built from, and its answer is passed on. -/
structure AnsweredFaithfully (st : EngineState) (property : LevelDBProperty) : Prop where
  parsed : parseProperty (cString (utf8 property.key)) = some property
  answered : LevelDB.getDBProperty quotient st property =
    let (found, value) := st.getProperty quotient (cString (utf8 property.key))
    if found then some value else none

end GetProperty

section Decimal

/-- The digits of a number, read until something else comes, unless they say more than 64 bits
hold. -/
theorem consumeDigits_eq {digits : List Char} (hd : ∀ c ∈ digits, c.isDigit) {rest : Bytes}
    (hrest : ∀ b ∈ rest.head?, b < 48 ∨ b > 57) (v : UInt64) :
    consumeDigits v (digits.map (fun c => UInt8.ofNat c.toNat) ++ rest) =
      if Decimal.read v.toNat digits < 2 ^ 64 then
        some (UInt64.ofNat (Decimal.read v.toNat digits), rest)
      else
        none := by
  induction digits generalizing v with
  | nil =>
    have hv : v.toNat < 2 ^ 64 := v.toNat_lt
    rw [List.map_nil, List.nil_append, Decimal.read_nil, if_pos hv, UInt64.ofNat_toNat]
    cases rest with
    | nil => rfl
    | cons b rest => rw [consumeDigits, if_pos (hrest b rfl)]
  | cons c digits ih =>
    obtain ⟨hlow, hhigh⟩ := Decimal.toNat_of_isDigit (hd c List.mem_cons_self)
    have hdigit : Decimal.digit c = c.toNat - 48 := rfl
    have hch : (UInt8.ofNat c.toNat).toNat = c.toNat := by
      rw [UInt8.toNat_ofNat']
      omega
    have hisDigit : ¬ (UInt8.ofNat c.toNat < 48 ∨ UInt8.ofNat c.toNat > 57) := by
      simp only [gt_iff_lt, UInt8.lt_iff_toNat_lt, hch, UInt8.reduceToNat]
      omega
    have hover : (v > kMaxUint64 / 10 ∨
        (v = kMaxUint64 / 10 ∧ UInt8.ofNat c.toNat > kLastDigitOfMaxUint64)) ↔
        ¬ v.toNat * 10 + Decimal.digit c < 2 ^ 64 := by
      have hmax : (kMaxUint64 / 10).toNat = 1844674407370955161 := by decide
      have hlast : kLastDigitOfMaxUint64.toNat = 53 := by decide
      simp only [gt_iff_lt, UInt8.lt_iff_toNat_lt, UInt64.lt_iff_toNat_lt, ← UInt64.toNat_inj, hch,
        hmax, hlast]
      omega
    rw [List.map_cons, List.cons_append, consumeDigits, if_neg hisDigit, Decimal.read_cons]
    by_cases hfit : v.toNat * 10 + Decimal.digit c < 2 ^ 64
    · rw [if_neg (hover.not.mpr (not_not.mpr hfit))]
      have hnext : (v * 10 + (UInt8.ofNat c.toNat - 48).toUInt64).toNat =
          v.toNat * 10 + Decimal.digit c := by
        have hsub : (UInt8.ofNat c.toNat - 48).toNat = c.toNat - 48 := by
          rw [UInt8.toNat_sub_of_le _ _ (by rw [UInt8.le_iff_toNat_le, hch]; exact hlow), hch]
          rfl
        rw [UInt64.toNat_add, UInt64.toNat_mul, UInt8.toNat_toUInt64, hsub]
        simp only [UInt64.reduceToNat]
        omega
      rw [ih (fun d h => hd d (List.mem_cons_of_mem _ h)), hnext]
    · have hle := Decimal.le_read (v.toNat * 10 + Decimal.digit c) digits
      rw [if_pos (hover.mpr hfit), if_neg (by omega)]

theorem utf8_append (a b : String) : utf8 (a ++ b) = utf8 a ++ utf8 b := by
  rw [utf8_eq_encode, utf8_eq_encode, utf8_eq_encode, String.toList_append, encode_append]

theorem numberToString_eq (num : ℕ) :
    numberToString num = (Nat.toDigits 10 num).map fun c => UInt8.ofNat c.toNat := by
  rw [numberToString, utf8_eq_encode, Nat.toString_eq_ofList_toDigits, String.toList_ofList]
  refine encode_of_ascii fun c hc => ?_
  have := Decimal.toNat_of_isDigit (Decimal.isDigit_toDigits hc)
  omega

theorem consumeDecimalNumber_numberToString (level : UInt64) :
    consumeDecimalNumber (numberToString level.toNat) = some (level, []) := by
  have hdigits := @consumeDigits_eq (Nat.toDigits 10 level.toNat)
    (fun c hc => Decimal.isDigit_toDigits hc) [] nofun 0
  have hread : Decimal.read (UInt64.toNat 0) (Nat.toDigits 10 level.toNat) = level.toNat :=
    Decimal.read_toDigits level.toNat
  rw [hread, if_pos level.toNat_lt, UInt64.ofNat_toNat, List.append_nil] at hdigits
  have hlength : ([] : Bytes).length ≠ (numberToString level.toNat).length := by
    rw [numberToString_eq, List.length_map]
    exact Nat.length_toDigits_pos.ne
  rw [consumeDecimalNumber, numberToString_eq, hdigits, ← numberToString_eq]
  exact if_neg hlength

theorem isPrefixOf_append (a b : Bytes) : a.isPrefixOf (a ++ b) = true :=
  List.isPrefixOf_iff_prefix.mpr (List.prefix_append a b)

theorem parseProperty_key (property : LevelDBProperty) :
    parseProperty (utf8 property.key) = some property := by
  cases property with
  | numFiles level =>
    have hkey : utf8 (LevelDBProperty.numFiles level).key =
        utf8 "leveldb." ++ (utf8 "num-files-at-level" ++ numberToString level.toNat) := by
      rw [numberToString, ← utf8_append, ← utf8_append]
      rfl
    rw [hkey, parseProperty, if_pos (isPrefixOf_append _ _)]
    simp only [List.drop_left, isPrefixOf_append, if_true, consumeDecimalNumber_numberToString]
  | stats => decide +kernel
  | ssTables => decide +kernel
  | approximateMemoryUsage => decide +kernel

end Decimal

section Texts

theorem numberToString_ascii (num : ℕ) : Ascii (numberToString num) := by
  rw [numberToString_eq]
  intro b hb
  obtain ⟨c, hc, rfl⟩ := List.mem_map.mp hb
  have hdigit := Decimal.toNat_of_isDigit (Decimal.isDigit_toDigits hc)
  have hbyte : (UInt8.ofNat c.toNat).toNat = c.toNat := by
    rw [UInt8.toNat_ofNat']
    omega
  refine ⟨?_, by omega⟩
  intro hzero
  rw [hzero] at hbyte
  have : (0 : UInt8).toNat = 0 := rfl
  omega

theorem padLeft_ascii (width : ℕ) {bytes : Bytes} (h : Ascii bytes) :
    Ascii (padLeft width bytes) := by
  refine Ascii.append (fun b hb => ?_) h
  rw [List.eq_of_mem_replicate hb]
  decide

theorem hexDigit_ascii {n : ℕ} (h : n < 16) : Ascii [hexDigit n] := by
  have hall : ∀ n : Fin 16, Ascii [hexDigit n] := by decide +kernel
  exact hall ⟨n, h⟩

theorem escapeString_ascii (value : Bytes) : Ascii (escapeString value) := by
  apply Ascii.flatMap
  intro c _
  by_cases hprint : 32 ≤ c ∧ c ≤ 126
  · rw [if_pos hprint]
    intro b hb
    obtain rfl := List.mem_singleton.mp hb
    rw [UInt8.le_iff_toNat_le, UInt8.le_iff_toNat_le] at hprint
    simp only [UInt8.reduceToNat] at hprint
    refine ⟨?_, by omega⟩
    rintro rfl
    exact absurd hprint.1 (by decide)
  · rw [if_neg hprint]
    have hc := c.toNat_lt
    have hescape : Ascii [92, 120] := by decide +kernel
    have hhigh := hexDigit_ascii (n := c.toNat / 16) (by omega)
    have hlow := hexDigit_ascii (n := c.toNat % 16) (by omega)
    exact hescape.append (hhigh.append hlow)

theorem WholeText.ascii (text : WholeText) : Ascii text.1 := by
  intro b hb
  rcases text.2 b hb with rfl | ⟨hlow, hhigh⟩
  · decide
  · rw [UInt8.le_iff_toNat_le] at hlow hhigh
    simp only [UInt8.reduceToNat] at hlow hhigh
    refine ⟨?_, by omega⟩
    rintro rfl
    exact absurd hlow (by decide)

theorem InternalKey.debugString_ascii (key : InternalKey) : Ascii key.debugString := by
  unfold InternalKey.debugString
  cases parseInternalKey key with
  | none => exact Ascii.append (by decide +kernel) (escapeString_ascii _)
  | some parsed =>
    have hquote : Ascii (utf8 "'") := by decide +kernel
    have hat : Ascii (utf8 "' @ ") := by decide +kernel
    have hcolon : Ascii (utf8 " : ") := by decide +kernel
    exact ((((hquote.append (escapeString_ascii _)).append hat).append
      (numberToString_ascii _)).append hcolon).append (numberToString_ascii _)

theorem Version.debugString_ascii (v : Version) : Ascii v.debugString := by
  have hlevel : Ascii (utf8 "--- level ") ∧ Ascii (utf8 " ---\n") := by decide +kernel
  have hfile : Ascii (utf8 " ") ∧ Ascii (utf8 ":") ∧ Ascii (utf8 "[") ∧ Ascii (utf8 " .. ") ∧
      Ascii (utf8 "]\n") := by decide +kernel
  obtain ⟨hspace, hcolon, hopen, hdots, hclose⟩ := hfile
  apply Ascii.flatMap
  intro level _
  refine ((hlevel.1.append (numberToString_ascii _)).append hlevel.2).append (Ascii.flatMap ?_)
  intro f _
  have hnumbers := ((hspace.append (numberToString_ascii f.number)).append hcolon).append
    (numberToString_ascii f.fileSize)
  exact ((((hnumbers.append hopen).append (InternalKey.debugString_ascii _)).append hdots).append
    (InternalKey.debugString_ascii _)).append hclose

variable (quotient : ℤ → ℕ → WholeText) (st : EngineState)

theorem statsRow_ascii (level : ℕ) : Ascii (statsRow quotient st level) := by
  have htext : Ascii (utf8 " ") ∧ Ascii (utf8 "\n") := by decide +kernel
  unfold statsRow
  dsimp only
  split_ifs
  · apply Ascii.take
    refine Ascii.append ?_ htext.2
    refine Ascii.append ?_ (padLeft_ascii 9 (WholeText.ascii _))
    refine Ascii.append (Ascii.append ?_ (padLeft_ascii 8 (WholeText.ascii _))) htext.1
    refine Ascii.append (Ascii.append ?_ (padLeft_ascii 9 (WholeText.ascii _))) htext.1
    refine Ascii.append (Ascii.append ?_ (padLeft_ascii 8 (WholeText.ascii _))) htext.1
    refine Ascii.append (Ascii.append ?_ (padLeft_ascii 8 (numberToString_ascii _))) htext.1
    exact Ascii.append (padLeft_ascii 3 (numberToString_ascii _)) htext.1
  · exact fun b hb => absurd hb List.not_mem_nil

theorem EngineState.getProperty_ascii (property : Bytes) :
    Ascii (st.getProperty quotient property).2 := by
  have hnil : Ascii [] := fun b hb => absurd hb List.not_mem_nil
  unfold EngineState.getProperty
  cases parseProperty property with
  | none => exact hnil
  | some property =>
    cases property with
    | numFiles level =>
      dsimp only
      split_ifs
      · exact hnil
      · exact Ascii.take (numberToString_ascii _) _
    | stats =>
      have hheader : Ascii statsHeader := by decide +kernel
      exact hheader.append (Ascii.flatMap fun level _ => statsRow_ascii quotient st level)
    | ssTables => exact Version.debugString_ascii _
    | approximateMemoryUsage => exact Ascii.take (numberToString_ascii _) _

end Texts

section Answers

variable (quotient : ℤ → ℕ → WholeText) (st : EngineState)

theorem cString_of_ascii {bytes : Bytes} (h : Ascii bytes) : cString bytes = bytes :=
  List.takeWhile_eq_self_iff.mpr fun b hb => decide_eq_true (h b hb).1

theorem stringWithUTF8String_of_ascii {bytes : Bytes} (h : Ascii bytes) :
    stringWithUTF8String bytes = some bytes := by
  have htake : bytes.takeWhile (· ≠ 0) = bytes := cString_of_ascii h
  rw [stringWithUTF8String, htake]
  exact if_pos (validateUTF8_iff.mpr h.encoded)

theorem LevelDBProperty.key_ascii (property : LevelDBProperty) : Ascii (utf8 property.key) := by
  cases property with
  | numFiles level =>
    have hkey : utf8 (LevelDBProperty.numFiles level).key =
        utf8 "leveldb.num-files-at-level" ++ numberToString level.toNat := by
      rw [numberToString, ← utf8_append]
      rfl
    rw [hkey]
    exact Ascii.append (by decide +kernel) (numberToString_ascii _)
  | stats => decide +kernel
  | ssTables => decide +kernel
  | approximateMemoryUsage => decide +kernel

theorem LevelDB.getDBProperty_eq (property : LevelDBProperty) :
    LevelDB.getDBProperty quotient st property =
      some (st.getProperty quotient (utf8 property.key)).2 := by
  rw [LevelDB.getDBProperty, DVECLevelDB.dbPropertyForKey, cString_of_ascii property.key_ascii,
    stringWithUTF8String_of_ascii (EngineState.getProperty_ascii quotient st _)]

theorem EngineState.getProperty_found (property : LevelDBProperty) :
    (st.getProperty quotient (utf8 property.key)).1 = true ↔
      ∀ level, property = .numFiles level → level.toNat < kNumLevels := by
  rw [EngineState.getProperty, parseProperty_key]
  cases property with
  | numFiles level =>
    dsimp only
    by_cases h : level.toNat ≥ kNumLevels
    · rw [if_pos h]
      refine iff_of_false nofun fun hlt => ?_
      exact absurd (hlt level rfl) (by omega)
    · rw [if_neg h]
      refine iff_of_true rfl ?_
      rintro _ ⟨⟩
      omega
  | stats => exact iff_of_true rfl nofun
  | ssTables => exact iff_of_true rfl nofun
  | approximateMemoryUsage => exact iff_of_true rfl nofun

/-- Every key is understood; the answer is passed on faithfully except for a level that there is
not, where the wrapper drops the engine's `false`. -/
theorem property_answered_iff (property : LevelDBProperty) :
    AnsweredFaithfully quotient st property ↔
      ∀ level, property = .numFiles level → level.toNat < kNumLevels := by
  have hkey : cString (utf8 property.key) = utf8 property.key := cString_of_ascii property.key_ascii
  rw [← EngineState.getProperty_found quotient st property]
  constructor
  · intro h
    have hanswered := h.answered
    rw [LevelDB.getDBProperty_eq, hkey] at hanswered
    by_contra hfalse
    simp only [hfalse] at hanswered
    cases hanswered
  · intro h
    constructor
    · rw [hkey]
      exact parseProperty_key property
    · rw [LevelDB.getDBProperty_eq, hkey]
      exact (if_pos h).symm

/-- An empty text, and not `nil`, for a level that there is not. -/
theorem missing_level_answered :
    let st : EngineState := ⟨DB.fresh, fun _ => ⟨0, 0, 0⟩, 0, fun _ => 0⟩
    let quotient : ℤ → ℕ → WholeText := fun _ _ => ⟨[48], by decide +kernel⟩
    (st.getProperty quotient (utf8 (LevelDBProperty.numFiles 7).key)).1 = false ∧
      LevelDB.getDBProperty quotient st (.numFiles 7) = some [] ∧
      ¬ AnsweredFaithfully quotient st (.numFiles 7) := by
  refine ⟨by decide +kernel, by decide +kernel, ?_⟩
  intro h
  have hanswered := h.answered
  revert hanswered
  decide +kernel

end Answers

end DVELevelDB
