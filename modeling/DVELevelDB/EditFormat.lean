import DVELevelDB.VersionEdit

/-! # `db/version_edit.cc`

The records of a manifest. Each field has a tag; a field that was not set is left out.
-/

namespace DVELevelDB

open Coding

/-- What the manifest says of a table; the keys are encoded internal keys. -/
structure FileRecord where
  number : ℕ
  fileSize : ℕ
  smallest : Bytes
  largest : Bytes
  deriving DecidableEq, Repr

/-- A `VersionEdit` with all of its fields; the deleted files are a set. -/
structure EditRecord where
  comparator : Option Bytes := none
  logNumber : Option ℕ := none
  prevLogNumber : Option ℕ := none
  nextFileNumber : Option ℕ := none
  lastSequence : Option ℕ := none
  compactPointers : List (ℕ × Bytes) := []
  deletedFiles : List (ℕ × ℕ) := []
  newFiles : List (ℕ × FileRecord) := []
  deriving DecidableEq, Repr

namespace EditRecord

inductive Tag where
  | comparator
  | logNumber
  | nextFileNumber
  | lastSequence
  | compactPointer
  | deletedFile
  | newFile
  | prevLogNumber
  deriving DecidableEq, Repr

namespace Tag

def code : Tag → ℕ
  | comparator => 1
  | logNumber => 2
  | nextFileNumber => 3
  | lastSequence => 4
  | compactPointer => 5
  | deletedFile => 6
  | newFile => 7
  -- 8 was used for large value refs
  | prevLogNumber => 9

def ofCode : ℕ → Option Tag
  | 1 => some comparator
  | 2 => some logNumber
  | 3 => some nextFileNumber
  | 4 => some lastSequence
  | 5 => some compactPointer
  | 6 => some deletedFile
  | 7 => some newFile
  | 9 => some prevLogNumber
  | _ => none

/-- What is reported when the field behind a tag cannot be read. -/
def msg : Tag → String
  | comparator => "comparator name"
  | logNumber => "log number"
  | prevLogNumber => "previous log number"
  | nextFileNumber => "next file number"
  | lastSequence => "last sequence number"
  | compactPointer => "compaction pointer"
  | deletedFile => "deleted file"
  | newFile => "new-file entry"

end Tag

section EncodeTo

def putTag (t : Tag) : Bytes := encodeVarint32 t.code

def putField {α : Type*} (t : Tag) (put : α → Bytes) : Option α → Bytes
  | some x => putTag t ++ put x
  | none => []

/-- `InternalKey::Encode`, which asserts that there is a key. -/
def putInternalKey (key : Bytes) : Exec Bytes := do
  assertThat (!key.isEmpty)
  return putLengthPrefixedSlice key

def putCompactPointer (p : ℕ × Bytes) : Exec Bytes := do
  return putTag .compactPointer ++ (encodeVarint32 p.1 ++ (← putInternalKey p.2))

def putDeletedFile (p : ℕ × ℕ) : Bytes :=
  putTag .deletedFile ++ (encodeVarint32 p.1 ++ encodeVarint64 p.2)

def putNewFile (p : ℕ × FileRecord) : Exec Bytes := do
  let smallest ← putInternalKey p.2.smallest
  let largest ← putInternalKey p.2.largest
  return putTag .newFile ++ (encodeVarint32 p.1 ++ (encodeVarint64 p.2.number ++
    (encodeVarint64 p.2.fileSize ++ (smallest ++ largest))))

def encodeTo (e : EditRecord) : Exec Bytes := do
  let pointers ← e.compactPointers.mapM putCompactPointer
  let files ← e.newFiles.mapM putNewFile
  return putField .comparator putLengthPrefixedSlice e.comparator ++
    (putField .logNumber encodeVarint64 e.logNumber ++
    (putField .prevLogNumber encodeVarint64 e.prevLogNumber ++
    (putField .nextFileNumber encodeVarint64 e.nextFileNumber ++
    (putField .lastSequence encodeVarint64 e.lastSequence ++
    (pointers.flatten ++ (e.deletedFiles.flatMap putDeletedFile ++ files.flatten))))))

end EncodeTo

section DecodeFrom

/-- The order of a `std::set` of pairs. -/
def pairBefore (p q : ℕ × ℕ) : Prop := p.1 < q.1 ∨ p.1 = q.1 ∧ p.2 < q.2

instance (p q : ℕ × ℕ) : Decidable (pairBefore p q) := inferInstanceAs (Decidable (_ ∨ _))

def insertPair (p : ℕ × ℕ) : List (ℕ × ℕ) → List (ℕ × ℕ)
  | [] => [p]
  | q :: set =>
    if pairBefore p q then p :: q :: set
    else if p = q then q :: set
    else q :: insertPair p set

def getInternalKey (input : Bytes) : Option (Bytes × Bytes) := do
  let (key, input) ← getLengthPrefixedSlice input
  guard (!key.isEmpty)
  return (key, input)

def getLevel (input : Bytes) : Option (ℕ × Bytes) := do
  let (v, input) ← getVarint32 input
  guard (v < kNumLevels)
  return (v, input)

/-- The field behind a tag, and the rest. -/
def getField (input : Bytes) (e : EditRecord) : Tag → Option (EditRecord × Bytes)
  | .comparator => do
    let (name, input) ← getLengthPrefixedSlice input
    return ({ e with comparator := some name }, input)
  | .logNumber => do
    let (number, input) ← getVarint64 input
    return ({ e with logNumber := some number }, input)
  | .prevLogNumber => do
    let (number, input) ← getVarint64 input
    return ({ e with prevLogNumber := some number }, input)
  | .nextFileNumber => do
    let (number, input) ← getVarint64 input
    return ({ e with nextFileNumber := some number }, input)
  | .lastSequence => do
    let (number, input) ← getVarint64 input
    return ({ e with lastSequence := some number }, input)
  | .compactPointer => do
    let (level, input) ← getLevel input
    let (key, input) ← getInternalKey input
    return ({ e with compactPointers := e.compactPointers ++ [(level, key)] }, input)
  | .deletedFile => do
    let (level, input) ← getLevel input
    let (number, input) ← getVarint64 input
    return ({ e with deletedFiles := insertPair (level, number) e.deletedFiles }, input)
  | .newFile => do
    let (level, input) ← getLevel input
    let (number, input) ← getVarint64 input
    let (fileSize, input) ← getVarint64 input
    let (smallest, input) ← getInternalKey input
    let (largest, input) ← getInternalKey input
    return ({ e with newFiles := e.newFiles ++ [(level, ⟨number, fileSize, smallest, largest⟩)] },
      input)

def corruption (msg : String) : Status := .make .corruption (utf8 "VersionEdit") (utf8 msg)

theorem getInternalKey_rest {input key p : Bytes} (h : getInternalKey input = some (key, p)) :
    p.length < input.length := by
  simp only [getInternalKey, Option.bind_eq_bind, Option.bind_eq_some_iff] at h
  obtain ⟨⟨key', q⟩, hslice, _, -, heq⟩ := h
  obtain ⟨-, rfl⟩ := Prod.mk.inj (Option.some.inj heq)
  exact getLengthPrefixedSlice_rest hslice

theorem getVarint32_rest {input p : Bytes} {v : ℕ} (h : getVarint32 input = some (v, p)) :
    p.length < input.length := by
  rw [getVarint32_eq_loop] at h
  exact getVarint32Loop_rest h

theorem getLevel_rest {input p : Bytes} {level : ℕ} (h : getLevel input = some (level, p)) :
    p.length < input.length ∧ level < kNumLevels := by
  simp only [getLevel, Option.bind_eq_bind, Option.bind_eq_some_iff] at h
  obtain ⟨⟨v, q⟩, hv, _, hguard, heq⟩ := h
  obtain ⟨rfl, rfl⟩ := Prod.mk.inj (Option.some.inj heq)
  exact ⟨getVarint32_rest hv, by simpa using hguard⟩

/-- The field at the start of the input, or how the loop of `DecodeFrom` ends. -/
def decodeStep (input : Bytes) (e : EditRecord) : Except Status (EditRecord × Bytes) :=
  match getVarint32 input with
  | some (tag, rest) =>
    match Tag.ofCode tag with
    | some t => (getField rest e t).elim (.error (corruption t.msg)) .ok
    | none => .error (corruption "unknown tag")
  | none => .error (if input.isEmpty then .ok else corruption "invalid tag")

def StoredKey (key : Bytes) : Prop := key ≠ [] ∧ key.length < 2 ^ 32

/-- The edits that have an encoding. -/
structure WellFormed (e : EditRecord) : Prop where
  comparator : ∀ name ∈ e.comparator, name.length < 2 ^ 32
  logNumber : ∀ n ∈ e.logNumber, n < 2 ^ 64
  prevLogNumber : ∀ n ∈ e.prevLogNumber, n < 2 ^ 64
  nextFileNumber : ∀ n ∈ e.nextFileNumber, n < 2 ^ 64
  lastSequence : ∀ n ∈ e.lastSequence, n < 2 ^ 64
  compactPointers : ∀ p ∈ e.compactPointers, p.1 < kNumLevels ∧ StoredKey p.2
  deletedFiles : ∀ p ∈ e.deletedFiles, p.1 < kNumLevels ∧ p.2 < 2 ^ 64
  sorted : e.deletedFiles.Pairwise pairBefore
  newFiles : ∀ p ∈ e.newFiles, p.1 < kNumLevels ∧ p.2.number < 2 ^ 64 ∧ p.2.fileSize < 2 ^ 64 ∧
    StoredKey p.2.smallest ∧ StoredKey p.2.largest

theorem pairBefore.trans {p q r : ℕ × ℕ} (h : pairBefore p q) (h' : pairBefore q r) :
    pairBefore p r := by
  unfold pairBefore at *
  omega

theorem pairBefore.total {p q : ℕ × ℕ} (h : ¬ pairBefore p q) (hne : p ≠ q) : pairBefore q p := by
  rw [Ne, Prod.ext_iff] at hne
  unfold pairBefore at *
  omega

theorem mem_insertPair {p x : ℕ × ℕ} {set : List (ℕ × ℕ)} :
    x ∈ insertPair p set ↔ x = p ∨ x ∈ set := by
  induction set with
  | nil => rw [insertPair, List.mem_singleton, or_iff_left List.not_mem_nil]
  | cons q set ih =>
    rw [insertPair]
    split_ifs with hlt heq
    · exact List.mem_cons
    · subst heq
      rw [List.mem_cons]
      tauto
    · rw [List.mem_cons, ih, List.mem_cons]
      tauto

theorem insertPair_sorted {p : ℕ × ℕ} {set : List (ℕ × ℕ)} (h : set.Pairwise pairBefore) :
    (insertPair p set).Pairwise pairBefore := by
  induction set with
  | nil => exact List.pairwise_singleton _ _
  | cons q set ih =>
    obtain ⟨hq, hset⟩ := List.pairwise_cons.mp h
    rw [insertPair]
    split_ifs with hlt heq
    · refine List.pairwise_cons.mpr ⟨?_, h⟩
      intro x hx
      rcases List.mem_cons.mp hx with rfl | hx
      · exact hlt
      · exact hlt.trans (hq x hx)
    · exact h
    · refine List.pairwise_cons.mpr ⟨?_, ih hset⟩
      intro x hx
      rcases mem_insertPair.mp hx with rfl | hx
      · exact pairBefore.total hlt heq
      · exact hq x hx

theorem insertPair_last {p : ℕ × ℕ} {set : List (ℕ × ℕ)} (h : ∀ q ∈ set, pairBefore q p) :
    insertPair p set = set ++ [p] := by
  induction set with
  | nil => rfl
  | cons q set ih =>
    have hq := h q List.mem_cons_self
    have hlt : ¬ pairBefore p q := by
      unfold pairBefore at *
      omega
    have hne : p ≠ q := by
      rintro rfl
      exact hlt hq
    rw [insertPair, if_neg hlt, if_neg hne, ih fun x hx => h x (List.mem_cons_of_mem _ hx)]
    rfl

theorem getInternalKey_stored {input key p : Bytes} (h : getInternalKey input = some (key, p)) :
    StoredKey key := by
  simp only [getInternalKey, Option.bind_eq_bind, Option.bind_eq_some_iff] at h
  obtain ⟨⟨key', q⟩, hslice, _, hguard, heq⟩ := h
  obtain ⟨rfl, rfl⟩ := Prod.mk.inj (Option.some.inj heq)
  exact ⟨by simpa using hguard, getLengthPrefixedSlice_length hslice⟩

theorem getVarint64_rest {input p : Bytes} {v : ℕ} (h : getVarint64 input = some (v, p)) :
    p.length < input.length ∧ v < 2 ^ 64 :=
  ⟨getVarint64Loop_rest h, getVarint64Loop_lt (by norm_num) h⟩

/-- A field uses up some of the input, and an edit that has an encoding still has one. -/
theorem getField_spec {input rest : Bytes} {e e' : EditRecord} {t : Tag}
    (h : getField input e t = some (e', rest)) :
    rest.length < input.length ∧ (e.WellFormed → e'.WellFormed) := by
  cases t <;>
    simp only [getField, Option.bind_eq_bind, Option.bind_eq_some_iff, Prod.exists] at h
  case comparator =>
    obtain ⟨name, p, hname, heq⟩ := h
    obtain ⟨rfl, rfl⟩ := Prod.mk.inj (Option.some.inj heq)
    refine ⟨getLengthPrefixedSlice_rest hname, fun hw => { hw with comparator := ?_ }⟩
    rintro _ ⟨⟩
    exact getLengthPrefixedSlice_length hname
  case logNumber =>
    obtain ⟨n, p, hn, heq⟩ := h
    obtain ⟨rfl, rfl⟩ := Prod.mk.inj (Option.some.inj heq)
    refine ⟨(getVarint64_rest hn).1, fun hw => { hw with logNumber := ?_ }⟩
    rintro _ ⟨⟩
    exact (getVarint64_rest hn).2
  case prevLogNumber =>
    obtain ⟨n, p, hn, heq⟩ := h
    obtain ⟨rfl, rfl⟩ := Prod.mk.inj (Option.some.inj heq)
    refine ⟨(getVarint64_rest hn).1, fun hw => { hw with prevLogNumber := ?_ }⟩
    rintro _ ⟨⟩
    exact (getVarint64_rest hn).2
  case nextFileNumber =>
    obtain ⟨n, p, hn, heq⟩ := h
    obtain ⟨rfl, rfl⟩ := Prod.mk.inj (Option.some.inj heq)
    refine ⟨(getVarint64_rest hn).1, fun hw => { hw with nextFileNumber := ?_ }⟩
    rintro _ ⟨⟩
    exact (getVarint64_rest hn).2
  case lastSequence =>
    obtain ⟨n, p, hn, heq⟩ := h
    obtain ⟨rfl, rfl⟩ := Prod.mk.inj (Option.some.inj heq)
    refine ⟨(getVarint64_rest hn).1, fun hw => { hw with lastSequence := ?_ }⟩
    rintro _ ⟨⟩
    exact (getVarint64_rest hn).2
  case compactPointer =>
    obtain ⟨level, p, hlevel, key, q, hkey, heq⟩ := h
    obtain ⟨rfl, rfl⟩ := Prod.mk.inj (Option.some.inj heq)
    refine ⟨(getInternalKey_rest hkey).trans (getLevel_rest hlevel).1,
      fun hw => { hw with compactPointers := ?_ }⟩
    intro x hx
    rcases List.mem_append.mp hx with hx | hx
    · exact hw.compactPointers x hx
    · obtain rfl := List.mem_singleton.mp hx
      exact ⟨(getLevel_rest hlevel).2, getInternalKey_stored hkey⟩
  case deletedFile =>
    obtain ⟨level, p, hlevel, n, q, hn, heq⟩ := h
    obtain ⟨rfl, rfl⟩ := Prod.mk.inj (Option.some.inj heq)
    refine ⟨(getVarint64_rest hn).1.trans (getLevel_rest hlevel).1,
      fun hw => { hw with deletedFiles := ?_, sorted := insertPair_sorted hw.sorted }⟩
    intro x hx
    rcases mem_insertPair.mp hx with rfl | hx
    · exact ⟨(getLevel_rest hlevel).2, (getVarint64_rest hn).2⟩
    · exact hw.deletedFiles x hx
  case newFile =>
    obtain ⟨level, p, hlevel, n, p₁, hn, size, p₂, hsize, smallest, p₃, hsmallest, largest, p₄,
      hlargest, heq⟩ := h
    obtain ⟨rfl, rfl⟩ := Prod.mk.inj (Option.some.inj heq)
    refine ⟨((((getInternalKey_rest hlargest).trans (getInternalKey_rest hsmallest)).trans
      (getVarint64_rest hsize).1).trans (getVarint64_rest hn).1).trans (getLevel_rest hlevel).1,
      fun hw => { hw with newFiles := ?_ }⟩
    intro x hx
    rcases List.mem_append.mp hx with hx | hx
    · exact hw.newFiles x hx
    · obtain rfl := List.mem_singleton.mp hx
      exact ⟨(getLevel_rest hlevel).2, (getVarint64_rest hn).2, (getVarint64_rest hsize).2,
        getInternalKey_stored hsmallest, getInternalKey_stored hlargest⟩

theorem decodeStep_spec {input rest : Bytes} {e e' : EditRecord}
    (h : decodeStep input e = .ok (e', rest)) :
    rest.length < input.length ∧ (e.WellFormed → e'.WellFormed) := by
  rw [decodeStep] at h
  split at h
  · rename_i tag p htag
    split at h
    · rename_i t ht
      cases hfield : getField p e t with
      | none =>
        rw [hfield] at h
        cases h
      | some r =>
        rw [hfield] at h
        cases h
        obtain ⟨hrest, hw⟩ := getField_spec hfield
        exact ⟨hrest.trans (getVarint32_rest htag), hw⟩
    · cases h
  · cases h

def decodeLoop (input : Bytes) (e : EditRecord) : Status × EditRecord :=
  match _h : decodeStep input e with
  | .ok (e', rest) => decodeLoop rest e'
  | .error s => (s, e)
  termination_by input.length
  decreasing_by exact (decodeStep_spec _h).1

/-- `VersionEdit::Clear`, which does not clear the compaction pointers. -/
def clear (e : EditRecord) : EditRecord := { compactPointers := e.compactPointers }

def decodeFrom (e : EditRecord) (src : Bytes) : Status × EditRecord := decodeLoop src e.clear

end DecodeFrom

section RoundTrip

variable {e e' : EditRecord} {rest : Bytes}

theorem decodeLoop_ok {input : Bytes} (h : decodeStep input e = .ok (e', rest)) :
    decodeLoop input e = decodeLoop rest e' := by
  rw [decodeLoop]
  split
  · rename_i e₁ rest₁ h₁
    obtain ⟨rfl, rfl⟩ := Prod.mk.inj (Except.ok.inj (h.symm.trans h₁))
    rfl
  · rename_i s h₁
    cases h.symm.trans h₁

theorem decodeLoop_error {input : Bytes} {s : Status} (h : decodeStep input e = .error s) :
    decodeLoop input e = (s, e) := by
  rw [decodeLoop]
  split
  · rename_i e₁ rest₁ h₁
    cases h.symm.trans h₁
  · rename_i s₁ h₁
    rw [Except.error.inj (h.symm.trans h₁)]

/-- What is decoded without an error is well formed. -/
theorem decodeLoop_wellFormed {input : Bytes} (he : e.WellFormed)
    (h : decodeLoop input e = (.ok, e')) : e'.WellFormed := by
  fun_induction decodeLoop input e with
  | case1 input e e₁ rest hstep ih => exact ih ((decodeStep_spec hstep).2 he) h
  | case2 input e s hstep =>
    obtain ⟨-, rfl⟩ := Prod.mk.inj h
    exact he

theorem ofCode_code (t : Tag) : Tag.ofCode t.code = some t := by
  cases t <;> rfl

theorem decodeLoop_field {body : Bytes} {t : Tag}
    (h : getField (body ++ rest) e t = some (e', rest)) :
    decodeLoop ((putTag t ++ body) ++ rest) e = decodeLoop rest e' := by
  refine decodeLoop_ok ?_
  have hcode : t.code < 2 ^ 32 := by cases t <;> decide
  rw [decodeStep, putTag, List.append_assoc, getVarint32_encodeVarint32 hcode]
  dsimp only
  rw [ofCode_code]
  dsimp only
  rw [h]
  rfl

theorem getInternalKey_put {key : Bytes} (h : StoredKey key) (rest : Bytes) :
    getInternalKey (putLengthPrefixedSlice key ++ rest) = some (key, rest) := by
  simp [getInternalKey, getLengthPrefixedSlice_put h.2, h.1, guard]

theorem putInternalKey_eq {key : Bytes} (h : StoredKey key) :
    putInternalKey key = .ok (putLengthPrefixedSlice key) := by
  have hne : key.isEmpty = false := by simpa using h.1
  rw [putInternalKey, hne]
  rfl

theorem getLevel_put {level : ℕ} (h : level < kNumLevels) (rest : Bytes) :
    getLevel (encodeVarint32 level ++ rest) = some (level, rest) := by
  have hlt : level < 2 ^ 32 := h.trans (by decide)
  simp [getLevel, getVarint32_encodeVarint32 hlt, h, guard]

theorem decodeLoop_putField {α : Type*} (t : Tag) (put : α → Bytes) (set : Option α → EditRecord)
    {o : Option α} (rest : Bytes)
    (h : ∀ x ∈ o, getField (put x ++ rest) (set none) t = some (set (some x), rest)) :
    decodeLoop (putField t put o ++ rest) (set none) = decodeLoop rest (set o) := by
  cases o with
  | none => rfl
  | some x => exact decodeLoop_field (h x rfl)

theorem decodeLoop_putNumber (t : Tag) (set : Option ℕ → EditRecord) {o : Option ℕ} (rest : Bytes)
    (ho : ∀ n ∈ o, n < 2 ^ 64)
    (h : ∀ input, getField input (set none) t =
      (getVarint64 input).bind fun r => some (set (some r.1), r.2)) :
    decodeLoop (putField t encodeVarint64 o ++ rest) (set none) = decodeLoop rest (set o) := by
  refine decodeLoop_putField t encodeVarint64 set rest fun n hn => ?_
  rw [h, getVarint64_encodeVarint64 (ho n hn)]
  rfl

/-- The fields that are set once. -/
theorem decodeLoop_scalars (hw : e.WellFormed) (ps : List (ℕ × Bytes)) (rest : Bytes) :
    decodeLoop (putField .comparator putLengthPrefixedSlice e.comparator ++
      (putField .logNumber encodeVarint64 e.logNumber ++
      (putField .prevLogNumber encodeVarint64 e.prevLogNumber ++
      (putField .nextFileNumber encodeVarint64 e.nextFileNumber ++
      (putField .lastSequence encodeVarint64 e.lastSequence ++ rest)))))
      { compactPointers := ps } =
    decodeLoop rest { e with compactPointers := ps, deletedFiles := [], newFiles := [] } := by
  rw [decodeLoop_putField .comparator putLengthPrefixedSlice
    fun name => { comparator := name, compactPointers := ps }]
  · rw [decodeLoop_putNumber .logNumber
      (fun n => { comparator := e.comparator, logNumber := n, compactPointers := ps }) _
      hw.logNumber fun _ => rfl]
    rw [decodeLoop_putNumber .prevLogNumber
      (fun n => { comparator := e.comparator, logNumber := e.logNumber, prevLogNumber := n,
                  compactPointers := ps }) _
      hw.prevLogNumber fun _ => rfl]
    rw [decodeLoop_putNumber .nextFileNumber
      (fun n => { comparator := e.comparator, logNumber := e.logNumber,
                  prevLogNumber := e.prevLogNumber, nextFileNumber := n,
                  compactPointers := ps }) _
      hw.nextFileNumber fun _ => rfl]
    rw [decodeLoop_putNumber .lastSequence
      (fun n => { comparator := e.comparator, logNumber := e.logNumber,
                  prevLogNumber := e.prevLogNumber, nextFileNumber := e.nextFileNumber,
                  lastSequence := n, compactPointers := ps }) _
      hw.lastSequence fun _ => rfl]
  · intro name hname
    simp only [getField, getLengthPrefixedSlice_put (hw.comparator name hname),
      Option.bind_eq_bind, Option.bind_some]
    rfl

theorem decodeLoop_compactPointers {ps : List (ℕ × Bytes)}
    (h : ∀ p ∈ ps, p.1 < kNumLevels ∧ StoredKey p.2) :
    ∃ bs, ps.mapM putCompactPointer = .ok bs ∧ ∀ rest e, decodeLoop (bs.flatten ++ rest) e =
      decodeLoop rest { e with compactPointers := e.compactPointers ++ ps } := by
  induction ps with
  | nil => exact ⟨[], rfl, fun rest e => by rw [List.append_nil]; rfl⟩
  | cons p ps ih =>
    obtain ⟨hlevel, hkey⟩ := h p List.mem_cons_self
    obtain ⟨bs, hbs, hdecode⟩ := ih fun x hx => h x (List.mem_cons_of_mem _ hx)
    refine ⟨_ :: bs, by rw [List.mapM_cons, putCompactPointer, putInternalKey_eq hkey, hbs]; rfl,
      fun rest e => ?_⟩
    have hget : getField ((encodeVarint32 p.1 ++ putLengthPrefixedSlice p.2) ++
        (bs.flatten ++ rest)) e .compactPointer =
        some ({ e with compactPointers := e.compactPointers ++ [p] }, bs.flatten ++ rest) := by
      simp only [getField, List.append_assoc, getLevel_put hlevel, getInternalKey_put hkey,
        Option.bind_eq_bind, Option.bind_some]
      rfl
    rw [List.flatten_cons, List.append_assoc, decodeLoop_field hget, hdecode]
    simp only [List.append_assoc, List.singleton_append]

theorem decodeLoop_deletedFiles (e : EditRecord) {ps : List (ℕ × ℕ)}
    (hsorted : (e.deletedFiles ++ ps).Pairwise pairBefore)
    (h : ∀ p ∈ ps, p.1 < kNumLevels ∧ p.2 < 2 ^ 64) (rest : Bytes) :
    decodeLoop (ps.flatMap putDeletedFile ++ rest) e =
      decodeLoop rest { e with deletedFiles := e.deletedFiles ++ ps } := by
  induction ps generalizing e with
  | nil => rw [List.append_nil]; rfl
  | cons p ps ih =>
    obtain ⟨hlevel, hnumber⟩ := h p List.mem_cons_self
    have hlast : insertPair p e.deletedFiles = e.deletedFiles ++ [p] := by
      refine insertPair_last fun q hq => ?_
      exact (List.pairwise_append.mp hsorted).2.2 q hq p List.mem_cons_self
    have hget : getField ((encodeVarint32 p.1 ++ encodeVarint64 p.2) ++
        (ps.flatMap putDeletedFile ++ rest)) e .deletedFile =
        some ({ e with deletedFiles := e.deletedFiles ++ [p] },
          ps.flatMap putDeletedFile ++ rest) := by
      simp only [getField, List.append_assoc, getLevel_put hlevel,
        getVarint64_encodeVarint64 hnumber, Option.bind_eq_bind, Option.bind_some, ← hlast]
      rfl
    rw [List.append_cons] at hsorted
    rw [List.flatMap_cons, putDeletedFile, List.append_assoc, decodeLoop_field hget,
      ih _ hsorted fun x hx => h x (List.mem_cons_of_mem _ hx)]
    simp only [List.append_assoc, List.singleton_append]

theorem decodeLoop_newFiles {ps : List (ℕ × FileRecord)}
    (h : ∀ p ∈ ps, p.1 < kNumLevels ∧ p.2.number < 2 ^ 64 ∧ p.2.fileSize < 2 ^ 64 ∧
      StoredKey p.2.smallest ∧ StoredKey p.2.largest) :
    ∃ bs, ps.mapM putNewFile = .ok bs ∧ ∀ rest e, decodeLoop (bs.flatten ++ rest) e =
      decodeLoop rest { e with newFiles := e.newFiles ++ ps } := by
  induction ps with
  | nil => exact ⟨[], rfl, fun rest e => by rw [List.append_nil]; rfl⟩
  | cons p ps ih =>
    obtain ⟨hlevel, hnumber, hsize, hsmallest, hlargest⟩ := h p List.mem_cons_self
    obtain ⟨bs, hbs, hdecode⟩ := ih fun x hx => h x (List.mem_cons_of_mem _ hx)
    refine ⟨_ :: bs, by rw [List.mapM_cons, putNewFile, putInternalKey_eq hsmallest,
      putInternalKey_eq hlargest, hbs]; rfl, fun rest e => ?_⟩
    have hget : getField ((encodeVarint32 p.1 ++ (encodeVarint64 p.2.number ++
        (encodeVarint64 p.2.fileSize ++ (putLengthPrefixedSlice p.2.smallest ++
        putLengthPrefixedSlice p.2.largest)))) ++ (bs.flatten ++ rest)) e .newFile =
        some ({ e with newFiles := e.newFiles ++ [p] }, bs.flatten ++ rest) := by
      simp only [getField, List.append_assoc, getLevel_put hlevel,
        getVarint64_encodeVarint64 hnumber, getVarint64_encodeVarint64 hsize,
        getInternalKey_put hsmallest, getInternalKey_put hlargest, Option.bind_eq_bind,
        Option.bind_some]
      rfl
    rw [List.flatten_cons, List.append_assoc, decodeLoop_field hget, hdecode]
    simp only [List.append_assoc, List.singleton_append]

/-- An edit comes back from its encoding, behind the compaction pointers that were there. -/
theorem decodeFrom_encodeTo (hw : e.WellFormed) :
    ∃ bytes, e.encodeTo = .ok bytes ∧ ∀ into : EditRecord, into.decodeFrom bytes =
      (.ok, { e with compactPointers := into.compactPointers ++ e.compactPointers }) := by
  obtain ⟨pointers, hpointers, hdecode⟩ := decodeLoop_compactPointers hw.compactPointers
  obtain ⟨files, hfiles, hdecode'⟩ := decodeLoop_newFiles hw.newFiles
  refine ⟨_, by rw [encodeTo, hpointers, Stops.ok_bind, hfiles, Stops.ok_bind]; rfl, fun into => ?_⟩
  have hend : ∀ e : EditRecord, decodeLoop [] e = (.ok, e) := fun e => decodeLoop_error rfl
  have hdeleted := decodeLoop_deletedFiles
    { e with
      compactPointers := into.compactPointers ++ e.compactPointers
      deletedFiles := []
      newFiles := [] }
    hw.sorted hw.deletedFiles files.flatten
  rw [decodeFrom, clear, decodeLoop_scalars hw, hdecode]
  simp only [List.nil_append] at hdeleted ⊢
  rw [hdeleted, ← List.append_nil files.flatten, hdecode', hend]
  rfl

theorem wellFormed_empty : ({} : EditRecord).WellFormed := by
  constructor <;> simp

/-- The edits that come back from their encoding are those that any record at all is decoded to. -/
theorem edit_round_trip (e : EditRecord) :
    (e.WellFormed ↔ ∃ bytes, e.encodeTo = .ok bytes ∧ ∀ into : EditRecord,
        into.decodeFrom bytes =
          (.ok, { e with compactPointers := into.compactPointers ++ e.compactPointers })) ∧
      (e.WellFormed ↔ ∃ src, decodeFrom {} src = (.ok, e)) := by
  have hdecoded : ∀ {src}, decodeFrom {} src = (.ok, e) → e.WellFormed :=
    decodeLoop_wellFormed wellFormed_empty
  refine ⟨⟨decodeFrom_encodeTo, ?_⟩, ⟨fun hw => ?_, ?_⟩⟩
  · rintro ⟨bytes, -, hbytes⟩
    exact hdecoded (hbytes {})
  · obtain ⟨bytes, -, hbytes⟩ := decodeFrom_encodeTo hw
    exact ⟨bytes, hbytes {}⟩
  · rintro ⟨src, hsrc⟩
    exact hdecoded hsrc

end RoundTrip

end EditRecord

end DVELevelDB
