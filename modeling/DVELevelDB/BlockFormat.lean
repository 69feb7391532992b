import DVELevelDB.EngineIterators
import DVELevelDB.Lib.BinarySearch

/-! # The bytes of a block

A key is stored without the prefix that it shares with the key before. At restart points nothing is
shared, so that a search can begin there.
-/

namespace DVELevelDB

namespace BlockFormat

open Coding Positions
open Stops (Ensures)

structure BlockBuilder where
  buffer : Bytes
  restarts : List ℕ
  /-- Entries since the last restart point. -/
  counter : ℕ
  finished : Bool
  lastKey : Bytes

namespace BlockBuilder

def empty : BlockBuilder := ⟨[], [0], 0, false, []⟩

def currentSizeEstimate (b : BlockBuilder) : ℕ := b.buffer.length + b.restarts.length * 4 + 4

def encodeEntry (shared : ℕ) (key value : Bytes) : Bytes :=
  encodeVarint32 (shared % 2 ^ 32) ++ encodeVarint32 ((key.length - shared) % 2 ^ 32) ++
    encodeVarint32 (value.length % 2 ^ 32) ++ key.drop shared ++ value

variable (c : Comparator) (interval : ℕ)

def add (key value : Bytes) (b : BlockBuilder) : Exec BlockBuilder := do
  assertThat !b.finished
  assertThat (b.counter ≤ interval)
  unless b.buffer.isEmpty do
    assertThat ((← c.compare key b.lastKey) == .gt)
  let restart := b.counter ≥ interval
  let shared := if restart then 0 else commonPrefix b.lastKey key
  let lastKey := b.lastKey.take shared ++ key.drop shared
  assertThat (lastKey == key)
  return {
    buffer := b.buffer ++ encodeEntry shared key value
    restarts := if restart then b.restarts ++ [b.buffer.length % 2 ^ 32] else b.restarts
    counter := if restart then 1 else b.counter + 1
    finished := false
    lastKey }

def finish (b : BlockBuilder) : BlockBuilder :=
  { b with
    buffer := b.buffer ++ b.restarts.flatMap encodeFixed32 ++
      encodeFixed32 (b.restarts.length % 2 ^ 32)
    finished := true }

def addAll (es : List (Bytes × Bytes)) (b : BlockBuilder) : Exec BlockBuilder :=
  es.foldlM (fun b e => b.add c interval e.1 e.2) b

end BlockBuilder

/-- `shared`, `non_shared` and `value_length` of an entry. -/
structure EntryLengths where
  shared : ℕ
  nonShared : ℕ
  valueLength : ℕ

def readLengths (p : Bytes) : Option (EntryLengths × Bytes) := do
  let (shared, p) ← getVarint32 p
  let (nonShared, p) ← getVarint32 p
  let (valueLength, p) ← getVarint32 p
  return (⟨shared, nonShared, valueLength⟩, p)

/-- All three lengths may stand in one byte each. -/
def decodeLengths : Bytes → Option (EntryLengths × Bytes)
  | a :: b :: c :: rest =>
    if a.toNat ||| b.toNat ||| c.toNat < 128 then
      some (⟨a.toNat, b.toNat, c.toNat⟩, rest)
    else
      readLengths (a :: b :: c :: rest)
  | _ => none

/-- The lengths of the entry at the beginning of `p`, and what is behind them. -/
def decodeEntry (p : Bytes) : Option (EntryLengths × Bytes) :=
  match decodeLengths p with
  | none => none
  | some (h, rest) =>
    if rest.length % 2 ^ 32 < (h.nonShared + h.valueLength) % 2 ^ 32 then none else some (h, rest)

structure Iter where
  data : Bytes
  /-- Where the restart points begin. -/
  restarts : ℕ
  numRestarts : ℕ
  current : ℕ
  restartIndex : ℕ
  key : Bytes
  /-- Where the value begins. -/
  valueStart : ℕ
  valueLength : ℕ
  status : Status

namespace Iter

def make (data : Bytes) (restarts numRestarts : ℕ) : Iter where
  data
  restarts
  numRestarts
  current := restarts
  restartIndex := numRestarts
  key := []
  valueStart := 0
  valueLength := 0
  status := .ok

def valid (it : Iter) : Bool := it.current < it.restarts

def value (it : Iter) : Bytes := (it.data.drop it.valueStart).take it.valueLength

def nextEntryOffset (it : Iter) : ℕ := it.valueStart + it.valueLength

def getRestartPoint (index : ℕ) (it : Iter) : Exec ℕ := do
  assertThat (index < it.numRestarts)
  return decodeFixed32 (it.data.drop (it.restarts + index * 4))

def seekToRestartPoint (index : ℕ) (it : Iter) : Exec Iter := do
  let offset ← it.getRestartPoint index
  return { it with key := [], restartIndex := index, valueStart := offset, valueLength := 0 }

def invalidate (it : Iter) : Iter :=
  { it with current := it.restarts, restartIndex := it.numRestarts }

def corruptionError (it : Iter) : Iter :=
  { it.invalidate with
    status := .make .corruption (utf8 "bad entry in block") []
    key := []
    valueStart := 0
    valueLength := 0 }

def entryAt (offset : ℕ) (it : Iter) : Option (EntryLengths × Bytes) :=
  decodeEntry ((it.data.take it.restarts).drop offset)

def restartOf (it : Iter) (index : ℕ) : Exec ℕ := do
  if index + 1 < it.numRestarts then
    if (← it.getRestartPoint (index + 1)) < it.current then
      restartOf it (index + 1)
    else
      return index
  else
    return index
  termination_by it.numRestarts - index

def parseNextKey (it : Iter) : Exec (Bool × Iter) := do
  let it := { it with current := it.nextEntryOffset }
  if it.current ≥ it.restarts then
    return (false, it.invalidate)
  else
    match it.entryAt it.current with
    | none => return (false, it.corruptionError)
    | some (h, p) =>
      if it.key.length < h.shared then
        return (false, it.corruptionError)
      else
        let it := { it with
          key := it.key.take h.shared ++ p.take h.nonShared
          valueStart := it.restarts - p.length + h.nonShared
          valueLength := h.valueLength }
        return (true, { it with restartIndex := ← it.restartOf it.restartIndex })

theorem readLengths_rest {p rest : Bytes} {h : EntryLengths}
    (hp : readLengths p = some (h, rest)) : rest.length < p.length := by
  have hshort : ∀ {p q : Bytes} {v : ℕ}, getVarint32 p = some (v, q) → q.length < p.length := by
    intro p q v hv
    rw [getVarint32_eq_loop] at hv
    exact getVarint32Loop_rest hv
  simp only [readLengths, Option.bind_eq_bind, Option.bind_eq_some_iff, Prod.exists] at hp
  obtain ⟨v, p₁, h₁, v', p₂, h₂, v'', p₃, h₃, heq⟩ := hp
  obtain ⟨-, rfl⟩ := Prod.mk.inj (Option.some.inj heq)
  exact (hshort h₃).trans ((hshort h₂).trans (hshort h₁))

theorem decodeLengths_rest {p rest : Bytes} {h : EntryLengths}
    (hp : decodeLengths p = some (h, rest)) : rest.length < p.length := by
  unfold decodeLengths at hp
  split at hp
  · split_ifs at hp
    · obtain ⟨-, rfl⟩ := Prod.mk.inj (Option.some.inj hp)
      simp only [List.length_cons]
      omega
    · exact readLengths_rest hp
  · cases hp

theorem decodeEntry_rest {p rest : Bytes} {h : EntryLengths}
    (hp : decodeEntry p = some (h, rest)) : rest.length < p.length := by
  rw [decodeEntry] at hp
  cases hlengths : decodeLengths p with
  | none =>
    rw [hlengths] at hp
    cases hp
  | some r =>
    obtain ⟨h', rest'⟩ := r
    rw [hlengths] at hp
    dsimp only at hp
    split_ifs at hp
    obtain ⟨rfl, rfl⟩ := Prod.mk.inj (Option.some.inj hp)
    exact decodeLengths_rest hlengths

theorem parseNextKey_next {it it' : Iter} (h : it.parseNextKey = .ok (true, it')) :
    it'.restarts = it.restarts ∧ it.nextEntryOffset < it.restarts ∧
      it.nextEntryOffset < it'.nextEntryOffset := by
  rw [parseNextKey] at h
  dsimp only at h
  split_ifs at h with hend
  · cases h
  · split at h
    · cases h
    · rename_i lengths p hp
      split_ifs at h
      · cases h
      · obtain ⟨index, -, heq⟩ := Stops.bind_eq_ok.mp h
        obtain rfl := (Prod.mk.inj (Except.ok.inj heq)).2
        have hrest := decodeEntry_rest hp
        rw [List.length_drop, List.length_take] at hrest
        refine ⟨rfl, Nat.lt_of_not_le hend, ?_⟩
        simp only [nextEntryOffset] at hrest hend ⊢
        omega

/-- Entries are passed over while there is `more` to skip. -/
def skip (more : Iter → Exec Bool) (it : Iter) : Exec Iter :=
  match _h : it.parseNextKey with
  | .error t => .error t
  | .ok (false, it') => .ok it'
  | .ok (true, it') => do
    if ← more it' then
      skip more it'
    else
      return it'
  termination_by it.restarts - it.nextEntryOffset
  decreasing_by
    obtain ⟨hrestarts, hbefore, hafter⟩ := parseNextKey_next _h
    omega

def next (it : Iter) : Exec Iter := do
  assertThat it.valid
  let (_, it) ← it.parseNextKey
  return it

/-- The last restart point up to `index` that is before `original`. -/
def restartBefore (original : ℕ) (it : Iter) : ℕ → Exec (Option ℕ)
  | 0 => do return if (← it.getRestartPoint 0) ≥ original then none else some 0
  | index + 1 => do
    if (← it.getRestartPoint (index + 1)) ≥ original then
      restartBefore original it index
    else
      return some (index + 1)

def prev (it : Iter) : Exec Iter := do
  assertThat it.valid
  let original := it.current
  match ← it.restartBefore original it.restartIndex with
  | none => return it.invalidate
  | some index =>
    (← it.seekToRestartPoint index).skip fun it => return it.nextEntryOffset < original

def seekToFirst (it : Iter) : Exec Iter := do
  let (_, it) ← (← it.seekToRestartPoint 0).parseNextKey
  return it

def seekToLast (it : Iter) : Exec Iter := do
  (← it.seekToRestartPoint (it.numRestarts - 1)).skip fun it =>
    return it.nextEntryOffset < it.restarts

/-- The last restart point with a key before the target, unless an entry is bad. -/
def findRestart (c : Comparator) (target : Bytes) (left right : ℕ) (it : Iter) :
    Exec (Option ℕ) := do
  if left < right then
    let mid := (left + right + 1) / 2
    match it.entryAt (← it.getRestartPoint mid) with
    | none => return none
    | some (h, p) =>
      if h.shared ≠ 0 then
        return none
      else if (← c.compare (p.take h.nonShared) target) == .lt then
        findRestart c target mid right it
      else
        findRestart c target left (mid - 1) it
  else
    return some left
  termination_by right - left

def beforeTarget (c : Comparator) (target : Bytes) (it : Iter) : Exec Bool := do
  return (← c.compare it.key target) == .lt

def seek (c : Comparator) (target : Bytes) (it : Iter) : Exec Iter := do
  let order ← if it.valid then c.compare it.key target else pure .eq
  if it.valid && order == .eq then
    return it
  else
    let left := if order == .lt then it.restartIndex else 0
    let right := if order == .gt then it.restartIndex else it.numRestarts - 1
    match ← it.findRestart c target left right with
    | none => return it.corruptionError
    | some left =>
      assertThat (order == .eq || it.valid)
      -- the current position may be used if it is before the target
      let it ← if left == it.restartIndex && order == .lt then pure it
        else it.seekToRestartPoint left
      it.skip (beforeTarget c target)

def engineIterator (c : Comparator) : EngineIterator Iter where
  valid it := it.valid
  key it := do
    assertThat it.valid
    return it.key
  value it := do
    assertThat it.valid
    return it.value
  status it := it.status
  seekToFirst it := it.seekToFirst
  seekToLast it := it.seekToLast
  seek target it := it.seek c target
  next it := it.next
  prev it := it.prev

end Iter

structure Block where
  data : Bytes
  /-- Zero marks an error. -/
  size : ℕ
  restartOffset : ℕ

namespace Block

def countRestarts (data : Bytes) : ℕ := decodeFixed32 (data.drop (data.length - 4))

def make (data : Bytes) : Block :=
  if data.length < 4 then
    ⟨data, 0, 0⟩
  else if countRestarts data > (data.length - 4) / 4 then
    ⟨data, 0, 0⟩
  else
    ⟨data, data.length, data.length - (1 + countRestarts data) * 4⟩

/-- The iterator of a block, or one that is empty or has only an error. -/
def newIterator (b : Block) : Status ⊕ Iter :=
  if b.size < 4 then
    .inl (.make .corruption (utf8 "bad block contents") [])
  else if countRestarts b.data = 0 then
    .inl .ok
  else
    .inr (.make b.data b.restartOffset (countRestarts b.data))

end Block

section Pieces

def keyBefore (es : List (Bytes × Bytes)) : ℕ → Bytes
  | 0 => []
  | i + 1 => (es[i]?.map (·.1)).getD []

/-- The `i`-th entry with a prefix of the key before, or in full at a restart point. -/
def Piece (interval : ℕ) (es : List (Bytes × Bytes)) (i : ℕ) (piece : Bytes) : Prop :=
  ∃ e shared, es[i]? = some e ∧ piece = BlockBuilder.encodeEntry shared e.1 e.2 ∧
    shared ≤ e.1.length ∧ shared ≤ (keyBefore es i).length ∧
    (keyBefore es i).take shared = e.1.take shared ∧ (i % interval = 0 → shared = 0)

structure Pieces (interval : ℕ) (es : List (Bytes × Bytes)) (pieces : List Bytes) : Prop where
  length : pieces.length = es.length
  piece : ∀ i piece, pieces[i]? = some piece → Piece interval es i piece

variable {interval : ℕ} {es : List (Bytes × Bytes)} {pieces : List Bytes} {e : Bytes × Bytes}

theorem keyBefore_append {i : ℕ} (hi : i ≤ es.length) (more : List (Bytes × Bytes)) :
    keyBefore (es ++ more) i = keyBefore es i := by
  cases i with
  | zero => rfl
  | succ i => rw [keyBefore, keyBefore, List.getElem?_append_left hi]

theorem length_encodeEntry_pos (shared : ℕ) (key value : Bytes) :
    0 < (BlockBuilder.encodeEntry shared key value).length := by
  have hpos := List.length_pos_iff.mpr (encodeVarint32_ne_nil (shared % 2 ^ 32))
  simp only [BlockBuilder.encodeEntry, List.length_append]
  omega

theorem Pieces.offset_lt (h : Pieces interval es pieces) {i j : ℕ} (hij : i < j)
    (hj : j ≤ es.length) : offset pieces i < offset pieces j := by
  induction j with
  | zero => exact absurd hij (Nat.not_lt_zero i)
  | succ j ih =>
    have hlt : j < pieces.length := by rw [h.length]; exact hj
    have hpiece := List.getElem?_eq_getElem hlt
    obtain ⟨e, shared, -, heq, -⟩ := h.piece j _ hpiece
    have hpos := length_encodeEntry_pos shared e.1 e.2
    rw [← heq] at hpos
    rw [offset_succ hpiece]
    rcases Nat.lt_or_eq_of_le (Nat.le_of_lt_succ hij) with hlt' | rfl
    · exact (ih hlt' (by omega)).trans_le (Nat.le_add_right _ _)
    · omega

theorem Pieces.offset_lt_iff (h : Pieces interval es pieces) {i j : ℕ} (hi : i ≤ es.length)
    (hj : j ≤ es.length) : offset pieces i < offset pieces j ↔ i < j := by
  refine ⟨fun hlt => ?_, fun hij => h.offset_lt hij hj⟩
  rcases Nat.lt_trichotomy i j with hij | rfl | hij
  · exact hij
  · exact absurd hlt (lt_irrefl _)
  · exact absurd (hlt.trans (h.offset_lt hij hi)) (lt_irrefl _)

theorem Pieces.append (h : Pieces interval es pieces) {shared : ℕ} (hkey : shared ≤ e.1.length)
    (hbefore : shared ≤ (keyBefore es es.length).length)
    (hsame : (keyBefore es es.length).take shared = e.1.take shared)
    (hrestart : es.length % interval = 0 → shared = 0) :
    Pieces interval (es ++ [e]) (pieces ++ [BlockBuilder.encodeEntry shared e.1 e.2]) := by
  refine ⟨by simp [h.length], fun i piece hi => ?_⟩
  rcases Nat.lt_trichotomy i pieces.length with hlt | rfl | hgt
  · rw [List.getElem?_append_left hlt] at hi
    obtain ⟨e', shared', he', hrest⟩ := h.piece i piece hi
    have hi' : i < es.length := h.length ▸ hlt
    refine ⟨e', shared', by rw [List.getElem?_append_left hi', he'], ?_⟩
    rw [keyBefore_append hi'.le]
    exact hrest
  · rw [List.getElem?_append_right le_rfl, Nat.sub_self] at hi
    obtain rfl := Option.some.inj hi
    rw [h.length]
    refine ⟨e, shared, by simp, rfl, hkey, ?_⟩
    rw [keyBefore_append le_rfl]
    exact ⟨hbefore, hsame, hrestart⟩
  · rw [List.getElem?_append_right hgt.le] at hi
    have hsub : i - pieces.length = (i - pieces.length - 1) + 1 := by omega
    rw [hsub] at hi
    cases hi

end Pieces

section Building

theorem commonPrefix_spec (a b : Bytes) : commonPrefix a b ≤ a.length ∧
    commonPrefix a b ≤ b.length ∧ a.take (commonPrefix a b) = b.take (commonPrefix a b) := by
  induction a generalizing b with
  | nil => simp [commonPrefix]
  | cons x a ih =>
    cases b with
    | nil => simp [commonPrefix]
    | cons y b =>
      rw [commonPrefix]
      split_ifs with hxy
      · obtain ⟨ha, hb, htake⟩ := ih b
        exact ⟨Nat.succ_le_succ ha, Nat.succ_le_succ hb, by rw [List.take_succ_cons,
          List.take_succ_cons, hxy, htake]⟩
      · simp

/-- The builder after it has added `es`. -/
structure Builds (interval : ℕ) (es : List (Bytes × Bytes)) (pieces : List Bytes)
    (b : BlockBuilder) : Prop where
  split : Pieces interval es pieces
  buffer : b.buffer = pieces.flatten
  restarts : ∃ k, es.length = interval * k + b.counter ∧
    b.restarts = (List.range (k + 1)).map fun j => offset pieces (interval * j) % 2 ^ 32
  counter_le : b.counter ≤ interval
  counter_pos : es ≠ [] → 0 < b.counter
  finished : b.finished = false
  lastKey : b.lastKey = keyBefore es es.length

theorem builds_empty (interval : ℕ) : Builds interval [] [] .empty where
  split := ⟨rfl, fun i piece hi => by cases hi⟩
  buffer := rfl
  restarts := ⟨0, rfl, rfl⟩
  counter_le := Nat.zero_le _
  counter_pos h := absurd rfl h
  finished := rfl
  lastKey := rfl

variable {κ : Type*} [LinearOrder κ] {c : Comparator} {D : Bytes → Prop} {rank : Bytes → κ}
  {interval : ℕ} {es : List (Bytes × Bytes)} {pieces : List Bytes} {e : Bytes × Bytes}
  {b : BlockBuilder}

theorem Builds.add (h : Builds interval es pieces b) (hpos : 0 < interval)
    (hcompare : es ≠ [] → c.compare e.1 b.lastKey = .ok .gt) :
    ∃ b' shared, b.add c interval e.1 e.2 = .ok b' ∧
      Builds interval (es ++ [e]) (pieces ++ [BlockBuilder.encodeEntry shared e.1 e.2]) b' := by
  obtain ⟨k, hcount, hrestarts⟩ := h.restarts
  have hle := h.counter_le
  have hstart : b.counter ≥ interval ∨ es.length % interval = 0 →
      es = [] ∨ b.counter = interval := by
    intro hor
    by_cases hes : es = []
    · exact Or.inl hes
    · have hcpos := h.counter_pos hes
      rcases hor with hge | hmod
      · exact Or.inr (le_antisymm hle hge)
      · rw [hcount, Nat.mul_add_mod] at hmod
        rcases Nat.lt_or_eq_of_le hle with hlt | heq
        · rw [Nat.mod_eq_of_lt hlt] at hmod
          omega
        · exact Or.inr heq
  obtain ⟨hlast, hkey, htake⟩ := commonPrefix_spec b.lastKey e.1
  set shared := if b.counter ≥ interval then 0 else commonPrefix b.lastKey e.1 with hshared
  have hshared_le : shared ≤ commonPrefix b.lastKey e.1 := by
    rw [hshared]
    split_ifs
    · exact Nat.zero_le _
    · exact le_rfl
  have hsame : b.lastKey.take shared = e.1.take shared := by
    have hboth := congrArg (List.take shared) htake
    rwa [List.take_take, List.take_take, min_eq_left hshared_le] at hboth
  have hnone : es.length % interval = 0 → shared = 0 := by
    intro hmod
    rcases hstart (Or.inr hmod) with rfl | heq
    · rw [hshared, h.lastKey]
      split_ifs <;> rfl
    · rw [hshared, if_pos heq.ge]
  have hlastKey : b.lastKey.take shared ++ e.1.drop shared = e.1 := by
    rw [hsame, List.take_append_drop]
  have hpieces := h.split.append (hshared_le.trans hkey)
    (h.lastKey ▸ hshared_le.trans hlast) (h.lastKey ▸ hsame) hnone
  have hbuffer : b.buffer ++ BlockBuilder.encodeEntry shared e.1 e.2 =
      (pieces ++ [BlockBuilder.encodeEntry shared e.1 e.2]).flatten := by
    rw [h.buffer, List.flatten_append, List.flatten_singleton]
  have hkeyBefore : e.1 = keyBefore (es ++ [e]) (es ++ [e]).length := by
    rw [List.length_append, List.length_singleton, keyBefore, List.getElem?_append_right le_rfl,
      Nat.sub_self]
    rfl
  have hold : ∀ j ∈ List.range (k + 1), offset (pieces ++ [BlockBuilder.encodeEntry shared e.1 e.2])
      (interval * j) % 2 ^ 32 = offset pieces (interval * j) % 2 ^ 32 := by
    intro j hj
    have hjk : interval * j ≤ interval * k :=
      Nat.mul_le_mul_left _ (Nat.le_of_lt_succ (List.mem_range.mp hj))
    rw [offset_append (by rw [h.split.length]; omega)]
  refine ⟨⟨_, if b.counter ≥ interval then b.restarts ++ [b.buffer.length % 2 ^ 32] else b.restarts,
    if b.counter ≥ interval then 1 else b.counter + 1, false, e.1⟩, shared, ?_,
    ⟨hpieces, hbuffer, ?_, ?_, ?_, rfl, hkeyBefore⟩⟩
  · have hleb : decide (b.counter ≤ interval) = true := decide_eq_true hle
    have heq : (e.1 == e.1) = true := beq_self_eq_true _
    rw [BlockBuilder.add, h.finished, hleb]
    simp only [Bool.not_false, assertThat_true, Stops.ok_bind, ← hshared, hlastKey, heq]
    by_cases hempty : b.buffer.isEmpty = true
    · simp only [hempty, if_true]
      rfl
    · have hes : es ≠ [] := by
        rintro rfl
        have hnil : pieces = [] := List.eq_nil_of_length_eq_zero h.split.length
        rw [h.buffer, hnil] at hempty
        exact hempty rfl
      simp only [hempty, hcompare hes, Stops.ok_bind]
      rfl
  · by_cases hge : b.counter ≥ interval
    · have heq : b.counter = interval := le_antisymm hle hge
      refine ⟨k + 1, ?_, ?_⟩
      · simp only [hge, if_true, List.length_append, List.length_singleton]
        rw [hcount, heq]
        ring
      · simp only [hge, if_true]
        rw [List.range_succ, List.map_append, List.map_congr_left hold, ← hrestarts]
        have hn : interval * (k + 1) = pieces.length := by
          rw [h.split.length, hcount, heq]
          ring
        rw [List.map_singleton, offset_append hn.le, hn, offset_length, h.buffer]
    · refine ⟨k, ?_, ?_⟩
      · simp only [hge, if_false, List.length_append, List.length_singleton]
        rw [hcount]
        simp [Nat.add_assoc]
      · simp only [hge, if_false]
        rw [List.map_congr_left hold, ← hrestarts]
  · dsimp only
    split_ifs with hge
    · exact hpos
    · exact Nat.lt_of_not_le hge
  · intro _
    dsimp only
    split_ifs
    · exact Nat.one_pos
    · exact Nat.succ_pos _

theorem Builds.addAll (ho : c.OrdersOn D rank) (hpos : 0 < interval) {more : List (Bytes × Bytes)}
    (h : Builds interval es pieces b) (hD : ∀ e ∈ es ++ more, D e.1)
    (hsorted : (es ++ more).Pairwise fun e e' => rank e.1 < rank e'.1) :
    ∃ b' pieces', b.addAll c interval more = .ok b' ∧ Builds interval (es ++ more) pieces' b' := by
  induction more generalizing es pieces b with
  | nil =>
    rw [List.append_nil]
    exact ⟨b, pieces, rfl, h⟩
  | cons e more ih =>
    have happend : es ++ e :: more = es ++ [e] ++ more := by simp
    have hcompare : es ≠ [] → c.compare e.1 b.lastKey = .ok .gt := by
      intro hes
      have hlast := List.getLast_mem hes
      have hkey : b.lastKey = (es.getLast hes).1 := by
        rw [h.lastKey]
        obtain ⟨k, hk⟩ := Nat.exists_eq_succ_of_ne_zero (List.length_pos_iff.mpr hes).ne'
        rw [hk, keyBefore, List.getLast_eq_getElem, List.getElem?_eq_getElem (by omega)]
        simp [hk]
      have hlt := (List.pairwise_append.mp hsorted).2.2 _ hlast e List.mem_cons_self
      rw [hkey, ho.compare_eq _ _ (hD e (by simp)) (hD _ (List.mem_append_left _ hlast))]
      exact congrArg _ ((cmp_eq_gt_iff _ _).mpr hlt)
    obtain ⟨b₁, shared, hb₁, hbuilds⟩ := h.add hpos hcompare
    rw [happend] at hD hsorted ⊢
    obtain ⟨b', pieces', hb', hbuilds'⟩ := ih hbuilds hD hsorted
    refine ⟨b', pieces', ?_, hbuilds'⟩
    rw [BlockBuilder.addAll, List.foldlM_cons, hb₁]
    exact hb'

end Building

section Layout

structure Layout (interval : ℕ) (es : List (Bytes × Bytes)) (pieces : List Bytes) (data : Bytes)
    (restarts numRestarts : ℕ) : Prop where
  interval_pos : 0 < interval
  split : Pieces interval es pieces
  before : data.take restarts = pieces.flatten
  length : restarts = pieces.flatten.length
  small : restarts < 2 ^ 32
  restart_pos : 0 < numRestarts
  within : ∀ j < numRestarts, interval * j ≤ es.length ∧ (es ≠ [] → interval * j < es.length)
  points : ∀ j < numRestarts,
    decodeFixed32 (data.drop (restarts + j * 4)) = offset pieces (interval * j)

variable {interval : ℕ} {es : List (Bytes × Bytes)} {pieces : List Bytes} {b : BlockBuilder}

theorem drop_flatMap_encodeFixed32 (ns : List ℕ) (j : ℕ) :
    (ns.flatMap encodeFixed32).drop (j * 4) = (ns.drop j).flatMap encodeFixed32 := by
  induction j generalizing ns with
  | zero => rw [Nat.zero_mul, List.drop_zero, List.drop_zero]
  | succ j ih =>
    cases ns with
    | nil => simp
    | cons n ns =>
      have hlen : (encodeFixed32 n).length = 4 := encodeFixed_length 4 n
      rw [List.flatMap_cons, List.drop_succ_cons, ← ih, Nat.succ_mul, Nat.add_comm,
        ← List.drop_drop, List.drop_left' hlen]

theorem length_flatMap_encodeFixed32 (ns : List ℕ) :
    (ns.flatMap encodeFixed32).length = ns.length * 4 := by
  induction ns with
  | nil => rfl
  | cons n ns ih =>
    rw [List.flatMap_cons, List.length_append, ih, encodeFixed32, encodeFixed_length,
      List.length_cons]
    ring

theorem decodeFixed32_encode {v : ℕ} (hv : v < 2 ^ 32) (p : Bytes) :
    decodeFixed32 (encodeFixed32 v ++ p) = v := by
  rw [decodeFixed32, encodeFixed32, decodeFixed_encodeFixed]
  exact Nat.mod_eq_of_lt hv

theorem Builds.layout (h : Builds interval es pieces b) (hpos : 0 < interval)
    (hsize : b.finish.buffer.length < 2 ^ 32) :
    ∃ restarts numRestarts, (Block.make b.finish.buffer).newIterator =
      .inr (.make b.finish.buffer restarts numRestarts) ∧
      Layout interval es pieces b.finish.buffer restarts numRestarts := by
  obtain ⟨k, hcount, hrestarts⟩ := h.restarts
  have hlen : b.restarts.length = k + 1 := by rw [hrestarts, List.length_map, List.length_range]
  have hdata : b.finish.buffer = pieces.flatten ++
      (b.restarts.flatMap encodeFixed32 ++ encodeFixed32 ((k + 1) % 2 ^ 32)) := by
    rw [BlockBuilder.finish, hlen, h.buffer, List.append_assoc]
  have htotal : b.finish.buffer.length = pieces.flatten.length + ((k + 1) * 4 + 4) := by
    rw [hdata, List.length_append, List.length_append, length_flatMap_encodeFixed32, hlen,
      encodeFixed32, encodeFixed_length]
  rw [htotal] at hsize
  have hmod : (k + 1) % 2 ^ 32 = k + 1 := Nat.mod_eq_of_lt (by omega)
  have hnum : Block.countRestarts b.finish.buffer = k + 1 := by
    have hdrop : b.finish.buffer.drop (b.finish.buffer.length - 4) =
        encodeFixed32 ((k + 1) % 2 ^ 32) ++ [] := by
      rw [List.append_nil, htotal, hdata, ← List.append_assoc, List.drop_left']
      rw [List.length_append, length_flatMap_encodeFixed32, hlen]
      omega
    rw [Block.countRestarts, hdrop, hmod, decodeFixed32_encode (by omega)]
  have hmake : Block.make b.finish.buffer =
      ⟨b.finish.buffer, b.finish.buffer.length, pieces.flatten.length⟩ := by
    rw [Block.make, hnum, if_neg (by omega), if_neg (by omega), htotal]
    congr 1
    omega
  refine ⟨pieces.flatten.length, k + 1, ?_, hpos, h.split, ?_, rfl, by omega, Nat.succ_pos _,
    ?_, ?_⟩
  · rw [hmake, Block.newIterator]
    dsimp only
    rw [if_neg (by omega), hnum, if_neg (Nat.succ_ne_zero k)]
  · rw [hdata, List.take_left' rfl]
  · intro j hj
    have hle := Nat.mul_le_mul_left interval (Nat.le_of_lt_succ hj)
    refine ⟨by omega, fun hes => ?_⟩
    have hpos := h.counter_pos hes
    omega
  · intro j hj
    have hget : b.restarts[j]? = some (offset pieces (interval * j) % 2 ^ 32) := by
      rw [hrestarts, List.getElem?_map, List.getElem?_range hj, Option.map_some]
    obtain ⟨hj', hgetElem⟩ := List.getElem?_eq_some_iff.mp hget
    have hoffset := offset_le pieces (interval * j)
    have hfit : offset pieces (interval * j) % 2 ^ 32 = offset pieces (interval * j) :=
      Nat.mod_eq_of_lt (by omega)
    have hdrop : b.finish.buffer.drop (pieces.flatten.length + j * 4) =
        encodeFixed32 (offset pieces (interval * j)) ++
          ((b.restarts.drop (j + 1)).flatMap encodeFixed32 ++
            encodeFixed32 ((k + 1) % 2 ^ 32)) := by
      rw [hdata, ← List.drop_drop, List.drop_left' rfl, List.drop_append_of_le_length
        (by rw [length_flatMap_encodeFixed32]; omega), drop_flatMap_encodeFixed32,
        List.drop_eq_getElem_cons hj', hgetElem, hfit, List.flatMap_cons, List.append_assoc]
    rw [hdrop, decodeFixed32_encode (by omega)]

end Layout

section Entries

theorem decodeLengths_eq {p : Bytes} (h : 3 ≤ p.length) : decodeLengths p = readLengths p := by
  unfold decodeLengths
  split
  · rename_i a b c rest
    split_ifs with hshort
    · have ha : a.toNat < 128 := (Nat.left_le_or.trans Nat.left_le_or).trans_lt hshort
      have hb : b.toNat < 128 := (Nat.right_le_or.trans Nat.left_le_or).trans_lt hshort
      have hc : c.toNat < 128 := Nat.right_le_or.trans_lt hshort
      rw [readLengths, getVarint32_byte ha]
      simp only [Option.bind_eq_bind, Option.bind_some]
      rw [getVarint32_byte hb]
      simp only [Option.bind_some]
      rw [getVarint32_byte hc]
      rfl
    · rfl
  · rename_i hnot
    match p with
    | [] => simp at h
    | [_] => simp at h
    | [_, _] => simp at h
    | a :: b :: c :: rest => exact absurd rfl (hnot a b c rest)

theorem decodeEntry_encodeEntry {shared : ℕ} {key value rest : Bytes} (hshared : shared < 2 ^ 32)
    (hsize : (BlockBuilder.encodeEntry shared key value ++ rest).length < 2 ^ 32) :
    decodeEntry (BlockBuilder.encodeEntry shared key value ++ rest) =
      some (⟨shared, key.length - shared, value.length⟩, key.drop shared ++ (value ++ rest)) := by
  have hbytes : 3 ≤ (BlockBuilder.encodeEntry shared key value ++ rest).length := by
    have hone : ∀ v, 1 ≤ (encodeVarint32 v).length := fun v =>
      List.length_pos_iff.mpr (encodeVarint32_ne_nil v)
    have h₁ := hone (shared % 2 ^ 32)
    have h₂ := hone ((key.length - shared) % 2 ^ 32)
    have h₃ := hone (value.length % 2 ^ 32)
    simp only [BlockBuilder.encodeEntry, List.length_append]
    omega
  have hkey : key.length - shared < 2 ^ 32 := by
    simp only [BlockBuilder.encodeEntry, List.length_append, List.length_drop] at hsize
    omega
  have hvalue : value.length < 2 ^ 32 := by
    simp only [BlockBuilder.encodeEntry, List.length_append] at hsize
    omega
  have hfit : (key.drop shared ++ (value ++ rest)).length < 2 ^ 32 := by
    simp only [BlockBuilder.encodeEntry, List.length_append] at hsize ⊢
    omega
  have hlengths : decodeLengths (BlockBuilder.encodeEntry shared key value ++ rest) =
      some (⟨shared, key.length - shared, value.length⟩, key.drop shared ++ (value ++ rest)) := by
    rw [decodeLengths_eq hbytes]
    simp only [BlockBuilder.encodeEntry, List.append_assoc, Nat.mod_eq_of_lt hshared,
      Nat.mod_eq_of_lt hkey, Nat.mod_eq_of_lt hvalue, readLengths, Option.bind_eq_bind,
      getVarint32_encodeVarint32 hshared, getVarint32_encodeVarint32 hkey,
      getVarint32_encodeVarint32 hvalue, Option.bind_some, Option.pure_def]
  rw [decodeEntry, hlengths]
  dsimp only
  rw [if_neg]
  rw [Nat.mod_eq_of_lt hfit]
  simp only [List.length_append, List.length_drop] at hfit ⊢
  rw [Nat.mod_eq_of_lt (by omega)]
  omega

variable {interval : ℕ} {es : List (Bytes × Bytes)} {pieces : List Bytes} {e : Bytes × Bytes}
  {data : Bytes} {restarts numRestarts : ℕ}

theorem Pieces.key_length (h : Pieces interval es pieces) {i : ℕ} (hi : i ≤ es.length) :
    (keyBefore es i).length ≤ offset pieces i := by
  induction i with
  | zero => exact Nat.zero_le _
  | succ i ih =>
    have hlt : i < pieces.length := h.length ▸ hi
    have hpiece := List.getElem?_eq_getElem hlt
    obtain ⟨e, shared, he, heq, hkey, hbefore, -⟩ := h.piece i _ hpiece
    have hprev := ih (by omega)
    rw [keyBefore, he, offset_succ hpiece, heq]
    simp only [Option.map_some, Option.getD_some, BlockBuilder.encodeEntry, List.length_append,
      List.length_drop]
    omega

/-- What is found at the offset of an entry. -/
structure Found (es : List (Bytes × Bytes)) (pieces : List Bytes) (data : Bytes) (restarts i : ℕ)
    (e : Bytes × Bytes) (h : EntryLengths) (p : Bytes) : Prop where
  shared_le : h.shared ≤ (keyBefore es i).length
  key : (keyBefore es i).take h.shared ++ p.take h.nonShared = e.1
  next : restarts - p.length + h.nonShared + h.valueLength = offset pieces (i + 1)
  value : (data.drop (restarts - p.length + h.nonShared)).take h.valueLength = e.2

theorem Layout.found (hl : Layout interval es pieces data restarts numRestarts) {i : ℕ}
    (hi : es[i]? = some e) :
    ∃ h p, decodeEntry ((data.take restarts).drop (offset pieces i)) = some (h, p) ∧
      Found es pieces data restarts i e h p ∧ (i % interval = 0 → h.shared = 0) := by
  have hlt : i < es.length := (List.getElem?_eq_some_iff.mp hi).1
  have hpiece := List.getElem?_eq_getElem (hl.split.length ▸ hlt : i < pieces.length)
  obtain ⟨e', shared, he', heq, hkey, hbefore, hsame, hrestart⟩ := hl.split.piece i _ hpiece
  obtain rfl := Option.some.inj (hi.symm.trans he')
  have hsplit := flatten_split hpiece
  rw [heq] at hsplit
  set post := (pieces.drop (i + 1)).flatten with hpost
  have hoffset : (pieces.take i).flatten.length = offset pieces i := rfl
  have hdrop : (data.take restarts).drop (offset pieces i) =
      BlockBuilder.encodeEntry shared e.1 e.2 ++ post := by
    rw [hl.before, hsplit, ← hoffset, List.drop_left' rfl]
  have htotal : restarts = offset pieces i +
      ((BlockBuilder.encodeEntry shared e.1 e.2).length + post.length) := by
    rw [hl.length, hsplit, List.length_append, List.length_append, hoffset]
  have hsmall := hl.small
  have hshared : shared < 2 ^ 32 := by
    have hprev := hl.split.key_length hlt.le
    omega
  have hnext := offset_succ hpiece
  rw [heq] at hnext
  refine ⟨⟨shared, e.1.length - shared, e.2.length⟩, e.1.drop shared ++ (e.2 ++ post), ?_,
    ⟨?_, ?_, ?_, ?_⟩, hrestart⟩
  · rw [hdrop]
    exact decodeEntry_encodeEntry hshared (by rw [List.length_append]; omega)
  · exact hbefore
  · rw [hsame]
    dsimp only
    rw [List.take_left' (by rw [List.length_drop]), List.take_append_drop]
  · dsimp only
    simp only [List.length_append, List.length_drop, BlockBuilder.encodeEntry] at htotal hnext ⊢
    omega
  · dsimp only
    have hstart : restarts - (e.1.drop shared ++ (e.2 ++ post)).length + (e.1.length - shared) =
        restarts - (e.2 ++ post).length := by
      simp only [List.length_append, List.length_drop, BlockBuilder.encodeEntry] at htotal ⊢
      omega
    have hdata : data = (pieces.take i).flatten ++ (encodeVarint32 (shared % 2 ^ 32) ++
        encodeVarint32 ((e.1.length - shared) % 2 ^ 32) ++
        encodeVarint32 (e.2.length % 2 ^ 32) ++ e.1.drop shared) ++
        (e.2 ++ (post ++ data.drop restarts)) := by
      conv_lhs => rw [← List.take_append_drop restarts data, hl.before, hsplit]
      simp only [BlockBuilder.encodeEntry, List.append_assoc]
    rw [hstart, hdata, List.drop_left', List.take_left' rfl]
    simp only [List.length_append, List.length_drop, BlockBuilder.encodeEntry, hoffset] at htotal ⊢
    omega

end Entries

namespace Iter

section Positions

variable {interval : ℕ} {es : List (Bytes × Bytes)} {pieces : List Bytes} {it : Iter} {p : ℕ}

structure Over (interval : ℕ) (es : List (Bytes × Bytes)) (pieces : List Bytes) (it : Iter) :
    Prop where
  layout : Layout interval es pieces it.data it.restarts it.numRestarts
  status : it.status = .ok

/-- The next entry that is parsed is the `p`-th one. -/
structure Ready (interval : ℕ) (es : List (Bytes × Bytes)) (pieces : List Bytes) (p : ℕ)
    (it : Iter) : Prop extends Over interval es pieces it where
  le : p ≤ es.length
  next : it.nextEntryOffset = offset pieces p
  key : it.key = keyBefore es p ∨ p % interval = 0
  index : it.restartIndex < it.numRestarts
  restart : interval * it.restartIndex ≤ p

/-- The iterator is at the `p`-th entry. An entry at a restart point may be found to belong to the
restart point before. -/
structure At (interval : ℕ) (es : List (Bytes × Bytes)) (pieces : List Bytes) (p : ℕ) (it : Iter) :
    Prop extends Over interval es pieces it where
  le : p ≤ es.length
  current : it.current = offset pieces p
  entry : ∀ e, es[p]? = some e → it.key = e.1 ∧ it.value = e.2 ∧
    it.nextEntryOffset = offset pieces (p + 1) ∧ it.restartIndex < it.numRestarts ∧
    interval * it.restartIndex ≤ p ∧
    (it.restartIndex + 1 < it.numRestarts → p ≤ interval * (it.restartIndex + 1))

theorem Over.restarts_eq (h : it.Over interval es pieces) :
    it.restarts = offset pieces es.length := by
  rw [h.layout.length, ← h.layout.split.length, offset_length]

theorem Over.getRestartPoint_eq (h : it.Over interval es pieces) {j : ℕ}
    (hj : j < it.numRestarts) : it.getRestartPoint j = .ok (offset pieces (interval * j)) := by
  rw [getRestartPoint, decide_eq_true hj, assertThat_true, Stops.ok_bind, h.layout.points j hj]
  rfl

theorem At.valid_iff (h : it.At interval es pieces p) : it.valid = true ↔ p < es.length := by
  rw [valid, decide_eq_true_iff, h.current, h.restarts_eq]
  exact h.layout.split.offset_lt_iff h.le le_rfl

theorem restartOf_spec (h : it.Over interval es pieces) (hcurrent : it.current = offset pieces p)
    (hp : p ≤ es.length) {j : ℕ} (hj : j < it.numRestarts) (hle : interval * j ≤ p) :
    ∃ j', it.restartOf j = .ok j' ∧ j' < it.numRestarts ∧ interval * j' ≤ p ∧
      (j' + 1 < it.numRestarts → p ≤ interval * (j' + 1)) := by
  induction hn : it.numRestarts - j generalizing j with
  | zero => omega
  | succ n ih =>
    rw [restartOf]
    by_cases hmore : j + 1 < it.numRestarts
    · have hlt := h.layout.split.offset_lt_iff (h.layout.within _ hmore).1 hp
      rw [if_pos hmore, h.getRestartPoint_eq hmore, Stops.ok_bind, hcurrent]
      by_cases hbefore : interval * (j + 1) < p
      · rw [if_pos (hlt.mpr hbefore)]
        exact ih hmore hbefore.le (by omega)
      · rw [if_neg (mt hlt.mp hbefore)]
        exact ⟨j, rfl, hj, hle, fun _ => Nat.le_of_not_lt hbefore⟩
    · rw [if_neg hmore]
      exact ⟨j, rfl, hj, hle, fun hmore' => absurd hmore' hmore⟩

theorem Ready.parse_end (h : it.Ready interval es pieces es.length) :
    ∃ it', it.parseNextKey = .ok (false, it') ∧ it'.At interval es pieces es.length := by
  have hend : it.nextEntryOffset ≥ it.restarts := by rw [h.next, h.toOver.restarts_eq]
  rw [parseNextKey]
  dsimp only
  rw [if_pos hend]
  refine ⟨_, rfl, ⟨h.layout, h.status⟩, le_rfl, h.toOver.restarts_eq, fun e he => ?_⟩
  rw [List.getElem?_eq_none le_rfl] at he
  cases he

theorem Ready.parse (h : it.Ready interval es pieces p) (hp : p < es.length) :
    ∃ it', it.parseNextKey = .ok (true, it') ∧ it'.At interval es pieces p := by
  have hsplit := h.layout.split
  have hbefore : ¬ it.nextEntryOffset ≥ it.restarts := by
    rw [h.next, h.toOver.restarts_eq, not_le]
    exact hsplit.offset_lt hp le_rfl
  have he := List.getElem?_eq_getElem hp
  obtain ⟨lengths, rest, hdecode, hfound, hrestart⟩ := h.layout.found he
  have hkey : lengths.shared ≤ it.key.length ∧
      it.key.take lengths.shared = (keyBefore es p).take lengths.shared := by
    rcases h.key with hk | hmod
    · rw [hk]
      exact ⟨hfound.shared_le, rfl⟩
    · rw [hrestart hmod]
      exact ⟨Nat.zero_le _, rfl⟩
  have hentry : ({ it with current := it.nextEntryOffset } : Iter).entryAt it.nextEntryOffset =
      some (lengths, rest) := by
    rw [h.next]
    exact hdecode
  set it' : Iter := { it with
    current := it.nextEntryOffset
    key := it.key.take lengths.shared ++ rest.take lengths.nonShared
    valueStart := it.restarts - rest.length + lengths.nonShared
    valueLength := lengths.valueLength } with hit'
  have hover : it'.Over interval es pieces := ⟨h.layout, h.status⟩
  obtain ⟨j, hj, hjlt, hjle, hjnext⟩ := restartOf_spec hover h.next hp.le h.index h.restart
  refine ⟨{ it' with restartIndex := j }, ?_, ⟨h.layout, h.status⟩, hp.le, h.next, ?_⟩
  · rw [parseNextKey]
    dsimp only
    rw [if_neg hbefore, hentry]
    dsimp only
    rw [if_neg (Nat.not_lt_of_le hkey.1), ← hit', hj]
    rfl
  · intro e' he'
    obtain rfl := Option.some.inj (he.symm.trans he')
    refine ⟨?_, hfound.value, hfound.next, hjlt, hjle, hjnext⟩
    rw [hit']
    dsimp only
    rw [hkey.2]
    exact hfound.key

theorem At.ready (h : it.At interval es pieces p) (hp : p < es.length) :
    it.Ready interval es pieces (p + 1) := by
  have he := List.getElem?_eq_getElem hp
  obtain ⟨hkey, -, hnext, hindex, hrestart, -⟩ := h.entry _ he
  refine ⟨h.toOver, hp, hnext, Or.inl ?_, hindex, hrestart.trans p.le_succ⟩
  rw [keyBefore, he, hkey]
  rfl

theorem Ready.parse_at (h : it.Ready interval es pieces p) :
    ∃ more it', it.parseNextKey = .ok (more, it') ∧ it'.At interval es pieces p := by
  rcases Nat.lt_or_eq_of_le h.le with hp | rfl
  · obtain ⟨it', hparse, hat⟩ := h.parse hp
    exact ⟨true, it', hparse, hat⟩
  · obtain ⟨it', hparse, hat⟩ := h.parse_end
    exact ⟨false, it', hparse, hat⟩

theorem Ready.skip (h : it.Ready interval es pieces p) (more : Iter → Exec Bool) {q : ℕ → Bool}
    (hmore : ∀ it r, it.At interval es pieces r → r < es.length → more it = .ok (q r)) :
    ∃ it' r, it.skip more = .ok it' ∧ it'.At interval es pieces r ∧ p ≤ r ∧ r ≤ es.length ∧
      (∀ i, p ≤ i → i < r → q i = true) ∧ (r < es.length → q r = false) := by
  induction hn : es.length - p generalizing it p with
  | zero =>
    obtain rfl : p = es.length := by
      have hle := h.le
      omega
    obtain ⟨it', hparse, hat⟩ := h.parse_end
    refine ⟨it', es.length, ?_, hat, le_rfl, le_rfl, by omega, by omega⟩
    rw [Iter.skip]
    split
    · cases hparse.symm.trans ‹_›
    · cases hparse.symm.trans ‹_›
      rfl
    · cases hparse.symm.trans ‹_›
  | succ n ih =>
    have hp : p < es.length := by omega
    obtain ⟨it₁, hparse, hat⟩ := h.parse hp
    have hstep : it.skip more = (do if ← more it₁ then it₁.skip more else return it₁) := by
      rw [Iter.skip]
      split
      · cases hparse.symm.trans ‹_›
      · cases hparse.symm.trans ‹_›
      · cases hparse.symm.trans ‹_›
        rfl
    rw [hstep, hmore it₁ p hat hp, Stops.ok_bind]
    cases hq : q p with
    | false => exact ⟨it₁, p, rfl, hat, le_rfl, hp.le, by omega, fun _ => hq⟩
    | true =>
      obtain ⟨it', r, hskip, hat', hpr, hr, hall, hstop⟩ := ih (hat.ready hp) (by omega)
      refine ⟨it', r, hskip, hat', by omega, hr, fun i hi hir => ?_, hstop⟩
      rcases Nat.lt_or_eq_of_le hi with hlt | rfl
      · exact hall i hlt hir
      · exact hq

theorem Over.seekToRestartPoint (h : it.Over interval es pieces) {j : ℕ}
    (hj : j < it.numRestarts) :
    ∃ it', it.seekToRestartPoint j = .ok it' ∧ it'.Ready interval es pieces (interval * j) := by
  rw [Iter.seekToRestartPoint, h.getRestartPoint_eq hj, Stops.ok_bind]
  refine ⟨_, rfl, ⟨h.layout, h.status⟩, (h.layout.within j hj).1, ?_, Or.inr ?_, hj, le_rfl⟩
  · exact Nat.add_zero _
  · exact Nat.mul_mod_right interval j

theorem Over.seekToFirst (h : it.Over interval es pieces) :
    ∃ it', it.seekToFirst = .ok it' ∧ it'.At interval es pieces 0 := by
  obtain ⟨it₁, hseek, hready⟩ := h.seekToRestartPoint h.layout.restart_pos
  obtain ⟨more, it', hparse, hat⟩ := hready.parse_at
  refine ⟨it', ?_, hat⟩
  rw [Iter.seekToFirst, hseek, Stops.ok_bind, hparse]
  rfl

theorem At.next (h : it.At interval es pieces p) (hp : p < es.length) :
    ∃ it', it.next = .ok it' ∧ it'.At interval es pieces (p + 1) := by
  obtain ⟨more, it', hparse, hat⟩ := (h.ready hp).parse_at
  refine ⟨it', ?_, hat⟩
  rw [Iter.next, h.valid_iff.mpr hp, assertThat_true, Stops.ok_bind, hparse]
  rfl

theorem At.next_lt (h : it.At interval es pieces p) (hp : p < es.length) {i : ℕ}
    (hi : i ≤ es.length) :
    decide (it.nextEntryOffset < offset pieces i) = decide (p + 1 < i) := by
  obtain ⟨-, -, hnext, -⟩ := h.entry _ (List.getElem?_eq_getElem hp)
  rw [hnext]
  exact decide_eq_decide.mpr (h.layout.split.offset_lt_iff hp hi)

theorem Over.seekToLast (h : it.Over interval es pieces) :
    ∃ it', it.seekToLast = .ok it' ∧ it'.At interval es pieces (es.length - 1) := by
  have hlast : it.numRestarts - 1 < it.numRestarts := Nat.sub_lt h.layout.restart_pos Nat.one_pos
  obtain ⟨it₁, hseek, hready⟩ := h.seekToRestartPoint hlast
  obtain ⟨it', r, hskip, hat, hle, hr, hall, hstop⟩ := hready.skip
    (fun it => return it.nextEntryOffset < it.restarts)
    (q := fun r => decide (r + 1 < es.length)) fun it₂ r hat hr => by
      rw [hat.toOver.restarts_eq, hat.next_lt hr le_rfl]
      rfl
  have hend : r = es.length - 1 := by
    rcases Nat.lt_or_eq_of_le hr with hlt | rfl
    · have hnot := hstop hlt
      rw [decide_eq_false_iff_not] at hnot
      omega
    · by_cases hes : es = []
      · subst hes
        rfl
      · have hwithin := (h.layout.within _ hlast).2 hes
        have hbefore := hall (es.length - 1) (by omega) (by omega)
        rw [decide_eq_true_iff] at hbefore
        omega
  subst hend
  refine ⟨it', ?_, hat⟩
  rw [Iter.seekToLast, hseek, Stops.ok_bind]
  exact hskip

theorem Over.restartBefore (h : it.Over interval es pieces) (hp : p ≤ es.length) {j : ℕ}
    (hj : j < it.numRestarts) :
    ∃ r, it.restartBefore (offset pieces p) j = .ok r ∧
      (r = none ∧ p = 0 ∨ ∃ i, r = some i ∧ i < it.numRestarts ∧ interval * i < p) := by
  have hlt := fun {i} (hi : i < it.numRestarts) =>
    h.layout.split.offset_lt_iff (h.layout.within i hi).1 hp
  induction j with
  | zero =>
    rw [Iter.restartBefore, h.getRestartPoint_eq hj, Stops.ok_bind]
    by_cases hzero : p = 0
    · subst hzero
      have hge : offset pieces (interval * 0) ≥ offset pieces 0 := le_rfl
      refine ⟨none, ?_, Or.inl ⟨rfl, rfl⟩⟩
      rw [if_pos hge]
      rfl
    · have hbefore : interval * 0 < p := Nat.pos_of_ne_zero hzero
      refine ⟨some 0, ?_, Or.inr ⟨0, rfl, hj, hbefore⟩⟩
      rw [if_neg (not_le.mpr ((hlt hj).mpr hbefore))]
      rfl
  | succ j ih =>
    rw [Iter.restartBefore, h.getRestartPoint_eq hj, Stops.ok_bind]
    by_cases hbefore : interval * (j + 1) < p
    · refine ⟨some (j + 1), ?_, Or.inr ⟨j + 1, rfl, hj, hbefore⟩⟩
      rw [if_neg (not_le.mpr ((hlt hj).mpr hbefore))]
      rfl
    · rw [if_pos (not_lt.mp (mt (hlt hj).mp hbefore))]
      exact ih (Nat.lt_of_succ_lt hj)

theorem Over.invalidate (h : it.Over interval es pieces) :
    it.invalidate.At interval es pieces es.length := by
  refine ⟨⟨h.layout, h.status⟩, le_rfl, h.restarts_eq, fun e he => ?_⟩
  rw [List.getElem?_eq_none le_rfl] at he
  cases he

theorem At.prev (h : it.At interval es pieces p) (hp : p < es.length) :
    ∃ it', it.prev = .ok it' ∧ it'.At interval es pieces (if p = 0 then es.length else p - 1) := by
  obtain ⟨-, -, -, hindex, -, -⟩ := h.entry _ (List.getElem?_eq_getElem hp)
  obtain ⟨r, hrestart, hr⟩ := h.toOver.restartBefore hp.le hindex
  rw [Iter.prev, h.valid_iff.mpr hp, assertThat_true, Stops.ok_bind]
  dsimp only
  rw [h.current, hrestart, Stops.ok_bind]
  rcases hr with ⟨rfl, rfl⟩ | ⟨i, rfl, hi, hbefore⟩
  · exact ⟨_, rfl, h.toOver.invalidate⟩
  · obtain ⟨it₁, hseek, hready⟩ := h.toOver.seekToRestartPoint hi
    obtain ⟨it', r, hskip, hat, hle, hrlen, hall, hstop⟩ := hready.skip
      (fun it => return it.nextEntryOffset < offset pieces p)
      (q := fun r => decide (r + 1 < p)) fun it₂ r hat hr => by
        rw [hat.next_lt hr hp.le]
        rfl
    have hend : r = p - 1 := by
      have hupper : ¬ p - 1 < r := by
        intro hlt
        have hbad := hall (p - 1) (by omega) hlt
        rw [decide_eq_true_iff] at hbad
        omega
      have hnot := hstop (by omega)
      rw [decide_eq_false_iff_not] at hnot
      omega
    subst hend
    rw [if_neg (Nat.ne_of_gt (Nat.zero_lt_of_lt hbefore))]
    refine ⟨it', ?_, hat⟩
    dsimp only
    rw [hseek, Stops.ok_bind]
    exact hskip

end Positions

section Seek

variable {κ : Type*} [LinearOrder κ] {c : Comparator} {D : Bytes → Prop} {rank : Bytes → κ}
  {interval : ℕ} {es : List (Bytes × Bytes)} {pieces : List Bytes} {it : Iter} {p : ℕ}
  {target : Bytes}

def keyLess (rank : Bytes → κ) (es : List (Bytes × Bytes)) (target : Bytes) (i : ℕ) : Bool :=
  (es[i]?.map (EngineIterator.before rank target)).getD false

theorem keyLess_of {e : Bytes × Bytes} {i : ℕ} (he : es[i]? = some e) :
    keyLess rank es target i = decide (rank e.1 < rank target) := by
  rw [keyLess, he]
  rfl

theorem keyLess_mono (hsorted : es.Pairwise fun e e' => rank e.1 < rank e'.1) {i j : ℕ}
    (hij : i ≤ j) (hj : j < es.length) (hless : keyLess rank es target j = true) :
    keyLess rank es target i = true := by
  have hi : i < es.length := hij.trans_lt hj
  rw [keyLess_of (List.getElem?_eq_getElem hj), decide_eq_true_iff] at hless
  rw [keyLess_of (List.getElem?_eq_getElem hi), decide_eq_true_iff]
  rcases Nat.lt_or_eq_of_le hij with hlt | rfl
  · exact (List.pairwise_iff_getElem.mp hsorted i j hi hj hlt).trans hless
  · exact hless

theorem compare_lt (ho : c.OrdersOn D rank) {a b : Bytes} (ha : D a) (hb : D b) :
    c.compare a b = .ok (cmp (rank a) (rank b)) ∧
      ((cmp (rank a) (rank b) == .lt) = decide (rank a < rank b)) := by
  refine ⟨ho.compare_eq a b ha hb, ?_⟩
  rw [Bool.eq_iff_iff, beq_iff_eq, decide_eq_true_iff]
  exact cmp_eq_lt_iff _ _

theorem Over.findRestart (h : it.Over interval es pieces) (ho : c.OrdersOn D rank)
    (hD : ∀ e ∈ es, D e.1) (htarget : D target) {left right : ℕ} (hle : left ≤ right)
    (hright : right < it.numRestarts)
    (hleft : left = 0 ∨ keyLess rank es target (interval * left) = true) :
    ∃ j, it.findRestart c target left right = .ok (some j) ∧ j < it.numRestarts ∧
      (j = 0 ∨ keyLess rank es target (interval * j) = true) := by
  induction left, right using findRestart.induct with
  | case1 left right hlt mid ih₁ ih₂ =>
    have hmid : mid < it.numRestarts := by omega
    have hmid_pos : 0 < mid := by omega
    obtain ⟨hle', hwithin⟩ := h.layout.within mid hmid
    have hpos : 0 < interval * mid := Nat.mul_pos h.layout.interval_pos hmid_pos
    have hes : es ≠ [] := by
      rintro rfl
      exact absurd hle' (Nat.not_le_of_lt hpos)
    have he := List.getElem?_eq_getElem (hwithin hes)
    obtain ⟨lengths, rest, hdecode, hfound, hrestart⟩ := h.layout.found he
    have hshared := hrestart (Nat.mul_mod_right interval mid)
    have hkey := hfound.key
    rw [hshared, List.take_zero, List.nil_append] at hkey
    obtain ⟨hcompare, horder⟩ := compare_lt ho (hD _ (List.mem_of_getElem? he)) htarget
    have hentry : it.entryAt (offset pieces (interval * mid)) = some (lengths, rest) := hdecode
    rw [Iter.findRestart, if_pos hlt]
    dsimp only
    rw [h.getRestartPoint_eq hmid, Stops.ok_bind, hentry]
    dsimp only
    rw [if_neg (not_not_intro hshared), hkey, hcompare, Stops.ok_bind]
    by_cases hless : keyLess rank es target (interval * mid) = true
    · have hbefore := hless
      rw [keyLess_of he] at hbefore
      rw [if_pos (horder.trans hbefore)]
      exact ih₁ (by omega) hright (Or.inr hless)
    · have hbefore := hless
      rw [keyLess_of he] at hbefore
      rw [if_neg (fun heq => hbefore (horder.symm.trans heq))]
      exact ih₂ (by omega) (by omega) hleft
  | case2 left right hge =>
    obtain rfl : left = right := by omega
    rw [Iter.findRestart, if_neg hge]
    exact ⟨left, rfl, hright, hleft⟩

theorem takeWhile_before {r : ℕ} (hr : r ≤ es.length)
    (hall : ∀ i < r, keyLess rank es target i = true)
    (hstop : r < es.length → keyLess rank es target r = false) :
    (es.takeWhile (EngineIterator.before rank target)).length = r := by
  refine takeWhile_length hr (fun i hi e he => ?_) fun e he => ?_
  · have hless := hall i hi
    rwa [keyLess, he] at hless
  · have hnot := hstop (List.getElem?_eq_some_iff.mp he).1
    rwa [keyLess, he] at hnot

theorem Ready.seek (h : it.Ready interval es pieces p) (ho : c.OrdersOn D rank)
    (hD : ∀ e ∈ es, D e.1) (htarget : D target) (hall : ∀ i < p, keyLess rank es target i = true) :
    ∃ it', it.skip (beforeTarget c target) = .ok it' ∧
      it'.At interval es pieces (es.takeWhile (EngineIterator.before rank target)).length := by
  obtain ⟨it', r, hskip, hat, -, hr, hmore, hstop⟩ := h.skip
    (beforeTarget c target) (q := keyLess rank es target) fun it₂ r hat hr => by
      have he := List.getElem?_eq_getElem hr
      obtain ⟨hkey, -⟩ := hat.entry _ he
      obtain ⟨hcompare, horder⟩ := compare_lt ho (hD _ (List.mem_of_getElem? he)) htarget
      rw [beforeTarget, hkey, hcompare, Stops.ok_bind, keyLess_of he]
      exact congrArg _ horder
  refine ⟨it', hskip, ?_⟩
  have hend : (es.takeWhile (EngineIterator.before rank target)).length = r := by
    refine takeWhile_before hr (fun i hi => ?_) hstop
    by_cases hip : i < p
    · exact hall i hip
    · exact hmore i (not_lt.mp hip) hi
  rw [hend]
  exact hat

theorem Over.seekFrom (h : it.Over interval es pieces) (ho : c.OrdersOn D rank)
    (hD : ∀ e ∈ es, D e.1) (hsorted : es.Pairwise fun e e' => rank e.1 < rank e'.1)
    (htarget : D target) {j : ℕ} (hj : j < it.numRestarts)
    (hless : j = 0 ∨ keyLess rank es target (interval * j) = true) :
    ∃ it' it'', it.seekToRestartPoint j = .ok it' ∧
      it'.skip (beforeTarget c target) = .ok it'' ∧
      it''.At interval es pieces (es.takeWhile (EngineIterator.before rank target)).length := by
  obtain ⟨it', hseek, hready⟩ := h.seekToRestartPoint hj
  have hall : ∀ i < interval * j, keyLess rank es target i = true := by
    intro i hi
    rcases hless with rfl | hless
    · exact absurd hi (Nat.not_lt_zero i)
    · refine keyLess_mono hsorted hi.le ?_ hless
      by_contra hout
      rw [keyLess, List.getElem?_eq_none (not_lt.mp hout)] at hless
      cases hless
  obtain ⟨it'', hskip, hat⟩ := hready.seek ho hD htarget hall
  exact ⟨it', it'', hseek, hskip, hat⟩

theorem At.seek (h : it.At interval es pieces p) (ho : c.OrdersOn D rank)
    (hD : ∀ e ∈ es, D e.1) (hsorted : es.Pairwise fun e e' => rank e.1 < rank e'.1)
    (htarget : D target) :
    ∃ it', it.seek c target = .ok it' ∧
      it'.At interval es pieces (es.takeWhile (EngineIterator.before rank target)).length := by
  have hlast : it.numRestarts - 1 < it.numRestarts := Nat.sub_lt h.layout.restart_pos Nat.one_pos
  by_cases hp : p < es.length
  · have hvalid := h.valid_iff.mpr hp
    have he := List.getElem?_eq_getElem hp
    have hless : keyLess rank es target p = decide (rank es[p].1 < rank target) := keyLess_of he
    obtain ⟨hkey, -, -, hindex, hrestart, -⟩ := h.entry _ he
    have hcompare := ho.compare_eq _ _ (hD _ (List.mem_of_getElem? he)) htarget
    rw [← hkey] at hcompare hless
    rw [Iter.seek, hvalid, if_pos rfl, hcompare, Stops.ok_bind]
    generalize horder : cmp (rank it.key) (rank target) = order
    cases order with
    | eq =>
      have heq := (cmp_eq_eq_iff _ _).mp horder
      have hend : (es.takeWhile (EngineIterator.before rank target)).length = p := by
        refine takeWhile_before hp.le (fun i hi => ?_) fun _ => ?_
        · rw [keyLess_of (List.getElem?_eq_getElem (hi.trans hp)), decide_eq_true_iff, ← heq, hkey]
          exact List.pairwise_iff_getElem.mp hsorted i p (hi.trans hp) hp hi
        · rw [hless, decide_eq_false_iff_not, heq]
          exact lt_irrefl _
      rw [hend]
      exact ⟨it, rfl, h⟩
    | lt =>
      have hbefore : keyLess rank es target p = true :=
        hless.trans (decide_eq_true ((cmp_eq_lt_iff _ _).mp horder))
      have hleft := keyLess_mono hsorted hrestart hp hbefore
      obtain ⟨j, hfind, hj, hjless⟩ := h.toOver.findRestart ho hD htarget
        (Nat.le_sub_one_of_lt hindex) hlast (Or.inr hleft)
      by_cases hsame : j = it.restartIndex
      · obtain ⟨it', hskip, hat⟩ := (h.ready hp).seek ho hD htarget fun i hi =>
          keyLess_mono hsorted (Nat.le_of_lt_succ hi) hp hbefore
        refine ⟨it', ?_, hat⟩
        subst hsame
        simpa [hfind] using hskip
      · obtain ⟨it', it'', hseek, hskip, hat⟩ := h.toOver.seekFrom ho hD hsorted htarget hj hjless
        refine ⟨it'', ?_, hat⟩
        simpa [hfind, hsame, hseek] using hskip
    | gt =>
      obtain ⟨j, hfind, hj, hjless⟩ := h.toOver.findRestart ho hD htarget
        (Nat.zero_le it.restartIndex) hindex (Or.inl rfl)
      obtain ⟨it', it'', hseek, hskip, hat⟩ := h.toOver.seekFrom ho hD hsorted htarget hj hjless
      refine ⟨it'', ?_, hat⟩
      simpa [hfind, hseek, hvalid] using hskip
  · have hvalid : it.valid = false := Bool.eq_false_iff.mpr (mt h.valid_iff.mp hp)
    obtain ⟨j, hfind, hj, hjless⟩ := h.toOver.findRestart ho hD htarget
      (Nat.zero_le (it.numRestarts - 1)) hlast (Or.inl rfl)
    obtain ⟨it', it'', hseek, hskip, hat⟩ := h.toOver.seekFrom ho hD hsorted htarget hj hjless
    refine ⟨it'', ?_, hat⟩
    rw [Iter.seek, hvalid]
    simpa [hfind, hseek] using hskip

theorem engineIterator_represents (ho : c.OrdersOn D rank) (hD : ∀ e ∈ es, D e.1)
    (hsorted : es.Pairwise fun e e' => rank e.1 < rank e'.1) :
    (engineIterator c).Represents D rank es fun it p => it.At interval es pieces p := by
  refine ⟨fun it p h m hm => ?_, fun it p h => ?_, fun it p h => h.status⟩
  · cases m with
    | seekToFirst => exact h.toOver.seekToFirst
    | seekToLast => exact h.toOver.seekToLast
    | seek target => exact h.seek ho hD hsorted hm
    | next =>
      by_cases hp : p < es.length
      · rw [move, if_pos hp]
        exact h.next hp
      · have hvalid : it.valid = false := Bool.eq_false_iff.mpr (mt h.valid_iff.mp hp)
        rw [move, if_neg hp]
        change it.next = _
        rw [Iter.next, hvalid]
        rfl
    | prev =>
      by_cases hp : p < es.length
      · rw [move, if_pos hp]
        exact h.prev hp
      · have hvalid : it.valid = false := Bool.eq_false_iff.mpr (mt h.valid_iff.mp hp)
        rw [move, if_neg hp]
        change it.prev = _
        rw [Iter.prev, hvalid]
        rfl
  · by_cases hp : p < es.length
    · have he := List.getElem?_eq_getElem hp
      have hvalid : it.valid = true := h.valid_iff.mpr hp
      obtain ⟨hkey, hvalue, -⟩ := h.entry _ he
      simp only [EngineIterator.current, engineIterator, hvalid, if_true, assertThat_true,
        Stops.ok_bind, he, hkey, hvalue]
      rfl
    · have hvalid : it.valid = false := Bool.eq_false_iff.mpr (mt h.valid_iff.mp hp)
      rw [List.getElem?_eq_none (not_lt.mp hp)]
      simp only [EngineIterator.current, engineIterator, hvalid]
      rfl

/-- An iterator at the `p`-th entry of a block with the entries `es`, however they were laid out. -/
def GoesThrough (es : List (Bytes × Bytes)) (it : Iter) (p : ℕ) : Prop :=
  ∃ layout : ℕ × List Bytes, it.At layout.1 es layout.2 p

theorem goesThrough_represents (ho : c.OrdersOn D rank) (hD : ∀ e ∈ es, D e.1)
    (hsorted : es.Pairwise fun e e' => rank e.1 < rank e'.1) :
    (engineIterator c).Represents D rank es (GoesThrough es) :=
  .exists fun _ => engineIterator_represents ho hD hsorted

end Seek

end Iter

namespace Block

variable {c : Comparator} {es : List (Bytes × Bytes)} {κ : Type*} [LinearOrder κ]
  {D : Bytes → Prop} {rank : Bytes → κ}

def engineIterator (c : Comparator) : EngineIterator (Status ⊕ Iter) :=
  .sum .empty (Iter.engineIterator c)

def GoesThrough (es : List (Bytes × Bytes)) (s : Status ⊕ Iter) (p : ℕ) : Prop :=
  ∃ it, s = .inr it ∧ it.GoesThrough es p

theorem engineIterator_represents (ho : c.OrdersOn D rank) (hD : ∀ e ∈ es, D e.1)
    (hsorted : es.Pairwise fun e e' => rank e.1 < rank e'.1) :
    (engineIterator c).Represents D rank es (GoesThrough es) :=
  (Iter.goesThrough_represents ho hD hsorted).inr

end Block

section RoundTrip

variable {κ : Type*} [LinearOrder κ] {c : Comparator} {D : Bytes → Prop} {rank : Bytes → κ}
  {interval : ℕ} {es : List (Bytes × Bytes)}

theorem finish_length (b : BlockBuilder) : b.finish.buffer.length = b.currentSizeEstimate := by
  rw [BlockBuilder.finish, BlockBuilder.currentSizeEstimate, List.length_append,
    List.length_append, length_flatMap_encodeFixed32, encodeFixed32, encodeFixed_length]

theorem finished_block (ho : c.OrdersOn D rank) (hpos : 0 < interval) (hD : ∀ e ∈ es, D e.1)
    (hsorted : es.Pairwise fun e e' => rank e.1 < rank e'.1) :
    ∃ b, BlockBuilder.empty.addAll c interval es = .ok b ∧
      (b.currentSizeEstimate < 2 ^ 32 →
        ∃ it, (Block.make b.finish.buffer).newIterator = .inr it ∧
          it.GoesThrough es es.length) := by
  obtain ⟨b, pieces, hb, hbuilds⟩ := (builds_empty interval).addAll ho hpos hD hsorted
  refine ⟨b, hb, fun hsize => ?_⟩
  rw [← finish_length] at hsize
  obtain ⟨restarts, numRestarts, hiter, hlayout⟩ := hbuilds.layout hpos hsize
  refine ⟨_, hiter, (interval, pieces), ?_⟩
  have hover : (Iter.make b.finish.buffer restarts numRestarts).Over interval es pieces :=
    ⟨hlayout, rfl⟩
  refine ⟨hover, le_rfl, hover.restarts_eq, fun e he => ?_⟩
  rw [List.getElem?_eq_none le_rfl] at he
  cases he

/-- Entries in the order of their keys are added without a failure, and the iterator of the finished
bytes goes through exactly these entries, whatever it is asked for. -/
theorem finished_block_iterates (ho : c.OrdersOn D rank) (hpos : 0 < interval)
    (hD : ∀ e ∈ es, D e.1) (hsorted : es.Pairwise fun e e' => rank e.1 < rank e'.1) :
    ∃ b, BlockBuilder.empty.addAll c interval es = .ok b ∧
      (b.currentSizeEstimate < 2 ^ 32 →
        ∃ it, (Block.make b.finish.buffer).newIterator = .inr it ∧
          ∀ ms, (∀ m ∈ ms, EngineIterator.Allowed D m) →
            (Iter.engineIterator c).Answers rank es es.length it ms) := by
  obtain ⟨b, hb, hblock⟩ := finished_block ho hpos hD hsorted
  refine ⟨b, hb, fun hsize => ?_⟩
  obtain ⟨it, hiter, hat⟩ := hblock hsize
  exact ⟨it, hiter, fun ms hms => (Iter.goesThrough_represents ho hD hsorted).answers hat hms⟩

/-- Five entries with a restart point at every other one. -/
theorem finished_block_iterates_five :
    let es : List (Bytes × Bytes) :=
      [([1], [7]), ([1, 2], [8]), ([1, 2, 3], []), ([2], [1]), ([2, 5], [3, 3])]
    ∃ b it, BlockBuilder.empty.addAll bytewiseComparator 2 es = .ok b ∧
      (Block.make b.finish.buffer).newIterator = .inr it ∧
      (Iter.engineIterator bytewiseComparator).Answers byteValues es 5 it
        [.seek [1, 2, 0], .prev, .next, .next, .seekToLast, .prev] := by
  intro es
  obtain ⟨b, hb, hblock⟩ := finished_block_iterates bytewiseComparator_orders
    (by decide : 0 < 2) (fun _ _ => trivial)
    (by decide : es.Pairwise fun e e' => byteValues e.1 < byteValues e'.1)
  have hsize : b.currentSizeEstimate < 2 ^ 32 := by
    obtain ⟨b', hb', hsize'⟩ : ∃ b', BlockBuilder.empty.addAll bytewiseComparator 2 es = .ok b' ∧
        b'.currentSizeEstimate < 2 ^ 32 := ⟨_, rfl, by decide⟩
    obtain rfl := Except.ok.inj (hb.symm.trans hb')
    exact hsize'
  obtain ⟨it, hit, hanswers⟩ := hblock hsize
  refine ⟨b, it, hb, hit, hanswers _ fun m _ => ?_⟩
  cases m <;> trivial

end RoundTrip

end BlockFormat

end DVELevelDB
