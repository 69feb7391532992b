import DVELevelDB.BlockFormat

/-! # The two-level iterator in both directions

The values of an index stand for blocks, whose entries are found one after the other. Blocks without
entries are skipped.
-/

namespace DVELevelDB

open Positions

/-- `TwoLevelIterator`; there is a `data` iterator unless it is null. -/
structure TwoLevel (σ δ : Type) where
  index : σ
  data : Option δ
  dataBlockHandle : Bytes
  status : Status

namespace TwoLevel

section Definitions

variable {σ δ : Type} (index : EngineIterator σ) (block : EngineIterator δ)
  (blockFunction : Bytes → δ)

def make (s : σ) : TwoLevel σ δ := ⟨s, none, [], .ok⟩

def saveError (s : Status) (it : TwoLevel σ δ) : TwoLevel σ δ :=
  if it.status.isOk && !s.isOk then { it with status := s } else it

def setDataIterator (data : Option δ) (it : TwoLevel σ δ) : TwoLevel σ δ :=
  match it.data with
  | none => { it with data }
  | some d => { it.saveError (block.status d) with data }

def initDataBlock (it : TwoLevel σ δ) : Exec (TwoLevel σ δ) := do
  if index.valid it.index then
    let handle ← index.value it.index
    -- The iterator of this block is there already.
    if it.data.isSome && sliceCompare handle it.dataBlockHandle == .eq then
      return it
    else
      return { it with dataBlockHandle := handle }.setDataIterator block (blockFunction handle)
  else
    return it.setDataIterator block none

def dataValid (it : TwoLevel σ δ) : Bool := it.data.any block.valid

def moveData (f : δ → Exec δ) (it : TwoLevel σ δ) : Exec (TwoLevel σ δ) :=
  match it.data with
  | none => return it
  | some d => do return { it with data := some (← f d) }

/-- `SkipEmptyDataBlocksForward` and `SkipEmptyDataBlocksBackward`: the index goes on, and the data
iterator to the first or the last entry of the next block. The loop ends after `fuel` turns. -/
def skipEmptyDataBlocks (moveIndex : σ → Exec σ) (enter : δ → Exec δ) :
    ℕ → TwoLevel σ δ → Exec (TwoLevel σ δ)
  | 0, _ => throw .blocked
  | fuel + 1, it => do
    if it.dataValid block then
      return it
    else if index.valid it.index then
      let it := { it with index := ← moveIndex it.index }
      let it ← it.initDataBlock index block blockFunction
      skipEmptyDataBlocks moveIndex enter fuel (← it.moveData enter)
    else
      return it.setDataIterator block none

def skipEmptyDataBlocksForward (fuel : ℕ) (it : TwoLevel σ δ) : Exec (TwoLevel σ δ) :=
  it.skipEmptyDataBlocks index block blockFunction index.next block.seekToFirst fuel

def skipEmptyDataBlocksBackward (fuel : ℕ) (it : TwoLevel σ δ) : Exec (TwoLevel σ δ) :=
  it.skipEmptyDataBlocks index block blockFunction index.prev block.seekToLast fuel

def seek (fuel : ℕ) (target : Bytes) (it : TwoLevel σ δ) : Exec (TwoLevel σ δ) := do
  let it := { it with index := ← index.seek target it.index }
  let it ← it.initDataBlock index block blockFunction
  let it ← it.moveData (block.seek target)
  it.skipEmptyDataBlocksForward index block blockFunction fuel

def seekToFirst (fuel : ℕ) (it : TwoLevel σ δ) : Exec (TwoLevel σ δ) := do
  let it := { it with index := ← index.seekToFirst it.index }
  let it ← it.initDataBlock index block blockFunction
  let it ← it.moveData block.seekToFirst
  it.skipEmptyDataBlocksForward index block blockFunction fuel

def seekToLast (fuel : ℕ) (it : TwoLevel σ δ) : Exec (TwoLevel σ δ) := do
  let it := { it with index := ← index.seekToLast it.index }
  let it ← it.initDataBlock index block blockFunction
  let it ← it.moveData block.seekToLast
  it.skipEmptyDataBlocksBackward index block blockFunction fuel

def next (fuel : ℕ) (it : TwoLevel σ δ) : Exec (TwoLevel σ δ) := do
  assertThat (it.dataValid block)
  let it ← it.moveData block.next
  it.skipEmptyDataBlocksForward index block blockFunction fuel

def prev (fuel : ℕ) (it : TwoLevel σ δ) : Exec (TwoLevel σ δ) := do
  assertThat (it.dataValid block)
  let it ← it.moveData block.prev
  it.skipEmptyDataBlocksBackward index block blockFunction fuel

def ask (f : δ → Exec Bytes) (it : TwoLevel σ δ) : Exec Bytes := do
  assertThat (it.dataValid block)
  match it.data with
  | none => throw .assertion
  | some d => f d

/-- The status of the index, or of the block, or that of an earlier block. -/
def currentStatus (it : TwoLevel σ δ) : Status :=
  if !(index.status it.index).isOk then
    index.status it.index
  else
    match it.data with
    | none => it.status
    | some d => if !(block.status d).isOk then block.status d else it.status

def engineIterator (fuel : ℕ) : EngineIterator (TwoLevel σ δ) where
  valid it := it.dataValid block
  key it := it.ask block block.key
  value it := it.ask block block.value
  status it := it.currentStatus index block
  seekToFirst it := it.seekToFirst index block blockFunction fuel
  seekToLast it := it.seekToLast index block blockFunction fuel
  seek target it := it.seek index block blockFunction fuel target
  next it := it.next index block blockFunction fuel
  prev it := it.prev index block blockFunction fuel

end Definitions

variable {σ δ : Type} {index : EngineIterator σ} {block : EngineIterator δ}
  {blockFunction : Bytes → δ} {κ : Type*} [LinearOrder κ] {D : Bytes → Prop} {rank : Bytes → κ}
  {idx : List (Bytes × Bytes)} {content : Bytes → List (Bytes × Bytes)}
  {RI : σ → ℕ → Prop} {RB : Bytes → δ → ℕ → Prop}

def contents (content : Bytes → List (Bytes × Bytes)) (idx : List (Bytes × Bytes)) :
    List (List (Bytes × Bytes)) := idx.map fun e => content e.2

/-- The index has the entries `idx`, and their values are the handles of the blocks. A key of the
index is between the keys of its block and those of later blocks. -/
structure Indexed (index : EngineIterator σ) (block : EngineIterator δ) (blockFunction : Bytes → δ)
    (D : Bytes → Prop) (rank : Bytes → κ) (idx : List (Bytes × Bytes))
    (content : Bytes → List (Bytes × Bytes)) (RI : σ → ℕ → Prop) (RB : Bytes → δ → ℕ → Prop) :
    Prop where
  index : index.Represents D rank idx RI
  block : ∀ e ∈ idx, block.Represents D rank (content e.2) (RB e.2)
  opened : ∀ e ∈ idx, ∃ q, RB e.2 (blockFunction e.2) q
  upper : ∀ e ∈ idx, ∀ x ∈ content e.2, rank x.1 ≤ rank e.1
  separated : idx.Pairwise fun e e' => ∀ x ∈ content e'.2, rank e.1 < rank x.1

/-- The index is at position `i`, and a data iterator goes through one of the blocks. -/
structure Over (idx : List (Bytes × Bytes)) (RI : σ → ℕ → Prop) (RB : Bytes → δ → ℕ → Prop)
    (it : TwoLevel σ δ) (i : ℕ) : Prop where
  index : RI it.index i
  status : it.status = .ok
  data : ∀ d, it.data = some d → ∃ e ∈ idx, it.dataBlockHandle = e.2 ∧ ∃ q, RB e.2 d q

/-- The data iterator is at position `q` of the block of the index entry `e`, the `i`-th one. -/
structure Inside (idx : List (Bytes × Bytes)) (RI : σ → ℕ → Prop) (RB : Bytes → δ → ℕ → Prop)
    (it : TwoLevel σ δ) (i : ℕ) (e : Bytes × Bytes) (d : δ) (q : ℕ) : Prop where
  index : RI it.index i
  status : it.status = .ok
  entry : idx[i]? = some e
  handle : it.dataBlockHandle = e.2
  data : it.data = some d
  place : RB e.2 d q

/-- The iterator is at an entry of a block or behind all of them. -/
inductive At (idx : List (Bytes × Bytes)) (content : Bytes → List (Bytes × Bytes))
    (RI : σ → ℕ → Prop) (RB : Bytes → δ → ℕ → Prop) (it : TwoLevel σ δ) : ℕ → Prop
  | inside {i e d q} (h : Inside idx RI RB it i e d q) (hq : q < (content e.2).length) :
      At idx content RI RB it (offset (contents content idx) i + q)
  | outside {i} (h : Over idx RI RB it i) (hdata : it.data = none) :
      At idx content RI RB it (contents content idx).flatten.length

section Lists

variable {i : ℕ} {e e' x : Bytes × Bytes} {target : Bytes}

theorem contents_at (he : idx[i]? = some e) :
    (contents content idx)[i]? = some (content e.2) := by
  rw [contents, List.getElem?_map, he]
  rfl

theorem mem_contents {x : Bytes × Bytes} {l : List (Bytes × Bytes)} :
    x ∈ (contents content l).flatten ↔ ∃ e ∈ l, x ∈ content e.2 := by
  simp only [contents, List.mem_flatten, List.mem_map, exists_exists_and_eq_and]

theorem offset_all (hi : idx.length ≤ i) :
    offset (contents content idx) i = (contents content idx).flatten.length := by
  rw [offset, contents, List.take_of_length_le ((List.length_map _).trans_le hi)]

/-- The target is in the block that the index leads to, or behind it and before the next one. -/
theorem Indexed.ahead_some (hix : Indexed index block blockFunction D rank idx content RI RB)
    (he : idx[ahead (EngineIterator.before rank target) idx]? = some e) :
    ahead (EngineIterator.before rank target) (contents content idx).flatten =
      offset (contents content idx) (ahead (EngineIterator.before rank target) idx) +
        ahead (EngineIterator.before rank target) (content e.2) := by
  refine ahead_offset (contents_at he) (fun x hx => ?_) fun x hx => ?_
  · rw [contents, ← List.map_take] at hx
    obtain ⟨e', he', hx⟩ := mem_contents.mp hx
    obtain ⟨j, hj, rfl⟩ := List.mem_take_iff_getElem.mp he'
    have hless := of_lt_takeWhile (hj.trans_le (min_le_left _ _))
      (List.getElem?_eq_getElem (hj.trans_le (min_le_right _ _)))
    have hupper := hix.upper _ (List.getElem_mem _) x hx
    exact decide_eq_true (hupper.trans_lt (of_decide_eq_true hless))
  · rw [contents, ← List.map_drop] at hx
    obtain ⟨e', he', hx⟩ := mem_contents.mp hx
    have hstop := of_decide_eq_false (at_takeWhile (q := EngineIterator.before rank target) he)
    obtain ⟨hlt, rfl⟩ := List.getElem?_eq_some_iff.mp he
    have hlater := hix.separated.drop (i := ahead (EngineIterator.before rank target) idx)
    rw [List.drop_eq_getElem_cons hlt, List.pairwise_cons] at hlater
    exact decide_eq_false (not_lt.mpr ((not_lt.mp hstop).trans (hlater.1 e' he' x hx).le))

/-- What is not below the target is in the block that the index leads to, or behind its key. -/
theorem Indexed.at_or_behind
    (hix : Indexed index block blockFunction D rank idx content RI RB)
    (he : idx[ahead (EngineIterator.before rank target) idx]? = some e) (he' : e' ∈ idx)
    (hx : x ∈ content e'.2) (hle : rank target ≤ rank x.1) : e' = e ∨ rank e.1 < rank x.1 := by
  obtain ⟨i, hi, rfl⟩ := List.mem_iff_getElem.mp he'
  obtain ⟨hn, rfl⟩ := List.getElem?_eq_some_iff.mp he
  rcases Nat.lt_trichotomy i (ahead (EngineIterator.before rank target) idx) with hlt | heq | hgt
  · have hbelow := of_decide_eq_true (of_lt_takeWhile hlt (List.getElem?_eq_getElem hi) :
      EngineIterator.before rank target idx[i] = true)
    have hupper := hix.upper _ he' x hx
    exact absurd (hupper.trans_lt hbelow) (not_lt.mpr hle)
  · exact Or.inl (by simp only [heq])
  · exact Or.inr (List.pairwise_iff_getElem.mp hix.separated _ i hn hi hgt x hx)

theorem Indexed.none_behind
    (hix : Indexed index block blockFunction D rank idx content RI RB)
    (he : idx[ahead (EngineIterator.before rank target) idx]? = none) (he' : e' ∈ idx)
    (hx : x ∈ content e'.2) : rank x.1 < rank target := by
  obtain ⟨i, hi, rfl⟩ := List.mem_iff_getElem.mp he'
  have hbelow := of_decide_eq_true (of_lt_takeWhile
    (hi.trans_le (List.getElem?_eq_none_iff.mp he)) (List.getElem?_eq_getElem hi) :
      EngineIterator.before rank target idx[i] = true)
  exact (hix.upper _ he' x hx).trans_lt hbelow

theorem Indexed.ahead_none (hix : Indexed index block blockFunction D rank idx content RI RB)
    (he : idx[ahead (EngineIterator.before rank target) idx]? = none) :
    ahead (EngineIterator.before rank target) (contents content idx).flatten =
      (contents content idx).flatten.length := by
  refine ahead_all fun x hx => ?_
  obtain ⟨e', he', hx⟩ := mem_contents.mp hx
  exact decide_eq_true (hix.none_behind he he' hx)

end Lists

section Moves

variable {it : TwoLevel σ δ} {i fuel : ℕ} {e : Bytes × Bytes} {d : δ} {q : ℕ}

theorem eq_of_sliceCompare {a b : Bytes} (h : sliceCompare a b = .eq) : a = b := by
  have horder := bytewiseComparator_orders.compare_eq a b trivial trivial
  change Except.ok (sliceCompare a b) = _ at horder
  exact byteValues_injective ((cmp_eq_eq_iff _ _).mp ((Except.ok.inj horder).symm.trans h))

theorem Inside.over (h : Inside idx RI RB it i e d q) : Over idx RI RB it i := by
  refine ⟨h.index, h.status, fun d' hd' => ?_⟩
  obtain rfl := Option.some.inj (h.data.symm.trans hd')
  exact ⟨e, List.mem_of_getElem? h.entry, h.handle, q, h.place⟩

theorem setDataIterator_of_ok (h : ∀ d, it.data = some d → block.status d = .ok)
    (data : Option δ) : it.setDataIterator block data = { it with data } := by
  rw [setDataIterator]
  cases hdata : it.data with
  | none => rfl
  | some d =>
    simp only [saveError, h d hdata, Status.isOk_ok, Bool.not_true, Bool.and_false,
      Bool.false_eq_true, if_false]

theorem Over.data_ok (h : Over idx RI RB it i)
    (hix : Indexed index block blockFunction D rank idx content RI RB) :
    ∀ d, it.data = some d → block.status d = .ok := by
  intro d hd
  obtain ⟨e, he, -, q, hq⟩ := h.data d hd
  exact (hix.block e he).status d q hq

theorem Over.enter (h : Over idx RI RB it i)
    (hix : Indexed index block blockFunction D rank idx content RI RB) (he : idx[i]? = some e) :
    ∃ it' d q, it.initDataBlock index block blockFunction = .ok it' ∧
      Inside idx RI RB it' i e d q := by
  obtain ⟨hvalid, -, hvalue⟩ := hix.index.at_some h.index he
  rw [initDataBlock, hvalid, if_pos rfl, hvalue, Stops.ok_bind]
  by_cases hsame : (it.data.isSome && sliceCompare e.2 it.dataBlockHandle == .eq) = true
  · rw [if_pos hsame]
    obtain ⟨hsome, heq⟩ := Bool.and_eq_true_iff.mp hsame
    obtain ⟨d, hd⟩ := Option.isSome_iff_exists.mp hsome
    obtain ⟨e', -, hhandle, q, hq⟩ := h.data d hd
    have hkept : it.dataBlockHandle = e.2 := (eq_of_sliceCompare (eq_of_beq heq)).symm
    exact ⟨it, d, q, rfl, h.index, h.status, he, hkept, hd, hkept ▸ hhandle ▸ hq⟩
  · obtain ⟨q, hq⟩ := hix.opened e (List.mem_of_getElem? he)
    rw [if_neg hsame]
    have hok : ∀ d, { it with dataBlockHandle := e.2 }.data = some d → block.status d = .ok :=
      h.data_ok hix
    exact ⟨{ it with data := some (blockFunction e.2), dataBlockHandle := e.2 }, _, q,
      congrArg Except.ok (setDataIterator_of_ok hok _), h.index, h.status, he, rfl, rfl, hq⟩

theorem Over.leave (h : Over idx RI RB it i)
    (hix : Indexed index block blockFunction D rank idx content RI RB) (he : idx[i]? = none) :
    it.initDataBlock index block blockFunction = .ok { it with data := none } := by
  rw [initDataBlock, hix.index.at_none h.index he, setDataIterator_of_ok (h.data_ok hix)]
  rfl

theorem Over.cleared (h : Over idx RI RB it i) : Over idx RI RB { it with data := none } i :=
  ⟨h.index, h.status, fun _ hd => by cases hd⟩

theorem Inside.moveData (h : Inside idx RI RB it i e d q)
    (hix : Indexed index block blockFunction D rank idx content RI RB) {m : Move Bytes}
    (hm : EngineIterator.Allowed D m) {q' : ℕ}
    (hq : move (EngineIterator.before rank) (content e.2) q m = some q') :
    ∃ it' d', it.moveData (block.perform m) = .ok it' ∧ Inside idx RI RB it' i e d' q' := by
  obtain ⟨d', hd', hplace⟩ := (hix.block e (List.mem_of_getElem? h.entry)).move h.place hm hq
  refine ⟨{ it with data := some d' }, d', ?_, h.index, h.status, h.entry, h.handle, rfl, hplace⟩
  rw [TwoLevel.moveData, h.data]
  simp only [hd', Stops.ok_bind]
  rfl

theorem Inside.dataValid (h : Inside idx RI RB it i e d q)
    (hix : Indexed index block blockFunction D rank idx content RI RB) :
    it.dataValid block = decide (q < (content e.2).length) := by
  have hblock := hix.block e (List.mem_of_getElem? h.entry)
  rw [TwoLevel.dataValid, h.data, Option.any_some]
  by_cases hq : q < (content e.2).length
  · rw [decide_eq_true hq]
    exact (hblock.at_some h.place (List.getElem?_eq_getElem hq)).1
  · rw [decide_eq_false hq]
    exact hblock.at_none h.place (List.getElem?_eq_none (not_lt.mp hq))

theorem Over.skip (h : Over idx RI RB it i)
    (hix : Indexed index block blockFunction D rank idx content RI RB) (he : idx[i]? = none)
    (hdata : it.data = none) (hfuel : 0 < fuel) (moveIndex : σ → Exec σ) (enter : δ → Exec δ) :
    it.skipEmptyDataBlocks index block blockFunction moveIndex enter fuel = .ok it := by
  obtain ⟨fuel, rfl⟩ := Nat.exists_eq_add_one_of_ne_zero hfuel.ne'
  have hclear : it.setDataIterator block none = it :=
    (setDataIterator_of_ok (h.data_ok hix) none).trans (by rw [← hdata])
  rw [skipEmptyDataBlocks, hclear, TwoLevel.dataValid, hdata, hix.index.at_none h.index he]
  rfl

theorem Inside.skipForward (h : Inside idx RI RB it i e d q)
    (hix : Indexed index block blockFunction D rank idx content RI RB)
    (hq : q ≤ (content e.2).length) (hfuel : idx.length < fuel + i) :
    ∃ it', it.skipEmptyDataBlocksForward index block blockFunction fuel = .ok it' ∧
      At idx content RI RB it' (offset (contents content idx) i + q) := by
  induction fuel generalizing it i e d q with
  | zero =>
    have hi := (List.getElem?_eq_some_iff.mp h.entry).1
    omega
  | succ fuel ih =>
    have hi := (List.getElem?_eq_some_iff.mp h.entry).1
    rw [skipEmptyDataBlocksForward, skipEmptyDataBlocks, h.dataValid hix]
    by_cases hlt : q < (content e.2).length
    · rw [decide_eq_true hlt]
      exact ⟨it, rfl, .inside h hlt⟩
    · obtain rfl : q = (content e.2).length := le_antisymm hq (not_lt.mp hlt)
      obtain ⟨s, hs, hnext⟩ := hix.index.next h.index hi
      have hover : Over idx RI RB { it with index := s } (i + 1) := ⟨hnext, h.status, h.over.data⟩
      rw [← offset_succ (contents_at h.entry), decide_eq_false hlt,
        (hix.index.at_some h.index h.entry).1]
      simp only [Bool.false_eq_true, if_false, if_true, hs, Stops.ok_bind]
      cases he : idx[i + 1]? with
      | none =>
        have hend := List.getElem?_eq_none_iff.mp he
        have hskip := hover.cleared.skip hix he rfl (by omega : 0 < fuel) index.next
          block.seekToFirst
        rw [hover.leave hix he, offset_all hend]
        exact ⟨_, hskip, .outside hover.cleared rfl⟩
      | some e' =>
        obtain ⟨it', d', q', henter, hinside⟩ := hover.enter hix he
        obtain ⟨it'', d'', hmove, hfirst⟩ := hinside.moveData hix (m := .seekToFirst) trivial rfl
        obtain ⟨it₃, hskip, hat⟩ := ih hfirst (Nat.zero_le _) (by omega)
        refine ⟨it₃, ?_, hat⟩
        rw [henter, Stops.ok_bind]
        exact (congrArg (· >>= _) hmove).trans hskip

/-- Where the entry before the `p`-th one is. -/
def previous (n p : ℕ) : ℕ := if p = 0 then n else p - 1

theorem Inside.skipBackward (h : Inside idx RI RB it i e d q)
    (hix : Indexed index block blockFunction D rank idx content RI RB) (hfuel : i + 1 < fuel) :
    ∃ it', it.skipEmptyDataBlocksBackward index block blockFunction fuel = .ok it' ∧
      At idx content RI RB it' (if q < (content e.2).length then
        offset (contents content idx) i + q
      else
        previous (contents content idx).flatten.length (offset (contents content idx) i)) := by
  induction fuel generalizing it i e d q with
  | zero => omega
  | succ fuel ih =>
    have hi := (List.getElem?_eq_some_iff.mp h.entry).1
    rw [skipEmptyDataBlocksBackward, skipEmptyDataBlocks, h.dataValid hix]
    by_cases hlt : q < (content e.2).length
    · rw [decide_eq_true hlt, if_pos hlt]
      exact ⟨it, rfl, .inside h hlt⟩
    · obtain ⟨s, hs, hprev⟩ := hix.index.prev h.index hi
      rw [if_neg hlt, decide_eq_false hlt, (hix.index.at_some h.index h.entry).1]
      simp only [Bool.false_eq_true, if_false, if_true, hs, Stops.ok_bind]
      cases i with
      | zero =>
        rw [if_pos rfl] at hprev
        have hover : Over idx RI RB { it with index := s } idx.length :=
          ⟨hprev, h.status, h.over.data⟩
        have he : idx[idx.length]? = none := List.getElem?_eq_none le_rfl
        have hskip := hover.cleared.skip hix he rfl (by omega : 0 < fuel) index.prev
          block.seekToLast
        rw [hover.leave hix he]
        exact ⟨_, hskip, .outside hover.cleared rfl⟩
      | succ k =>
        rw [if_neg k.succ_ne_zero, Nat.add_sub_cancel] at hprev
        have hover : Over idx RI RB { it with index := s } k := ⟨hprev, h.status, h.over.data⟩
        have he := List.getElem?_eq_getElem (Nat.lt_of_succ_lt hi)
        obtain ⟨it', d', q', henter, hinside⟩ := hover.enter hix he
        obtain ⟨it'', d'', hmove, hlast⟩ := hinside.moveData hix (m := .seekToLast) trivial rfl
        obtain ⟨it₃, hskip, hat⟩ := ih hlast (by omega)
        refine ⟨it₃, ?_, ?_⟩
        · rw [henter, Stops.ok_bind]
          exact (congrArg (· >>= _) hmove).trans hskip
        · convert hat using 1
          rw [offset_succ (contents_at he), previous, previous]
          split_ifs <;> omega

theorem Over.currentStatus (h : Over idx RI RB it i)
    (hix : Indexed index block blockFunction D rank idx content RI RB) :
    it.currentStatus index block = .ok := by
  rw [TwoLevel.currentStatus, hix.index.status _ _ h.index]
  cases hdata : it.data with
  | none => exact h.status
  | some d =>
    simp only [h.data_ok hix d hdata, Status.isOk_ok, Bool.not_true, Bool.false_eq_true, if_false,
      h.status]

theorem At.over {p : ℕ} (h : At idx content RI RB it p) : ∃ i, Over idx RI RB it i := by
  cases h with
  | inside h => exact ⟨_, h.over⟩
  | outside h => exact ⟨_, h⟩

theorem At.current {p : ℕ} (h : At idx content RI RB it p)
    (hix : Indexed index block blockFunction D rank idx content RI RB) (fuel : ℕ) :
    (engineIterator index block blockFunction fuel).current it =
      .ok (contents content idx).flatten[p]? := by
  cases h with
  | inside h hq =>
    have he := List.getElem?_eq_getElem hq
    have hvalid := (h.dataValid hix).trans (decide_eq_true hq)
    obtain ⟨-, hkey, hvalue⟩ := (hix.block _ (List.mem_of_getElem? h.entry)).at_some h.place he
    rw [getElem?_offset (contents_at h.entry) hq, he]
    simp only [EngineIterator.current, engineIterator, ask, hvalid, if_true, assertThat_true,
      Stops.ok_bind, h.data, hkey, hvalue]
    rfl
  | outside h hdata =>
    rw [List.getElem?_eq_none le_rfl]
    simp only [EngineIterator.current, engineIterator, TwoLevel.dataValid, hdata, Option.any_none]
    rfl

theorem Over.leaves (h : Over idx RI RB it i)
    (hix : Indexed index block blockFunction D rank idx content RI RB) (he : idx[i]? = none)
    (hfuel : 0 < fuel) (f : δ → Exec δ) (moveIndex : σ → Exec σ) (enter : δ → Exec δ) :
    ∃ it', (do
      let it ← it.initDataBlock index block blockFunction
      let it ← it.moveData f
      it.skipEmptyDataBlocks index block blockFunction moveIndex enter fuel) = .ok it' ∧
      At idx content RI RB it' (contents content idx).flatten.length := by
  refine ⟨_, ?_, .outside h.cleared rfl⟩
  rw [h.leave hix he]
  exact h.cleared.skip hix he rfl hfuel moveIndex enter

theorem Over.entersForward (h : Over idx RI RB it i)
    (hix : Indexed index block blockFunction D rank idx content RI RB) (he : idx[i]? = some e)
    (hfuel : idx.length < fuel) {m : Move Bytes} (hm : EngineIterator.Allowed D m) {q' : ℕ}
    (hmove : ∀ q, move (EngineIterator.before rank) (content e.2) q m = some q')
    (hq : q' ≤ (content e.2).length) :
    ∃ it', (do
      let it ← it.initDataBlock index block blockFunction
      let it ← it.moveData (block.perform m)
      it.skipEmptyDataBlocksForward index block blockFunction fuel) = .ok it' ∧
      At idx content RI RB it' (offset (contents content idx) i + q') := by
  obtain ⟨it', d, q, henter, hinside⟩ := h.enter hix he
  obtain ⟨it'', d', hdata, hplace⟩ := hinside.moveData hix hm (hmove q)
  rw [henter, Stops.ok_bind, hdata]
  exact hplace.skipForward hix hq (by omega)

theorem Over.seekToFirst (h : Over idx RI RB it i)
    (hix : Indexed index block blockFunction D rank idx content RI RB)
    (hfuel : idx.length < fuel) :
    ∃ it', it.seekToFirst index block blockFunction fuel = .ok it' ∧
      At idx content RI RB it' 0 := by
  obtain ⟨s, hs, hfirst⟩ := hix.index.seekToFirst h.index
  have hover : Over idx RI RB { it with index := s } 0 := ⟨hfirst, h.status, h.data⟩
  rw [TwoLevel.seekToFirst, hs, Stops.ok_bind]
  cases he : idx[0]? with
  | none =>
    have hzero : 0 = (contents content idx).flatten.length :=
      offset_all (List.getElem?_eq_none_iff.mp he)
    rw [hzero]
    apply hover.leaves hix he
    omega
  | some e =>
    exact hover.entersForward hix he hfuel (m := .seekToFirst) trivial (fun _ => rfl)
      (Nat.zero_le _)

theorem Over.seek (h : Over idx RI RB it i)
    (hix : Indexed index block blockFunction D rank idx content RI RB)
    (hfuel : idx.length < fuel) {target : Bytes} (ht : D target) :
    ∃ it', it.seek index block blockFunction fuel target = .ok it' ∧
      At idx content RI RB it'
        (ahead (EngineIterator.before rank target) (contents content idx).flatten) := by
  obtain ⟨s, hs, hplace⟩ := hix.index.seek h.index ht
  have hover : Over idx RI RB { it with index := s } _ := ⟨hplace, h.status, h.data⟩
  rw [TwoLevel.seek, hs, Stops.ok_bind]
  cases he : idx[ahead (EngineIterator.before rank target) idx]? with
  | none =>
    rw [hix.ahead_none he]
    apply hover.leaves hix he
    omega
  | some e =>
    rw [hix.ahead_some he]
    apply hover.entersForward hix he hfuel (m := .seek target) ht
    · exact fun _ => rfl
    · exact takeWhile_length_le

theorem Over.seekToLast (h : Over idx RI RB it i)
    (hix : Indexed index block blockFunction D rank idx content RI RB)
    (hfuel : idx.length < fuel) :
    ∃ it', it.seekToLast index block blockFunction fuel = .ok it' ∧
      At idx content RI RB it' ((contents content idx).flatten.length - 1) := by
  obtain ⟨s, hs, hlast⟩ := hix.index.seekToLast h.index
  have hover : Over idx RI RB { it with index := s } _ := ⟨hlast, h.status, h.data⟩
  rw [TwoLevel.seekToLast, hs, Stops.ok_bind]
  cases he : idx[idx.length - 1]? with
  | none =>
    have hnil : idx = [] := by
      have hle := List.getElem?_eq_none_iff.mp he
      exact List.length_eq_zero_iff.mp (by omega)
    obtain ⟨it', hit', hat⟩ := hover.leaves hix he (by omega : 0 < fuel)
      block.seekToLast index.prev block.seekToLast
    subst hnil
    exact ⟨it', hit', hat⟩
  | some e =>
    obtain ⟨it', d, q, henter, hinside⟩ := hover.enter hix he
    obtain ⟨it'', d', hdata, hplace⟩ := hinside.moveData hix (m := .seekToLast) trivial rfl
    have hi := (List.getElem?_eq_some_iff.mp he).1
    obtain ⟨it₃, hskip, hat⟩ := hplace.skipBackward hix (by omega : idx.length - 1 + 1 < fuel)
    refine ⟨it₃, ?_, ?_⟩
    · refine (congrArg (· >>= _) henter).trans ?_
      exact (congrArg (· >>= _) hdata).trans hskip
    · have hend : offset (contents content idx) (idx.length - 1 + 1) =
          offset (contents content idx) (idx.length - 1) + (content e.2).length :=
        offset_succ (contents_at he)
      rw [offset_all (by omega)] at hend
      convert hat using 1
      rw [previous]
      split_ifs <;> omega

theorem Inside.next (h : Inside idx RI RB it i e d q)
    (hix : Indexed index block blockFunction D rank idx content RI RB)
    (hfuel : idx.length < fuel) (hq : q < (content e.2).length) :
    ∃ it', it.next index block blockFunction fuel = .ok it' ∧
      At idx content RI RB it' (offset (contents content idx) i + q + 1) := by
  obtain ⟨it', d', hdata, hplace⟩ := h.moveData hix (m := .next) trivial (if_pos hq)
  rw [TwoLevel.next, h.dataValid hix, decide_eq_true hq]
  obtain ⟨it'', hskip, hat⟩ := hplace.skipForward hix hq (by omega : idx.length < fuel + i)
  exact ⟨it'', (congrArg (· >>= _) hdata).trans hskip, hat⟩

theorem Inside.prev (h : Inside idx RI RB it i e d q)
    (hix : Indexed index block blockFunction D rank idx content RI RB)
    (hfuel : idx.length < fuel) (hq : q < (content e.2).length) :
    ∃ it', it.prev index block blockFunction fuel = .ok it' ∧
      At idx content RI RB it' (previous (contents content idx).flatten.length
        (offset (contents content idx) i + q)) := by
  obtain ⟨it', d', hdata, hplace⟩ := h.moveData hix (m := .prev) trivial (if_pos hq)
  have hi := (List.getElem?_eq_some_iff.mp h.entry).1
  rw [TwoLevel.prev, h.dataValid hix, decide_eq_true hq]
  obtain ⟨it'', hskip, hat⟩ := hplace.skipBackward hix (by omega : i + 1 < fuel)
  refine ⟨it'', (congrArg (· >>= _) hdata).trans hskip, ?_⟩
  convert hat using 1
  rw [previous, previous]
  split_ifs <;> omega

theorem engineIterator_represents
    (hix : Indexed index block blockFunction D rank idx content RI RB)
    (hfuel : idx.length < fuel) :
    (engineIterator index block blockFunction fuel).Represents D rank
      (contents content idx).flatten (At idx content RI RB) := by
  refine ⟨fun it p h m hm => ?_, fun it p h => h.current hix fuel, fun it p h => ?_⟩
  · obtain ⟨i, hover⟩ := h.over
    cases m with
    | seekToFirst => exact hover.seekToFirst hix hfuel
    | seekToLast => exact hover.seekToLast hix hfuel
    | seek target => exact hover.seek hix hfuel hm
    | next =>
      cases h with
      | inside h hq =>
        have hlt := (List.getElem?_eq_some_iff.mp ((getElem?_offset
          (contents_at h.entry) hq).trans (List.getElem?_eq_getElem hq))).1
        rw [move, if_pos hlt]
        exact h.next hix hfuel hq
      | outside _ hdata =>
        rw [move, if_neg (lt_irrefl _)]
        change it.next index block blockFunction fuel = _
        rw [TwoLevel.next, TwoLevel.dataValid, hdata]
        rfl
    | prev =>
      cases h with
      | inside h hq =>
        have hlt := (List.getElem?_eq_some_iff.mp ((getElem?_offset
          (contents_at h.entry) hq).trans (List.getElem?_eq_getElem hq))).1
        rw [move, if_pos hlt]
        exact h.prev hix hfuel hq
      | outside _ hdata =>
        rw [move, if_neg (lt_irrefl _)]
        change it.prev index block blockFunction fuel = _
        rw [TwoLevel.prev, TwoLevel.dataValid, hdata]
        rfl
  · obtain ⟨i, hover⟩ := h.over
    exact hover.currentStatus hix

theorem make_at {s : σ} (hs : RI s i) :
    At idx content RI RB (make s : TwoLevel σ δ) (contents content idx).flatten.length :=
  .outside ⟨hs, rfl, fun _ hd => by cases hd⟩ rfl

end Moves

section Blocks

open BlockFormat

variable {c : Comparator} {interval fuel : ℕ} {es : List (Bytes × Bytes)}
  {b indexBlock : BlockBuilder} {blocks : Bytes → BlockBuilder}

/-- The builders of the index block and of the data blocks, each with all entries added. -/
structure Built (c : Comparator) (D : Bytes → Prop) (rank : Bytes → κ) (interval : ℕ)
    (idx : List (Bytes × Bytes)) (content : Bytes → List (Bytes × Bytes))
    (indexBlock : BlockBuilder) (blocks : Bytes → BlockBuilder) : Prop where
  index : BlockBuilder.empty.addAll c 1 idx = .ok indexBlock
  block : ∀ e ∈ idx, BlockBuilder.empty.addAll c interval (content e.2) = .ok (blocks e.2)
  index_size : indexBlock.currentSizeEstimate < 2 ^ 32
  block_size : ∀ e ∈ idx, (blocks e.2).currentSizeEstimate < 2 ^ 32
  index_keys : ∀ e ∈ idx, D e.1
  block_keys : ∀ e ∈ idx, ∀ x ∈ content e.2, D x.1
  index_sorted : idx.Pairwise fun e e' => rank e.1 < rank e'.1
  block_sorted : ∀ e ∈ idx, (content e.2).Pairwise fun x x' => rank x.1 < rank x'.1
  upper : ∀ e ∈ idx, ∀ x ∈ content e.2, rank x.1 ≤ rank e.1
  separated : idx.Pairwise fun e e' => ∀ x ∈ content e'.2, rank e.1 < rank x.1

/-- The data block that a handle stands for is opened. -/
def openBlock (blocks : Bytes → BlockBuilder) (handle : Bytes) : Status ⊕ Iter :=
  (Block.make (blocks handle).finish.buffer).newIterator

theorem opened_block (ho : c.OrdersOn D rank) (hpos : 0 < interval) (hD : ∀ e ∈ es, D e.1)
    (hsorted : es.Pairwise fun e e' => rank e.1 < rank e'.1)
    (hb : BlockBuilder.empty.addAll c interval es = .ok b)
    (hsize : b.currentSizeEstimate < 2 ^ 32) :
    ∃ it, (Block.make b.finish.buffer).newIterator = .inr it ∧ it.GoesThrough es es.length := by
  obtain ⟨b', hb', hopened⟩ := finished_block ho hpos hD hsorted
  obtain rfl := Except.ok.inj (hb.symm.trans hb')
  exact hopened hsize

theorem Built.indexed (h : Built c D rank interval idx content indexBlock blocks)
    (ho : c.OrdersOn D rank) (hpos : 0 < interval) :
    Indexed (Block.engineIterator c) (Block.engineIterator c) (openBlock blocks) D rank idx content
      (Block.GoesThrough idx) (fun handle => Block.GoesThrough (content handle)) := by
  refine ⟨Block.engineIterator_represents ho h.index_keys h.index_sorted, fun e he => ?_,
    fun e he => ?_, h.upper, h.separated⟩
  · exact Block.engineIterator_represents ho (h.block_keys e he) (h.block_sorted e he)
  · obtain ⟨it, hit, hat⟩ := opened_block ho hpos (h.block_keys e he) (h.block_sorted e he)
      (h.block e he) (h.block_size e he)
    exact ⟨_, it, hit, hat⟩

/-- Whatever is asked for, the iterator over an index block and data blocks goes through the entries
of the data blocks. -/
theorem two_level_iterator_iterates (h : Built c D rank interval idx content indexBlock blocks)
    (ho : c.OrdersOn D rank) (hpos : 0 < interval) (hfuel : idx.length < fuel)
    {ms : List (Move Bytes)} (hms : ∀ m ∈ ms, EngineIterator.Allowed D m) :
    (engineIterator (Block.engineIterator c) (Block.engineIterator c) (openBlock blocks)
      fuel).Answers rank (contents content idx).flatten (contents content idx).flatten.length
      (make (Block.make indexBlock.finish.buffer).newIterator) ms := by
  obtain ⟨it, hit, hat⟩ := opened_block ho Nat.one_pos h.index_keys h.index_sorted h.index
    h.index_size
  have hstart : Block.GoesThrough idx (Block.make indexBlock.finish.buffer).newIterator
      idx.length := ⟨it, hit, hat⟩
  exact (engineIterator_represents (h.indexed ho hpos) hfuel).answers (make_at hstart) hms

/-- Of three data blocks the second one has no entries. -/
theorem two_level_iterator_iterates_three :
    ∃ (indexBlock : BlockBuilder) (blocks : Bytes → BlockBuilder),
      (engineIterator (Block.engineIterator bytewiseComparator)
        (Block.engineIterator bytewiseComparator) (openBlock blocks) 4).Answers byteValues
        [([1], [7]), ([2], []), ([5], [9])] 3
        (make (Block.make indexBlock.finish.buffer).newIterator)
        [.seek [3], .prev, .next, .seekToLast, .prev, .prev] := by
  obtain ⟨indexBlock, hindex, hindexSize⟩ : ∃ b, BlockBuilder.empty.addAll bytewiseComparator 1
      [([3], [0]), ([4], [1]), ([5], [2])] = .ok b ∧ b.currentSizeEstimate < 2 ^ 32 :=
    ⟨_, rfl, by decide⟩
  obtain ⟨b₀, hb₀, hsize₀⟩ : ∃ b, BlockBuilder.empty.addAll bytewiseComparator 16
      [([1], [7]), ([2], [])] = .ok b ∧ b.currentSizeEstimate < 2 ^ 32 := ⟨_, rfl, by decide⟩
  obtain ⟨b₁, hb₁, hsize₁⟩ : ∃ b, BlockBuilder.empty.addAll bytewiseComparator 16 [] = .ok b ∧
      b.currentSizeEstimate < 2 ^ 32 := ⟨_, rfl, by decide⟩
  obtain ⟨b₂, hb₂, hsize₂⟩ : ∃ b, BlockBuilder.empty.addAll bytewiseComparator 16 [([5], [9])] =
      .ok b ∧ b.currentSizeEstimate < 2 ^ 32 := ⟨_, rfl, by decide⟩
  have hblocks : Built bytewiseComparator (fun _ => True) byteValues 16
      [([3], [0]), ([4], [1]), ([5], [2])]
      (fun handle => if handle = [0] then [([1], [7]), ([2], [])] else
        if handle = [1] then [] else [([5], [9])]) indexBlock
      (fun handle => if handle = [0] then b₀ else if handle = [1] then b₁ else b₂) := by
    refine ⟨hindex, ?_, hindexSize, ?_, fun _ _ => trivial, fun _ _ _ _ => trivial, by decide,
      by decide, by decide, by decide⟩
    · exact List.forall_mem_cons.mpr ⟨hb₀, List.forall_mem_cons.mpr ⟨hb₁,
        List.forall_mem_cons.mpr ⟨hb₂, fun _ he => by cases he⟩⟩⟩
    · exact List.forall_mem_cons.mpr ⟨hsize₀, List.forall_mem_cons.mpr ⟨hsize₁,
        List.forall_mem_cons.mpr ⟨hsize₂, fun _ he => by cases he⟩⟩⟩
  refine ⟨indexBlock, _, two_level_iterator_iterates hblocks bytewiseComparator_orders (by decide)
    (by decide) fun m _ => ?_⟩
  cases m <;> trivial

end Blocks

end TwoLevel

end DVELevelDB
