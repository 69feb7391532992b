import DVELevelDB.AcceptedKeys

/-! # Approximate sizes of key ranges -/

namespace DVELevelDB

open VersionStore
open Stops (Ensures)

/-- What measuring finds of the table files: whether they open, and where their data ends. -/
structure SizeEvents where
  opens : ℕ → Bool
  metaindexOffset : ℕ → ℕ

section Sizes

variable (c : Comparator) (io : SizeEvents)

def Table.approximateOffsetOf (metaindexOffset : ℕ) (t : Table) (key : InternalKey) : Exec ℕ := do
  match ← t.seekIndex c key with
  | some ie => return ie.offset
  | none => return metaindexOffset

/-- The files of a level, added to the result so far. -/
def approximateOffsetInLevel (level : ℕ) (key : InternalKey) :
    List FileMetaData → ℕ → Exec ℕ
  | [], result => return result
  | f :: files, result => do
    if (← InternalKeyComparator.compare c f.largest key) ≠ .gt then
      approximateOffsetInLevel level key files (result + f.fileSize)
    else if (← InternalKeyComparator.compare c f.smallest key) = .gt then
      if level > 0 then return result else approximateOffsetInLevel level key files result
    else if io.opens f.number then
      let offset ← f.table.approximateOffsetOf c (io.metaindexOffset f.number) key
      approximateOffsetInLevel level key files (result + offset)
    else
      approximateOffsetInLevel level key files result

def Version.approximateOffsetOf (v : Version) (key : InternalKey) : Exec ℕ :=
  (List.range kNumLevels).foldlM (fun result level =>
    approximateOffsetInLevel c io level key (v.files level) result) 0

def approximateSize (v : Version) (range : Bytes × Bytes) : Exec ℕ := do
  let tag ← packSequenceAndType kMaxSequenceNumber kValueTypeForSeek
  let start ← v.approximateOffsetOf c io ⟨range.1, tag⟩
  let limit ← v.approximateOffsetOf c io ⟨range.2, tag⟩
  return if limit ≥ start then limit - start else 0

def DB.getApproximateSizes (ranges : List (Bytes × Bytes)) (db : DB) : Exec (List ℕ) :=
  ranges.mapM (approximateSize c io db.version)

end Sizes

section SizesAccepted

variable {c : Comparator} {D : Bytes → Prop} (hc : c.AcceptsOn D) (io : SizeEvents) {v : Version}
  {key : InternalKey}

include hc

theorem approximateOffsetInLevel_accepts (level : ℕ) (hk : D key.userKey)
    {files : List FileMetaData} (h : FilesIn D files) (result : ℕ) :
    Ensures NotFatal (approximateOffsetInLevel c io level key files result) fun _ => True := by
  induction files generalizing result with
  | nil => trivial
  | cons f files ih =>
    have hf := h.head
    have hoffset : Ensures NotFatal
        (f.table.approximateOffsetOf c (io.metaindexOffset f.number) key) fun _ => True := by
      have hindex : Ensures NotFatal (f.table.seekIndex c key) fun _ => True :=
        (BinarySearch.ensures_searchRestarts fun ie hie =>
          beforeKey_accepts hc hk (hf.index ie hie)).bind fun _ _ => trivial
      refine hindex.bind fun ie _ => ?_
      cases ie <;> trivial
    refine (InternalKeyComparator.compare_accepts hc hf.largest hk).bind fun r _ => ?_
    by_cases hbefore : r ≠ .gt
    · rw [if_pos hbefore]
      exact ih h.tail _
    rw [if_neg hbefore]
    refine (InternalKeyComparator.compare_accepts hc hf.smallest hk).bind fun r _ => ?_
    split_ifs
    · trivial
    · exact ih h.tail _
    · exact hoffset.bind fun offset _ => ih h.tail _
    · exact ih h.tail _

theorem Version.approximateOffsetOf_accepts (h : v.KeysIn D) (hk : D key.userKey) :
    Ensures NotFatal (v.approximateOffsetOf c io key) fun _ => True :=
  Stops.ensures_foldlM trivial fun result _ level _ =>
    approximateOffsetInLevel_accepts hc io level hk (h level) result

theorem DB.getApproximateSizes_accepts {db : DB} (h : db.KeysIn D)
    {ranges : List (Bytes × Bytes)} (hr : ∀ range ∈ ranges, D range.1 ∧ D range.2) :
    Ensures NotFatal (DB.getApproximateSizes c io ranges db) fun _ => True := by
  have hsize : ∀ range : Bytes × Bytes, D range.1 ∧ D range.2 →
      Ensures NotFatal (approximateSize c io db.version range) fun _ => True := by
    intro range hrange
    have hpack : Ensures NotFatal (packSequenceAndType kMaxSequenceNumber kValueTypeForSeek)
        fun _ => True := by
      exact trivial
    refine hpack.bind fun tag _ => ?_
    refine (Version.approximateOffsetOf_accepts hc io h.version hrange.1).bind fun start _ => ?_
    exact (Version.approximateOffsetOf_accepts hc io h.version hrange.2).bind fun limit _ => trivial
  unfold DB.getApproximateSizes
  induction ranges with
  | nil => trivial
  | cons range ranges ih =>
    rw [List.mapM_cons]
    refine (hsize range (hr range List.mem_cons_self)).bind fun size _ => ?_
    exact (ih fun range' h' => hr range' (List.mem_cons_of_mem _ h')).bind fun _ _ => trivial

end SizesAccepted

end DVELevelDB
