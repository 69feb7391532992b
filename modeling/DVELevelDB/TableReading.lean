import DVELevelDB.TableWriting

/-! # Reading a table

From the footer of a finished table its blocks are found again.
-/

namespace DVELevelDB

namespace TableFormat

open Coding Positions BlockFormat
open FilterBlock (FilterBlockReader)
open Stops (Ensures)

section Open

variable {κ : Type*} [LinearOrder κ] {D : Bytes → Prop} {rank : Bytes → κ}
  {z : Snappy} {o : Options} {r : Rep} {ds : List Part} {file : Bytes} {es : List (Bytes × Bytes)}

theorem encodeVarint64_length_le (n : ℕ) {v : ℕ} (hv : v < 128 ^ (n + 1)) :
    (encodeVarint64 v).length ≤ n + 1 := by
  induction n generalizing v with
  | zero =>
    rw [encodeVarint64, if_neg (by omega)]
    exact le_rfl
  | succ n ih =>
    rw [encodeVarint64]
    by_cases hlarge : v ≥ 128
    · rw [if_pos hlarge, List.length_cons, Nat.shiftRight_eq_div_pow]
      exact Nat.succ_le_succ (ih (Nat.div_lt_of_lt_mul (by rw [← pow_succ']; exact hv)))
    · rw [if_neg hlarge, List.length_singleton]
      omega

theorem BlockHandle.encodeTo_length {h : BlockHandle} (hfits : h.Fits) :
    h.encodeTo.length ≤ 20 := by
  have hoffset := encodeVarint64_length_le 9 (hfits.1.trans_le (by norm_num))
  have hsize := encodeVarint64_length_le 9 (hfits.2.trans_le (by norm_num))
  rw [BlockHandle.encodeTo, List.length_append]
  omega

theorem Footer.encodeTo_length (f : Footer) : f.encodeTo.length = kEncodedLength := by
  simp only [Footer.encodeTo, List.length_append, List.length_take, List.length_replicate,
    encodeFixed32, encodeFixed_length, kEncodedLength]
  omega

theorem Footer.decodeFrom_encodeTo {f : Footer} (hmeta : f.metaindexHandle.Fits)
    (hindex : f.indexHandle.Fits) : Footer.decodeFrom f.encodeTo = .inr f := by
  obtain ⟨padding, hpadding, hencode⟩ : ∃ padding,
      (f.metaindexHandle.encodeTo ++ f.indexHandle.encodeTo ++ padding).length = 40 ∧
      f.encodeTo = f.metaindexHandle.encodeTo ++ f.indexHandle.encodeTo ++ padding ++
        (encodeFixed32 (kTableMagicNumber % 2 ^ 32) ++
          encodeFixed32 (kTableMagicNumber / 2 ^ 32)) := by
    have hlen : (f.metaindexHandle.encodeTo ++ f.indexHandle.encodeTo).length ≤ 40 := by
      have hle := BlockHandle.encodeTo_length hmeta
      have hle' := BlockHandle.encodeTo_length hindex
      rw [List.length_append]
      omega
    refine ⟨List.replicate (40 - (f.metaindexHandle.encodeTo ++ f.indexHandle.encodeTo).length) 0,
      ?_, ?_⟩
    · rw [List.length_append, List.length_replicate]
      omega
    · rw [Footer.encodeTo, List.append_assoc]
      rw [List.take_of_length_le]
      rw [List.length_append, List.length_replicate]
      omega
  have hlow : decodeFixed32 (f.encodeTo.drop (kEncodedLength - 8)) =
      kTableMagicNumber % 2 ^ 32 := by
    rw [hencode, show kEncodedLength - 8 = _ from hpadding.symm, List.drop_left]
    exact (decodeFixed_encodeFixed 4 _ _).trans rfl
  have hhigh : decodeFixed32 (f.encodeTo.drop (kEncodedLength - 4)) =
      kTableMagicNumber / 2 ^ 32 := by
    have hdrop : kEncodedLength - 4 = (f.metaindexHandle.encodeTo ++ f.indexHandle.encodeTo ++
        padding ++ encodeFixed32 (kTableMagicNumber % 2 ^ 32)).length := by
      rw [List.length_append, hpadding, encodeFixed32, encodeFixed_length, kEncodedLength]
    rw [hencode, ← List.append_assoc, hdrop, List.drop_left]
    have hdecode := decodeFixed_encodeFixed 4 (kTableMagicNumber / 2 ^ 32) []
    rw [List.append_nil] at hdecode
    exact hdecode.trans rfl
  rw [Footer.decodeFrom, hlow, hhigh]
  rw [if_neg (by decide), hencode, List.append_assoc, List.append_assoc,
    BlockHandle.decodeFrom_encodeTo hmeta]
  dsimp only
  rw [BlockHandle.decodeFrom_encodeTo hindex]

def contentOf (ds : List Part) (handle : Bytes) : List (Bytes × Bytes) :=
  ((ds.find? fun p => p.handle.encodeTo == handle).map Part.entries).getD []

theorem Holds.contentOf_eq (h : Holds D rank z o r ds none []) (hlen : r.file.length < 2 ^ 64)
    {p : Part} (hp : p ∈ ds) : contentOf ds p.handle.encodeTo = p.entries := by
  have hfits : ∀ p ∈ ds, p.handle.Fits := by
    intro p hp
    obtain ⟨⟨-, b, -, hat⟩, -⟩ := h.parts p hp
    exact hat.fits hlen
  have hoffsets : (ds.map (·.handle.offset)).Pairwise (· < ·) := by
    have hold := h.offsets
    rw [Option.toList_none, List.map_nil, List.append_nil] at hold
    exact hold
  rw [List.pairwise_map] at hoffsets
  cases hfind : ds.find? fun p' => p'.handle.encodeTo == p.handle.encodeTo with
  | none =>
    have hnone := List.find?_eq_none.mp hfind p hp
    exact absurd (beq_self_eq_true _) hnone
  | some p' =>
    have hmem := List.mem_of_find?_eq_some hfind
    have hbeq : (p'.handle.encodeTo == p.handle.encodeTo) = true := by
      have hfound := List.find?_some hfind
      exact hfound
    have hsame := eq_of_beq hbeq
    have hdecode := BlockHandle.decodeFrom_encodeTo (hfits p' hmem) []
    rw [hsame, BlockHandle.decodeFrom_encodeTo (hfits p hp)] at hdecode
    have hhandle : p.handle = p'.handle := (Prod.mk.inj (Option.some.inj hdecode)).1
    rw [contentOf, hfind]
    obtain ⟨i, hi, rfl⟩ := List.mem_iff_getElem.mp hp
    obtain ⟨j, hj, rfl⟩ := List.mem_iff_getElem.mp hmem
    rcases Nat.lt_trichotomy i j with hlt | rfl | hgt
    · have hless := List.pairwise_iff_getElem.mp hoffsets i j hi hj hlt
      rw [hhandle] at hless
      exact absurd hless (lt_irrefl _)
    · rfl
    · have hless := List.pairwise_iff_getElem.mp hoffsets j i hj hi hgt
      rw [hhandle] at hless
      exact absurd hless (lt_irrefl _)

theorem Holds.contents_eq (h : Holds D rank z o r ds none []) (hlen : r.file.length < 2 ^ 64) :
    (TwoLevel.contents (contentOf ds) (ds.map Part.indexEntry)).flatten =
      ds.flatMap Part.entries := by
  rw [TwoLevel.contents, List.map_map, List.flatMap]
  refine congrArg List.flatten (List.map_congr_left fun p hp => ?_)
  exact h.contentOf_eq hlen hp

theorem sublist_entries {p : Part} (hp : p ∈ ds) : p.entries.Sublist (entries ds none []) := by
  obtain ⟨s, t, rfl⟩ := List.append_of_mem hp
  simp [entries, lastEntries]

theorem mem_entries {x : Bytes × Bytes} : x ∈ entries ds none [] ↔ ∃ p ∈ ds, x ∈ p.entries := by
  simp [entries, lastEntries]

theorem Holds.indexed (h : Holds D rank z o r ds none []) (ho : o.comparator.OrdersOn D rank)
    (hpos : 0 < o.blockRestartInterval) {more : Bytes} (hlen : (r.file ++ more).length < 2 ^ 64)
    {metaIndexBlock : BlockBuilder} (hfit : BlocksFit o ds metaIndexBlock r.indexBlock)
    (hD : ∀ x ∈ entries ds none [], D x.1)
    (hsorted : (entries ds none []).Pairwise fun x x' => rank x.1 < rank x'.1)
    (verifyChecksums : Bool) :
    TwoLevel.Indexed (Block.engineIterator o.comparator) (Block.engineIterator o.comparator)
      (blockReader z verifyChecksums (r.file ++ more)) D rank (ds.map Part.indexEntry)
      (contentOf ds) (Block.GoesThrough (ds.map Part.indexEntry))
      (fun handle => Block.GoesThrough (contentOf ds handle)) := by
  have hfile : r.file.length < 2 ^ 64 := by
    rw [List.length_append] at hlen
    omega
  have hcontent : ∀ p ∈ ds, contentOf ds p.indexEntry.2 = p.entries := fun p hp =>
    h.contentOf_eq hfile hp
  have hkeys : ∀ e ∈ ds.map Part.indexEntry, D e.1 := by
    intro e he
    obtain ⟨p, hp, rfl⟩ := List.mem_map.mp he
    exact (h.keys p hp).1
  refine ⟨Block.engineIterator_represents ho hkeys h.indexKeys, ?_, ?_, ?_, ?_⟩
  · intro e he
    obtain ⟨p, hp, rfl⟩ := List.mem_map.mp he
    rw [hcontent p hp]
    exact Block.engineIterator_represents ho (fun x hx => hD x ((sublist_entries hp).subset hx))
      (hsorted.sublist (sublist_entries hp))
  · intro e he
    obtain ⟨p, hp, rfl⟩ := List.mem_map.mp he
    obtain ⟨⟨-, b, hb, hat⟩, -⟩ := h.parts p hp
    have hread := (hat.append more).read verifyChecksums
    obtain ⟨it, hit, hat'⟩ := TwoLevel.opened_block ho hpos
      (fun x hx => hD x ((sublist_entries hp).subset hx)) (hsorted.sublist (sublist_entries hp)) hb
      (hfit.data p hp b hb)
    have hdecode := BlockHandle.decodeFrom_encodeTo ((hat.append more).fits hlen) []
    rw [List.append_nil] at hdecode
    refine ⟨p.entries.length, it, ?_, ?_⟩
    · rw [blockReader, Part.indexEntry, hdecode]
      dsimp only
      rw [hread]
      exact hit
    · rw [hcontent p hp]
      exact hat'
  · intro e he
    obtain ⟨p, hp, rfl⟩ := List.mem_map.mp he
    rw [hcontent p hp]
    exact (h.parts p hp).2
  · rw [List.pairwise_map]
    refine h.separated.imp_of_mem fun {p p'} _ hp' hlt => ?_
    rw [hcontent p' hp']
    exact hlt

theorem FilterPolicy.metaKey_inj {policy policy' : FilterPolicy} :
    policy.metaKey = policy'.metaKey ↔ policy.name = policy'.name := List.append_right_inj _

/-- A policy finds the filter of a policy with its name. -/
structure Finds (o : Options) (added : List (ℕ × Bytes)) (filterPolicy : Option FilterPolicy)
    (filter : Option (FilterPolicy × FilterBlockReader)) : Prop where
  found : ∀ p policy, o.filterPolicy = some p → filterPolicy = some policy → p.name = policy.name →
    ∃ contents, filter = some (policy, .ofContents contents) ∧
      (FilterBlock.Keeps p.toEngineFilterPolicy → added.length < 2 ^ 31 →
        ∃ groups, FilterBlock.Finished p.toEngineFilterPolicy contents groups added)
  unknown : (∀ p policy, o.filterPolicy = some p → filterPolicy = some policy →
    p.name ≠ policy.name) → filter = none

theorem finds_none {added : List (ℕ × Bytes)} {filterPolicy : Option FilterPolicy}
    (h : ∀ p policy, o.filterPolicy = some p → filterPolicy = some policy →
      p.name ≠ policy.name) : Finds o added filterPolicy none :=
  ⟨fun p policy hp hpolicy hname => absurd hname (h p policy hp hpolicy), fun _ => rfl⟩

theorem MetaEntries.read {added : List (ℕ × Bytes)} {metaEntries : List (Bytes × Bytes)}
    {metaIndexBlock : BlockBuilder} {h : BlockHandle} (hm : MetaEntries z o file added metaEntries)
    (hpos : 0 < o.blockRestartInterval)
    (hb : BlockBuilder.empty.addAll o.comparator o.blockRestartInterval metaEntries =
      .ok metaIndexBlock)
    (hsize : metaIndexBlock.currentSizeEstimate < 2 ^ 32)
    (hat : StoredAt z file h metaIndexBlock.finish.buffer) (hlen : file.length < 2 ^ 64)
    (paranoidChecks : Bool) (filterPolicy : Option FilterPolicy) :
    ∃ filter, readMeta z paranoidChecks filterPolicy file h = .ok filter ∧
      Finds o added filterPolicy filter := by
  cases filterPolicy with
  | none => exact ⟨none, rfl, finds_none fun _ _ _ hnone => by cases hnone⟩
  | some policy =>
    rw [hm.addAll o.comparator bytewiseComparator] at hb
    obtain ⟨it, hit, hpos⟩ := TwoLevel.opened_block bytewiseComparator_orders hpos
      (fun _ _ => trivial) hm.sorted hb hsize
    have hrep := Block.engineIterator_represents bytewiseComparator_orders (fun _ _ => trivial)
      hm.sorted
    have hstart : Block.GoesThrough metaEntries
        (Block.make metaIndexBlock.finish.buffer).newIterator metaEntries.length := ⟨it, hit, hpos⟩
    have htarget : (fun _ : Bytes => True) policy.metaKey := trivial
    obtain ⟨iter, hseek, hs⟩ := hrep.seek hstart htarget
    have hcurrent := hrep.current iter _ hs
    rw [readMeta, hat.read paranoidChecks]
    dsimp only
    rw [hseek, Stops.ok_bind, hcurrent, Stops.ok_bind]
    cases hm with
    | without hpolicy =>
      refine ⟨none, rfl, finds_none fun p _ hsome => ?_⟩
      rw [hpolicy] at hsome
      cases hsome
    | filter p hpolicy h' contents hstored hkept =>
      by_cases hname : p.name = policy.name
      · have hfirst : ahead (EngineIterator.before byteValues policy.metaKey)
            [(p.metaKey, h'.encodeTo)] = 0 := by
          rw [ahead, FilterPolicy.metaKey_inj.mpr hname, List.takeWhile_cons_of_neg
            (by simp [EngineIterator.before]), List.length_nil]
        have hdecode := BlockHandle.decodeFrom_encodeTo (hstored.fits hlen) []
        rw [List.append_nil] at hdecode
        have hfilter : readFilter z paranoidChecks policy file h'.encodeTo =
            some (policy, .ofContents contents) := by
          rw [readFilter, hdecode]
          dsimp only
          rw [hstored.read paranoidChecks]
        rw [hfirst]
        refine ⟨some (policy, .ofContents contents), congrArg Except.ok
          ((if_pos (FilterPolicy.metaKey_inj.mpr hname)).trans hfilter), ?_⟩
        refine ⟨fun p' policy' hp' hpolicy' _ => ?_,
          fun hne => absurd hname (hne p policy hpolicy rfl)⟩
        obtain rfl := Option.some.inj (hpolicy.symm.trans hp')
        obtain rfl := Option.some.inj hpolicy'
        exact ⟨contents, rfl, hkept⟩
      · refine ⟨none, ?_, finds_none fun p' policy' hp' hpolicy' => ?_⟩
        · cases hget : [(p.metaKey, h'.encodeTo)][
              ahead (EngineIterator.before byteValues policy.metaKey)
                [(p.metaKey, h'.encodeTo)]]? with
          | none => rfl
          | some e =>
            obtain rfl := List.mem_singleton.mp (List.mem_of_getElem? hget)
            exact congrArg Except.ok (if_neg (mt FilterPolicy.metaKey_inj.mp hname))
        · obtain rfl := Option.some.inj (hpolicy.symm.trans hp')
          obtain rfl := Option.some.inj hpolicy'
          exact hname

theorem LaidOut.opens {metaIndexBlock indexBlock : BlockBuilder}
    (hl : LaidOut z o file es ds metaIndexBlock indexBlock) (hpos : 0 < o.blockRestartInterval)
    (hfit : BlocksFit o ds metaIndexBlock indexBlock) (hlen : file.length < 2 ^ 64)
    (filterPolicy : Option FilterPolicy) (paranoidChecks : Bool) :
    ∃ filter, openTable z paranoidChecks filterPolicy file =
        .ok (.inr ⟨.make indexBlock.finish.buffer, filter⟩) ∧
      Finds o (ds.flatMap fun p => keysAt p.handle.offset p.entries) filterPolicy filter := by
  obtain ⟨metaEntries, hm, hmeta⟩ := hl.metaindex
  obtain ⟨front, footer, hfile, hmetaStored, hindexStored⟩ := hl.footer
  have hmetaStored := hmetaStored.append footer.encodeTo
  have hindexStored := hindexStored.append footer.encodeTo
  rw [← hfile] at hmetaStored hindexStored
  obtain ⟨filter, hread, hfinds⟩ := hm.read hpos hmeta hfit.metaindex hmetaStored hlen
    paranoidChecks filterPolicy
  have hfooter := Footer.encodeTo_length footer
  have hlong : ¬ file.length < kEncodedLength := by
    rw [hfile, List.length_append, hfooter]
    omega
  have hlast : file.drop (file.length - kEncodedLength) = footer.encodeTo := by
    rw [hfile, List.length_append, hfooter, Nat.add_sub_cancel, List.drop_left]
  refine ⟨filter, ?_, hfinds⟩
  rw [openTable, if_neg hlong, hlast,
    Footer.decodeFrom_encodeTo (hmetaStored.fits hlen) (hindexStored.fits hlen)]
  dsimp only
  rw [hindexStored.read paranoidChecks]
  dsimp only
  rw [hread]
  rfl

theorem Holds.indexOpened (h : Holds D rank z o r ds none []) (ho : o.comparator.OrdersOn D rank)
    {metaIndexBlock : BlockBuilder} (hfit : BlocksFit o ds metaIndexBlock r.indexBlock) :
    Block.GoesThrough (ds.map Part.indexEntry)
      (Block.make r.indexBlock.finish.buffer).newIterator (ds.map Part.indexEntry).length := by
  have hkeys : ∀ e ∈ ds.map Part.indexEntry, D e.1 := by
    intro e he
    obtain ⟨p, hp, rfl⟩ := List.mem_map.mp he
    exact (h.keys p hp).1
  obtain ⟨it, hit, hat⟩ := TwoLevel.opened_block ho Nat.one_pos hkeys h.indexKeys h.index hfit.index
  exact ⟨it, hit, hat⟩

theorem Holds.iterates (h : Holds D rank z o r ds none []) (ho : o.comparator.OrdersOn D rank)
    (hpos : 0 < o.blockRestartInterval) {more : Bytes} (hlen : (r.file ++ more).length < 2 ^ 64)
    {metaIndexBlock : BlockBuilder} (hfit : BlocksFit o ds metaIndexBlock r.indexBlock)
    (hD : ∀ x ∈ entries ds none [], D x.1)
    (hsorted : (entries ds none []).Pairwise fun x x' => rank x.1 < rank x'.1)
    (verifyChecksums : Bool) {fuel : ℕ} (hfuel : (entries ds none []).length < fuel)
    {ms : List (Move Bytes)} (hms : ∀ m ∈ ms, EngineIterator.Allowed D m) :
    (TwoLevel.engineIterator (Block.engineIterator o.comparator) (Block.engineIterator o.comparator)
      (blockReader z verifyChecksums (r.file ++ more)) fuel).Answers rank (entries ds none [])
      (entries ds none []).length
      (TwoLevel.make (Block.make r.indexBlock.finish.buffer).newIterator) ms := by
  have hindexed := h.indexed ho hpos hlen hfit hD hsorted verifyChecksums
  have hflat : (TwoLevel.contents (contentOf ds) (ds.map Part.indexEntry)).flatten =
      entries ds none [] := by
    rw [h.contents_eq (by rw [List.length_append] at hlen; omega)]
    simp [entries, lastEntries]
  have hcount : ds.length ≤ (entries ds none []).length := by
    have hle := length_le_flatten fun piece (hpiece : piece ∈ ds.map Part.entries) => by
      obtain ⟨p, hp, rfl⟩ := List.mem_map.mp hpiece
      exact (h.parts p hp).1.1
    simpa [entries, lastEntries, List.flatMap] using hle
  have hanswers := (TwoLevel.engineIterator_represents hindexed
    (by rw [List.length_map]; omega : _ < fuel)).answers
    (TwoLevel.make_at (h.indexOpened ho hfit)) hms
  rw [hflat] at hanswers
  exact hanswers

theorem Finished.opens (hf : Finished D rank z o file es) (ho : o.comparator.OrdersOn D rank)
    (hpos : 0 < o.blockRestartInterval) (hD : ∀ x ∈ es, D x.1)
    (hsorted : es.Pairwise fun x x' => rank x.1 < rank x'.1) (hlen : file.length < 2 ^ 64) :
    ∃ ds metaIndexBlock indexBlock, LaidOut z o file es ds metaIndexBlock indexBlock ∧
      (BlocksFit o ds metaIndexBlock indexBlock →
        ∀ filterPolicy paranoidChecks verifyChecksums, ∃ filter,
          openTable z paranoidChecks filterPolicy file =
            .ok (.inr ⟨.make indexBlock.finish.buffer, filter⟩) ∧
          ∀ fuel, es.length < fuel → ∀ ms, (∀ m ∈ ms, EngineIterator.Allowed D m) →
            (TwoLevel.engineIterator (Block.engineIterator o.comparator)
              (Block.engineIterator o.comparator) (blockReader z verifyChecksums file) fuel).Answers
              rank es es.length
              (TwoLevel.make (Block.make indexBlock.finish.buffer).newIterator) ms) := by
  obtain ⟨r, ds, metaIndexBlock, more, hh, rfl, hl, -⟩ := hf
  have hall : entries ds none [] = es := by
    rw [← hl.entries]
    simp [entries, lastEntries]
  refine ⟨ds, metaIndexBlock, r.indexBlock, hl, ?_⟩
  intro hfit filterPolicy paranoidChecks verifyChecksums
  obtain ⟨filter, hopen, -⟩ := hl.opens hpos hfit hlen filterPolicy paranoidChecks
  subst hall
  exact ⟨filter, hopen, fun fuel hfuel ms hms =>
    hh.iterates ho hpos hlen hfit hD hsorted verifyChecksums hfuel hms⟩

/-- Entries in the order of their keys are put into a table without a failed assertion; only the
filter policy can stop that. Unless a call of the file fails, the table can be opened, and its
iterator goes through the entries. -/
theorem table_iterates (ho : o.comparator.OrdersOn D rank) (hs : Shortens o.comparator D rank)
    (hpos : 0 < o.blockRestartInterval) (hz : z.Lossless) (hD : ∀ x ∈ es, D x.1)
    (hsorted : es.Pairwise fun x x' => rank x.1 < rank x'.1) (io : ℕ → Status) :
    Ensures (Refuses o es) (build io z o es) fun r => ((∀ i, io i = .ok) → r.status = .ok) ∧
      (r.status = .ok → r.file.length < 2 ^ 64 →
        ∃ ds metaIndexBlock indexBlock, LaidOut z o r.file es ds metaIndexBlock indexBlock ∧
          (BlocksFit o ds metaIndexBlock indexBlock →
            ∀ filterPolicy paranoidChecks verifyChecksums, ∃ filter,
              openTable z paranoidChecks filterPolicy r.file =
                .ok (.inr ⟨.make indexBlock.finish.buffer, filter⟩) ∧
              ∀ fuel, es.length < fuel → ∀ ms, (∀ m ∈ ms, EngineIterator.Allowed D m) →
                (TwoLevel.engineIterator (Block.engineIterator o.comparator)
                  (Block.engineIterator o.comparator) (blockReader z verifyChecksums r.file)
                  fuel).Answers rank es es.length
                  (TwoLevel.make (Block.make indexBlock.finish.buffer).newIterator) ms)) := by
  have hbuild := build_spec ho hs hpos hz hD hsorted io
  cases hr : build io z o es with
  | error s =>
    rw [hr] at hbuild
    exact hbuild
  | ok r =>
    rw [hr] at hbuild
    exact ⟨fun hio => (build_healthy hio es).elim hr,
      fun hok hlen => (hbuild hok).opens ho hpos hD hsorted hlen⟩

end Open

section Bytewise

theorem byte_lt_succ {byte : UInt8} (h : byte < 255) : byte < byte + 1 := by
  have hlt : byte.toNat < 255 := UInt8.lt_iff_toNat_lt.mp h
  have hadd : (byte + 1).toNat = (byte.toNat + 1) % 256 := UInt8.toNat_add byte 1
  rw [UInt8.lt_iff_toNat_lt, hadd]
  omega

theorem lt_shortened (pre rest : Bytes) {byte : UInt8} (h : byte < 255) :
    byteValues (pre ++ byte :: rest) < byteValues (pre ++ [byte + 1]) := by
  induction pre with
  | nil => exact byteValues_cons_lt.mpr (Or.inl (byte_lt_succ h))
  | cons x pre ih => exact byteValues_cons_lt.mpr (Or.inr ⟨rfl, ih⟩)

theorem bytewiseComparator_shortens : Shortens bytewiseComparator (fun _ => True) byteValues where
  separator a b _ _ hlt := by
    simp only [bytewiseComparator]
    split
    · rename_i diffByte s limitByte l hs hl
      split_ifs with h
      · have hlimit := shortened_lt_limit a b hs hl h.2
        have hstart := lt_shortened (a.take (commonPrefix a b)) s h.1
        rw [← hs, List.take_append_drop] at hstart
        refine ⟨_, ?_, trivial, hstart.le, hlimit⟩
        rw [(sliceCompare_of_lt hlimit).1]
        rfl
      · exact ⟨a, rfl, trivial, le_rfl, hlt⟩
    · exact ⟨a, rfl, trivial, le_rfl, hlt⟩
  successor a _ := by
    refine ⟨_, rfl, trivial, ?_⟩
    split_ifs
    · exact le_rfl
    · exact le_shortSuccessor a

/-- Without Snappy a block is no longer than the file. -/
theorem StoredAt.size_le {file raw : Bytes} {h : BlockHandle}
    (hs : StoredAt ⟨fun _ => none, fun _ => none⟩ file h raw) : raw.length ≤ file.length := by
  obtain ⟨pre, contents, type, post, rfl, -, htype⟩ := hs
  rcases htype with ⟨-, rfl⟩ | ⟨-, hraw⟩
  · simp only [List.length_append]
    omega
  · cases hraw

theorem Written.size_le {o : Options} {file : Bytes} {h : BlockHandle} {es : List (Bytes × Bytes)}
    {b : BlockBuilder} (hw : Written ⟨fun _ => none, fun _ => none⟩ o file h es)
    (hb : BlockBuilder.empty.addAll o.comparator o.blockRestartInterval es = .ok b) :
    b.currentSizeEstimate ≤ file.length := by
  obtain ⟨-, b', hb', hs⟩ := hw
  obtain rfl := Except.ok.inj (hb.symm.trans hb')
  rw [← finish_length]
  exact hs.size_le

theorem LaidOut.blocksFit {o : Options} {file : Bytes} {es : List (Bytes × Bytes)} {ds : List Part}
    {metaIndexBlock indexBlock : BlockBuilder}
    (hl : LaidOut ⟨fun _ => none, fun _ => none⟩ o file es ds metaIndexBlock indexBlock)
    (hlen : file.length < 2 ^ 32) : BlocksFit o ds metaIndexBlock indexBlock := by
  obtain ⟨front, footer, hfile, hmeta, hindex⟩ := hl.footer
  have hmeta := hmeta.append footer.encodeTo
  have hindex := hindex.append footer.encodeTo
  rw [← hfile] at hmeta hindex
  refine ⟨?_, ?_, fun p hp b hb => ((hl.data p hp).size_le hb).trans_lt hlen⟩
  · rw [← finish_length]
    exact hmeta.size_le.trans_lt hlen
  · rw [← finish_length]
    exact hindex.size_le.trans_lt hlen

/-- The bloom filter policy of the wrapper with the name of the engine's. -/
def bloomPolicy (bitsPerKey : CInt) (available : ℕ) : FilterPolicy where
  toEngineFilterPolicy := FilterBlock.filterPolicyFacade
    (FilterBlock.dveBloomFilterPolicy (newBloomFilterPolicy 0 bitsPerKey) available)
  name := utf8 "leveldb.BuiltinBloomFilter2"

/-- Two blocks with a filter, stored as they are because there is no Snappy. -/
theorem table_iterates_three :
    let z : Snappy := ⟨fun _ => none, fun _ => none⟩
    let o : Options := ⟨bytewiseComparator, 16, 2, .kSnappyCompression, some (bloomPolicy 10 4096)⟩
    let es : List (Bytes × Bytes) := [([1], [7]), ([1, 2], [8, 8]), ([3], [])]
    ∃ r indexBlock filter, build (fun _ => .ok) z o es = .ok r ∧ r.status = .ok ∧
      openTable z true o.filterPolicy r.file = .ok (.inr ⟨indexBlock, filter⟩) ∧
      (TwoLevel.engineIterator (Block.engineIterator bytewiseComparator)
        (Block.engineIterator bytewiseComparator) (blockReader z true r.file) 4).Answers
        byteValues es 3 (TwoLevel.make indexBlock.newIterator)
        [.seekToFirst, .next, .seek [2], .prev, .prev] := by
  intro z o es
  have hz : z.Lossless := fun _ _ h => by cases h
  have hsorted : es.Pairwise fun x x' => byteValues x.1 < byteValues x'.1 := by decide
  have hread := table_iterates (o := o) bytewiseComparator_orders bytewiseComparator_shortens
    (by decide) hz (fun _ _ => trivial) hsorted fun _ => .ok
  have hsmall : ((build (fun _ => .ok) z o es).toOption.any
      fun r => decide (r.file.length < 2 ^ 32)) = true := by decide +kernel
  cases hr : build (fun _ => .ok) z o es with
  | error s =>
    rw [hr] at hsmall
    cases hsmall
  | ok r =>
    rw [hr] at hread hsmall
    obtain ⟨hstatus, hread⟩ := hread
    have hok : r.status = .ok := hstatus fun _ => rfl
    have hlen : r.file.length < 2 ^ 32 := of_decide_eq_true hsmall
    obtain ⟨ds, metaIndexBlock, indexBlock, hlaid, hopen⟩ := hread hok (hlen.trans (by norm_num))
    obtain ⟨filter, htable, hanswers⟩ := hopen (hlaid.blocksFit hlen) o.filterPolicy true true
    refine ⟨r, _, filter, rfl, hok, htable, hanswers 4 (by decide) _ fun m _ => ?_⟩
    cases m <;> trivial

end Bytewise

end TableFormat

end DVELevelDB
