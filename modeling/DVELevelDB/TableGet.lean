import DVELevelDB.TableReading

/-! # Lookups in a table

`Table::InternalGet` goes to the one block that can have the key, unless the filter rules it out.
-/

namespace DVELevelDB

namespace TableFormat

open Coding Positions BlockFormat
open FilterBlock (FilterBlockReader)
open Stops (Ensures)

def ruledOut (filter : Option (FilterPolicy × FilterBlockReader)) (handleValue k : Bytes) : Bool :=
  match filter, BlockHandle.decodeFrom handleValue with
  | some (policy, reader), some (handle, _) =>
    !reader.keyMayMatch policy.toEngineFilterPolicy handle.offset k
  | _, _ => false

/-- `Table::InternalGet`: the status, and what `handle_result` is called with. -/
def internalGet (z : Snappy) (verifyChecksums : Bool) (c : Comparator) (table : OpenedTable)
    (file k : Bytes) : Exec (Status × Option (Bytes × Bytes)) := do
  let iterator := Block.engineIterator c
  let iiter ← iterator.seek k table.indexBlock.newIterator
  if iterator.valid iiter then
    let handleValue ← iterator.value iiter
    if ruledOut table.filter handleValue k then
      return (iterator.status iiter, none)
    else
      let blockIter ← iterator.seek k (blockReader z verifyChecksums file handleValue)
      let found ← iterator.current blockIter
      let s := iterator.status blockIter
      return (if s.isOk then iterator.status iiter else s, found)
  else
    return (iterator.status iiter, none)

section Lookup

variable {κ : Type*} [LinearOrder κ] {D : Bytes → Prop} {rank : Bytes → κ}
  {z : Snappy} {o : Options} {r : Rep} {ds : List Part} {file k : Bytes}
  {es : List (Bytes × Bytes)} {e : Bytes × Bytes}
  {filter : Option (FilterPolicy × FilterBlockReader)}

structure FirstFrom (rank : Bytes → κ) (k : Bytes) (es : List (Bytes × Bytes))
    (e : Bytes × Bytes) : Prop where
  mem : e ∈ es
  from_key : rank k ≤ rank e.1
  first : ∀ x ∈ es, rank k ≤ rank x.1 → rank e.1 ≤ rank x.1

theorem current_seek {l : List (Bytes × Bytes)}
    (hsorted : l.Pairwise fun x x' => rank x.1 < rank x'.1) :
    l[ahead (EngineIterator.before rank k) l]? = some e ↔ FirstFrom rank k l e := by
  have hascending : Positions.Ascending (fun x : Bytes × Bytes => rank x.1) l := hsorted
  have hdownward : Downward (fun x : Bytes × Bytes => rank x.1) (EngineIterator.before rank k) :=
    downward_lt (rank k)
  rw [ahead_eq_some hascending hdownward]
  constructor
  · rintro ⟨hmem, hfrom, hfirst⟩
    refine ⟨hmem, not_lt.mp (of_decide_eq_false hfrom), fun x hx hle => hfirst x hx ?_⟩
    exact decide_eq_false (not_lt.mpr hle)
  · rintro ⟨hmem, hfrom, hfirst⟩
    refine ⟨hmem, decide_eq_false (not_lt.mpr hfrom), fun x hx hq => hfirst x hx ?_⟩
    exact not_lt.mp (of_decide_eq_false hq)

/-- No key that the comparator makes for the index is between a key and an entry behind it. -/
def Unseparated (c : Comparator) (rank : Bytes → κ) (k : Bytes) (es : List (Bytes × Bytes))
    (e : Bytes × Bytes) : Prop :=
  ∀ x ∈ es, rank x.1 < rank k → ∀ s, c.findShortestSeparator x.1 e.1 = .ok s → rank s < rank k

theorem firstFrom_of_eq (he : e ∈ es) (heq : rank e.1 = rank k) : FirstFrom rank k es e :=
  ⟨he, heq.ge, fun _ _ hle => heq.trans_le hle⟩

theorem unseparated_of_eq {c : Comparator} (hs : Shortens c D rank) (hD : ∀ x ∈ es, D x.1)
    (he : e ∈ es) (heq : rank e.1 = rank k) : Unseparated c rank k es e := by
  intro x hx hlt s hsep
  obtain ⟨s', hsep', -, -, hbelow⟩ := hs.separator x.1 e.1 (hD x hx) (hD e he) (heq ▸ hlt)
  obtain rfl := Except.ok.inj (hsep.symm.trans hsep')
  exact heq ▸ hbelow

/-- The key of a block is not between a key and the first entry at or after it. -/
theorem Holds.not_between (h : Holds D rank z o r ds none [])
    (hseparators : Separators o rank ds (entries ds none [])) {p : Part} (hp : p ∈ ds)
    (hupper : rank k ≤ rank p.key) (hfirst : FirstFrom rank k (entries ds none []) e)
    (hclose : Unseparated o.comparator rank k (entries ds none []) e) :
    ¬ rank p.key < rank e.1 := by
  intro hlt
  obtain ⟨x, hx, hsep⟩ := hseparators p hp e
    ⟨hfirst.mem, hlt, fun y hy hbehind => hfirst.first y hy (hupper.trans hbehind.le)⟩
  have hmem : x ∈ entries ds none [] := mem_entries.mpr ⟨p, hp, hx⟩
  have hbefore : rank x.1 < rank k := by
    by_contra hle
    have hfar := hfirst.first x hmem (not_lt.mp hle)
    exact absurd (hfar.trans ((h.parts p hp).2 x hx)) (not_le.mpr hlt)
  exact absurd (hclose x hmem hbefore _ hsep) (not_lt.mpr hupper)

/-- A lookup finds the first entry at or after the key, or nothing. It finds nothing where the index
or the filter is in between. -/
theorem Holds.internalGet_eq (h : Holds D rank z o r ds none [])
    (ho : o.comparator.OrdersOn D rank) (hpos : 0 < o.blockRestartInterval) {more : Bytes}
    (hlen : (r.file ++ more).length < 2 ^ 64) {metaIndexBlock : BlockBuilder}
    (hfit : BlocksFit o ds metaIndexBlock r.indexBlock) (hD : ∀ x ∈ entries ds none [], D x.1)
    (hsorted : (entries ds none []).Pairwise fun x x' => rank x.1 < rank x'.1)
    (hseparators : Separators o rank ds (entries ds none [])) (verifyChecksums : Bool)
    (filter : Option (FilterPolicy × FilterBlockReader)) (hk : D k) :
    ∃ found, internalGet z verifyChecksums o.comparator
        ⟨.make r.indexBlock.finish.buffer, filter⟩ (r.file ++ more) k = .ok (.ok, found) ∧
      (∀ e, found = some e → FirstFrom rank k (entries ds none []) e) ∧
      ∀ p ∈ ds, ∀ e ∈ p.entries, FirstFrom rank k (entries ds none []) e →
        Unseparated o.comparator rank k (entries ds none []) e →
          ruledOut filter p.handle.encodeTo k = false → found = some e := by
  have hix := h.indexed ho hpos hlen hfit hD hsorted verifyChecksums
  have hfile : r.file.length < 2 ^ 64 := by
    rw [List.length_append] at hlen
    omega
  have hcontent : ∀ p ∈ ds, contentOf ds p.indexEntry.2 = p.entries := fun p hp =>
    h.contentOf_eq hfile hp
  obtain ⟨iiter, hseek, hat⟩ := hix.index.seek (h.indexOpened ho hfit) hk
  have hstatus := hix.index.status iiter _ hat
  rw [internalGet]
  simp only [hseek, Stops.ok_bind]
  cases hn : (ds.map Part.indexEntry)[ahead (EngineIterator.before rank k)
      (ds.map Part.indexEntry)]? with
  | none =>
    rw [hix.index.at_none hat hn, hstatus]
    refine ⟨none, rfl, fun e he => (by cases he), fun p hp e he hfirst _ _ => ?_⟩
    have hbelow := hix.none_behind hn (List.mem_map_of_mem hp) (hcontent p hp ▸ he)
    exact absurd hbelow (not_lt.mpr hfirst.from_key)
  | some ie =>
    obtain ⟨hvalid, -, hvalue⟩ := hix.index.at_some hat hn
    have hie := List.mem_of_getElem? hn
    have hupper : rank k ≤ rank ie.1 := not_lt.mp
      (of_decide_eq_false (at_takeWhile hn : EngineIterator.before rank k ie = false))
    have hplace : ∀ p ∈ ds, ∀ e ∈ p.entries, rank k ≤ rank e.1 →
        p.indexEntry = ie ∨ rank ie.1 < rank e.1 := fun p hp e he hle =>
      hix.at_or_behind hn (List.mem_map_of_mem hp) (hcontent p hp ▸ he) hle
    obtain ⟨p₀, hp₀, rfl⟩ := List.mem_map.mp hie
    have hsub := sublist_entries hp₀
    have hsame : ∀ p ∈ ds, ∀ e ∈ p.entries, FirstFrom rank k (entries ds none []) e →
        Unseparated o.comparator rank k (entries ds none []) e →
          p.indexEntry = p₀.indexEntry := fun p hp e he hfirst hclose =>
      (hplace p hp e he hfirst.from_key).resolve_right
        (h.not_between hseparators hp₀ hupper hfirst hclose)
    rw [hvalid, hvalue]
    simp only [if_true, Stops.ok_bind]
    cases hout : ruledOut filter p₀.indexEntry.2 k with
    | true =>
      rw [hstatus]
      refine ⟨none, rfl, fun e he => (by cases he), fun p hp e he hfirst hclose hspared => ?_⟩
      rw [← hsame p hp e he hfirst hclose] at hout
      exact absurd (hspared.symm.trans hout) Bool.false_ne_true
    | false =>
      obtain ⟨q, hq⟩ := hix.opened _ hie
      obtain ⟨blockIter, hblock, hat'⟩ := (hix.block _ hie).seek hq hk
      have hcurrent := (hix.block _ hie).current blockIter _ hat'
      rw [hcontent p₀ hp₀] at hcurrent
      have hentries : ∀ p ∈ ds, p.indexEntry = p₀.indexEntry → p.entries = p₀.entries := by
        intro p hp heq
        rw [← hcontent p hp, heq, hcontent p₀ hp₀]
      simp only [Bool.false_eq_true, if_false, hblock, Stops.ok_bind, hcurrent,
        (hix.block _ hie).status blockIter _ hat', Status.isOk_ok, if_true, hstatus]
      refine ⟨_, rfl, fun e he => ?_, fun p hp e he hfirst hclose _ => ?_⟩
      · have hfirst := (current_seek (hsorted.sublist hsub)).mp he
        refine ⟨hsub.subset hfirst.mem, hfirst.from_key, fun x hx hle => ?_⟩
        obtain ⟨p, hp, hx⟩ := mem_entries.mp hx
        rcases hplace p hp x hx hle with heq | hlt
        · exact hfirst.first x (hentries p hp heq ▸ hx) hle
        · exact (hix.upper _ hie e (hcontent p₀ hp₀ ▸ hfirst.mem)).trans hlt.le
      · rw [hentries p hp (hsame p hp e he hfirst hclose)] at he
        exact (current_seek (hsorted.sublist hsub)).mpr
          ⟨he, hfirst.from_key, fun x hx => hfirst.first x (hsub.subset hx)⟩

def FilterFits (filter : Option (FilterPolicy × FilterBlockReader)) (es : List (Bytes × Bytes)) :
    Prop :=
  ∀ policy reader, filter = some (policy, reader) →
    FilterBlock.Keeps policy.toEngineFilterPolicy ∧ es.length < 2 ^ 31 ∧
      reader.data.length < 2 ^ 32

def NamesAgree (o : Options) (filterPolicy : Option FilterPolicy) : Prop :=
  ∀ p policy, o.filterPolicy = some p → filterPolicy = some policy → p.name = policy.name →
    p = policy

/-- The filter does not tell two keys apart. -/
def Alike (filterPolicy : Option FilterPolicy) (key k : Bytes) : Prop :=
  ∀ policy, filterPolicy = some policy → ∀ filter, policy.keyMayMatch key filter = true →
    policy.keyMayMatch k filter = true

theorem Finds.of_same {added : List (ℕ × Bytes)} {filterPolicy : Option FilterPolicy}
    (hf : Finds o added filterPolicy filter) (hsame : filterPolicy = o.filterPolicy) :
    filter.map Prod.fst = filterPolicy := by
  subst hsame
  cases hpolicy : o.filterPolicy with
  | none =>
    rw [hf.unknown fun p _ hp => absurd (hpolicy.symm.trans hp) (Option.some_ne_none p).symm]
    rfl
  | some p =>
    obtain ⟨contents, hfilter, -⟩ := hf.found p p hpolicy hpolicy rfl
    rw [hfilter]
    rfl

theorem Finds.spares {added : List (ℕ × Bytes)} {filterPolicy : Option FilterPolicy}
    (hf : Finds o added filterPolicy filter) (hnames : NamesAgree o filterPolicy)
    (hfit : FilterFits filter es) (hcount : added.length = es.length) {h : BlockHandle}
    (hfits : h.Fits) {key : Bytes} (hadded : (h.offset, key) ∈ added)
    (halike : Alike filterPolicy key k) : ruledOut filter h.encodeTo k = false := by
  cases hfilter : filter with
  | none => rfl
  | some pair =>
    obtain ⟨policy, reader⟩ := pair
    have hdecode := BlockHandle.decodeFrom_encodeTo hfits []
    rw [List.append_nil] at hdecode
    obtain ⟨p, policy', hp, hpolicy', hname⟩ : ∃ p policy', o.filterPolicy = some p ∧
        filterPolicy = some policy' ∧ p.name = policy'.name := by
      by_contra hnone
      have hunknown := hf.unknown fun p policy' hp hpolicy' hname =>
        hnone ⟨p, policy', hp, hpolicy', hname⟩
      rw [hfilter] at hunknown
      cases hunknown
    obtain ⟨contents, heq, hkept⟩ := hf.found p policy' hp hpolicy' hname
    obtain rfl := hnames p policy' hp hpolicy' hname
    obtain ⟨rfl, rfl⟩ := Prod.mk.inj (Option.some.inj (hfilter.symm.trans heq))
    obtain ⟨hkeeps, hlength, hsize⟩ := hfit policy _ hfilter
    obtain ⟨groups, hfinished⟩ := hkept hkeeps (hcount.trans_lt hlength)
    have hmatch : (FilterBlockReader.ofContents contents).keyMayMatch policy.toEngineFilterPolicy
        h.offset key = true := by
      rcases FilterBlockReader.ofContents_data contents with hdata | hempty
      · rw [hdata] at hsize
        exact hfinished.keyMayMatch hsize hadded
      · exact FilterBlockReader.keyMayMatch_of_empty hempty _ _
    have hmatch' := FilterBlockReader.keyMayMatch_of_key (halike policy hpolicy') hmatch
    simp only [ruledOut, hdecode, hmatch', Bool.not_true]

theorem Finished.gets (hf : Finished D rank z o file es) (ho : o.comparator.OrdersOn D rank)
    (hpos : 0 < o.blockRestartInterval) (hD : ∀ x ∈ es, D x.1)
    (hsorted : es.Pairwise fun x x' => rank x.1 < rank x'.1) (hlen : file.length < 2 ^ 64) :
    ∃ ds metaIndexBlock indexBlock, LaidOut z o file es ds metaIndexBlock indexBlock ∧
      (BlocksFit o ds metaIndexBlock indexBlock →
        ∀ filterPolicy paranoidChecks verifyChecksums, NamesAgree o filterPolicy →
          ∃ table, openTable z paranoidChecks filterPolicy file = .ok (.inr table) ∧
            (filterPolicy = o.filterPolicy → table.filter.map Prod.fst = filterPolicy) ∧
            ∀ k, D k → ∃ found,
              internalGet z verifyChecksums o.comparator table file k = .ok (.ok, found) ∧
              (∀ e, found = some e → FirstFrom rank k es e) ∧
              (FilterFits table.filter es → ∀ e, FirstFrom rank k es e →
                Unseparated o.comparator rank k es e → Alike filterPolicy e.1 k →
                  found = some e)) := by
  obtain ⟨r', ds, metaIndexBlock, more, hh, hfile, hl, hseparators⟩ := hf
  refine ⟨ds, metaIndexBlock, r'.indexBlock, hl, ?_⟩
  intro hfit filterPolicy paranoidChecks verifyChecksums hnames
  obtain ⟨filter, hopen, hfinds⟩ := hl.opens hpos hfit hlen filterPolicy paranoidChecks
  have hall : entries ds none [] = es := by
    rw [← hl.entries]
    simp [entries, lastEntries]
  have hcount : (ds.flatMap fun p => keysAt p.handle.offset p.entries).length = es.length := by
    rw [← hl.entries]
    simp [keysAt, List.length_flatMap]
  refine ⟨_, hopen, fun hsame => hfinds.of_same hsame, fun k hk => ?_⟩
  rw [hfile] at hlen ⊢
  subst hall
  obtain ⟨found, hget, hfirst, hfound⟩ := hh.internalGet_eq ho hpos hlen hfit hD hsorted
    hseparators verifyChecksums filter hk
  refine ⟨found, hget, hfirst, fun hkept e he hclose halike => ?_⟩
  obtain ⟨p, hp, hmem⟩ := mem_entries.mp he.mem
  refine hfound p hp e hmem he hclose ?_
  obtain ⟨⟨-, b, -, hat⟩, -⟩ := hh.parts p hp
  refine hfinds.spares hnames hkept hcount ((hat.append more).fits hlen) ?_ halike
  exact List.mem_flatMap.mpr ⟨p, hp, List.mem_map_of_mem hmem⟩

/-- A lookup in a finished table finds the first entry at or after the key, or nothing. With a
filter and without, it finds the entry if neither the index nor the policy tells the keys apart. -/
theorem table_gets (ho : o.comparator.OrdersOn D rank) (hs : Shortens o.comparator D rank)
    (hpos : 0 < o.blockRestartInterval) (hz : z.Lossless) (hD : ∀ x ∈ es, D x.1)
    (hsorted : es.Pairwise fun x x' => rank x.1 < rank x'.1) (io : ℕ → Status) :
    Ensures (Refuses o es) (build io z o es) fun r => r.status = .ok → r.file.length < 2 ^ 64 →
      ∃ ds metaIndexBlock indexBlock, LaidOut z o r.file es ds metaIndexBlock indexBlock ∧
        (BlocksFit o ds metaIndexBlock indexBlock →
          ∀ filterPolicy paranoidChecks verifyChecksums, NamesAgree o filterPolicy →
            ∃ table, openTable z paranoidChecks filterPolicy r.file = .ok (.inr table) ∧
              (filterPolicy = o.filterPolicy → table.filter.map Prod.fst = filterPolicy) ∧
              ∀ k, D k → ∃ found,
                internalGet z verifyChecksums o.comparator table r.file k = .ok (.ok, found) ∧
                (∀ e, found = some e → FirstFrom rank k es e) ∧
                (FilterFits table.filter es → ∀ e, FirstFrom rank k es e →
                  Unseparated o.comparator rank k es e → Alike filterPolicy e.1 k →
                    found = some e)) := by
  exact (build_spec ho hs hpos hz hD hsorted io).mono fun r hfinished hok hlen =>
    (hfinished hok).gets ho hpos hD hsorted hlen

theorem table_gets_three :
    let z : Snappy := ⟨fun _ => none, fun _ => none⟩
    let o : Options := ⟨bytewiseComparator, 16, 2, .kSnappyCompression, some (bloomPolicy 10 4096)⟩
    let es : List (Bytes × Bytes) := [([1], [7]), ([1, 2], [8, 8]), ([3], [])]
    ∃ r table reader, build (fun _ => .ok) z o es = .ok r ∧
      openTable z true o.filterPolicy r.file = .ok (.inr table) ∧
      table.filter = some (bloomPolicy 10 4096, reader) ∧
      internalGet z true bytewiseComparator table r.file [1, 2] =
        .ok (.ok, some ([1, 2], [8, 8])) ∧
      internalGet z true bytewiseComparator table r.file [3] = .ok (.ok, some ([3], [])) := by
  intro z o es
  have hz : z.Lossless := fun _ _ h => by cases h
  have hsorted : es.Pairwise fun x x' => byteValues x.1 < byteValues x'.1 := by decide
  have hread := table_gets (o := o) bytewiseComparator_orders bytewiseComparator_shortens
    (by decide) hz (fun _ _ => trivial) hsorted fun _ => .ok
  have hsmall : ((build (fun _ => .ok) z o es).toOption.any fun r =>
      decide (r.status = .ok ∧ r.file.length < 2 ^ 32) &&
        (openTable z true o.filterPolicy r.file).toOption.any (Sum.elim (fun _ => false)
          fun table => table.filter.all fun f => decide (f.2.data.length < 2 ^ 32))) = true := by
    decide +kernel
  cases hr : build (fun _ => .ok) z o es with
  | error s =>
    rw [hr] at hsmall
    cases hsmall
  | ok r =>
    rw [hr] at hread hsmall
    obtain ⟨hwritten, hfilter⟩ := Bool.and_eq_true_iff.mp hsmall
    obtain ⟨hok, hlen⟩ := of_decide_eq_true hwritten
    obtain ⟨ds, metaIndexBlock, indexBlock, hlaid, hopen⟩ := hread hok (hlen.trans (by norm_num))
    have hfit := hlaid.blocksFit hlen
    obtain ⟨table, htable, hpolicy, hget⟩ := hopen hfit o.filterPolicy true true
      fun p policy hp hpolicy _ => Option.some.inj (hp.symm.trans hpolicy)
    obtain ⟨⟨policy, reader⟩, hpair, rfl⟩ := Option.map_eq_some_iff.mp (hpolicy rfl)
    have hsize : reader.data.length < 2 ^ 32 := by
      rw [htable] at hfilter
      change (table.filter.all fun f => decide (f.2.data.length < 2 ^ 32)) = true at hfilter
      rw [hpair, Option.all_some] at hfilter
      exact of_decide_eq_true hfilter
    have hkept : FilterFits table.filter es := by
      intro policy reader' heq
      obtain ⟨rfl, rfl⟩ := Prod.mk.inj (Option.some.inj (hpair.symm.trans heq))
      obtain ⟨hk, hk30⟩ := probeCount_bounds 0 10
      exact ⟨FilterBlock.facade_keeps hk hk30, by decide, hsize⟩
    obtain ⟨found, hfound, -, hexact⟩ := hget [1, 2] trivial
    obtain ⟨found', hfound', -, hexact'⟩ := hget [3] trivial
    have htwo : ([1, 2], [8, 8]) ∈ es := by decide
    have hthree : ([3], []) ∈ es := by decide
    obtain rfl := hexact hkept _ (firstFrom_of_eq htwo rfl)
      (unseparated_of_eq bytewiseComparator_shortens (fun _ _ => trivial) htwo rfl)
      fun _ _ _ hmatch => hmatch
    obtain rfl := hexact' hkept _ (firstFrom_of_eq hthree rfl)
      (unseparated_of_eq bytewiseComparator_shortens (fun _ _ => trivial) hthree rfl)
      fun _ _ _ hmatch => hmatch
    exact ⟨r, table, reader, rfl, htable, hpair, hfound, hfound'⟩

end Lookup

end TableFormat

end DVELevelDB
