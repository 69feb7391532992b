import DVELevelDB.BlockFormat

/-! # The merging iterator in both directions

Going forward, all children are at their first entries behind the current one; going backward, at
their last ones before it. A change of direction repositions them.
-/

namespace DVELevelDB

open Positions

inductive Direction where
  | forward
  | reverse
  deriving DecidableEq

/-- `MergingIterator` over children of a kind; `current` is the index of a child. -/
structure Merger (σ : Type) where
  children : List σ
  current : Option ℕ
  direction : Direction

namespace Merger

section Definitions

variable {σ : Type} (child : EngineIterator σ) (c : Comparator)

def make (children : List σ) : Merger σ := ⟨children, none, .forward⟩

def currentChild (it : Merger σ) : Exec (ℕ × σ) :=
  match it.current.bind fun i => it.children[i]?.map fun s => (i, s) with
  | some r => return r
  | none => throw .assertion

/-- A turn of the loop of `FindSmallest` or `FindLargest`; `best` is the best child so far and its
key. -/
def consider (better : Ordering) (best : Option (ℕ × Bytes)) (candidate : σ × ℕ) :
    Exec (Option (ℕ × Bytes)) := do
  if child.valid candidate.1 then
    let key ← child.key candidate.1
    match best with
    | none => return some (candidate.2, key)
    | some (i, bestKey) =>
      return if (← c.compare key bestKey) == better then some (candidate.2, key)
        else some (i, bestKey)
  else
    return best

def findSmallest (it : Merger σ) : Exec (Merger σ) := do
  let best ← it.children.zipIdx.foldlM (consider child c .lt) none
  return { it with current := best.map (·.1) }

def findLargest (it : Merger σ) : Exec (Merger σ) := do
  let best ← it.children.zipIdx.reverse.foldlM (consider child c .gt) none
  return { it with current := best.map (·.1) }

def update (f : ℕ → σ → Exec σ) : ℕ → List σ → Exec (List σ)
  | _, [] => return []
  | k, s :: children => do
    let s ← f k s
    return s :: (← update f (k + 1) children)

def seekToFirst (it : Merger σ) : Exec (Merger σ) := do
  let children ← update (fun _ => child.seekToFirst) 0 it.children
  findSmallest child c { it with children, direction := .forward }

def seekToLast (it : Merger σ) : Exec (Merger σ) := do
  let children ← update (fun _ => child.seekToLast) 0 it.children
  findLargest child c { it with children, direction := .reverse }

def seek (target : Bytes) (it : Merger σ) : Exec (Merger σ) := do
  let children ← update (fun _ => child.seek target) 0 it.children
  findSmallest child c { it with children, direction := .forward }

def seekAfter (key : Bytes) (s : σ) : Exec σ := do
  let s ← child.seek key s
  if child.valid s then
    if (← c.compare key (← child.key s)) == .eq then
      child.next s
    else
      return s
  else
    return s

def seekBefore (key : Bytes) (s : σ) : Exec σ := do
  let s ← child.seek key s
  if child.valid s then
    child.prev s
  else
    child.seekToLast s

/-- When the direction changes, all but the `i`-th child are repositioned. -/
def turn (direction : Direction) (reposition : Bytes → σ → Exec σ) (i : ℕ) (s : σ)
    (it : Merger σ) : Exec (List σ) := do
  if it.direction = direction then
    return it.children
  else
    let key ← child.key s
    update (fun j s => if j = i then return s else reposition key s) 0 it.children

def next (it : Merger σ) : Exec (Merger σ) := do
  let (i, s) ← it.currentChild
  let children ← it.turn child .forward (seekAfter child c) i s
  let children ← update (fun j s => if j = i then child.next s else return s) 0 children
  findSmallest child c { it with children, direction := .forward }

def prev (it : Merger σ) : Exec (Merger σ) := do
  let (i, s) ← it.currentChild
  let children ← it.turn child .reverse (seekBefore child) i s
  let children ← update (fun j s => if j = i then child.prev s else return s) 0 children
  findLargest child c { it with children, direction := .reverse }

def status (it : Merger σ) : Status :=
  ((it.children.map child.status).find? fun s => !s.isOk).getD .ok

def engineIterator : EngineIterator (Merger σ) where
  valid it := it.current.isSome
  key it := do child.key (← it.currentChild).2
  value it := do child.value (← it.currentChild).2
  status it := it.status child
  seekToFirst it := it.seekToFirst child c
  seekToLast it := it.seekToLast child c
  seek target it := it.seek child c target
  next it := it.next child c
  prev it := it.prev child c

end Definitions

section Search

variable {σ : Type} {child : EngineIterator σ} {c : Comparator} {D : Bytes → Prop}
  {κ : Type*} [LinearOrder κ]

/-- The comparator finds `better` where `rank` is smaller. -/
def Prefers (c : Comparator) (D : Bytes → Prop) (rank : Bytes → κ) (better : Ordering) : Prop :=
  ∀ a b, D a → D b → ∃ o, c.compare a b = .ok o ∧ ((o == better) = true ↔ rank a < rank b)

theorem prefers_lt {rank : Bytes → κ} (ho : c.OrdersOn D rank) : Prefers c D rank .lt := by
  intro a b ha hb
  refine ⟨_, ho.compare_eq a b ha hb, ?_⟩
  rw [beq_iff_eq]
  exact cmp_eq_lt_iff _ _

theorem prefers_gt {rank : Bytes → κ} (ho : c.OrdersOn D rank) :
    Prefers c D (fun k => OrderDual.toDual (rank k)) .gt := by
  intro a b ha hb
  refine ⟨_, ho.compare_eq a b ha hb, ?_⟩
  rw [beq_iff_eq, OrderDual.toDual_lt_toDual]
  exact cmp_eq_gt_iff _ _

variable {rank : Bytes → κ} {better : Ordering} {at? : ℕ → Option (Bytes × Bytes)}

/-- The best child so far is at an entry, and none of the entries seen is better. -/
structure Best (rank : Bytes → κ) (at? : ℕ → Option (Bytes × Bytes)) (seen : List ℕ)
    (best : Option (ℕ × Bytes)) : Prop where
  missing : best = none → ∀ j ∈ seen, at? j = none
  found : ∀ i key, best = some (i, key) → i ∈ seen ∧ ∃ e, at? i = some e ∧ e.1 = key ∧
    ∀ j ∈ seen, ∀ b, at? j = some b → rank e.1 ≤ rank b.1

theorem consider_spec (hp : Prefers c D rank better) (hD : ∀ j e, at? j = some e → D e.1)
    {seen : List ℕ} {best : Option (ℕ × Bytes)} (h : Best rank at? seen best) {s : σ} {j : ℕ}
    (hs : child.current s = .ok (at? j)) :
    ∃ best', consider child c better best (s, j) = .ok best' ∧
      Best rank at? (seen ++ [j]) best' := by
  cases hj : at? j with
  | none =>
    rw [hj] at hs
    refine ⟨best, ?_, fun hbest i hi => ?_, fun i key hbest => ?_⟩
    · rw [consider, EngineIterator.of_current_none hs]
      rfl
    · rcases List.mem_append.mp hi with hi | hi
      · exact h.missing hbest i hi
      · rw [List.mem_singleton.mp hi, hj]
    · obtain ⟨hi, e, he, hkey, hall⟩ := h.found i key hbest
      refine ⟨List.mem_append_left _ hi, e, he, hkey, fun j' hj' b hb => ?_⟩
      rcases List.mem_append.mp hj' with hj' | hj'
      · exact hall j' hj' b hb
      · rw [List.mem_singleton.mp hj', hj] at hb
        cases hb
  | some e =>
    rw [hj] at hs
    obtain ⟨hvalid, hkey, -⟩ := EngineIterator.of_current_some hs
    have hmem : j ∈ seen ++ [j] := List.mem_append_right _ List.mem_cons_self
    rw [consider, hvalid, if_pos rfl, hkey, Stops.ok_bind]
    cases best with
    | none =>
      refine ⟨some (j, e.1), rfl, fun hbest => (Option.some_ne_none _ hbest).elim,
        fun i key hbest => ?_⟩
      obtain ⟨rfl, rfl⟩ := Prod.mk.inj (Option.some.inj hbest)
      refine ⟨hmem, e, hj, rfl, fun j' hj' b hb => ?_⟩
      rcases List.mem_append.mp hj' with hj' | hj'
      · rw [h.missing rfl j' hj'] at hb
        cases hb
      · rw [List.mem_singleton.mp hj', hj] at hb
        obtain rfl := Option.some.inj hb
        exact le_rfl
    | some r =>
      obtain ⟨i, bestKey⟩ := r
      obtain ⟨hi, e', he', hkey', hall⟩ := h.found i bestKey rfl
      obtain ⟨o, hcompare, hbetter⟩ := hp e.1 bestKey (hD j e hj) (hkey' ▸ hD i e' he')
      dsimp only
      rw [hcompare, Stops.ok_bind]
      by_cases hlt : (o == better) = true
      · rw [if_pos hlt]
        have hless := hbetter.mp hlt
        refine ⟨some (j, e.1), rfl, fun hbest => (Option.some_ne_none _ hbest).elim,
          fun i' key hbest => ?_⟩
        obtain ⟨rfl, rfl⟩ := Prod.mk.inj (Option.some.inj hbest)
        refine ⟨hmem, e, hj, rfl, fun j' hj' b hb => ?_⟩
        rcases List.mem_append.mp hj' with hj' | hj'
        · rw [← hkey'] at hless
          exact hless.le.trans (hall j' hj' b hb)
        · rw [List.mem_singleton.mp hj', hj] at hb
          obtain rfl := Option.some.inj hb
          exact le_rfl
      · rw [if_neg hlt]
        have hge := not_lt.mp (mt hbetter.mpr hlt)
        refine ⟨some (i, bestKey), rfl, fun hbest => (Option.some_ne_none _ hbest).elim,
          fun i' key hbest => ?_⟩
        obtain ⟨rfl, rfl⟩ := Prod.mk.inj (Option.some.inj hbest)
        refine ⟨List.mem_append_left _ hi, e', he', hkey', fun j' hj' b hb => ?_⟩
        rcases List.mem_append.mp hj' with hj' | hj'
        · exact hall j' hj' b hb
        · rw [List.mem_singleton.mp hj', hj] at hb
          obtain rfl := Option.some.inj hb
          rw [hkey']
          exact hge

theorem search_spec (hp : Prefers c D rank better) (hD : ∀ j e, at? j = some e → D e.1)
    {candidates : List (σ × ℕ)} (hs : ∀ r ∈ candidates, child.current r.1 = .ok (at? r.2)) :
    ∃ best, candidates.foldlM (consider child c better) none = .ok best ∧
      Best rank at? (candidates.map (·.2)) best := by
  have hrun : ∀ (candidates : List (σ × ℕ)) (seen : List ℕ) (best : Option (ℕ × Bytes)),
      (∀ r ∈ candidates, child.current r.1 = .ok (at? r.2)) → Best rank at? seen best →
      ∃ best', candidates.foldlM (consider child c better) best = .ok best' ∧
        Best rank at? (seen ++ candidates.map (·.2)) best' := by
    intro candidates
    induction candidates with
    | nil =>
      intro seen best _ h
      exact ⟨best, rfl, by rwa [List.map_nil, List.append_nil]⟩
    | cons r candidates ih =>
      intro seen best hs h
      obtain ⟨best₁, hstep, hbest⟩ := consider_spec hp hD h (hs r List.mem_cons_self)
      obtain ⟨best', hrest, hbest'⟩ := ih (seen ++ [r.2]) best₁
        (fun r' hr' => hs r' (List.mem_cons_of_mem _ hr')) hbest
      refine ⟨best', ?_, ?_⟩
      · rw [List.foldlM_cons, hstep]
        exact hrest
      · rwa [List.append_assoc] at hbest'
  exact hrun candidates [] none hs ⟨fun _ j hj => absurd hj List.not_mem_nil,
    fun i key h => (Option.some_ne_none _ h.symm).elim⟩

end Search

section Moves

variable {σ : Type} {child : EngineIterator σ} {c : Comparator} {D : Bytes → Prop}
  {κ : Type*} [LinearOrder κ] {rank : Bytes → κ} {R : List (Bytes × Bytes) → σ → ℕ → Prop}
  {lists : List (List (Bytes × Bytes))} {l : List (Bytes × Bytes)}

def keyRank (rank : Bytes → κ) (e : Bytes × Bytes) : κ := rank e.1

/-- The children go through sorted lists without common keys, and `l` is the merge of the lists. -/
structure Merges (child : EngineIterator σ) (D : Bytes → Prop) (rank : Bytes → κ)
    (R : List (Bytes × Bytes) → σ → ℕ → Prop) (lists : List (List (Bytes × Bytes)))
    (l : List (Bytes × Bytes)) : Prop where
  children : ∀ li ∈ lists, child.Represents D rank li (R li)
  ascending : ∀ li ∈ lists, Ascending (keyRank rank) li
  sorted : Ascending (keyRank rank) l
  perm : l.Perm lists.flatten
  keys : ∀ e ∈ l, D e.1

theorem Merges.mem (h : Merges child D rank R lists l) {li : List (Bytes × Bytes)}
    (hli : li ∈ lists) {e : Bytes × Bytes} (he : e ∈ li) : e ∈ l :=
  h.perm.mem_iff.mpr (List.mem_flatten.mpr ⟨li, hli, he⟩)

/-- No key is in two of the lists. -/
theorem Merges.rank_ne (h : Merges child D rank R lists l) {i j : ℕ}
    {li lj : List (Bytes × Bytes)} (hi : lists[i]? = some li) (hj : lists[j]? = some lj)
    (hij : j ≠ i) {e b : Bytes × Bytes} (he : e ∈ li) (hb : b ∈ lj) : rank b.1 ≠ rank e.1 := by
  have hne : l.Pairwise fun a b => rank a.1 ≠ rank b.1 := h.sorted.imp fun hlt => ne_of_lt hlt
  have hflat := (h.perm.pairwise_iff fun hab => Ne.symm hab).mp hne
  have hpairs := (List.pairwise_flatten.mp hflat).2
  obtain ⟨hi', rfl⟩ := List.getElem?_eq_some_iff.mp hi
  obtain ⟨hj', rfl⟩ := List.getElem?_eq_some_iff.mp hj
  rcases Nat.lt_or_gt_of_ne hij with hlt | hgt
  · exact List.pairwise_iff_getElem.mp hpairs j i hj' hi' hlt b hb e he
  · exact (List.pairwise_iff_getElem.mp hpairs i j hi' hj' hgt e he b hb).symm

def Stands (R : List (Bytes × Bytes) → σ → ℕ → Prop) (pos : List (Bytes × Bytes) → ℕ)
    (lists : List (List (Bytes × Bytes))) (children : List σ) : Prop :=
  List.Forall₂ (fun li s => R li s (pos li)) lists children

theorem update_spec {P P' : List (Bytes × Bytes) → σ → Prop} {children : List σ}
    (h : List.Forall₂ P lists children) {f : ℕ → σ → Exec σ} {k : ℕ}
    (hf : ∀ j lj s, lists[j]? = some lj → P lj s → ∃ s', f (k + j) s = .ok s' ∧ P' lj s') :
    ∃ children', update f k children = .ok children' ∧ List.Forall₂ P' lists children' := by
  induction h generalizing k with
  | nil => exact ⟨[], rfl, .nil⟩
  | cons hs _ ih =>
    obtain ⟨s', hs', hP⟩ := hf 0 _ _ rfl hs
    obtain ⟨children', hrest, hP'⟩ := ih (k := k + 1) fun j lj s hj hP => by
      rw [Nat.add_right_comm]
      exact hf (j + 1) lj s hj hP
    refine ⟨s' :: children', ?_, .cons hP hP'⟩
    rw [Nat.add_zero] at hs'
    rw [update, hs', Stops.ok_bind, hrest]
    rfl

theorem getElem?_of_forall₂ {P : List (Bytes × Bytes) → σ → Prop} {children : List σ}
    (h : List.Forall₂ P lists children) {i : ℕ} :
    (∀ li, lists[i]? = some li → ∃ s, children[i]? = some s ∧ P li s) ∧
      ∀ s, children[i]? = some s → ∃ li, lists[i]? = some li ∧ P li s := by
  induction h generalizing i with
  | nil =>
    constructor
    · intro li hi
      cases hi
    · intro s hs
      cases hs
  | cons hs _ ih =>
    cases i with
    | zero =>
      refine ⟨fun li hi => ?_, fun s hi => ?_⟩
      · obtain rfl := Option.some.inj hi
        exact ⟨_, rfl, hs⟩
      · obtain rfl := Option.some.inj hi
        exact ⟨_, rfl, hs⟩
    | succ i => exact ih

theorem find_spec (h : Merges child D rank R lists l) {κ' : Type*} [LinearOrder κ']
    {rank' : Bytes → κ'} {better : Ordering} (hp : Prefers c D rank' better)
    {pos : List (Bytes × Bytes) → ℕ} {children : List σ} (hs : Stands R pos lists children)
    {candidates : List (σ × ℕ)} (hc : ∀ r, r ∈ candidates ↔ r ∈ children.zipIdx) :
    ∃ best, candidates.foldlM (consider child c better) none = .ok best ∧
      (best = none → ∀ li ∈ lists, li[pos li]? = none) ∧
      ∀ i key, best = some (i, key) → ∃ li e, lists[i]? = some li ∧ li[pos li]? = some e ∧
        ∀ lj ∈ lists, ∀ b, lj[pos lj]? = some b → rank' e.1 ≤ rank' b.1 := by
  set at? : ℕ → Option (Bytes × Bytes) := fun j => (lists[j]?).bind fun lj => lj[pos lj]? with hat
  have hget : ∀ {j lj}, lists[j]? = some lj → at? j = lj[pos lj]? := fun hj => by
    rw [hat]
    dsimp only
    rw [hj]
    rfl
  have hD : ∀ j e, at? j = some e → D e.1 := by
    intro j e he
    obtain ⟨lj, hj, he⟩ := Option.bind_eq_some_iff.mp he
    exact h.keys e (h.mem (List.mem_of_getElem? hj) (List.mem_of_getElem? he))
  have hcurrent : ∀ r ∈ candidates, child.current r.1 = .ok (at? r.2) := by
    intro r hr
    have hr' := List.mem_zipIdx_iff_getElem?.mp ((hc r).mp hr)
    obtain ⟨lj, hj, hR⟩ := (getElem?_of_forall₂ hs).2 r.1 hr'
    rw [hget hj]
    exact (h.children lj (List.mem_of_getElem? hj)).current _ _ hR
  have hindex : ∀ j lj, lists[j]? = some lj → j ∈ candidates.map (·.2) := by
    intro j lj hj
    obtain ⟨s, hs', -⟩ := (getElem?_of_forall₂ hs).1 lj hj
    exact List.mem_map.mpr ⟨(s, j), (hc _).mpr (List.mem_zipIdx_iff_getElem?.mpr hs'), rfl⟩
  obtain ⟨best, hbest, hspec⟩ := search_spec hp hD hcurrent
  refine ⟨best, hbest, fun hnone li hli => ?_, fun i key hsome => ?_⟩
  · obtain ⟨j, hj⟩ := List.mem_iff_getElem?.mp hli
    rw [← hget hj]
    exact hspec.missing hnone j (hindex j li hj)
  · obtain ⟨-, e, he, -, hall⟩ := hspec.found i key hsome
    obtain ⟨li, hi, he⟩ := Option.bind_eq_some_iff.mp he
    refine ⟨li, e, hi, he, fun lj hlj b hb => ?_⟩
    obtain ⟨j, hj⟩ := List.mem_iff_getElem?.mp hlj
    exact hall j (hindex j lj hj) b (by rw [hget hj, hb])

/-- Where the children are when the current entry is `e`. -/
def frontier (rank : Bytes → κ) (e : Bytes × Bytes) : Direction → List (Bytes × Bytes) → ℕ
  | .forward => ahead fun b => keyRank rank b < keyRank rank e
  | .reverse => behind fun b => keyRank rank b ≤ keyRank rank e

/-- The iterator is at position `p` of the merge. -/
structure At (rank : Bytes → κ) (R : List (Bytes × Bytes) → σ → ℕ → Prop)
    (lists : List (List (Bytes × Bytes))) (l : List (Bytes × Bytes)) (p : ℕ) (it : Merger σ) :
    Prop where
  le : p ≤ l.length
  children : List.Forall₂ (fun li s => ∃ p, R li s p) lists it.children
  invalid : l[p]? = none → it.current = none
  valid : ∀ e, l[p]? = some e → ∃ i li, it.current = some i ∧ lists[i]? = some li ∧ e ∈ li ∧
    Stands R (frontier rank e it.direction) lists it.children

theorem Stands.anywhere {pos : List (Bytes × Bytes) → ℕ} {children : List σ}
    (h : Stands R pos lists children) :
    List.Forall₂ (fun li s => ∃ p, R li s p) lists children := h.imp fun _ _ hR => ⟨_, hR⟩

theorem Stands.congr {pos pos' : List (Bytes × Bytes) → ℕ} {children : List σ}
    (h : Stands R pos lists children) (hpos : ∀ li ∈ lists, pos li = pos' li) :
    Stands R pos' lists children := by
  rw [Stands] at h ⊢
  induction h with
  | nil => exact .nil
  | cons hs _ ih =>
    refine .cons ?_ (ih fun li hli => hpos li (List.mem_cons_of_mem _ hli))
    rw [← hpos _ List.mem_cons_self]
    exact hs

variable {q : Bytes × Bytes → Bool} {it : Merger σ}

/-- The best of the children is the best entry of the merge on its side of the frontier. -/
theorem found_at (h : Merges child D rank R lists l) {κ' : Type*} [LinearOrder κ']
    (rank' : Bytes → κ') {pos : List (Bytes × Bytes) → ℕ} (side : Bool)
    (hfront : ∀ li, Ascending (keyRank rank) li → ∀ a, li[pos li]? = some a ↔
      a ∈ li ∧ q a = side ∧ ∀ b ∈ li, q b = side → rank' a.1 ≤ rank' b.1)
    (hempty : ∀ li, Ascending (keyRank rank) li → li[pos li]? = none → ∀ b ∈ li, q b ≠ side)
    (hbound : ∀ e, l[pos l]? = some e → ∀ li ∈ lists, pos li = frontier rank e it.direction li)
    (hle : pos l ≤ l.length) (hs : Stands R pos lists it.children) {best : Option (ℕ × Bytes)}
    (hnone : best = none → ∀ li ∈ lists, li[pos li]? = none)
    (hsome : ∀ i key, best = some (i, key) → ∃ li e, lists[i]? = some li ∧ li[pos li]? = some e ∧
      ∀ lj ∈ lists, ∀ b, lj[pos lj]? = some b → rank' e.1 ≤ rank' b.1) :
    ({ it with current := best.map (·.1) } : Merger σ).At rank R lists l (pos l) := by
  have hbest : ∀ i key, best = some (i, key) → ∃ li e, lists[i]? = some li ∧ e ∈ li ∧
      l[pos l]? = some e := by
    intro i key hik
    obtain ⟨li, e, hi, he, hmin⟩ := hsome i key hik
    have hli := List.mem_of_getElem? hi
    obtain ⟨heli, hqe, -⟩ := (hfront li (h.ascending li hli) e).mp he
    refine ⟨li, e, hi, heli, (hfront l h.sorted e).mpr ⟨h.mem hli heli, hqe, fun b hb hqb => ?_⟩⟩
    obtain ⟨lj, hlj, hblj⟩ := List.mem_flatten.mp (h.perm.mem_iff.mp hb)
    cases hb' : lj[pos lj]? with
    | none => exact absurd hqb (hempty lj (h.ascending lj hlj) hb' b hblj)
    | some b' =>
      obtain ⟨-, -, hall⟩ := (hfront lj (h.ascending lj hlj) b').mp hb'
      exact (hmin lj hlj b' hb').trans (hall b hblj hqb)
  refine ⟨hle, hs.anywhere, fun hl => ?_, fun e hl => ?_⟩
  · cases best with
    | none => rfl
    | some r =>
      obtain ⟨li, e, -, -, he⟩ := hbest r.1 r.2 rfl
      cases hl.symm.trans he
  · cases best with
    | none =>
      obtain ⟨he, hqe, hall⟩ := (hfront l h.sorted e).mp hl
      obtain ⟨li, hli, heli⟩ := List.mem_flatten.mp (h.perm.mem_iff.mp he)
      have hei := (hfront li (h.ascending li hli) e).mpr
        ⟨heli, hqe, fun b hb hqb => hall b (h.mem hli hb) hqb⟩
      cases (hnone rfl li hli).symm.trans hei
    | some r =>
      obtain ⟨li, e', hi, heli, he⟩ := hbest r.1 r.2 rfl
      obtain rfl := Option.some.inj (he.symm.trans hl)
      exact ⟨r.1, li, rfl, hi, heli, hs.congr (hbound e' hl)⟩

theorem findSmallest_at (ho : c.OrdersOn D rank) (h : Merges child D rank R lists l)
    (hq : Downward (keyRank rank) q) (it : Merger σ) (hd : it.direction = .forward)
    (hs : Stands R (ahead q) lists it.children) :
    ∃ it', it.findSmallest child c = .ok it' ∧ it'.At rank R lists l (ahead q l) := by
  obtain ⟨best, hbest, hnone, hsome⟩ := find_spec h (prefers_lt ho) hs fun _ => Iff.rfl
  refine ⟨{ it with current := best.map (·.1) }, ?_, found_at (q := q) h rank false
    (fun li hli a => ahead_eq_some hli hq) (fun li hli hl b hb => ?_) (fun e he li hli => ?_)
    takeWhile_length_le hs hnone hsome⟩
  · rw [findSmallest, hbest]
    rfl
  · rw [(ahead_eq_none hli hq).mp hl b hb]
    exact Bool.true_eq_false_eq_False.elim
  · rw [hd]
    exact ahead_congr fun b hb => ahead_bound h.sorted hq he b (h.mem hli hb)

theorem findLargest_at (ho : c.OrdersOn D rank) (h : Merges child D rank R lists l)
    (hq : Downward (keyRank rank) q) (it : Merger σ) (hd : it.direction = .reverse)
    (hs : Stands R (behind q) lists it.children) :
    ∃ it', it.findLargest child c = .ok it' ∧ it'.At rank R lists l (behind q l) := by
  obtain ⟨best, hbest, hnone, hsome⟩ := find_spec h (prefers_gt ho) hs fun _ => List.mem_reverse
  refine ⟨{ it with current := best.map (·.1) }, ?_, found_at (q := q) h
    (fun k => OrderDual.toDual (rank k)) true (fun li hli a => ?_) (fun li hli hl b hb => ?_)
    (fun e he li hli => ?_) behind_le hs hnone hsome⟩
  · rw [findLargest, hbest]
    rfl
  · simp only [OrderDual.toDual_le_toDual]
    exact behind_eq_some hli hq
  · rw [(behind_eq_none hli hq).mp hl b hb]
    exact Bool.false_ne_true
  · rw [hd]
    exact behind_congr fun b hb => behind_bound h.sorted hq he b (h.mem hli hb)

theorem update_all {p : ℕ} (hat : it.At rank R lists l p) (f : σ → Exec σ)
    (pos : List (Bytes × Bytes) → ℕ)
    (hf : ∀ li ∈ lists, ∀ s p, R li s p → ∃ s', f s = .ok s' ∧ R li s' (pos li)) :
    ∃ children, update (fun _ => f) 0 it.children = .ok children ∧ Stands R pos lists children :=
  update_spec hat.children fun j lj s hj hR => by
    obtain ⟨p, hR⟩ := hR
    exact hf lj (List.mem_of_getElem? hj) s p hR

theorem At.seekToFirst (ho : c.OrdersOn D rank) (h : Merges child D rank R lists l) {p : ℕ}
    (hat : it.At rank R lists l p) :
    ∃ it', it.seekToFirst child c = .ok it' ∧ it'.At rank R lists l 0 := by
  have hzero : ∀ li : List (Bytes × Bytes), ahead (fun _ => false) li = 0 := by
    intro li
    cases li <;> rfl
  obtain ⟨children, hupdate, hs⟩ := update_all hat child.seekToFirst
    (ahead fun _ => false) fun li hli s p hR => by
      rw [hzero]
      exact (h.children li hli).seekToFirst hR
  obtain ⟨it', hfind, hat'⟩ := findSmallest_at (q := fun _ => false) ho h
    (fun _ _ _ hb => hb) { it with children, direction := .forward } rfl hs
  rw [hzero] at hat'
  refine ⟨it', ?_, hat'⟩
  rw [Merger.seekToFirst, hupdate]
  exact hfind

theorem At.seekToLast (ho : c.OrdersOn D rank) (h : Merges child D rank R lists l) {p : ℕ}
    (hat : it.At rank R lists l p) :
    ∃ it', it.seekToLast child c = .ok it' ∧ it'.At rank R lists l (l.length - 1) := by
  have hall : ∀ li : List (Bytes × Bytes), behind (fun _ => true) li = li.length - 1 := by
    intro li
    have hlen : ahead (fun _ => true) li = li.length := by
      rw [ahead, List.takeWhile_eq_self_iff.mpr fun _ _ => rfl]
    rw [behind, hlen]
    split_ifs with hzero
    · rw [hzero]
    · rfl
  obtain ⟨children, hupdate, hs⟩ := update_all hat child.seekToLast
    (behind fun _ => true) fun li hli s p hR => by
      rw [hall]
      exact (h.children li hli).seekToLast hR
  obtain ⟨it', hfind, hat'⟩ := findLargest_at (q := fun _ => true) ho h
    (fun _ _ _ _ => rfl) { it with children, direction := .reverse } rfl hs
  rw [hall] at hat'
  refine ⟨it', ?_, hat'⟩
  rw [Merger.seekToLast, hupdate]
  exact hfind

theorem At.seek (ho : c.OrdersOn D rank) (h : Merges child D rank R lists l) {p : ℕ}
    (hat : it.At rank R lists l p) {target : Bytes} (ht : D target) :
    ∃ it', it.seek child c target = .ok it' ∧
      it'.At rank R lists l (ahead (EngineIterator.before rank target) l) := by
  obtain ⟨children, hupdate, hs⟩ := update_all hat (child.seek target)
    (ahead (EngineIterator.before rank target)) fun li hli s p hR =>
      (h.children li hli).seek hR ht
  obtain ⟨it', hfind, hat'⟩ := findSmallest_at ho h (downward_lt (rank target))
    { it with children, direction := .forward } rfl hs
  refine ⟨it', ?_, hat'⟩
  rw [Merger.seek, hupdate]
  exact hfind

theorem Merges.others (h : Merges child D rank R lists l) {i j : ℕ} {li lj : List (Bytes × Bytes)}
    (hi : lists[i]? = some li) (hj : lists[j]? = some lj) (hij : j ≠ i) {e : Bytes × Bytes}
    (he : e ∈ li) : ∀ b ∈ lj, decide (keyRank rank b < keyRank rank e) =
      decide (keyRank rank b ≤ keyRank rank e) := by
  intro b hb
  exact decide_eq_decide.mpr ⟨le_of_lt, fun hle => lt_of_le_of_ne hle (h.rank_ne hi hj hij he hb)⟩

theorem Merges.frontier_eq (h : Merges child D rank R lists l) {li : List (Bytes × Bytes)}
    (hli : li ∈ lists) {e : Bytes × Bytes} (he : e ∈ li) (d : Direction) :
    li[frontier rank e d li]? = some e ∧
      ahead (fun b => keyRank rank b < keyRank rank e) li = frontier rank e d li ∧
      ahead (fun b => keyRank rank b ≤ keyRank rank e) li = frontier rank e d li + 1 := by
  have hget : li[frontier rank e d li]? = some e := by
    cases d with
    | forward =>
      refine (ahead_eq_some (h.ascending li hli) (downward_lt _)).mpr ⟨he, ?_, fun b _ hb => ?_⟩
      · exact decide_eq_false (lt_irrefl _)
      · exact not_lt.mp (of_decide_eq_false hb)
    | reverse =>
      refine (behind_eq_some (h.ascending li hli) (downward_le _)).mpr ⟨he, ?_, fun b _ hb => ?_⟩
      · exact decide_eq_true le_rfl
      · exact of_decide_eq_true hb
  exact ⟨hget, ahead_lt_of_get (h.ascending li hli) hget, ahead_le_of_get (h.ascending li hli) hget⟩

theorem At.currentChild_eq (h : Merges child D rank R lists l) {p : ℕ}
    (hat : it.At rank R lists l p) {e : Bytes × Bytes} (he : l[p]? = some e) :
    ∃ i li s, it.currentChild = .ok (i, s) ∧ it.current = some i ∧ lists[i]? = some li ∧ e ∈ li ∧
      Stands R (frontier rank e it.direction) lists it.children ∧
      child.valid s = true ∧ child.key s = .ok e.1 ∧ child.value s = .ok e.2 := by
  obtain ⟨i, li, hi, hli, heli, hs⟩ := hat.valid e he
  obtain ⟨s, hs', hR⟩ := (getElem?_of_forall₂ hs).1 li hli
  have hmem := List.mem_of_getElem? hli
  obtain ⟨hget, -, -⟩ := h.frontier_eq hmem heli it.direction
  refine ⟨i, li, s, ?_, hi, hli, heli, hs, (h.children li hmem).at_some hR hget⟩
  rw [currentChild, hi, Option.bind_some, hs']
  rfl

theorem seekAfter_spec (ho : c.OrdersOn D rank) (h : Merges child D rank R lists l) {i j : ℕ}
    {li lj : List (Bytes × Bytes)} (hi : lists[i]? = some li) (hj : lists[j]? = some lj)
    (hij : j ≠ i) {e : Bytes × Bytes} (he : e ∈ li) {s : σ} {p : ℕ} (hR : R lj s p) :
    ∃ s', seekAfter child c e.1 s = .ok s' ∧
      R lj s' (ahead (fun b => keyRank rank b < keyRank rank e) lj) := by
  have hlj := List.mem_of_getElem? hj
  have hD := h.keys e (h.mem (List.mem_of_getElem? hi) he)
  obtain ⟨s', hseek, hR'⟩ := (h.children lj hlj).seek hR hD
  refine ⟨s', ?_, hR'⟩
  rw [seekAfter, hseek, Stops.ok_bind]
  cases hb : lj[ahead (EngineIterator.before rank e.1) lj]? with
  | none =>
    rw [(h.children lj hlj).at_none hR' hb]
    rfl
  | some b =>
    have hmem := List.mem_of_getElem? hb
    obtain ⟨hvalid, hkey, -⟩ := (h.children lj hlj).at_some hR' hb
    have hcompare := ho.compare_eq e.1 b.1 hD (h.keys b (h.mem hlj hmem))
    have hne : ¬ (cmp (rank e.1) (rank b.1) == .eq) = true := by
      rw [beq_iff_eq, cmp_eq_eq_iff]
      exact (h.rank_ne hi hj hij he hmem).symm
    rw [hvalid, if_pos rfl, hkey, Stops.ok_bind, hcompare, Stops.ok_bind, if_neg hne]
    rfl

theorem seekBefore_spec (h : Merges child D rank R lists l) {j : ℕ} {lj : List (Bytes × Bytes)}
    (hj : lists[j]? = some lj) {e : Bytes × Bytes} (he : D e.1) {s : σ} {p : ℕ} (hR : R lj s p) :
    ∃ s', seekBefore child e.1 s = .ok s' ∧
      R lj s' (behind (fun b => keyRank rank b < keyRank rank e) lj) := by
  have hlj := List.mem_of_getElem? hj
  obtain ⟨s', hseek, hR'⟩ := (h.children lj hlj).seek hR he
  have hahead : ahead (EngineIterator.before rank e.1) lj =
      ahead (fun b => keyRank rank b < keyRank rank e) lj := rfl
  rw [hahead] at hR'
  rw [seekBefore, hseek, Stops.ok_bind, behind]
  cases hb : lj[ahead (fun b => keyRank rank b < keyRank rank e) lj]? with
  | none =>
    have hend : ahead (fun b => keyRank rank b < keyRank rank e) lj = lj.length :=
      le_antisymm takeWhile_length_le (List.getElem?_eq_none_iff.mp hb)
    obtain ⟨s'', hlast, hR''⟩ := (h.children lj hlj).seekToLast hR'
    rw [(h.children lj hlj).at_none hR' hb]
    refine ⟨s'', hlast, ?_⟩
    have hpos : (if lj.length = 0 then lj.length else lj.length - 1) = lj.length - 1 := by
      split_ifs <;> omega
    rw [hend, hpos]
    exact hR''
  | some b =>
    obtain ⟨hvalid, -, -⟩ := (h.children lj hlj).at_some hR' hb
    rw [hvalid, if_pos rfl]
    exact (h.children lj hlj).prev hR' (List.getElem?_eq_some_iff.mp hb).1

section Turn

variable {i : ℕ} {li : List (Bytes × Bytes)} {e : Bytes × Bytes} {children : List σ}

theorem turn_forward (ho : c.OrdersOn D rank) (h : Merges child D rank R lists l)
    (hi : lists[i]? = some li) (he : e ∈ li)
    (hs : Stands R (frontier rank e it.direction) lists it.children) {s : σ}
    (hkey : child.key s = .ok e.1) :
    ∃ children, it.turn child .forward (seekAfter child c) i s = .ok children ∧
      Stands R (frontier rank e .forward) lists children := by
  rw [turn]
  by_cases hd : it.direction = .forward
  · rw [if_pos hd]
    exact ⟨it.children, rfl, hd ▸ hs⟩
  rw [if_neg hd, hkey]
  refine update_spec hs fun j lj s hj hR => ?_
  rw [Nat.zero_add]
  by_cases hji : j = i
  · subst hji
    obtain rfl := Option.some.inj (hi.symm.trans hj)
    obtain ⟨-, hsame, -⟩ := h.frontier_eq (List.mem_of_getElem? hi) he it.direction
    rw [if_pos rfl, frontier, hsame]
    exact ⟨s, rfl, hR⟩
  · rw [if_neg hji]
    exact seekAfter_spec ho h hi hj hji he hR

theorem turn_reverse (h : Merges child D rank R lists l) (hi : lists[i]? = some li) (he : e ∈ li)
    (hs : Stands R (frontier rank e it.direction) lists it.children) {s : σ}
    (hkey : child.key s = .ok e.1) :
    ∃ children, it.turn child .reverse (seekBefore child) i s = .ok children ∧
      Stands R (frontier rank e .reverse) lists children := by
  have hli := List.mem_of_getElem? hi
  rw [turn]
  by_cases hd : it.direction = .reverse
  · rw [if_pos hd]
    exact ⟨it.children, rfl, hd ▸ hs⟩
  rw [if_neg hd, hkey]
  refine update_spec hs fun j lj s hj hR => ?_
  rw [Nat.zero_add]
  by_cases hji : j = i
  · subst hji
    obtain rfl := Option.some.inj (hi.symm.trans hj)
    obtain ⟨-, hsame, -⟩ := h.frontier_eq hli he it.direction
    obtain ⟨-, hsame', -⟩ := h.frontier_eq hli he .reverse
    rw [if_pos rfl, ← hsame', hsame]
    exact ⟨s, rfl, hR⟩
  · rw [if_neg hji, frontier, ← behind_congr (h.others hi hj hji he)]
    exact seekBefore_spec h hj (h.keys e (h.mem hli he)) hR

theorem advance (h : Merges child D rank R lists l) (hi : lists[i]? = some li) (he : e ∈ li)
    (hs : Stands R (frontier rank e .forward) lists children) :
    ∃ children', update (fun j s => if j = i then child.next s else return s) 0 children =
        .ok children' ∧
      Stands R (ahead fun b => keyRank rank b ≤ keyRank rank e) lists children' := by
  refine update_spec hs fun j lj s hj hR => ?_
  have hli := List.mem_of_getElem? hi
  rw [Nat.zero_add]
  by_cases hji : j = i
  · subst hji
    obtain rfl := Option.some.inj (hi.symm.trans hj)
    obtain ⟨hget, -, hnext⟩ := h.frontier_eq hli he .forward
    rw [if_pos rfl, hnext]
    exact (h.children li hli).next hR (List.getElem?_eq_some_iff.mp hget).1
  · rw [if_neg hji, ← ahead_congr (h.others hi hj hji he)]
    exact ⟨s, rfl, hR⟩

theorem retreat (h : Merges child D rank R lists l) (hi : lists[i]? = some li) (he : e ∈ li)
    (hs : Stands R (frontier rank e .reverse) lists children) :
    ∃ children', update (fun j s => if j = i then child.prev s else return s) 0 children =
        .ok children' ∧
      Stands R (behind fun b => keyRank rank b < keyRank rank e) lists children' := by
  refine update_spec hs fun j lj s hj hR => ?_
  have hli := List.mem_of_getElem? hi
  rw [Nat.zero_add]
  by_cases hji : j = i
  · subst hji
    obtain rfl := Option.some.inj (hi.symm.trans hj)
    obtain ⟨hget, hsame, -⟩ := h.frontier_eq hli he .reverse
    rw [if_pos rfl, behind, hsame]
    exact (h.children li hli).prev hR (List.getElem?_eq_some_iff.mp hget).1
  · rw [if_neg hji, behind_congr (h.others hi hj hji he)]
    exact ⟨s, rfl, hR⟩

end Turn

theorem At.next (ho : c.OrdersOn D rank) (h : Merges child D rank R lists l) {p : ℕ}
    (hat : it.At rank R lists l p) {e : Bytes × Bytes} (he : l[p]? = some e) :
    ∃ it', it.next child c = .ok it' ∧ it'.At rank R lists l (p + 1) := by
  obtain ⟨i, li, s, hcurrent, -, hi, heli, hs, -, hkey, -⟩ := hat.currentChild_eq h he
  obtain ⟨children, hchildren, hs'⟩ := turn_forward ho h hi heli hs hkey
  obtain ⟨children', hadvance, hs''⟩ := advance h hi heli hs'
  obtain ⟨it', hfind, hat'⟩ := findSmallest_at ho h (downward_le _)
    { it with children := children', direction := .forward } rfl hs''
  rw [ahead_le_of_get h.sorted he] at hat'
  refine ⟨it', ?_, hat'⟩
  rw [Merger.next, hcurrent, Stops.ok_bind]
  dsimp only
  rw [hchildren, Stops.ok_bind, hadvance, Stops.ok_bind]
  exact hfind

theorem At.prev (ho : c.OrdersOn D rank) (h : Merges child D rank R lists l) {p : ℕ}
    (hat : it.At rank R lists l p) {e : Bytes × Bytes} (he : l[p]? = some e) :
    ∃ it', it.prev child c = .ok it' ∧
      it'.At rank R lists l (if p = 0 then l.length else p - 1) := by
  obtain ⟨i, li, s, hcurrent, -, hi, heli, hs, -, hkey, -⟩ := hat.currentChild_eq h he
  obtain ⟨children, hchildren, hs'⟩ := turn_reverse h hi heli hs hkey
  obtain ⟨children', hretreat, hs''⟩ := retreat h hi heli hs'
  obtain ⟨it', hfind, hat'⟩ := findLargest_at ho h (downward_lt _)
    { it with children := children', direction := .reverse } rfl hs''
  rw [behind, ahead_lt_of_get h.sorted he] at hat'
  refine ⟨it', ?_, hat'⟩
  rw [Merger.prev, hcurrent, Stops.ok_bind]
  dsimp only
  rw [hchildren, Stops.ok_bind, hretreat, Stops.ok_bind]
  exact hfind

theorem currentChild_none (hn : it.current = none) : it.currentChild = .error .assertion := by
  rw [currentChild, hn]
  rfl

theorem status_ok (h : Merges child D rank R lists l)
    (hs : List.Forall₂ (fun li s => ∃ p, R li s p) lists it.children) :
    it.status child = .ok := by
  have hall : ∀ s ∈ it.children, child.status s = .ok := by
    intro s hmem
    obtain ⟨i, hi⟩ := List.mem_iff_getElem?.mp hmem
    obtain ⟨li, hli, p, hR⟩ := (getElem?_of_forall₂ hs).2 s hi
    exact (h.children li (List.mem_of_getElem? hli)).status s p hR
  have hfind : (it.children.map child.status).find? (fun s => !s.isOk) = none := by
    rw [List.find?_eq_none]
    intro status hstatus
    obtain ⟨s, hmem, rfl⟩ := List.mem_map.mp hstatus
    rw [hall s hmem]
    decide
  rw [status, hfind]
  rfl

/-- Over children that go through sorted lists without common keys, the merging iterator goes
through the merge of the lists. -/
theorem engineIterator_represents (ho : c.OrdersOn D rank) (h : Merges child D rank R lists l) :
    (engineIterator child c).Represents D rank l fun it p => it.At rank R lists l p := by
  refine ⟨fun it p hat m hm => ?_, fun it p hat => ?_, fun it p hat => status_ok h hat.children⟩
  · cases m with
    | seekToFirst => exact hat.seekToFirst ho h
    | seekToLast => exact hat.seekToLast ho h
    | seek target => exact hat.seek ho h hm
    | next =>
      by_cases hp : p < l.length
      · rw [move, if_pos hp]
        exact hat.next ho h (List.getElem?_eq_getElem hp)
      · have hnone := currentChild_none (hat.invalid (List.getElem?_eq_none (not_lt.mp hp)))
        rw [move, if_neg hp]
        change it.next child c = _
        rw [Merger.next, hnone]
        rfl
    | prev =>
      by_cases hp : p < l.length
      · rw [move, if_pos hp]
        exact hat.prev ho h (List.getElem?_eq_getElem hp)
      · have hnone := currentChild_none (hat.invalid (List.getElem?_eq_none (not_lt.mp hp)))
        rw [move, if_neg hp]
        change it.prev child c = _
        rw [Merger.prev, hnone]
        rfl
  · cases he : l[p]? with
    | none =>
      have hnone := hat.invalid he
      simp only [EngineIterator.current, engineIterator, hnone]
      rfl
    | some e =>
      obtain ⟨i, li, s, hcurrent, hi, -, -, -, -, hkey, hvalue⟩ := hat.currentChild_eq h he
      simp only [EngineIterator.current, engineIterator, hi, hcurrent, Stops.ok_bind, hkey, hvalue]
      rfl

theorem make_at {children : List σ}
    (hs : List.Forall₂ (fun li s => ∃ p, R li s p) lists children) :
    (make children).At rank R lists l l.length := by
  have hnone : l[l.length]? = none := List.getElem?_eq_none le_rfl
  refine ⟨le_rfl, hs, fun _ => rfl, fun e he => ?_⟩
  cases hnone.symm.trans he

/-- Whatever the merging iterator is asked for, with any changes of the direction, it is where the
merge of the lists has to be. -/
theorem merging_iterator_merges (ho : c.OrdersOn D rank) (h : Merges child D rank R lists l)
    {children : List σ} (hs : List.Forall₂ (fun li s => ∃ p, R li s p) lists children)
    {ms : List (Move Bytes)} (hms : ∀ m ∈ ms, EngineIterator.Allowed D m) :
    (engineIterator child c).Answers rank l l.length (make children) ms :=
  (engineIterator_represents ho h).answers (make_at hs) hms

/-- Two blocks are merged; the direction changes at each entry. -/
theorem merging_iterator_merges_blocks :
    ∃ s t : BlockFormat.Iter,
      (engineIterator (BlockFormat.Iter.engineIterator bytewiseComparator)
        bytewiseComparator).Answers byteValues [([1], [7]), ([2], [9]), ([3], [8])] 3 (make [s, t])
        [.seekToFirst, .next, .prev, .next, .next, .prev, .seek [3], .prev] := by
  have hblock : ∀ es : List (Bytes × Bytes),
      (es.Pairwise fun e e' => byteValues e.1 < byteValues e'.1) →
      (∃ b, BlockFormat.BlockBuilder.empty.addAll bytewiseComparator 2 es = .ok b ∧
        b.currentSizeEstimate < 2 ^ 32) → ∃ it : BlockFormat.Iter, it.GoesThrough es es.length := by
    intro es hsorted hsize
    obtain ⟨b, hb, hsize⟩ := hsize
    obtain ⟨b', hb', hiter⟩ := BlockFormat.finished_block bytewiseComparator_orders
      (by decide : 0 < 2) (fun _ _ => trivial) hsorted
    obtain rfl := Except.ok.inj (hb.symm.trans hb')
    obtain ⟨it, -, hit⟩ := hiter hsize
    exact ⟨it, hit⟩
  obtain ⟨s, hs⟩ := hblock [([1], [7]), ([3], [8])] (by decide) ⟨_, rfl, by decide⟩
  obtain ⟨t, ht⟩ := hblock [([2], [9])] (by decide) ⟨_, rfl, by decide⟩
  have hmerges : Merges (BlockFormat.Iter.engineIterator bytewiseComparator) (fun _ => True)
      byteValues BlockFormat.Iter.GoesThrough [[([1], [7]), ([3], [8])], [([2], [9])]]
      [([1], [7]), ([2], [9]), ([3], [8])] := by
    have hsorted : ∀ li ∈ ([[([1], [7]), ([3], [8])], [([2], [9])]] : List (List (Bytes × Bytes))),
        li.Pairwise fun e e' => byteValues e.1 < byteValues e'.1 := by decide
    have hmerged : ([([1], [7]), ([2], [9]), ([3], [8])] : List (Bytes × Bytes)).Pairwise
        fun e e' => byteValues e.1 < byteValues e'.1 := by decide
    refine ⟨fun li hli => ?_, fun li hli => ?_, hmerged, by decide, fun _ _ => trivial⟩
    · exact BlockFormat.Iter.goesThrough_represents bytewiseComparator_orders
        (fun _ _ => trivial) (hsorted li hli)
    · exact hsorted li hli
  refine ⟨s, t, merging_iterator_merges bytewiseComparator_orders hmerges
    (.cons ⟨_, hs⟩ (.cons ⟨_, ht⟩ .nil)) fun m _ => ?_⟩
  cases m <;> trivial

end Moves

end Merger

end DVELevelDB
