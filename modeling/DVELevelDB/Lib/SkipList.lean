import DVELevelDB.Lib.Ensures
import Mathlib.Data.List.TakeWhile
import Mathlib.Data.List.Pairwise

/-! # Skip lists

The nodes in level-0 order, each with its height: the successor of a node at a level is the
next node that is higher than the level.
-/

structure SkipList.Node (α : Type) where
  key : α
  height : ℕ
  height_pos : 0 < height

structure SkipList (α : Type) where
  nodes : List (SkipList.Node α)
  maxHeight : ℕ

namespace SkipList

open Stops (Ensures)

variable {τ α : Type}

def empty : SkipList α := ⟨[], 1⟩

def keys (sl : SkipList α) : List α := sl.nodes.map Node.key

/-- Moves on at one level; `rest` are the nodes after the current one, `scan` those of them
that have not been looked at. -/
def advance (after : α → Except τ Bool) (level : ℕ) (rest : List (Node α)) :
    List (Node α) → Except τ (List (Node α))
  | [] => pure rest
  | next :: scan =>
    if next.height ≤ level then
      advance after level rest scan
    else do
      if ← after next.key then advance after level scan scan else pure rest

def descend (after : α → Except τ Bool) : ℕ → List (Node α) → Except τ (List (Node α))
  | 0, rest => advance after 0 rest rest
  | level + 1, rest => do descend after level (← advance after (level + 1) rest rest)

/-- The nodes from the first one that the sought key is not after. -/
def findGreaterOrEqual (after : α → Except τ Bool) (sl : SkipList α) :
    Except τ (List (Node α)) :=
  descend after (sl.maxHeight - 1) sl.nodes

/-- Links a node before the first one that is not smaller; an equal one stops with
`duplicate`. -/
def insert (compare : α → α → Except τ Ordering) (duplicate : τ) (key : α)
    (height : {h : ℕ // 0 < h}) (sl : SkipList α) : Except τ (SkipList α) := do
  let rest ← sl.findGreaterOrEqual (fun k => return (← compare k key) == .lt)
  match rest.head? with
  | some x => if (← compare key x.key) == .eq then throw duplicate
  | none => pure ()
  return {
    nodes := sl.nodes.take (sl.nodes.length - rest.length) ++
      ⟨key, height.val, height.property⟩ :: rest
    maxHeight := max sl.maxHeight height }

section Search

variable {after : α → Except τ Bool} {p : α → Bool} {nodes rest scan : List (Node α)}

/-- What the sought key is after comes before everything it is not after. -/
def Split (p : α → Bool) (nodes : List (Node α)) : Prop :=
  nodes.Pairwise fun a b => p b.key → p a.key

private theorem dropWhile_of_split {pre : List (Node α)} {x : Node α}
    (h : Split p (pre ++ x :: scan)) (hx : p x.key) :
    (pre ++ x :: scan).dropWhile (fun n => p n.key) = scan.dropWhile (fun n => p n.key) := by
  have hpre : ∀ a ∈ pre, p a.key := by
    intro a ha
    exact (List.pairwise_append.mp h).2.2 a ha x List.mem_cons_self hx
  rw [List.dropWhile_append_of_pos hpre, List.dropWhile_cons, if_pos hx]

theorem advance_dropWhile (level : ℕ) {pre : List (Node α)} (hrest : rest = pre ++ scan)
    (ha : ∀ n ∈ rest, after n.key = .ok (p n.key)) (hs : Split p rest) :
    ∃ r pre', advance after level rest scan = .ok r ∧ rest = pre' ++ r ∧
      r.dropWhile (fun n => p n.key) = rest.dropWhile (fun n => p n.key) := by
  induction scan generalizing rest pre with
  | nil => exact ⟨rest, [], rfl, rfl, rfl⟩
  | cons next scan ih =>
    rw [advance]
    split_ifs with hh
    · have hrest' : rest = (pre ++ [next]) ++ scan := by simpa using hrest
      exact ih hrest' ha hs
    · have hmem : next ∈ rest := by simp [hrest]
      rw [ha next hmem]
      cases hp : p next.key with
      | false => exact ⟨rest, [], rfl, rfl, rfl⟩
      | true =>
        subst hrest
        have hsub : ∀ n ∈ scan, n ∈ pre ++ next :: scan := by simp_all
        have htail : Split p scan := (List.pairwise_cons.mp (List.pairwise_append.mp hs).2.1).2
        obtain ⟨r, pre', h1, h2, h3⟩ :=
          ih (List.nil_append scan).symm (fun n hn => ha n (hsub n hn)) htail
        refine ⟨r, pre ++ next :: pre', h1, by simp [h2], ?_⟩
        rw [h3, dropWhile_of_split hs hp]

theorem advance_bottom (ha : ∀ n ∈ rest, after n.key = .ok (p n.key)) :
    advance after 0 rest rest = .ok (rest.dropWhile fun n => p n.key) := by
  induction rest with
  | nil => rfl
  | cons next rest ih =>
    have hh : ¬ next.height ≤ 0 := by have := next.height_pos; omega
    rw [advance, if_neg hh, ha next List.mem_cons_self]
    cases hp : p next.key with
    | false => simp [hp, pure, Except.pure]
    | true => simpa [hp] using ih fun n hn => ha n (List.mem_cons_of_mem _ hn)

theorem descend_eq {level : ℕ} (ha : ∀ n ∈ rest, after n.key = .ok (p n.key))
    (hs : Split p rest) :
    descend after level rest = .ok (rest.dropWhile fun n => p n.key) := by
  induction level generalizing rest with
  | zero => exact advance_bottom ha
  | succ level ih =>
    obtain ⟨r, pre, h1, h2, h3⟩ :=
      advance_dropWhile (level + 1) (List.nil_append rest).symm ha hs
    have hsub : ∀ n ∈ r, n ∈ rest := fun n hn => h2 ▸ List.mem_append_right _ hn
    have htail : Split p r := by rw [h2] at hs; exact (List.pairwise_append.mp hs).2.1
    rw [descend, h1, Stops.ok_bind, ih (fun n hn => ha n (hsub n hn)) htail, h3]

/-- The levels only shorten the way: the search ends where a scan would. -/
theorem findGreaterOrEqual_eq {sl : SkipList α} (ha : ∀ n ∈ sl.nodes, after n.key = .ok (p n.key))
    (hs : Split p sl.nodes) :
    sl.findGreaterOrEqual after = .ok (sl.nodes.dropWhile fun n => p n.key) :=
  descend_eq ha hs

theorem insert_eq {compare : α → α → Except τ Ordering} {key : α} (sl : SkipList α)
    (duplicate : τ) (height : {h : ℕ // 0 < h})
    (ha : ∀ n ∈ sl.nodes, compare n.key key = .ok (if p n.key then .lt else .gt))
    (hb : ∀ n ∈ sl.nodes, ¬ p n.key → compare key n.key = .ok .lt)
    (hs : Split p sl.nodes) :
    ∃ sl', sl.insert compare duplicate key height = .ok sl' ∧
      sl'.keys = sl.keys.takeWhile p ++ key :: sl.keys.dropWhile p := by
  have hfind : sl.findGreaterOrEqual (fun k => return (← compare k key) == .lt) =
      .ok (sl.nodes.dropWhile fun n => p n.key) := by
    refine findGreaterOrEqual_eq (fun n hn => ?_) hs
    rw [ha n hn]
    cases p n.key <;> rfl
  have hhead : ∀ x, (sl.nodes.dropWhile fun n => p n.key).head? = some x →
      compare key x.key = .ok .lt := by
    intro x hx
    have hmem : x ∈ sl.nodes := (List.dropWhile_suffix _).subset (List.mem_of_head? hx)
    refine hb x hmem ?_
    have := List.head?_dropWhile_not (fun n : Node α => p n.key) sl.nodes
    rw [hx] at this
    simpa using this
  have htake : sl.nodes.take (sl.nodes.length - (sl.nodes.dropWhile fun n => p n.key).length) =
      sl.nodes.takeWhile fun n => p n.key := by
    have hlen := congrArg List.length
      (List.takeWhile_append_dropWhile (p := fun n : Node α => p n.key) (l := sl.nodes))
    rw [List.length_append] at hlen
    rw [← hlen, Nat.add_sub_cancel]
    exact ((List.prefix_iff_eq_take).mp (List.takeWhile_prefix _)).symm
  rw [insert, hfind, Stops.ok_bind]
  cases hc : (sl.nodes.dropWhile fun n => p n.key).head? with
  | none =>
    refine ⟨_, rfl, ?_⟩
    simp only [keys, htake, List.map_append, List.map_cons, List.takeWhile_map, List.dropWhile_map]
    rfl
  | some x =>
    refine ⟨_, by simp only [hhead x hc]; rfl, ?_⟩
    simp only [keys, htake, List.map_append, List.map_cons, List.takeWhile_map, List.dropWhile_map]
    rfl

end Search

section Safety

variable {permitted : τ → Prop} {after : α → Except τ Bool} {rest scan : List (Node α)}

theorem ensures_advance {level : ℕ} (hscan : ∀ n ∈ scan, n ∈ rest)
    (ha : ∀ n ∈ rest, Ensures permitted (after n.key) fun _ => True) :
    Ensures permitted (advance after level rest scan) fun r => ∀ n ∈ r, n ∈ rest := by
  induction scan generalizing rest with
  | nil => exact fun n hn => hn
  | cons next scan ih =>
    have htail : ∀ n ∈ scan, n ∈ rest := fun n hn => hscan n (List.mem_cons_of_mem _ hn)
    rw [advance]
    split_ifs
    · exact ih htail ha
    · refine (ha next (hscan next List.mem_cons_self)).bind fun b _ => ?_
      cases b with
      | false => exact fun n hn => hn
      | true =>
        exact (ih (fun n hn => hn) fun n hn => ha n (htail n hn)).mono
          fun r hr n hn => htail n (hr n hn)

theorem ensures_descend {level : ℕ}
    (ha : ∀ n ∈ rest, Ensures permitted (after n.key) fun _ => True) :
    Ensures permitted (descend after level rest) fun r => ∀ n ∈ r, n ∈ rest := by
  induction level generalizing rest with
  | zero => exact ensures_advance (fun n hn => hn) ha
  | succ level ih =>
    refine (ensures_advance (fun n hn => hn) ha).bind fun r hr => ?_
    exact (ih fun n hn => ha n (hr n hn)).mono fun r' hr' n hn => hr n (hr' n hn)

theorem ensures_findGreaterOrEqual {sl : SkipList α}
    (ha : ∀ k ∈ sl.keys, Ensures permitted (after k) fun _ => True) :
    Ensures permitted (sl.findGreaterOrEqual after) fun r => ∀ n ∈ r, n ∈ sl.nodes :=
  ensures_descend fun n hn => ha n.key (List.mem_map_of_mem hn)

theorem ensures_insert {compare : α → α → Except τ Ordering} {duplicate : τ} {key : α}
    {height : {h : ℕ // 0 < h}} {sl : SkipList α} (hd : permitted duplicate)
    (ha : ∀ k ∈ sl.keys, Ensures permitted (compare k key) fun _ => True)
    (hb : ∀ k ∈ sl.keys, Ensures permitted (compare key k) fun _ => True) :
    Ensures permitted (sl.insert compare duplicate key height)
      fun sl' => ∀ k ∈ sl'.keys, k = key ∨ k ∈ sl.keys := by
  have hafter : ∀ k ∈ sl.keys,
      Ensures permitted (do return (← compare k key) == .lt) fun _ => True :=
    fun k hk => (ha k hk).bind fun _ _ => trivial
  refine (ensures_findGreaterOrEqual hafter).bind fun rest hrest => ?_
  have hkeys : ∀ (t : List (Node α)) (m h : ℕ) (hh : 0 < h), (∀ n ∈ t, n ∈ sl.nodes) →
      ∀ k ∈ (⟨t ++ ⟨key, h, hh⟩ :: rest, m⟩ : SkipList α).keys, k = key ∨ k ∈ sl.keys := by
    intro t m h hh ht k hk
    simp only [keys, List.map_append, List.map_cons, List.mem_append, List.mem_cons,
      List.mem_map] at hk ⊢
    rcases hk with ⟨n, hn, rfl⟩ | rfl | ⟨n, hn, rfl⟩
    · exact Or.inr ⟨n, ht n hn, rfl⟩
    · exact Or.inl rfl
    · exact Or.inr ⟨n, hrest n hn, rfl⟩
  have hdone : ∀ k ∈ (⟨sl.nodes.take (sl.nodes.length - rest.length) ++
      ⟨key, height.val, height.property⟩ :: rest, max sl.maxHeight height⟩ : SkipList α).keys,
      k = key ∨ k ∈ sl.keys :=
    hkeys _ _ _ _ fun n hn => List.mem_of_mem_take hn
  cases hc : rest.head? with
  | none => exact hdone
  | some x =>
    have hx : x.key ∈ sl.keys :=
      List.mem_map_of_mem (hrest x (List.mem_of_head? hc))
    refine (hb x.key hx).bind fun o _ => ?_
    cases o
    · exact hdone
    · exact hd
    · exact hdone

end Safety

end SkipList
