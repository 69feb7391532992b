import DVELevelDB.Lib.Ensures
import Mathlib.Data.List.Perm.Basic

/-! # Merging sorted lists

The list whose head comes first gives its head away, until all lists are empty.
-/
namespace Merge

variable {α ε : Type}

section Definitions

variable (before : α → α → Except ε Bool)

/-- A head that no other one is before, with the place of its list; the first list of the call
has the place `i`. -/
def findSmallest : ℕ → Option (ℕ × α) → List (List α) → Except ε (Option (ℕ × α))
  | _, best, [] => .ok best
  | i, best, [] :: children => findSmallest (i + 1) best children
  | i, none, (a :: _) :: children => findSmallest (i + 1) (some (i, a)) children
  | i, some (j, b), (a :: _) :: children => do
    if ← before a b then
      findSmallest (i + 1) (some (i, a)) children
    else
      findSmallest (i + 1) (some (j, b)) children

def next : ℕ → List (List α) → List (List α)
  | _, [] => []
  | 0, child :: children => child.tail :: children
  | i + 1, child :: children => child :: next i children

/-- At most `n` turns of the merge. -/
def mergeLoop : ℕ → List (List α) → Except ε (List α)
  | 0, _ => .ok []
  | n + 1, children => do
    match ← findSmallest before 0 none children with
    | some (i, a) => return a :: (← mergeLoop n (next i children))
    | none => return []

def merge (children : List (List α)) : Except ε (List α) :=
  mergeLoop before children.flatten.length children

end Definitions

section Spec

variable {before : α → α → Except ε Bool} {R : α → α → Prop} [DecidableRel R]
  {children : List (List α)}

/-- Sorted lists, any two of them with comparable elements. -/
structure Mergeable (before : α → α → Except ε Bool) (R : α → α → Prop) [DecidableRel R]
    (children : List (List α)) : Prop where
  before_eq : ∀ a ∈ children.flatten, ∀ b ∈ children.flatten, before a b = .ok (decide (R a b))
  sorted : ∀ child ∈ children, child.Pairwise R
  comparable : children.Pairwise fun l l' => ∀ a ∈ l, ∀ b ∈ l', R a b ∨ R b a

/-- The head at a place is before all other heads. -/
def Best (R : α → α → Prop) (children : List (List α)) : Option (ℕ × α) → Prop
  | none => ∀ child ∈ children, child = []
  | some (i, a) => ∃ l rest l', children = l ++ (a :: rest) :: l' ∧ l.length = i ∧
      ∀ child ∈ l ++ l', ∀ b ∈ child.head?, R a b

omit [DecidableRel R] in
theorem Best.concat_nil {best : Option (ℕ × α)} (h : Best R children best) :
    Best R (children ++ [[]]) best := by
  cases best with
  | none =>
    intro child hc
    rcases List.mem_append.mp hc with hc | hc
    · exact h child hc
    · exact List.mem_singleton.mp hc
  | some p =>
    obtain ⟨l, rest, l', hsplit, hlen, hbest⟩ := h
    refine ⟨l, rest, l' ++ [[]], by simp [hsplit], hlen, ?_⟩
    intro child hc b hb
    rw [← List.append_assoc] at hc
    rcases List.mem_append.mp hc with hc | hc
    · exact hbest child hc b hb
    · rw [List.mem_singleton.mp hc] at hb
      cases hb

omit [DecidableRel R] in
theorem Best.concat_new {best : Option (ℕ × α)} {a : α} {rest : List α} (h : Best R children best)
    (htrans : ∀ x y z, R x y → R y z → R x z) (hlt : ∀ p ∈ best, R a p.2) :
    Best R (children ++ [a :: rest]) (some (children.length, a)) := by
  refine ⟨children, rest, [], rfl, rfl, ?_⟩
  rw [List.append_nil]
  intro child hc b hb
  cases best with
  | none =>
    rw [h child hc] at hb
    cases hb
  | some p =>
    obtain ⟨l, rest', l', hsplit, hlen, hbest⟩ := h
    have hap := hlt p rfl
    rw [hsplit, List.mem_append, List.mem_cons] at hc
    rcases hc with hc | rfl | hc
    · exact htrans _ _ _ hap (hbest child (List.mem_append_left _ hc) b hb)
    · obtain rfl : p.2 = b := Option.some_inj.mp hb
      exact hap
    · exact htrans _ _ _ hap (hbest child (List.mem_append_right _ hc) b hb)

omit [DecidableRel R] in
theorem Best.concat_old {i : ℕ} {a b : α} {rest : List α} (h : Best R children (some (i, b)))
    (hlt : R b a) : Best R (children ++ [a :: rest]) (some (i, b)) := by
  obtain ⟨l, rest', l', hsplit, hlen, hbest⟩ := h
  refine ⟨l, rest', l' ++ [a :: rest], by simp [hsplit], hlen, ?_⟩
  intro child hc x hx
  rw [← List.append_assoc] at hc
  rcases List.mem_append.mp hc with hc | hc
  · exact hbest child hc x hx
  · rw [List.mem_singleton.mp hc] at hx
    obtain rfl : a = x := Option.some_inj.mp hx
    exact hlt

theorem findSmallest_spec (htrans : ∀ x y z, R x y → R y z → R x z) (done : List (List α))
    (h : Mergeable before R (done ++ children)) {best : Option (ℕ × α)} (hb : Best R done best) :
    ∃ best', findSmallest before done.length best children = .ok best' ∧
      Best R (done ++ children) best' := by
  induction children generalizing done best with
  | nil => exact ⟨best, by rw [findSmallest], by rwa [List.append_nil]⟩
  | cons child children ih =>
    have happ : done ++ child :: children = (done ++ [child]) ++ children := by simp
    have hlen : (done ++ [child]).length = done.length + 1 := by simp
    rw [happ] at h ⊢
    cases child with
    | nil =>
      rw [findSmallest, ← hlen]
      exact ih _ h hb.concat_nil
    | cons a rest =>
      cases best with
      | none =>
        rw [findSmallest, ← hlen]
        exact ih _ h (hb.concat_new htrans (by simp))
      | some p =>
        obtain ⟨j, b⟩ := p
        have hb' := hb
        obtain ⟨l, rest', l', hsplit, -, -⟩ := hb'
        have hmem : b :: rest' ∈ done := by simp [hsplit]
        have hdone := (List.pairwise_append.mp h.comparable).1
        have hcmp := (List.pairwise_append.mp hdone).2.2 _ hmem _ (List.mem_singleton.mpr rfl) b
          List.mem_cons_self a List.mem_cons_self
        have ha : a ∈ ((done ++ [a :: rest]) ++ children).flatten := by simp
        have hbm : b ∈ ((done ++ [a :: rest]) ++ children).flatten := by simp [hsplit]
        rw [findSmallest, h.before_eq a ha b hbm, Stops.ok_bind]
        by_cases hab : R a b
        · rw [if_pos (decide_eq_true hab), ← hlen]
          apply ih _ h (hb.concat_new htrans ?_)
          rintro _ ⟨⟩
          exact hab
        · rw [if_neg (by simpa using hab), ← hlen]
          exact ih _ h (hb.concat_old (hcmp.resolve_right hab))

theorem next_append (l l' : List (List α)) (child : List α) :
    next l.length (l ++ child :: l') = l ++ child.tail :: l' := by
  induction l with
  | nil => rfl
  | cons x l ih => rw [List.cons_append, List.length_cons, next, ih, List.cons_append]

omit [DecidableRel R] in
theorem Best.before_all {l l' : List (List α)} {a : α} {rest : List α}
    (htrans : ∀ x y z, R x y → R y z → R x z)
    (hs : ∀ child ∈ l ++ (a :: rest) :: l', child.Pairwise R)
    (hbest : ∀ child ∈ l ++ l', ∀ b ∈ child.head?, R a b) :
    ∀ x ∈ (l ++ rest :: l').flatten, R a x := by
  intro x hx
  obtain ⟨child, hc, hxc⟩ := List.mem_flatten.mp hx
  rw [List.mem_append, List.mem_cons] at hc
  have hother : child ∈ l ++ l' → R a x := by
    intro hc
    have hsorted := hs child (by
      rcases List.mem_append.mp hc with hc | hc
      · exact List.mem_append_left _ hc
      · exact List.mem_append_right _ (List.mem_cons_of_mem _ hc))
    cases child with
    | nil => cases hxc
    | cons b child =>
      have hab := hbest _ hc b rfl
      rcases List.mem_cons.mp hxc with rfl | hxc
      · exact hab
      · exact htrans _ _ _ hab ((List.pairwise_cons.mp hsorted).1 x hxc)
  rcases hc with hc | rfl | hc
  · exact hother (List.mem_append_left _ hc)
  · have hsorted := hs (a :: child) (by simp)
    exact (List.pairwise_cons.mp hsorted).1 x hxc
  · exact hother (List.mem_append_right _ hc)

theorem Mergeable.next {l l' : List (List α)} {a : α} {rest : List α}
    (h : Mergeable before R (l ++ (a :: rest) :: l')) : Mergeable before R (l ++ rest :: l') := by
  have hsub : ∀ x ∈ (l ++ rest :: l').flatten, x ∈ (l ++ (a :: rest) :: l').flatten := by
    intro x hx
    simp only [List.flatten_append, List.flatten_cons, List.mem_append, List.mem_cons] at hx ⊢
    tauto
  constructor
  · intro x hx y hy
    exact h.before_eq x (hsub x hx) y (hsub y hy)
  · intro child hc
    rw [List.mem_append, List.mem_cons] at hc
    rcases hc with hc | rfl | hc
    · exact h.sorted child (List.mem_append_left _ hc)
    · exact (List.pairwise_cons.mp (h.sorted (a :: child) (by simp))).2
    · exact h.sorted child (List.mem_append_right _ (List.mem_cons_of_mem _ hc))
  · obtain ⟨hl, hr, hlr⟩ := List.pairwise_append.mp h.comparable
    obtain ⟨hrest, hl'⟩ := List.pairwise_cons.mp hr
    refine List.pairwise_append.mpr ⟨hl, List.pairwise_cons.mpr ⟨?_, hl'⟩, ?_⟩
    · intro child hc x hx
      exact hrest child hc x (List.mem_cons_of_mem _ hx)
    · intro child hc child' hc' x hx y hy
      rcases List.mem_cons.mp hc' with rfl | hc'
      · exact hlr child hc _ List.mem_cons_self x hx y (List.mem_cons_of_mem _ hy)
      · exact hlr child hc child' (List.mem_cons_of_mem _ hc') x hx y hy

/-- The merge holds the elements of all lists, in order. -/
theorem merge_spec (htrans : ∀ x y z, R x y → R y z → R x z) (h : Mergeable before R children) :
    ∃ out, merge before children = .ok out ∧ out.Perm children.flatten ∧ out.Pairwise R := by
  unfold merge
  generalize hn : children.flatten.length = n
  induction n generalizing children with
  | zero =>
    rw [List.length_eq_zero_iff] at hn
    exact ⟨[], rfl, by rw [hn], List.Pairwise.nil⟩
  | succ n ih =>
    have hnone : Best R ([] : List (List α)) none := by simp [Best]
    obtain ⟨best, hfind, hbest⟩ := findSmallest_spec htrans [] h hnone
    rw [mergeLoop, show findSmallest before 0 none children = .ok best from hfind, Stops.ok_bind]
    rw [List.nil_append] at hbest
    cases best with
    | none =>
      have hnil : children.flatten = [] := by
        rw [List.flatten_eq_nil_iff]
        exact hbest
      rw [hnil] at hn
      cases hn
    | some p =>
      obtain ⟨i, a⟩ := p
      obtain ⟨l, rest, l', rfl, rfl, hheads⟩ := hbest
      have hperm : (l ++ (a :: rest) :: l').flatten.Perm (a :: (l ++ rest :: l').flatten) := by
        simp only [List.flatten_append, List.flatten_cons, List.cons_append]
        exact List.perm_middle
      have hlen : (l ++ rest :: l').flatten.length = n := by
        have := hperm.length_eq
        rw [hn, List.length_cons] at this
        omega
      obtain ⟨out, hout, hperm', hsorted⟩ := ih h.next hlen
      refine ⟨a :: out, ?_, (hperm'.cons a).trans hperm.symm, List.pairwise_cons.mpr ⟨?_, hsorted⟩⟩
      · simp only [next_append, List.tail_cons, hout, Stops.ok_bind]
        rfl
      · intro x hx
        exact Best.before_all htrans h.sorted hheads x (hperm'.mem_iff.mp hx)

/-- What a merge of the lists still has to give. -/
structure Merged (before : α → α → Except ε Bool) (R : α → α → Prop) [DecidableRel R]
    (children : List (List α)) (out : List α) : Prop where
  mergeable : Mergeable before R children
  perm : out.Perm children.flatten
  sorted : out.Pairwise R

theorem Mergeable.merged (htrans : ∀ x y z, R x y → R y z → R x z)
    (h : Mergeable before R children) : ∃ out, Merged before R children out := by
  obtain ⟨out, -, hperm, hsorted⟩ := merge_spec htrans h
  exact ⟨out, h, hperm, hsorted⟩

theorem findSmallest_heads (i : ℕ) (best : Option (ℕ × α)) (children : List (List α)) :
    findSmallest before i best (children.map fun child => child.head?.toList) =
      findSmallest before i best children := by
  induction children generalizing i best with
  | nil => rfl
  | cons child children ih =>
    cases child with
    | nil => exact ih _ _
    | cons a rest =>
      cases best with
      | none => exact ih _ _
      | some p =>
        simp only [List.map_cons, List.head?_cons, Option.toList_some, findSmallest, ih]

theorem Merged.nil (htrans : ∀ x y z, R x y → R y z → R x z) (h : Merged before R children []) :
    findSmallest before 0 none children = .ok none := by
  have hnone : Best R ([] : List (List α)) none := by simp [Best]
  obtain ⟨best, hfind, hbest⟩ := findSmallest_spec htrans [] h.mergeable hnone
  cases best with
  | none => exact hfind
  | some p =>
    obtain ⟨l, rest, l', hsplit, -, -⟩ := hbest
    rw [List.nil_append] at hsplit
    have hmem : p.2 ∈ children.flatten := by simp [hsplit]
    exact absurd (h.perm.mem_iff.mpr hmem) List.not_mem_nil

theorem Merged.cons (htrans : ∀ x y z, R x y → R y z → R x z) (hasymm : ∀ x y, R x y → ¬ R y x)
    {a : α} {out : List α} (h : Merged before R children (a :: out)) :
    ∃ i rest, children[i]? = some (a :: rest) ∧
      findSmallest before 0 none children = .ok (some (i, a)) ∧
      Merged before R (next i children) out := by
  have hnone : Best R ([] : List (List α)) none := by simp [Best]
  obtain ⟨best, hfind, hbest⟩ := findSmallest_spec htrans [] h.mergeable hnone
  have hmem : a ∈ children.flatten := h.perm.mem_iff.mp List.mem_cons_self
  cases best with
  | none =>
    obtain ⟨child, hchild, ha⟩ := List.mem_flatten.mp hmem
    rw [hbest child (by simpa using hchild)] at ha
    cases ha
  | some p =>
    obtain ⟨i, b⟩ := p
    obtain ⟨l, rest, l', hsplit, rfl, hheads⟩ := hbest
    obtain rfl : children = l ++ (b :: rest) :: l' := hsplit
    have hall := Best.before_all htrans h.mergeable.sorted hheads
    have hperm : (l ++ (b :: rest) :: l').flatten.Perm (b :: (l ++ rest :: l').flatten) := by
      simp only [List.flatten_append, List.flatten_cons, List.cons_append]
      exact List.perm_middle
    obtain ⟨hleast, hout⟩ := List.pairwise_cons.mp h.sorted
    obtain rfl : a = b := by
      by_contra hne
      have hb : b ∈ out := by
        have := h.perm.mem_iff.mpr (hperm.mem_iff.mpr List.mem_cons_self)
        exact (List.mem_cons.mp this).resolve_left (Ne.symm hne)
      have ha := (List.mem_cons.mp (hperm.mem_iff.mp hmem)).resolve_left hne
      exact hasymm _ _ (hleast b hb) (hall a ha)
    refine ⟨l.length, rest, by simp, hfind, ?_⟩
    rw [next_append]
    exact ⟨h.mergeable.next, (h.perm.trans hperm).cons_inv, hout⟩

theorem Merged.findSmallest_eq (htrans : ∀ x y z, R x y → R y z → R x z)
    (hasymm : ∀ x y, R x y → ¬ R y x) {out : List α} (h : Merged before R children out) :
    ∃ best, findSmallest before 0 none children = .ok best ∧ best.map Prod.snd = out.head? := by
  cases out with
  | nil => exact ⟨none, h.nil htrans, rfl⟩
  | cons a out =>
    obtain ⟨i, -, -, hfind, -⟩ := h.cons htrans hasymm
    exact ⟨some (i, a), hfind, rfl⟩

end Spec

section Safety

open Stops (Ensures)

variable {permitted : ε → Prop} {before : α → α → Except ε Bool} {P : α → Prop}
  (hb : ∀ a b, P a → P b → Ensures permitted (before a b) fun _ => True)

include hb

theorem ensures_findSmallest {children : List (List α)} (hc : ∀ child ∈ children, ∀ a ∈ child, P a)
    {i : ℕ} {best : Option (ℕ × α)} (hbest : ∀ p ∈ best, P p.2) :
    Ensures permitted (findSmallest before i best children) fun r => ∀ p ∈ r, P p.2 := by
  induction children generalizing i best with
  | nil =>
    rw [findSmallest]
    exact hbest
  | cons child children ih =>
    have hrest : ∀ child ∈ children, ∀ a ∈ child, P a :=
      fun child' h' => hc child' (List.mem_cons_of_mem _ h')
    cases child with
    | nil =>
      rw [findSmallest]
      exact ih hrest hbest
    | cons a child =>
      have ha : P a := hc _ List.mem_cons_self a List.mem_cons_self
      have hnew : ∀ p ∈ some (i, a), P p.2 := by
        rintro p ⟨⟩
        exact ha
      cases best with
      | none =>
        rw [findSmallest]
        exact ih hrest hnew
      | some p =>
        rw [findSmallest]
        refine (hb a p.2 ha (hbest p rfl)).bind fun b _ => ?_
        cases b
        · exact ih hrest hbest
        · exact ih hrest hnew

omit hb in
theorem forall_next {children : List (List α)} (hc : ∀ child ∈ children, ∀ a ∈ child, P a)
    (i : ℕ) : ∀ child ∈ next i children, ∀ a ∈ child, P a := by
  induction children generalizing i with
  | nil => simp [next]
  | cons child children ih =>
    have hrest : ∀ child ∈ children, ∀ a ∈ child, P a :=
      fun child' h' => hc child' (List.mem_cons_of_mem _ h')
    cases i with
    | zero =>
      intro child' h' a ha
      rcases List.mem_cons.mp h' with rfl | h'
      · exact hc child List.mem_cons_self a (List.mem_of_mem_tail ha)
      · exact hrest child' h' a ha
    | succ i =>
      intro child' h' a ha
      rcases List.mem_cons.mp h' with rfl | h'
      · exact hc _ List.mem_cons_self a ha
      · exact ih hrest i child' h' a ha

/-- A merge compares elements of the lists only. -/
theorem ensures_merge {children : List (List α)} (hc : ∀ child ∈ children, ∀ a ∈ child, P a) :
    Ensures permitted (merge before children) fun l => ∀ a ∈ l, P a := by
  have hloop : ∀ (n : ℕ) (children : List (List α)), (∀ child ∈ children, ∀ a ∈ child, P a) →
      Ensures permitted (mergeLoop before n children) fun l => ∀ a ∈ l, P a := by
    intro n
    induction n with
    | zero => exact fun children _ a ha => absurd ha List.not_mem_nil
    | succ n ih =>
      intro children hc
      have hfirst : Ensures permitted (findSmallest before 0 none children)
          fun r => ∀ p ∈ r, P p.2 := ensures_findSmallest hb hc (by simp)
      refine hfirst.bind fun r hr => ?_
      cases r with
      | none => exact fun a ha => absurd ha List.not_mem_nil
      | some p =>
        refine (ih _ (forall_next hc p.1)).bind fun l hl => ?_
        intro a ha
        rcases List.mem_cons.mp ha with rfl | ha
        · exact hr p rfl
        · exact hl a ha
  exact hloop _ _ hc

end Safety

end Merge
