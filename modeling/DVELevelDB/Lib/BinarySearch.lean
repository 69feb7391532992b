import DVELevelDB.Lib.Ensures
import Mathlib.Data.List.TakeWhile
import Mathlib.Data.List.Pairwise

/-! # Searches in sorted lists

The elements before a target come first. Two binary searches, and a search in a list with
restart points: binary over the restarts, then a scan.
-/

namespace BinarySearch

open Stops (Ensures)

variable {τ α : Type}

def firstNot (below : ℕ → Except τ Bool) (left right : ℕ) : Except τ ℕ :=
  if left < right then do
    if ← below ((left + right) / 2) then
      firstNot below ((left + right) / 2 + 1) right
    else
      firstNot below left ((left + right) / 2)
  else
    pure right
  termination_by right - left

def lastBelow (below : ℕ → Except τ Bool) (left right : ℕ) : Except τ ℕ :=
  if left < right then do
    if ← below ((left + right + 1) / 2) then
      lastBelow below ((left + right + 1) / 2) right
    else
      lastBelow below left ((left + right + 1) / 2 - 1)
  else
    pure left
  termination_by right - left

def scan (before : α → Except τ Bool) : List α → Except τ (List α)
  | [] => pure []
  | a :: l => do if ← before a then scan before l else pure (a :: l)

def at? (before : α → Except τ Bool) (l : List α) (i : ℕ) : Except τ Bool :=
  match l[i]? with
  | some a => before a
  | none => pure false

/-- The elements from the first one that is not before the target. -/
def search (before : α → Except τ Bool) (l : List α) : Except τ (List α) := do
  return l.drop (← firstNot (at? before l) 0 l.length)

/-- Every `interval`-th element, the first one included, is a restart point. -/
def searchRestarts (before : α → Except τ Bool) (interval : ℕ) (l : List α) :
    Except τ (List α) := do
  let left ← lastBelow (fun i => at? before l (interval * i)) 0 ((l.length - 1) / interval)
  scan before (l.drop (interval * left))

section Indices

variable {below : ℕ → Except τ Bool} {q : ℕ → Bool} {left right n : ℕ}

theorem firstNot_spec (hlr : left ≤ right) (hn : right ≤ n)
    (hb : ∀ i < n, below i = .ok (q i)) (hq : ∀ i j, i ≤ j → j < n → q j → q i)
    (hl : ∀ i < left, q i) (hr : ∀ i, right ≤ i → i < n → ¬ q i) :
    ∃ r ≤ n, firstNot below left right = .ok r ∧ (∀ i < r, q i) ∧
      ∀ i, r ≤ i → i < n → ¬ q i := by
  induction left, right using firstNot.induct with
  | case1 left right hlt ih1 ih2 =>
    have hm1 : left ≤ (left + right) / 2 := by omega
    have hm2 : (left + right) / 2 < right := by omega
    rw [firstNot, if_pos hlt, hb _ (by omega), Stops.ok_bind]
    cases hmid : q ((left + right) / 2) with
    | true =>
      refine ih1 (by omega) hn (fun i hi => ?_) hr
      exact hq i _ (Nat.lt_succ_iff.mp hi) (by omega) hmid
    | false =>
      refine ih2 hm1 (by omega) hl (fun i hi hin hqi => ?_)
      rw [hq _ i hi hin hqi] at hmid
      cases hmid
  | case2 left right hge =>
    obtain rfl : left = right := by omega
    exact ⟨left, hn, by rw [firstNot, if_neg hge]; rfl, hl, hr⟩

theorem lastBelow_spec (hlr : left ≤ right) (hb : ∀ i ≤ right, below i = .ok (q i))
    (hq : ∀ i j, i ≤ j → j ≤ right → q j → q i) (hl : left = 0 ∨ q left) :
    ∃ r ≤ right, lastBelow below left right = .ok r ∧ (r = 0 ∨ q r) ∧
      ∀ i, r < i → i ≤ right → ¬ q i := by
  induction left, right using lastBelow.induct with
  | case1 left right hlt ih1 ih2 =>
    rw [lastBelow, if_pos hlt, hb _ (by omega), Stops.ok_bind]
    cases hmid : q ((left + right + 1) / 2) with
    | true => exact ih1 (by omega) hb hq (Or.inr hmid)
    | false =>
      obtain ⟨r, hr, h1, h2, h3⟩ := ih2 (by omega) (fun i hi => hb i (by omega))
        (fun i j hij hj => hq i j hij (by omega)) hl
      refine ⟨r, by omega, h1, h2, fun i hri hi hqi => ?_⟩
      by_cases hmi : (left + right + 1) / 2 ≤ i
      · rw [hq _ i hmi hi hqi] at hmid
        cases hmid
      · exact h3 i hri (by omega) hqi
  | case2 left right hge =>
    obtain rfl : left = right := by omega
    refine ⟨left, le_rfl, by rw [lastBelow, if_neg hge]; rfl, hl, fun i h1 h2 => ?_⟩
    omega

end Indices

section Lists

variable {before : α → Except τ Bool} {p : α → Bool} {l : List α}

/-- What is before the target comes before everything that is not. -/
def Split (p : α → Bool) (l : List α) : Prop := l.Pairwise fun a b => p b → p a

theorem Split.index (h : Split p l) {i j : ℕ} (hij : i ≤ j) {a b : α} (ha : l[i]? = some a)
    (hb : l[j]? = some b) (hp : p b) : p a := by
  obtain ⟨hi, rfl⟩ := List.getElem?_eq_some_iff.mp ha
  obtain ⟨hj, rfl⟩ := List.getElem?_eq_some_iff.mp hb
  rcases Nat.lt_or_eq_of_le hij with hlt | rfl
  · exact (List.pairwise_iff_getElem.mp h) i j hi hj hlt hp
  · exact hp

theorem scan_eq (hb : ∀ a ∈ l, before a = .ok (p a)) : scan before l = .ok (l.dropWhile p) := by
  induction l with
  | nil => rfl
  | cons a l ih =>
    rw [scan, hb a List.mem_cons_self, Stops.ok_bind]
    cases hp : p a with
    | false => simp [hp, pure, Except.pure]
    | true => simpa [hp] using ih fun a' ha' => hb a' (List.mem_cons_of_mem _ ha')

theorem dropWhile_drop {n : ℕ} (h : ∀ i < n, ∀ a, l[i]? = some a → p a) :
    (l.drop n).dropWhile p = l.dropWhile p := by
  induction n generalizing l with
  | zero => rfl
  | succ n ih =>
    cases l with
    | nil => rfl
    | cons a l =>
      have ha : p a := h 0 (Nat.succ_pos n) a rfl
      rw [List.drop_succ_cons, List.dropWhile_cons, if_pos ha]
      exact ih fun i hi a' ha' => h (i + 1) (Nat.succ_lt_succ hi) a' (by simpa using ha')

theorem at?_eq (hb : ∀ a ∈ l, before a = .ok (p a)) (i : ℕ) :
    at? before l i = .ok ((l[i]?.map p).getD false) := by
  rw [at?]
  cases hi : l[i]? with
  | none => rfl
  | some a => simpa using hb a (List.mem_of_getElem? hi)

theorem search_eq (hb : ∀ a ∈ l, before a = .ok (p a)) (hs : Split p l) :
    search before l = .ok (l.dropWhile p) := by
  have hq : ∀ i j, i ≤ j → j < l.length → (l[j]?.map p).getD false → (l[i]?.map p).getD false := by
    intro i j hij hj hp
    have hi : i < l.length := by omega
    rw [List.getElem?_eq_getElem hj, Option.map_some, Option.getD_some] at hp
    rw [List.getElem?_eq_getElem hi, Option.map_some, Option.getD_some]
    exact hs.index hij (List.getElem?_eq_getElem hi) (List.getElem?_eq_getElem hj) hp
  obtain ⟨r, hr, h1, h2, h3⟩ := firstNot_spec (Nat.zero_le l.length) le_rfl
    (fun i _ => at?_eq hb i) hq (fun i hi => absurd hi (Nat.not_lt_zero i))
    (fun i hi hin => absurd hin (by omega))
  rw [search, h1, Stops.ok_bind]
  congr 1
  have hpre : ∀ i < r, ∀ a, l[i]? = some a → p a := by
    intro i hi a ha
    have := h2 i hi
    rwa [ha] at this
  rw [← dropWhile_drop hpre]
  cases hd : l.drop r with
  | nil => rfl
  | cons a rest =>
    have hrn : r < l.length := by
      by_contra hge
      rw [List.drop_eq_nil_of_le (by omega)] at hd
      cases hd
    have ha : l[r]? = some a := by
      have := congrArg (fun t => t[0]?) hd
      simpa using this
    have hna := h3 r le_rfl hrn
    rw [ha] at hna
    rw [List.dropWhile_cons, if_neg (by simpa using hna)]

theorem searchRestarts_eq {interval : ℕ}
    (hb : ∀ a ∈ l, before a = .ok (p a)) (hs : Split p l) :
    searchRestarts before interval l = .ok (l.dropWhile p) := by
  have hq : ∀ i j, i ≤ j → j ≤ (l.length - 1) / interval →
      (l[interval * j]?.map p).getD false → (l[interval * i]?.map p).getD false := by
    intro i j hij _ hp
    cases hj : l[interval * j]? with
    | none => rw [hj] at hp; simp at hp
    | some b =>
      rw [hj, Option.map_some, Option.getD_some] at hp
      have hle := Nat.mul_le_mul_left interval hij
      have hlt : interval * i < l.length := by
        have := (List.getElem?_eq_some_iff.mp hj).1
        omega
      rw [List.getElem?_eq_getElem hlt, Option.map_some, Option.getD_some]
      exact hs.index hle (List.getElem?_eq_getElem hlt) hj hp
  obtain ⟨r, hr, h1, h2, -⟩ := lastBelow_spec
    (Nat.zero_le _) (fun i _ => at?_eq hb (interval * i)) hq (Or.inl rfl)
  rw [searchRestarts, h1, Stops.ok_bind, scan_eq fun a ha => hb a (List.mem_of_mem_drop ha)]
  congr 1
  refine dropWhile_drop fun i hir a ha => ?_
  rcases h2 with rfl | h2
  · omega
  · cases hj : l[interval * r]? with
    | none => rw [hj] at h2; simp at h2
    | some b =>
      rw [hj, Option.map_some, Option.getD_some] at h2
      exact hs.index hir.le ha hj h2

end Lists

section Safety

variable {permitted : τ → Prop} {before : α → Except τ Bool} {l : List α}
  {below : ℕ → Except τ Bool} {left right : ℕ}

theorem ensures_firstNot (left right : ℕ)
    (hb : ∀ i, Ensures permitted (below i) fun _ => True) :
    Ensures permitted (firstNot below left right) fun _ => True := by
  induction left, right using firstNot.induct with
  | case1 left right hlt ih1 ih2 =>
    rw [firstNot, if_pos hlt]
    refine (hb _).bind fun b _ => ?_
    cases b
    · exact ih2
    · exact ih1
  | case2 left right hge =>
    rw [firstNot, if_neg hge]
    trivial

theorem ensures_lastBelow (hb : ∀ i, Ensures permitted (below i) fun _ => True) :
    Ensures permitted (lastBelow below left right) fun _ => True := by
  induction left, right using lastBelow.induct with
  | case1 left right hlt ih1 ih2 =>
    rw [lastBelow, if_pos hlt]
    refine (hb _).bind fun b _ => ?_
    cases b
    · exact ih2
    · exact ih1
  | case2 left right hge =>
    rw [lastBelow, if_neg hge]
    trivial

theorem ensures_at? (hb : ∀ a ∈ l, Ensures permitted (before a) fun _ => True) (i : ℕ) :
    Ensures permitted (at? before l i) fun _ => True := by
  rw [at?]
  split
  · rename_i a ha
    exact hb a (List.mem_of_getElem? ha)
  · trivial

theorem ensures_scan (hb : ∀ a ∈ l, Ensures permitted (before a) fun _ => True) :
    Ensures permitted (scan before l) fun l' => ∀ a ∈ l', a ∈ l := by
  induction l with
  | nil => simp [scan]
  | cons a l ih =>
    rw [scan]
    refine (hb a List.mem_cons_self).bind fun b _ => ?_
    cases b
    · exact fun a' ha' => ha'
    · exact (ih fun a' ha' => hb a' (List.mem_cons_of_mem _ ha')).mono
        fun l' hl' a' ha' => List.mem_cons_of_mem _ (hl' a' ha')

theorem ensures_search (hb : ∀ a ∈ l, Ensures permitted (before a) fun _ => True) :
    Ensures permitted (search before l) fun l' => ∀ a ∈ l', a ∈ l :=
  (ensures_firstNot 0 l.length fun i => ensures_at? hb i).bind fun _ _ _ ha => List.mem_of_mem_drop ha

theorem ensures_searchRestarts {interval : ℕ}
    (hb : ∀ a ∈ l, Ensures permitted (before a) fun _ => True) :
    Ensures permitted (searchRestarts before interval l) fun l' => ∀ a ∈ l', a ∈ l := by
  refine (ensures_lastBelow fun i => ensures_at? hb (interval * i)).bind fun left _ => ?_
  exact (ensures_scan fun a ha => hb a (List.mem_of_mem_drop ha)).mono
    fun l' hl' a ha => List.mem_of_mem_drop (hl' a ha)

/-- Whatever the tests say, the search ends with a suffix. -/
theorem search_suffix (hb : ∀ a ∈ l, ∃ b, before a = .ok b) :
    ∃ rest, search before l = .ok rest ∧ rest <:+ l := by
  have hsafe : ∀ a ∈ l, Ensures (fun _ : τ => False) (before a) fun _ => True := by
    intro a ha
    obtain ⟨b, hb'⟩ := hb a ha
    rw [hb']
    trivial
  obtain ⟨r, hr, -⟩ := (ensures_firstNot 0 l.length
    fun i => ensures_at? hsafe i).exists_ok
  exact ⟨l.drop r, by rw [search, hr]; rfl, List.drop_suffix r l⟩

end Safety

end BinarySearch
