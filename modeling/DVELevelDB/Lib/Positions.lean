import DVELevelDB.Lib.Ensures
import Mathlib.Data.List.TakeWhile
import Mathlib.Order.Lattice

/-! # Positions in lists

What an iterator may be asked for, and where it has to be then: at an element of a list, or behind
the last one.
-/

namespace Positions

variable {α τ σ ε : Type*}

inductive Move (τ : Type*) where
  | seekToFirst
  | seekToLast
  | seek (target : τ)
  | next
  | prev

/-- Where a move leads from `p`; `before t` are the elements before the target `t`. Behind the last
element there is one position, and nobody moves from it to a neighbour. -/
def move (before : τ → α → Bool) (l : List α) (p : ℕ) : Move τ → Option ℕ
  | .seekToFirst => some 0
  | .seekToLast => some (l.length - 1)
  | .seek t => some (l.takeWhile (before t)).length
  | .next => if p < l.length then some (p + 1) else none
  | .prev => if p < l.length then some (if p = 0 then l.length else p - 1) else none

def moves (before : τ → α → Bool) (l : List α) (ms : List (Move τ)) (p : ℕ) : Option ℕ :=
  ms.foldlM (move before l) p

section LowerBound

variable {q : α → Bool} {l : List α} {r : ℕ}

theorem takeWhile_length (hr : r ≤ l.length) (hq : ∀ i < r, ∀ a, l[i]? = some a → q a = true)
    (hstop : ∀ a, l[r]? = some a → q a = false) : (l.takeWhile q).length = r := by
  induction l generalizing r with
  | nil => exact (Nat.le_zero.mp hr).symm
  | cons a l ih =>
    cases r with
    | zero => rw [List.takeWhile_cons_of_neg (by simp [hstop a rfl]), List.length_nil]
    | succ r =>
      rw [List.takeWhile_cons_of_pos (hq 0 r.succ_pos a rfl), List.length_cons]
      refine congrArg _ (ih (Nat.le_of_succ_le_succ hr) (fun i hi b hb => ?_) hstop)
      exact hq (i + 1) (Nat.succ_lt_succ hi) b hb

theorem takeWhile_length_le : (l.takeWhile q).length ≤ l.length :=
  (List.takeWhile_prefix q).length_le

theorem of_lt_takeWhile {a : α} (hr : r < (l.takeWhile q).length) (ha : l[r]? = some a) :
    q a = true := by
  obtain ⟨rest, hrest⟩ := List.takeWhile_prefix (l := l) q
  rw [← hrest, List.getElem?_append_left hr] at ha
  exact List.mem_takeWhile_imp (List.mem_of_getElem? ha)

theorem at_takeWhile {a : α} (ha : l[(l.takeWhile q).length]? = some a) : q a = false := by
  induction l with
  | nil => cases ha
  | cons b l ih =>
    cases hb : q b with
    | true =>
      rw [List.takeWhile_cons_of_pos hb, List.length_cons] at ha
      exact ih ha
    | false =>
      rw [List.takeWhile_cons_of_neg (by simp [hb]), List.length_nil] at ha
      obtain rfl := Option.some.inj ha
      exact hb

end LowerBound

section Offset

variable {pieces : List (List α)} {piece : List α}

def offset (pieces : List (List α)) (i : ℕ) : ℕ := (pieces.take i).flatten.length

theorem offset_append {i : ℕ} (hi : i ≤ pieces.length) (more : List (List α)) :
    offset (pieces ++ more) i = offset pieces i := by
  rw [offset, offset, List.take_append_of_le_length hi]

theorem offset_length : offset pieces pieces.length = pieces.flatten.length := by
  rw [offset, List.take_length]

theorem offset_le (pieces : List (List α)) (i : ℕ) : offset pieces i ≤ pieces.flatten.length := by
  rw [offset, ← List.take_append_drop i pieces, List.flatten_append, List.length_append,
    List.take_append_drop]
  exact Nat.le_add_right _ _

theorem offset_succ {i : ℕ} (h : pieces[i]? = some piece) :
    offset pieces (i + 1) = offset pieces i + piece.length := by
  rw [offset, offset, List.take_add_one, h, Option.toList_some, List.flatten_append,
    List.flatten_singleton, List.length_append]

theorem flatten_split {i : ℕ} (h : pieces[i]? = some piece) :
    pieces.flatten = (pieces.take i).flatten ++ (piece ++ (pieces.drop (i + 1)).flatten) := by
  obtain ⟨hi, rfl⟩ := List.getElem?_eq_some_iff.mp h
  rw [← List.flatten_cons, ← List.drop_eq_getElem_cons hi, ← List.flatten_append,
    List.take_append_drop]

end Offset

section Frontier

/-- The first position that does not pass a test. -/
def ahead (q : α → Bool) (l : List α) : ℕ := (l.takeWhile q).length

/-- The last position that passes, or the one behind the last element. -/
def behind (q : α → Bool) (l : List α) : ℕ := if ahead q l = 0 then l.length else ahead q l - 1

variable {κ : Type*} [LinearOrder κ] {rk : α → κ} {q q' : α → Bool} {l : List α} {p : ℕ} {a : α}

def Ascending (rk : α → κ) (l : List α) : Prop := l.Pairwise fun a b => rk a < rk b

/-- What is below an element that passes also passes. -/
def Downward (rk : α → κ) (q : α → Bool) : Prop := ∀ a b, rk a < rk b → q b = true → q a = true

theorem downward_lt (k : κ) : Downward rk fun a => rk a < k := fun a b hab hb => by
  rw [decide_eq_true_iff] at hb ⊢
  exact hab.trans hb

theorem downward_le (k : κ) : Downward rk fun a => rk a ≤ k := fun a b hab hb => by
  rw [decide_eq_true_iff] at hb ⊢
  exact hab.le.trans hb

theorem ahead_congr (h : ∀ a ∈ l, q a = q' a) : ahead q l = ahead q' l := by
  induction l with
  | nil => rfl
  | cons a l ih =>
    have hrest := ih fun b hb => h b (List.mem_cons_of_mem _ hb)
    rw [ahead, ahead] at hrest ⊢
    rw [List.takeWhile_cons, List.takeWhile_cons, h a List.mem_cons_self]
    split_ifs
    · exact congrArg (· + 1) hrest
    · rfl

theorem getElem?_ahead (q : α → Bool) (l : List α) : l[ahead q l]? = l.find? fun a => !q a := by
  induction l with
  | nil => rfl
  | cons a l ih =>
    rw [ahead] at ih ⊢
    cases hq : q a with
    | true =>
      rw [List.takeWhile_cons_of_pos hq, List.length_cons, List.getElem?_cons_succ, ih,
        List.find?_cons_of_neg (by simp [hq])]
    | false =>
      rw [List.takeWhile_cons_of_neg (by simp [hq]), List.length_nil, List.getElem?_cons_zero,
        List.find?_cons_of_pos (by simp [hq])]

theorem behind_congr (h : ∀ a ∈ l, q a = q' a) : behind q l = behind q' l := by
  rw [behind, behind, ahead_congr h]

theorem behind_le : behind q l ≤ l.length := by
  have hle : ahead q l ≤ l.length := takeWhile_length_le
  rw [behind]
  split_ifs
  · exact le_rfl
  · omega

theorem lt_ahead_iff (h : Ascending rk l) (hq : Downward rk q) (ha : l[p]? = some a) :
    p < ahead q l ↔ q a = true := by
  refine ⟨fun hp => of_lt_takeWhile hp ha, fun hqa => ?_⟩
  by_contra hle
  obtain ⟨hp, rfl⟩ := List.getElem?_eq_some_iff.mp ha
  have hlt : ahead q l < l.length := (not_lt.mp hle).trans_lt hp
  have hstop := at_takeWhile (List.getElem?_eq_getElem hlt)
  rcases Nat.lt_or_eq_of_le (not_lt.mp hle) with hlt' | heq
  · have hbelow := List.pairwise_iff_getElem.mp h (ahead q l) p hlt hp hlt'
    exact Bool.false_ne_true (hstop.symm.trans (hq _ _ hbelow hqa))
  · have hsame : l[ahead q l] = l[p] := by simp only [heq]
    rw [hsame] at hstop
    exact Bool.false_ne_true (hstop.symm.trans hqa)

theorem ahead_eq_some (h : Ascending rk l) (hq : Downward rk q) :
    l[ahead q l]? = some a ↔ a ∈ l ∧ q a = false ∧ ∀ b ∈ l, q b = false → rk a ≤ rk b := by
  constructor
  · intro ha
    refine ⟨List.mem_of_getElem? ha, at_takeWhile ha, fun b hb hqb => ?_⟩
    obtain ⟨j, hj⟩ := List.mem_iff_getElem?.mp hb
    have hle : ahead q l ≤ j := by
      by_contra hlt
      rw [(lt_ahead_iff h hq hj).mp (not_le.mp hlt)] at hqb
      cases hqb
    obtain ⟨hn, rfl⟩ := List.getElem?_eq_some_iff.mp ha
    obtain ⟨hj', rfl⟩ := List.getElem?_eq_some_iff.mp hj
    rcases Nat.lt_or_eq_of_le hle with hlt | heq
    · exact (List.pairwise_iff_getElem.mp h _ j hn hj' hlt).le
    · exact le_of_eq (congrArg rk (by simp only [heq]))
  · rintro ⟨ha, hqa, hleast⟩
    obtain ⟨j, hj⟩ := List.mem_iff_getElem?.mp ha
    have hle : ahead q l ≤ j := by
      by_contra hlt
      rw [(lt_ahead_iff h hq hj).mp (not_le.mp hlt)] at hqa
      cases hqa
    obtain ⟨hj', hget⟩ := List.getElem?_eq_some_iff.mp hj
    have hn : ahead q l < l.length := hle.trans_lt hj'
    have hstop := at_takeWhile (List.getElem?_eq_getElem hn)
    have hsmall := hleast _ (List.getElem_mem hn) hstop
    rcases Nat.lt_or_eq_of_le hle with hlt | heq
    · have hbelow := List.pairwise_iff_getElem.mp h _ j hn hj' hlt
      rw [hget] at hbelow
      exact absurd hsmall (not_le.mpr hbelow)
    · rw [heq]
      exact hj

theorem ahead_eq_none (h : Ascending rk l) (hq : Downward rk q) :
    l[ahead q l]? = none ↔ ∀ a ∈ l, q a = true := by
  rw [List.getElem?_eq_none_iff]
  constructor
  · intro hle a ha
    obtain ⟨j, hj⟩ := List.mem_iff_getElem?.mp ha
    exact (lt_ahead_iff h hq hj).mp ((List.getElem?_eq_some_iff.mp hj).1.trans_le hle)
  · intro hall
    by_contra hlt
    have hn := not_le.mp hlt
    have hstop := at_takeWhile (List.getElem?_eq_getElem hn)
    rw [hall _ (List.getElem_mem hn)] at hstop
    cases hstop

theorem behind_eq_none (h : Ascending rk l) (hq : Downward rk q) :
    l[behind q l]? = none ↔ ∀ a ∈ l, q a = false := by
  have hle : ahead q l ≤ l.length := takeWhile_length_le
  constructor
  · intro hnone a ha
    obtain ⟨j, hj⟩ := List.mem_iff_getElem?.mp ha
    have hj' := (List.getElem?_eq_some_iff.mp hj).1
    have hzero : ahead q l = 0 := by
      by_contra hpos
      rw [behind, if_neg hpos, List.getElem?_eq_none_iff] at hnone
      omega
    by_contra hqa
    have hlt := (lt_ahead_iff h hq hj).mpr ((Bool.not_eq_false _).mp hqa)
    omega
  · intro hall
    have hzero : ahead q l = 0 := by
      by_contra hpos
      have hlt : 0 < l.length := (Nat.pos_of_ne_zero hpos).trans_le hle
      have hpass := (lt_ahead_iff h hq (List.getElem?_eq_getElem hlt)).mp (Nat.pos_of_ne_zero hpos)
      rw [hall _ (List.getElem_mem hlt)] at hpass
      cases hpass
    rw [behind, if_pos hzero]
    exact List.getElem?_eq_none le_rfl

theorem behind_eq_some (h : Ascending rk l) (hq : Downward rk q) :
    l[behind q l]? = some a ↔ a ∈ l ∧ q a = true ∧ ∀ b ∈ l, q b = true → rk b ≤ rk a := by
  have hle : ahead q l ≤ l.length := takeWhile_length_le
  by_cases hzero : ahead q l = 0
  · have hnone : l[behind q l]? = none := by
      rw [behind, if_pos hzero]
      exact List.getElem?_eq_none le_rfl
    rw [hnone]
    constructor
    · intro ha
      cases ha
    · rintro ⟨ha, hqa, -⟩
      rw [(behind_eq_none h hq).mp hnone a ha] at hqa
      cases hqa
  · have hn : ahead q l - 1 < l.length := by omega
    have hget := List.getElem?_eq_getElem hn
    have hpass := (lt_ahead_iff h hq hget).mp (by omega)
    have hgreatest : ∀ b ∈ l, q b = true → rk b ≤ rk l[ahead q l - 1] := by
      intro b hb hqb
      obtain ⟨j, hj⟩ := List.mem_iff_getElem?.mp hb
      have hlt := (lt_ahead_iff h hq hj).mpr hqb
      obtain ⟨hj', rfl⟩ := List.getElem?_eq_some_iff.mp hj
      rcases Nat.lt_or_eq_of_le (Nat.le_sub_one_of_lt hlt) with hlt' | heq
      · exact (List.pairwise_iff_getElem.mp h j _ hj' hn hlt').le
      · exact le_of_eq (congrArg rk (by simp only [heq]))
    rw [behind, if_neg hzero, hget]
    constructor
    · intro ha
      obtain rfl := Option.some.inj ha
      exact ⟨List.getElem_mem hn, hpass, hgreatest⟩
    · rintro ⟨ha, hqa, hall⟩
      obtain ⟨j, hj⟩ := List.mem_iff_getElem?.mp ha
      have hlt := (lt_ahead_iff h hq hj).mpr hqa
      obtain ⟨hj', rfl⟩ := List.getElem?_eq_some_iff.mp hj
      rcases Nat.lt_or_eq_of_le (Nat.le_sub_one_of_lt hlt) with hlt' | heq
      · have hbelow := List.pairwise_iff_getElem.mp h j _ hj' hn hlt'
        exact absurd (hall _ (List.getElem_mem hn) hpass) (not_le.mpr hbelow)
      · exact congrArg some (by simp only [heq])

theorem Ascending.eq_of_rank (h : Ascending rk l) {b : α} (ha : a ∈ l) (hb : b ∈ l)
    (hab : rk a = rk b) : a = b := by
  obtain ⟨i, hi, rfl⟩ := List.mem_iff_getElem.mp ha
  obtain ⟨j, hj, rfl⟩ := List.mem_iff_getElem.mp hb
  rcases Nat.lt_trichotomy i j with hlt | rfl | hgt
  · exact absurd hab (ne_of_lt (List.pairwise_iff_getElem.mp h i j hi hj hlt))
  · rfl
  · exact absurd hab (ne_of_gt (List.pairwise_iff_getElem.mp h j i hj hi hgt))

theorem ahead_bound (h : Ascending rk l) (hq : Downward rk q) (ha : l[ahead q l]? = some a) :
    ∀ b ∈ l, q b = decide (rk b < rk a) := by
  obtain ⟨hmem, hqa, hleast⟩ := (ahead_eq_some h hq).mp ha
  intro b hb
  rw [Bool.eq_iff_iff, decide_eq_true_iff]
  constructor
  · intro hqb
    by_contra hge
    rcases (not_lt.mp hge).lt_or_eq with hlt | heq
    · exact Bool.false_ne_true (hqa.symm.trans (hq _ _ hlt hqb))
    · rw [h.eq_of_rank hmem hb heq] at hqa
      exact Bool.false_ne_true (hqa.symm.trans hqb)
  · intro hlt
    by_contra hqb
    exact absurd (hleast b hb ((Bool.not_eq_true _).mp hqb)) (not_le.mpr hlt)

theorem behind_bound (h : Ascending rk l) (hq : Downward rk q) (ha : l[behind q l]? = some a) :
    ∀ b ∈ l, q b = decide (rk b ≤ rk a) := by
  obtain ⟨hmem, hqa, hgreatest⟩ := (behind_eq_some h hq).mp ha
  intro b hb
  rw [Bool.eq_iff_iff, decide_eq_true_iff]
  refine ⟨hgreatest b hb, fun hle => ?_⟩
  rcases hle.lt_or_eq with hlt | heq
  · exact hq _ _ hlt hqa
  · rw [h.eq_of_rank hb hmem heq]
    exact hqa

theorem ahead_lt_of_get (h : Ascending rk l) (ha : l[p]? = some a) :
    ahead (fun b => rk b < rk a) l = p := by
  obtain ⟨hp, rfl⟩ := List.getElem?_eq_some_iff.mp ha
  refine takeWhile_length hp.le (fun i hi b hb => ?_) fun b hb => ?_
  · obtain ⟨hi', rfl⟩ := List.getElem?_eq_some_iff.mp hb
    exact decide_eq_true (List.pairwise_iff_getElem.mp h i p hi' hp hi)
  · obtain ⟨-, rfl⟩ := List.getElem?_eq_some_iff.mp hb
    exact decide_eq_false (lt_irrefl _)

theorem ahead_le_of_get (h : Ascending rk l) (ha : l[p]? = some a) :
    ahead (fun b => rk b ≤ rk a) l = p + 1 := by
  obtain ⟨hp, rfl⟩ := List.getElem?_eq_some_iff.mp ha
  refine takeWhile_length hp (fun i hi b hb => ?_) fun b hb => ?_
  · obtain ⟨hi', rfl⟩ := List.getElem?_eq_some_iff.mp hb
    rcases Nat.lt_or_eq_of_le (Nat.le_of_lt_succ hi) with hlt | rfl
    · exact decide_eq_true (List.pairwise_iff_getElem.mp h i p hi' hp hlt).le
    · exact decide_eq_true le_rfl
  · obtain ⟨hp', rfl⟩ := List.getElem?_eq_some_iff.mp hb
    exact decide_eq_false (not_le.mpr (List.pairwise_iff_getElem.mp h p _ hp hp' p.lt_succ_self))

end Frontier

section Pieces

variable {pieces : List (List α)} {piece l l' : List α} {q : α → Bool} {i : ℕ}

theorem getElem?_offset {j : ℕ} (h : pieces[i]? = some piece) (hj : j < piece.length) :
    pieces.flatten[offset pieces i + j]? = piece[j]? := by
  rw [flatten_split h, offset, List.getElem?_append_right (Nat.le_add_right _ _),
    Nat.add_sub_cancel_left, List.getElem?_append_left hj]

theorem ahead_all (h : ∀ a ∈ l, q a = true) : ahead q l = l.length := by
  rw [ahead, List.takeWhile_eq_self_iff.mpr h]

theorem ahead_append_left (h : ∀ a ∈ l', q a = false) : ahead q (l ++ l') = ahead q l := by
  have hnone : l'.takeWhile q = [] := by
    cases l' with
    | nil => rfl
    | cons a l' => exact List.takeWhile_cons_of_neg (by simp [h a List.mem_cons_self])
  rw [ahead, ahead, List.takeWhile_append, hnone, List.append_nil]
  split_ifs with hall
  · exact hall.symm
  · rfl

theorem ahead_offset (h : pieces[i]? = some piece)
    (hearlier : ∀ a ∈ (pieces.take i).flatten, q a = true)
    (hlater : ∀ a ∈ (pieces.drop (i + 1)).flatten, q a = false) :
    ahead q pieces.flatten = offset pieces i + ahead q piece := by
  rw [flatten_split h, ahead, List.takeWhile_append_of_pos hearlier, List.length_append, offset,
    ← ahead, ahead_append_left hlater]

theorem length_le_flatten (h : ∀ piece ∈ pieces, piece ≠ []) :
    pieces.length ≤ pieces.flatten.length := by
  induction pieces with
  | nil => exact le_rfl
  | cons piece pieces ih =>
    have hpos := List.length_pos_iff.mpr (h piece List.mem_cons_self)
    have hrest := ih fun p hp => h p (List.mem_cons_of_mem _ hp)
    rw [List.flatten_cons, List.length_append, List.length_cons]
    omega

end Pieces

section Simulation

variable {before : τ → α → Bool} {l : List α}

/-- States of an iterator that `R` relates to positions: it moves as it has to, and fails with
`misuse` where no move is allowed. -/
def Simulates (perform : Move τ → σ → Except ε σ) (misuse : ε) (before : τ → α → Bool)
    (allowed : Move τ → Prop) (l : List α) (R : σ → ℕ → Prop) : Prop :=
  ∀ s p, R s p → ∀ m, allowed m →
    match move before l p m with
    | some p' => ∃ s', perform m s = .ok s' ∧ R s' p'
    | none => perform m s = .error misuse

theorem Simulates.run {perform : Move τ → σ → Except ε σ} {misuse : ε} {allowed : Move τ → Prop}
    {R : σ → ℕ → Prop} (h : Simulates perform misuse before allowed l R) {s : σ} {p : ℕ}
    (hs : R s p) {ms : List (Move τ)} (hms : ∀ m ∈ ms, allowed m) :
    match moves before l ms p with
    | some p' => ∃ s', ms.foldlM (fun s m => perform m s) s = .ok s' ∧ R s' p'
    | none => ms.foldlM (fun s m => perform m s) s = .error misuse := by
  induction ms generalizing s p with
  | nil => exact ⟨s, rfl, hs⟩
  | cons m ms ih =>
    have hstep := h s p hs m (hms m List.mem_cons_self)
    rw [moves, List.foldlM_cons]
    cases hp : move before l p m with
    | none =>
      rw [hp] at hstep
      rw [List.foldlM_cons, hstep]
      rfl
    | some p' =>
      rw [hp] at hstep
      obtain ⟨s', hs', hR⟩ := hstep
      rw [List.foldlM_cons, hs']
      exact ih hR fun m' hm' => hms m' (List.mem_cons_of_mem _ hm')

end Simulation

end Positions
