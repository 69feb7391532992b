import DVELevelDB.Lib.Merge

/-! # Cursors

A cursor is at an element or behind the last one, and moves forward.
-/
namespace Cursors

class Cursor (σ : Type) (α : outParam Type) where
  /-- The element it is at. -/
  current : σ → Option α
  seekToFirst : σ → σ
  next : σ → σ

open Cursor

variable {σ α : Type} [Cursor σ α] {s : σ} {a : α} {l : List α}

/-- The elements that the cursor is at, one after the other. -/
inductive Delivers : σ → List α → Prop where
  | nil {s : σ} : current s = none → Delivers s []
  | cons {s : σ} {a : α} {l : List α} : current s = some a → Delivers (next s) l →
      Delivers s (a :: l)

theorem Delivers.current_eq (h : Delivers s l) : current s = l.head? := by
  cases h with
  | nil h => exact h
  | cons h _ => exact h

theorem Delivers.next (h : Delivers s (a :: l)) : Delivers (next s) l := by
  cases h with
  | cons _ h => exact h

theorem Delivers.map {τ : Type} [Cursor τ α] {f : σ → τ} (hcurrent : ∀ s, current (f s) = current s)
    (hnext : ∀ s, Cursor.next (f s) = f (Cursor.next s)) (h : Delivers s l) : Delivers (f s) l := by
  induction h with
  | nil h => exact .nil ((hcurrent _).trans h)
  | cons h _ ih => exact .cons ((hcurrent _).trans h) (hnext _ ▸ ih)

section Several

variable {cursors : List σ} {lists : List (List α)}

/-- The elements at which the cursors are, for a merge. -/
def heads (cursors : List σ) : List (List α) := cursors.map fun s => (current s).toList

def advance (i : ℕ) (cursors : List σ) : List σ := cursors.modify i next

theorem heads_eq (h : List.Forall₂ Delivers cursors lists) :
    heads cursors = lists.map fun l => l.head?.toList := by
  induction h with
  | nil => rfl
  | cons h _ ih =>
    rw [heads, List.map_cons, List.map_cons, h.current_eq, ← ih]
    rfl

theorem findSmallest_heads {ε : Type} {before : α → α → Except ε Bool}
    (h : List.Forall₂ Delivers cursors lists) :
    Merge.findSmallest before 0 none (heads cursors) = Merge.findSmallest before 0 none lists := by
  rw [heads_eq h]
  exact Merge.findSmallest_heads 0 none lists

/-- Where the best cursor moves forward, the merge takes a turn. -/
theorem forall₂_advance {P : σ → List α → Prop} {i : ℕ}
    (hnext : ∀ {s a l}, P s (a :: l) → P (next s) l) (h : List.Forall₂ P cursors lists)
    (hi : lists[i]? = some (a :: l)) :
    List.Forall₂ P (advance i cursors) (Merge.next i lists) := by
  induction h generalizing i with
  | nil => cases hi
  | cons hd hrest ih =>
    cases i with
    | zero =>
      obtain rfl := Option.some_inj.mp hi
      exact .cons (hnext hd) hrest
    | succ i => exact .cons hd (ih hi)

end Several

end Cursors
