import Mathlib.Data.List.Basic

/-! # Flattened lists

Parts written one after the other are found again from the positions where they start.
-/

namespace Slices

variable {α β : Type*}

/-- Where parts that follow each other start, the first of them at `s`. -/
def starts : ℕ → List (List α) → List ℕ
  | _, [] => []
  | s, part :: parts => s :: starts (s + part.length) parts

/-- What lies between one position and the next. -/
def slices (xs : List α) : List ℕ → List (List α)
  | s :: e :: rest => (xs.drop s).take (e - s) :: slices xs (e :: rest)
  | _ => []

section Starts

variable {s : ℕ} {parts parts' : List (List α)}

@[simp] theorem length_starts : (starts s parts).length = parts.length := by
  induction parts generalizing s with
  | nil => rfl
  | cons part parts ih => rw [starts, List.length_cons, List.length_cons, ih]

theorem starts_append :
    starts s (parts ++ parts') = starts s parts ++ starts (s + parts.flatten.length) parts' := by
  induction parts generalizing s with
  | nil => rfl
  | cons part parts ih =>
    rw [List.cons_append, starts, starts, ih, List.flatten_cons, List.length_append, Nat.add_assoc]
    rfl

theorem starts_concat {part : List α} :
    starts s (parts ++ [part]) = starts s parts ++ [s + parts.flatten.length] :=
  starts_append

theorem positions_getElem? {i : ℕ} (hi : i ≤ parts.length) :
    (starts s parts ++ [s + parts.flatten.length])[i]? =
      some (s + (parts.take i).flatten.length) := by
  induction parts generalizing s i with
  | nil =>
    obtain rfl : i = 0 := by simpa using hi
    rfl
  | cons part parts ih =>
    cases i with
    | zero => rfl
    | succ i =>
      rw [starts, List.cons_append, List.getElem?_cons_succ, List.flatten_cons, List.length_append,
        ← Nat.add_assoc, ih (by simpa using hi), List.take_succ_cons, List.flatten_cons,
        List.length_append, Nat.add_assoc]

end Starts

/-- Flattened parts are recovered from their positions. -/
theorem slices_starts (pre : List α) (parts : List (List α)) :
    slices (pre ++ parts.flatten) (starts pre.length parts ++ [(pre ++ parts.flatten).length]) =
      parts := by
  induction parts generalizing pre with
  | nil => rfl
  | cons part parts ih =>
    have hrest := ih (pre ++ part)
    rw [List.append_assoc, ← List.flatten_cons] at hrest
    have hhead : ((pre ++ (part :: parts).flatten).drop pre.length).take part.length = part := by
      rw [List.drop_left, List.flatten_cons, List.take_left]
    cases parts with
    | nil =>
      simp only [starts, List.cons_append, List.nil_append, slices, List.flatten_cons,
        List.flatten_nil, List.append_nil, List.length_append, Nat.add_sub_cancel_left] at hhead ⊢
      rw [hhead]
    | cons next parts =>
      rw [List.length_append] at hrest
      simp only [starts, List.cons_append, slices, Nat.add_sub_cancel_left] at hrest ⊢
      rw [hhead, hrest]

theorem length_slices (xs : List α) (ps : List ℕ) : (slices xs ps).length = ps.length - 1 := by
  induction ps with
  | nil => rfl
  | cons p ps ih =>
    cases ps with
    | nil => rfl
    | cons q ps =>
      rw [slices, List.length_cons, ih]
      simp

theorem drop_take_flatten {parts : List (List α)} {i : ℕ} {part : List α}
    (h : parts[i]? = some part) (tail : List α) :
    ((parts.flatten ++ tail).drop (parts.take i).flatten.length).take part.length = part ∧
      (parts.take (i + 1)).flatten.length = (parts.take i).flatten.length + part.length := by
  induction parts generalizing i with
  | nil => simp at h
  | cons p parts ih =>
    cases i with
    | zero =>
      obtain rfl : p = part := by simpa using h
      simp
    | succ i =>
      obtain ⟨htake, hlen⟩ := ih (by simpa using h)
      simp only [List.take_succ_cons, List.flatten_cons, List.length_append, List.append_assoc]
      rw [← List.drop_drop, List.drop_left, htake, hlen, Nat.add_assoc]
      exact ⟨rfl, rfl⟩

theorem length_take_flatten_le (parts : List (List α)) (i : ℕ) :
    (parts.take i).flatten.length ≤ parts.flatten.length := by
  have hflat := congrArg List.flatten (List.take_append_drop i parts)
  rw [List.flatten_append] at hflat
  rw [← hflat, List.length_append]
  omega

theorem drop_flatMap {f : β → List α} {w : ℕ} (hw : ∀ b, (f b).length = w) {cells : List β}
    {i : ℕ} {b : β} (h : cells[i]? = some b) (tail : List α) :
    ∃ rest, (cells.flatMap f ++ tail).drop (i * w) = f b ++ rest := by
  induction cells generalizing i with
  | nil => simp at h
  | cons c cells ih =>
    rw [List.flatMap_cons, List.append_assoc]
    cases i with
    | zero =>
      simp only [List.getElem?_cons_zero, Option.some.injEq] at h
      rw [h, Nat.zero_mul, List.drop_zero]
      exact ⟨_, rfl⟩
    | succ i =>
      obtain ⟨rest, hrest⟩ := ih (by simpa using h)
      refine ⟨rest, ?_⟩
      rw [Nat.succ_mul, Nat.add_comm, ← hw c, ← List.drop_drop, List.drop_left, hw c, hrest]

theorem length_flatMap {f : β → List α} {w : ℕ} (hw : ∀ b, (f b).length = w) (cells : List β) :
    (cells.flatMap f).length = cells.length * w := by
  induction cells with
  | nil => simp
  | cons c cells ih => rw [List.flatMap_cons, List.length_append, hw, ih, List.length_cons,
      Nat.succ_mul, Nat.add_comm]

end Slices
