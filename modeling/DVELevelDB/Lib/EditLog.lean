import Mathlib.Data.List.Basic

/-! # Sets kept as a log of edits

An edit takes elements out of a set by their names and puts others in. While a name stands for
one element, the next edit acts on the set that the edits before it add up to.
-/

namespace EditLog

variable {α ν : Type}

/-- The deletions of an edit go first. -/
structure Edit (α ν : Type) where
  deleted : List ν
  added : List α

def added (edits : List (Edit α ν)) : List α := edits.flatMap (·.added)

section Names

variable (name : α → ν)

/-- What the edit makes of a set. -/
def Edit.Turns (edit : Edit α ν) (S S' : α → Prop) : Prop :=
  ∀ a, S' a ↔ a ∈ edit.added ∨ S a ∧ name a ∉ edit.deleted

/-- A name stands for one element. -/
def Named (L : List α) : Prop := ∀ a ∈ L, ∀ b ∈ L, name a = name b → a = b

variable [DecidableEq ν]

/-- The names that are deleted and not added again. -/
def gone (edits : List (Edit α ν)) : List ν :=
  edits.foldl (fun names edit =>
    (names ++ edit.deleted).filter fun n => n ∉ edit.added.map name) []

/-- The set that the edits add up to. -/
def Live (edits : List (Edit α ν)) (a : α) : Prop := a ∈ added edits ∧ name a ∉ gone name edits

def live (edits : List (Edit α ν)) : List α :=
  (added edits).filter fun a => name a ∉ gone name edits

end Names

section Appended

variable {name : α → ν} {edits : List (Edit α ν)} {edit : Edit α ν} {a : α} {n : ν}

theorem mem_added_concat : a ∈ added (edits ++ [edit]) ↔ a ∈ added edits ∨ a ∈ edit.added := by
  simp [added]

theorem Named.subset {L L' : List α} (h : Named name L) (hsub : ∀ a ∈ L', a ∈ L) : Named name L' :=
  fun a ha b hb hn => h a (hsub a ha) b (hsub b hb) hn

theorem Named.append {L L' : List α} (h : Named name L) (h' : Named name L')
    (hcross : ∀ a ∈ L', ∀ b ∈ L, name a = name b → a = b) : Named name (L ++ L') := by
  intro a ha b hb hn
  rcases List.mem_append.mp ha with ha | ha <;> rcases List.mem_append.mp hb with hb | hb
  · exact h a ha b hb hn
  · exact (hcross b hb a ha hn.symm).symm
  · exact hcross a ha b hb hn
  · exact h' a ha b hb hn

variable [DecidableEq ν]

theorem mem_gone_concat : n ∈ gone name (edits ++ [edit]) ↔
    (n ∈ gone name edits ∨ n ∈ edit.deleted) ∧ n ∉ edit.added.map name := by
  rw [gone, List.foldl_append, List.foldl_cons, List.foldl_nil, List.mem_filter, List.mem_append,
    decide_eq_true_iff]
  rfl

theorem turns_concat (hn : Named name (added (edits ++ [edit]))) :
    edit.Turns name (Live name edits) (Live name (edits ++ [edit])) := by
  intro a
  rw [Live, Live, mem_added_concat, mem_gone_concat]
  constructor
  · rintro ⟨ha | ha, hgone⟩
    · by_cases hname : name a ∈ edit.added.map name
      · obtain ⟨b, hb, heq⟩ := List.mem_map.mp hname
        have hab := hn b (mem_added_concat.mpr (Or.inr hb)) a (mem_added_concat.mpr (Or.inl ha)) heq
        exact Or.inl (hab ▸ hb)
      · refine Or.inr ⟨⟨ha, fun h => hgone ⟨Or.inl h, hname⟩⟩, fun h => hgone ⟨Or.inr h, hname⟩⟩
    · exact Or.inl ha
  · rintro (ha | ⟨⟨ha, hlive⟩, hkept⟩)
    · exact ⟨Or.inr ha, fun h => h.2 (List.mem_map_of_mem ha)⟩
    · refine ⟨Or.inl ha, ?_⟩
      rintro ⟨h | h, -⟩
      · exact hlive h
      · exact hkept h

theorem mem_live : a ∈ live name edits ↔ Live name edits a := by
  simp [live, Live]

theorem live_singleton (hdel : edit.deleted = []) : Live name [edit] a ↔ a ∈ edit.added := by
  simp [Live, added, gone, hdel]

end Appended

end EditLog
