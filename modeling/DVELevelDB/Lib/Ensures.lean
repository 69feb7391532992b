import Mathlib.Data.List.Basic
import Mathlib.Order.Basic

/-! # Computations that may stop

`Except τ α` read as a computation that delivers a value or stops for a reason in `τ`.
-/

namespace Stops

variable {τ α β : Type}

instance decidableEqError [DecidableEq τ] (x : Except τ α) (t : τ) : Decidable (x = .error t) :=
  match x with
  | .ok _ => isFalse (by simp)
  | .error t' => decidable_of_iff (t' = t) ⟨fun h => h ▸ rfl, Except.error.inj⟩

/-- `x` delivers a value with `Q`, or stops for a reason that is permitted. -/
def Ensures (permitted : τ → Prop) (x : Except τ α) (Q : α → Prop) : Prop :=
  match x with
  | .ok a => Q a
  | .error t => permitted t

section Rules

variable {permitted : τ → Prop} {x : Except τ α} {f : α → Except τ β}
  {Q Q' : α → Prop} {R : β → Prop}

@[simp] theorem ensures_ok {a : α} : Ensures permitted (.ok a : Except τ α) Q ↔ Q a := Iff.rfl

@[simp] theorem ensures_pure {a : α} : Ensures permitted (pure a : Except τ α) Q ↔ Q a := Iff.rfl

@[simp] theorem ensures_throw {t : τ} :
    Ensures permitted (throw t : Except τ α) Q ↔ permitted t := Iff.rfl

@[simp] theorem ensures_error {t : τ} :
    Ensures permitted (.error t : Except τ α) Q ↔ permitted t := Iff.rfl

theorem Ensures.mono (h : Ensures permitted x Q) (hQ : ∀ a, Q a → Q' a) :
    Ensures permitted x Q' := by
  cases x with
  | ok a => exact hQ a h
  | error t => exact h

theorem Ensures.imp {permitted' : τ → Prop} (h : Ensures permitted x Q)
    (hp : ∀ t, permitted t → permitted' t) : Ensures permitted' x Q := by
  cases x with
  | ok a => exact h
  | error t => exact hp t h

theorem Ensures.bind (h : Ensures permitted x Q) (hf : ∀ a, Q a → Ensures permitted (f a) R) :
    Ensures permitted (x >>= f) R := by
  cases x with
  | ok a => exact hf a h
  | error t => exact h

theorem Ensures.and {permitted' : τ → Prop} (h : Ensures permitted x Q)
    (h' : Ensures permitted' x Q') :
    Ensures permitted x (fun a => Q a ∧ Q' a) := by
  cases x with
  | ok a => exact ⟨h, h'⟩
  | error t => exact h

theorem Ensures.elim {a : α} (h : Ensures permitted x Q) (hx : x = .ok a) : Q a := by
  subst hx; exact h

/-- What is known of the outcome may be used. -/
theorem Ensures.with_outcome (h : Ensures permitted x Q) :
    Ensures (fun t => permitted t ∧ x = .error t) x fun a => Q a ∧ x = .ok a := by
  cases x with
  | ok a => exact ⟨h, rfl⟩
  | error t => exact ⟨h, rfl⟩

theorem ensures_true : Ensures (fun _ => True) x fun _ => True := by cases x <;> trivial

/-- With no reason to stop permitted, a value is delivered. -/
theorem Ensures.exists_ok (h : Ensures (fun _ : τ => False) x Q) : ∃ a, x = .ok a ∧ Q a := by
  cases x with
  | ok a => exact ⟨a, rfl, h⟩
  | error t => exact False.elim h

theorem bind_eq_ok {b : β} : (x >>= f) = .ok b ↔ ∃ a, x = .ok a ∧ f a = .ok b := by
  cases x with
  | ok a => simp [Bind.bind, Except.bind]
  | error t => simp [Bind.bind, Except.bind]

@[simp] theorem ok_bind {a : α} : ((.ok a : Except τ α) >>= f) = f a := rfl

@[simp] theorem error_bind {t : τ} : ((.error t : Except τ α) >>= f) = .error t := rfl

end Rules

section Loops

variable {permitted : τ → Prop}

theorem ensures_foldlM {f : β → α → Except τ β} {I : β → Prop} {l : List α} {b : β}
    (hb : I b) (hf : ∀ b, I b → ∀ a ∈ l, Ensures permitted (f b a) I) :
    Ensures permitted (l.foldlM f b) I := by
  induction l generalizing b with
  | nil => simpa using hb
  | cons a l ih =>
    rw [List.foldlM_cons]
    refine (hf b hb a List.mem_cons_self).bind fun b' hb' => ih hb' ?_
    exact fun b'' hb'' a' ha' => hf b'' hb'' a' (List.mem_cons_of_mem _ ha')

/-- The elements a test keeps, in order. -/
def keep (p : α → Except τ Bool) : List α → Except τ (List α)
  | [] => pure []
  | a :: l => do
    let b ← p a
    let rest ← keep p l
    return if b then a :: rest else rest

theorem keep_eq_filter {p : α → Except τ Bool} {q : α → Bool} {l : List α}
    (h : ∀ a ∈ l, p a = .ok (q a)) : keep p l = .ok (l.filter q) := by
  induction l with
  | nil => rfl
  | cons a l ih =>
    rw [keep, h a List.mem_cons_self, ih fun a' ha' => h a' (List.mem_cons_of_mem _ ha')]
    cases hq : q a <;> simp [hq, pure, Except.pure]

theorem ensures_keep {p : α → Except τ Bool} {l : List α}
    (h : ∀ a ∈ l, Ensures permitted (p a) fun _ => True) :
    Ensures permitted (keep p l) (fun l' => ∀ a ∈ l', a ∈ l) := by
  induction l with
  | nil => simp [keep]
  | cons a l ih =>
    refine (h a List.mem_cons_self).bind fun b _ => ?_
    refine (ih fun a' ha' => h a' (List.mem_cons_of_mem _ ha')).bind fun rest hrest => ?_
    cases b
    · exact fun a' ha' => List.mem_cons_of_mem _ (hrest a' ha')
    · intro a' ha'
      rcases List.mem_cons.mp ha' with rfl | ha'
      · exact List.mem_cons_self
      · exact List.mem_cons_of_mem _ (hrest a' ha')

end Loops

end Stops
