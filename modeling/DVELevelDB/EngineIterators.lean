import DVELevelDB.Comparator
import DVELevelDB.Lib.Positions

/-! # The interface of iterators

All moves of `leveldb::Iterator`, and what it means that an iterator goes through a list.
-/

namespace DVELevelDB

open Positions

/-- `leveldb::Iterator`; where it is not at an entry, some calls fail in an assertion. -/
structure EngineIterator (σ : Type) where
  valid : σ → Bool
  key : σ → Exec Bytes
  value : σ → Exec Bytes
  status : σ → Status
  seekToFirst : σ → Exec σ
  seekToLast : σ → Exec σ
  seek : Bytes → σ → Exec σ
  next : σ → Exec σ
  prev : σ → Exec σ

namespace EngineIterator

variable {σ : Type} {κ : Type*} [LinearOrder κ] {D : Bytes → Prop} {rank : Bytes → κ}
  {l : List (Bytes × Bytes)} {R : σ → ℕ → Prop}

def perform (it : EngineIterator σ) : Move Bytes → σ → Exec σ
  | .seekToFirst => it.seekToFirst
  | .seekToLast => it.seekToLast
  | .seek target => it.seek target
  | .next => it.next
  | .prev => it.prev

def run (it : EngineIterator σ) (ms : List (Move Bytes)) (s : σ) : Exec σ :=
  ms.foldlM (fun s m => it.perform m s) s

def current (it : EngineIterator σ) (s : σ) : Exec (Option (Bytes × Bytes)) := do
  if it.valid s then
    return some (← it.key s, ← it.value s)
  else
    return none

def empty : EngineIterator Status where
  valid _ := false
  key _ := throw .assertion
  value _ := throw .assertion
  status s := s
  seekToFirst s := return s
  seekToLast s := return s
  seek _ s := return s
  next _ := throw .assertion
  prev _ := throw .assertion

/-- An iterator of one of two kinds. -/
def sum {τ : Type} (it : EngineIterator σ) (it' : EngineIterator τ) : EngineIterator (σ ⊕ τ) where
  valid := Sum.elim it.valid it'.valid
  key := Sum.elim it.key it'.key
  value := Sum.elim it.value it'.value
  status := Sum.elim it.status it'.status
  seekToFirst := Sum.elim (fun s => .inl <$> it.seekToFirst s) fun t => .inr <$> it'.seekToFirst t
  seekToLast := Sum.elim (fun s => .inl <$> it.seekToLast s) fun t => .inr <$> it'.seekToLast t
  seek target := Sum.elim (fun s => .inl <$> it.seek target s) fun t => .inr <$> it'.seek target t
  next := Sum.elim (fun s => .inl <$> it.next s) fun t => .inr <$> it'.next t
  prev := Sum.elim (fun s => .inl <$> it.prev s) fun t => .inr <$> it'.prev t

theorem sum_perform {τ : Type} {it : EngineIterator σ} {it' : EngineIterator τ} (m : Move Bytes)
    (t : τ) : (it.sum it').perform m (.inr t) = .inr <$> it'.perform m t := by
  cases m <;> rfl

def before (rank : Bytes → κ) (target : Bytes) (e : Bytes × Bytes) : Bool :=
  rank e.1 < rank target

/-- Targets are keys that the comparator can deal with. -/
def Allowed (D : Bytes → Prop) : Move Bytes → Prop
  | .seek target => D target
  | _ => True

/-- In the states that `R` relates to positions in `l`, the iterator is at that entry of `l`. -/
structure Represents (it : EngineIterator σ) (D : Bytes → Prop) (rank : Bytes → κ)
    (l : List (Bytes × Bytes)) (R : σ → ℕ → Prop) : Prop where
  simulates : Simulates it.perform .assertion (before rank) (Allowed D) l R
  current : ∀ s p, R s p → it.current s = .ok l[p]?
  status : ∀ s p, R s p → it.status s = .ok

section Represents

variable {it : EngineIterator σ} {s : σ} {p : ℕ} {e : Bytes × Bytes}

theorem of_current_none (h : it.current s = .ok none) : it.valid s = false := by
  rw [EngineIterator.current] at h
  cases hvalid : it.valid s with
  | false => rfl
  | true =>
    rw [hvalid, if_pos rfl] at h
    obtain ⟨key, -, h⟩ := Stops.bind_eq_ok.mp h
    obtain ⟨value, -, h⟩ := Stops.bind_eq_ok.mp h
    cases h

theorem of_current_some (h : it.current s = .ok (some e)) :
    it.valid s = true ∧ it.key s = .ok e.1 ∧ it.value s = .ok e.2 := by
  rw [EngineIterator.current] at h
  cases hvalid : it.valid s with
  | false =>
    rw [hvalid] at h
    cases h
  | true =>
    rw [hvalid, if_pos rfl] at h
    obtain ⟨key, hkey, h⟩ := Stops.bind_eq_ok.mp h
    obtain ⟨value, hvalue, h⟩ := Stops.bind_eq_ok.mp h
    obtain rfl := Option.some.inj (Except.ok.inj h)
    exact ⟨rfl, hkey, hvalue⟩

theorem Represents.at_none (h : it.Represents D rank l R) (hs : R s p) (hp : l[p]? = none) :
    it.valid s = false := of_current_none (hp ▸ h.current s p hs)

theorem Represents.at_some (h : it.Represents D rank l R) (hs : R s p) (hp : l[p]? = some e) :
    it.valid s = true ∧ it.key s = .ok e.1 ∧ it.value s = .ok e.2 :=
  of_current_some (hp ▸ h.current s p hs)

theorem Represents.exists {ι : Type*} {R : ι → σ → ℕ → Prop}
    (h : ∀ i, it.Represents D rank l (R i)) : it.Represents D rank l fun s p => ∃ i, R i s p := by
  refine ⟨fun s p hs m hm => ?_, fun s p hs => ?_, fun s p hs => ?_⟩
  · obtain ⟨i, hs⟩ := hs
    have hstep := (h i).simulates s p hs m hm
    cases hp : Positions.move (before rank) l p m with
    | none =>
      rw [hp] at hstep
      exact hstep
    | some p' =>
      rw [hp] at hstep
      obtain ⟨s', hs', hR⟩ := hstep
      exact ⟨s', hs', i, hR⟩
  · obtain ⟨i, hs⟩ := hs
    exact (h i).current s p hs
  · obtain ⟨i, hs⟩ := hs
    exact (h i).status s p hs

theorem Represents.inr {τ : Type} {it' : EngineIterator τ} {R : τ → ℕ → Prop}
    (h : it'.Represents D rank l R) :
    (it.sum it').Represents D rank l fun s p => ∃ t, s = .inr t ∧ R t p := by
  refine ⟨fun s p hs m hm => ?_, fun s p hs => ?_, fun s p hs => ?_⟩
  · obtain ⟨t, rfl, ht⟩ := hs
    have hstep := h.simulates t p ht m hm
    rw [sum_perform]
    cases hp : Positions.move (before rank) l p m with
    | none =>
      rw [hp] at hstep
      rw [hstep]
      rfl
    | some p' =>
      rw [hp] at hstep
      obtain ⟨t', ht', hR⟩ := hstep
      rw [ht']
      exact ⟨.inr t', rfl, t', rfl, hR⟩
  · obtain ⟨t, rfl, ht⟩ := hs
    exact h.current t p ht
  · obtain ⟨t, rfl, ht⟩ := hs
    exact h.status t p ht

theorem Represents.move (h : it.Represents D rank l R) (hs : R s p) {m : Move Bytes}
    (hm : Allowed D m) {p' : ℕ} (hp : Positions.move (before rank) l p m = some p') :
    ∃ s', it.perform m s = .ok s' ∧ R s' p' := by
  have hstep := h.simulates s p hs m hm
  rw [hp] at hstep
  exact hstep

theorem Represents.seekToFirst (h : it.Represents D rank l R) (hs : R s p) :
    ∃ s', it.seekToFirst s = .ok s' ∧ R s' 0 := h.move (m := .seekToFirst) hs trivial rfl

theorem Represents.seekToLast (h : it.Represents D rank l R) (hs : R s p) :
    ∃ s', it.seekToLast s = .ok s' ∧ R s' (l.length - 1) :=
  h.move (m := .seekToLast) hs trivial rfl

theorem Represents.seek (h : it.Represents D rank l R) (hs : R s p) {target : Bytes}
    (ht : D target) : ∃ s', it.seek target s = .ok s' ∧ R s' (ahead (before rank target) l) :=
  h.move (m := .seek target) hs ht rfl

theorem Represents.next (h : it.Represents D rank l R) (hs : R s p) (hp : p < l.length) :
    ∃ s', it.next s = .ok s' ∧ R s' (p + 1) := h.move (m := .next) hs trivial (if_pos hp)

theorem Represents.prev (h : it.Represents D rank l R) (hs : R s p) (hp : p < l.length) :
    ∃ s', it.prev s = .ok s' ∧ R s' (if p = 0 then l.length else p - 1) :=
  h.move (m := .prev) hs trivial (if_pos hp)

end Represents

/-- What a user finds after the moves `ms`, if the iterator goes through `l` and has been at `p`. -/
def Answers (it : EngineIterator σ) (rank : Bytes → κ) (l : List (Bytes × Bytes)) (p : ℕ) (s : σ)
    (ms : List (Move Bytes)) : Prop :=
  match moves (before rank) l ms p with
  | some p' => ∃ s', it.run ms s = .ok s' ∧ it.current s' = .ok l[p']? ∧ it.status s' = .ok
  | none => it.run ms s = .error .assertion

theorem Represents.answers {it : EngineIterator σ} (h : it.Represents D rank l R) {s : σ} {p : ℕ}
    (hs : R s p) {ms : List (Move Bytes)} (hms : ∀ m ∈ ms, Allowed D m) :
    it.Answers rank l p s ms := by
  have hrun := h.simulates.run hs hms
  rw [Answers]
  cases hp : moves (before rank) l ms p with
  | none =>
    rw [hp] at hrun
    exact hrun
  | some p' =>
    rw [hp] at hrun
    obtain ⟨s', hs', hR⟩ := hrun
    exact ⟨s', hs', h.current s' p' hR, h.status s' p' hR⟩

end EngineIterator

end DVELevelDB
