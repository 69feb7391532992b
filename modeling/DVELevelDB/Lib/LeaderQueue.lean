import Mathlib.Data.List.Nodup
import Mathlib.Logic.Function.Basic

/-! # Queues whose first caller acts for others

Callers line up. The first one leads: it acts for itself and for some that wait behind it, gives all
of them the same answer and wakes them, and wakes the one that is first then.
-/

namespace LeaderQueue

variable {ι ρ τ : Type*}

/-- Where a call stands. Who is awake looks at the queue again. -/
inductive Place (τ : Type*) where
  | outside
  | asleep
  | awake
  | leading
  | returned (answer : τ)

def Place.roused : Place τ → Place τ
  | .asleep => .awake
  | place => place

/-- The calls that are in line, and the answers that were given to others than the leader. -/
structure Queue (ι ρ τ : Type*) where
  waiting : List (ι × ρ)
  place : ι → Place τ
  answer : ι → Option τ

namespace Queue

def empty : Queue ι ρ τ := ⟨[], fun _ => .outside, fun _ => none⟩

def first (q : Queue ι ρ τ) : Option ι := q.waiting.head?.map (·.1)

section Operations

variable [DecidableEq ι]

def enter (i : ι) (r : ρ) (q : Queue ι ρ τ) : Queue ι ρ τ where
  waiting := q.waiting ++ [(i, r)]
  place := Function.update q.place i (if q.waiting.isEmpty then .leading else .asleep)
  answer := q.answer

def look (i : ι) (q : Queue ι ρ τ) : Place τ :=
  match q.answer i with
  | some t => .returned t
  | none => if q.first = some i then .leading else .asleep

/-- A call that was signaled, or wakes up by itself. -/
def wake (i : ι) (q : Queue ι ρ τ) : Queue ι ρ τ :=
  { q with place := Function.update q.place i (q.look i) }

def signal (is : List ι) (place : ι → Place τ) (i : ι) : Place τ :=
  if i ∈ is then (place i).roused else place i

def followers (n : ℕ) (q : Queue ι ρ τ) : List ι := ((q.waiting.take n).drop 1).map (·.1)

/-- The leader `i` answers the first `n` calls, of which it is one, and returns. -/
def leave (i : ι) (n : ℕ) (t : τ) (q : Queue ι ρ τ) : Queue ι ρ τ where
  waiting := q.waiting.drop n
  place := signal ((q.waiting.drop n).head?.map (·.1)).toList
    (signal (q.followers n) (Function.update q.place i (.returned t)))
  answer j := if j ∈ q.followers n then some t else q.answer j

end Operations

/-- `calls` have been made, `groups` have been answered: each call is answered once, in the order of
the calls. Nobody sleeps who has an answer or whose turn it is. -/
structure Coherent (calls : List (ι × ρ)) (groups : List (List (ι × ρ) × τ)) (q : Queue ι ρ τ) :
    Prop where
  order : calls = groups.flatMap (·.1) ++ q.waiting
  nodup : (calls.map (·.1)).Nodup
  outside : ∀ i, q.place i = .outside ↔ i ∉ calls.map (·.1)
  fresh : ∀ i, q.place i = .outside → q.answer i = none
  inLine : ∀ c ∈ q.waiting, q.answer c.1 = none ∧ ∀ t, q.place c.1 ≠ .returned t
  answered : ∀ g ∈ groups, ∀ c ∈ g.1, q.place c.1 = .returned g.2 ∨
    q.place c.1 = .awake ∧ q.answer c.1 = some g.2
  turn : ∀ i, q.first = some i → q.place i = .awake ∨ q.place i = .leading
  leads : ∀ i, q.place i = .leading → q.first = some i

section Coherent

variable [DecidableEq ι] {calls : List (ι × ρ)} {groups : List (List (ι × ρ) × τ)}
  {q : Queue ι ρ τ} {i : ι}

omit [DecidableEq ι] in
theorem first_eq (h : q.first = some i) : ∃ r tail, q.waiting = (i, r) :: tail := by
  rw [first, Option.map_eq_some_iff] at h
  obtain ⟨⟨i', r⟩, hc, rfl⟩ := h
  obtain ⟨tail, htail⟩ := List.head?_eq_some_iff.mp hc
  exact ⟨r, tail, htail⟩

omit [DecidableEq ι] in
theorem first_mem (h : q.first = some i) : ∃ c ∈ q.waiting, c.1 = i := by
  obtain ⟨r, tail, hw⟩ := first_eq h
  exact ⟨(i, r), hw ▸ List.mem_cons_self, rfl⟩

namespace Coherent

omit [DecidableEq ι] in
theorem mem_calls (h : q.Coherent calls groups) {c : ι × ρ} (hc : c ∈ q.waiting) :
    c.1 ∈ calls.map (·.1) := by
  rw [h.order, List.map_append]
  exact List.mem_append_right _ (List.mem_map_of_mem hc)

omit [DecidableEq ι] in
theorem not_inLine (h : q.Coherent calls groups) {g : List (ι × ρ) × τ} (hg : g ∈ groups)
    {c : ι × ρ} (hc : c ∈ g.1) : c.1 ∉ q.waiting.map (·.1) := by
  have hnodup := h.nodup
  rw [h.order, List.map_append] at hnodup
  have hmem : c.1 ∈ (groups.flatMap (·.1)).map (·.1) :=
    List.mem_map_of_mem (List.mem_flatMap.mpr ⟨g, hg, hc⟩)
  exact fun hin => (List.nodup_append.mp hnodup).2.2 _ hmem _ hin rfl

omit [DecidableEq ι] in
theorem first_calls (h : q.Coherent calls groups) (hi : q.first = some i) :
    i ∈ calls.map (·.1) := by
  obtain ⟨c, hc, rfl⟩ := first_mem hi
  exact h.mem_calls hc

omit [DecidableEq ι] in
theorem group_calls (h : q.Coherent calls groups) {g : List (ι × ρ) × τ} (hg : g ∈ groups)
    {c : ι × ρ} (hc : c ∈ g.1) : c.1 ∈ calls.map (·.1) := by
  rw [h.order]
  exact List.mem_map_of_mem (List.mem_append_left _ (List.mem_flatMap.mpr ⟨g, hg, hc⟩))

theorem enter (h : q.Coherent calls groups) (hi : q.place i = .outside) (r : ρ) :
    (q.enter i r).Coherent (calls ++ [(i, r)]) groups := by
  have hnew : i ∉ calls.map (·.1) := (h.outside i).mp hi
  have hother : ∀ j, j ≠ i → (q.enter i r).place j = q.place j := fun j hj =>
    Function.update_of_ne hj _ _
  have hplace : ∀ j ∈ calls.map (·.1), (q.enter i r).place j = q.place j := by
    rintro j hj
    refine hother j ?_
    rintro rfl
    exact hnew hj
  have hself : (q.enter i r).place i = if q.waiting.isEmpty then .leading else .asleep :=
    Function.update_self _ _ _
  have hfirst : (q.enter i r).first = if q.waiting.isEmpty then some i else q.first := by
    rw [Queue.enter, first, first]
    cases q.waiting <;> rfl
  constructor
  · rw [h.order, List.append_assoc]
    rfl
  · rw [List.map_append]
    refine List.nodup_append.mpr ⟨h.nodup, List.nodup_singleton _, ?_⟩
    rintro j hj k hk rfl
    obtain rfl := List.mem_singleton.mp hk
    exact hnew hj
  · intro j
    rw [List.map_append, List.mem_append, List.map_cons, List.map_nil, List.mem_singleton]
    by_cases hj : j = i
    · subst hj
      rw [hself]
      split_ifs <;> simp
    · rw [hother j hj, h.outside]
      simp [hj]
  · intro j hj
    by_cases hij : j = i
    · rw [hij]
      exact h.fresh i hi
    · rw [hother j hij] at hj
      exact h.fresh j hj
  · intro c hc
    rcases List.mem_append.mp hc with hc | hc
    · rw [hplace _ (h.mem_calls hc)]
      exact h.inLine c hc
    · obtain rfl := List.mem_singleton.mp hc
      refine ⟨h.fresh i hi, fun t => ?_⟩
      rw [hself]
      split_ifs <;> simp
  · intro g hg c hc
    rw [hplace _ (h.group_calls hg hc)]
    exact h.answered g hg c hc
  · intro j hj
    rw [hfirst] at hj
    split_ifs at hj with hempty
    · obtain rfl := Option.some.inj hj
      rw [hself, if_pos hempty]
      exact Or.inr rfl
    · rw [hplace j (h.first_calls hj)]
      exact h.turn j hj
  · intro j hj
    rw [hfirst]
    by_cases hij : j = i
    · subst hij
      rw [hself] at hj
      split_ifs at hj ⊢
      rfl
    · rw [hother j hij] at hj
      have hold := h.leads j hj
      have hne : q.waiting.isEmpty = false := by
        obtain ⟨c, hc, -⟩ := first_mem hold
        exact List.isEmpty_eq_false_iff.mpr (List.ne_nil_of_mem hc)
      rw [hne]
      exact hold

theorem wake (h : q.Coherent calls groups) (hi : q.place i = .asleep ∨ q.place i = .awake) :
    (q.wake i).Coherent calls groups := by
  have hmem : i ∈ calls.map (·.1) := by
    by_contra hout
    rw [← h.outside] at hout
    rcases hi with hi | hi <;> cases hi.symm.trans hout
  have hold : ∀ j, j ≠ i → (q.wake i).place j = q.place j := fun j hj =>
    Function.update_of_ne hj _ _
  have hself : (q.wake i).place i = q.look i := Function.update_self _ _ _
  have hlook : q.look i ≠ .outside := by
    rw [look]
    split
    · nofun
    · split_ifs <;> nofun
  refine ⟨h.order, h.nodup, ?_, ?_, ?_, ?_, ?_, ?_⟩
  · intro j
    by_cases hj : j = i
    · subst hj
      rw [hself]
      exact iff_of_false hlook (not_not_intro hmem)
    · rw [hold j hj, h.outside]
  · intro j hj
    by_cases hij : j = i
    · subst hij
      rw [hself] at hj
      exact absurd hj hlook
    · rw [hold j hij] at hj
      exact h.fresh j hj
  · intro c hc
    refine ⟨(h.inLine c hc).1, fun t => ?_⟩
    by_cases hci : c.1 = i
    · rw [hci, hself, look, ← hci, (h.inLine c hc).1]
      dsimp only
      split_ifs <;> nofun
    · rw [hold _ hci]
      exact (h.inLine c hc).2 t
  · intro g hg c hc
    by_cases hci : c.1 = i
    · left
      rcases h.answered g hg c hc with hret | ⟨-, hans⟩
      · rw [hci] at hret
        rcases hi with hi | hi <;> cases hi.symm.trans hret
      · rw [hci] at hans ⊢
        rw [hself, look, hans]
    · rw [hold _ hci]
      exact h.answered g hg c hc
  · intro j hj
    by_cases hij : j = i
    · subst hij
      obtain ⟨c, hc, hcj⟩ := first_mem hj
      have hnone : q.answer j = none := hcj ▸ (h.inLine c hc).1
      rw [hself, look, hnone]
      exact Or.inr (if_pos hj)
    · rw [hold j hij]
      exact h.turn j hj
  · intro j hj
    by_cases hij : j = i
    · subst hij
      rw [hself, look] at hj
      split at hj
      · cases hj
      · by_contra hne
        have hasleep : (if q.first = some j then Place.leading else .asleep : Place τ) = .asleep :=
          if_neg hne
        cases hj.symm.trans hasleep
    · rw [hold j hij] at hj
      exact h.leads j hj

omit [DecidableEq ι] in
theorem roused_eq (h : q.Coherent calls groups) {c : ι × ρ} (hc : c ∈ q.waiting)
    (hne : q.first ≠ some c.1) : (q.place c.1).roused = .awake := by
  have hmem := h.mem_calls hc
  have hret := (h.inLine c hc).2
  cases hp : q.place c.1 with
  | outside => exact absurd hmem ((h.outside _).mp hp)
  | asleep => rfl
  | awake => rfl
  | leading => exact absurd (h.leads _ hp) hne
  | returned t => exact absurd hp (hret t)

theorem place_leave (h : q.Coherent calls groups) {r : ρ} {tail : List (ι × ρ)}
    (hw : q.waiting = (i, r) :: tail) {n : ℕ} (hn : 1 ≤ n) (t : τ) :
    (q.leave i n t).place i = .returned t ∧
      (∀ j, j ≠ i → (j ∈ q.followers n ∨ (q.leave i n t).first = some j) →
        (q.leave i n t).place j = .awake) ∧
      ∀ j, j ≠ i → j ∉ q.followers n → (q.leave i n t).first ≠ some j →
        (q.leave i n t).place j = q.place j := by
  obtain ⟨m, rfl⟩ := Nat.exists_eq_add_of_le' hn
  have hfollowers : q.followers (m + 1) = (tail.take m).map (·.1) := by
    rw [followers, hw]
    rfl
  have hfirst : (q.leave i (m + 1) t).first = (tail.drop m).head?.map (·.1) := by
    rw [first, Queue.leave, hw]
    rfl
  have hnodup := h.nodup
  rw [h.order, List.map_append, hw] at hnodup
  have htail : i ∉ tail.map (·.1) := (List.nodup_cons.mp (List.nodup_append.mp hnodup).2.1).1
  have hplace : ∀ j, (q.leave i (m + 1) t).place j =
      signal ((q.leave i (m + 1) t).first).toList
        (signal (q.followers (m + 1)) (Function.update q.place i (.returned t))) j := fun _ => rfl
  have hbehind : ∀ j, j ∈ q.followers (m + 1) ∨ (q.leave i (m + 1) t).first = some j →
      ∃ c ∈ tail, c.1 = j := by
    intro j hj
    rw [hfollowers, hfirst] at hj
    rcases hj with hj | hj
    · obtain ⟨c, hc, rfl⟩ := List.mem_map.mp hj
      exact ⟨c, List.mem_of_mem_take hc, rfl⟩
    · obtain ⟨c, hc, rfl⟩ := Option.map_eq_some_iff.mp hj
      exact ⟨c, List.mem_of_mem_drop (List.mem_of_mem_head? hc), rfl⟩
  have hnot : ¬ (i ∈ q.followers (m + 1) ∨ (q.leave i (m + 1) t).first = some i) := by
    intro hi
    obtain ⟨c, hc, heq⟩ := hbehind i hi
    exact htail (heq ▸ List.mem_map_of_mem hc)
  have hsignal : ∀ {is : List ι} {place : ι → Place τ} {j : ι}, j ∉ is →
      signal is place j = place j :=
    fun hj => if_neg hj
  have hroused : ∀ {is : List ι} {place : ι → Place τ} {j : ι}, j ∈ is →
      signal is place j = (place j).roused := fun hj => if_pos hj
  refine ⟨?_, ?_, ?_⟩
  · rw [hplace, hsignal (fun hi => hnot (Or.inr (Option.mem_toList.mp hi))),
      hsignal (fun hi => hnot (Or.inl hi)), Function.update_self]
  · intro j hj hbeh
    obtain ⟨c, hc, rfl⟩ := hbehind j hbeh
    have hne : q.first ≠ some c.1 := by
      rw [first, hw]
      exact fun heq => hj (Option.some.inj heq).symm
    have hawake := h.roused_eq (hw ▸ List.mem_cons_of_mem _ hc) hne
    have htwice : ∀ place : Place τ, place.roused = .awake → place.roused.roused = .awake := by
      intro place hplace
      rw [hplace]
      rfl
    rw [hplace]
    by_cases hfol : c.1 ∈ q.followers (m + 1)
    · by_cases hhead : c.1 ∈ ((q.leave i (m + 1) t).first).toList
      · rw [hroused hhead, hroused hfol, Function.update_of_ne hj]
        exact htwice _ hawake
      · rw [hsignal hhead, hroused hfol, Function.update_of_ne hj]
        exact hawake
    · have hhead := hbeh.resolve_left hfol
      rw [hroused (Option.mem_toList.mpr hhead), hsignal hfol, Function.update_of_ne hj]
      exact hawake
  · intro j hj hfol hhead
    rw [hplace, hsignal (fun hi => hhead (Option.mem_toList.mp hi)), hsignal hfol,
      Function.update_of_ne hj]

theorem leave (h : q.Coherent calls groups) {r : ρ} {tail : List (ι × ρ)}
    (hw : q.waiting = (i, r) :: tail) {n : ℕ} (hn : 1 ≤ n) (t : τ) :
    (q.leave i n t).Coherent calls (groups ++ [(q.waiting.take n, t)]) := by
  obtain ⟨hself, hbehind, hother⟩ := h.place_leave hw hn t
  have hfirst : q.first = some i := by rw [first, hw]; rfl
  have hmem : i ∈ calls.map (·.1) := h.first_calls hfirst
  have hnodup : (q.waiting.map (·.1)).Nodup := by
    have hall := h.nodup
    rw [h.order, List.map_append] at hall
    exact (List.nodup_append.mp hall).2.1
  have hsplit : (q.waiting.take n).map (·.1) = i :: q.followers n := by
    obtain ⟨m, rfl⟩ := Nat.exists_eq_add_of_le' hn
    rw [followers, hw]
    rfl
  have hrest : ∀ c ∈ q.waiting.drop n, c.1 ≠ i ∧ c.1 ∉ q.followers n := by
    intro c hc
    rw [← List.take_append_drop n q.waiting, List.map_append, hsplit] at hnodup
    have hne := (List.nodup_append.mp hnodup).2.2
    refine ⟨?_, fun hfol => ?_⟩
    · rintro rfl
      exact hne _ List.mem_cons_self _ (List.mem_map_of_mem hc) rfl
    · exact hne _ (List.mem_cons_of_mem _ hfol) _ (List.mem_map_of_mem hc) rfl
  have hhead : ∀ j, (q.leave i n t).first = some j → ∃ c ∈ q.waiting.drop n, c.1 = j := fun j hj =>
    first_mem hj
  have hfollower : ∀ j ∈ q.followers n, ∃ c ∈ q.waiting, c.1 = j := by
    intro j hj
    have hj' : j ∈ (q.waiting.take n).map (·.1) := hsplit ▸ List.mem_cons_of_mem _ hj
    obtain ⟨c, hc, rfl⟩ := List.mem_map.mp hj'
    exact ⟨c, List.mem_of_mem_take hc, rfl⟩
  have hline : ∀ j, j ∈ q.followers n ∨ (q.leave i n t).first = some j →
      ∃ c ∈ q.waiting, c.1 = j := by
    rintro j (hj | hj)
    · exact hfollower j hj
    · obtain ⟨c, hc, rfl⟩ := hhead j hj
      exact ⟨c, List.mem_of_mem_drop hc, rfl⟩
  -- who was where before
  have hcases : ∀ j, j = i ∨ j ≠ i ∧ (j ∈ q.followers n ∨ (q.leave i n t).first = some j) ∨
      j ≠ i ∧ j ∉ q.followers n ∧ (q.leave i n t).first ≠ some j := by
    intro j
    tauto
  refine ⟨?_, h.nodup, ?_, ?_, ?_, ?_, ?_, ?_⟩
  · rw [List.flatMap_append, List.flatMap_singleton, List.append_assoc]
    exact h.order.trans (congrArg _ (List.take_append_drop n q.waiting).symm)
  · intro j
    rcases hcases j with rfl | ⟨hj, hbeh⟩ | ⟨hj, hfol, hne⟩
    · rw [hself]
      exact iff_of_false (by nofun) (not_not_intro hmem)
    · obtain ⟨c, hc, rfl⟩ := hline j hbeh
      rw [hbehind c.1 hj hbeh]
      exact iff_of_false (by nofun) (not_not_intro (h.mem_calls hc))
    · rw [hother j hj hfol hne, h.outside]
  · intro j hout
    rcases hcases j with rfl | ⟨hj, hbeh⟩ | ⟨hj, hfol, hne⟩
    · cases hself.symm.trans hout
    · cases (hbehind j hj hbeh).symm.trans hout
    · rw [hother j hj hfol hne] at hout
      exact (if_neg hfol).trans (h.fresh j hout)
  · intro c hc
    obtain ⟨hci, hfol⟩ := hrest c hc
    obtain ⟨hnone, hret⟩ := h.inLine c (List.mem_of_mem_drop hc)
    refine ⟨(if_neg hfol).trans hnone, fun t' => ?_⟩
    by_cases hne : (q.leave i n t).first = some c.1
    · rw [hbehind c.1 hci (Or.inr hne)]
      nofun
    · rw [hother c.1 hci hfol hne]
      exact hret t'
  · intro g hg c hc
    rcases List.mem_append.mp hg with hg | hg
    · have hout : ∀ c' ∈ q.waiting, c'.1 ≠ c.1 := by
        intro c' hc' heq
        exact h.not_inLine hg hc (heq ▸ List.mem_map_of_mem hc')
      have hci : c.1 ≠ i := by
        rintro heq
        exact hout (i, r) (hw ▸ List.mem_cons_self) heq.symm
      have hbeh : ¬ (c.1 ∈ q.followers n ∨ (q.leave i n t).first = some c.1) := by
        intro hbeh
        obtain ⟨c', hc', heq⟩ := hline c.1 hbeh
        exact hout c' hc' heq
      rw [not_or] at hbeh
      rw [hother c.1 hci hbeh.1 hbeh.2]
      refine (h.answered g hg c hc).imp id fun hans => ⟨hans.1, ?_⟩
      exact (if_neg hbeh.1).trans hans.2
    · obtain rfl := List.mem_singleton.mp hg
      have hin : c.1 ∈ i :: q.followers n := hsplit ▸ List.mem_map_of_mem hc
      by_cases hci : c.1 = i
      · rw [hci]
        exact Or.inl hself
      · have hfol := (List.mem_cons.mp hin).resolve_left hci
        exact Or.inr ⟨hbehind c.1 hci (Or.inl hfol), if_pos hfol⟩
  · intro j hj
    obtain ⟨c, hc, rfl⟩ := hhead j hj
    exact Or.inl (hbehind c.1 (hrest c hc).1 (Or.inr hj))
  · intro j hj
    rcases hcases j with rfl | ⟨hji, hbeh⟩ | ⟨hji, hfol, hne⟩
    · cases hself.symm.trans hj
    · cases (hbehind j hji hbeh).symm.trans hj
    · rw [hother j hji hfol hne] at hj
      exact absurd (Option.some.inj ((h.leads j hj).symm.trans hfirst)) hji

end Coherent

end Coherent

end Queue

end LeaderQueue
