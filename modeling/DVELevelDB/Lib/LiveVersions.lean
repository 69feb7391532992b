import DVELevelDB.Lib.VersionStore

/-! # The live versions of a store

A scan through sorted versions stops at the newest visible one of each key, if it has a value.
-/
namespace VersionStore

variable {ε κ ν : Type*}

namespace Schema

variable (S : Schema ε κ ν) [LinearOrder κ] {L : List ε} {s : ℕ}

/-- Where a scan stops; it is done with all keys up to `done`. -/
def liveFrom (done : Option κ) : List ε → List ε
  | [] => []
  | e :: L =>
    if (S.val e).isNone then
      liveFrom (some (S.key e)) L
    else if ∃ k ∈ done, S.key e ≤ k then
      liveFrom done L
    else
      e :: liveFrom (some (S.key e)) L

def live (s : ℕ) (L : List ε) : List ε := S.liveFrom none (L.filter fun e => S.seq e ≤ s)

theorem liveFrom_sublist (done : Option κ) (L : List ε) : (S.liveFrom done L).Sublist L := by
  induction L generalizing done with
  | nil => exact List.Sublist.refl _
  | cons e L ih =>
    rw [liveFrom]
    split_ifs
    · exact (ih _).cons _
    · exact (ih _).cons _
    · exact (ih _).cons_cons _

theorem live_sublist (s : ℕ) (L : List ε) : (S.live s L).Sublist L :=
  (S.liveFrom_sublist none _).trans List.filter_sublist

theorem Before.key_le {a b : ε} (h : S.Before a b) : S.key a ≤ S.key b := by
  rcases h with h | ⟨h, -⟩
  · exact h.le
  · exact h.le

theorem mem_liveFrom {done : Option κ} (h : L.Pairwise S.Before)
    (hdone : ∀ k ∈ done, ∀ e ∈ L, k ≤ S.key e) {e : ε} :
    e ∈ S.liveFrom done L ↔ e ∈ L ∧ (S.val e).isSome ∧ (∀ k ∈ done, k < S.key e) ∧
      ∀ e' ∈ L, S.key e' = S.key e → S.seq e' ≤ S.seq e := by
  induction L generalizing done with
  | nil => simp [liveFrom]
  | cons x L ih =>
    obtain ⟨hx, hL⟩ := List.pairwise_cons.mp h
    -- what lies behind `x`, once the scan is done with its key
    have hbehind : e ∈ S.liveFrom (some (S.key x)) L ↔ e ≠ x ∧ e ∈ x :: L ∧ (S.val e).isSome ∧
        (∀ k ∈ done, k < S.key e) ∧ ∀ e' ∈ x :: L, S.key e' = S.key e → S.seq e' ≤ S.seq e := by
      have hnext : ∀ k ∈ some (S.key x), ∀ e ∈ L, k ≤ S.key e := by
        rintro _ ⟨⟩ y hy
        exact (hx y hy).key_le
      rw [ih hL hnext]
      constructor
      · rintro ⟨he, hval, hlt, hnew⟩
        have hxe := hlt _ rfl
        refine ⟨?_, List.mem_cons_of_mem _ he, hval, ?_, ?_⟩
        · rintro rfl
          exact lt_irrefl _ hxe
        · intro k hk
          exact (hdone k hk x List.mem_cons_self).trans_lt hxe
        · intro e' he' hkey
          rcases List.mem_cons.mp he' with rfl | he'
          · exact absurd hkey hxe.ne
          · exact hnew e' he' hkey
      · rintro ⟨hne, he, hval, -, hnew⟩
        have heL := (List.mem_cons.mp he).resolve_left hne
        refine ⟨heL, hval, ?_, fun e' he' => hnew e' (List.mem_cons_of_mem _ he')⟩
        rintro _ ⟨⟩
        rcases hx e heL with hlt | ⟨heq, hseq⟩
        · exact hlt
        · exact absurd (hnew x List.mem_cons_self heq) (not_le.mpr hseq)
    rw [liveFrom]
    by_cases hval : (S.val x).isNone
    · rw [if_pos hval, hbehind]
      refine and_iff_right_of_imp ?_
      rintro ⟨-, hsome, -⟩ rfl
      rw [Option.isNone_iff_eq_none.mp hval] at hsome
      cases hsome
    · rw [if_neg hval]
      by_cases hhidden : ∃ k ∈ done, S.key x ≤ k
      · rw [if_pos hhidden, ih hL fun k hk y hy => hdone k hk y (List.mem_cons_of_mem _ hy)]
        obtain ⟨k, hk, hle⟩ := hhidden
        have hxk : S.key x = k := le_antisymm hle (hdone k hk x List.mem_cons_self)
        constructor
        · rintro ⟨he, hsome, hlt, hnew⟩
          refine ⟨List.mem_cons_of_mem _ he, hsome, hlt, ?_⟩
          intro e' he' hkey
          rcases List.mem_cons.mp he' with rfl | he'
          · exact absurd (hxk.symm.trans hkey) (hlt k hk).ne
          · exact hnew e' he' hkey
        · rintro ⟨he, hsome, hlt, hnew⟩
          refine ⟨?_, hsome, hlt, fun e' he' => hnew e' (List.mem_cons_of_mem _ he')⟩
          rcases List.mem_cons.mp he with rfl | he
          · exact absurd hxk.symm (hlt k hk).ne
          · exact he
      · rw [if_neg hhidden, List.mem_cons, hbehind]
        constructor
        · rintro (rfl | ⟨-, h⟩)
          · have hlt : ∀ k ∈ done, k < S.key e := fun k hk =>
              not_le.mp fun hle => hhidden ⟨k, hk, hle⟩
            refine ⟨List.mem_cons_self, by simpa [Option.isSome_iff_ne_none] using hval, hlt, ?_⟩
            intro e' he' hkey
            rcases List.mem_cons.mp he' with rfl | he'
            · exact le_rfl
            · rcases hx e' he' with hlt | ⟨-, hseq⟩
              · exact absurd hkey.symm hlt.ne
              · exact hseq.le
          · exact h
        · intro h
          by_cases hne : e = x
          · exact Or.inl hne
          · exact Or.inr ⟨hne, h⟩

theorem liveFrom_ascends {done : Option κ} (h : L.Pairwise S.Before)
    (hdone : ∀ k ∈ done, ∀ e ∈ L, k ≤ S.key e) :
    (S.liveFrom done L).Pairwise fun a b => S.key a < S.key b := by
  induction L generalizing done with
  | nil => exact List.Pairwise.nil
  | cons x L ih =>
    obtain ⟨hx, hL⟩ := List.pairwise_cons.mp h
    have hnext : ∀ k ∈ some (S.key x), ∀ e ∈ L, k ≤ S.key e := by
      rintro _ ⟨⟩ y hy
      exact (hx y hy).key_le
    rw [liveFrom]
    split_ifs
    · exact ih hL hnext
    · exact ih hL fun k hk y hy => hdone k hk y (List.mem_cons_of_mem _ hy)
    · refine List.pairwise_cons.mpr ⟨?_, ih hL hnext⟩
      intro e he
      exact ((S.mem_liveFrom hL hnext).mp he).2.2.1 _ rfl

theorem mem_live (h : L.Pairwise S.Before) {e : ε} :
    e ∈ S.live s L ↔ (S.val e).isSome ∧ S.Newest L (S.key e) s e := by
  rw [live, S.mem_liveFrom (h.filter _) (by simp)]
  constructor
  · rintro ⟨he, hval, -, hnew⟩
    obtain ⟨heL, hseq⟩ := List.mem_filter.mp he
    refine ⟨hval, heL, ⟨rfl, of_decide_eq_true hseq⟩, ?_⟩
    intro e' he' hvis
    exact hnew e' (List.mem_filter.mpr ⟨he', decide_eq_true hvis.2⟩) hvis.1
  · rintro ⟨hval, hnew⟩
    refine ⟨List.mem_filter.mpr ⟨hnew.mem, decide_eq_true hnew.visible.2⟩, hval, by simp, ?_⟩
    intro e' he' hkey
    obtain ⟨heL, hseq⟩ := List.mem_filter.mp he'
    exact hnew.newest e' heL ⟨hkey, of_decide_eq_true hseq⟩

theorem live_ascends (h : L.Pairwise S.Before) :
    (S.live s L).Pairwise fun a b => S.key a < S.key b :=
  S.liveFrom_ascends (h.filter _) (by simp)

/-- The live versions are those that reads return. -/
theorem read_eq_some_iff_live (h : L.Pairwise S.Before) {k : κ} {v : ν} :
    S.read L k s = some v ↔ ∃ e ∈ S.live s L, S.key e = k ∧ S.val e = some v := by
  have hu := UniqueSeqs.of_sorted S h
  rw [read, Option.bind_eq_some_iff]
  constructor
  · rintro ⟨e, he, hval⟩
    have hnew := (S.lookup_eq_some_iff hu).mp he
    obtain rfl := hnew.visible.1
    exact ⟨e, (S.mem_live h).mpr ⟨by rw [hval]; rfl, hnew⟩, rfl, hval⟩
  · rintro ⟨e, he, rfl, hval⟩
    exact ⟨e, (S.lookup_eq_some_iff hu).mpr ((S.mem_live h).mp he).2, hval⟩

end Schema

end VersionStore
