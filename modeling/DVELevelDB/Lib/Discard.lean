import DVELevelDB.Lib.VersionStore

/-! # Leaving out versions that nobody reads

A part of a store can be rewritten without the versions that a newer one hides from every stamp
still in use, and without deletions of keys that occur nowhere below.
-/
namespace VersionStore
namespace Schema

variable {ε κ ν : Type*} (S : Schema ε κ ν)

/-- A newer version of the key is there for all stamps from `m` on. -/
def Hidden (L : List ε) (m : ℕ) (e : ε) : Prop :=
  ∃ e' ∈ L, S.key e' = S.key e ∧ S.seq e < S.seq e' ∧ S.seq e' ≤ m

/-- A deletion with nothing left to delete in `B`. -/
structure Spent (B : List ε) (m : ℕ) (e : ε) : Prop where
  deletion : S.val e = none
  old : S.seq e ≤ m
  base : ∀ b ∈ B, S.key b ≠ S.key e

/-- The second list is what a rewrite keeps of the first, a part of `L` over `B`. -/
inductive Discards (L B : List ε) (m : ℕ) : List ε → List ε → Prop where
  | nil : Discards L B m [] []
  | keep {e R K} : ¬ S.Hidden L m e → Discards L B m R K → Discards L B m (e :: R) (e :: K)
  | drop {e R K} : S.Hidden L m e ∨ S.Spent B m e → Discards L B m R K →
      Discards L B m (e :: R) K

namespace Discards

variable {S} {L B R K : List ε} {m : ℕ}

theorem sublist (h : Discards S L B m R K) : K.Sublist R := by
  induction h with
  | nil => exact List.Sublist.refl _
  | keep _ _ ih => exact ih.cons_cons _
  | drop _ _ ih => exact ih.cons _

theorem subset (h : Discards S L B m R K) : ∀ e ∈ K, e ∈ R :=
  fun _ he => h.sublist.subset he

theorem visible (h : Discards S L B m R K) : ∀ e ∈ K, ¬ S.Hidden L m e := by
  induction h with
  | nil => simp
  | keep hv _ ih =>
    intro x hx
    rcases List.mem_cons.mp hx with rfl | hx
    · exact hv
    · exact ih x hx
  | drop _ _ ih => exact ih

variable (L B) in
theorem refl (R : List ε) : Discards S L B 0 R R := by
  induction R with
  | nil => exact nil
  | cons e R ih =>
    refine keep ?_ ih
    rintro ⟨e', -, -, hlt, hle⟩
    omega

theorem dropped (h : Discards S L B m R K) :
    ∀ e ∈ R, e ∉ K → S.Hidden L m e ∨ S.Spent B m e := by
  induction h with
  | nil => simp
  | keep _ _ ih =>
    intro x hx hk
    rcases List.mem_cons.mp hx with rfl | hx
    · exact absurd List.mem_cons_self hk
    · exact ih x hx fun hmem => hk (List.mem_cons_of_mem _ hmem)
  | drop hd _ ih =>
    intro x hx hk
    rcases List.mem_cons.mp hx with rfl | hx
    · exact hd
    · exact ih x hx hk

variable {k : κ} {s : ℕ} {e : ε}

/-- The version that a stamp in use sees is kept, unless it is a spent deletion. -/
theorem newest (h : Discards S L B m L K) (hs : m ≤ s) (hn : S.Newest L k s e) :
    e ∈ K ∨ S.Spent B m e := by
  by_cases hk : e ∈ K
  · exact Or.inl hk
  · rcases h.dropped e hn.mem hk with ⟨e', he', hkey, hlt, hle⟩ | hspent
    · have := hn.newest e' he' ⟨hkey.trans hn.visible.1, hle.trans hs⟩
      omega
    · exact Or.inr hspent

variable [DecidableEq κ]

/-- Readers at stamps in use do not notice. -/
theorem read_eq (h : Discards S L B m L K) (hL : S.UniqueSeqs L) (hB : S.UniqueSeqs B)
    (ha : S.Above L B) (hs : m ≤ s) : S.read (K ++ B) k s = S.read (L ++ B) k s := by
  have hK : S.UniqueSeqs K := UniqueSeqs.of_subset S hL h.subset
  have haK : S.Above K B := fun a hmem => ha a (h.subset a hmem)
  rw [read, read, S.lookup_append haK hK hB, S.lookup_append ha hL hB]
  cases hl : S.lookup L k s with
  | none =>
    have habs := S.lookup_eq_none_iff.mp hl
    have hkn : S.lookup K k s = none :=
      S.lookup_eq_none_iff.mpr fun e he => habs e (h.subset e he)
    rw [hkn]
  | some e =>
    have hn := S.newest_of_lookup hl
    by_cases hk : e ∈ K
    · have hke : S.lookup K k s = some e :=
        (S.lookup_eq_some_iff hK).mpr ⟨hk, hn.visible, fun x hx => hn.newest x (h.subset x hx)⟩
      rw [hke]
    · have hspent := (h.newest hs hn).resolve_left hk
      have hkn : S.lookup K k s = none := by
        apply S.lookup_eq_none_iff.mpr
        intro x hx hv
        have hle := hn.newest x (h.subset x hx) hv
        have hkey : S.key e = S.key x := hn.visible.1.trans hv.1.symm
        have hne : S.seq x ≠ S.seq e := by
          intro heq
          rw [hL x (h.subset x hx) e hn.mem hkey.symm heq] at hx
          exact hk hx
        have hold := hspent.old
        exact h.visible x hx ⟨e, hn.mem, hkey, by omega, hold⟩
      have hbn : S.lookup B k s = none := by
        apply S.lookup_eq_none_iff.mpr
        intro b hb hv
        exact hspent.base b hb (hv.1.trans hn.visible.1.symm)
      rw [hkn, hbn]
      simp [hspent.deletion]

end Discards

theorem hidden_iff [LinearOrder κ] {P R : List ε} {e : ε} {m : ℕ}
    (h : (P ++ e :: R).Pairwise S.Before) :
    S.Hidden (P ++ e :: R) m e ↔ ∃ p ∈ P.getLast?, S.key p = S.key e ∧ S.seq p ≤ m := by
  obtain ⟨hP, heR, hPR⟩ := List.pairwise_append.mp h
  constructor
  · rintro ⟨e', he', hkey, hlt, hle⟩
    rcases List.mem_append.mp he' with he' | he'
    · have hne : P ≠ [] := List.ne_nil_of_mem he'
      refine ⟨P.getLast hne, List.getLast?_eq_some_getLast hne, ?_⟩
      have hlast := hPR _ (List.getLast_mem hne) e List.mem_cons_self
      rw [← List.dropLast_append_getLast hne] at hP he'
      rcases List.mem_append.mp he' with he' | he'
      · have hbefore := (List.pairwise_append.mp hP).2.2 e' he' _ List.mem_cons_self
        rcases hbefore with hb | ⟨hb, hseq⟩
        · rcases hlast with hl | ⟨hl, -⟩
          · exact absurd (hb.trans hl) (by rw [hkey]; exact lt_irrefl _)
          · exact absurd hb (by rw [hkey, hl]; exact lt_irrefl _)
        · exact ⟨hb.symm.trans hkey, by omega⟩
      · obtain rfl := List.mem_singleton.mp he'
        exact ⟨hkey, hle⟩
    · rcases List.mem_cons.mp he' with rfl | he'
      · omega
      · rcases (List.pairwise_cons.mp heR).1 e' he' with hb | ⟨-, hseq⟩
        · rw [hkey] at hb
          exact absurd hb (lt_irrefl _)
        · omega
  · rintro ⟨p, hp, hkey, hle⟩
    have hmem := List.mem_of_getLast? hp
    refine ⟨p, List.mem_append_left _ hmem, hkey, ?_, hle⟩
    rcases hPR p hmem e List.mem_cons_self with hb | ⟨-, hseq⟩
    · rw [hkey] at hb
      exact absurd hb (lt_irrefl _)
    · exact hseq

end Schema
end VersionStore
