import Mathlib.Data.List.MinMax
import Mathlib.Data.List.Pairwise
import Mathlib.Data.List.TakeWhile
import Mathlib.Data.Set.Function
import Mathlib.Logic.Function.Basic
import Mathlib.Order.Basic
import Mathlib.Tactic.Order

/-! # Multi-version key-value stores

A store is a list of stamped entries. Reading a key at a stamp returns the newest entry of
that key which is not newer than the stamp; a deletion is an entry without a value.
-/
namespace VersionStore

variable {ε κ ν : Type*}

/-- How an entry type is read as a version: its key, its stamp and its value. -/
structure Schema (ε κ ν : Type*) where
  key : ε → κ
  seq : ε → ℕ
  val : ε → Option ν

namespace Schema

variable (S : Schema ε κ ν)

def Visible (k : κ) (s : ℕ) (e : ε) : Prop := S.key e = k ∧ S.seq e ≤ s

instance [DecidableEq κ] (k : κ) (s : ℕ) (e : ε) : Decidable (S.Visible k s e) :=
  inferInstanceAs (Decidable (_ ∧ _))

structure Newest (L : List ε) (k : κ) (s : ℕ) (e : ε) : Prop where
  mem : e ∈ L
  visible : S.Visible k s e
  newest : ∀ e' ∈ L, S.Visible k s e' → S.seq e' ≤ S.seq e

def Absent (L : List ε) (k : κ) (s : ℕ) : Prop := ∀ e ∈ L, ¬ S.Visible k s e

/-- No two entries of one key carry the same stamp. -/
def UniqueSeqs (L : List ε) : Prop :=
  ∀ a ∈ L, ∀ b ∈ L, S.key a = S.key b → S.seq a = S.seq b → a = b

/-- Every entry of `A` is newer than every entry of `B` with the same key. -/
def Above (A B : List ε) : Prop :=
  ∀ a ∈ A, ∀ b ∈ B, S.key a = S.key b → S.seq b < S.seq a

def lookup [DecidableEq κ] (L : List ε) (k : κ) (s : ℕ) : Option ε :=
  (L.filter (fun e => S.Visible k s e)).argmax S.seq

def read [DecidableEq κ] (L : List ε) (k : κ) (s : ℕ) : Option ν :=
  (S.lookup L k s).bind S.val

section Lookup

variable {L A B : List ε} {k : κ} {s : ℕ} {e : ε}

theorem Newest.unique (hu : S.UniqueSeqs L) {a b : ε} (ha : S.Newest L k s a)
    (hb : S.Newest L k s b) : a = b :=
  hu a ha.mem b hb.mem (ha.visible.1.trans hb.visible.1.symm)
    (le_antisymm (hb.newest a ha.mem ha.visible) (ha.newest b hb.mem hb.visible))

theorem UniqueSeqs.append (hA : S.UniqueSeqs A) (hB : S.UniqueSeqs B) (h : S.Above A B) :
    S.UniqueSeqs (A ++ B) := by
  intro a ha b hb hk hs
  rcases List.mem_append.mp ha with ha | ha <;> rcases List.mem_append.mp hb with hb | hb
  · exact hA a ha b hb hk hs
  · have := h a ha b hb hk; omega
  · have := h b hb a ha hk.symm; omega
  · exact hB a ha b hb hk hs

theorem UniqueSeqs.of_subset (hu : S.UniqueSeqs A) (h : ∀ e ∈ B, e ∈ A) : S.UniqueSeqs B :=
  fun a ha b hb => hu a (h a ha) b (h b hb)

variable [DecidableEq κ]

theorem lookup_eq_none_iff : S.lookup L k s = none ↔ S.Absent L k s := by
  simp [lookup, Absent, List.argmax_eq_none, List.filter_eq_nil_iff]

theorem newest_of_lookup (h : S.lookup L k s = some e) : S.Newest L k s e := by
  have hm := List.argmax_mem (show e ∈ (L.filter _).argmax S.seq from h)
  obtain ⟨hL, hv⟩ := List.mem_filter.mp hm
  refine ⟨hL, of_decide_eq_true hv, fun e' he' hv' => ?_⟩
  exact List.le_of_mem_argmax (List.mem_filter.mpr ⟨he', decide_eq_true hv'⟩) h

theorem lookup_eq_some_iff (hu : S.UniqueSeqs L) :
    S.lookup L k s = some e ↔ S.Newest L k s e := by
  refine ⟨S.newest_of_lookup, fun h => ?_⟩
  cases hl : S.lookup L k s with
  | none => exact absurd h.visible ((S.lookup_eq_none_iff).mp hl e h.mem)
  | some e' => rw [Newest.unique S hu (S.newest_of_lookup hl) h]

theorem lookup_congr (hu : S.UniqueSeqs A) (h : ∀ e, e ∈ A ↔ e ∈ B) :
    S.lookup A k s = S.lookup B k s := by
  have huB : S.UniqueSeqs B := fun a ha b hb =>
    hu a ((h a).mpr ha) b ((h b).mpr hb)
  cases hl : S.lookup B k s with
  | none =>
    rw [lookup_eq_none_iff] at hl ⊢
    exact fun e he => hl e ((h e).mp he)
  | some e =>
    rw [S.lookup_eq_some_iff huB] at hl
    rw [S.lookup_eq_some_iff hu]
    exact ⟨(h e).mpr hl.mem, hl.visible, fun e' he' => hl.newest e' ((h e').mp he')⟩

/-- Searching the newer part first and the older part only on a miss is a lookup in both. -/
theorem lookup_append (h : S.Above A B) (hA : S.UniqueSeqs A) (hB : S.UniqueSeqs B) :
    S.lookup (A ++ B) k s = (S.lookup A k s).or (S.lookup B k s) := by
  have hu := UniqueSeqs.append S hA hB h
  cases hl : S.lookup A k s with
  | some e =>
    rw [Option.some_or, S.lookup_eq_some_iff hu]
    have he := S.newest_of_lookup hl
    refine ⟨List.mem_append_left _ he.mem, he.visible, fun e' he' hv => ?_⟩
    rcases List.mem_append.mp he' with he' | he'
    · exact he.newest e' he' hv
    · exact (h e he.mem e' he' (he.visible.1.trans hv.1.symm)).le
  | none =>
    have ha := (S.lookup_eq_none_iff).mp hl
    rw [Option.none_or]
    cases hb : S.lookup B k s with
    | none =>
      rw [lookup_eq_none_iff] at hb ⊢
      intro e he
      rcases List.mem_append.mp he with he | he
      · exact ha e he
      · exact hb e he
    | some e =>
      have he := S.newest_of_lookup hb
      rw [S.lookup_eq_some_iff hu]
      refine ⟨List.mem_append_right _ he.mem, he.visible, fun e' he' hv => ?_⟩
      rcases List.mem_append.mp he' with he' | he'
      · exact absurd hv (ha e' he')
      · exact he.newest e' he' hv

theorem read_congr (hu : S.UniqueSeqs A) (h : ∀ e, e ∈ A ↔ e ∈ B) :
    S.read A k s = S.read B k s := by
  rw [read, read, S.lookup_congr hu h]

theorem read_append_congr {top : List ε} (ht : S.UniqueSeqs top) (hA : S.UniqueSeqs A)
    (hB : S.UniqueSeqs B) (habove : S.Above top A) (habove' : S.Above top B)
    (h : S.read A k s = S.read B k s) : S.read (top ++ A) k s = S.read (top ++ B) k s := by
  rw [read, read, S.lookup_append habove ht hA, S.lookup_append habove' ht hB]
  cases S.lookup top k s with
  | some e => rfl
  | none => exact h

theorem lookup_flatMap {β : Type*} {part : β → List ε} {l : List β}
    (h : l.Pairwise fun a b => S.Above (part a) (part b)) (hu : ∀ b ∈ l, S.UniqueSeqs (part b)) :
    S.UniqueSeqs (l.flatMap part) ∧
      S.lookup (l.flatMap part) k s = l.findSome? fun b => S.lookup (part b) k s := by
  induction l with
  | nil => exact ⟨fun a ha => by simp at ha, rfl⟩
  | cons b l ih =>
    obtain ⟨hb, hl⟩ := List.pairwise_cons.mp h
    obtain ⟨ihu, ihl⟩ := ih hl fun b' h' => hu b' (List.mem_cons_of_mem _ h')
    have habove : S.Above (part b) (l.flatMap part) := by
      intro x hx y hy
      obtain ⟨b', hb', hy'⟩ := List.mem_flatMap.mp hy
      exact hb b' hb' x hx y hy'
    have hub := hu b List.mem_cons_self
    rw [List.flatMap_cons]
    refine ⟨UniqueSeqs.append S hub ihu habove, ?_⟩
    rw [S.lookup_append habove hub ihu, ihl, List.findSome?_cons]
    cases S.lookup (part b) k s <;> rfl

theorem lookup_of_absent_left (hA : S.Absent A k s) :
    S.lookup (A ++ B) k s = S.lookup B k s := by
  have hf : A.filter (fun e => S.Visible k s e) = [] := by
    simpa [List.filter_eq_nil_iff, Absent] using hA
  simp [lookup, List.filter_append, hf]

theorem lookup_of_absent_right (hB : S.Absent B k s) :
    S.lookup (A ++ B) k s = S.lookup A k s := by
  have hf : B.filter (fun e => S.Visible k s e) = [] := by
    simpa [List.filter_eq_nil_iff, Absent] using hB
  simp [lookup, List.filter_append, hf]

end Lookup

section Sorted

variable [LinearOrder κ] {L : List ε} {k : κ} {s : ℕ}

/-- Ascending keys and, within one key, descending stamps. -/
def Before (a b : ε) : Prop := S.key a < S.key b ∨ S.key a = S.key b ∧ S.seq b < S.seq a

/-- The entries a search for `k` at stamp `s` passes over. -/
def Passed (k : κ) (s : ℕ) (e : ε) : Prop := S.key e < k ∨ S.key e = k ∧ s < S.seq e

instance (k : κ) (s : ℕ) (e : ε) : Decidable (S.Passed k s e) :=
  inferInstanceAs (Decidable (_ ∨ (_ ∧ _)))

theorem Before.trans {a b c : ε} (h : S.Before a b) (h' : S.Before b c) : S.Before a c := by
  rcases h with h | ⟨h, hs⟩ <;> rcases h' with h' | ⟨h', hs'⟩
  · exact Or.inl (lt_trans h h')
  · exact Or.inl (h' ▸ h)
  · exact Or.inl (h ▸ h')
  · exact Or.inr ⟨h.trans h', by omega⟩

theorem Before.asymm {a b : ε} (h : S.Before a b) : ¬ S.Before b a := by
  rintro (h' | ⟨h', hs'⟩)
  · rcases h with h | ⟨h, _⟩
    · exact lt_asymm h h'
    · exact (ne_of_lt h') h.symm
  · rcases h with h | ⟨_, hs⟩
    · exact (ne_of_lt h) h'.symm
    · omega

theorem UniqueSeqs.of_sorted (h : L.Pairwise S.Before) : S.UniqueSeqs L := by
  induction L with
  | nil => intro a ha; simp at ha
  | cons x L ih =>
    obtain ⟨hx, hL⟩ := List.pairwise_cons.mp h
    have clash : ∀ y ∈ L, S.key x = S.key y → S.seq x = S.seq y → False := by
      intro y hy hk hs
      rcases hx y hy with hlt | ⟨_, hlt⟩
      · exact (ne_of_lt hlt) hk
      · omega
    intro a ha b hb hk hs
    rcases List.mem_cons.mp ha with rfl | ha' <;> rcases List.mem_cons.mp hb with rfl | hb'
    · rfl
    · exact (clash b hb' hk hs).elim
    · exact (clash a ha' hk.symm hs.symm).elim
    · exact ih hL a ha' b hb' hk hs

theorem above_of_sorted {A B : List ε} (h : (A ++ B).Pairwise S.Before) : S.Above A B := by
  intro a ha b hb hk
  rcases (List.pairwise_append.mp h).2.2 a ha b hb with hlt | ⟨_, hlt⟩
  · exact absurd hk (ne_of_lt hlt)
  · exact hlt

theorem sorted_insert {e : ε} {p : ε → Bool} (h : L.Pairwise S.Before)
    (hp : ∀ x ∈ L, p x = true ↔ S.Before x e) (hcmp : ∀ x ∈ L, S.Before x e ∨ S.Before e x) :
    (L.takeWhile p ++ e :: L.dropWhile p).Pairwise S.Before := by
  have hsplit : (L.takeWhile p ++ L.dropWhile p).Pairwise S.Before := by
    rwa [List.takeWhile_append_dropWhile]
  obtain ⟨hl, hr, hlr⟩ := List.pairwise_append.mp hsplit
  have hbefore : ∀ x ∈ L.takeWhile p, S.Before x e := fun x hx =>
    (hp x ((List.takeWhile_prefix p).subset hx)).mp (List.mem_takeWhile_imp hx)
  have hafter : ∀ x ∈ L.dropWhile p, S.Before e x := by
    cases hd : L.dropWhile p with
    | nil => simp
    | cons y rest =>
      have hmem : ∀ x ∈ y :: rest, x ∈ L := fun x hx =>
        (List.dropWhile_suffix p).subset (hd ▸ hx)
      have hy : ¬ S.Before y e := by
        rw [← hp y (hmem y List.mem_cons_self)]
        have := List.head?_dropWhile_not p L
        rw [hd] at this
        simpa using this
      have hey := (hcmp y (hmem y List.mem_cons_self)).resolve_left hy
      intro x hx
      rcases List.mem_cons.mp hx with rfl | hx
      · exact hey
      · exact Before.trans S hey ((List.pairwise_cons.mp (hd ▸ hr)).1 x hx)
  refine List.pairwise_append.mpr ⟨hl, List.pairwise_cons.mpr ⟨hafter, hr⟩, ?_⟩
  intro a ha b hb
  rcases List.mem_cons.mp hb with rfl | hb
  · exact hbefore a ha
  · exact hlr a ha b hb

theorem not_passed_of_visible {e : ε} (h : S.Visible k s e) : ¬ S.Passed k s e := by
  obtain ⟨rfl, hs⟩ := h
  rintro (h | ⟨_, h⟩)
  · exact lt_irrefl _ h
  · omega

theorem visible_of_not_passed {e : ε} (h : ¬ S.Passed k s e) (hk : S.key e = k) :
    S.Visible k s e := by
  refine ⟨hk, ?_⟩
  by_contra hs
  exact h (Or.inr ⟨hk, by omega⟩)

/-- In a sorted list a seek lands on the newest visible entry, or shows there is none. -/
theorem lookup_sorted (h : L.Pairwise S.Before) :
    S.lookup L k s = (L.find? (fun e => ¬ S.Passed k s e)).filter (fun e => S.key e = k) := by
  have hu := UniqueSeqs.of_sorted S h
  induction L with
  | nil => rfl
  | cons x L ih =>
    obtain ⟨hx, hL⟩ := List.pairwise_cons.mp h
    by_cases hp : S.Passed k s x
    · have hv : ¬ S.Visible k s x := fun hv => S.not_passed_of_visible hv hp
      have hs := ih hL (UniqueSeqs.of_sorted S hL)
      simp only [List.find?_cons, hp, not_true_eq_false, decide_false]
      rw [← hs, ← S.lookup_of_absent_left (A := [x]) (B := L) (by simpa [Absent] using hv)]
      rfl
    · simp only [List.find?_cons, hp, not_false_eq_true, decide_true]
      by_cases hk : S.key x = k
      · rw [Option.filter_some, if_pos (decide_eq_true hk), S.lookup_eq_some_iff hu]
        refine ⟨List.mem_cons_self, S.visible_of_not_passed hp hk, fun e' he' hv => ?_⟩
        rcases List.mem_cons.mp he' with rfl | he'
        · exact le_rfl
        · rcases hx e' he' with hlt | ⟨_, hlt⟩
          · exact absurd (hk.trans hv.1.symm) (ne_of_lt hlt)
          · exact hlt.le
      · rw [Option.filter_some, if_neg (by simpa using hk), lookup_eq_none_iff]
        have hlt : k < S.key x := by
          rcases lt_trichotomy (S.key x) k with h' | h' | h'
          · exact absurd (Or.inl h') hp
          · exact absurd h' hk
          · exact h'
        intro e he hv
        rcases List.mem_cons.mp he with rfl | he
        · exact hk hv.1
        · rcases hx e he with h' | ⟨h', _⟩
          · exact lt_asymm hlt (hv.1 ▸ h')
          · exact (ne_of_gt hlt) (h'.trans hv.1)

end Sorted

end Schema

/-- A write: a key with its new value, or `none` to delete it. -/
abbrev Update (κ ν : Type*) := κ × Option ν

def applyUpdate [DecidableEq κ] (m : κ → Option ν) (u : Update κ ν) : κ → Option ν :=
  Function.update m u.1 u.2

/-- Updates take effect from left to right. -/
def applyUpdates [DecidableEq κ] (m : κ → Option ν) (us : List (Update κ ν)) : κ → Option ν :=
  us.foldl applyUpdate m

section Updates

variable [DecidableEq κ] (m m' : κ → Option ν) (u : Update κ ν) (us vs : List (Update κ ν))

@[simp] theorem applyUpdates_nil : applyUpdates m [] = m := rfl

@[simp] theorem applyUpdates_cons :
    applyUpdates m (u :: us) = applyUpdates (applyUpdate m u) us := rfl

theorem applyUpdates_append : applyUpdates m (us ++ vs) = applyUpdates (applyUpdates m us) vs :=
  List.foldl_append ..

/-- After a list of updates a key holds what its last update gave it. -/
theorem applyUpdates_apply (k : κ) :
    applyUpdates m us k = match us.reverse.find? (fun u => u.1 = k) with
      | some u => u.2
      | none => m k := by
  induction us using List.reverseRecOn generalizing m with
  | nil => rfl
  | append_singleton us u ih =>
    rw [applyUpdates_append, applyUpdates_cons, applyUpdates_nil, applyUpdate]
    simp only [List.reverse_append, List.reverse_cons, List.reverse_nil, List.nil_append,
      List.singleton_append, List.find?_cons]
    by_cases hk : u.1 = k
    · subst hk; simp
    · rw [Function.update_of_ne (Ne.symm hk), ih]
      simp [hk]

end Updates

section Stamped

variable (S : Schema ε κ ν)

/-- `Stamped S n us es`: `es` records the updates `us` with the stamps `n`, `n + 1`, … -/
inductive Stamped : ℕ → List (Update κ ν) → List ε → Prop where
  | nil (n) : Stamped n [] []
  | cons {n u us e es} : S.key e = u.1 → S.val e = u.2 → S.seq e = n →
      Stamped (n + 1) us es → Stamped n (u :: us) (e :: es)

variable {S} {n : ℕ} {us : List (Update κ ν)} {es L : List ε}

theorem Stamped.bounds (h : Stamped S n us es) :
    ∀ e ∈ es, n ≤ S.seq e ∧ S.seq e < n + us.length := by
  induction h with
  | nil => simp
  | cons _ _ hs _ ih =>
    intro e he
    rcases List.mem_cons.mp he with rfl | he
    · simp only [List.length_cons]; omega
    · have := ih e he; simp only [List.length_cons]; omega

theorem Stamped.uniqueSeqs (h : Stamped S n us es) : S.UniqueSeqs es := by
  induction h with
  | nil => intro a ha; simp at ha
  | cons _ _ hs ht ih =>
    have hb := ht.bounds
    intro a ha b hb' hk hs'
    rcases List.mem_cons.mp ha with rfl | ha' <;> rcases List.mem_cons.mp hb' with rfl | hb''
    · rfl
    · have := hb b hb''; omega
    · have := hb a ha'; omega
    · exact ih a ha' b hb'' hk hs'

variable [DecidableEq κ]

theorem read_newest {u : Update κ ν} {e : ε} (hk : S.key e = u.1) (hv : S.val e = u.2)
    (hs : S.seq e = n + 1) (hL : ∀ x ∈ L, S.seq x ≤ n) (hu : S.UniqueSeqs (e :: L))
    (hb : ∀ x ∈ e :: L, S.seq x ≤ n + 1) (k : κ) :
    S.read (e :: L) k (n + 1) = applyUpdate (fun k => S.read L k n) u k := by
  by_cases hk' : u.1 = k
  · subst hk'
    have hl : S.lookup (e :: L) u.1 (n + 1) = some e := by
      rw [S.lookup_eq_some_iff hu]
      exact ⟨List.mem_cons_self, ⟨hk, hs.le⟩, fun x hx _ => hs ▸ hb x hx⟩
    simp [Schema.read, hl, hv, applyUpdate]
  · have habs : S.Absent [e] k (n + 1) := by
      intro x hx hvis
      obtain rfl := List.mem_singleton.mp hx
      exact hk' (hk.symm.trans hvis.1)
    have hsame : S.lookup L k (n + 1) = S.lookup L k n := by
      have : L.filter (fun e => S.Visible k (n + 1) e) =
          L.filter (fun e => S.Visible k n e) := by
        apply List.filter_congr
        intro x hx
        have := hL x hx
        refine decide_eq_decide.mpr ⟨?_, ?_⟩ <;> rintro ⟨h1, h2⟩ <;> exact ⟨h1, by omega⟩
      simp [Schema.lookup, this]
    rw [applyUpdate, Function.update_of_ne (Ne.symm hk'), Schema.read, Schema.read,
      show e :: L = [e] ++ L from rfl, S.lookup_of_absent_left habs, hsame]

/-- Adding freshly stamped entries to a store performs the updates on what is read. -/
theorem read_stamped (h : Stamped S (n + 1) us es) (hL : ∀ e ∈ L, S.seq e ≤ n)
    (hu : S.UniqueSeqs L) (k : κ) :
    S.read (es ++ L) k (n + us.length) = applyUpdates (fun k => S.read L k n) us k := by
  induction us generalizing n es L with
  | nil => cases h; rfl
  | cons u us ih =>
    obtain _ | ⟨hk, hv, hs, ht⟩ := h
    rename_i e es
    -- the oldest new entry joins the old ones; the induction adds the rest
    have habove : S.Above [e] L := by
      intro a ha b hb _
      obtain rfl := List.mem_singleton.mp ha
      have := hL b hb
      omega
    have hone : S.UniqueSeqs [e] := by
      intro a ha b hb _ _
      rw [List.mem_singleton.mp ha, List.mem_singleton.mp hb]
    have huL : S.UniqueSeqs (e :: L) := Schema.UniqueSeqs.append S hone hu habove
    have hboundL : ∀ x ∈ e :: L, S.seq x ≤ n + 1 := by
      intro x hx
      rcases List.mem_cons.mp hx with rfl | hx
      · exact hs.le
      · exact (hL x hx).trans (by omega)
    have hnew : S.Above es (e :: L) := by
      intro a ha b hb _
      have h1 := (ht.bounds a ha).1
      have h2 := hboundL b hb
      omega
    have hperm : ∀ x, x ∈ e :: es ++ L ↔ x ∈ es ++ e :: L := by intro x; simp; tauto
    have huniq : S.UniqueSeqs (es ++ e :: L) :=
      Schema.UniqueSeqs.append S ht.uniqueSeqs huL hnew
    have hstep := ih ht hboundL huL
    have hlen : n + 1 + us.length = n + (u :: us).length := by simp only [List.length_cons]; omega
    have hone : (fun k => S.read (e :: L) k (n + 1)) = applyUpdate (fun k => S.read L k n) u := by
      funext k'
      exact read_newest hk hv hs hL huL hboundL k'
    rw [hlen, hone] at hstep
    rw [applyUpdates_cons, ← hstep, Schema.read, Schema.read,
      S.lookup_congr (Schema.UniqueSeqs.of_subset S huniq (fun x hx => (hperm x).mp hx)) hperm]

omit [DecidableEq κ] in
theorem Stamped.take (h : Stamped S n us es) (j : ℕ) :
    Stamped S n (us.take j) (es.take j) ∧ ∀ e ∈ es.drop j, n + j ≤ S.seq e := by
  induction h generalizing j with
  | nil n => exact ⟨by simpa using Stamped.nil n, by simp⟩
  | @cons n u us e es hk hv hs ht ih =>
    cases j with
    | zero =>
      refine ⟨Stamped.nil n, fun x hx => ?_⟩
      exact ((Stamped.cons hk hv hs ht).bounds x hx).1
    | succ j =>
      refine ⟨Stamped.cons hk hv hs (ih j).1, fun x hx => ?_⟩
      have := (ih j).2 x hx
      omega

/-- Between the stamps a read sees the updates up to there. -/
theorem read_stamped_take (h : Stamped S (n + 1) us es) (hL : ∀ e ∈ L, S.seq e ≤ n)
    (hu : S.UniqueSeqs L) (j : ℕ) (k : κ) :
    S.read (es ++ L) k (n + j) = applyUpdates (fun k => S.read L k n) (us.take j) k := by
  obtain ⟨htake, hdrop⟩ := h.take j
  have hlen : (us.take j).length ≤ j := List.length_take_le _ _
  have hnone : (es.drop j).filter (fun e => S.Visible k (n + j) e) = [] := by
    rw [List.filter_eq_nil_iff]
    intro e he hv
    have h1 := hdrop e he
    have h2 := (of_decide_eq_true hv).2
    omega
  have hsee : ∀ e ∈ es.take j ++ L, S.seq e ≤ n + (us.take j).length := by
    intro e he
    rcases List.mem_append.mp he with he | he
    · have := (htake.bounds e he).2
      omega
    · exact (hL e he).trans (Nat.le_add_right _ _)
  have hfilter : (es ++ L).filter (fun e => S.Visible k (n + j) e) =
      (es.take j ++ L).filter (fun e => S.Visible k (n + (us.take j).length) e) := by
    conv_lhs => rw [← List.take_append_drop j es]
    rw [List.append_assoc, List.filter_append, List.filter_append, hnone, List.nil_append,
      ← List.filter_append]
    refine List.filter_congr fun e he => ?_
    have := hsee e he
    have hiff : S.Visible k (n + j) e ↔ S.Visible k (n + (us.take j).length) e :=
      and_congr_right fun _ => ⟨fun _ => this, fun _ => by omega⟩
    simp only [hiff]
  rw [← read_stamped htake hL hu k, Schema.read, Schema.read, Schema.lookup, Schema.lookup, hfilter]

end Stamped

end VersionStore
