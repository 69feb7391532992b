import DVELevelDB.Objects

/-! # The order of deletions

The engine wants iterators and snapshots deleted before their database, and its comparator,
logger, filter policy and block cache after all of them.
-/

namespace DVELevelDB

def facades : List Part := [.comparator, .logger, .filterPolicy, .blockCache]

def Opened (os : List Object) (db : ℕ) : Prop := ∃ t ∈ os[db]?, .database ∈ t.parts

instance (os : List Object) (db : ℕ) : Decidable (Opened os db) :=
  inferInstanceAs (Decidable (∃ t ∈ os[db]?, .database ∈ t.parts))

/-- The engine's rule on deletions in one state. -/
structure TornDown (os : List Object) : Prop where
  iterators : ∀ o ∈ os, ∀ db, o.kind = .iterator db → .iterator ∈ o.parts → Opened os db
  snapshots : ∀ o ∈ os, ∀ db, o.kind = .snapshot db → .snapshot ∈ o.parts → Opened os db
  facades : ∀ i, ∀ t ∈ os[i]?, t.kind = .database → ∀ p ∈ facades, p ∉ t.parts →
    .database ∉ t.parts ∧ ∀ o ∈ os, o.kind = .iterator i → .iterator ∉ o.parts

/-- A database is deallocated after the last of its engine iterators is deleted. -/
def Orderly (os : List Object) : Event → Prop
  | .dealloc db => ∀ o ∈ os, o.kind = .iterator db → .iterator ∉ o.parts
  | _ => True

instance (os : List Object) (ev : Event) : Decidable (Orderly os ev) :=
  match ev with
  | .dealloc db =>
    inferInstanceAs (Decidable (∀ o ∈ os, o.kind = .iterator db → .iterator ∉ o.parts))
  | .openDatabase | .newIterator _ _ | .newSnapshot _ | .newReadOptions | .newWriteBatch _
  | .copyWriteBatch _ _ | .setSnapshot _ _ | .retain _ | .release _ | .deletePart _
  | .destroy _ => inferInstanceAs (Decidable True)

section Order

variable {os : List Object}

theorem Invariant.opened (h : Invariant os) {db : ℕ} {t : Object} (ht : t ∈ os[db]?)
    (hk : t.kind = .database) (ha : Alive os db) : Opened os db := by
  obtain ⟨x, hx, hp⟩ := ha
  obtain rfl : t = x := Option.some_inj.mp (ht.symm.trans hx)
  refine ⟨t, ht, ?_⟩
  rw [h.alive_parts t (List.mem_of_getElem? ht) hp, hk]
  exact List.mem_cons_self

theorem Invariant.snapshot_opened (h : Invariant os) {o : Object} (ho : o ∈ os) {db : ℕ}
    (hk : o.kind = .snapshot db) (hs : .snapshot ∈ o.parts) : Opened os db := by
  have hp : o.phase ≠ .gone := by
    intro hp
    rw [h.gone_parts o ho hp] at hs
    cases hs
  have hdb : db ∈ o.strong := by
    apply h.owner o ho hp
    rw [hk]
    exact List.mem_singleton.mpr rfl
  obtain ⟨t, ht, htk⟩ := h.creator o ho db (by rw [hk]; rfl)
  exact h.opened ht htk (h.strong_alive o ho db hdb)

theorem Invariant.database_last (h : Invariant os) {i : ℕ} {t : Object} (ht : t ∈ os[i]?)
    (hk : t.kind = .database) {p : Part} (hp : p ∈ DVELevelDB.facades) (hn : p ∉ t.parts) :
    .database ∉ t.parts := by
  intro hdb
  have hsuffix := h.parts_suffix t (List.mem_of_getElem? ht)
  rw [hk] at hsuffix
  rcases List.suffix_cons_iff.mp hsuffix with heq | htail
  · apply hn
    rw [heq]
    exact List.mem_cons_of_mem _ hp
  · have := htail.subset hdb
    simp at this

/-- While an engine iterator is not deleted its database is alive. -/
def Guarded (os : List Object) : Prop :=
  ∀ o ∈ os, ∀ db, o.kind = .iterator db → .iterator ∈ o.parts → Alive os db

theorem step_guarded (h : Invariant os) (hg : Guarded os) {ev : Event} (he : Enabled os ev)
    (ho : Orderly os ev) : Guarded (next os ev) := by
  intro o hmem db hk hit
  rcases mem_next h he hmem with ⟨x, hx, hxk, hxp⟩ | ⟨kind, rfl, hnext, hdb⟩
  · have hxit := hxp.subset hit
    rw [hk] at hxk
    apply (hg x hx db hxk.symm hxit).next he
    rintro rfl
    exact ho x hx hxk.symm hxit
  · rw [hnext]
    apply Alive.push
    apply hdb
    have hk' : kind = .iterator db := hk
    rw [hk']
    rfl

theorem reachable_guarded (h : Reachable Orderly os) : Guarded os := by
  induction h with
  | initial =>
    intro o ho
    cases ho
  | step hr he ho ih => exact step_guarded (reachable_invariant hr) ih he ho

theorem Guarded.tornDown (hg : Guarded os) (h : Invariant os) : TornDown os := by
  have hit : ∀ o ∈ os, ∀ db, o.kind = .iterator db → .iterator ∈ o.parts → Opened os db := by
    intro o ho db hk hp
    obtain ⟨t, ht, htk⟩ := h.creator o ho db (by rw [hk]; rfl)
    exact h.opened ht htk (hg o ho db hk hp)
  constructor
  · exact hit
  · intro o ho db hk hs
    exact h.snapshot_opened ho hk hs
  · intro i t ht hk p hp hn
    have hclosed := h.database_last ht hk hp hn
    refine ⟨hclosed, ?_⟩
    intro o ho hok hoit
    obtain ⟨x, hx, hxp⟩ := hit o ho i hok hoit
    obtain rfl : t = x := Option.some_inj.mp (ht.symm.trans hx)
    exact hclosed hxp

/-- A database that goes too early loses its engine part under an iterator. -/
theorem not_tornDown (h : Invariant os) {ev : Event} (he : Enabled os ev) (hn : ¬ Orderly os ev) :
    ∃ db, ev = .dealloc db ∧ Enabled (next os ev) (.deletePart db) ∧
      ¬ TornDown (next (next os ev) (.deletePart db)) := by
  cases ev with
  | dealloc db =>
    simp only [Orderly, not_forall, not_not] at hn
    obtain ⟨o, ho, hk, hit⟩ := hn
    obtain ⟨⟨t, ht, htp⟩, -⟩ := he
    obtain ⟨t', ht', htk⟩ := h.creator o ho db (by rw [hk]; rfl)
    obtain rfl : t = t' := Option.some_inj.mp (ht.symm.trans ht')
    have hparts := h.alive_parts t (List.mem_of_getElem? ht) htp
    rw [htk] at hparts
    obtain ⟨j, hj⟩ := List.mem_iff_getElem?.mp ho
    have hne : j ≠ db := by
      rintro rfl
      obtain rfl : t = o := Option.some_inj.mp (ht.symm.trans hj)
      rw [htk] at hk
      cases hk
    have ht₁ := getElem?_modify_self (f := fun o => { o with phase := .deallocating }) ht
    have ht₂ := getElem?_modify_self (f := fun o => { o with parts := o.parts.tail }) ht₁
    have hj₂ := getElem?_modify_ne (f := fun o => { o with parts := o.parts.tail }) hne
      (getElem?_modify_ne (f := fun o => { o with phase := .deallocating }) hne hj)
    refine ⟨db, rfl, ⟨_, ht₁, rfl, ?_⟩, ?_⟩
    · simp [hparts, Kind.parts]
    · intro htorn
      obtain ⟨x, hx, hxp⟩ := htorn.iterators o (List.mem_of_getElem? hj₂) db hk hit
      obtain rfl := Option.some_inj.mp (ht₂.symm.trans hx)
      simp [hparts, Kind.parts] at hxp
  | _ => exact absurd trivial hn

end Order

/-- Teardown keeps the engine's rule exactly in the runs that deallocate a database after its
iterators: the first step against this leads to a database deleted under an iterator. -/
theorem teardown_order (os : List Object) :
    (Reachable Orderly os → TornDown os) ∧
      ∀ ev, Reachable (fun _ _ => True) os → Enabled os ev → ¬ Orderly os ev →
        ∃ db, ev = .dealloc db ∧ Enabled (next os ev) (.deletePart db) ∧
          ¬ TornDown (next (next os ev) (.deletePart db)) := by
  constructor
  · intro h
    exact (reachable_guarded h).tornDown (reachable_invariant h)
  · intro ev h he hn
    exact not_tornDown (reachable_invariant h) he hn

theorem teardown_order_runs :
    TornDown ([.openDatabase, .newReadOptions, .newIterator 0 1, .newSnapshot 0, .release 0,
      .release 2, .dealloc 2, .deletePart 2, .destroy 2, .release 3, .dealloc 3, .deletePart 3,
      .destroy 3, .dealloc 0, .deletePart 0, .deletePart 0].foldl next []) ∧
    ∃ db, Event.dealloc 0 = .dealloc db ∧
      Enabled (next ([.openDatabase, .newReadOptions, .newIterator 0 1, .release 0].foldl next [])
        (.dealloc 0)) (.deletePart db) ∧
      ¬ TornDown (next (next ([.openDatabase, .newReadOptions, .newIterator 0 1,
        .release 0].foldl next []) (.dealloc 0)) (.deletePart db)) := by
  constructor
  · apply (teardown_order _).1
    exact Reachable.initial.run _ (by decide)
  · apply (teardown_order _).2 (.dealloc 0)
    · exact Reachable.initial.run _ (by decide)
    · decide
    · decide

/-- The last reference to the database goes while an iterator is there. -/
theorem iterator_outlives_database :
    ¬ ∀ os, Reachable (fun _ _ => True) os → TornDown os := by
  intro h
  have htorn := h _ (Reachable.initial.run [.openDatabase, .newReadOptions, .newIterator 0 1,
    .release 0, .dealloc 0, .deletePart 0] (by decide))
  have hopen := htorn.iterators (.new (.iterator 0)) (by decide) 0 rfl (by decide)
  revert hopen
  decide

end DVELevelDB
