import Mathlib.Data.List.Basic
import Mathlib.Data.List.Count

/-! # Wrapper objects and their reference counts

Every object of the wrapper with the strong references its code stores and the engine objects
its `dealloc` deletes, one statement at a time. Objects are named by their place in the list.
-/

namespace DVELevelDB

/-- The engine objects that wrapper objects delete. -/
inductive Part where
  | database
  | comparator
  | logger
  | filterPolicy
  | blockCache
  | iterator
  | snapshot
  | options
  | writeBatch
  deriving DecidableEq, Repr

/-- The wrapper classes, with the database an object was created from. -/
inductive Kind where
  | database
  | iterator (db : ℕ)
  | snapshot (db : ℕ)
  | readOptions
  | writeBatch (db : ℕ)
  deriving DecidableEq, Repr

namespace Kind

/-- What `dealloc` deletes, in its order. -/
def parts : Kind → List Part
  | database => [.database, .comparator, .logger, .filterPolicy, .blockCache]
  | iterator _ => [.iterator]
  | snapshot _ => [.snapshot]
  | readOptions => [.options]
  | writeBatch _ => [.writeBatch]

/-- The strong references the initializer stores; an iterator keeps only its engine iterator. -/
def strong : Kind → List ℕ
  | database => []
  | iterator _ => []
  | snapshot db => [db]
  | readOptions => []
  | writeBatch db => [db]

def db : Kind → Option ℕ
  | database => none
  | iterator db => some db
  | snapshot db => some db
  | readOptions => none
  | writeBatch db => some db

def IsSnapshot (kind : Kind) : Prop := ∃ db, kind = snapshot db

instance (kind : Kind) : Decidable kind.IsSnapshot :=
  match kind with
  | snapshot db => isTrue ⟨db, rfl⟩
  | database => isFalse (by rintro ⟨_, h⟩; cases h)
  | iterator _ => isFalse (by rintro ⟨_, h⟩; cases h)
  | readOptions => isFalse (by rintro ⟨_, h⟩; cases h)
  | writeBatch _ => isFalse (by rintro ⟨_, h⟩; cases h)

end Kind

inductive Phase where
  | alive
  | deallocating
  | gone
  deriving DecidableEq, Repr

/-- `references` counts the references held outside of the wrapper. -/
structure Object where
  kind : Kind
  strong : List ℕ
  references : ℕ
  phase : Phase
  parts : List Part
  deriving DecidableEq, Repr

def Object.new (kind : Kind) : Object := ⟨kind, kind.strong, 1, .alive, kind.parts⟩

def Alive (os : List Object) (i : ℕ) : Prop := ∃ o ∈ os[i]?, o.phase = .alive

def AliveAs (os : List Object) (i : ℕ) (kind : Kind) : Prop :=
  ∃ o ∈ os[i]?, o.phase = .alive ∧ o.kind = kind

def AliveSnapshot (os : List Object) (i : ℕ) : Prop :=
  ∃ o ∈ os[i]?, o.phase = .alive ∧ o.kind.IsSnapshot

instance (os : List Object) (i : ℕ) : Decidable (Alive os i) :=
  inferInstanceAs (Decidable (∃ o ∈ os[i]?, o.phase = .alive))

instance (os : List Object) (i : ℕ) (kind : Kind) : Decidable (AliveAs os i kind) :=
  inferInstanceAs (Decidable (∃ o ∈ os[i]?, o.phase = .alive ∧ o.kind = kind))

instance (os : List Object) (i : ℕ) : Decidable (AliveSnapshot os i) :=
  inferInstanceAs (Decidable (∃ o ∈ os[i]?, o.phase = .alive ∧ o.kind.IsSnapshot))

def retainCount (os : List Object) (i : ℕ) : ℕ :=
  (os[i]?.elim 0 Object.references) + (os.flatMap Object.strong).count i

inductive Event where
  | openDatabase
  | newIterator (db options : ℕ)
  | newSnapshot (db : ℕ)
  | newReadOptions
  | newWriteBatch (db : ℕ)
  | copyWriteBatch (batch db : ℕ)
  | setSnapshot (options : ℕ) (snapshot : Option ℕ)
  | retain (i : ℕ)
  | release (i : ℕ)
  | dealloc (i : ℕ)
  | deletePart (i : ℕ)
  | destroy (i : ℕ)
  deriving DecidableEq, Repr

/-- An object is deallocated once nothing refers to it; its own references go when its parts
are deleted. -/
def Enabled (os : List Object) : Event → Prop
  | .openDatabase => True
  | .newIterator db options => AliveAs os db .database ∧ AliveAs os options .readOptions
  | .newSnapshot db => AliveAs os db .database
  | .newReadOptions => True
  | .newWriteBatch db => AliveAs os db .database
  | .copyWriteBatch batch db => AliveAs os batch (.writeBatch db)
  | .setSnapshot options snapshot =>
    AliveAs os options .readOptions ∧ ∀ i ∈ snapshot, AliveSnapshot os i
  | .retain i => Alive os i
  | .release i => ∃ o ∈ os[i]?, 0 < o.references
  | .dealloc i => Alive os i ∧ retainCount os i = 0
  | .deletePart i => ∃ o ∈ os[i]?, o.phase = .deallocating ∧ o.parts ≠ []
  | .destroy i => ∃ o ∈ os[i]?, o.phase = .deallocating ∧ o.parts = []

instance (os : List Object) (ev : Event) : Decidable (Enabled os ev) := by
  cases ev <;> unfold Enabled <;> infer_instance

def next (os : List Object) : Event → List Object
  | .openDatabase => os ++ [.new .database]
  | .newIterator db _ => os ++ [.new (.iterator db)]
  | .newSnapshot db => os ++ [.new (.snapshot db)]
  | .newReadOptions => os ++ [.new .readOptions]
  | .newWriteBatch db => os ++ [.new (.writeBatch db)]
  | .copyWriteBatch _ db => os ++ [.new (.writeBatch db)]
  | .setSnapshot options snapshot => os.modify options fun o => { o with strong := snapshot.toList }
  | .retain i => os.modify i fun o => { o with references := o.references + 1 }
  | .release i => os.modify i fun o => { o with references := o.references - 1 }
  | .dealloc i => os.modify i fun o => { o with phase := .deallocating }
  | .deletePart i => os.modify i fun o => { o with parts := o.parts.tail }
  | .destroy i => os.modify i fun o => { o with phase := .gone, strong := [] }

/-- The states that runs reach whose steps all meet `P`. -/
inductive Reachable (P : List Object → Event → Prop) : List Object → Prop where
  | initial : Reachable P []
  | step {os ev} : Reachable P os → Enabled os ev → P os ev → Reachable P (next os ev)

def Run (P : List Object → Event → Prop) : List Object → List Event → Prop
  | _, [] => True
  | os, ev :: evs => Enabled os ev ∧ P os ev ∧ Run P (next os ev) evs

instance decidableRun (P : List Object → Event → Prop) [∀ os ev, Decidable (P os ev)] :
    ∀ os evs, Decidable (Run P os evs)
  | _, [] => isTrue trivial
  | os, ev :: evs =>
    have := decidableRun P (next os ev) evs
    inferInstanceAs (Decidable (Enabled os ev ∧ P os ev ∧ Run P (next os ev) evs))

theorem Reachable.run {P : List Object → Event → Prop} {os : List Object} (h : Reachable P os)
    (evs : List Event) (hr : Run P os evs) : Reachable P (evs.foldl next os) := by
  induction evs generalizing os with
  | nil => exact h
  | cons ev evs ih =>
    obtain ⟨he, hp, hr⟩ := hr
    exact ih (h.step he hp) hr

/-- What the reference counts guarantee in every state. -/
structure Invariant (os : List Object) : Prop where
  strong_alive : ∀ o ∈ os, ∀ r ∈ o.strong, Alive os r
  alive_parts : ∀ o ∈ os, o.phase = .alive → o.parts = o.kind.parts
  parts_suffix : ∀ o ∈ os, o.parts <:+ o.kind.parts
  gone_parts : ∀ o ∈ os, o.phase = .gone → o.parts = []
  no_references : ∀ o ∈ os, o.phase ≠ .alive → o.references = 0
  owner : ∀ o ∈ os, o.phase ≠ .gone → ∀ db ∈ o.kind.strong, db ∈ o.strong
  creator : ∀ o ∈ os, ∀ db ∈ o.kind.db, ∃ t ∈ os[db]?, t.kind = .database

section Preservation

variable {os : List Object} {i : ℕ}

theorem AliveAs.alive {kind : Kind} (h : AliveAs os i kind) : Alive os i := by
  obtain ⟨o, ho, hp, -⟩ := h
  exact ⟨o, ho, hp⟩

theorem AliveSnapshot.alive (h : AliveSnapshot os i) : Alive os i := by
  obtain ⟨o, ho, hp, -⟩ := h
  exact ⟨o, ho, hp⟩

theorem getElem?_push {o : Object} (h : o ∈ os[i]?) (new : Object) : o ∈ (os ++ [new])[i]? := by
  rw [List.getElem?_append_left (List.getElem?_eq_some_iff.mp h).1]
  exact h

theorem Alive.push (h : Alive os i) (new : Object) : Alive (os ++ [new]) i := by
  obtain ⟨o, ho, hp⟩ := h
  exact ⟨o, getElem?_push ho new, hp⟩

theorem Invariant.push (h : Invariant os) (kind : Kind) (hs : ∀ r ∈ kind.strong, Alive os r)
    (hc : ∀ db ∈ kind.db, ∃ t ∈ os[db]?, t.kind = .database) :
    Invariant (os ++ [.new kind]) := by
  have hmem : ∀ o ∈ os ++ [.new kind], o ∈ os ∨ o = .new kind := by simp
  constructor
  · intro o ho r hr
    rcases hmem o ho with ho | rfl
    · exact (h.strong_alive o ho r hr).push _
    · exact (hs r hr).push _
  · intro o ho hp
    rcases hmem o ho with ho | rfl
    · exact h.alive_parts o ho hp
    · rfl
  · intro o ho
    rcases hmem o ho with ho | rfl
    · exact h.parts_suffix o ho
    · exact List.suffix_rfl
  · intro o ho hp
    rcases hmem o ho with ho | rfl
    · exact h.gone_parts o ho hp
    · cases hp
  · intro o ho hp
    rcases hmem o ho with ho | rfl
    · exact h.no_references o ho hp
    · exact absurd rfl hp
  · intro o ho hp db hdb
    rcases hmem o ho with ho | rfl
    · exact h.owner o ho hp db hdb
    · exact hdb
  · intro o ho db hk
    have hlift : (∃ t ∈ os[db]?, t.kind = .database) →
        ∃ t ∈ (os ++ [Object.new kind])[db]?, t.kind = .database := by
      rintro ⟨t, ht, htk⟩
      exact ⟨t, getElem?_push ht _, htk⟩
    rcases hmem o ho with ho | rfl
    · exact hlift (h.creator o ho db hk)
    · exact hlift (hc db hk)

theorem getElem?_modify_cases {f : Object → Object} {j : ℕ} {y : Object}
    (h : y ∈ (os.modify i f)[j]?) :
    (j = i ∧ ∃ x ∈ os[i]?, y = f x) ∨ (j ≠ i ∧ y ∈ os[j]?) := by
  rw [Option.mem_def, List.getElem?_modify] at h
  obtain ⟨x, hx, rfl⟩ := Option.map_eq_some_iff.mp h
  by_cases hij : i = j
  · subst hij
    exact Or.inl ⟨rfl, x, hx, by simp⟩
  · exact Or.inr ⟨fun h => hij h.symm, by simpa [hij] using hx⟩

theorem getElem?_modify_self {f : Object → Object} {x : Object} (h : x ∈ os[i]?) :
    f x ∈ (os.modify i f)[i]? := by
  rw [Option.mem_def] at h
  simp [h]

theorem getElem?_modify_ne {f : Object → Object} {x : Object} {j : ℕ} (hj : j ≠ i)
    (h : x ∈ os[j]?) : x ∈ (os.modify i f)[j]? := by
  rw [Option.mem_def, List.getElem?_modify]
  simpa [hj.symm] using h

theorem mem_modify {f : Object → Object} {o : Object} (ho : o ∈ os.modify i f) :
    o ∈ os ∨ ∃ x ∈ os[i]?, o = f x := by
  obtain ⟨j, hj⟩ := List.mem_iff_getElem?.mp ho
  rcases getElem?_modify_cases hj with ⟨-, h⟩ | ⟨-, h⟩
  · exact Or.inr h
  · exact Or.inl (List.mem_of_getElem? h)

/-- What a change of the object at `i` has to respect. -/
structure Respects (os : List Object) (i : ℕ) (x y : Object) : Prop where
  kind : y.kind = x.kind
  strong : ∀ r ∈ y.strong, Alive os r ∧ (r = i → y.phase = .alive)
  alive : y.phase = .alive → x.phase = .alive ∧ y.parts = x.parts
  parts : y.parts <:+ x.parts
  gone : y.phase = .gone → y.parts = []
  no_references : y.phase ≠ .alive → y.references = 0
  owner : y.phase ≠ .gone → x.phase ≠ .gone ∧ ∀ db ∈ x.kind.strong, db ∈ x.strong → db ∈ y.strong
  unreferenced : y.phase ≠ .alive → ∀ o ∈ os, i ∉ o.strong

theorem Invariant.modify (h : Invariant os) {f : Object → Object}
    (hf : ∀ x ∈ os[i]?, Respects os i x (f x)) : Invariant (os.modify i f) := by
  have halive : ∀ r, Alive os r → (r = i → ∀ x ∈ os[i]?, (f x).phase = .alive) →
      Alive (os.modify i f) r := by
    rintro r ⟨o, ho, hp⟩ hri
    by_cases hr : r = i
    · subst hr
      exact ⟨f o, getElem?_modify_self ho, hri rfl o ho⟩
    · exact ⟨o, getElem?_modify_ne hr ho, hp⟩
  have hkind : ∀ {db : ℕ}, (∃ t ∈ os[db]?, t.kind = .database) →
      ∃ t ∈ (os.modify i f)[db]?, t.kind = .database := by
    rintro db ⟨t, ht, htk⟩
    by_cases hdb : db = i
    · subst hdb
      exact ⟨f t, getElem?_modify_self ht, (hf t ht).kind.trans htk⟩
    · exact ⟨t, getElem?_modify_ne hdb ht, htk⟩
  constructor
  · intro o ho r hr
    rcases mem_modify ho with hold | ⟨x, hx, rfl⟩
    · apply halive r (h.strong_alive o hold r hr)
      rintro rfl x hx
      by_contra hp
      exact (hf x hx).unreferenced hp o hold hr
    · apply halive r ((hf x hx).strong r hr).1
      intro hri z hz
      obtain rfl : z = x := Option.some_inj.mp (hz.symm.trans hx)
      exact ((hf z hz).strong r hr).2 hri
  · intro o ho hp
    rcases mem_modify ho with ho | ⟨x, hx, rfl⟩
    · exact h.alive_parts o ho hp
    · obtain ⟨hxp, hparts⟩ := (hf x hx).alive hp
      rw [hparts, (hf x hx).kind]
      exact h.alive_parts x (List.mem_of_getElem? hx) hxp
  · intro o ho
    rcases mem_modify ho with ho | ⟨x, hx, rfl⟩
    · exact h.parts_suffix o ho
    · rw [(hf x hx).kind]
      exact (hf x hx).parts.trans (h.parts_suffix x (List.mem_of_getElem? hx))
  · intro o ho hp
    rcases mem_modify ho with ho | ⟨x, hx, rfl⟩
    · exact h.gone_parts o ho hp
    · exact (hf x hx).gone hp
  · intro o ho hp
    rcases mem_modify ho with ho | ⟨x, hx, rfl⟩
    · exact h.no_references o ho hp
    · exact (hf x hx).no_references hp
  · intro o ho hp db hdb
    rcases mem_modify ho with ho | ⟨x, hx, rfl⟩
    · exact h.owner o ho hp db hdb
    · rw [(hf x hx).kind] at hdb
      obtain ⟨hxp, hkeep⟩ := (hf x hx).owner hp
      exact hkeep db hdb (h.owner x (List.mem_of_getElem? hx) hxp db hdb)
  · intro o ho db hdb
    rcases mem_modify ho with ho | ⟨x, hx, rfl⟩
    · exact hkind (h.creator o ho db hdb)
    · rw [(hf x hx).kind] at hdb
      exact hkind (h.creator x (List.mem_of_getElem? hx) db hdb)

theorem notMem_strong_of_retainCount (h : retainCount os i = 0) : ∀ o ∈ os, i ∉ o.strong := by
  intro o ho hi
  have hcount : (os.flatMap Object.strong).count i = 0 := by
    unfold retainCount at h
    omega
  exact List.count_eq_zero.mp hcount (List.mem_flatMap.mpr ⟨o, ho, hi⟩)

theorem Invariant.unreferenced (h : Invariant os) {x : Object} (hx : x ∈ os[i]?)
    (hp : x.phase ≠ .alive) : ∀ o ∈ os, i ∉ o.strong := by
  intro o ho hi
  obtain ⟨y, hy, hyp⟩ := h.strong_alive o ho i hi
  obtain rfl : y = x := Option.some_inj.mp (hy.symm.trans hx)
  exact hp hyp

theorem Invariant.counted (h : Invariant os) (g : Object → ℕ)
    (hg : ∀ o ∈ os[i]?, o.phase ≠ .alive → g o = 0) :
    Invariant (os.modify i fun o => { o with references := g o }) := by
  apply h.modify
  intro x hx
  have hmem := List.mem_of_getElem? hx
  constructor
  · rfl
  · intro r hr
    refine ⟨h.strong_alive x hmem r hr, ?_⟩
    rintro rfl
    obtain ⟨y, hy, hyp⟩ := h.strong_alive x hmem r hr
    obtain rfl : y = x := Option.some_inj.mp (hy.symm.trans hx)
    exact hyp
  · intro hp
    exact ⟨hp, rfl⟩
  · exact List.suffix_rfl
  · exact h.gone_parts x hmem
  · exact hg x hx
  · intro hp
    exact ⟨hp, fun db _ hdb => hdb⟩
  · intro hp
    exact h.unreferenced hx hp

theorem Invariant.copied_alive (h : Invariant os) {db : ℕ} (hi : AliveAs os i (.writeBatch db)) :
    Alive os db := by
  obtain ⟨o, ho, hop, hok⟩ := hi
  have hmem := List.mem_of_getElem? ho
  apply h.strong_alive o hmem
  apply h.owner o hmem
  · simp [hop]
  · rw [hok]
    exact List.mem_singleton.mpr rfl

theorem step_invariant (h : Invariant os) {ev : Event} (he : Enabled os ev) :
    Invariant (next os ev) := by
  cases ev with
  | openDatabase =>
    apply h.push
    · intro r hr
      cases hr
    · intro db hdb
      cases hdb
  | newIterator db options =>
    obtain ⟨⟨t, ht, -, htk⟩, -⟩ := he
    apply h.push
    · intro r hr
      cases hr
    · rintro _ ⟨⟩
      exact ⟨t, ht, htk⟩
  | newSnapshot db =>
    obtain ⟨t, ht, htp, htk⟩ := he
    apply h.push
    · intro r hr
      obtain rfl := List.mem_singleton.mp hr
      exact ⟨t, ht, htp⟩
    · rintro _ ⟨⟩
      exact ⟨t, ht, htk⟩
  | newReadOptions =>
    apply h.push
    · intro r hr
      cases hr
    · intro db hdb
      cases hdb
  | newWriteBatch db =>
    obtain ⟨t, ht, htp, htk⟩ := he
    apply h.push
    · intro r hr
      obtain rfl := List.mem_singleton.mp hr
      exact ⟨t, ht, htp⟩
    · rintro _ ⟨⟩
      exact ⟨t, ht, htk⟩
  | copyWriteBatch batch db =>
    have hdb := h.copied_alive he
    obtain ⟨o, ho, -, hok⟩ := he
    have hmem := List.mem_of_getElem? ho
    apply h.push
    · intro r hr
      obtain rfl := List.mem_singleton.mp hr
      exact hdb
    · intro r hr
      apply h.creator o hmem
      rw [hok]
      exact hr
  | setSnapshot options snapshot =>
    obtain ⟨⟨o, ho, hop, hok⟩, hs⟩ := he
    apply h.modify
    intro x hx
    obtain rfl : o = x := Option.some_inj.mp (ho.symm.trans hx)
    constructor
    · rfl
    · intro r hr
      exact ⟨(hs r (Option.mem_toList.mp hr)).alive, fun _ => hop⟩
    · intro hp
      exact ⟨hp, rfl⟩
    · exact List.suffix_rfl
    · exact h.gone_parts o (List.mem_of_getElem? hx)
    · intro hp
      exact absurd hop hp
    · intro hp
      refine ⟨hp, ?_⟩
      rw [hok]
      intro db hdb
      cases hdb
    · intro hp
      exact absurd hop hp
  | retain i =>
    apply h.counted
    intro o ho hp
    obtain ⟨x, hx, hxp⟩ := he
    obtain rfl : o = x := Option.some_inj.mp (ho.symm.trans hx)
    exact absurd hxp hp
  | release i =>
    apply h.counted
    intro o ho hp
    rw [h.no_references o (List.mem_of_getElem? ho) hp]
  | dealloc i =>
    obtain ⟨⟨o, ho, hop⟩, hcount⟩ := he
    have hnone := notMem_strong_of_retainCount hcount
    apply h.modify
    intro x hx
    obtain rfl : o = x := Option.some_inj.mp (ho.symm.trans hx)
    have hmem := List.mem_of_getElem? hx
    constructor
    · rfl
    · intro r hr
      refine ⟨h.strong_alive o hmem r hr, ?_⟩
      rintro rfl
      exact absurd hr (hnone o hmem)
    · intro hp
      cases hp
    · exact List.suffix_rfl
    · intro hp
      cases hp
    · intro _
      unfold retainCount at hcount
      rw [Option.mem_def] at hx
      simp only [hx, Option.elim_some] at hcount
      change o.references = 0
      omega
    · intro _
      exact ⟨by simp [hop], fun db _ hdb => hdb⟩
    · intro _
      exact hnone
  | deletePart i =>
    obtain ⟨o, ho, hop, -⟩ := he
    have hnone := h.unreferenced ho (by simp [hop])
    apply h.modify
    intro x hx
    obtain rfl : o = x := Option.some_inj.mp (ho.symm.trans hx)
    have hmem := List.mem_of_getElem? hx
    constructor
    · rfl
    · intro r hr
      refine ⟨h.strong_alive o hmem r hr, ?_⟩
      rintro rfl
      exact absurd hr (hnone o hmem)
    · intro hp
      rw [hop] at hp
      cases hp
    · exact List.tail_suffix _
    · intro hp
      rw [hop] at hp
      cases hp
    · intro hp
      exact h.no_references o hmem hp
    · intro hp
      exact ⟨hp, fun db _ hdb => hdb⟩
    · intro _
      exact hnone
  | destroy i =>
    obtain ⟨o, ho, hop, hparts⟩ := he
    have hnone := h.unreferenced ho (by simp [hop])
    apply h.modify
    intro x hx
    obtain rfl : o = x := Option.some_inj.mp (ho.symm.trans hx)
    constructor
    · rfl
    · intro r hr
      cases hr
    · intro hp
      cases hp
    · exact List.suffix_rfl
    · intro _
      exact hparts
    · intro _
      exact h.no_references o (List.mem_of_getElem? hx) (by simp [hop])
    · intro hp
      exact absurd rfl hp
    · intro _
      exact hnone

theorem reachable_invariant {P : List Object → Event → Prop} (h : Reachable P os) :
    Invariant os := by
  induction h with
  | initial => constructor <;> simp
  | step _ he _ ih => exact step_invariant ih he

theorem Alive.next {r : ℕ} {ev : Event} (h : Alive os r) (he : Enabled os ev)
    (hne : ev ≠ .dealloc r) : Alive (next os ev) r := by
  have hmodify : ∀ (i : ℕ) (f : Object → Object),
      (r = i → ∀ x ∈ os[i]?, x.phase = .alive → (f x).phase = .alive) →
      Alive (os.modify i f) r := by
    intro i f hf
    obtain ⟨x, hx, hp⟩ := h
    by_cases hri : r = i
    · subst hri
      exact ⟨f x, getElem?_modify_self hx, hf rfl x hx hp⟩
    · exact ⟨x, getElem?_modify_ne hri hx, hp⟩
  have hdead : ∀ {i : ℕ} {o : Object}, o ∈ os[i]? → o.phase = .deallocating → r ≠ i := by
    rintro _ o ho hop rfl
    obtain ⟨x, hx, hp⟩ := h
    obtain rfl : o = x := Option.some_inj.mp (ho.symm.trans hx)
    rw [hop] at hp
    cases hp
  cases ev with
  | openDatabase => exact h.push _
  | newIterator db options => exact h.push _
  | newSnapshot db => exact h.push _
  | newReadOptions => exact h.push _
  | newWriteBatch db => exact h.push _
  | copyWriteBatch batch db => exact h.push _
  | setSnapshot options snapshot => exact hmodify _ _ fun _ _ _ hp => hp
  | retain i => exact hmodify _ _ fun _ _ _ hp => hp
  | release i => exact hmodify _ _ fun _ _ _ hp => hp
  | dealloc i => exact hmodify _ _ fun hri => absurd (by rw [hri]) hne
  | deletePart i =>
    obtain ⟨o, ho, hop, -⟩ := he
    exact hmodify _ _ fun hri => absurd hri (hdead ho hop)
  | destroy i =>
    obtain ⟨o, ho, hop, -⟩ := he
    exact hmodify _ _ fun hri => absurd hri (hdead ho hop)

/-- An object after a step is an older one with no more parts, or a new one of a database that
is alive. -/
theorem mem_next (h : Invariant os) {ev : Event} (he : Enabled os ev) {o : Object}
    (ho : o ∈ next os ev) :
    (∃ x ∈ os, o.kind = x.kind ∧ o.parts <:+ x.parts) ∨
      (∃ kind, o = .new kind ∧ next os ev = os ++ [.new kind] ∧ ∀ db ∈ kind.db, Alive os db) := by
  have hpush : ∀ kind : Kind, o ∈ os ++ [.new kind] → (∀ db ∈ kind.db, Alive os db) →
      (∃ x ∈ os, o.kind = x.kind ∧ o.parts <:+ x.parts) ∨
        (∃ kind', o = .new kind' ∧ os ++ [Object.new kind] = os ++ [.new kind'] ∧
          ∀ db ∈ kind'.db, Alive os db) := by
    intro kind hmem hdb
    rcases List.mem_append.mp hmem with hmem | hmem
    · exact Or.inl ⟨o, hmem, rfl, List.suffix_rfl⟩
    · exact Or.inr ⟨kind, List.mem_singleton.mp hmem, rfl, hdb⟩
  have hmodify : ∀ (i : ℕ) (f : Object → Object), o ∈ os.modify i f →
      (∀ x, (f x).kind = x.kind ∧ (f x).parts <:+ x.parts) →
      ∃ x ∈ os, o.kind = x.kind ∧ o.parts <:+ x.parts := by
    intro i f hmem hf
    rcases mem_modify hmem with hmem | ⟨x, hx, rfl⟩
    · exact ⟨o, hmem, rfl, List.suffix_rfl⟩
    · exact ⟨x, List.mem_of_getElem? hx, hf x⟩
  cases ev with
  | openDatabase => exact hpush .database ho (by rintro _ ⟨⟩)
  | newIterator db options =>
    apply hpush (.iterator db) ho
    rintro _ ⟨⟩
    exact he.1.alive
  | newSnapshot db =>
    apply hpush (.snapshot db) ho
    rintro _ ⟨⟩
    exact AliveAs.alive he
  | newReadOptions => exact hpush .readOptions ho (by rintro _ ⟨⟩)
  | newWriteBatch db =>
    apply hpush (.writeBatch db) ho
    rintro _ ⟨⟩
    exact AliveAs.alive he
  | copyWriteBatch batch db =>
    apply hpush (.writeBatch db) ho
    rintro _ ⟨⟩
    exact h.copied_alive he
  | setSnapshot options snapshot =>
    exact Or.inl (hmodify _ _ ho fun x => ⟨rfl, List.suffix_rfl⟩)
  | retain i => exact Or.inl (hmodify _ _ ho fun x => ⟨rfl, List.suffix_rfl⟩)
  | release i => exact Or.inl (hmodify _ _ ho fun x => ⟨rfl, List.suffix_rfl⟩)
  | dealloc i => exact Or.inl (hmodify _ _ ho fun x => ⟨rfl, List.suffix_rfl⟩)
  | deletePart i => exact Or.inl (hmodify _ _ ho fun x => ⟨rfl, List.tail_suffix _⟩)
  | destroy i => exact Or.inl (hmodify _ _ ho fun x => ⟨rfl, List.suffix_rfl⟩)

end Preservation

end DVELevelDB
