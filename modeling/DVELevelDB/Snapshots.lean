import DVELevelDB.Compaction
import DVELevelDB.DVECLevelDB
import DVELevelDB.Teardown
import Mathlib.Logic.Function.Basic

/-! # Engine snapshots behind read options

Each database keeps a list of its snapshots. A read options object caches the engine's pointer
next to a reference to the snapshot object. Engine snapshots are named after the object that
obtained them.
-/

namespace DVELevelDB

namespace Snapshots

/-- The snapshots of a database with their sequence numbers, oldest first, and
`smallest_snapshot` of each compaction that was started. -/
structure Engine where
  lastSequence : ℕ
  snapshots : List (ℕ × ℕ)
  compactions : List ℕ

namespace Engine

def new : Engine := ⟨0, [], []⟩

def getSnapshot (handle : ℕ) (e : Engine) : Engine :=
  { e with snapshots := e.snapshots ++ [(handle, e.lastSequence)] }

def releaseSnapshot (handle : ℕ) (e : Engine) : Engine :=
  { e with snapshots := e.snapshots.filter (·.1 ≠ handle) }

def smallestSnapshot (e : Engine) : ℕ :=
  match e.snapshots with
  | [] => e.lastSequence
  | oldest :: _ => oldest.2

def Registered (e : Engine) (handle : ℕ) : Prop := ∃ s, (handle, s) ∈ e.snapshots

end Engine

/-- `snapshotPointer` is `_options->snapshot` of each read options object; `released` collects
the calls of `ReleaseSnapshot`. -/
structure State where
  objects : List Object
  engines : ℕ → Engine
  snapshotPointer : ℕ → Option ℕ
  released : List ℕ

def initial : State := ⟨[], fun _ => .new, fun _ => none, []⟩

inductive Event where
  | object (ev : DVELevelDB.Event)
  | get (db options : ℕ)
  | write (db count : ℕ)
  | compact (db : ℕ)

/-- The database and the options of a read. -/
def Event.reads : Event → Option (ℕ × ℕ)
  | .object (.newIterator db options) => some (db, options)
  | .get db options => some (db, options)
  | _ => none

def Enabled (w : State) : Event → Prop
  | .object ev => DVELevelDB.Enabled w.objects ev
  | .get db options => AliveAs w.objects db .database ∧ AliveAs w.objects options .readOptions
  | .write db _ => Opened w.objects db
  | .compact db => Opened w.objects db

instance (w : State) (ev : Event) : Decidable (Enabled w ev) := by
  cases ev <;> unfold Enabled <;> infer_instance

def State.setEngine (w : State) (db : ℕ) (e : Engine) : State :=
  { w with engines := Function.update w.engines db e }

@[simp] theorem State.setEngine_objects (w : State) (db : ℕ) (e : Engine) :
    (w.setEngine db e).objects = w.objects := rfl

@[simp] theorem State.setEngine_self (w : State) (db : ℕ) (e : Engine) :
    (w.setEngine db e).engines db = e := Function.update_self _ _ _

theorem State.setEngine_ne (w : State) {db db' : ℕ} (e : Engine) (h : db' ≠ db) :
    (w.setEngine db e).engines db' = w.engines db' := Function.update_of_ne h _ _

def snapshotDatabase (os : List Object) (i : ℕ) : Option ℕ :=
  match os[i]? with
  | some ⟨.snapshot db, _, _, _, _⟩ => some db
  | _ => none

/-- What the methods of the objects do besides counting references. -/
def State.call (w : State) : DVELevelDB.Event → State
  | .newSnapshot db => w.setEngine db ((w.engines db).getSnapshot w.objects.length)
  | .newReadOptions =>
    { w with snapshotPointer := Function.update w.snapshotPointer w.objects.length none }
  | .setSnapshot options snapshot =>
    { w with snapshotPointer := Function.update w.snapshotPointer options snapshot }
  | .deletePart i =>
    match snapshotDatabase w.objects i with
    | some db =>
      { w.setEngine db ((w.engines db).releaseSnapshot i) with released := w.released ++ [i] }
    | none => w
  | _ => w

def next (w : State) : Event → State
  | .object ev => { w.call ev with objects := DVELevelDB.next w.objects ev }
  | .get _ _ => w
  | .write db count =>
    w.setEngine db { w.engines db with lastSequence := (w.engines db).lastSequence + count }
  | .compact db =>
    w.setEngine db { w.engines db with
      compactions := (w.engines db).smallestSnapshot :: (w.engines db).compactions }

inductive Reachable : State → Prop where
  | initial : Reachable initial
  | step {w ev} : Reachable w → Enabled w ev → Reachable (next w ev)

def Run : State → List Event → Prop
  | _, [] => True
  | w, ev :: evs => Enabled w ev ∧ Run (next w ev) evs

instance decidableRun : ∀ w evs, Decidable (Run w evs)
  | _, [] => isTrue trivial
  | w, ev :: evs =>
    have := decidableRun (next w ev) evs
    inferInstanceAs (Decidable (Enabled w ev ∧ Run (next w ev) evs))

theorem Reachable.run {w : State} (h : Reachable w) (evs : List Event) (hr : Run w evs) :
    Reachable (evs.foldl next w) := by
  induction evs generalizing w with
  | nil => exact h
  | cons ev evs ih =>
    obtain ⟨he, hr⟩ := hr
    exact ih (h.step he) hr

section Engines

/-- Snapshots in the order of their sequence numbers, and compactions that respect them. -/
structure Engine.Ordered (e : Engine) : Prop where
  sorted : e.snapshots.Pairwise fun p q => p.2 ≤ q.2
  le_last : ∀ p ∈ e.snapshots, p.2 ≤ e.lastSequence
  compaction_le : ∀ m ∈ e.compactions, m ≤ e.lastSequence
  compaction_snapshot : ∀ m ∈ e.compactions, ∀ p ∈ e.snapshots, m ≤ p.2

variable {e : Engine}

theorem Engine.Ordered.getSnapshot (h : e.Ordered) (handle : ℕ) :
    (e.getSnapshot handle).Ordered := by
  have hmem : ∀ p ∈ (e.getSnapshot handle).snapshots,
      p ∈ e.snapshots ∨ p = (handle, e.lastSequence) := by
    simp [Engine.getSnapshot]
  constructor
  · apply List.pairwise_append.mpr
    refine ⟨h.sorted, List.pairwise_singleton _ _, ?_⟩
    intro p hp q hq
    obtain rfl := List.mem_singleton.mp hq
    exact h.le_last p hp
  · intro p hp
    rcases hmem p hp with hp | rfl
    · exact h.le_last p hp
    · exact le_rfl
  · exact h.compaction_le
  · intro m hm p hp
    rcases hmem p hp with hp | rfl
    · exact h.compaction_snapshot m hm p hp
    · exact h.compaction_le m hm

theorem Engine.Ordered.releaseSnapshot (h : e.Ordered) (handle : ℕ) :
    (e.releaseSnapshot handle).Ordered := by
  have hmem : ∀ p ∈ (e.releaseSnapshot handle).snapshots, p ∈ e.snapshots := fun p hp =>
    (List.mem_filter.mp hp).1
  constructor
  · exact h.sorted.filter _
  · intro p hp
    exact h.le_last p (hmem p hp)
  · exact h.compaction_le
  · intro m hm p hp
    exact h.compaction_snapshot m hm p (hmem p hp)

theorem Engine.Ordered.write (h : e.Ordered) (count : ℕ) :
    Engine.Ordered { e with lastSequence := e.lastSequence + count } := by
  constructor
  · exact h.sorted
  · intro p hp
    exact (h.le_last p hp).trans (Nat.le_add_right _ _)
  · intro m hm
    exact (h.compaction_le m hm).trans (Nat.le_add_right _ _)
  · exact h.compaction_snapshot

theorem Engine.Ordered.smallest_le (h : e.Ordered) :
    e.smallestSnapshot ≤ e.lastSequence ∧ ∀ p ∈ e.snapshots, e.smallestSnapshot ≤ p.2 := by
  unfold Engine.smallestSnapshot
  cases hs : e.snapshots with
  | nil => simp
  | cons oldest rest =>
    have hsorted := h.sorted
    rw [hs, List.pairwise_cons] at hsorted
    constructor
    · exact h.le_last oldest (by simp [hs])
    · intro p hp
      rcases List.mem_cons.mp hp with rfl | hp
      · exact le_rfl
      · exact hsorted.1 p hp

theorem Engine.Ordered.compact (h : e.Ordered) :
    Engine.Ordered { e with compactions := e.smallestSnapshot :: e.compactions } := by
  constructor
  · exact h.sorted
  · exact h.le_last
  · intro m hm
    rcases List.mem_cons.mp hm with rfl | hm
    · exact h.smallest_le.1
    · exact h.compaction_le m hm
  · intro m hm p hp
    rcases List.mem_cons.mp hm with rfl | hm
    · exact h.smallest_le.2 p hp
    · exact h.compaction_snapshot m hm p hp

end Engines

section Objects

variable {os : List Object} {i h db : ℕ}

/-- The object at `h` is a snapshot of `db` whose engine snapshot is not released. -/
def Undeleted (os : List Object) (h db : ℕ) : Prop :=
  ∃ o ∈ os[h]?, o.kind = .snapshot db ∧ .snapshot ∈ o.parts

def Deleted (os : List Object) (h : ℕ) : Prop :=
  ∃ o ∈ os[h]?, o.kind.IsSnapshot ∧ .snapshot ∉ o.parts

theorem getElem?_push_cases {new o : Object} (ho : o ∈ (os ++ [new])[h]?) :
    o ∈ os[h]? ∨ h = os.length ∧ o = new := by
  rw [Option.mem_def, List.getElem?_append] at ho
  split at ho
  · exact Or.inl ho
  · rw [List.getElem?_singleton] at ho
    split at ho
    · exact Or.inr ⟨by omega, (Option.some_inj.mp ho).symm⟩
    · cases ho

theorem undeleted_push (kind : Kind) :
    Undeleted (os ++ [.new kind]) h db ↔ Undeleted os h db ∨ h = os.length ∧ kind = .snapshot db := by
  constructor
  · rintro ⟨o, ho, hk, hp⟩
    rcases getElem?_push_cases ho with ho | ⟨hh, rfl⟩
    · exact Or.inl ⟨o, ho, hk, hp⟩
    · exact Or.inr ⟨hh, hk⟩
  · rintro (⟨o, ho, hk, hp⟩ | ⟨rfl, rfl⟩)
    · exact ⟨o, getElem?_push ho _, hk, hp⟩
    · exact ⟨.new (.snapshot db), by simp, rfl, List.mem_singleton.mpr rfl⟩

theorem deleted_push (kind : Kind) : Deleted (os ++ [.new kind]) h ↔ Deleted os h := by
  constructor
  · rintro ⟨o, ho, ⟨db, hk⟩, hp⟩
    rcases getElem?_push_cases ho with ho | ⟨-, rfl⟩
    · exact ⟨o, ho, ⟨db, hk⟩, hp⟩
    · obtain rfl : kind = .snapshot db := hk
      exact absurd (List.mem_singleton.mpr rfl) hp
  · rintro ⟨o, ho, hk, hp⟩
    exact ⟨o, getElem?_push ho _, hk, hp⟩

variable {f : Object → Object}

theorem undeleted_modify (hf : ∀ x ∈ os[i]?, (f x).kind = x.kind ∧
    (x.kind = .snapshot db → (f x).parts = x.parts)) :
    Undeleted (os.modify i f) h db ↔ Undeleted os h db := by
  constructor
  · rintro ⟨o, ho, hk, hp⟩
    rcases getElem?_modify_cases ho with ⟨rfl, x, hx, rfl⟩ | ⟨-, ho⟩
    · obtain ⟨hkind, hparts⟩ := hf x hx
      rw [hkind] at hk
      rw [hparts hk] at hp
      exact ⟨x, hx, hk, hp⟩
    · exact ⟨o, ho, hk, hp⟩
  · rintro ⟨o, ho, hk, hp⟩
    by_cases hi : h = i
    · subst hi
      obtain ⟨hkind, hparts⟩ := hf o ho
      exact ⟨f o, getElem?_modify_self ho, hkind.trans hk, by rwa [hparts hk]⟩
    · exact ⟨o, getElem?_modify_ne hi ho, hk, hp⟩

theorem deleted_modify (hf : ∀ x ∈ os[i]?, (f x).kind = x.kind ∧
    (x.kind.IsSnapshot → (f x).parts = x.parts)) :
    Deleted (os.modify i f) h ↔ Deleted os h := by
  constructor
  · rintro ⟨o, ho, hk, hp⟩
    rcases getElem?_modify_cases ho with ⟨rfl, x, hx, rfl⟩ | ⟨-, ho⟩
    · obtain ⟨hkind, hparts⟩ := hf x hx
      rw [hkind] at hk
      rw [hparts hk] at hp
      exact ⟨x, hx, hk, hp⟩
    · exact ⟨o, ho, hk, hp⟩
  · rintro ⟨o, ho, hk, hp⟩
    by_cases hi : h = i
    · subst hi
      obtain ⟨hkind, hparts⟩ := hf o ho
      exact ⟨f o, getElem?_modify_self ho, by rwa [hkind], by rwa [hparts hk]⟩
    · exact ⟨o, getElem?_modify_ne hi ho, hk, hp⟩

end Objects

/-- The lists of the engines agree with the objects. -/
structure Consistent (w : State) : Prop where
  objects : Invariant w.objects
  ordered : ∀ db, (w.engines db).Ordered
  registered : ∀ db h, (w.engines db).Registered h ↔ Undeleted w.objects h db
  pointer : ∀ i, ∀ o ∈ w.objects[i]?, o.kind = .readOptions → o.phase = .alive →
    o.strong = (w.snapshotPointer i).toList
  released : ∀ i, i ∈ w.released ↔ Deleted w.objects i
  once : w.released.Nodup

section Preservation

variable {w : State}

theorem Consistent.setEngine (hw : Consistent w) (db : ℕ) {e : Engine} (he : e.Ordered)
    (hs : e.snapshots = (w.engines db).snapshots) : Consistent (w.setEngine db e) := by
  constructor
  · exact hw.objects
  · intro db'
    by_cases hdb : db' = db
    · subst hdb
      rw [State.setEngine_self]
      exact he
    · rw [State.setEngine_ne w e hdb]
      exact hw.ordered db'
  · intro db' h
    rw [State.setEngine_objects, ← hw.registered db' h]
    by_cases hdb : db' = db
    · subst hdb
      rw [State.setEngine_self, Engine.Registered, Engine.Registered, hs]
    · rw [State.setEngine_ne w e hdb]
  · exact hw.pointer
  · exact hw.released
  · exact hw.once

theorem Consistent.push (hw : Consistent w) {kind : Kind}
    (hinv : Invariant (w.objects ++ [.new kind])) (hk : ∀ db, kind ≠ .snapshot db)
    (hr : kind ≠ .readOptions) : Consistent { w with objects := w.objects ++ [.new kind] } := by
  constructor
  · exact hinv
  · exact hw.ordered
  · intro db h
    rw [undeleted_push, hw.registered db h]
    simp [hk db]
  · intro i o ho hok hop
    rcases getElem?_push_cases ho with ho | ⟨-, rfl⟩
    · exact hw.pointer i o ho hok hop
    · exact absurd hok hr
  · intro i
    rw [deleted_push, hw.released i]
  · exact hw.once

theorem Consistent.modify (hw : Consistent w) {i : ℕ} {f : Object → Object}
    (hinv : Invariant (w.objects.modify i f))
    (hf : ∀ x ∈ w.objects[i]?, (f x).kind = x.kind ∧ (x.kind.IsSnapshot → (f x).parts = x.parts) ∧
      ((f x).phase = .alive → x.phase = .alive ∧ (f x).strong = x.strong)) :
    Consistent { w with objects := w.objects.modify i f } := by
  constructor
  · exact hinv
  · exact hw.ordered
  · intro db h
    rw [undeleted_modify, hw.registered db h]
    intro x hx
    exact ⟨(hf x hx).1, fun hk => (hf x hx).2.1 ⟨db, hk⟩⟩
  · intro j o ho hok hop
    rcases getElem?_modify_cases ho with ⟨rfl, x, hx, rfl⟩ | ⟨-, ho⟩
    · obtain ⟨hkind, -, halive⟩ := hf x hx
      obtain ⟨hxp, hstrong⟩ := halive hop
      rw [hkind] at hok
      rw [hstrong]
      exact hw.pointer j x hx hok hxp
    · exact hw.pointer j o ho hok hop
  · intro j
    rw [deleted_modify, hw.released j]
    intro x hx
    exact ⟨(hf x hx).1, (hf x hx).2.1⟩
  · exact hw.once

theorem Consistent.newSnapshot (hw : Consistent w) {db : ℕ}
    (he : AliveAs w.objects db .database) :
    Consistent (next w (.object (.newSnapshot db))) := by
  constructor
  · exact @step_invariant _ hw.objects (.newSnapshot db) he
  · intro db'
    by_cases hdb : db' = db
    · subst hdb
      change ((w.setEngine db' _).engines db').Ordered
      rw [State.setEngine_self]
      exact (hw.ordered db').getSnapshot _
    · change ((w.setEngine db _).engines db').Ordered
      rw [State.setEngine_ne w _ hdb]
      exact hw.ordered db'
  · intro db' h
    change ((w.setEngine db _).engines db').Registered h ↔ Undeleted (w.objects ++ [_]) h db'
    rw [undeleted_push, ← hw.registered db' h]
    by_cases hdb : db' = db
    · subst hdb
      rw [State.setEngine_self]
      simp [Engine.Registered, Engine.getSnapshot, exists_or]
    · rw [State.setEngine_ne w _ hdb]
      simp [Ne.symm hdb]
  · intro i o ho hok hop
    rcases getElem?_push_cases ho with ho | ⟨-, rfl⟩
    · exact hw.pointer i o ho hok hop
    · cases hok
  · intro i
    exact (hw.released i).trans (deleted_push _).symm
  · exact hw.once

theorem Consistent.newReadOptions (hw : Consistent w) :
    Consistent (next w (.object .newReadOptions)) := by
  constructor
  · exact @step_invariant _ hw.objects .newReadOptions trivial
  · exact hw.ordered
  · intro db h
    change (w.engines db).Registered h ↔ Undeleted (w.objects ++ [_]) h db
    rw [undeleted_push, hw.registered db h]
    simp
  · intro i o ho hok hop
    change o.strong = (Function.update w.snapshotPointer w.objects.length none i).toList
    rcases getElem?_push_cases ho with ho | ⟨rfl, rfl⟩
    · have hlt := (List.getElem?_eq_some_iff.mp ho).1
      rw [Function.update_of_ne (ne_of_lt hlt)]
      exact hw.pointer i o ho hok hop
    · rw [Function.update_self]
      rfl
  · intro i
    exact (hw.released i).trans (deleted_push _).symm
  · exact hw.once

theorem Consistent.setSnapshot (hw : Consistent w) {options : ℕ} {snapshot : Option ℕ}
    (he : DVELevelDB.Enabled w.objects (.setSnapshot options snapshot)) :
    Consistent (next w (.object (.setSnapshot options snapshot))) := by
  constructor
  · exact step_invariant hw.objects he
  · exact hw.ordered
  · intro db h
    apply (hw.registered db h).trans
    symm
    apply undeleted_modify
    intro x _
    exact ⟨rfl, fun _ => rfl⟩
  · intro i o ho hok hop
    change o.strong = (Function.update w.snapshotPointer options snapshot i).toList
    rcases getElem?_modify_cases ho with ⟨rfl, x, -, rfl⟩ | ⟨hne, ho⟩
    · rw [Function.update_self]
    · rw [Function.update_of_ne hne]
      exact hw.pointer i o ho hok hop
  · intro i
    apply (hw.released i).trans
    symm
    apply deleted_modify
    intro x _
    exact ⟨rfl, fun _ => rfl⟩
  · exact hw.once

theorem snapshotDatabase_eq {os : List Object} {i : ℕ} {o : Object} (ho : o ∈ os[i]?) :
    snapshotDatabase os i = match o.kind with | .snapshot db => some db | _ => none := by
  rw [Option.mem_def] at ho
  rw [snapshotDatabase, ho]
  obtain ⟨kind, strong, references, phase, parts⟩ := o
  cases kind <;> rfl

theorem Consistent.releaseSnapshot (hw : Consistent w) {i db : ℕ} {o : Object}
    (ho : o ∈ w.objects[i]?) (hk : o.kind = .snapshot db) (hparts : o.parts ≠ [])
    (hinv : Invariant (w.objects.modify i fun o => { o with parts := o.parts.tail })) :
    Consistent { w.setEngine db ((w.engines db).releaseSnapshot i) with
      objects := w.objects.modify i fun o => { o with parts := o.parts.tail }
      released := w.released ++ [i] } := by
  have hfull : o.parts = [.snapshot] := by
    have hsuffix := hw.objects.parts_suffix o (List.mem_of_getElem? ho)
    rw [hk] at hsuffix
    rcases List.suffix_cons_iff.mp hsuffix with heq | hnil
    · exact heq
    · exact absurd (List.suffix_nil.mp hnil) hparts
  have hself : ∀ x ∈ (w.objects.modify i fun o => { o with parts := o.parts.tail })[i]?,
      x.kind = .snapshot db ∧ x.parts = [] := by
    intro x hx
    rcases getElem?_modify_cases hx with ⟨-, y, hy, rfl⟩ | ⟨hne, -⟩
    · obtain rfl : o = y := Option.some_inj.mp (ho.symm.trans hy)
      exact ⟨hk, by rw [hfull]; rfl⟩
    · exact absurd rfl hne
  have hother : ∀ {h : ℕ}, h ≠ i → ∀ x, x ∈ (w.objects.modify i fun o =>
      { o with parts := o.parts.tail })[h]? ↔ x ∈ w.objects[h]? := by
    intro h hne x
    constructor
    · intro hx
      rcases getElem?_modify_cases hx with ⟨rfl, -⟩ | ⟨-, hx⟩
      · exact absurd rfl hne
      · exact hx
    · exact getElem?_modify_ne hne
  have hnew : i ∉ w.released := by
    rw [hw.released i]
    rintro ⟨x, hx, -, hp⟩
    obtain rfl : o = x := Option.some_inj.mp (ho.symm.trans hx)
    exact hp (by rw [hfull]; exact List.mem_singleton.mpr rfl)
  constructor
  · exact hinv
  · intro db'
    by_cases hdb : db' = db
    · subst hdb
      change ((w.setEngine db' _).engines db').Ordered
      rw [State.setEngine_self]
      exact (hw.ordered db').releaseSnapshot _
    · change ((w.setEngine db _).engines db').Ordered
      rw [State.setEngine_ne w _ hdb]
      exact hw.ordered db'
  · intro db' h
    change ((w.setEngine db _).engines db').Registered h ↔ Undeleted (w.objects.modify i _) h db'
    have hold := hw.registered db' h
    by_cases hh : h = i
    · subst hh
      have hnone : ¬ Undeleted (w.objects.modify h fun o => { o with parts := o.parts.tail }) h db' := by
        rintro ⟨x, hx, -, hp⟩
        rw [(hself x hx).2] at hp
        cases hp
      refine iff_of_false ?_ hnone
      by_cases hdb : db' = db
      · subst hdb
        rw [State.setEngine_self]
        simp [Engine.Registered, Engine.releaseSnapshot]
      · rw [State.setEngine_ne w _ hdb, hold]
        rintro ⟨x, hx, hxk, -⟩
        obtain rfl : o = x := Option.some_inj.mp (ho.symm.trans hx)
        rw [hk] at hxk
        exact hdb (Kind.snapshot.inj hxk).symm
    · have hund : Undeleted (w.objects.modify i fun o => { o with parts := o.parts.tail }) h db' ↔
          Undeleted w.objects h db' := by
        simp only [Undeleted, hother hh]
      rw [hund, ← hold]
      by_cases hdb : db' = db
      · subst hdb
        rw [State.setEngine_self]
        simp [Engine.Registered, Engine.releaseSnapshot, hh]
      · rw [State.setEngine_ne w _ hdb]
  · intro j x hx hxk hxp
    by_cases hj : j = i
    · subst hj
      rw [(hself x hx).1] at hxk
      cases hxk
    · exact hw.pointer j x ((hother hj x).mp hx) hxk hxp
  · intro j
    change j ∈ w.released ++ [i] ↔ Deleted (w.objects.modify i _) j
    by_cases hj : j = i
    · subst hj
      refine iff_of_true (by simp) ?_
      refine ⟨_, getElem?_modify_self ho, ⟨db, hk⟩, ?_⟩
      simp [hfull]
    · have hdel : Deleted (w.objects.modify i fun o => { o with parts := o.parts.tail }) j ↔
          Deleted w.objects j := by
        simp only [Deleted, hother hj]
      rw [hdel, ← hw.released j]
      simp [hj]
  · exact List.nodup_append.mpr ⟨hw.once, by simp, by
      rintro a ha _ hb rfl
      exact hnew (List.mem_singleton.mp hb ▸ ha)⟩

theorem Consistent.deletePart (hw : Consistent w) {i : ℕ}
    (he : DVELevelDB.Enabled w.objects (.deletePart i)) :
    Consistent (next w (.object (.deletePart i))) := by
  have hinv := step_invariant hw.objects he
  obtain ⟨o, ho, -, hparts⟩ := he
  have hdb := snapshotDatabase_eq ho
  cases hd : snapshotDatabase w.objects i with
  | some db =>
    have hk : o.kind = .snapshot db := by
      rw [hd] at hdb
      split at hdb
      · next hk => rw [hk, Option.some_inj.mp hdb]
      · cases hdb
    simp only [next, State.call, hd]
    exact hw.releaseSnapshot ho hk hparts hinv
  | none =>
    have hk : ¬ o.kind.IsSnapshot := by
      rintro ⟨db, hk⟩
      rw [hd, hk] at hdb
      cases hdb
    simp only [next, State.call, hd]
    apply hw.modify hinv
    intro x hx
    obtain rfl : o = x := Option.some_inj.mp (ho.symm.trans hx)
    exact ⟨rfl, fun hs => absurd hs hk, fun hp => ⟨hp, rfl⟩⟩

end Preservation

section Reads

variable {w : State} {db options : ℕ}

end Reads

end Snapshots

end DVELevelDB
