import Etiam.Library.Runs
import Etiam.Producer.Database

/-!
The index of objects by id that the node keeps one of for each type of object.

Some types have another key that is unique, so writing an object can be refused. Sessions are
nested; undoing the latest gives back the index that it started from as long as no change of an
object touches that other key.
-/

namespace Etiam

/-- What a session has to put back: changed, removed and new objects, by id. -/
structure UndoRecord (V : Type) where
  oldValues : Std.ExtTreeMap ℕ V
  removedValues : Std.ExtTreeMap ℕ V
  newIds : Std.ExtTreeSet ℕ
  oldNextId : ℕ
  revision : ℕ

/-- Objects by id, with what the open sessions have to put back, latest first. -/
structure GenericIndex (V : Type) where
  objects : Std.ExtTreeMap ℕ V
  nextId : ℕ
  revision : ℕ
  stack : List (UndoRecord V)

namespace GenericIndex

section Model

variable {V κ : Type} [DecidableEq κ] (key : V → Option κ) (ix : GenericIndex V)

/-- Another object than that with an id has the same unique key as a value. -/
def clashes (objects : Std.ExtTreeMap ℕ V) (id : ℕ) (value : V) : Bool :=
  objects.toList.any fun entry => entry.1 ≠ id ∧ key entry.2 = key value ∧ (key value).isSome

/-- An object is there and can take a value. -/
def replaceable (objects : Std.ExtTreeMap ℕ V) (item : ℕ × V) : Bool :=
  objects.contains item.1 && !clashes key objects item.1 item.2

/-- An object can be added, as neither its id nor its key is taken. -/
def insertable (objects : Std.ExtTreeMap ℕ V) (item : ℕ × V) : Bool :=
  !objects.contains item.1 && !clashes key objects item.1 item.2

/-- Change what the latest session has to put back, if one is open. -/
def note (change : UndoRecord V → UndoRecord V) : GenericIndex V :=
  match ix.stack with
  | [] => ix
  | head :: rest => { ix with stack := change head :: rest }

/-- Remember an object before it is changed for the first time in a session. -/
def onModify (id : ℕ) (old : V) (head : UndoRecord V) : UndoRecord V :=
  if id ∈ head.newIds then head
  else if id ∈ head.oldValues then head
  else { head with oldValues := head.oldValues.insert id old }

/-- Remember an object before it is removed, as it was when the session started. -/
def onRemove (id : ℕ) (old : V) (head : UndoRecord V) : UndoRecord V :=
  if id ∈ head.newIds then { head with newIds := head.newIds.erase id }
  else
    match head.oldValues[id]? with
    | some was =>
      { head with
        removedValues := head.removedValues.insertIfNew id was
        oldValues := head.oldValues.erase id }
    | none =>
      if id ∈ head.removedValues then head
      else { head with removedValues := head.removedValues.insert id old }

/-- Remember that an object is new. -/
def onCreate (id : ℕ) (head : UndoRecord V) : UndoRecord V :=
  { head with newIds := head.newIds.insert id }

/-- Create an object under the next id; nothing is done if the id or its key is taken. -/
def emplace (value : V) : GenericIndex V :=
  if insertable key ix.objects (ix.nextId, value) then
    { ix with
      objects := ix.objects.insert ix.nextId value
      nextId := ix.nextId + 1 }.note (onCreate ix.nextId)
  else ix

/-- Replace an object; if the new key is taken, the object is gone. -/
def modify (id : ℕ) (value : V) : GenericIndex V :=
  match ix.objects[id]? with
  | none => ix
  | some old =>
    { ix.note (onModify id old) with
      objects :=
        if clashes key ix.objects id value then ix.objects.erase id
        else ix.objects.insert id value }

/-- Remove an object. -/
def remove (id : ℕ) : GenericIndex V :=
  match ix.objects[id]? with
  | none => ix
  | some old => { ix.note (onRemove id old) with objects := ix.objects.erase id }

/-- Open a session. -/
def startUndoSession : GenericIndex V :=
  { ix with
    revision := ix.revision + 1
    stack := ⟨∅, ∅, ∅, ix.nextId, ix.revision + 1⟩ :: ix.stack }

/-- Write objects one by one, each of them if that is allowed. -/
def restore (allowed : Std.ExtTreeMap ℕ V → ℕ × V → Bool) (items : List (ℕ × V))
    (objects : Std.ExtTreeMap ℕ V) : Option (Std.ExtTreeMap ℕ V) :=
  items.foldlM (fun objects item =>
    if allowed objects item then some (objects.insert item.1 item.2) else none) objects

/-- Erase the objects that a session has created, all of which must be there. -/
def eraseNew (newIds : Std.ExtTreeSet ℕ) (objects : Std.ExtTreeMap ℕ V) :
    Option (Std.ExtTreeMap ℕ V) :=
  if newIds.toList.all (objects.contains ·) then
    some (objects.filter fun id _ => !newIds.contains id)
  else none

/-- Undo the latest session; there is no outcome where an object is not found or a key is taken. -/
def undo : Option (GenericIndex V) :=
  match ix.stack with
  | [] => some ix
  | head :: rest => do
    let objects ← restore (replaceable key) head.oldValues.toList ix.objects
    let objects ← eraseNew head.newIds objects
    let objects ← restore (insertable key) head.removedValues.toList objects
    return { objects, nextId := head.oldNextId, revision := ix.revision - 1, stack := rest }

/-- A call on the index. A session that is pushed stays open, one that is left is undone. -/
inductive Op (V : Type) where
  | create (value : V)
  | modify (id : ℕ) (value : V)
  | remove (id : ℕ)
  | start
  | undo

/-- What a call does to an index, and to the indices that its open sessions have started from. -/
def step : Op V → GenericIndex V × List (GenericIndex V) →
    Option (GenericIndex V × List (GenericIndex V))
  | .create value, (ix, bases) => some (ix.emplace key value, bases)
  | .modify id value, (ix, bases) => some (ix.modify key id value, bases)
  | .remove id, (ix, bases) => some (ix.remove id, bases)
  | .start, (ix, bases) => some (ix.startUndoSession, ix :: bases)
  | .undo, (ix, _ :: bases) => (ix.undo key).map fun before => (before, bases)
  | .undo, (_, []) => none

/-- A change of an object keeps its unique key. -/
def KeepsKey (s : GenericIndex V × List (GenericIndex V)) : Op V → Prop
  | .modify id value => ∀ old ∈ s.1.objects[id]?, key value = key old
  | _ => True

instance (s : GenericIndex V × List (GenericIndex V)) (op : Op V) : Decidable (KeepsKey key s op) :=
  match op with
  | .modify id value => inferInstanceAs (Decidable (∀ old ∈ s.1.objects[id]?, key value = key old))
  | .create _ | .remove _ | .start | .undo => .isTrue trivial

end Model

section Relation

variable {V κ : Type} (key : V → Option κ) (ix : GenericIndex V)

/-- No two objects have the same unique key. -/
def Unique (objects : Std.ExtTreeMap ℕ V) : Prop :=
  ∀ (i j : ℕ) (v w : V), objects[i]? = some v → objects[j]? = some w →
    key v = key w → (key v).isSome → i = j

/-- Keys are unique, and no object has an id that is still to be given. -/
structure Sound : Prop where
  below : ∀ (id : ℕ) (v : V), ix.objects[id]? = some v → id < ix.nextId
  unique : Unique key ix.objects

/-- What is noted for an id, from the object that a session found there and the one there now. -/
inductive Noted (was now old removed : Option V) (new : Prop) : Prop where
  | same (kept : now = was) (unchanged : old = none) (present : removed = none) (found : ¬ new)
  | changed {v t : V} (before : was = some v) (after : now = some t) (kept : key t = key v)
      (noted : old = some v) (present : removed = none) (found : ¬ new)
  | removed {v : V} (before : was = some v) (after : now = none) (unchanged : old = none)
      (noted : removed = some v) (found : ¬ new)
  | fresh {t : V} (before : was = none) (after : now = some t) (unchanged : old = none)
      (present : removed = none) (noted : new)

/-- The latest session tells an index from the one that it started from. -/
structure Tracks (base ix : GenericIndex V) (head : UndoRecord V) : Prop where
  stack : ix.stack = head :: base.stack
  revision : ix.revision = base.revision + 1
  oldNextId : head.oldNextId = base.nextId
  grown : base.nextId ≤ ix.nextId
  baseSound : base.Sound key
  sound : ix.Sound key
  noted : ∀ id : ℕ, Noted key base.objects[id]? ix.objects[id]? head.oldValues[id]?
    head.removedValues[id]? (id ∈ head.newIds)

variable {key ix}

theorem note_eq {head : UndoRecord V} {rest : List (UndoRecord V)}
    (opened : ix.stack = head :: rest) (change : UndoRecord V → UndoRecord V) :
    ix.note change = { ix with stack := change head :: rest } := by
  unfold note
  rw [opened]

@[simp] theorem objects_note (change : UndoRecord V → UndoRecord V) :
    (ix.note change).objects = ix.objects := by
  unfold note
  split <;> rfl

@[simp] theorem nextId_note (change : UndoRecord V → UndoRecord V) :
    (ix.note change).nextId = ix.nextId := by
  unfold note
  split <;> rfl

variable {base : GenericIndex V} {head : UndoRecord V} {id : ℕ} {value : V}

variable {objects : Std.ExtTreeMap ℕ V} {was : Option V} {old : V}

theorem not_mem_of_getElem?_eq_none (absent : objects[id]? = none) :
    id ∉ objects := by
  rw [Std.ExtTreeMap.mem_iff_isSome_getElem?, absent]
  exact Bool.false_ne_true

@[simp] theorem oldNextId_onModify (old : V) :
    (onModify id old head).oldNextId = head.oldNextId := by
  unfold onModify
  split
  · rfl
  · split <;> rfl

@[simp] theorem oldNextId_onRemove (old : V) :
    (onRemove id old head).oldNextId = head.oldNextId := by
  unfold onRemove
  split
  · rfl
  · split
    · rfl
    · split <;> rfl

section

variable (noted : Noted key was (some old) head.oldValues[id]? head.removedValues[id]?
  (id ∈ head.newIds))

include noted

theorem Noted.onModify (kept : key value = key old) :
    Noted key was (some value) (onModify id old head).oldValues[id]?
      (onModify id old head).removedValues[id]? (id ∈ (onModify id old head).newIds) := by
  unfold GenericIndex.onModify
  cases noted with
  | same same unchanged present found =>
    have absent : id ∉ head.oldValues := not_mem_of_getElem?_eq_none unchanged
    rw [if_neg found, if_neg absent]
    exact .changed same.symm rfl kept (by simp) present found
  | @changed v t before after same noted present found =>
    have member : id ∈ head.oldValues :=
      Std.ExtTreeMap.mem_iff_isSome_getElem?.mpr (by simp [noted])
    obtain rfl := Option.some.inj after
    rw [if_neg found, if_pos member]
    exact .changed before rfl (kept.trans same) noted present found
  | removed before after => cases after
  | fresh before after unchanged present noted =>
    rw [if_pos noted]
    exact .fresh before rfl unchanged present noted

theorem Noted.onRemove :
    Noted key was none (onRemove id old head).oldValues[id]?
      (onRemove id old head).removedValues[id]? (id ∈ (onRemove id old head).newIds) := by
  unfold GenericIndex.onRemove
  cases noted with
  | same same unchanged present found =>
    have absent : id ∉ head.removedValues := not_mem_of_getElem?_eq_none present
    rw [if_neg found, unchanged]
    dsimp only
    rw [if_neg absent]
    exact .removed same.symm rfl unchanged (by simp) found
  | @changed v t before after same noted present found =>
    have absent : id ∉ head.removedValues := not_mem_of_getElem?_eq_none present
    rw [if_neg found, noted]
    refine .removed before rfl (by simp) ?_ found
    exact Std.ExtTreeMap.getElem?_insertIfNew.trans
      (if_pos ⟨Std.ReflCmp.compare_self, absent⟩)
  | removed before after => cases after
  | fresh before after unchanged present noted =>
    rw [if_pos noted]
    exact .same before.symm unchanged present (by simp)

end

theorem Noted.onModify_ne {now : Option V} {other : ℕ}
    (noted : Noted key was now head.oldValues[other]? head.removedValues[other]?
      (other ∈ head.newIds)) (apart : id ≠ other) :
    Noted key was now (GenericIndex.onModify id old head).oldValues[other]?
      (GenericIndex.onModify id old head).removedValues[other]?
      (other ∈ (GenericIndex.onModify id old head).newIds) := by
  unfold GenericIndex.onModify
  split
  · exact noted
  · split
    · exact noted
    · simpa [Std.ExtTreeMap.getElem?_insert, apart] using noted

theorem Noted.onRemove_ne {now : Option V} {other : ℕ}
    (noted : Noted key was now head.oldValues[other]? head.removedValues[other]?
      (other ∈ head.newIds)) (apart : id ≠ other) :
    Noted key was now (GenericIndex.onRemove id old head).oldValues[other]?
      (GenericIndex.onRemove id old head).removedValues[other]?
      (other ∈ (GenericIndex.onRemove id old head).newIds) := by
  unfold GenericIndex.onRemove
  split
  · simpa [apart] using noted
  · split
    · simpa [Std.ExtTreeMap.getElem?_insertIfNew, Std.ExtTreeMap.getElem?_erase, apart]
        using noted
    · split
      · exact noted
      · simpa [Std.ExtTreeMap.getElem?_insert, apart] using noted

theorem Sound.congr {other : GenericIndex V} (sound : ix.Sound key)
    (objects : other.objects = ix.objects) (nextId : other.nextId = ix.nextId) :
    other.Sound key where
  below := by
    rw [objects, nextId]
    exact sound.below
  unique := by
    rw [objects]
    exact sound.unique

theorem Sound.getElem?_of_le (sound : ix.Sound key) (late : ix.nextId ≤ id) :
    ix.objects[id]? = none := by
  cases found : ix.objects[id]? with
  | none => rfl
  | some v => exact absurd (sound.below id v found) (Nat.not_lt.mpr late)

theorem Noted.absent {old removed : Option V} {new : Prop}
    (noted : Noted key none none old removed new) : old = none ∧ removed = none := by
  cases noted with
  | same kept unchanged present found => exact ⟨unchanged, present⟩
  | changed before => cases before
  | removed before => cases before
  | fresh before after => cases after

theorem Unique.fewer {others : Std.ExtTreeMap ℕ V} (unique : Unique key objects)
    (fewer : ∀ (i : ℕ) (v : V), others[i]? = some v → objects[i]? = some v) : Unique key others :=
  fun i j v w first second => unique i j v w (fewer i v first) (fewer j w second)

theorem Unique.sameKeys {others : Std.ExtTreeMap ℕ V} (unique : Unique key objects)
    (same : ∀ (i : ℕ) (v : V), others[i]? = some v → ∃ w, objects[i]? = some w ∧ key w = key v) :
    Unique key others := by
  intro i j v w first second equal some
  obtain ⟨v', foundFirst, keyFirst⟩ := same i v first
  obtain ⟨w', foundSecond, keySecond⟩ := same j w second
  refine unique i j v' w' foundFirst foundSecond (by rw [keyFirst, keySecond, equal]) ?_
  rw [keyFirst]
  exact some

theorem Tracks.start (sound : base.Sound key) :
    Tracks key base base.startUndoSession ⟨∅, ∅, ∅, base.nextId, base.revision + 1⟩ where
  stack := rfl
  revision := rfl
  oldNextId := rfl
  grown := Nat.le_refl _
  baseSound := sound
  sound := sound.congr rfl rfl
  noted id := .same rfl (by simp) (by simp) (by simp)

theorem Sound.remove (sound : ix.Sound key) (id : ℕ) : (ix.remove id).Sound key := by
  unfold GenericIndex.remove
  split
  · exact sound
  · have fewer : ∀ (i : ℕ) (v : V), (ix.objects.erase id)[i]? = some v →
        ix.objects[i]? = some v := by
      intro i v found
      rw [Std.ExtTreeMap.getElem?_erase] at found
      split at found
      · cases found
      · exact found
    exact ⟨fun i v found => by simpa using sound.below i v (fewer i v found),
      sound.unique.fewer fewer⟩

theorem Tracks.remove (tracks : Tracks key base ix head) (id : ℕ) :
    ∃ head, Tracks key base (ix.remove id) head := by
  have sound := tracks.sound.remove id
  cases found : ix.objects[id]? with
  | none => exact ⟨head, by simpa [GenericIndex.remove, found] using tracks⟩
  | some old =>
    have removed : ix.remove id =
        { ix with
          objects := ix.objects.erase id
          stack := onRemove id old head :: base.stack } := by
      simp [GenericIndex.remove, found, note_eq tracks.stack]
    rw [removed] at sound ⊢
    refine ⟨onRemove id old head, rfl, tracks.revision, ?_, tracks.grown, tracks.baseSound, sound,
      fun other => ?_⟩
    · rw [oldNextId_onRemove, tracks.oldNextId]
    · have noted := tracks.noted other
      dsimp only
      rw [Std.ExtTreeMap.getElem?_erase]
      by_cases same : id = other
      · subst same
        rw [if_pos Std.ReflCmp.compare_self]
        rw [found] at noted
        exact noted.onRemove
      · rw [if_neg (by simpa using same)]
        exact noted.onRemove_ne same

/-- With the new objects erased, only objects that the session found are left. -/
theorem Tracks.eraseNew_eq_some (tracks : Tracks key base ix head) {made : Std.ExtTreeMap ℕ V}
    (written : ∀ id : ℕ, made[id]? = head.oldValues[id]?.or ix.objects[id]?) :
    ∃ left, eraseNew head.newIds made = some left ∧
      ∀ id : ℕ, base.objects[id]? = head.removedValues[id]?.or left[id]? ∧
        (head.removedValues[id]? ≠ none → left[id]? = none) := by
  have all : head.newIds.toList.all (made.contains ·) = true := by
    rw [List.all_eq_true]
    intro id listed
    have new : id ∈ head.newIds := by simpa using listed
    rw [Std.ExtTreeMap.contains_eq_isSome_getElem?, written id]
    cases tracks.noted id with
    | same _ _ _ found => exact absurd new found
    | changed _ _ _ _ _ found => exact absurd new found
    | removed _ _ _ _ found => exact absurd new found
    | fresh _ after => simp [after]
  refine ⟨_, if_pos all, fun id => ?_⟩
  have kept : (made.filter fun id _ => !head.newIds.contains id)[id]? =
      if id ∈ head.newIds then none else head.oldValues[id]?.or ix.objects[id]? := by
    rw [Std.ExtTreeMap.getElem?_filter', written id]
    by_cases new : id ∈ head.newIds
    · simp [new]
    · have known : head.newIds.contains id = false := by
        rw [← Bool.not_eq_true, Std.ExtTreeSet.contains_iff_mem]
        exact new
      cases head.oldValues[id]?.or ix.objects[id]? <;> simp [new, known]
  rw [kept]
  cases tracks.noted id with
  | same kept unchanged present found => simp [kept, unchanged, present, found]
  | changed before after kept noted present found => simp [before, noted, present, found]
  | removed before after unchanged noted found => simp [before, after, unchanged, noted]
  | fresh before after unchanged present noted => simp [before, present, noted]

variable (key) in
/-- Each open session tells the index from the one that it started from. -/
def Nested : GenericIndex V → List (GenericIndex V) → Prop
  | ix, [] => ix.Sound key
  | ix, base :: rest => (∃ head, Tracks key base ix head) ∧ Nested base rest

theorem Nested.sound {bases : List (GenericIndex V)} (nested : Nested key ix bases) :
    ix.Sound key := by
  cases bases with
  | nil => exact nested
  | cons base rest =>
    obtain ⟨⟨head, tracks⟩, -⟩ := nested
    exact tracks.sound

theorem Nested.change {next : GenericIndex V} {bases : List (GenericIndex V)}
    (nested : Nested key ix bases) (sound : ix.Sound key → next.Sound key)
    (tracks : ∀ base head, Tracks key base ix head → ∃ head, Tracks key base next head) :
    Nested key next bases := by
  cases bases with
  | nil => exact sound nested
  | cons base rest =>
    obtain ⟨⟨head, tracked⟩, earlier⟩ := nested
    exact ⟨tracks base head tracked, earlier⟩

end Relation

section Runs

variable {V κ : Type} [DecidableEq κ] {key : V → Option κ} {ix base : GenericIndex V}
  {head : UndoRecord V} {id : ℕ} {value : V}

theorem clashes_eq_true_iff {objects : Std.ExtTreeMap ℕ V} {id : ℕ} {value : V} :
    clashes key objects id value = true ↔
      ∃ (other : ℕ) (v : V), objects[other]? = some v ∧ other ≠ id ∧ key v = key value ∧
        (key value).isSome := by
  simp [clashes, Std.ExtTreeMap.mem_toList_iff_getElem?_eq_some]

theorem Unique.clashes_eq_false {objects : Std.ExtTreeMap ℕ V} {id : ℕ} {value old : V}
    (unique : Unique key objects) (present : objects[id]? = some old)
    (kept : key value = key old) : clashes key objects id value = false := by
  rw [Bool.eq_false_iff, ne_eq, clashes_eq_true_iff]
  rintro ⟨other, v, found, apart, same, some⟩
  refine apart (unique other id v old found present (same.trans kept) ?_)
  rw [same]
  exact some

theorem modify_eq {old : V} (sound : ix.Sound key) (found : ix.objects[id]? = some old)
    (kept : key value = key old) :
    ix.modify key id value =
      { ix.note (onModify id old) with objects := ix.objects.insert id value } := by
  unfold modify
  rw [found]
  dsimp only
  rw [sound.unique.clashes_eq_false found kept, if_neg Bool.false_ne_true]

theorem Sound.modify (sound : ix.Sound key) (kept : ∀ old ∈ ix.objects[id]?, key value = key old) :
    (ix.modify key id value).Sound key := by
  cases found : ix.objects[id]? with
  | none => simpa [GenericIndex.modify, found] using sound
  | some old =>
    have own : key value = key old := kept old found
    -- Each object stands where one with its key stood.
    have same : ∀ (i : ℕ) (v : V), (ix.objects.insert id value)[i]? = some v →
        ∃ w, ix.objects[i]? = some w ∧ key w = key v := by
      intro i v present
      rw [Std.ExtTreeMap.getElem?_insert] at present
      split at present
      · next equal =>
        obtain rfl := Std.compare_eq_iff_eq.mp equal
        obtain rfl := Option.some.inj present
        exact ⟨old, found, own.symm⟩
      · exact ⟨v, present, rfl⟩
    rw [modify_eq sound found own]
    refine ⟨fun i v present => ?_, sound.unique.sameKeys same⟩
    obtain ⟨w, before, -⟩ := same i v present
    simpa using sound.below i w before

theorem Tracks.modify (tracks : Tracks key base ix head)
    (kept : ∀ old ∈ ix.objects[id]?, key value = key old) :
    ∃ head, Tracks key base (ix.modify key id value) head := by
  have sound := tracks.sound.modify kept
  cases found : ix.objects[id]? with
  | none => exact ⟨head, by simpa [GenericIndex.modify, found] using tracks⟩
  | some old =>
    have own : key value = key old := kept old found
    rw [modify_eq tracks.sound found own, note_eq tracks.stack] at sound ⊢
    refine ⟨onModify id old head, rfl, tracks.revision, ?_, tracks.grown, tracks.baseSound, sound,
      fun other => ?_⟩
    · rw [oldNextId_onModify, tracks.oldNextId]
    · have noted := tracks.noted other
      dsimp only
      rw [Std.ExtTreeMap.getElem?_insert]
      by_cases same : id = other
      · subst same
        rw [if_pos Std.ReflCmp.compare_self]
        rw [found] at noted
        exact noted.onModify own
      · rw [if_neg (by simpa using same)]
        exact noted.onModify_ne same

theorem Sound.emplace (sound : ix.Sound key) (value : V) : (ix.emplace key value).Sound key := by
  unfold GenericIndex.emplace
  split
  · next free =>
    rw [insertable, Bool.and_eq_true, Bool.not_eq_true', Bool.not_eq_true'] at free
    -- The key of the new object is on no other object.
    have alone : ∀ (i : ℕ) (v : V), ix.objects[i]? = some v → key v = key value →
        (key value).isSome → i = ix.nextId := by
      intro i v found same some
      by_contra apart
      exact Bool.eq_false_iff.mp free.2 (clashes_eq_true_iff.mpr ⟨i, v, found, apart, same, some⟩)
    refine ⟨fun i v found => ?_, fun i j v w first second same some => ?_⟩
    · rw [objects_note, Std.ExtTreeMap.getElem?_insert] at found
      rw [nextId_note]
      split at found
      · next equal =>
        rw [← Std.compare_eq_iff_eq.mp equal]
        exact Nat.lt_succ_self _
      · exact (sound.below i v found).trans (Nat.lt_succ_self _)
    · rw [objects_note, Std.ExtTreeMap.getElem?_insert] at first second
      split at first <;> split at second
      · next one other =>
        rw [← Std.compare_eq_iff_eq.mp one, Std.compare_eq_iff_eq.mp other]
      · next one other =>
        obtain rfl := Option.some.inj first
        rw [alone j w second same.symm some]
        exact (Std.compare_eq_iff_eq.mp one).symm
      · next one other =>
        obtain rfl := Option.some.inj second
        rw [alone i v first same (same ▸ some)]
        exact Std.compare_eq_iff_eq.mp other
      · exact sound.unique i j v w first second same some
  · exact sound

theorem Tracks.emplace (tracks : Tracks key base ix head) (value : V) :
    ∃ head, Tracks key base (ix.emplace key value) head := by
  have sound := tracks.sound.emplace value
  unfold GenericIndex.emplace at sound ⊢
  split
  · next free =>
    have opened : { ix with
        objects := ix.objects.insert ix.nextId value
        nextId := ix.nextId + 1 }.stack = head :: base.stack := tracks.stack
    rw [if_pos free, note_eq opened] at sound
    rw [note_eq opened]
    refine ⟨onCreate ix.nextId head, rfl, tracks.revision, tracks.oldNextId,
      tracks.grown.trans (Nat.le_succ _), tracks.baseSound, sound, fun other => ?_⟩
    have noted := tracks.noted other
    dsimp only
    rw [Std.ExtTreeMap.getElem?_insert]
    by_cases same : ix.nextId = other
    · subst same
      -- Neither the session nor its start has an object under the next id.
      rw [tracks.baseSound.getElem?_of_le tracks.grown,
        tracks.sound.getElem?_of_le (Nat.le_refl _)] at noted
      obtain ⟨unchanged, present⟩ := noted.absent
      rw [if_pos Std.ReflCmp.compare_self, tracks.baseSound.getElem?_of_le tracks.grown]
      exact .fresh rfl rfl unchanged present (by simp [onCreate])
    · rw [if_neg (by simpa using same)]
      simpa [onCreate, same] using noted
  · exact ⟨head, tracks⟩

theorem restore_eq_some {allowed : Std.ExtTreeMap ℕ V → ℕ × V → Bool}
    {P : Std.ExtTreeMap ℕ V → Prop}
    (items : List (ℕ × V)) (objects : Std.ExtTreeMap ℕ V)
    (distinct : items.Pairwise fun e e' => e.1 ≠ e'.1)
    (fits : ∀ now item, item ∈ items → P now → now[item.1]? = objects[item.1]? →
      allowed now item ∧ P (now.insert item.1 item.2)) (start : P objects) :
    ∃ made, restore allowed items objects = some made ∧ P made ∧
      (∀ item ∈ items, made[item.1]? = some item.2) ∧
      ∀ id : ℕ, (∀ item ∈ items, item.1 ≠ id) → made[id]? = objects[id]? := by
  induction items generalizing objects with
  | nil => exact ⟨objects, rfl, start, by simp, fun _ _ => rfl⟩
  | cons item rest ih =>
    obtain ⟨first, distinct⟩ := List.pairwise_cons.mp distinct
    obtain ⟨may, next⟩ := fits objects item (by simp) start rfl
    have other : ∀ id : ℕ, item.1 ≠ id → (objects.insert item.1 item.2)[id]? = objects[id]? := by
      intro id apart
      simp [Std.ExtTreeMap.getElem?_insert, apart]
    obtain ⟨made, ran, kept, written, rests⟩ := ih (objects.insert item.1 item.2) distinct
      (fun now item' member holds same => fits now item' (.tail _ member) holds
        (same.trans (other _ (first item' member)))) next
    refine ⟨made, ?_, kept, ?_, fun id apart => ?_⟩
    · simpa [restore, may] using ran
    · intro item' member
      rcases List.mem_cons.mp member with rfl | later
      · rw [rests item'.1 fun e member same => first e member same.symm]
        simp
      · exact written item' later
    · rw [rests id fun e member => apart e (.tail _ member), other id (apart item (by simp))]

theorem restore_toList_eq_some {allowed : Std.ExtTreeMap ℕ V → ℕ × V → Bool}
    {P : Std.ExtTreeMap ℕ V → Prop} (table objects : Std.ExtTreeMap ℕ V)
    (fits : ∀ (now : Std.ExtTreeMap ℕ V) (id : ℕ) (v : V), table[id]? = some v → P now →
      now[id]? = objects[id]? → allowed now (id, v) ∧ P (now.insert id v)) (start : P objects) :
    ∃ made, restore allowed table.toList objects = some made ∧
      ∀ id : ℕ, made[id]? = table[id]?.or objects[id]? := by
  have distinct : table.toList.Pairwise fun e e' => e.1 ≠ e'.1 :=
    Std.ExtTreeMap.distinct_keys_toList.imp fun apart same =>
      apart (Std.compare_eq_iff_eq.mpr same)
  have found : ∀ item ∈ table.toList, table[item.1]? = some item.2 := fun item member =>
    Std.ExtTreeMap.mem_toList_iff_getElem?_eq_some.mp member
  obtain ⟨made, ran, -, written, rests⟩ := restore_eq_some table.toList objects distinct
    (fun now item member => fits now item.1 item.2 (found item member)) start
  refine ⟨made, ran, fun id => ?_⟩
  cases entry : table[id]? with
  | some v => exact written (id, v) (Std.ExtTreeMap.mem_toList_iff_getElem?_eq_some.mpr entry)
  | none =>
    refine rests id fun item member same => ?_
    have present := found item member
    rw [same, entry] at present
    cases present

/-- Changed objects get their old values: each has the key that it had. -/
theorem Tracks.restore_old (tracks : Tracks key base ix head) :
    ∃ made, restore (replaceable key) head.oldValues.toList ix.objects = some made ∧
      ∀ id : ℕ, made[id]? = head.oldValues[id]?.or ix.objects[id]? := by
  refine restore_toList_eq_some (P := fun now => ∀ i : ℕ, now[i]?.map key = ix.objects[i]?.map key)
    head.oldValues ix.objects (fun now id v noted keys same => ?_) fun _ => rfl
  have change := tracks.noted id
  rw [noted] at change
  cases change with
  | same _ unchanged => cases unchanged
  | removed _ _ unchanged => cases unchanged
  | fresh _ _ unchanged => cases unchanged
  | @changed v' t _ after kept equal =>
    obtain rfl := Option.some.inj equal
    have present : now[id]? = some t := same.trans after
    have unique : Unique key now := by
      refine tracks.sound.unique.sameKeys fun i w found => ?_
      have keyed := keys i
      rw [found, Option.map_some, eq_comm, Option.map_eq_some_iff] at keyed
      exact keyed
    have member : now.contains id := by
      rw [Std.ExtTreeMap.contains_eq_isSome_getElem?, present]
      rfl
    refine ⟨by simp [replaceable, member, unique.clashes_eq_false present kept.symm], fun i => ?_⟩
    rw [Std.ExtTreeMap.getElem?_insert]
    split
    · next own =>
      obtain rfl := Std.compare_eq_iff_eq.mp own
      rw [after, Option.map_some, Option.map_some, kept]
    · exact keys i

/-- Removed objects come back: their keys are free again. -/
theorem Tracks.restore_removed (tracks : Tracks key base ix head) {left : Std.ExtTreeMap ℕ V}
    (rest : ∀ id : ℕ, base.objects[id]? = head.removedValues[id]?.or left[id]? ∧
      (head.removedValues[id]? ≠ none → left[id]? = none)) :
    restore (insertable key) head.removedValues.toList left = some base.objects := by
  have whole : ∀ (id : ℕ) (v : V), head.removedValues[id]? = some v →
      base.objects[id]? = some v := by
    intro id v noted
    rw [(rest id).1, noted, Option.some_or]
  have start : ∀ (i : ℕ) (v : V), left[i]? = some v → base.objects[i]? = some v := by
    intro i v found
    cases noted : head.removedValues[i]? with
    | none => rw [(rest i).1, noted, Option.none_or, found]
    | some w =>
      have gone := (rest i).2 (by simp [noted])
      rw [found] at gone
      cases gone
  -- All along there are only objects that the session found, so their keys are unique.
  have back : ∃ made, restore (insertable key) head.removedValues.toList left = some made ∧
      ∀ id : ℕ, made[id]? = head.removedValues[id]?.or left[id]? := by
    refine restore_toList_eq_some
      (P := fun now => ∀ (i : ℕ) (v : V), now[i]? = some v → base.objects[i]? = some v)
      head.removedValues left (fun now id v noted within same => ?_) start
    have absent : now[id]? = none := same.trans ((rest id).2 (by simp [noted]))
    have free : clashes key now id v = false := by
      rw [Bool.eq_false_iff, ne_eq, clashes_eq_true_iff]
      rintro ⟨other, w, found, apart, equal, some⟩
      exact apart (tracks.baseSound.unique other id w v (within other w found) (whole id v noted)
        equal (equal ▸ some))
    refine ⟨by simp [insertable, Std.ExtTreeMap.contains_eq_isSome_getElem?, absent, free],
      fun i w found => ?_⟩
    rw [Std.ExtTreeMap.getElem?_insert] at found
    split at found
    · next own =>
      obtain rfl := Std.compare_eq_iff_eq.mp own
      obtain rfl := Option.some.inj found
      exact whole id v noted
    · exact within i w found
  obtain ⟨made, ran, written⟩ := back
  rw [ran]
  refine congrArg some (Std.ExtTreeMap.ext_getElem? fun {id} => ?_)
  rw [written id, (rest id).1]

theorem Tracks.undo_eq (tracks : Tracks key base ix head) : ix.undo key = some base := by
  obtain ⟨made, restored, written⟩ := tracks.restore_old
  obtain ⟨left, erased, rest⟩ := tracks.eraseNew_eq_some written
  unfold undo
  rw [tracks.stack]
  simp only [restored, erased, tracks.restore_removed rest, tracks.oldNextId, tracks.revision,
    Option.bind_eq_bind, Option.bind_some, Option.pure_def, Nat.add_sub_cancel]

theorem Nested.step (op : Op V) (s t : GenericIndex V × List (GenericIndex V))
    (nested : Nested key s.1 s.2) (keeps : KeepsKey key s op) (taken : step key op s = some t) :
    Nested key t.1 t.2 := by
  obtain ⟨ix, bases⟩ := s
  cases op with
  | create value =>
    obtain rfl := Option.some.inj taken
    exact nested.change (·.emplace value) fun _ _ tracks => tracks.emplace value
  | modify id value =>
    obtain rfl := Option.some.inj taken
    exact nested.change (·.modify keeps) fun _ _ tracks => tracks.modify keeps
  | remove id =>
    obtain rfl := Option.some.inj taken
    exact nested.change (·.remove id) fun _ _ tracks => tracks.remove id
  | start =>
    obtain rfl := Option.some.inj taken
    exact ⟨⟨_, .start nested.sound⟩, nested⟩
  | undo =>
    cases bases with
    | nil => cases taken
    | cons base rest =>
      obtain ⟨⟨head, tracks⟩, earlier⟩ := nested
      have undone : GenericIndex.step key .undo (ix, base :: rest) = some (base, rest) := by
        simp only [GenericIndex.step, tracks.undo_eq, Option.map_some]
      obtain rfl := Option.some.inj (undone.symm.trans taken)
      exact earlier

end Runs

end GenericIndex

/-- The types of objects that the node keeps an index of. -/
inductive ObjectType where
  | globalProperty
  | dynamicGlobalProperty
  | producerSchedule
  | producerVotes
  | producer
  | processHardfork

namespace ObjectType

/-- An object of a type without its id. -/
def Value : ObjectType → Type
  | globalProperty => GlobalPropertyObject
  | dynamicGlobalProperty => DynamicGlobalPropertyObject
  | producerSchedule => UInt128
  | producerVotes => Address × Race
  | producer => Address × ProducerObject
  | processHardfork => U32

/-- The owner of an object, for the types that have one. -/
def owner : (type : ObjectType) → type.Value → Option (Address ⊕ U32)
  | globalProperty, _ | dynamicGlobalProperty, _ | producerSchedule, _ => none
  | producerVotes, (ownerName, _) => some (.inl ownerName)
  | producer, (owner, _) => some (.inl owner)
  | processHardfork, _ => none

/-- What no two objects of a type may share besides the id: the owner or the hardfork time. -/
def uniqueKey : (type : ObjectType) → type.Value → Option (Address ⊕ U32)
  | globalProperty, _ | dynamicGlobalProperty, _ | producerSchedule, _ => none
  | producerVotes, (ownerName, _) => some (.inl ownerName)
  | producer, (owner, _) => some (.inl owner)
  | processHardfork, hardforkTimepoint => some (.inr hardforkTimepoint)

/-- Undoing the latest session gives back the index that it started from, after every run of calls
that change no owner and no hardfork time. -/
theorem undo_restores {type : ObjectType} {ix now base : GenericIndex type.Value}
    {ops : List (GenericIndex.Op type.Value)} {bases : List (GenericIndex type.Value)}
    (sound : ix.Sound type.uniqueKey)
    (along : Runs.Along (GenericIndex.step type.uniqueKey)
      (GenericIndex.KeepsKey type.uniqueKey) ops (ix, []))
    (ran : Runs.run (GenericIndex.step type.uniqueKey) ops (ix, []) = some (now, base :: bases)) :
    now.undo type.uniqueKey = some base := by
  -- At the start there is no session to be told from anything.
  have start : GenericIndex.Nested type.uniqueKey ix [] := sound
  have nested := Runs.keeps (P := fun s => GenericIndex.Nested type.uniqueKey s.1 s.2)
    GenericIndex.Nested.step start along ran
  obtain ⟨⟨head, tracks⟩, -⟩ := nested
  exact tracks.undo_eq

/-- Producers that are changed twice, removed, created again under the same owner and undone. -/
def recreated : List (GenericIndex.Op producer.Value) :=
  [.create (1, {}), .create (2, {}), .start, .modify 0 (1, { powWorker := 5 }),
    .modify 0 (1, { powWorker := 6 }), .start, .remove 1, .undo, .remove 0, .create (1, {}),
    .create (3, {}), .remove 3]

/-- A run that creates a key again. -/
theorem undo_restores_recreated :
    ∃ now base, Runs.run (GenericIndex.step producer.uniqueKey) recreated (⟨∅, 0, 0, []⟩, []) =
      some (now, [base]) ∧ now.undo producer.uniqueKey = some base := by
  have shape : (Runs.run (GenericIndex.step producer.uniqueKey) recreated
      (⟨∅, 0, 0, []⟩, [])).map (fun s => s.2.length) = some 1 := by decide +kernel
  obtain ⟨⟨now, bases⟩, ran, one⟩ := Option.map_eq_some_iff.mp shape
  obtain ⟨base, rfl⟩ := List.length_eq_one_iff.mp one
  have sound : GenericIndex.Sound producer.uniqueKey ⟨∅, 0, 0, []⟩ :=
    ⟨by simp, by simp [GenericIndex.Unique]⟩
  exact ⟨now, base, ran, undo_restores sound (by decide +kernel) ran⟩

/-- Two hardforks of which the second moves to the time that the first has left. -/
def movedTimes : List (GenericIndex.Op processHardfork.Value) :=
  [.create 1#32, .create 2#32, .start, .modify 0 3#32, .modify 1 1#32]

/-- The first hardfork cannot get its time back while the second still has it. -/
theorem undo_refuses_movedTimes :
    Runs.Along (GenericIndex.step processHardfork.uniqueKey)
        (GenericIndex.KeepsKey processHardfork.owner) movedTimes (⟨∅, 0, 0, []⟩, []) ∧
      (Runs.run (GenericIndex.step processHardfork.uniqueKey) movedTimes (⟨∅, 0, 0, []⟩, [])).map
          (fun s => (s.2.length, (s.1.undo processHardfork.uniqueKey).isSome)) =
        some (1, false) := by
  decide +kernel

end ObjectType

end Etiam
