import Etiam.Library.Table

/-! An index of objects under unique keys, with sessions whose changes can be undone. -/

namespace Etiam

/-- An object with the id it was created under. -/
@[ext] structure Stored (V : Type) where
  id : ℕ
  value : V
  deriving DecidableEq

/-- What a session has to put back: changed, removed and new objects, by id. -/
structure UndoState (K V : Type) where
  oldValues : Std.ExtTreeMap ℕ (K × V)
  removedValues : Std.ExtTreeMap ℕ (K × V)
  newIds : Std.ExtTreeSet ℕ
  oldNextId : ℕ
  revision : ℕ

/-- Objects by key, with the undo states of the open sessions, latest first. -/
structure Index (K V : Type) [Ord K] [Std.TransOrd K] where
  entries : Std.ExtTreeMap K (Stored V)
  nextId : ℕ
  revision : ℕ
  stack : List (UndoState K V)

namespace Index

variable {K V : Type} [Ord K] [Std.TransOrd K]

/-- An index without objects or sessions. -/
def empty : Index K V := ⟨∅, 0, 0, []⟩

/-- The object under a key. -/
def find (ix : Index K V) (key : K) : Option V := ix.entries[key]?.map (·.value)

/-- Change the undo state of the latest session, if one is open. -/
def note (ix : Index K V) (change : UndoState K V → UndoState K V) : Index K V :=
  match ix.stack with
  | [] => ix
  | head :: rest => { ix with stack := change head :: rest }

/-- Remember an object before it is changed for the first time in the session. -/
def onModify (key : K) (old : Stored V) (head : UndoState K V) : UndoState K V :=
  if old.id ∈ head.newIds then head
  else if old.id ∈ head.oldValues then head
  else { head with oldValues := head.oldValues.insert old.id (key, old.value) }

/-- Remember an object before it is removed, as it was when the session started. -/
def onRemove (key : K) (old : Stored V) (head : UndoState K V) : UndoState K V :=
  if old.id ∈ head.newIds then { head with newIds := head.newIds.erase old.id }
  else
    match head.oldValues[old.id]? with
    | some was =>
      { head with
        removedValues := head.removedValues.insertIfNew old.id was
        oldValues := head.oldValues.erase old.id }
    | none =>
      if old.id ∈ head.removedValues then head
      else { head with removedValues := head.removedValues.insert old.id (key, old.value) }

/-- Remember that an object is new. -/
def onCreate (id : ℕ) (head : UndoState K V) : UndoState K V :=
  { head with newIds := head.newIds.insert id }

/-- Create an object under the next id, unless its key is taken. -/
def emplace (ix : Index K V) (key : K) (value : V) : Option (Index K V) :=
  if key ∈ ix.entries then none
  else
    some ({ ix with
      entries := ix.entries.insert key ⟨ix.nextId, value⟩
      nextId := ix.nextId + 1 }.note (onCreate ix.nextId))

/-- Replace the object under a key. -/
def modify (ix : Index K V) (key : K) (value : V) : Index K V :=
  match ix.entries[key]? with
  | none => ix
  | some old =>
    { ix.note (onModify key old) with entries := ix.entries.insert key { old with value } }

/-- Lose the object under a key because the change of it failed half way. -/
def lose (ix : Index K V) (key : K) : Index K V :=
  match ix.entries[key]? with
  | none => ix
  | some old => { ix.note (onModify key old) with entries := ix.entries.erase key }

/-- Remove the object under a key. -/
def remove (ix : Index K V) (key : K) : Index K V :=
  match ix.entries[key]? with
  | none => ix
  | some old => { ix.note (onRemove key old) with entries := ix.entries.erase key }

/-- Open a session. -/
def startUndoSession (ix : Index K V) : Index K V :=
  { ix with
    revision := ix.revision + 1
    stack := ⟨∅, ∅, ∅, ix.nextId, ix.revision + 1⟩ :: ix.stack }

/-- Write objects back one by one, as long as each key is in the state that is expected of it. -/
def putBack (expected : ℕ → Option (Stored V) → Bool) (items : List (ℕ × K × V))
    (entries : Std.ExtTreeMap K (Stored V)) : Option (Std.ExtTreeMap K (Stored V)) :=
  items.foldlM (fun entries item =>
    if expected item.1 entries[item.2.1]? then some (entries.insert item.2.1 ⟨item.1, item.2.2⟩)
    else none) entries

/-- Erase the objects that a session created, all of which must still be there. -/
def eraseNew (newIds : Std.ExtTreeSet ℕ) (entries : Std.ExtTreeMap K (Stored V)) :
    Option (Std.ExtTreeMap K (Stored V)) :=
  if newIds.toList.all fun id => entries.toList.any fun entry => entry.2.id == id then
    some (entries.filter fun _ stored => !newIds.contains stored.id)
  else none

/-- Undo the latest session; there is no outcome where an object to restore is not found. -/
def undo (ix : Index K V) : Option (Index K V) :=
  match ix.stack with
  | [] => some ix
  | head :: rest => do
    let entries ← putBack (fun id found => found.any (·.id == id)) head.oldValues.toList ix.entries
    let entries ← eraseNew head.newIds entries
    let entries ← putBack (fun _ found => found.isNone) head.removedValues.toList entries
    return { entries, nextId := head.oldNextId, revision := ix.revision - 1, stack := rest }

/-- Forget how to undo the sessions up to a revision. -/
def commit (ix : Index K V) (revision : ℕ) : Index K V :=
  { ix with stack := ix.stack.rdropWhile (·.revision ≤ revision) }

@[simp] theorem entries_note (ix : Index K V) (change : UndoState K V → UndoState K V) :
    (ix.note change).entries = ix.entries := by
  unfold note
  split <;> rfl

@[simp] theorem nextId_note (ix : Index K V) (change : UndoState K V → UndoState K V) :
    (ix.note change).nextId = ix.nextId := by
  unfold note
  split <;> rfl

@[simp] theorem find_startUndoSession (ix : Index K V) (key : K) :
    ix.startUndoSession.find key = ix.find key := rfl

@[simp] theorem find_commit (ix : Index K V) (revision : ℕ) (key : K) :
    (ix.commit revision).find key = ix.find key := rfl

theorem emplace_eq_some_iff (ix : Index K V) (key : K) (value : V) :
    (∃ made, ix.emplace key value = some made) ↔ ix.find key = none := by
  unfold emplace find
  by_cases taken : key ∈ ix.entries
  · simp [taken]
  · simp [taken]

variable [Std.LawfulEqOrd K] [DecidableEq K]

theorem find_emplace {ix made : Index K V} {key : K} {value : V}
    (created : ix.emplace key value = some made) (other : K) :
    made.find other = if key = other then some value else ix.find other := by
  unfold emplace at created
  split at created
  · cases created
  · cases created
    simp only [find, entries_note, Std.ExtTreeMap.getElem?_insert, Std.compare_eq_iff_eq]
    split <;> rfl

theorem find_modify {ix : Index K V} {key : K} {old : V} (found : ix.find key = some old)
    (value : V) (other : K) :
    (ix.modify key value).find other = if key = other then some value else ix.find other := by
  unfold modify
  cases entry : ix.entries[key]? with
  | none => simp [find, entry] at found
  | some stored =>
    simp only [find, Std.ExtTreeMap.getElem?_insert, Std.compare_eq_iff_eq]
    split <;> rfl

theorem find_lose (ix : Index K V) (key other : K) :
    (ix.lose key).find other = if key = other then none else ix.find other := by
  unfold lose
  cases entry : ix.entries[key]? with
  | none =>
    by_cases same : key = other
    · subst same
      simp [find, entry]
    · rw [if_neg same]
  | some stored =>
    simp only [find, Std.ExtTreeMap.getElem?_erase, Std.compare_eq_iff_eq]
    split <;> rfl

theorem find_remove (ix : Index K V) (key other : K) :
    (ix.remove key).find other = if key = other then none else ix.find other := by
  unfold remove
  cases entry : ix.entries[key]? with
  | none =>
    by_cases same : key = other
    · subst same
      simp [find, entry]
    · rw [if_neg same]
  | some stored =>
    simp only [find, Std.ExtTreeMap.getElem?_erase, Std.compare_eq_iff_eq]
    split <;> rfl

end Index

/-- An index that holds one object from the start, with what each open session has to put back. -/
structure Cell (V : Type) where
  value : V
  revision : ℕ
  stack : List (ℕ × Option V)

namespace Cell

variable {V : Type}

/-- Replace the object, remembering it before the first change in the session. -/
def modify (cell : Cell V) (change : V → V) : Cell V :=
  { cell with
    value := change cell.value
    stack :=
      match cell.stack with
      | [] => []
      | (revision, saved) :: rest => (revision, saved.or (some cell.value)) :: rest }

/-- Open a session. -/
def startUndoSession (cell : Cell V) : Cell V :=
  { cell with
    revision := cell.revision + 1
    stack := (cell.revision + 1, none) :: cell.stack }

/-- Undo the latest session. -/
def undo (cell : Cell V) : Cell V :=
  match cell.stack with
  | [] => cell
  | (_, saved) :: rest =>
    { value := saved.getD cell.value, revision := cell.revision - 1, stack := rest }

/-- Forget how to undo the sessions up to a revision. -/
def commit (cell : Cell V) (revision : ℕ) : Cell V :=
  { cell with stack := cell.stack.rdropWhile (·.1 ≤ revision) }

@[simp] theorem value_modify (cell : Cell V) (change : V → V) :
    (cell.modify change).value = change cell.value := rfl

@[simp] theorem value_startUndoSession (cell : Cell V) :
    cell.startUndoSession.value = cell.value := rfl

@[simp] theorem value_commit (cell : Cell V) (revision : ℕ) :
    (cell.commit revision).value = cell.value := rfl

end Cell

namespace Index

variable {K V : Type} [Ord K] [Std.TransOrd K]

/-- No two objects have the same id, and no object has an id that is still to be given. -/
structure Sound (ix : Index K V) : Prop where
  below : ∀ (k : K) (s : Stored V), ix.entries[k]? = some s → s.id < ix.nextId
  unique : ∀ (k l : K) (s t : Stored V), ix.entries[k]? = some s →
    ix.entries[l]? = some t → s.id = t.id → k = l

namespace Sound

variable {ix : Index K V}

theorem sameIds {other : Index K V} (sound : Sound ix)
    (same : ∀ (k : K) (s : Stored V), other.entries[k]? = some s →
      ∃ t, ix.entries[k]? = some t ∧ t.id = s.id)
    (nextId : other.nextId = ix.nextId) : Sound other where
  below k s found := by
    obtain ⟨t, was, id⟩ := same k s found
    rw [nextId, ← id]
    exact sound.below k t was
  unique k l s t first second equal := by
    obtain ⟨s', wasFirst, idFirst⟩ := same k s first
    obtain ⟨t', wasSecond, idSecond⟩ := same l t second
    exact sound.unique k l s' t' wasFirst wasSecond (by rw [idFirst, idSecond, equal])

end Sound

variable [Std.LawfulEqOrd K] [DecidableEq K]

theorem getElem?_insert_of (entries : Std.ExtTreeMap K (Stored V)) (key k : K) (s : Stored V) :
    (entries.insert key s)[k]? = if key = k then some s else entries[k]? := by
  simp only [Std.ExtTreeMap.getElem?_insert, Std.compare_eq_iff_eq]

namespace Sound

variable {ix made : Index K V} {key : K} {value : V}

theorem modify (sound : Sound ix) (key : K) (value : V) : Sound (ix.modify key value) := by
  unfold Index.modify
  cases entry : ix.entries[key]? with
  | none => exact sound
  | some old =>
    refine sound.sameIds (fun k s found => ?_) (nextId_note _ _)
    dsimp only at found
    rw [getElem?_insert_of] at found
    split at found
    · next same =>
      cases found
      exact ⟨old, same ▸ entry, rfl⟩
    · exact ⟨s, found, rfl⟩

end Sound

end Index

end Etiam
