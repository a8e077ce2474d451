import Etiam.Library.Rlp
import Etiam.Library.Runs

/-! Access to the items of a list by index, with the position that is kept from access to access,
and iteration over the items. -/

namespace Etiam

open Rlp

/-- A view of bytes in memory, by a pointer that may be null and a number of bytes. -/
structure View where
  data : Option ℕ
  count : ℕ
  deriving DecidableEq

namespace View

variable (v : View)

/-- The view of nothing. -/
def null : View := ⟨none, 0⟩

/-- The bytes of a view. -/
def bytes (memory : Bytes) : Bytes :=
  match v.data with
  | none => []
  | some p => (memory.drop p).take v.count

/-- A part of a view, nothing if it is out of bounds. -/
def cropped (start count : ℕ) : View :=
  match v.data with
  | none => null
  | some p => if start + count ≤ v.count then ⟨some (p + start), count⟩ else null

/-- A view from a place on, nothing if that is out of bounds. -/
def croppedFrom (start : ℕ) : View :=
  match v.data with
  | none => null
  | some p => if start ≤ v.count then ⟨some (p + start), v.count - start⟩ else null

/-- Where the bytes after a view are. -/
def next : Option ℕ := v.data.map (· + v.count)

end View

/-- A node over bytes, with the item that was accessed last, its index and its end. -/
structure RlpRef where
  data : View
  lastIndex : ℕ := 2 ^ 64 - 1
  lastEnd : ℕ := 0
  lastItem : View := .null
  deriving DecidableEq

namespace RlpRef

variable (memory : Bytes) (r : RlpRef)

/-- There is no value. -/
def isNull : Bool := r.data.count = 0

/-- A node over a view that has all bytes of its item, or none. -/
def ofPart (v : View) : Option RlpRef :=
  match actualSize (v.bytes memory) with
  | none => none
  | some size => if v.count < size then none else some { data := v }

/-- A node over a view that has the bytes of its item and no others. -/
def ofWhole (v : View) : Option RlpRef :=
  if actualSize (v.bytes memory) = some v.count then some { data := v } else none

/-- The size of the item at the start of a view, which has all its bytes. -/
def sizeAsEncoded (v : View) : Option ℕ :=
  (ofPart memory v).bind fun r => actualSize (r.data.bytes memory)

/-- The view of the payload. -/
def payload : Option View :=
  let d := r.data.bytes memory
  match Rlp.length d with
  | none => none
  | some l => if r.data.count < l then none else some (r.data.cropped (payloadOffset d) l)

section Index

/-- Go back to the first item. -/
def rewind : Option RlpRef := do
  let p ← r.payload memory
  let size ← sizeAsEncoded memory p
  some { r with lastEnd := size, lastItem := p.cropped 0 size, lastIndex := 0 }

/-- Go on to the next item. -/
def advance : Option RlpRef := do
  let p ← r.payload memory
  let rest := p.croppedFrom r.lastEnd
  let size ← sizeAsEncoded memory rest
  let item := rest.cropped 0 size
  some { r with
    lastItem := item
    lastEnd := r.lastEnd + item.count
    lastIndex := r.lastIndex + 1 }

/-- Go on a number of times, unless there is no item. -/
def seek : ℕ → RlpRef → Option RlpRef
  | 0, r => some r
  | turns + 1, r =>
    if r.lastItem.count = 0 then some r else (r.advance memory).bind (seek turns)

/-- The item at an index, and the node with the position of that item. -/
def index (i : ℕ) : Option (RlpRef × RlpRef) := do
  let r ← if i < r.lastIndex then r.rewind memory else some r
  let r ← seek memory (i - r.lastIndex) r
  let item ← ofPart memory r.lastItem
  some (item, r)

end Index

section Iteration

/-- An iterator, with the item where it is and the number of bytes after that. -/
structure Iterator where
  currentItem : View
  remaining : ℕ

/-- The iterator at the first item. -/
def first : Option Iterator :=
  if isList (r.data.bytes memory) then do
    let p ← r.payload memory
    let size ← sizeAsEncoded memory p
    let item := p.cropped 0 size
    some ⟨item, p.count - item.count⟩
  else some ⟨r.data.croppedFrom r.data.count, 0⟩

/-- The iterator after the last item. -/
def last : Iterator := ⟨r.data.croppedFrom r.data.count, 0⟩

/-- Go on to the next item. -/
def Iterator.step (it : Iterator) : Option Iterator :=
  if it.remaining = 0 then some ⟨⟨it.currentItem.next, 0⟩, 0⟩
  else do
    let rest : View := ⟨it.currentItem.next, it.remaining⟩
    let size ← sizeAsEncoded memory rest
    let item := rest.cropped 0 size
    some ⟨item, it.remaining - min it.remaining item.count⟩

/-- The items from an iterator on to the end; the fuel bounds their number. -/
def itemsFrom : ℕ → Iterator → Option (List RlpRef)
  | 0, _ => none
  | fuel + 1, it =>
    if it.currentItem = r.last.currentItem then some []
    else do
      let item ← ofWhole memory it.currentItem
      let it ← it.step memory
      let others ← itemsFrom fuel it
      some (item :: others)

/-- The items that iteration over a node yields. -/
def iterated : Option (List RlpRef) :=
  (r.first memory).bind (r.itemsFrom memory (r.data.count + 1))

end Iteration

/-- An access to a node by an index, or a copy of a node. -/
inductive Access where
  | index (object i : ℕ)
  | copy (object : ℕ)

/-- What an access does to the nodes that there are. -/
def access : Access → List RlpRef → Option (List RlpRef)
  | .index object i, objects => do
    let r ← objects[object]?
    let (_, r) ← r.index memory i
    some (objects.set object r)
  | .copy object, objects => do
    let r ← objects[object]?
    some (objects ++ [r])

section Rows

variable {memory} {base j : ℕ} {cs : List Bytes}

/-- Items that are written one after another in memory. -/
structure Row (memory : Bytes) (base : ℕ) (cs : List Bytes) : Prop where
  row : (memory.drop base).take cs.flatten.length = cs.flatten
  items : ∀ c ∈ cs, IsItem c

/-- How many bytes there are before an item of a row. -/
def offset (cs : List Bytes) (j : ℕ) : ℕ := (cs.take j).flatten.length

/-- How many bytes an item of a row has, none after the last. -/
def size (cs : List Bytes) (j : ℕ) : ℕ := (cs[j]?.getD []).length

/-- The view of an item of a row, an empty one after the last. -/
def place (base : ℕ) (cs : List Bytes) (j : ℕ) : View := ⟨some (base + offset cs j), size cs j⟩

/-- The view of all items of a row from one on. -/
def rest (base : ℕ) (cs : List Bytes) (j : ℕ) : View :=
  ⟨some (base + offset cs j), cs.flatten.length - offset cs j⟩

theorem offset_succ (cs : List Bytes) (j : ℕ) : offset cs (j + 1) = offset cs j + size cs j := by
  -- The next item is the last of those up to it.
  unfold offset size
  rw [List.take_add_one, List.flatten_append, List.length_append]
  cases cs[j]? <;> simp

theorem offset_of_le (ended : cs.length ≤ j) : offset cs j = cs.flatten.length := by
  rw [offset, List.take_of_length_le ended]

theorem offset_le (cs : List Bytes) (j : ℕ) : offset cs j ≤ cs.flatten.length := by
  -- The items up to one are followed by the others.
  have split : (cs.take j).flatten ++ (cs.drop j).flatten = cs.flatten := by
    rw [← List.flatten_append, List.take_append_drop]
  rw [offset, ← split, List.length_append]
  omega

theorem cropped_rest (base : ℕ) (cs : List Bytes) (j : ℕ) :
    (rest base cs j).cropped 0 (size cs j) = place base cs j := by
  have next := offset_succ cs j
  have fits := offset_le cs (j + 1)
  change (if 0 + size cs j ≤ cs.flatten.length - offset cs j then _ else _) = _
  rw [if_pos (by omega)]
  rfl

theorem croppedFrom_rest (base : ℕ) (cs : List Bytes) (j : ℕ) :
    (rest base cs 0).croppedFrom (offset cs j) = rest base cs j := by
  have fits := offset_le cs j
  have start : offset cs 0 = 0 := rfl
  change (if offset cs j ≤ cs.flatten.length - offset cs 0 then _ else _) = _
  rw [if_pos (by omega), start]
  rfl

variable (row : Row memory base cs)

include row

theorem size_eq_zero : size cs j = 0 ↔ cs.length ≤ j := by
  -- No item is empty.
  unfold size
  constructor
  · intro none
    by_contra inside
    have inside := not_le.mp inside
    rw [List.getElem?_eq_getElem inside] at none
    exact (row.items _ (List.getElem_mem inside)).ne_nil (List.eq_nil_of_length_eq_zero none)
  · intro ended
    rw [List.getElem?_eq_none ended]
    rfl

theorem bytes_rest (j : ℕ) : (rest base cs j).bytes memory = (cs.drop j).flatten := by
  have split : cs.flatten = (cs.take j).flatten ++ (cs.drop j).flatten := by
    rw [← List.flatten_append, List.take_append_drop]
  calc (rest base cs j).bytes memory
      = ((memory.drop base).take cs.flatten.length).drop (offset cs j) := by
        rw [List.drop_take, List.drop_drop]
        rfl
    _ = (cs.drop j).flatten := by
        rw [row.row]
        nth_rw 1 [split]
        exact List.drop_left

theorem sizeAsEncoded_rest (j : ℕ) : sizeAsEncoded memory (rest base cs j) = some (size cs j) := by
  have next := offset_succ cs j
  have fits := offset_le cs (j + 1)
  have sized : actualSize ((rest base cs j).bytes memory) = some (size cs j) := by
    rw [bytes_rest row]
    by_cases inside : j < cs.length
    · have written := row.items _ (List.getElem_mem inside)
      rw [List.drop_eq_getElem_cons inside, List.flatten_cons, actualSize_of_isItem written, size,
        List.getElem?_eq_getElem inside]
      rfl
    · rw [List.drop_of_length_le (not_lt.mp inside), (size_eq_zero row).mpr (not_lt.mp inside)]
      rfl
  have enough : ¬ (rest base cs j).count < size cs j := by
    change ¬ cs.flatten.length - offset cs j < size cs j
    omega
  simp only [sizeAsEncoded, ofPart, sized, if_neg enough, Option.bind_some]

theorem bytes_place (j : ℕ) : (place base cs j).bytes memory = cs[j]?.getD [] := by
  have next := offset_succ cs j
  have fits := offset_le cs (j + 1)
  calc (place base cs j).bytes memory
      = ((rest base cs j).bytes memory).take (size cs j) := by
        change List.take _ _ = (List.take _ _).take _
        rw [List.take_take, Nat.min_eq_left]
        · rfl
        · change size cs j ≤ cs.flatten.length - offset cs j
          omega
    _ = cs[j]?.getD [] := by
        rw [bytes_rest row, size]
        by_cases inside : j < cs.length
        · rw [List.drop_eq_getElem_cons inside, List.flatten_cons, List.getElem?_eq_getElem inside]
          exact List.take_left
        · rw [List.drop_of_length_le (not_lt.mp inside), List.getElem?_eq_none (not_lt.mp inside)]
          rfl

theorem actualSize_place (j : ℕ) :
    actualSize ((place base cs j).bytes memory) = some (size cs j) := by
  rw [bytes_place row, size]
  cases found : cs[j]? with
  | none => rfl
  | some c =>
    have sized := actualSize_of_isItem (row.items c (List.mem_of_getElem? found)) []
    rwa [List.append_nil] at sized

theorem ofPart_place (j : ℕ) :
    ofPart memory (place base cs j) = some { data := place base cs j } := by
  rw [ofPart, actualSize_place row]
  exact if_neg (lt_irrefl _)

theorem ofWhole_place (j : ℕ) :
    ofWhole memory (place base cs j) = some { data := place base cs j } := by
  rw [ofWhole, actualSize_place row]
  exact if_pos rfl

end Rows

section Lists

variable {memory r} {base : ℕ} {cs : List Bytes}

/-- A node over a list whose items are a row. -/
structure Lists (memory : Bytes) (base : ℕ) (cs : List Bytes) (r : RlpRef) : Prop where
  row : Row memory base cs
  payload : r.payload memory = some (rest base cs 0)
  ended : r.data.croppedFrom r.data.count = place base cs cs.length
  list : isList (r.data.bytes memory) = true
  /-- There are fewer items than the index that stands for no position. -/
  short : cs.length < 2 ^ 64 - 1

/-- The node is at an item of the list, or at the end. -/
structure At (base : ℕ) (cs : List Bytes) (k : ℕ) (r : RlpRef) : Prop where
  bound : k ≤ cs.length
  lastIndex : r.lastIndex = k
  lastEnd : r.lastEnd = offset cs (k + 1)
  lastItem : r.lastItem = place base cs k

section

variable (lists : r.Lists memory base cs)

include lists

theorem Lists.of_data {t : RlpRef} (same : t.data = r.data) : t.Lists memory base cs := by
  obtain ⟨row, payload, ended, list, short⟩ := lists
  unfold RlpRef.payload at payload
  rw [← same] at payload ended list
  exact ⟨row, payload, ended, list, short⟩

theorem rewind_at : ∃ t, r.rewind memory = some t ∧ t.data = r.data ∧ At base cs 0 t := by
  refine ⟨{ r with lastEnd := size cs 0, lastItem := place base cs 0, lastIndex := 0 }, ?_, rfl,
    Nat.zero_le _, rfl, ?_, rfl⟩
  · simp only [rewind, lists.payload, sizeAsEncoded_rest lists.row, cropped_rest,
      Option.bind_eq_bind, Option.bind_some]
  · change size cs 0 = offset cs 1
    rw [offset_succ]
    exact (Nat.zero_add _).symm

theorem advance_at {k : ℕ} (there : At base cs k r) (inside : k < cs.length) :
    ∃ t, r.advance memory = some t ∧ t.data = r.data ∧ At base cs (k + 1) t := by
  refine ⟨{ r with
    lastItem := place base cs (k + 1)
    lastEnd := r.lastEnd + size cs (k + 1)
    lastIndex := r.lastIndex + 1 }, ?_, rfl, inside, ?_, ?_, rfl⟩
  · simp only [advance, lists.payload, there.lastEnd, croppedFrom_rest,
      sizeAsEncoded_rest lists.row, cropped_rest, Option.bind_eq_bind, Option.bind_some]
    rfl
  · exact congrArg (· + 1) there.lastIndex
  · change r.lastEnd + size cs (k + 1) = offset cs (k + 1 + 1)
    rw [there.lastEnd, ← offset_succ]

end

theorem seek_at {k : ℕ} (turns : ℕ) (lists : r.Lists memory base cs) (there : At base cs k r) :
    ∃ t, seek memory turns r = some t ∧ t.data = r.data ∧
      At base cs (min (k + turns) cs.length) t := by
  induction turns generalizing r k with
  | zero =>
    refine ⟨r, rfl, rfl, ?_⟩
    rwa [Nat.add_zero, Nat.min_eq_left there.bound]
  | succ turns ih =>
    rw [seek]
    have count : r.lastItem.count = size cs k := congrArg View.count there.lastItem
    by_cases inside : k < cs.length
    · obtain ⟨t, moved, same, reached⟩ := advance_at lists there inside
      have some : ¬ r.lastItem.count = 0 := by
        rw [count, size_eq_zero lists.row]
        omega
      obtain ⟨u, sought, later, arrived⟩ := ih (lists.of_data same) reached
      refine ⟨u, ?_, later.trans same, ?_⟩
      · rw [if_neg some, moved, Option.bind_some, sought]
      · rwa [Nat.add_assoc, Nat.add_comm 1] at arrived
    · -- At the end there are no more turns.
      have bound := there.bound
      refine ⟨r, if_pos ?_, rfl, ?_⟩
      · rw [count, size_eq_zero lists.row]
        omega
      · have ended : min (k + (turns + 1)) cs.length = k := by omega
        rwa [ended]

/-- The position that is kept: none yet, or that of an item or of the end. -/
def Sound (base : ℕ) (cs : List Bytes) (r : RlpRef) : Prop :=
  r.lastIndex = 2 ^ 64 - 1 ∧ r.lastItem.count = 0 ∨ ∃ k, At base cs k r

/-- An access by an index gives the item there, or a null node past the last, from any position. -/
theorem index_sound {i : ℕ} (lists : r.Lists memory base cs) (sound : r.Sound base cs) :
    ∃ item t, r.index memory i = some (item, t) ∧ t.data = r.data ∧ t.Sound base cs ∧
      (i < cs.length → item = { data := place base cs i }) ∧
      (cs.length ≤ i → item.isNull = true) := by
  -- It is enough to get to the index, or to the end, from an item before.
  have reach : ∀ k t, k ≤ i → t.data = r.data → At base cs k t →
      ∃ item u, (do
        let u ← seek memory (i - t.lastIndex) t
        let item ← ofPart memory u.lastItem
        some (item, u)) = some (item, u) ∧ u.data = r.data ∧ u.Sound base cs ∧
        (i < cs.length → item = { data := place base cs i }) ∧
        (cs.length ≤ i → item.isNull = true) := by
    intro k t before same there
    obtain ⟨u, sought, data, reached⟩ := seek_at (i - t.lastIndex) (lists.of_data same) there
    have index : k + (i - t.lastIndex) = i := by
      rw [there.lastIndex]
      omega
    rw [index] at reached
    refine ⟨{ data := place base cs (min i cs.length) }, u, ?_, data.trans same,
      Or.inr ⟨_, reached⟩, fun inside => ?_, fun past => ?_⟩
    · simp only [sought, reached.lastItem, ofPart_place lists.row, Option.bind_eq_bind,
        Option.bind_some]
    · rw [Nat.min_eq_left inside.le]
    · rw [Nat.min_eq_right past, isNull, decide_eq_true_eq]
      exact (size_eq_zero lists.row).mpr le_rfl
  unfold index
  by_cases before : i < r.lastIndex
  · obtain ⟨t, rewound, same, there⟩ := rewind_at lists
    rw [if_pos before, rewound]
    exact reach 0 t (Nat.zero_le i) same there
  rw [if_neg before]
  obtain ⟨none, empty⟩ | ⟨k, there⟩ := sound
  · -- Without a position the index is greater than any item's.
    have stays : ∀ turns, seek memory turns r = some r := by
      intro turns
      cases turns with
      | zero => rfl
      | succ turns => exact if_pos empty
    have nothing : r.lastItem.bytes memory = [] := by
      unfold View.bytes
      split
      · rfl
      · rw [empty, List.take_zero]
    have short := lists.short
    refine ⟨{ data := r.lastItem }, r, ?_, rfl, Or.inl ⟨none, empty⟩, ?_, fun _ => ?_⟩
    · simp only [stays, ofPart, nothing, Option.bind_eq_bind, Option.bind_some]
      rfl
    · intro inside
      omega
    · rw [isNull, decide_eq_true_eq]
      exact empty
  · refine reach k r ?_ rfl there
    rw [there.lastIndex] at before
    exact not_lt.mp before

section Iteration

/-- An iterator at an item of the list, or at the end. -/
def Iterator.At (base : ℕ) (cs : List Bytes) (j : ℕ) (it : Iterator) : Prop :=
  it.currentItem = place base cs j ∧ it.remaining = cs.flatten.length - offset cs (j + 1)

theorem first_at (lists : r.Lists memory base cs) :
    ∃ it, r.first memory = some it ∧ it.At base cs 0 := by
  refine ⟨⟨place base cs 0, cs.flatten.length - offset cs 0 - size cs 0⟩, ?_, rfl, ?_⟩
  · simp only [first, lists.list, if_true, lists.payload, sizeAsEncoded_rest lists.row,
      cropped_rest,
      Option.bind_eq_bind, Option.bind_some]
    rfl
  · have next := offset_succ cs 0
    change cs.flatten.length - offset cs 0 - size cs 0 = _
    omega

theorem step_at {j : ℕ} {it : Iterator} (row : Row memory base cs) (there : it.At base cs j) :
    ∃ next, it.step memory = some next ∧ next.At base cs (j + 1) := by
  obtain ⟨current, remaining⟩ := there
  have after := offset_succ cs j
  have later := offset_succ cs (j + 1)
  have fits := offset_le cs (j + 1 + 1)
  have pointer : it.currentItem.next = some (base + offset cs (j + 1)) := by
    rw [current, after, ← Nat.add_assoc]
    rfl
  unfold Iterator.step
  by_cases none : it.remaining = 0
  · -- With no bytes left the iterator is at the end.
    rw [if_pos none, pointer]
    have nothing : size cs (j + 1) = 0 := by omega
    refine ⟨_, rfl, ?_, ?_⟩
    · rw [place, nothing]
    · change 0 = _
      omega
  · rw [if_neg none]
    have view : (⟨it.currentItem.next, it.remaining⟩ : View) = rest base cs (j + 1) := by
      rw [pointer, remaining]
      rfl
    refine ⟨⟨place base cs (j + 1), it.remaining - min it.remaining (size cs (j + 1))⟩, ?_, rfl, ?_⟩
    · simp only [view, sizeAsEncoded_rest row, cropped_rest, Option.bind_eq_bind, Option.bind_some]
      rfl
    · change it.remaining - min it.remaining (size cs (j + 1)) = _
      omega

theorem itemsFrom_at {j fuel : ℕ} {it : Iterator} (lists : r.Lists memory base cs)
    (there : it.At base cs j) (bound : j ≤ cs.length) (enough : cs.length - j < fuel) :
    r.itemsFrom memory fuel it =
      some ((List.range' j (cs.length - j)).map fun k => { data := place base cs k }) := by
  induction fuel generalizing j it with
  | zero => omega
  | succ fuel ih =>
    have ended : r.last.currentItem = place base cs cs.length := lists.ended
    rw [itemsFrom, ended, there.1]
    by_cases inside : j < cs.length
    · have other : ¬ place base cs j = place base cs cs.length := by
        intro same
        have counts : size cs j = size cs cs.length := congrArg View.count same
        rw [(size_eq_zero lists.row).mpr le_rfl, size_eq_zero lists.row] at counts
        omega
      obtain ⟨next, stepped, arrived⟩ := step_at lists.row there
      have others := ih arrived inside (by omega)
      have count : cs.length - j = cs.length - (j + 1) + 1 := by omega
      rw [if_neg other, count, List.range'_succ, List.map_cons]
      simp only [ofWhole_place lists.row, stepped, others, Option.bind_eq_bind, Option.bind_some]
    · have last : j = cs.length := by omega
      rw [last, if_pos rfl, Nat.sub_self]
      rfl

theorem iterated_eq (lists : r.Lists memory base cs) (enough : cs.length ≤ r.data.count) :
    r.iterated memory =
      some ((List.range cs.length).map fun k => { data := place base cs k }) := by
  obtain ⟨it, started, there⟩ := first_at lists
  rw [iterated, started, Option.bind_some,
    itemsFrom_at lists there (Nat.zero_le _) (by omega), Nat.sub_zero, List.range_eq_range']

end Iteration

end Lists

section Accesses

variable {memory} {data : View} {cs : List Bytes}

/-- A view of a list that is well formed: it is one item and nothing else, and so are the items that
its payload is made of. -/
structure WellFormed (memory : Bytes) (data : View) (cs : List Bytes) : Prop where
  placed : ∃ p, data.data = some p ∧ p + data.count ≤ memory.length
  written : IsItem (data.bytes memory)
  list : isList (data.bytes memory) = true
  row : Rlp.payload (data.bytes memory) = some cs.flatten
  items : ∀ c ∈ cs, IsItem c

theorem WellFormed.lists (formed : WellFormed memory data cs) :
    ∃ base, Lists memory base cs { data := data } ∧ cs.length ≤ data.count := by
  obtain ⟨⟨p, pointer, inside⟩, written, list, row, items⟩ := formed
  have fits := length_payload_lt written row
  have few := length_le_flatten items
  -- The bytes are the length of the items, written before them.
  have spelled : data.bytes memory = pushCount 0xc0 cs.flatten.length ++ cs.flatten :=
    eq_appendList written list row
  have bytes : data.bytes memory = (memory.drop p).take data.count := by
    rw [View.bytes, pointer]
  have count : data.count = (pushCount 0xc0 cs.flatten.length).length + cs.flatten.length := by
    have lengths := congrArg List.length (bytes.symm.trans spelled)
    rw [List.length_take, List.length_drop, List.length_append] at lengths
    omega
  have read := length_pushCount (.inr rfl) fits (good_list cs.flatten.length cs.flatten)
  rw [← spelled] at read
  obtain ⟨length, offset⟩ := read
  refine ⟨p + (pushCount 0xc0 cs.flatten.length).length, ⟨⟨?_, items⟩, ?_, ?_, list, ?_⟩, by omega⟩
  · have dropped : ((memory.drop p).take data.count).drop
        (pushCount 0xc0 cs.flatten.length).length = cs.flatten := by
      rw [← bytes, spelled, List.drop_left]
    rwa [List.drop_take, List.drop_drop, count, Nat.add_sub_cancel_left] at dropped
  · simp only [RlpRef.payload, length, offset, View.cropped, pointer]
    rw [if_neg (by omega), if_pos (by omega)]
    rfl
  · rw [View.croppedFrom, pointer]
    simp only [le_refl, if_true, Nat.sub_self]
    rw [place, offset_of_le le_rfl, size, List.getElem?_eq_none le_rfl, count, Nat.add_assoc]
    rfl
  · unfold tooLarge at fits
    omega

/-- What accesses and copies keep: every node is over the same list, at one of its items. -/
theorem access_sound {base : ℕ} {a : Access} {objects others : List RlpRef}
    (lists : Lists memory base cs { data := data })
    (sound : ∀ r ∈ objects, r.data = data ∧ r.Sound base cs)
    (taken : access memory a objects = some others) :
    ∀ r ∈ others, r.data = data ∧ r.Sound base cs := by
  cases a with
  | index object i =>
    obtain ⟨r, found, rest⟩ := Option.bind_eq_some_iff.mp taken
    have held := sound r (List.mem_of_getElem? found)
    obtain ⟨item, t, accessed, same, stays, -⟩ :=
      index_sound (i := i) (lists.of_data (t := r) held.1) held.2
    rw [accessed] at rest
    obtain rfl := Option.some.inj rest
    intro u member
    obtain before | rfl := List.mem_or_eq_of_mem_set member
    · exact sound u before
    · exact ⟨same.trans held.1, stays⟩
  | copy object =>
    obtain ⟨r, found, rest⟩ := Option.bind_eq_some_iff.mp taken
    obtain rfl := Option.some.inj rest
    intro u member
    obtain before | same := List.mem_append.mp member
    · exact sound u before
    · rw [List.mem_singleton.mp same]
      exact sound r (List.mem_of_getElem? found)

/-- After any accesses to a node over a well-formed list and to copies of it, an access by an index
gives the item that iteration yields there, and a null node past the last. -/
theorem index_eq_iterated {accesses : List Access} {objects : List RlpRef}
    (formed : WellFormed memory data cs)
    (ran : Runs.run (access memory) accesses [{ data := data }] = some objects) :
    itemCount (data.bytes memory) = some cs.length ∧
    ∃ items, iterated memory { data := data } = some items ∧
      items.map (fun item => item.data.bytes memory) = cs ∧
      ∀ r ∈ objects, ∀ i, ∃ item t, r.index memory i = some (item, t) ∧
        (i < cs.length → items[i]? = some item) ∧ (cs.length ≤ i → item.isNull = true) := by
  obtain ⟨base, lists, enough⟩ := formed.lists
  have count : itemCount (data.bytes memory) = some cs.length :=
    (itemCount_eq_length formed.list (by rw [List.append_nil, formed.row]) formed.items).mpr rfl
  refine ⟨count, _, iterated_eq lists enough, ?_, ?_⟩
  · rw [List.map_map]
    refine List.ext_getElem? fun j => ?_
    rw [List.getElem?_map]
    by_cases inside : j < cs.length
    · rw [List.getElem?_range inside, List.getElem?_eq_getElem inside]
      simp [bytes_place lists.row, List.getElem?_eq_getElem inside]
    · rw [List.getElem?_eq_none (by simpa using inside), List.getElem?_eq_none (not_lt.mp inside)]
      rfl
  · have sound : ∀ r ∈ objects, r.data = data ∧ r.Sound base cs := by
      refine Runs.always (P := fun objects => ∀ r ∈ objects, r.data = data ∧ r.Sound base cs)
        (fun a before after held taken => access_sound lists held taken) ?_ ran
      simp [Sound, View.null]
    intro r member i
    have held := sound r member
    obtain ⟨item, t, accessed, -, -, found, past⟩ :=
      index_sound (i := i) (lists.of_data (t := r) held.1) held.2
    refine ⟨item, t, accessed, fun inside => ?_, past⟩
    rw [found inside, List.getElem?_map, List.getElem?_range inside]
    rfl

/-- A list of three numbers, between other bytes. -/
def sampleMemory : Bytes := [7, 0xc3, 1, 2, 3, 9]

theorem wellFormed_sample : WellFormed sampleMemory ⟨some 1, 4⟩ [[1], [2], [3]] where
  placed := ⟨1, rfl, by decide⟩
  written := isItem_of_isWhole (by decide) (by decide)
  list := by decide
  row := by decide
  items := by
    intro c member
    simp only [List.mem_cons, List.not_mem_nil, or_false] at member
    rcases member with rfl | rfl | rfl <;> exact isItem_of_isWhole (by decide) (by decide)

/-- After an access past the end, one before it and one to a copy, there is no fourth item in any of
the nodes. -/
theorem index_eq_iterated_sample : ∃ objects,
    Runs.run (access sampleMemory) [.index 0 5, .index 0 1, .copy 0, .index 1 2]
        [{ data := ⟨some 1, 4⟩ }] = some objects ∧ objects.length = 2 ∧
      ∀ r ∈ objects, ∃ item t, r.index sampleMemory 3 = some (item, t) ∧ item.isNull = true := by
  obtain ⟨objects, ran⟩ := Option.isSome_iff_exists.mp (show (Runs.run (access sampleMemory)
    [.index 0 5, .index 0 1, .copy 0, .index 1 2] [{ data := ⟨some 1, 4⟩ }]).isSome = true by
      decide +kernel)
  have both : (Runs.run (access sampleMemory) [.index 0 5, .index 0 1, .copy 0, .index 1 2]
      [{ data := ⟨some 1, 4⟩ }]).map List.length = some 2 := by decide +kernel
  rw [ran] at both
  obtain ⟨-, items, -, -, accesses⟩ := index_eq_iterated wellFormed_sample ran
  refine ⟨objects, ran, Option.some.inj both, fun r member => ?_⟩
  obtain ⟨item, t, accessed, -, past⟩ := accesses r member 3
  exact ⟨item, t, accessed, past (by decide)⟩

end Accesses

end RlpRef

end Etiam
