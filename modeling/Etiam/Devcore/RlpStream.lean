import Etiam.Library.Rlp

/-! Trees of recursive length-prefixed data: the stream that writes them, and reading them back. -/

namespace Etiam

open Rlp

/-- A byte string or a list of trees. -/
inductive RlpTree where
  | data (s : Bytes)
  | list (items : List RlpTree)

namespace RlpTree

@[elab_as_elim]
theorem induct {P : RlpTree → Prop} (data : ∀ s, P (.data s))
    (list : ∀ items, (∀ t ∈ items, P t) → P (.list items)) (t : RlpTree) : P t := by
  refine @RlpTree.rec P (fun items => ∀ t ∈ items, P t) data list ?_ ?_ t
  · intro t member
    cases member
  · intro first rest own others t member
    rcases List.mem_cons.mp member with same | later
    · exact same ▸ own
    · exact others t later

mutual

/-- The bytes of a tree. -/
def encode : RlpTree → Bytes
  | .data s => append s
  | .list items => appendList (encodeAll items)

/-- The bytes of trees in a row. -/
def encodeAll : List RlpTree → Bytes
  | [] => []
  | t :: ts => t.encode ++ encodeAll ts

end

/-- Whether the payload of a tree is one that the reader takes. -/
def Fits : RlpTree → Prop
  | .data s => s.length < tooLarge
  | .list items => (encodeAll items).length < tooLarge

theorem encodeAll_eq_flatten (ts : List RlpTree) : encodeAll ts = (ts.map encode).flatten := by
  induction ts with
  | nil => rfl
  | cons t ts ih => rw [encodeAll, ih, List.map_cons, List.flatten_cons]

theorem encodeAll_append (ts us : List RlpTree) :
    encodeAll (ts ++ us) = encodeAll ts ++ encodeAll us := by
  rw [encodeAll_eq_flatten, encodeAll_eq_flatten, encodeAll_eq_flatten, List.map_append,
    List.flatten_append]

theorem isItem_encode {t : RlpTree} (fits : t.Fits) : IsItem t.encode := by
  cases t with
  | data s => exact .data s fits
  | list items => exact .list _ fits

end RlpTree

/-- What the stream refuses. -/
inductive RlpException where
  | itemCountTooLarge
  | listStackNotEmpty
  deriving DecidableEq

/-- What is written so far, and for every open list, the innermost first, how many items it still
takes and where they start. -/
structure RlpStream where
  out : Bytes := []
  listStack : List (ℕ × ℕ) := []

namespace RlpStream

/-- Put the header of a list before its items, which are all that stands from a place on. -/
def closeList (out : Bytes) (p : ℕ) : Bytes :=
  out.take p ++ pushCount 0xc0 (out.length - p) ++ out.drop p

/-- Count items that were written, and close the lists that are complete. -/
def noteAppended : List (ℕ × ℕ) → ℕ → Bytes → Except RlpException RlpStream
  | [], _, out => .ok { out, listStack := [] }
  | (first, p) :: rest, itemCount, out =>
    if itemCount = 0 then .ok { out, listStack := (first, p) :: rest }
    else if first < itemCount then .error .itemCountTooLarge
    else if first - itemCount ≠ 0 then .ok { out, listStack := (first - itemCount, p) :: rest }
    -- A list that is complete is one item of the list around it.
    else noteAppended rest 1 (closeList out p)

/-- The number of bytes that a number needs. -/
def bytesRequired (value : ℕ) : ℕ := value.log2 / 8 + 1

/-- A call on the stream. -/
inductive Op where
  | append (s : Bytes) (compact : Bool)
  | appendInt (value : ℕ)
  | appendList (items : ℕ)
  | appendListBytes (rlp : Bytes)
  | appendRaw (rlp : Bytes) (itemCount : ℕ)

/-- The string that is written, without leading zeros where it is made compact. -/
def compacted (s : Bytes) (compact : Bool) : Bytes :=
  if compact then s.dropWhile (· == 0) else s

/-- Make a call on the stream. -/
def call (stream : RlpStream) : Op → Except RlpException RlpStream
  | .append s compact =>
    noteAppended stream.listStack 1 (stream.out ++ Rlp.append (compacted s compact))
  | .appendInt value =>
    noteAppended stream.listStack 1 (stream.out ++ Rlp.appendInt (bytesRequired value) value)
  | .appendList items =>
    if items = 0 then noteAppended stream.listStack 1 (stream.out ++ Rlp.appendList [])
    else .ok { stream with listStack := (items, stream.out.length) :: stream.listStack }
  | .appendListBytes rlp =>
    noteAppended stream.listStack 1 (stream.out ++ Rlp.appendList rlp)
  | .appendRaw rlp itemCount => noteAppended stream.listStack itemCount (stream.out ++ rlp)

/-- Make calls one after another. -/
def calls (stream : RlpStream) (ops : List Op) : Except RlpException RlpStream :=
  ops.foldlM call stream

/-- The bytes of a stream without open lists. -/
def output (stream : RlpStream) : Except RlpException Bytes :=
  if stream.listStack = [] then .ok stream.out else .error .listStackNotEmpty

/-- What a new stream has written after some calls. -/
def written (ops : List Op) : Except RlpException Bytes := do
  let stream ← ({} : RlpStream).calls ops
  stream.output

/-- Calls that write trees in a row, with every list followed by the calls that write its items. -/
inductive Builds : List Op → List RlpTree → Prop
  | nil : Builds [] []
  | append (s : Bytes) (compact : Bool) {rest : List Op} {ts : List RlpTree}
    (others : Builds rest ts) :
    Builds (.append s compact :: rest) (.data (compacted s compact) :: ts)
  | appendInt (value : ℕ) {rest : List Op} {ts : List RlpTree} (others : Builds rest ts) :
    Builds (.appendInt value :: rest) (.data (pushInt (bytesRequired value) value) :: ts)
  | appendList {inner rest : List Op} {items ts : List RlpTree} (inside : Builds inner items)
    (others : Builds rest ts) :
    Builds (.appendList items.length :: (inner ++ rest)) (.list items :: ts)
  | appendListBytes (items : List RlpTree) {rest : List Op} {ts : List RlpTree}
    (others : Builds rest ts) :
    Builds (.appendListBytes (RlpTree.encodeAll items) :: rest) (.list items :: ts)
  | appendRaw (items : List RlpTree) {rest : List Op} {ts : List RlpTree}
    (others : Builds rest ts) :
    Builds (.appendRaw (RlpTree.encodeAll items) items.length :: rest) (items ++ ts)

end RlpStream

namespace Rlp

/-- The items of a row that has at most so many bytes. -/
def rowItems : ℕ → Bytes → Option (List Bytes)
  | _, [] => some []
  | 0, _ => none
  | fuel + 1, d =>
    match chunk d with
    | none => none
    | some c => (rowItems fuel (d.drop c.length)).map (c :: ·)

/-- The items of a list. -/
def toList (d : Bytes) : Option (List Bytes) :=
  if isList d then (payload d).bind fun p => rowItems p.length p else none

/-- Read a tree that is nested at most so deep, refusing whatever is not written like one. -/
def decode : ℕ → Bytes → Option RlpTree
  | 0, _ => none
  | depth + 1, d =>
    if !isWhole d then none
    else if isData d then (payload d).map .data
    else (toList d).bind fun items => (items.mapM (decode depth)).map .list

section Rows

variable {d : Bytes} {cs : List Bytes}

theorem rowItems_flatten (items : ∀ c ∈ cs, IsItem c) {fuel : ℕ} (enough : cs.length ≤ fuel) :
    rowItems fuel cs.flatten = some cs := by
  induction cs generalizing fuel with
  | nil => cases fuel <;> rfl
  | cons c cs ih =>
    rw [List.length_cons] at enough
    obtain ⟨fuel, rfl⟩ := Nat.exists_eq_succ_of_ne_zero (by omega : fuel ≠ 0)
    have first : IsItem c := items c List.mem_cons_self
    have found := chunk_of_isItem first cs.flatten
    have later := ih (fun b member => items b (List.mem_cons_of_mem c member))
      (by omega : cs.length ≤ fuel)
    obtain ⟨n, tail, rfl⟩ := List.exists_cons_of_ne_nil first.ne_nil
    rw [List.flatten_cons, List.cons_append, rowItems, ← List.cons_append, found]
    · simp only [List.drop_left, later, Option.map_some]
    · simp

theorem rowItems_eq_some {fuel : ℕ} (taken : rowItems fuel d = some cs) :
    (∀ c ∈ cs, IsItem c) ∧ d = cs.flatten := by
  induction fuel generalizing d cs with
  | zero =>
    cases d with
    | nil =>
      cases taken
      exact ⟨fun c member => absurd member List.not_mem_nil, rfl⟩
    | cons n tail => cases taken
  | succ fuel ih =>
    cases d with
    | nil =>
      cases taken
      exact ⟨fun c member => absurd member List.not_mem_nil, rfl⟩
    | cons n tail =>
      rw [rowItems] at taken
      · split at taken
        · cases taken
        · next c found =>
          obtain ⟨rest, more, rfl⟩ := Option.map_eq_some_iff.mp taken
          obtain ⟨item, split⟩ := chunk_eq_some found (List.cons_ne_nil n tail)
          obtain ⟨items, later⟩ := ih more
          refine ⟨fun b member => ?_, ?_⟩
          · rcases List.mem_cons.mp member with same | other
            · exact same ▸ item
            · exact items b other
          · rw [List.flatten_cons, ← later]
            exact split
      · simp

end Rows

theorem length_appendList_gt (p : Bytes) : p.length < (appendList p).length := by
  have header : 0 < (pushCount 0xc0 p.length).length := by
    unfold pushCount
    split <;> simp
  rw [appendList, List.length_append]
  omega

theorem length_append_ge (s : Bytes) : s.length ≤ (append s).length := by
  unfold append
  split
  · exact Nat.le_refl _
  · rw [List.length_append]
    omega

variable {t : RlpTree}

theorem fits_of_length (few : t.encode.length < tooLarge) : t.Fits := by
  cases t with
  | data s => exact Nat.lt_of_le_of_lt (length_append_ge s) few
  | list items => exact Nat.lt_trans (length_appendList_gt _) few

theorem length_encode_le {items : List RlpTree} (member : t ∈ items) :
    t.encode.length ≤ (RlpTree.encodeAll items).length := by
  rw [RlpTree.encodeAll_eq_flatten]
  exact (List.sublist_flatten_of_mem (List.mem_map_of_mem member)).length_le

theorem mapM_encode {read : Bytes → Option RlpTree} {ts : List RlpTree}
    (each : ∀ t ∈ ts, read t.encode = some t) : (ts.map RlpTree.encode).mapM read = some ts := by
  induction ts with
  | nil => rfl
  | cons t ts ih =>
    rw [List.map_cons, List.mapM_cons, each t List.mem_cons_self,
      ih fun u member => each u (List.mem_cons_of_mem t member)]
    rfl

theorem eq_map_encode {read : Bytes → Option RlpTree} {cs : List Bytes} {ts : List RlpTree}
    (each : ∀ c t, read c = some t → c = t.encode) (all : cs.mapM read = some ts) :
    cs = ts.map RlpTree.encode := by
  induction cs generalizing ts with
  | nil =>
    cases all
    rfl
  | cons c cs ih =>
    rw [List.mapM_cons] at all
    obtain ⟨t, first, all⟩ := Option.bind_eq_some_iff.mp all
    obtain ⟨us, rest, all⟩ := Option.bind_eq_some_iff.mp all
    cases all
    rw [List.map_cons, ← each c t first, ← ih rest]

theorem decode_encode (t : RlpTree) (fits : t.Fits) {depth : ℕ} (enough : t.encode.length ≤ depth) :
    decode depth t.encode = some t := by
  induction t using RlpTree.induct generalizing depth with
  | data s =>
    have item := RlpTree.isItem_encode fits
    have present := List.length_pos_of_ne_nil item.ne_nil
    obtain ⟨depth, rfl⟩ := Nat.exists_eq_succ_of_ne_zero (by omega : depth ≠ 0)
    rw [RlpTree.encode] at item ⊢
    rw [decode, isWhole_of_isItem item, isData_append fits, payload_append fits]
    rfl
  | list items ih =>
    have item := RlpTree.isItem_encode fits
    have long := length_appendList_gt (RlpTree.encodeAll items)
    rw [RlpTree.encode] at item enough ⊢
    obtain ⟨depth, rfl⟩ := Nat.exists_eq_succ_of_ne_zero (by omega : depth ≠ 0)
    have inner : ∀ u ∈ items, u.Fits := fun u member =>
      fits_of_length (Nat.lt_of_le_of_lt (length_encode_le member) fits)
    have split : rowItems (RlpTree.encodeAll items).length (RlpTree.encodeAll items) =
        some (items.map RlpTree.encode) := by
      have row : ∀ c ∈ items.map RlpTree.encode, IsItem c := by
        intro c member
        obtain ⟨u, inside, rfl⟩ := List.mem_map.mp member
        exact RlpTree.isItem_encode (inner u inside)
      rw [RlpTree.encodeAll_eq_flatten]
      exact rowItems_flatten row (length_le_flatten row)
    have each : (items.map RlpTree.encode).mapM (decode depth) = some items := by
      refine mapM_encode fun u member => ih u member (inner u member) ?_
      have short := length_encode_le member
      omega
    rw [decode, isWhole_of_isItem item, isData_appendList fits, toList, isList_appendList fits,
      payload_appendList fits]
    simp only [Bool.not_true, Bool.false_eq_true, if_false, if_true, Option.bind_some, split, each,
      Option.map_some]

theorem eq_encode_of_decode {depth : ℕ} {d : Bytes} (read : decode depth d = some t) :
    t.Fits ∧ d = t.encode := by
  induction depth generalizing d t with
  | zero => cases read
  | succ depth ih =>
    rw [decode] at read
    split at read
    · cases read
    · next whole =>
      have present : d ≠ [] := by
        rintro rfl
        cases read
      have item : IsItem d := isItem_of_isWhole (by simpa using whole) present
      cases item with
      | data s fits =>
        rw [isData_append fits, if_pos rfl, payload_append fits] at read
        cases read
        exact ⟨fits, rfl⟩
      | list p fits =>
        rw [isData_appendList fits, if_neg (by simp), toList, isList_appendList fits, if_pos rfl,
          payload_appendList fits, Option.bind_some] at read
        obtain ⟨cs, row, read⟩ := Option.bind_eq_some_iff.mp read
        obtain ⟨items, each, rfl⟩ := Option.map_eq_some_iff.mp read
        obtain ⟨-, rfl⟩ := rowItems_eq_some row
        have same := eq_map_encode (fun c u found => (ih found).2) each
        rw [same, ← RlpTree.encodeAll_eq_flatten] at fits ⊢
        exact ⟨fits, rfl⟩

end Rlp

namespace RlpStream

/-- The innermost open list takes so many items. -/
def Room (stack : List (ℕ × ℕ)) (n : ℕ) : Prop :=
  ∀ first p rest, stack = (first, p) :: rest → n ≤ first

theorem noteAppended_zero (stack : List (ℕ × ℕ)) (out : Bytes) :
    noteAppended stack 0 out = .ok { out, listStack := stack } := by
  cases stack with
  | nil => rfl
  | cons open_ rest => rw [noteAppended, if_pos rfl]

variable {n : ℕ} {out : Bytes} {ts : List RlpTree}

theorem noteAppended_close {p : ℕ} {rest : List (ℕ × ℕ)} (some_item : n ≠ 0) :
    noteAppended ((n, p) :: rest) n out = noteAppended rest 1 (closeList out p) := by
  rw [noteAppended, if_neg some_item, if_neg (Nat.lt_irrefl n), if_neg (by simp)]

theorem noteAppended_open {wanted p : ℕ} {rest : List (ℕ × ℕ)}
    (more : n < wanted) : noteAppended ((wanted, p) :: rest) n out =
      .ok { out, listStack := (wanted - n, p) :: rest } := by
  by_cases none_yet : n = 0
  · subst none_yet
    rw [noteAppended_zero, Nat.sub_zero]
  · rw [noteAppended, if_neg none_yet, if_neg (by omega), if_pos (by omega)]

/-- Counting items before further calls is counting them with what the further calls write. -/
theorem noteAppended_calls {stack : List (ℕ × ℕ)} {rest : List Op}
    (room : Room stack (n + ts.length))
    (further : ∀ stream : RlpStream, Room stream.listStack ts.length → stream.calls rest =
      noteAppended stream.listStack ts.length (stream.out ++ RlpTree.encodeAll ts)) :
    (noteAppended stack n out >>= fun stream => stream.calls rest) =
      noteAppended stack (n + ts.length) (out ++ RlpTree.encodeAll ts) := by
  cases ts with
  | nil =>
    -- Nothing is written any more, wherever the count has led.
    have idle : (fun stream : RlpStream => stream.calls rest) = fun stream => .ok stream := by
      funext stream
      rw [further stream fun _ _ _ _ => Nat.zero_le _, List.length_nil, RlpTree.encodeAll,
        List.append_nil, noteAppended_zero]
    rw [idle, List.length_nil, Nat.add_zero, RlpTree.encodeAll, List.append_nil]
    cases noteAppended stack n out <;> rfl
  | cons t ts =>
    rw [List.length_cons] at room ⊢
    cases stack with
    | nil =>
      have rest_ := further { out, listStack := [] } fun _ _ _ absurd => by cases absurd
      exact rest_
    | cons open_ outer =>
      -- The list takes more, so that it is not closed in between.
      obtain ⟨wanted, p⟩ := open_
      have enough := room wanted p outer rfl
      have rest_ := further { out, listStack := (wanted - n, p) :: outer } (by
        intro first q others same
        cases same
        rw [List.length_cons]
        omega)
      rw [noteAppended_open (by omega)]
      change RlpStream.calls { out, listStack := (wanted - n, p) :: outer } rest = _
      have one : ¬ ts.length + 1 = 0 := by omega
      have some_ : ¬ n + (ts.length + 1) = 0 := by omega
      have fits : ¬ wanted - n < ts.length + 1 := by omega
      have together : ¬ wanted < n + (ts.length + 1) := by omega
      rw [rest_, List.length_cons, noteAppended, noteAppended, if_neg one, if_neg some_,
        if_neg fits, if_neg together, Nat.sub_sub]

theorem closeList_append (out items : Bytes) :
    closeList (out ++ items) out.length = out ++ Rlp.appendList items := by
  rw [closeList, List.take_left, List.drop_left, List.length_append, Nat.add_sub_cancel_left,
    appendList, List.append_assoc]

theorem lt_pow_bytesRequired (value : ℕ) : value < 256 ^ bytesRequired value := by
  have bits : value < 2 ^ (value.log2 + 1) := Nat.lt_log2_self
  have wide : 2 ^ (value.log2 + 1) ≤ 2 ^ (8 * bytesRequired value) :=
    Nat.pow_le_pow_right (by decide) (by unfold bytesRequired; omega)
  rw [show (256 : ℕ) = 2 ^ 8 from rfl, ← Nat.pow_mul]
  exact Nat.lt_of_lt_of_le bits wide

theorem calls_item {op : Op} {rest : List Op} {us : List RlpTree} {stream : RlpStream}
    (called : stream.call op =
      noteAppended stream.listStack us.length (stream.out ++ RlpTree.encodeAll us))
    (room : Room stream.listStack (us ++ ts).length)
    (further : ∀ stream : RlpStream, Room stream.listStack ts.length → stream.calls rest =
      noteAppended stream.listStack ts.length (stream.out ++ RlpTree.encodeAll ts)) :
    stream.calls (op :: rest) = noteAppended stream.listStack (us ++ ts).length
      (stream.out ++ RlpTree.encodeAll (us ++ ts)) := by
  rw [List.length_append] at room ⊢
  rw [RlpTree.encodeAll_append, ← List.append_assoc, ← noteAppended_calls room further, ← called]
  rfl

theorem encodeAll_singleton (t : RlpTree) : RlpTree.encodeAll [t] = t.encode := by
  rw [RlpTree.encodeAll, RlpTree.encodeAll, List.append_nil]

theorem calls_eq {ops : List Op} (builds : Builds ops ts) {stream : RlpStream}
    (room : Room stream.listStack ts.length) : stream.calls ops =
      noteAppended stream.listStack ts.length (stream.out ++ RlpTree.encodeAll ts) := by
  -- Every call but the one that opens a list writes whole items and counts them.
  induction builds generalizing stream with
  | nil =>
    rw [List.length_nil, RlpTree.encodeAll, List.append_nil, noteAppended_zero]
    rfl
  | append s compact others ih =>
    refine @calls_item _ _ _ [.data (compacted s compact)] _ ?_ room fun _ => ih
    rw [encodeAll_singleton, RlpTree.encode]
    rfl
  | appendInt value others ih =>
    refine @calls_item _ _ _ [.data (pushInt (bytesRequired value) value)] _ ?_ room fun _ => ih
    rw [encodeAll_singleton, RlpTree.encode, ← appendInt_eq (lt_pow_bytesRequired value)]
    rfl
  | appendListBytes items others ih =>
    refine @calls_item _ _ _ [.list items] _ ?_ room fun _ => ih
    rw [encodeAll_singleton, RlpTree.encode]
    rfl
  | appendRaw items others ih => exact calls_item rfl room fun _ => ih
  | @appendList inner rest items ts inside others ihInside ih =>
    have opens : stream.calls (.appendList items.length :: inner) =
        noteAppended stream.listStack 1 (stream.out ++
          Rlp.appendList (RlpTree.encodeAll items)) := by
      cases items with
      | nil =>
        change (noteAppended stream.listStack 1 (stream.out ++ Rlp.appendList []) >>=
          fun stream => stream.calls inner) = _
        have alone : Room stream.listStack (1 + ([] : List RlpTree).length) :=
          fun first p outer same =>
          Nat.le_trans (by simp) (room first p outer same)
        rw [noteAppended_calls alone fun _ => ihInside, RlpTree.encodeAll, List.append_nil]
        rfl
      | cons t items =>
        change RlpStream.calls { stream with
          listStack := ((t :: items).length, stream.out.length) :: stream.listStack } inner = _
        rw [ihInside, noteAppended_close (by simp), closeList_append]
        intro first p rest same
        cases same
        exact Nat.le_refl _
    have both : stream.calls (.appendList items.length :: (inner ++ rest)) =
        stream.calls (.appendList items.length :: inner) >>= fun stream => stream.calls rest := by
      rw [← List.cons_append, calls, List.foldlM_append]
      rfl
    rw [List.length_cons, Nat.add_comm] at room ⊢
    rw [both, opens, noteAppended_calls room fun _ => ih, RlpTree.encodeAll, RlpTree.encode,
      List.append_assoc]

theorem written_eq {ops : List Op} {t : RlpTree} (builds : Builds ops [t]) :
    written ops = .ok t.encode := by
  have room : Room ({} : RlpStream).listStack [t].length := fun _ _ _ absurd => by cases absurd
  rw [written, calls_eq builds room, encodeAll_singleton]
  rfl

theorem exists_builds (ts : List RlpTree) : ∃ ops, Builds ops ts := by
  induction ts with
  | nil => exact ⟨[], .nil⟩
  | cons t ts ih =>
    obtain ⟨rest, others⟩ := ih
    cases t with
    | data s => exact ⟨_, .append s false others⟩
    | list items => exact ⟨_, .appendListBytes items others⟩

/-- What the stream writes for a tree is read back as that tree, and whatever is read as a tree is
what the stream writes for it, however the tree is written. -/
theorem stream_writes_what_is_read (t : RlpTree) :
    (∀ ops, Builds ops [t] → t.Fits → ∃ d, written ops = .ok d ∧
      ∀ depth, d.length ≤ depth → decode depth d = some t) ∧
    ∀ depth d, decode depth d = some t → t.Fits ∧ (∃ ops, Builds ops [t]) ∧
      ∀ ops, Builds ops [t] → written ops = .ok d := by
  constructor
  · intro ops builds fits
    exact ⟨t.encode, written_eq builds, fun depth enough => decode_encode t fits enough⟩
  · intro depth d read
    obtain ⟨fits, rfl⟩ := eq_encode_of_decode read
    exact ⟨fits, exists_builds [t], fun ops builds => written_eq builds⟩

/-- A list in a list is read back, with its innermost item written beforehand. -/
theorem stream_writes_what_is_read_nested :
    ∃ d, written [.appendList 2, .append [1] false, .appendList 1, .appendRaw [0x80] 1] = .ok d ∧
      ∀ depth, d.length ≤ depth →
        decode depth d = some (.list [.data [1], .list [.data []]]) := by
  have empty : RlpTree.encodeAll [.data []] = [0x80] := by decide
  have innermost : Builds [.appendRaw [0x80] 1] [.data []] := by
    have built := Builds.appendRaw [.data []] .nil
    rwa [empty] at built
  have inner : Builds [.append [1] false, .appendList 1, .appendRaw [0x80] 1]
      [.data [1], .list [.data []]] :=
    .append [1] false (.appendList innermost .nil)
  have small : (RlpTree.encodeAll [.data [1], .list [.data []]]).length < tooLarge := by decide
  exact (stream_writes_what_is_read (.list [.data [1], .list [.data []]])).1 _
    (.appendList inner .nil) small

end RlpStream

end Etiam
