import Etiam.Library.Bytes

/-! Recursive length-prefixed data: writing items, and reading them back from a view of bytes. -/

namespace Etiam

/-- The number that a big-endian byte string spells. -/
def beValue (bytes : Bytes) : ℕ := leValue bytes.reverse

/-- The big-endian digits of a number in base 256, without leading zeros, for a number of at most
the given width. -/
def pushInt (width value : ℕ) : Bytes := (leBytes width value).reverse.dropWhile (· == 0)

namespace Rlp

/-- The size of a view that cannot be handled any more. -/
def tooLarge : ℕ := 2 ^ 64 - 1 - 0x100

/-- What stands before a payload of the given length, from a first byte for a length of zero. -/
def pushCount (base count : ℕ) : Bytes :=
  if count < 56 then [UInt8.ofNat (base + count)]
  else UInt8.ofNat (base + 55 + (pushInt 8 count).length) :: pushInt 8 count

/-- Whether a string is one byte that stands for itself. -/
def isSmall : Bytes → Bool
  | [b] => b.toNat < 0x80
  | _ => false

/-- Write a string. -/
def append (s : Bytes) : Bytes := if isSmall s then s else pushCount 0x80 s.length ++ s

/-- Write a number of at most the given width. -/
def appendInt (width value : ℕ) : Bytes :=
  if value = 0 then [0x80]
  else if value < 0x80 then [UInt8.ofNat value]
  else pushCount 0x80 (pushInt width value).length ++ pushInt width value

/-- Write a list with items that are written already. -/
def appendList (items : Bytes) : Bytes := pushCount 0xc0 items.length ++ items

/-- Whether a view starts like a string. -/
def isData : Bytes → Bool
  | [] => false
  | n :: _ => n.toNat < 0xc0

/-- Whether a view starts like a list. -/
def isList : Bytes → Bool
  | [] => false
  | n :: _ => 0xc0 ≤ n.toNat

/-- Whether a view is not null and does not spell a single byte in two. -/
def requireGood : Bytes → Bool
  | [] => false
  | n :: rest => n.toNat != 0x81 || rest.head?.any (0x80 ≤ ·.toNat)

/-- How many bytes give the length, where the first byte is given. -/
def lengthSize (n : ℕ) : ℕ :=
  if n < 0xb8 then 0 else if n < 0xc0 then n - 0xb7 else if n < 0xf8 then 0 else n - 0xf7

/-- The length that some leading bytes give, which must need them all. -/
def longLength (size : ℕ) (rest : Bytes) : Option ℕ :=
  if rest.length < size then none
  else if rest.head? = some 0 then none
  else
    let ret := beValue (rest.take size)
    if ret < 56 then none else if tooLarge ≤ ret then none else some ret

/-- The length of the payload, as the first bytes of a view give it. -/
def length : Bytes → Option ℕ
  | [] => some 0
  | n :: rest =>
    if !requireGood (n :: rest) then none
    else if n.toNat < 0x80 then some 1
    else if n.toNat < 0xb8 then some (n.toNat - 0x80)
    else if n.toNat < 0xc0 then longLength (n.toNat - 0xb7) rest
    else if n.toNat < 0xf8 then some (n.toNat - 0xc0)
    else longLength (n.toNat - 0xf7) rest

/-- Where the payload starts. -/
def payloadOffset : Bytes → ℕ
  | [] => 1
  | n :: _ => if n.toNat < 0x80 then 0 else 1 + lengthSize n.toNat

/-- The size of the item that a view starts with. -/
def actualSize : Bytes → Option ℕ
  | [] => some 0
  | n :: rest =>
    if n.toNat < 0x80 then some 1 else (length (n :: rest)).map (payloadOffset (n :: rest) + ·)

/-- The payload of an item. -/
def payload (d : Bytes) : Option Bytes :=
  match length d with
  | none => none
  | some l =>
    if d.length < l then none
    else if payloadOffset d + l ≤ d.length then some ((d.drop (payloadOffset d)).take l)
    else some []

/-- Whether a view is one item and nothing else. -/
def isWhole (d : Bytes) : Bool := actualSize d == some d.length

/-- The item that a view starts with. -/
def chunk (d : Bytes) : Option Bytes :=
  match actualSize d with
  | none => none
  | some n => if d.length < n then none else some (d.take n)

/-- The item at an index of a row of items, nothing where the row has ended. -/
def nth (d : Bytes) : ℕ → Option Bytes
  | 0 => chunk d
  | i + 1 =>
    match chunk d with
    | none => none
    | some [] => some []
    | some (_ :: rest) => nth (d.drop (rest.length + 1)) i

/-- The item at an index of a list; a string is read like a list. -/
def item (d : Bytes) (i : ℕ) : Option Bytes := (payload d).bind (nth · i)

/-- Count the items of a row that has at most so many bytes. -/
def countItems : ℕ → Bytes → Option ℕ
  | _, [] => some 0
  | 0, _ => none
  | fuel + 1, d =>
    match chunk d with
    | none => none
    | some c => (countItems fuel (d.drop c.length)).map (· + 1)

/-- The number of items of a list, zero for anything else. -/
def itemCount (d : Bytes) : Option ℕ :=
  if isList d then (payload d).bind fun p => countItems p.length p else some 0

/-- Whether an item spells a number without leading zeros. -/
def isInt (d : Bytes) : Option Bool :=
  match d with
  | [] => some false
  | n :: rest =>
    if !requireGood d then none
    else if n.toNat < 0x80 then some (n != 0)
    else if n.toNat = 0x80 then some true
    else if n.toNat < 0xb8 then rest.head?.map (· != 0)
    else if n.toNat < 0xc0 then (rest[n.toNat - 0xb7]?).map (· != 0)
    else some false

/-- The number that an item spells, in at most the given width. -/
def toInt (maxSize : ℕ) (d : Bytes) : Option ℕ :=
  if requireGood d && isInt d == some true && !isList d then
    (payload d).bind fun p => if maxSize < p.length then none else some (beValue p)
  else none

/-- The string of an item, which must have the given size. -/
def toHash (size : ℕ) (d : Bytes) : Option Bytes :=
  if requireGood d then
    (payload d).bind fun p => if isData d && p.length == size then some p else none
  else none

/-- The string of an item; a list is taken for the empty string. -/
def toBytes (d : Bytes) : Option Bytes := if isData d then payload d else some []

end Rlp

section Digits

theorem leValue_append (low high : Bytes) :
    leValue (low ++ high) = leValue low + 256 ^ low.length * leValue high := by
  induction low with
  | nil => simp [leValue]
  | cons b low ih =>
    simp only [List.cons_append, leValue, ih, List.length_cons]
    ring

theorem beValue_zero_cons (bytes : Bytes) : beValue (0 :: bytes) = beValue bytes := by
  simp [beValue, leValue_append, leValue]

theorem beValue_dropWhile (bytes : Bytes) :
    beValue (bytes.dropWhile (· == 0)) = beValue bytes := by
  induction bytes with
  | nil => rfl
  | cons b bytes ih =>
    by_cases zero : b = 0
    · subst zero
      rw [List.dropWhile_cons_of_pos (by rfl), ih, beValue_zero_cons]
    · rw [List.dropWhile_cons_of_neg (by simpa using zero)]

variable {width value : ℕ}

theorem beValue_pushInt (fits : value < 256 ^ width) :
    beValue (pushInt width value) = value := by
  rw [pushInt, beValue_dropWhile, beValue, List.reverse_reverse, leValue_leBytes,
    Nat.mod_eq_of_lt fits]

theorem beValue_lt (s : Bytes) : beValue s < 256 ^ s.length := by
  simpa [beValue] using leValue_lt s.reverse

theorem leBytes_add (fits : value < 256 ^ width) (more : ℕ) :
    leBytes (width + more) value = leBytes width value ++ List.replicate more 0 := by
  induction width generalizing value with
  | zero =>
    obtain rfl : value = 0 := by simpa using fits
    simp only [Nat.zero_add, leBytes, List.nil_append]
    induction more with
    | zero => rfl
    | succ more ih => simpa [leBytes, List.replicate_succ] using ih
  | succ width ih =>
    rw [Nat.succ_add, leBytes, leBytes, ih (by rw [Nat.pow_succ] at fits; omega)]
    rfl

theorem pushInt_beValue {bytes : Bytes} (short : bytes.length ≤ width)
    (trimmed : bytes.head? ≠ some 0) : pushInt width (beValue bytes) = bytes := by
  -- In a wider string the digits are the same ones after zeros, which are dropped.
  obtain ⟨more, rfl⟩ := Nat.exists_eq_add_of_le short
  have exact := leBytes_leValue bytes.reverse
  rw [List.length_reverse] at exact
  rw [pushInt, leBytes_add (beValue_lt bytes), beValue, exact, List.reverse_append,
    List.reverse_reverse, List.reverse_replicate, List.dropWhile_append_of_pos (by simp)]
  cases bytes with
  | nil => rfl
  | cons b bytes => exact List.dropWhile_cons_of_neg (by simpa using trimmed)

theorem length_pushInt_le (width value : ℕ) : (pushInt width value).length ≤ width := by
  have shorter := (List.dropWhile_sublist (l := (leBytes width value).reverse)
    (fun b => b == 0)).length_le
  simpa [pushInt] using shorter

theorem head?_pushInt (width value : ℕ) : (pushInt width value).head? ≠ some 0 := by
  intro zero
  have first := List.head?_dropWhile_not (fun b : UInt8 => b == 0) (leBytes width value).reverse
  rw [pushInt] at zero
  rw [zero] at first
  simp at first

theorem pushInt_ne_nil (fits : value < 256 ^ width) (positive : value ≠ 0) :
    pushInt width value ≠ [] := by
  intro nothing
  have spelled := beValue_pushInt fits
  rw [nothing] at spelled
  exact positive spelled.symm

end Digits

namespace Rlp

/-- The first bytes of strings and of lists. -/
def IsBase (base : ℕ) : Prop := base = 0x80 ∨ base = 0xc0

/-- A string of one byte that could stand for itself is not written with a length. -/
def Good (base count : ℕ) (tail : Bytes) : Prop :=
  base = 0x80 → count = 1 → tail.head?.any (0x80 ≤ ·.toNat) = true

section Lengths

variable {base count : ℕ} {tail : Bytes}

/-- What the first byte of a length says, and the bytes after it. -/
theorem pushCount_cases (kind : IsBase base) (fits : count < tooLarge) :
    count < 56 ∧ (∃ n : UInt8, pushCount base count = [n] ∧ n.toNat = base + count) ∨
    56 ≤ count ∧ ∃ n : UInt8, pushCount base count = n :: pushInt 8 count ∧
      n.toNat = base + 55 + (pushInt 8 count).length ∧ 1 ≤ (pushInt 8 count).length ∧
      (pushInt 8 count).length ≤ 8 := by
  unfold pushCount
  by_cases short : count < 56
  · refine .inl ⟨short, UInt8.ofNat (base + count), by rw [if_pos short], ?_⟩
    rcases kind with rfl | rfl <;> simp <;> omega
  · have filled : pushInt 8 count ≠ [] :=
      pushInt_ne_nil (by unfold tooLarge at fits; omega) (by omega)
    have least := List.length_pos_of_ne_nil filled
    have most := length_pushInt_le 8 count
    refine .inr ⟨by omega, UInt8.ofNat (base + 55 + (pushInt 8 count).length),
      by rw [if_neg short], ?_, least, most⟩
    rcases kind with rfl | rfl <;> simp <;> omega

theorem length_pushCount (kind : IsBase base) (fits : count < tooLarge)
    (good : Good base count tail) : length (pushCount base count ++ tail) = some count ∧
      payloadOffset (pushCount base count ++ tail) = (pushCount base count).length := by
  rcases pushCount_cases kind fits with ⟨short, n, written, first⟩ |
    ⟨long, n, written, first, least, most⟩
  · rw [written, List.singleton_append]
    have fine : requireGood (n :: tail) = true := by
      unfold requireGood
      by_cases two : n.toNat = 0x81
      · rcases kind with rfl | rfl
        · simpa [two] using good rfl (by omega)
        · omega
      · simp [two]
    rcases kind with rfl | rfl
    · refine ⟨?_, ?_⟩
      · rw [length, if_neg (by simp [fine]), if_neg (by omega), if_pos (by omega), first]
        simp
      · rw [payloadOffset, if_neg (by omega), lengthSize, if_pos (by omega)]
        rfl
    · refine ⟨?_, ?_⟩
      · rw [length, if_neg (by simp [fine]), if_neg (by omega), if_neg (by omega),
          if_neg (by omega), if_pos (by omega), first]
        simp
      · rw [payloadOffset, if_neg (by omega), lengthSize, if_neg (by omega), if_neg (by omega),
          if_pos (by omega)]
        rfl
  · rw [written, List.cons_append]
    have fine : requireGood (n :: (pushInt 8 count ++ tail)) = true := by
      have other : n.toNat ≠ 0x81 := by rcases kind with rfl | rfl <;> omega
      simp [requireGood, other]
    -- The digits of the length are all needed, so they are read back as they were written.
    have digits : longLength (pushInt 8 count).length (pushInt 8 count ++ tail) = some count := by
      have front : (pushInt 8 count ++ tail).head? ≠ some 0 := by
        rw [List.head?_append_of_ne_nil _ (List.ne_nil_of_length_pos least)]
        exact head?_pushInt 8 count
      have spelled : beValue (pushInt 8 count) = count :=
        beValue_pushInt (by unfold tooLarge at fits; omega)
      rw [longLength, if_neg (by simp), if_neg front]
      simp only [List.take_left', spelled]
      rw [if_neg (by omega), if_neg (by omega)]
    rcases kind with rfl | rfl
    · refine ⟨?_, ?_⟩
      · rw [length, if_neg (by simp [fine]), if_neg (by omega), if_neg (by omega),
          if_pos (by omega), show n.toNat - 0xb7 = (pushInt 8 count).length by omega, digits]
      · rw [payloadOffset, if_neg (by omega), lengthSize, if_neg (by omega), if_pos (by omega),
          List.length_cons]
        omega
    · refine ⟨?_, ?_⟩
      · rw [length, if_neg (by simp [fine]), if_neg (by omega), if_neg (by omega),
          if_neg (by omega), if_neg (by omega),
          show n.toNat - 0xf7 = (pushInt 8 count).length by omega, digits]
      · rw [payloadOffset, if_neg (by omega), lengthSize, if_neg (by omega), if_neg (by omega),
          if_neg (by omega), List.length_cons]
        omega

theorem least_tooLarge : 56 < tooLarge := by decide

theorem longLength_eq_some {size l : ℕ} {rest : Bytes} (least : 1 ≤ size) (most : size ≤ 8)
    (read : longLength size rest = some l) :
    rest = pushInt 8 l ++ rest.drop size ∧ (pushInt 8 l).length = size ∧ 56 ≤ l ∧
      l < tooLarge := by
  unfold longLength at read
  split at read
  · cases read
  · next enough =>
    split at read
    · cases read
    · next front =>
      simp only at read
      split at read
      · cases read
      · next long =>
        split at read
        · cases read
        · next fits =>
          cases read
          have taken : (rest.take size).length = size := by
            rw [List.length_take]
            omega
          have trimmed : (rest.take size).head? ≠ some 0 := by
            rwa [List.head?_take, if_neg (by omega)]
          have digits : pushInt 8 (beValue (rest.take size)) = rest.take size :=
            pushInt_beValue (by omega) trimmed
          rw [digits]
          exact ⟨(List.take_append_drop size rest).symm, taken, by omega, by omega⟩

theorem good_list (count : ℕ) (tail : Bytes) : Good 0xc0 count tail := fun list => by cases list

theorem length_eq_some {n : UInt8} {rest : Bytes} {l : ℕ} (high : 0x80 ≤ n.toNat)
    (read : length (n :: rest) = some l) :
    ∃ base tail, (base = 0x80 ∧ n.toNat < 0xc0 ∨ base = 0xc0 ∧ 0xc0 ≤ n.toNat) ∧
      n :: rest = pushCount base l ++ tail ∧ l < tooLarge ∧ Good base l tail := by
  have small := n.toNat_lt
  rw [length] at read
  split at read
  · cases read
  · next bad =>
    have fine : requireGood (n :: rest) = true := by simpa using bad
    have byte : ∀ m, n.toNat = m → n = UInt8.ofNat m := by
      rintro m rfl
      exact UInt8.ofNat_toNat.symm
    have shortForm : ∀ base l, n.toNat = base + l → l < 56 →
        n :: rest = pushCount base l ++ rest := by
      intro base l first short
      rw [pushCount, if_pos short, ← byte _ first]
      rfl
    have longForm : ∀ base size l, n.toNat = base + 55 + size → 1 ≤ size → size ≤ 8 →
        longLength size rest = some l →
        n :: rest = pushCount base l ++ rest.drop size ∧ 56 ≤ l ∧ l < tooLarge := by
      intro base size l first least most read
      obtain ⟨split, digits, long, fits⟩ := longLength_eq_some least most read
      refine ⟨?_, long, fits⟩
      rw [pushCount, if_neg (by omega), digits, ← byte _ first, List.cons_append, ← split]
    -- Each range of the first byte is one branch of writing a length.
    split at read
    · omega
    split at read
    · obtain rfl : n.toNat - 0x80 = l := Option.some.inj read
      have good : Good 0x80 (n.toNat - 0x80) rest := fun _ one => by
        simpa [requireGood, show n.toNat = 0x81 by omega] using fine
      have short : n.toNat - 0x80 < 56 := by omega
      exact ⟨0x80, rest, .inl ⟨rfl, by omega⟩, shortForm _ _ (by omega) short,
        short.trans least_tooLarge, good⟩
    split at read
    · obtain ⟨written, long, fits⟩ := longForm 0x80 _ _ (by omega) (by omega) (by omega) read
      exact ⟨0x80, _, .inl ⟨rfl, by omega⟩, written, fits, fun _ one => by omega⟩
    split at read
    · obtain rfl : n.toNat - 0xc0 = l := Option.some.inj read
      have short : n.toNat - 0xc0 < 56 := by omega
      exact ⟨0xc0, rest, .inr ⟨rfl, by omega⟩, shortForm _ _ (by omega) short,
        short.trans least_tooLarge, good_list _ _⟩
    · obtain ⟨written, long, fits⟩ := longForm 0xc0 _ _ (by omega) (by omega) (by omega) read
      exact ⟨0xc0, _, .inr ⟨rfl, by omega⟩, written, fits, good_list _ _⟩

theorem pushCount_eq_cons (kind : IsBase base) (fits : count < tooLarge) :
    ∃ n digits, pushCount base count = n :: digits ∧ base ≤ n.toNat ∧ n.toNat < base + 0x40 := by
  rcases pushCount_cases kind fits with ⟨short, n, written, first⟩ |
    ⟨long, n, written, first, least, most⟩
  · exact ⟨n, [], written, by omega, by omega⟩
  · exact ⟨n, _, written, by omega, by omega⟩

theorem actualSize_pushCount (kind : IsBase base) (fits : count < tooLarge)
    (good : Good base count tail) : actualSize (pushCount base count ++ tail) =
      some ((pushCount base count).length + count) := by
  obtain ⟨read, offset⟩ := length_pushCount kind fits good
  obtain ⟨n, digits, written, low, -⟩ := pushCount_eq_cons kind fits
  have high : ¬ n.toNat < 0x80 := by rcases kind with rfl | rfl <;> omega
  rw [written, List.cons_append] at read offset ⊢
  rw [actualSize, if_neg high, read, offset]
  rfl

theorem payload_pushCount (kind : IsBase base) (fits : count < tooLarge)
    (good : Good base count tail) (enough : tail.length = count) :
    payload (pushCount base count ++ tail) = some tail := by
  obtain ⟨read, offset⟩ := length_pushCount kind fits good
  have whole : (pushCount base count ++ tail).length = (pushCount base count).length + count := by
    rw [List.length_append, enough]
  rw [payload, read, offset]
  simp only
  rw [if_neg (by omega), if_pos (by omega), List.drop_left, ← enough, List.take_length]

end Lengths

/-- A byte string that is one item as it is written. -/
inductive IsItem : Bytes → Prop
  | data (s : Bytes) (fits : s.length < tooLarge) : IsItem (append s)
  | list (p : Bytes) (fits : p.length < tooLarge) : IsItem (appendList p)

section Items

variable {s c d rest : Bytes}

theorem good_of_not_isSmall (long : isSmall s = false) : Good 0x80 s.length (s ++ rest) := by
  intro _ one
  obtain ⟨b, rfl⟩ := List.length_eq_one_iff.mp one
  simpa [isSmall] using long

theorem good_alone (long : isSmall s = false) : Good 0x80 s.length s := by
  have good : Good 0x80 s.length (s ++ []) := good_of_not_isSmall long
  rwa [List.append_nil] at good

theorem isSmall_cases (small : isSmall s = true) : ∃ b : UInt8, s = [b] ∧ b.toNat < 0x80 := by
  match s, small with
  | [b], small => exact ⟨b, rfl, by simpa [isSmall] using small⟩

theorem actualSize_of_isItem (written : IsItem c) (rest : Bytes) :
    actualSize (c ++ rest) = some c.length := by
  cases written with
  | data s fits =>
    cases small : isSmall s with
    | true =>
      obtain ⟨b, rfl, low⟩ := isSmall_cases small
      simp [append, small, actualSize, low]
    | false =>
      rw [append, small, if_neg (by simp), List.append_assoc,
        actualSize_pushCount (.inl rfl) fits (good_of_not_isSmall small), List.length_append]
  | list p fits =>
    rw [appendList, List.append_assoc, actualSize_pushCount (.inr rfl) fits (good_list _ _),
      List.length_append]

theorem chunk_of_isItem (written : IsItem c) (rest : Bytes) : chunk (c ++ rest) = some c := by
  rw [chunk, actualSize_of_isItem written]
  simp

theorem IsItem.ne_nil (written : IsItem c) : c ≠ [] := by
  rintro rfl
  have size := actualSize_of_isItem written [0x80]
  simp [actualSize, length, requireGood, payloadOffset, lengthSize] at size

theorem chunk_eq_some (found : chunk d = some c) (present : d ≠ []) :
    IsItem c ∧ d = c ++ d.drop c.length := by
  obtain ⟨n, rest, rfl⟩ := List.exists_cons_of_ne_nil present
  unfold chunk at found
  split at found
  · cases found
  · next size sized =>
    split at found
    · cases found
    · next enough =>
      have taken : (n :: rest).take size = c := Option.some.inj found
      have split : n :: rest = c ++ (n :: rest).drop c.length := by
        rw [← taken, List.length_take, Nat.min_eq_left (by omega), List.take_append_drop]
      refine ⟨?_, split⟩
      by_cases low : n.toNat < 0x80
      · rw [actualSize, if_pos low] at sized
        have one : 1 = size := Option.some.inj sized
        have itself : c = append [n] := by
          rw [← taken, ← one]
          simp [append, isSmall, low]
        rw [itself]
        exact .data [n] (show 1 < tooLarge by decide)
      · rw [actualSize, if_neg low, Option.map_eq_some_iff] at sized
        obtain ⟨l, read, total⟩ := sized
        obtain ⟨base, tail, kind, written, fits, good⟩ := length_eq_some (by omega) read
        have isBase : IsBase base := kind.imp And.left And.left
        have offset := (length_pushCount isBase fits good).2
        rw [written] at total taken enough
        rw [offset] at total
        have exact : c = pushCount base l ++ tail.take l := by
          rw [← taken, ← total, List.take_length_add_append]
        have long : (tail.take l).length = l := by
          rw [List.length_take]
          rw [List.length_append] at enough
          omega
        rcases kind with ⟨rfl, -⟩ | ⟨rfl, -⟩
        · -- The string is not a small byte, since that would not have been read.
          have notSmall : isSmall (tail.take l) = false := by
            cases small : isSmall (tail.take l) with
            | false => rfl
            | true =>
              obtain ⟨b, one, lowByte⟩ := isSmall_cases small
              rw [one] at long
              have single : l = 1 := long.symm
              subst single
              have front := good rfl rfl
              rw [← List.take_append_drop 1 tail, one] at front
              simp at front
              omega
          have whole : c = append (tail.take l) := by
            rw [exact, append, notSmall, if_neg (by simp), long]
          rw [whole]
          exact .data _ (by omega)
        · have whole : c = appendList (tail.take l) := by rw [exact, appendList, long]
          rw [whole]
          exact .list _ (by omega)

end Items

section Strings

variable {s : Bytes} (fits : s.length < tooLarge)

include fits

theorem append_eq_cons : ∃ n tail, append s = n :: tail ∧
    n.toNat < 0xc0 ∧ requireGood (append s) = true := by
  cases small : isSmall s with
  | true =>
    obtain ⟨b, rfl, low⟩ := isSmall_cases small
    refine ⟨b, [], by simp [append, small], by omega, ?_⟩
    simp [append, small, requireGood]
    omega
  | false =>
    have good : Good 0x80 s.length s := good_alone small
    obtain ⟨n, digits, written, low, high⟩ := pushCount_eq_cons (.inl rfl) fits
    have whole : append s = n :: (digits ++ s) := by
      rw [append, small, if_neg (by simp), written, List.cons_append]
    refine ⟨n, digits ++ s, whole, by omega, ?_⟩
    have read := (length_pushCount (.inl rfl) fits good).1
    rw [written, List.cons_append, length] at read
    rw [whole]
    by_contra bad
    rw [if_pos (by simpa using bad)] at read
    cases read

@[simp] theorem isData_append : isData (append s) = true := by
  obtain ⟨n, tail, written, low, -⟩ := append_eq_cons fits
  simp [written, isData, low]

@[simp] theorem isList_append : isList (append s) = false := by
  obtain ⟨n, tail, written, low, -⟩ := append_eq_cons fits
  simp [written, isList, low]

@[simp] theorem payload_append : payload (append s) = some s := by
  cases small : isSmall s with
  | true =>
    obtain ⟨b, rfl, low⟩ := isSmall_cases small
    have other : b.toNat ≠ 0x81 := by omega
    simp [append, small, payload, length, payloadOffset, requireGood, low, other]
  | false =>
    have good : Good 0x80 s.length s := good_alone small
    rw [append, small, if_neg (by simp)]
    exact payload_pushCount (.inl rfl) fits good rfl

theorem toBytes_append : toBytes (append s) = some s := by
  rw [toBytes, if_pos (isData_append fits), payload_append fits]

theorem toHash_append (size : ℕ) :
    toHash size (append s) = if s.length = size then some s else none := by
  obtain ⟨-, -, -, -, good⟩ := append_eq_cons fits
  simp [toHash, good, payload_append fits, isData_append fits]

/-- A written string spells a number unless it has a leading zero. -/
theorem isInt_append : isInt (append s) = some (s.head? != some 0) := by
  obtain ⟨-, -, -, -, good⟩ := append_eq_cons fits
  cases small : isSmall s with
  | true =>
    obtain ⟨b, rfl, low⟩ := isSmall_cases small
    rw [append, small, if_pos rfl] at good ⊢
    simp [isInt, good, low, bne]
  | false =>
    rw [append, small, if_neg (by simp)] at good ⊢
    obtain ⟨short, n, written, first⟩ | ⟨long, n, written, first, some_digit, most⟩ :=
      pushCount_cases (.inl rfl) fits
    · rw [written, List.singleton_append] at good ⊢
      cases s with
      | nil => simp [isInt, good, first]
      | cons b s =>
        rw [List.length_cons] at first short
        have range : ¬n.toNat < 0x80 ∧ n.toNat ≠ 0x80 ∧ n.toNat < 0xb8 := by omega
        simp [isInt, good, range, bne]
    · rw [written, List.cons_append] at good ⊢
      have range : ¬n.toNat < 0x80 ∧ n.toNat ≠ 0x80 ∧ ¬n.toNat < 0xb8 ∧ n.toNat < 0xc0 := by
        omega
      have place : n.toNat - 0xb7 = (pushInt 8 s.length).length := by omega
      -- The first byte of the string stands after the digits of its length.
      have next : (pushInt 8 s.length ++ s)[n.toNat - 0xb7]? = s.head? := by
        rw [place, List.getElem?_append_right le_rfl, Nat.sub_self, List.head?_eq_getElem?]
      obtain ⟨b, start⟩ : ∃ b, s.head? = some b := by
        cases s with
        | nil => simp at long
        | cons b s => exact ⟨b, rfl⟩
      simp [isInt, good, range, next, start, bne]

theorem toInt_append (maxSize : ℕ) : toInt maxSize (append s) =
      if s.head? = some 0 ∨ maxSize < s.length then none else some (beValue s) := by
  obtain ⟨-, -, -, -, good⟩ := append_eq_cons fits
  rw [toInt, good, isInt_append fits, isList_append fits, payload_append fits]
  by_cases zero : s.head? = some 0
  · simp [zero]
  · simp [zero]

end Strings

section Lists

variable {p : Bytes} (fits : p.length < tooLarge)

include fits

theorem appendList_eq_cons : ∃ n tail, appendList p = n :: tail ∧ 0xc0 ≤ n.toNat := by
  obtain ⟨n, digits, written, low, -⟩ := pushCount_eq_cons (.inr rfl) fits
  exact ⟨n, digits ++ p, by rw [appendList, written, List.cons_append], low⟩

@[simp] theorem isData_appendList : isData (appendList p) = false := by
  obtain ⟨n, tail, written, high⟩ := appendList_eq_cons fits
  simp [written, isData, high]

@[simp] theorem isList_appendList : isList (appendList p) = true := by
  obtain ⟨n, tail, written, high⟩ := appendList_eq_cons fits
  simp [written, isList, high]

@[simp] theorem payload_appendList : payload (appendList p) = some p :=
  payload_pushCount (.inr rfl) fits (good_list _ _) rfl

theorem toBytes_appendList : toBytes (appendList p) = some [] := by
  rw [toBytes, if_neg (by simp [isData_appendList fits])]

theorem toHash_appendList (size : ℕ) : toHash size (appendList p) = none := by
  simp [toHash, payload_appendList fits, isData_appendList fits]

theorem toInt_appendList (maxSize : ℕ) : toInt maxSize (appendList p) = none := by
  simp [toInt, isList_appendList fits]

end Lists

theorem appendInt_eq {width value : ℕ} (fits : value < 256 ^ width) :
    appendInt width value = append (pushInt width value) := by
  have spelled := beValue_pushInt fits
  unfold appendInt
  by_cases zero : value = 0
  · have nothing : pushInt width 0 = [] :=
      pushInt_beValue (show ([] : Bytes).length ≤ width from Nat.zero_le _) nofun
    rw [if_pos zero, zero, nothing]
    rfl
  rw [if_neg zero]
  by_cases low : value < 0x80
  · have wide : 1 ≤ width := by
      by_contra narrow
      obtain rfl : width = 0 := by omega
      simp at fits
      exact zero fits
    have back : (UInt8.ofNat value).toNat = value := by
      simp
      omega
    have one : pushInt width value = [UInt8.ofNat value] := by
      have first : [UInt8.ofNat value].head? ≠ some 0 := by
        intro first
        rw [List.head?_cons, Option.some.injEq] at first
        rw [first] at back
        exact zero back.symm
      have digit := pushInt_beValue wide first
      simpa [beValue, leValue, back] using digit
    rw [if_pos low, one]
    simp [append, isSmall, back, low]
  · have long : isSmall (pushInt width value) = false := by
      by_contra small
      obtain ⟨b, one, below⟩ := isSmall_cases (by simpa using small)
      rw [one] at spelled
      simp [beValue, leValue] at spelled
      omega
    rw [if_neg low, append, long, if_neg (by simp)]

section Rows

variable {c d rest : Bytes} {cs : List Bytes} {i : ℕ}

/-- The items of a row are found at their indices, whatever follows them. -/
theorem nth_flatten (written : ∀ c ∈ cs, IsItem c) (rest : Bytes) (inside : i < cs.length) :
    nth (cs.flatten ++ rest) i = cs[i]? := by
  induction cs generalizing i with
  | nil => simp at inside
  | cons c cs ih =>
    have first : IsItem c := written c List.mem_cons_self
    have found := chunk_of_isItem first (cs.flatten ++ rest)
    rw [List.flatten_cons, List.append_assoc]
    cases i with
    | zero => simpa [nth] using found
    | succ i =>
      obtain ⟨n, tail, rfl⟩ := List.exists_cons_of_ne_nil first.ne_nil
      have later := ih (fun c present => written c (List.mem_cons_of_mem _ present))
        (Nat.lt_of_succ_lt_succ inside)
      rw [nth, found]
      simpa using later

theorem item_of_row (row : payload d = some (cs.flatten ++ rest)) (written : ∀ c ∈ cs, IsItem c)
    (inside : i < cs.length) : item d i = cs[i]? := by
  rw [item, row, Option.bind_some, nth_flatten written rest inside]

theorem nth_eq_some (found : nth d i = some c) (present : c ≠ []) :
    ∃ (cs : List Bytes) (rest : Bytes),
      cs.length = i + 1 ∧ (∀ c ∈ cs, IsItem c) ∧ d = cs.flatten ++ rest := by
  induction i generalizing d with
  | zero =>
    have some_byte : d ≠ [] := by
      rintro rfl
      exact present (Option.some.inj found).symm
    obtain ⟨written, split⟩ := chunk_eq_some found some_byte
    exact ⟨[c], d.drop c.length, rfl, by simpa using written, by simpa using split⟩
  | succ i ih =>
    rw [nth] at found
    split at found
    · cases found
    · exact absurd (Option.some.inj found).symm present
    · next n tail first =>
      have some_byte : d ≠ [] := by
        rintro rfl
        cases first
      obtain ⟨written, split⟩ := chunk_eq_some first some_byte
      obtain ⟨cs, rest, count, items, later⟩ := ih found
      refine ⟨(n :: tail) :: cs, rest, by simp [count], ?_, ?_⟩
      · simpa using ⟨written, items⟩
      · rw [List.flatten_cons, List.append_assoc, ← later]
        exact split

theorem countItems_flatten (written : ∀ c ∈ cs, IsItem c) (rest : Bytes) (fuel : ℕ) :
    countItems (fuel + cs.length) (cs.flatten ++ rest) =
      (countItems fuel rest).map (· + cs.length) := by
  induction cs with
  | nil => simp
  | cons c cs ih =>
    have first : IsItem c := written c List.mem_cons_self
    have found := chunk_of_isItem first (cs.flatten ++ rest)
    have later := ih (fun c present => written c (List.mem_cons_of_mem _ present))
    rw [List.flatten_cons, List.append_assoc, List.length_cons, ← Nat.add_assoc]
    obtain ⟨n, tail, rfl⟩ := List.exists_cons_of_ne_nil first.ne_nil
    rw [List.cons_append] at found ⊢
    rw [countItems, found]
    · simp only [← List.cons_append, List.drop_left, later, Option.map_map]
      rfl
    · simp

theorem countItems_eq_zero {fuel : ℕ} : countItems fuel d = some 0 ↔ d = [] := by
  constructor
  · intro none_left
    cases d with
    | nil => rfl
    | cons n tail =>
      cases fuel with
      | zero => cases none_left
      | succ fuel =>
        simp only [countItems] at none_left
        split at none_left <;> simp at none_left
  · rintro rfl
    cases fuel <;> rfl

theorem length_le_flatten (written : ∀ c ∈ cs, IsItem c) : cs.length ≤ cs.flatten.length := by
  induction cs with
  | nil => simp
  | cons c cs ih =>
    have first := List.length_pos_of_ne_nil (written c List.mem_cons_self).ne_nil
    have later := ih (fun c present => written c (List.mem_cons_of_mem _ present))
    rw [List.flatten_cons, List.length_append, List.length_cons]
    omega

theorem countItems_eq_length (written : ∀ c ∈ cs, IsItem c) :
    countItems (cs.flatten ++ rest).length (cs.flatten ++ rest) = some cs.length ↔ rest = [] := by
  have enough := length_le_flatten written
  obtain ⟨fuel, total⟩ : ∃ fuel, (cs.flatten ++ rest).length = fuel + cs.length :=
    ⟨cs.flatten.length + rest.length - cs.length, by rw [List.length_append]; omega⟩
  rw [total, countItems_flatten written, Option.map_eq_some_iff]
  constructor
  · rintro ⟨count, counted, same⟩
    obtain rfl : count = 0 := by omega
    exact countItems_eq_zero.mp counted
  · intro ended
    exact ⟨0, countItems_eq_zero.mpr ended, by omega⟩

theorem isItem_of_isWhole (whole : isWhole d = true) (present : d ≠ []) : IsItem d := by
  have size : actualSize d = some d.length := by simpa [isWhole] using whole
  have found : chunk d = some d := by simp [chunk, size]
  exact (chunk_eq_some found present).1

theorem item_eq_some (found : item d i = some c) (present : c ≠ []) :
    ∃ (cs : List Bytes) (rest : Bytes), cs.length = i + 1 ∧ (∀ c ∈ cs, IsItem c) ∧
      payload d = some (cs.flatten ++ rest) := by
  rw [item, Option.bind_eq_some_iff] at found
  obtain ⟨p, read, found⟩ := found
  obtain ⟨cs, rest, count, written, rfl⟩ := nth_eq_some found present
  exact ⟨cs, rest, count, written, read⟩

theorem itemCount_eq_length (list : isList d = true)
    (row : payload d = some (cs.flatten ++ rest)) (written : ∀ c ∈ cs, IsItem c) :
    itemCount d = some cs.length ↔ rest = [] := by
  rw [itemCount, if_pos list, row, Option.bind_some, countItems_eq_length written]

theorem eq_appendList (written : IsItem d) (list : isList d = true) (read : payload d = some c) :
    d = appendList c := by
  cases written with
  | data s fits =>
    rw [isList_append fits] at list
    cases list
  | list p fits =>
    rw [payload_appendList fits] at read
    rw [Option.some.inj read]

theorem length_payload_lt (written : IsItem d) (read : payload d = some c) :
    c.length < tooLarge := by
  cases written with
  | data s fits =>
    rw [payload_append fits] at read
    exact Option.some.inj read ▸ fits
  | list p fits =>
    rw [payload_appendList fits] at read
    exact Option.some.inj read ▸ fits

theorem isWhole_of_isItem (written : IsItem c) : isWhole c = true := by
  have size := actualSize_of_isItem written []
  simpa [isWhole] using size

end Rows

/-- Write a value of fixed size. -/
def writeHash {bits : ℕ} (value : BitVec bits) : Bytes :=
  append (leBytes (bits / 8) value.toNat).reverse

/-- Read a value of fixed size. -/
def readHash (bits : ℕ) (c : Bytes) : Option (BitVec bits) :=
  (toHash (bits / 8) c).map fun s => .ofNat bits (beValue s)

/-- Write a machine number. -/
def writeInt {bits : ℕ} (value : BitVec bits) : Bytes := appendInt (bits / 8) value.toNat

/-- Read a machine number. -/
def readInt (bits : ℕ) (c : Bytes) : Option (BitVec bits) :=
  (toInt (bits / 8) c).map (.ofNat bits)

section Values

variable {bits : ℕ} {c : Bytes} {value : BitVec bits}

theorem two_pow_of_whole (whole : 8 * (bits / 8) = bits) : 2 ^ bits = 256 ^ (bits / 8) := by
  conv_lhs => rw [← whole, Nat.pow_mul]

theorem toNat_lt (whole : 8 * (bits / 8) = bits) (value : BitVec bits) :
    value.toNat < 256 ^ (bits / 8) :=
  two_pow_of_whole whole ▸ value.isLt

theorem isItem_writeHash (fits : bits / 8 < tooLarge) (value : BitVec bits) :
    IsItem (writeHash value) :=
  .data _ (by simpa using fits)

section

variable (whole : 8 * (bits / 8) = bits)

include whole

theorem isItem_writeInt (fits : bits / 8 < tooLarge) (value : BitVec bits) :
    IsItem (writeInt value) := by
  rw [writeInt, appendInt_eq (toNat_lt whole value)]
  exact .data _ (lt_of_le_of_lt (length_pushInt_le _ _) fits)

@[simp] theorem readHash_writeHash (fits : bits / 8 < tooLarge) (value : BitVec bits) :
    readHash bits (writeHash value) = some value := by
  have short : (leBytes (bits / 8) value.toNat).reverse.length = bits / 8 := by simp
  rw [readHash, writeHash, toHash_append (short.trans_lt fits), if_pos short, Option.map_some,
    beValue,
    List.reverse_reverse, leValue_leBytes, Nat.mod_eq_of_lt (toNat_lt whole value),
    BitVec.ofNat_toNat, BitVec.setWidth_eq]

@[simp] theorem readInt_writeInt (fits : bits / 8 < tooLarge) (value : BitVec bits) :
    readInt bits (writeInt value) = some value := by
  have small := toNat_lt whole value
  have short := length_pushInt_le (bits / 8) value.toNat
  rw [readInt, writeInt, appendInt_eq small, toInt_append (lt_of_le_of_lt short fits),
    if_neg (not_or.mpr ⟨head?_pushInt _ _, Nat.not_lt.mpr short⟩), Option.map_some,
    beValue_pushInt small, BitVec.ofNat_toNat, BitVec.setWidth_eq]

theorem eq_writeHash (written : IsItem c) (read : readHash bits c = some value) :
    c = writeHash value := by
  rw [readHash, Option.map_eq_some_iff] at read
  obtain ⟨s, read, rfl⟩ := read
  cases written with
  | data t fits =>
    rw [toHash_append fits] at read
    split at read
    · next size =>
      obtain rfl : t = s := Option.some.inj read
      have small : beValue t < 2 ^ bits := by
        rw [two_pow_of_whole whole, ← size]
        exact beValue_lt t
      have digits := leBytes_leValue t.reverse
      rw [List.length_reverse, size] at digits
      rw [writeHash, BitVec.toNat_ofNat, Nat.mod_eq_of_lt small, beValue, digits,
        List.reverse_reverse]
    · cases read
  | list p fits =>
    rw [toHash_appendList fits] at read
    cases read

theorem eq_writeInt (written : IsItem c) (read : readInt bits c = some value) :
    c = writeInt value := by
  rw [readInt, Option.map_eq_some_iff] at read
  obtain ⟨v, read, rfl⟩ := read
  cases written with
  | data t fits =>
    rw [toInt_append fits] at read
    split at read
    · cases read
    · next trimmed =>
      obtain ⟨trimmed, short⟩ := not_or.mp trimmed
      obtain rfl : beValue t = v := Option.some.inj read
      have small : beValue t < 2 ^ bits := by
        rw [two_pow_of_whole whole]
        exact lt_of_lt_of_le (beValue_lt t) (Nat.pow_le_pow_right (by decide) (by omega))
      rw [writeInt, BitVec.toNat_ofNat, Nat.mod_eq_of_lt small,
        appendInt_eq (two_pow_of_whole whole ▸ small), pushInt_beValue (by omega) trimmed]
  | list p fits =>
    rw [toInt_appendList fits] at read
    cases read

end

theorem length_append_le (s : Bytes) : (append s).length ≤ 9 + s.length := by
  have digits := length_pushInt_le 8 s.length
  unfold append pushCount
  split
  · omega
  · split
    · simp
    · simp
      omega

theorem length_writeHash_le (value : BitVec bits) : (writeHash value).length ≤ 9 + bits / 8 := by
  have size := length_append_le (leBytes (bits / 8) value.toNat).reverse
  rwa [List.length_reverse, leBytes_length] at size

theorem length_writeInt_le (whole : 8 * (bits / 8) = bits) (value : BitVec bits) :
    (writeInt value).length ≤ 9 + bits / 8 := by
  have size := length_append_le (pushInt (bits / 8) value.toNat)
  have digits := length_pushInt_le (bits / 8) value.toNat
  rw [writeInt, appendInt_eq (toNat_lt whole value)]
  omega

theorem ne_nil_of_readInt (read : readInt bits c = some value) : c ≠ [] := by
  rintro rfl
  simp [readInt, toInt, requireGood] at read

/-- An item that is read as a string is that string, or a list that is taken for the empty one. -/
theorem eq_append_of_toBytes {s : Bytes} (written : IsItem c) (read : toBytes c = some s) :
    (isData c = true ∧ s.length < tooLarge ∧ c = append s) ∨ (isData c = false ∧ s = []) := by
  cases written with
  | data t fits =>
    rw [toBytes_append fits] at read
    obtain rfl : t = s := Option.some.inj read
    exact .inl ⟨isData_append fits, fits, rfl⟩
  | list p fits =>
    rw [toBytes_appendList fits] at read
    exact .inr ⟨isData_appendList fits, (Option.some.inj read).symm⟩

end Values

end Rlp

end Etiam
